import Mathlib.Data.List.Dedup
import TraceScript.Proofs.Ending

namespace TraceScript

open TraceScript.Flow

/-- The index of the slot that is executed after the one at an index. `taken` is the outcome of the
comparison of a test. -/
def Slot.next (s : Slot) (i : Int) (taken : Bool) : Int :=
  if s.isJump && (taken || !s.isTest) then i + 1 + s.off.toInt
  else if s.isWide then i + 2
  else i + 1

namespace Bytecode

def fetch (code : Array Slot) (i : Int) : Option Slot := if 0 ≤ i then code[i.toNat]? else none

/-- The index of the slot that is executed after some others, if the tests among them have the given
outcomes. It stays where the code is left. -/
def walk (code : Array Slot) (outcomes : Nat → Bool) (i : Int) : Nat → Int
  | 0 => i
  | n + 1 =>
    match fetch code i with
    | some s => walk code (fun k => outcomes (k + 1)) (s.next i (outcomes 0)) n
    | none => i

/-- The slot at an index is not the second half of a constant. -/
def Starts (code : Array Slot) (i : Nat) : Prop :=
  ∀ j s, j + 1 = i → code[j]? = some s → s.isWide = false

/-- Whatever the outcomes of tests are, the code exits after at most so many slots, and executes only
slots at which an instruction starts. -/
def Exits (code : Array Slot) (i : Nat) : Nat → Prop
  | 0 => False
  | n + 1 => Starts code i ∧ ∃ s, code[i]? = some s ∧
      (s = .exit ∨ s.isExit = false ∧ ∀ taken, ∃ j : Nat, s.next i taken = j ∧ Exits code j n)

variable {code : Array Slot}

theorem Exits.mono {i m n : Nat} (h : Exits code i m) (hmn : m ≤ n) : Exits code i n := by
  induction m generalizing i n with
  | zero => exact h.elim
  | succ m ih =>
    obtain ⟨n, rfl⟩ : ∃ n', n = n' + 1 := ⟨n - 1, by omega⟩
    obtain ⟨hstarts, s, hs, hrest⟩ := h
    refine ⟨hstarts, s, hs, hrest.imp id fun hnext => ⟨hnext.1, fun taken => ?_⟩⟩
    obtain ⟨j, hj, hexits⟩ := hnext.2 taken
    exact ⟨j, hj, ih hexits (Nat.le_of_succ_le_succ hmn)⟩

theorem fetch_natCast (i : Nat) : fetch code i = code[i]? := if_pos (Int.natCast_nonneg i)

theorem Exits.walk {i n : Nat} (h : Exits code i n) (outcomes : Nat → Bool) :
    ∃ k < n, fetch code (walk code outcomes i k) = some .exit ∧
      ∀ m ≤ k, ∃ j : Nat, walk code outcomes i m = j ∧ j < code.size ∧ Starts code j ∧
        (m < k → code[j]?.all fun s => !s.isExit) := by
  induction n generalizing i outcomes with
  | zero => exact h.elim
  | succ n ih =>
    obtain ⟨hstarts, s, hs, rfl | ⟨hexit, hnext⟩⟩ := h
    · refine ⟨0, Nat.succ_pos n, (fetch_natCast i).trans hs, fun m hm => ?_⟩
      obtain rfl := Nat.le_zero.1 hm
      exact ⟨i, rfl, (Array.getElem?_eq_some_iff.1 hs).1, hstarts, fun h => (h.ne rfl).elim⟩
    · obtain ⟨j, hj, hexits⟩ := hnext (outcomes 0)
      obtain ⟨k, hk, hend, hall⟩ := ih hexits fun k => outcomes (k + 1)
      have hstep : ∀ m, Bytecode.walk code outcomes i (m + 1) =
          Bytecode.walk code (fun k => outcomes (k + 1)) j m := by
        intro m
        rw [Bytecode.walk, fetch_natCast, hs]
        dsimp only
        rw [hj]
      refine ⟨k + 1, Nat.succ_lt_succ hk, by rw [hstep]; exact hend, fun m hm => ?_⟩
      cases m with
      | zero =>
        refine ⟨i, rfl, (Array.getElem?_eq_some_iff.1 hs).1, hstarts, fun _ => ?_⟩
        rw [hs, Option.all_some, hexit]
        rfl
      | succ m =>
        obtain ⟨j', hj', hlt, hstarts', hexit'⟩ := hall m (Nat.le_of_succ_le_succ hm)
        exact ⟨j', (hstep m).trans hj', hlt, hstarts', fun h => hexit' (Nat.lt_of_succ_lt_succ h)⟩

end Bytecode

namespace Slot

theorem next_of_plain {s : Slot} (h : s.isPlain) (i : Int) (taken : Bool) : s.next i taken = i + 1 := by
  simp only [isPlain, Bool.and_eq_true, Bool.not_eq_true'] at h
  simp [next, h]

theorem isExit_of_plain {s : Slot} (h : s.isPlain) : s.isExit = false := by
  simp only [isPlain, Bool.and_eq_true, Bool.not_eq_true'] at h
  exact h.1.2

theorem isWide_of_plain {s : Slot} (h : s.isPlain) : s.isWide = false := by
  simp only [isPlain, Bool.and_eq_true, Bool.not_eq_true'] at h
  exact h.2

theorem isJump_of_plain {s : Slot} (h : s.isPlain) : s.isJump = false := by
  simp only [isPlain, Bool.and_eq_true, Bool.not_eq_true'] at h
  exact h.1.1

theorem other_of_isJump {s : Slot} (h : s.isJump) : s.isExit = false ∧ s.isWide = false := by
  constructor
  · simp only [isJump, Bool.and_eq_true, bne_iff_ne] at h
    simp [isExit, h.2]
  · by_contra hwide
    have hcode : s.code = wideCode := by simpa [isWide] using hwide
    have hclass : s.isJump = (Slot.mk wideCode 0 0 0 0).isJump := hcode ▸ rfl
    rw [hclass] at h
    exact absurd h (by decide)

theorem isJump_of_isWide {s : Slot} (h : s.isWide) : s.isJump = false := by
  by_contra hjump
  rw [(other_of_isJump (by simpa using hjump)).2] at h
  cases h

theorem isJump_upperHalf (value : Int64) : (upperHalf value).isJump = false := by
  change (Slot.mk 0 0 0 0 0).isJump = false
  decide

theorem isJump_of_isTest {s : Slot} (h : s.isTest) : s.isJump := (Bool.and_eq_true_iff.1 h).1

theorem isWide_of_isTest {s : Slot} (h : s.isTest) : s.isWide = false :=
  (other_of_isJump (isJump_of_isTest h)).2

end Slot

namespace Emit

/-- The slots of a block: pieces, tests that may leave it, and a last slot that leaves it in any
case. -/
inductive Body (ids : List MapId) (bs : List BlockId) : List Draft → Prop
  | exit : Body ids bs [draft .exit]
  | goto {b : BlockId} : b ∈ bs → Body ids bs [{ slot := .jump 0, target := some b }]
  | test {s : Slot} {b : BlockId} {ds : List Draft} : s.isTest → b ∈ bs → Body ids bs ds →
      Body ids bs ({ slot := s, target := some b } :: ds)
  | piece {ss : List Slot} {ds : List Draft} : Piece ids (fun _ => True) ss → Body ids bs ds →
      Body ids bs (ss.map draft ++ ds)

section

variable {ids : List MapId} {bs : List BlockId} {a : Allocation}

/-- The scope of an instruction that does not end a block. -/
def Scope.pieces (ids : List MapId) : Scope := ⟨Piece ids fun _ => True, fun _ _ => False, fun _ => True⟩

theorem admits_pieces : (Scope.pieces ids).Admits a ids fun _ => True :=
  ⟨usable_all a, fun _ h => h, fun _ => trivial⟩

theorem Body.of_row {ds es : List Draft} (h : Row (.pieces ids) ds) (hes : Body ids bs es) :
    Body ids bs (ds ++ es) := by
  induction h with
  | nil => exact hes
  | group hp _ ih =>
    rw [List.append_assoc]
    exact .piece hp ih
  | jump hj => exact hj.elim

theorem written_straight {i : Instruction} (hstraight : i.isFinal = false)
    (hids : ∀ x ∈ i.maps, x ∈ ids) :
    Written (.pieces ids) (fun _ => True) fun _ => instruction a i := by
  refine written_instruction admits_pieces ⟨fun _ _ _ => trivial, fun _ _ _ _ _ _ => trivial,
    fun b hb => ?_, ?_⟩ hids
  · rw [targets_of_straight hstraight] at hb
    cases hb
  · rintro rfl
    cases hstraight

theorem body_of_final {i : Instruction} (hfinal : i.isFinal) (hi : Succeeds (instruction a i)) :
    Body ids i.targets (drafts (instruction a i)) := by
  cases i with
  | branch cond yes no =>
    obtain ⟨ds, hread, hdrafts⟩ := drafts_branch hi
    have hwritten : Written (.pieces ids) _ fun _ => read a cond scratch₁ :=
      written_read admits_pieces (fun _ => trivial) (by decide)
    have hrow := hwritten.row ⟨_, _, hread⟩
    rw [drafts, hread] at hrow
    rw [hdrafts]
    exact .of_row hrow (.test (Slot.tests_jumpImm .ne ..).isTest List.mem_cons_self
      (.goto (List.mem_cons_of_mem _ List.mem_cons_self)))
  | jump target => exact .goto List.mem_cons_self
  | ret => exact .piece (.straight (Slot.straight_movImm _ trivial)) .exit
  | _ => cases hfinal

/-- The code of a block is written as a body that leads to the blocks that its last instruction
names. -/
theorem body_of_code {c : List Instruction} {i : Instruction}
    (hstraight : ∀ j ∈ c, j.isFinal = false) (hfinal : i.isFinal)
    (hids : ∀ j ∈ c, ∀ x ∈ j.maps, x ∈ ids) (hall : ∀ j ∈ c ++ [i], Succeeds (instruction a j)) :
    Body ids i.targets (codeDrafts a (c ++ [i])) := by
  have hlast : codeDrafts a [i] = drafts (instruction a i) := List.flatMap_singleton ..
  rw [codeDrafts_append, hlast]
  exact .of_row (row_codeDrafts (fun j hj => written_straight (hstraight j hj) (hids j hj))
      fun j hj => hall j (List.mem_append_left _ hj))
    (body_of_final hfinal (hall i (List.mem_append_right _ List.mem_cons_self)))

end

/-- Some drafts lie in code from an index on. -/
def Lies (code : Array Slot) (starts : Array Nat) (i : Nat) (ds : List Draft) : Prop :=
  ∀ (k : Nat) (d : Draft), ds[k]? = some d → ∃ s, aim starts (i + k) d = .ok s ∧ code[i + k]? = some s

namespace Lies

variable {code : Array Slot} {starts : Array Nat} {i : Nat} {ds es : List Draft}

theorem tail {d : Draft} (h : Lies code starts i (d :: ds)) : Lies code starts (i + 1) ds := by
  intro k d' hd
  have hk := h (k + 1) d' hd
  rwa [← Nat.add_assoc, Nat.add_right_comm] at hk

theorem right (h : Lies code starts i (ds ++ es)) : Lies code starts (i + ds.length) es := by
  intro k d hd
  have hget : (ds ++ es)[ds.length + k]? = some d := by
    rw [List.getElem?_append_right (Nat.le_add_right _ _), Nat.add_sub_cancel_left]
    exact hd
  have hk := h (ds.length + k) d hget
  rwa [← Nat.add_assoc] at hk

theorem slot {s : Slot} (h : Lies code starts i (draft s :: ds)) : code[i]? = some s := by
  obtain ⟨s', haim, hs'⟩ := h 0 (draft s) rfl
  obtain rfl := Except.ok.inj haim
  exact hs'

theorem goto {s : Slot} {b : BlockId} (h : Lies code starts i ({ slot := s, target := some b } :: ds)) :
    ∃ start s', starts[b]? = some start ∧ code[i]? = some s' ∧ s'.off.toInt = (start : Int) - i - 1 ∧
      s' = { s with off := s'.off } := by
  obtain ⟨s', haim, hs'⟩ := h 0 _ rfl
  obtain ⟨hnone, -⟩ | ⟨b', start, hb, hstart, hoff, heq⟩ := aim_ok haim
  · cases hnone
  · obtain rfl := Option.some.inj hb
    exact ⟨start, s', hstart, hs', hoff, heq⟩

theorem lt_size (h : Lies code starts i ds) (hds : ds ≠ []) : i < code.size := by
  cases ds with
  | nil => exact (hds rfl).elim
  | cons d ds =>
    obtain ⟨s, -, hs⟩ := h 0 d rfl
    exact (Array.getElem?_eq_some_iff.1 hs).1

end Lies

open Bytecode (Starts Exits)

section

variable {code : Array Slot} {starts : Array Nat} {i n : Nat} {ids : List MapId} {W : UInt8 → Prop}
  {bs : List BlockId} {ss : List Slot} {ds : List Draft}

theorem starts_succ {s : Slot} (hs : code[i]? = some s) (hwide : s.isWide = false) :
    Starts code (i + 1) := by
  rintro j s' hj hs'
  obtain rfl := Nat.succ.inj hj
  obtain rfl := Option.some.inj (hs.symm.trans hs')
  exact hwide

theorem exits_step {s : Slot} {j : Nat} (hi : Starts code i) (hs : code[i]? = some s)
    (hexit : s.isExit = false) (hnext : ∀ taken, s.next i taken = j) (hj : Exits code j n) :
    Exits code i (n + 1) :=
  ⟨hi, s, hs, .inr ⟨hexit, fun taken => ⟨j, hnext taken, hj⟩⟩⟩

theorem exits_test {s : Slot} {j : Nat} (hi : Starts code i) (hs : code[i]? = some s)
    (htest : s.isTest) (hoff : s.off.toInt = (j : Int) - i - 1) (hj : Exits code j n)
    (hrest : Exits code (i + 1) n) : Exits code i (n + 1) := by
  have hjump := Slot.isJump_of_isTest htest
  obtain ⟨hexit, hwide⟩ := Slot.other_of_isJump hjump
  refine ⟨hi, s, hs, .inr ⟨hexit, fun taken => ?_⟩⟩
  cases taken with
  | true => exact ⟨j, by simp only [Slot.next, hjump, hoff]; simp, hj⟩
  | false => exact ⟨i + 1, by simp [Slot.next, hjump, htest, hwide], hrest⟩

theorem next_jump (off : Int16) (i : Int) (taken : Bool) :
    (Slot.jump off).next i taken = i + 1 + off.toInt := by
  have hjump : (Slot.jump off).isJump = true ∧ (Slot.jump off).isTest = false := by
    change (Slot.mk (Opcode.jmp ||| Opcode.ja) 0 0 0 0).isJump = true ∧
      (Slot.mk (Opcode.jmp ||| Opcode.ja) 0 0 0 0).isTest = false
    decide
  rw [Slot.next, hjump.1, hjump.2]
  simp [Slot.jump, Slot.ofRegs]

theorem isExit_jump (off : Int16) : (Slot.jump off).isExit = false := by
  change (Slot.mk (Opcode.jmp ||| Opcode.ja) 0 0 0 0).isExit = false
  decide

theorem starts_straight (h : ∀ s ∈ ss, s.Straight W) (hl : Lies code starts i (ss.map draft ++ ds))
    (hi : Starts code i) : Starts code (i + ss.length) := by
  induction ss generalizing i with
  | nil => exact hi
  | cons s ss ih =>
    have hs := Slot.isWide_of_plain (h s List.mem_cons_self).plain
    have hrest := ih (fun x hx => h x (List.mem_cons_of_mem _ hx)) hl.tail (starts_succ hl.slot hs)
    rwa [Nat.add_right_comm] at hrest

theorem exits_straight (h : ∀ s ∈ ss, s.Straight W) (hl : Lies code starts i (ss.map draft ++ ds))
    (hi : Starts code i) (hrest : Exits code (i + ss.length) n) : Exits code i (ss.length + n) := by
  induction ss generalizing i with
  | nil =>
    rw [List.length_nil, Nat.zero_add]
    exact hrest
  | cons s ss ih =>
    have hs := h s List.mem_cons_self
    rw [List.length_cons, Nat.add_right_comm]
    refine exits_step hi hl.slot (Slot.isExit_of_plain hs.plain)
      (fun taken => Slot.next_of_plain hs.plain i taken) ?_
    refine ih (fun x hx => h x (List.mem_cons_of_mem _ hx)) hl.tail
      (starts_succ hl.slot (Slot.isWide_of_plain hs.plain)) ?_
    rw [Nat.add_right_comm]
    exact hrest

theorem exits_wide {s s' : Slot} (hwide : s.isWide)
    (hl : Lies code starts i (draft s :: draft s' :: ds)) (hi : Starts code i)
    (hrest : Exits code (i + 2) n) : Exits code i (n + 2) := by
  have hjump := Slot.isJump_of_isWide hwide
  have hexit : s.isExit = false := by
    have hcode : s.code = Slot.wideCode := by simpa [Slot.isWide] using hwide
    change (Slot.mk s.code 0 0 0 0).isExit = false
    rw [hcode]
    decide
  refine exits_step (n := n + 1) hi hl.slot hexit (fun taken => ?_) (hrest.mono (Nat.le_succ n))
  simp [Slot.next, hjump, hwide]

theorem Piece.starts_end (h : Piece ids W ss) (hl : Lies code starts i (ss.map draft ++ ds)) :
    Starts code (i + ss.length) := by
  cases h with
  | straight hs => exact starts_succ hl.slot (Slot.isWide_of_plain hs.plain)
  | wide value hd => exact starts_succ hl.tail.slot (by rfl)
  | map hid hd => exact starts_succ hl.tail.slot (by rfl)
  | skip htest hoff hall =>
    have hwide := Slot.isWide_of_isTest htest.isTest
    rw [List.length_cons, ← Nat.add_assoc, Nat.add_right_comm]
    exact starts_straight hall hl.tail (starts_succ hl.slot hwide)
  | @choose s d htest hoff hd =>
    have hlast := Slot.straight_movImm 1 hd
    exact starts_succ hl.tail.tail.tail.slot (Slot.isWide_of_plain hlast.plain)

theorem Piece.exits (h : Piece ids W ss) (hl : Lies code starts i (ss.map draft ++ ds))
    (hi : Starts code i) (hrest : Exits code (i + ss.length) n) : Exits code i (ss.length + n) := by
  cases h with
  | straight hs => exact exits_straight (fun x hx => List.mem_singleton.1 hx ▸ hs) hl hi hrest
  | wide value hd =>
    rw [Nat.add_comm]
    exact exits_wide (by rfl) hl hi hrest
  | map hid hd =>
    rw [Nat.add_comm]
    exact exits_wide (by rfl) hl hi hrest
  | @skip s ss htest hoff hall =>
    have hwide := Slot.isWide_of_isTest htest.isTest
    rw [List.length_cons, ← Nat.add_assoc, Nat.add_right_comm] at hrest
    rw [List.length_cons, Nat.add_right_comm]
    refine exits_test (j := i + 1 + ss.length) hi hl.slot htest.isTest (by omega)
      (hrest.mono (Nat.le_add_left ..)) ?_
    exact exits_straight hall hl.tail (starts_succ hl.slot hwide) hrest
  | @choose s d htest hoff hd =>
    have hwide := Slot.isWide_of_isTest htest.isTest
    have hzero := (Slot.straight_movImm 0 hd).plain
    have hone := (Slot.straight_movImm 1 hd).plain
    have hjump : (Slot.jump 1).isWide = false := by rfl
    have h₁ := starts_succ hl.slot hwide
    have h₂ := starts_succ hl.tail.slot (Slot.isWide_of_plain hzero)
    have h₃ := starts_succ hl.tail.tail.slot hjump
    have hend : Exits code (i + 1 + 1 + 1) (n + 1) :=
      exits_step h₃ hl.tail.tail.tail.slot (Slot.isExit_of_plain hone)
        (fun taken => Slot.next_of_plain hone _ taken) hrest
    have hpass : Exits code (i + 1 + 1) (n + 1) :=
      exits_step h₂ hl.tail.tail.slot (isExit_jump 1) (fun taken => by rw [next_jump]; rfl) hrest
    have hleft : Exits code (i + 1) (n + 1 + 1) :=
      exits_step h₁ hl.tail.slot (Slot.isExit_of_plain hzero)
        (fun taken => Slot.next_of_plain hzero _ taken) hpass
    have hall : Exits code i (n + 1 + 1 + 1) :=
      exits_test hi hl.slot htest.isTest (by omega) (hend.mono (Nat.le_succ _)) hleft
    exact hall.mono (by simp only [List.length_cons, List.length_nil]; omega)

theorem Body.exits (h : Body ids bs ds) (hl : Lies code starts i ds) (hi : Starts code i)
    (hbs : ∀ b ∈ bs, ∀ start, starts[b]? = some start → Exits code start n) :
    Exits code i (ds.length + n) := by
  induction h generalizing i with
  | exit =>
    rw [List.length_singleton, Nat.add_comm]
    exact ⟨hi, _, hl.slot, .inl rfl⟩
  | goto hb =>
    obtain ⟨start, s, hstart, hs, hoff, heq⟩ := hl.goto
    rw [List.length_singleton, Nat.add_comm]
    rw [heq] at hs
    refine exits_step hi hs (isExit_jump s.off) (fun taken => ?_) (hbs _ hb start hstart)
    refine (next_jump s.off i taken).trans ?_
    omega
  | test htest hb _ ih =>
    obtain ⟨start, s, hstart, hs, hoff, heq⟩ := hl.goto
    have htest' : s.isTest := by rw [heq]; exact htest
    have hwide := Slot.isWide_of_isTest htest'
    rw [List.length_cons, Nat.add_right_comm]
    exact exits_test hi hs htest' hoff ((hbs _ hb start hstart).mono (Nat.le_add_left ..))
      (ih hl.tail (starts_succ hs hwide))
  | @piece ss ds hp _ ih =>
    rw [List.length_append, List.length_map, Nat.add_assoc]
    have hright := hl.right
    rw [List.length_map] at hright
    exact hp.exits hl hi (ih hright (hp.starts_end hl))

theorem Body.ne_nil (h : Body ids bs ds) : ds ≠ [] := by
  induction h with
  | piece _ _ ih => exact List.append_ne_nil_of_right_ne_nil _ ih
  | _ => exact List.cons_ne_nil _ _

theorem Body.starts_end (h : Body ids bs ds) (hl : Lies code starts i ds) (hi : Starts code i) :
    Starts code (i + ds.length) := by
  induction h generalizing i with
  | exit => exact starts_succ hl.slot (by rfl)
  | goto hb =>
    obtain ⟨start, s, -, hs, -, heq⟩ := hl.goto
    exact starts_succ hs (by rw [heq]; rfl)
  | test htest hb _ ih =>
    obtain ⟨start, s, -, hs, -, heq⟩ := hl.goto
    have htest' : s.isTest := by rw [heq]; exact htest
    have hwide := Slot.isWide_of_isTest htest'
    have hrest := ih hl.tail (starts_succ hs hwide)
    rwa [Nat.add_right_comm] at hrest
  | piece hp _ ih =>
    have hright := hl.right
    rw [List.length_map] at hright
    rw [List.length_append, List.length_map, ← Nat.add_assoc]
    exact ih hright (hp.starts_end hl)

/-- A jump lands on an instruction inside the code. -/
def Lands (code : Array Slot) (i : Nat) (s : Slot) : Prop :=
  ∃ j : Nat, (j : Int) = i + 1 + s.off.toInt ∧ j < code.size ∧ Starts code j

theorem Piece.lands (h : Piece ids W ss) (hl : Lies code starts i (ss.map draft ++ ds))
    (hds : ds ≠ []) {k : Nat} {s : Slot} (hs : ss[k]? = some s) (hjump : s.isJump) :
    Lands code (i + k) s := by
  have hright := hl.right
  rw [List.length_map] at hright
  have hend := h.starts_end hl
  have hsize := hright.lt_size hds
  have hmem := List.mem_of_getElem? hs
  cases h with
  | straight hx =>
    obtain rfl := List.mem_singleton.1 hmem
    rw [Slot.isJump_of_plain hx.plain] at hjump
    cases hjump
  | wide value hd =>
    rcases List.mem_cons.1 hmem with rfl | hmem
    · rw [Slot.isJump_of_isWide (by rfl)] at hjump
      cases hjump
    · obtain rfl := List.mem_singleton.1 hmem
      rw [Slot.isJump_upperHalf] at hjump
      cases hjump
  | map hid hd =>
    rcases List.mem_cons.1 hmem with rfl | hmem
    · rw [Slot.isJump_of_isWide (by rfl)] at hjump
      cases hjump
    · obtain rfl := List.mem_singleton.1 hmem
      rw [Slot.isJump_upperHalf] at hjump
      cases hjump
  | @skip x ss htest hoff hall =>
    cases k with
    | zero =>
      obtain rfl : x = s := Option.some.inj hs
      refine ⟨i + (x :: ss).length, ?_, hsize, hend⟩
      rw [List.length_cons]
      omega
    | succ k =>
      have hx := hall s (List.mem_of_getElem? hs)
      rw [Slot.isJump_of_plain hx.plain] at hjump
      cases hjump
  | @choose x d htest hoff hd =>
    have hmov : ∀ imm, (Slot.movImm d imm).isJump = false := fun imm =>
      Slot.isJump_of_plain (Slot.straight_movImm imm hd).plain
    match k with
    | 0 =>
      obtain rfl : x = s := Option.some.inj hs
      have hlast := starts_succ hl.tail.tail.slot (show (Slot.jump 1).isWide = false by rfl)
      refine ⟨i + 3, by omega, ?_, hlast⟩
      simp only [List.length_cons, List.length_nil] at hsize
      omega
    | 1 =>
      obtain rfl := Option.some.inj hs
      rw [hmov] at hjump
      cases hjump
    | 2 =>
      obtain rfl := Option.some.inj hs
      exact ⟨i + 4, by rfl, hsize, hend⟩
    | 3 =>
      obtain rfl := Option.some.inj hs
      rw [hmov] at hjump
      cases hjump
    | k + 4 => cases hs

theorem Body.lands (h : Body ids bs ds) (hl : Lies code starts i ds)
    (hbs : ∀ b ∈ bs, ∀ start, starts[b]? = some start → start < code.size ∧ Starts code start)
    {k : Nat} {s : Slot} (hk : k < ds.length) (hs : code[i + k]? = some s) (hjump : s.isJump) :
    Lands code (i + k) s := by
  have hgoto : ∀ {i : Nat} {x : Slot} {b : BlockId} {ds : List Draft}, b ∈ bs →
      Lies code starts i ({ slot := x, target := some b } :: ds) → code[i]? = some s →
      Lands code i s := by
    intro i x b ds hb hl hs
    obtain ⟨start, s', hstart, hs', hoff, -⟩ := hl.goto
    obtain rfl := Option.some.inj (hs.symm.trans hs')
    obtain ⟨hlt, hstarts⟩ := hbs b hb start hstart
    exact ⟨start, by omega, hlt, hstarts⟩
  induction h generalizing i k with
  | exit =>
    obtain rfl : k = 0 := by simpa using hk
    obtain rfl := Option.some.inj (hl.slot.symm.trans hs)
    cases hjump
  | goto hb =>
    obtain rfl : k = 0 := by simpa using hk
    exact hgoto hb hl hs
  | test _ hb _ ih =>
    cases k with
    | zero => exact hgoto hb hl hs
    | succ k =>
      rw [← Nat.add_assoc, Nat.add_right_comm] at hs ⊢
      exact ih hl.tail (Nat.lt_of_succ_lt_succ hk) hs
  | @piece ss ds hp hbody ih =>
    have hright := hl.right
    rw [List.length_map] at hright
    by_cases hin : k < ss.length
    · obtain ⟨x, haim, hx⟩ := hl k (draft ss[k]) (by
        rw [List.getElem?_append_left (by rwa [List.length_map]), List.getElem?_map,
          List.getElem?_eq_getElem hin]
        rfl)
      obtain rfl := Except.ok.inj haim
      obtain rfl := Option.some.inj (hs.symm.trans hx)
      exact hp.lands hl hbody.ne_nil (List.getElem?_eq_getElem hin) hjump
    · obtain ⟨m, rfl⟩ := Nat.exists_eq_add_of_le (Nat.le_of_not_lt hin)
      rw [← Nat.add_assoc] at hs ⊢
      refine ih hright ?_ hs
      rw [List.length_append, List.length_map] at hk
      omega

end

end Emit

namespace Flow

/-- Each block has one last instruction, and the edges of a relation cover where it leads. -/
def Program.Ends (p : Program) (e : Nat → Nat → Prop) : Prop :=
  ∀ b < p.blocks.size, ∃ c i, p.codeAt b = c ++ [i] ∧ (∀ j ∈ c, j.isFinal = false) ∧
    i.isFinal = true ∧ ∀ k ∈ i.targets, k < p.blocks.size ∧ e b k

end Flow

namespace Bytecode

open Emit

namespace Generated

variable {p : Program} {a : Allocation} {code : Array Slot}

theorem startOf_succ {b : Nat} (hb : b < p.blocks.size) :
    startOf a p (b + 1) = startOf a p b + (codeDrafts a (p.codeAt b)).length := by
  have hget : p.blocks.toList[b]? = some p.blocks[b] := by simp [hb]
  rw [startOf, startOf, Program.codeAt_of_getElem? hget, List.take_add_one, hget, Emit.codeOf,
    List.flatMap_append, codeDrafts_append, List.length_append, ← Nat.add_assoc]
  simp [Emit.codeOf]

theorem lies (h : Generated p a code) {b : Nat} (hb : b < p.blocks.size) :
    Lies code ((List.range p.blocks.size).map (startOf a p)).toArray (startOf a p b)
      (codeDrafts a (p.codeAt b)) := by
  intro k d hd
  refine h.slots _ _ ?_
  have hlt : b < p.blocks.toList.length := by rwa [Array.length_toList]
  have hsplit : p.instructions = Emit.codeOf (p.blocks.toList.take b) ++
      (p.codeAt b ++ Emit.codeOf (p.blocks.toList.drop (b + 1))) := by
    rw [Program.codeAt_of_getElem? (List.getElem?_eq_getElem hlt), Program.instructions]
    conv => lhs; rw [← List.take_append_drop b p.blocks.toList, List.drop_eq_getElem_cons hlt]
    rw [List.flatMap_append, List.flatMap_cons]
    rfl
  rw [layout, hsplit, codeDrafts_append, codeDrafts_append, startOf, Nat.add_assoc, Nat.add_comm 1,
    List.getElem?_cons_succ, List.getElem?_append_right (Nat.le_add_right _ _),
    Nat.add_sub_cancel_left, List.getElem?_append_left (List.getElem?_eq_some_iff.1 hd).1]
  exact hd

theorem size_eq (h : Generated p a code) : code.size = startOf a p p.blocks.size := by
  have htake : p.blocks.toList.take p.blocks.size = p.blocks.toList := by
    rw [← Array.length_toList, List.take_length]
  rw [h.size, layout, startOf, htake, List.length_cons, Nat.add_comm]
  rfl

theorem exists_block {m i : Nat} (hm : m ≤ p.blocks.size) (hpos : 1 ≤ i) (hi : i < startOf a p m) :
    ∃ b < m, ∃ k < (codeDrafts a (p.codeAt b)).length, i = startOf a p b + k := by
  induction m with
  | zero =>
    have hzero : startOf a p 0 = 1 := rfl
    omega
  | succ m ih =>
    by_cases hlt : i < startOf a p m
    · obtain ⟨b, hb, h⟩ := ih (by omega) hlt
      exact ⟨b, by omega, h⟩
    · rw [startOf_succ hm] at hi
      exact ⟨m, Nat.lt_succ_self m, i - startOf a p m, by omega, by omega⟩

theorem sum_lengths {m : Nat} (hm : m ≤ p.blocks.size) :
    1 + ((List.range m).map fun b => (codeDrafts a (p.codeAt b)).length).sum = startOf a p m := by
  induction m with
  | zero => rfl
  | succ m ih =>
    rw [startOf_succ hm, ← ih (by omega), List.range_succ, List.map_append, List.sum_append,
      Nat.add_assoc]
    simp

section

variable {e : Nat → Nat → Prop} (h : Generated p a code) (hends : p.Ends e)

include h hends

theorem body {b : Nat} (hb : b < p.blocks.size) : ∃ bs : List BlockId,
    (∀ k ∈ bs, k < p.blocks.size ∧ e b k) ∧
      Body (p.instructions.flatMap Instruction.maps) bs (codeDrafts a (p.codeAt b)) := by
  obtain ⟨c, i, hc, hstraight, hfinal, htargets⟩ := hends b hb
  have hmem : ∀ j ∈ c ++ [i], j ∈ p.instructions := by
    intro j hj
    have hget : p.blocks.toList[b]? = some p.blocks[b] := by simp [hb]
    rw [← hc, Program.codeAt_of_getElem? hget] at hj
    exact List.mem_flatMap.2 ⟨_, List.mem_of_getElem? hget, hj⟩
  refine ⟨i.targets, htargets, ?_⟩
  rw [hc]
  exact body_of_code hstraight hfinal
    (fun j hj x hx => List.mem_flatMap.2 ⟨j, hmem j (List.mem_append_left _ hj), hx⟩)
    fun j hj => h.succeeds j (hmem j hj)

theorem starts_startOf {b : Nat} (hb : b ≤ p.blocks.size) : Starts code (startOf a p b) := by
  induction b with
  | zero =>
    obtain ⟨s, haim, hs⟩ := h.slots 0 _ rfl
    obtain rfl := Except.ok.inj haim
    exact starts_succ hs (by rfl)
  | succ b ih =>
    obtain ⟨bs, -, hbody⟩ := h.body hends hb
    rw [startOf_succ hb]
    exact hbody.starts_end (h.lies hb) (ih (Nat.le_of_succ_le hb))

theorem lands {i : Nat} {s : Slot} (hs : code[i]? = some s) (hjump : s.isJump) : Lands code i s := by
  have hi := (Array.getElem?_eq_some_iff.1 hs).1
  cases i with
  | zero =>
    obtain ⟨s', haim, hs'⟩ := h.slots 0 _ rfl
    obtain rfl := Except.ok.inj haim
    obtain rfl := Option.some.inj (hs.symm.trans hs')
    exact absurd hjump (by decide)
  | succ i =>
    rw [h.size_eq] at hi
    obtain ⟨b, hb, k, hk, heq⟩ := exists_block (Nat.le_refl _) (Nat.succ_pos i) hi
    obtain ⟨bs, hbs, hbody⟩ := h.body hends hb
    rw [← Nat.succ_eq_add_one, heq] at hs ⊢
    refine hbody.lands (h.lies hb) (fun k hk start hstart => ?_) hk hs hjump
    have hlt := (hbs k hk).1
    obtain rfl : startOf a p k = start := by simpa [hlt] using hstart
    obtain ⟨bs', -, hbody'⟩ := h.body hends hlt
    exact ⟨(h.lies hlt).lt_size hbody'.ne_nil, h.starts_startOf hends (Nat.le_of_lt hlt)⟩

/-- Along a list of blocks in which all edges lead forward, the code exits after at most the slots of
these blocks. -/
theorem exits_of_forward {bs : List Nat} (hbs : ∀ b ∈ bs, b < p.blocks.size)
    (hforward : Forward e bs []) {b : Nat} (hb : b ∈ bs) :
    Exits code (startOf a p b) (bs.map fun b => (codeDrafts a (p.codeAt b)).length).sum := by
  induction bs generalizing b with
  | nil => cases hb
  | cons c bs ih =>
    have hrest := fun k (hk : k ∈ bs) => ih (fun x hx => hbs x (List.mem_cons_of_mem _ hx)) hforward.2 hk
    rw [List.map_cons, List.sum_cons]
    rcases List.mem_cons.1 hb with rfl | hb
    · have hlt := hbs b List.mem_cons_self
      obtain ⟨ks, hks, hbody⟩ := h.body hends hlt
      refine hbody.exits (h.lies hlt) (h.starts_startOf hends (Nat.le_of_lt hlt)) ?_
      intro k hk start hstart
      obtain ⟨hkl, hke⟩ := hks k hk
      obtain rfl : startOf a p k = start := by simpa [hkl] using hstart
      have hmem := hforward.1 k hke
      rw [List.append_nil] at hmem
      exact hrest k hmem
    · exact (hrest b hb).mono (Nat.le_add_left ..)

end

end Generated

end Bytecode

namespace Flow

theorem Forward.dedup {e : Nat → Nat → Prop} {bs : List Nat} (h : Forward e bs []) :
    Forward e bs.dedup [] := by
  induction bs with
  | nil => trivial
  | cons b bs ih =>
    by_cases hb : b ∈ bs
    · rw [List.dedup_cons_of_mem hb]
      exact ih h.2
    · rw [List.dedup_cons_of_notMem hb]
      refine ⟨fun k hk => ?_, ih h.2⟩
      have hmem := h.1 k hk
      rw [List.append_nil] at hmem ⊢
      exact List.mem_dedup.2 hmem

end Flow

/-- If the blocks of a program have an order in which all edges lead forward, every path through its
code exits after at most as many slots as there are. -/
theorem Bytecode.Generated.exits {p : Program} {a : Allocation} {code : Array Slot}
    {e : Nat → Nat → Prop} (h : Generated p a code) (hends : p.Ends e) {bs : List Nat}
    (hbs : ∀ b, b ∈ bs ↔ b < p.blocks.size) (hforward : Forward e bs []) (hpos : 0 < p.blocks.size) :
    Exits code 0 code.size := by
  have hperm : bs.dedup.Perm (List.range p.blocks.size) :=
    (List.perm_ext_iff_of_nodup bs.nodup_dedup List.nodup_range).2 fun b => by
      rw [List.mem_dedup, hbs, List.mem_range]
  have hfirst := h.exits_of_forward hends (fun b hb => (hbs b).1 (List.mem_dedup.1 hb))
    hforward.dedup (List.mem_dedup.2 ((hbs 0).2 hpos))
  rw [(hperm.map _).sum_eq] at hfirst
  obtain ⟨s, haim, hs⟩ := h.slots 0 _ rfl
  obtain rfl := Except.ok.inj haim
  have hplain : (Slot.movReg Reg.context 1).isPlain := by decide
  rw [h.size_eq, ← Generated.sum_lengths (Nat.le_refl _), Nat.add_comm]
  exact Emit.exits_step nofun hs (Slot.isExit_of_plain hplain)
    (fun taken => Slot.next_of_plain hplain _ taken) hfirst

namespace Flow

/-- The program that code is generated from has the edges that were built, in an order that leads
forward. -/
theorem ofProbe_ends {t : Table} {p : Probe} {built : Built} (h : ofProbe t p = .ok built)
    (frame : Frame) :
    let q := (built.program.twoAddress.analyze.allocate frame).program
    ∃ e bs, q.Ends e ∧ (∀ b, b ∈ bs ↔ b < q.blocks.size) ∧ Forward e bs [] ∧ 0 < q.blocks.size := by
  obtain ⟨s, hshape, hprogram⟩ := ofProbe_shaped h
  obtain ⟨bs, hbs, hforward⟩ := hshape.forward
  have hwf := hshape.wellFormed
  rw [← hprogram] at hwf
  have hsize : (built.program.twoAddress.analyze.allocate frame).program.blocks.size = s.size := by
    change built.program.twoAddress.analyze.blocks.size = s.size
    rw [Program.size_analyze, Program.size_twoAddress, hprogram]
    exact s.size_finish .ret
  have hcode : ∀ b, (built.program.twoAddress.analyze.allocate frame).program.codeAt b =
      (built.program.codeAt b).flatMap Instruction.twoAddress := by
    intro b
    change built.program.twoAddress.analyze.codeAt b = _
    rw [Program.codeAt_analyze, Program.codeAt_twoAddress]
  have hbuilt : built.program.blocks.size = s.size := hprogram ▸ s.size_finish .ret
  refine ⟨s.program.Goes, bs, fun b hb => ?_, by rw [hsize]; exact hbs, hforward, ?_⟩
  · rw [hsize] at hb ⊢
    obtain ⟨c, i, hc, hstraight, hfinal, hsuccs⟩ := hwf.ends b (hbuilt ▸ hb)
    refine ⟨c.flatMap Instruction.twoAddress, i, ?_, fun j hj => ?_, hfinal, fun k hk => ?_⟩
    · rw [hcode, hc, List.flatMap_append, List.flatMap_singleton,
        Instruction.twoAddress_of_final hfinal]
    · obtain ⟨j', hj', hmem⟩ := List.mem_flatMap.1 hj
      rw [Instruction.isFinal_twoAddress hmem, hstraight j' hj']
    · have hgoes : (s.finish .ret).program.Goes b k := by
        refine ⟨i, ?_, hk⟩
        rw [← hprogram, hc]
        exact List.mem_append_right _ List.mem_cons_self
      have hbounded := hwf.bounded b k (hsuccs ▸ hk)
      exact ⟨hbuilt ▸ hbounded, hshape.goes_finish.1 hgoes⟩
  · rw [hsize]
    have hopen := (hshape.opens (Builder.open_start p.name.value)).1
    exact Nat.zero_lt_of_lt hopen.current

end Flow

namespace Compile

/-- Jumps stay inside the code and on the first slots of instructions. Every path from the first slot
comes to an exit after at most as many slots as there are, whatever the outcomes of tests are, and
never leaves the code before. -/
theorem codeOf_stays_and_exits {σ : Type} {options : Options} {bound : Table} {typed : Probe}
    {s s' : Session σ} {code : Code} (h : (codeOf options bound typed).run s = .ok code s') :
    let slots := code.bytecode.code
    (∀ (i : Nat) (slot : Slot), slots[i]? = some slot → slot.isJump →
      ∃ j : Nat, (j : Int) = i + 1 + slot.off.toInt ∧ j < slots.size ∧ Bytecode.Starts slots j) ∧
    ∀ outcomes : Nat → Bool, ∃ n < slots.size,
      Bytecode.fetch slots (Bytecode.walk slots outcomes 0 n) = some .exit ∧
      ∀ m ≤ n, ∃ j : Nat, Bytecode.walk slots outcomes 0 m = j ∧ j < slots.size ∧
        Bytecode.Starts slots j ∧ (m < n → slots[j]?.all fun slot => !slot.isExit) := by
  obtain ⟨built, hbuilt, hassemble⟩ := codeOf_ok h rfl
  obtain ⟨hgenerated, -⟩ := Bytecode.generate_ok hassemble
  obtain ⟨e, bs, hends, hbs, hforward, hpos⟩ := Flow.ofProbe_ends hbuilt (typed.place.run bound).2.frame
  exact ⟨fun i slot hslot hjump => hgenerated.lands hends hslot hjump,
    fun outcomes => (hgenerated.exits hends hbs hforward hpos).walk outcomes⟩

/-- A branch inside another one, whose block comes back to an earlier slot, and constants of two
slots. -/
def wideBranches : Source where
  name := "wide"
  lines :=
    ["probe p \x7b x[0] = 5000000000; if (x[pid()] > 1) \x7b if (tid()) \x7b x[1] = 6000000000; " ++
      "\x7d \x7d \x7d"]

/-- One of its jumps leads back, and still all paths end. -/
theorem wideBranches_exits :
    ∃ typed bound code, ∃ s s' : Session DryRun, (codeOf {} bound typed).run s = .ok code s' ∧
      let slots := code.bytecode.code
      (slots.any fun slot => slot.isJump && slot.off < 0) ∧ (slots.any Slot.isWide) ∧
      (∀ (i : Nat) (slot : Slot), slots[i]? = some slot → slot.isJump →
        ∃ j : Nat, (j : Int) = i + 1 + slot.off.toInt ∧ j < slots.size ∧ Bytecode.Starts slots j) ∧
      ∃ n < slots.size,
        Bytecode.fetch slots (Bytecode.walk slots (fun _ => true) 0 n) = some .exit := by
  have hprepares : ∃ typed bound placed table,
      Prepares DryRun.kernel {} wideBranches typed bound placed table ∧
      typed.place.run bound = (placed, table) ∧
      (Flow.ofProbe table placed).toOption.any (fun built =>
        (built.program.assembleInOrder table.frame 4096).toOption.any fun b =>
          (b.code.any fun slot => slot.isJump && slot.off < 0) && b.code.any Slot.isWide) := by
    apply Compile.exists_prepares (s := { kernel := {} })
    · conv => lhs; cbv
    · conv => lhs; cbv
    · exact rfl
    · exact ⟨rfl, by decide +kernel⟩
  obtain ⟨typed, bound, placed, table, -, hplaced, heval⟩ := hprepares
  obtain ⟨code, s', hcode, hq⟩ := codeOf_of_evaluated {} { kernel := ({} : DryRun) } hplaced heval
  obtain ⟨hback, hwide⟩ := Bool.and_eq_true_iff.1 hq
  obtain ⟨hjumps, hpaths⟩ := codeOf_stays_and_exits hcode
  obtain ⟨n, hn, hend, -⟩ := hpaths fun _ => true
  exact ⟨typed, bound, code, _, s', hcode, hback, hwide, hjumps, n, hn, hend⟩

end Compile

end TraceScript
