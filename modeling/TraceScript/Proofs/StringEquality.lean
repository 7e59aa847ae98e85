import TraceScript.Proofs.CallCode
import TraceScript.Proofs.Chunk

namespace TraceScript

namespace Bytes

theorem eq_of_extend_eq {s t : List UInt8} {n : Nat} (hs : 0 ∉ s) (ht : 0 ∉ t) (hlen : s.length < n)
    (h : extend n s = extend n t) : s = t := by
  have hzero : 0 ∈ extend n s := by
    rw [extend_of_le (by omega)]
    apply List.mem_append_right
    exact List.mem_replicate.2 ⟨by omega, rfl⟩
  -- If the other string filled all bytes, none of them would be zero.
  have hlen' : t.length < n := by
    by_contra hfull
    rw [h, extend, List.take_append_of_le_length (by omega)] at hzero
    exact ht (List.mem_of_mem_take hzero)
  rw [extend_of_le (by omega), extend_of_le (by omega)] at h
  calc
    s = (s ++ List.replicate (n - s.length) 0).takeWhile (· ≠ 0) := (takeWhile_append_zeros hs _).symm
    _ = (t ++ List.replicate (n - t.length) 0).takeWhile (· ≠ 0) := by rw [h]
    _ = t := takeWhile_append_zeros ht _

end Bytes

namespace Memory

/-- A string without zeros at the beginning of a region whose other bytes, at least one, are zero. -/
structure Spells (m : Memory) (r : Region) (s : List UInt8) : Prop where
  proper : 0 ∉ s
  fits : s.length < r.size
  bytes : m.read r.addr r.size = Bytes.extend r.size s

theorem Spells.read_eq {m : Memory} {r : Region} {s : List UInt8} (h : m.Spells r s) {n : Nat}
    (hn : n ≤ r.size) : m.read r.addr n = Bytes.extend n s := by
  rw [← take_read m r.addr hn, h.bytes, Bytes.take_extend hn]

theorem Spells.read_eq_iff {m : Memory} {left right : Region} {s t : List UInt8}
    (hs : m.Spells left s) (ht : m.Spells right t) :
    m.read left.addr (min left.size right.size) = m.read right.addr (min left.size right.size) ↔
      s = t := by
  rw [hs.read_eq (by omega), ht.read_eq (by omega)]
  refine ⟨fun h => ?_, fun h => congrArg _ h⟩
  have hs' := hs.fits
  have ht' := ht.fits
  rcases Nat.le_total left.size right.size with hle | hle
  · exact Bytes.eq_of_extend_eq hs.proper ht.proper (by omega) h
  · exact (Bytes.eq_of_extend_eq ht.proper hs.proper (by omega) h.symm).symm

end Memory

namespace Machine.State

/-- Nothing but some registers has changed. -/
structure SameBut (rs : List Reg) (m m' : State) : Prop where
  regs : ∀ r, r ∉ rs → m'.regs r = m.regs r
  memory : m'.memory = m.memory
  outside : m'.outside = m.outside

namespace SameBut

variable {rs : List Reg} {m m' : State} {r : Reg}

theorem refl (rs : List Reg) (m : State) : SameBut rs m m := ⟨fun _ _ => rfl, rfl, rfl⟩

theorem set (h : SameBut rs m m') (hr : r ∈ rs) (v : UInt64) : SameBut rs m (m'.set r v) := by
  refine ⟨fun q hq => ?_, h.memory, h.outside⟩
  have hne : q ≠ r := fun heq => hq (heq ▸ hr)
  rw [regs_set_of_ne v hne, h.regs q hq]

end SameBut

end Machine.State

namespace Flow.Home

/-- A home that is given out: one of the registers that calls keep, or a place in the frame. -/
def Pooled : Home → Prop
  | reg r => r ∈ Allocator.registers
  | spill _ => True

/-- Two homes that have nothing in common. -/
def Apart : Home → Home → Prop
  | reg r, reg q => r ≠ q
  | spill x, spill y => (Region.mk x 8).Disjoint ⟨y, 8⟩
  | _, _ => True

/-- A home gets a value, and nothing else that is in use changes: no other home, no byte of memory
outside the home, no register with a fixed use, and nothing outside the machine. -/
structure Receives (home : Home) (v : UInt64) (m m' : Machine.State) : Prop where
  value : home.value m' = v
  others : ∀ h : Home, h.Pooled → h.Apart home → h.value m' = h.value m
  memory : Memory.ChangedIn (slots (some home)) m.memory m'.memory
  fixed : ∀ r : Reg, 9 ≤ r.val → m'.regs r = m.regs r
  outside : m'.outside = m.outside

variable {home : Home}

theorem Pooled.register_bounds (h : home.Pooled) :
    1 < (home.register Emit.scratch₁).val ∧ (home.register Emit.scratch₁).val < 9 := by
  cases home with
  | reg r =>
    have hbounds : ∀ r ∈ Allocator.registers, 1 < r.val ∧ r.val < 9 := by decide
    exact hbounds r h
  | spill addr =>
    change 1 < Emit.scratch₁.val ∧ Emit.scratch₁.val < 9
    decide

theorem Pooled.not_mem (h : home.Pooled) {r : Reg} (hr : 9 ≤ r.val) :
    r ∉ [0, 1, home.register Emit.scratch₁] := by
  have hbounds := h.register_bounds
  have hlow : (0 : Reg).val = 0 ∧ (1 : Reg).val = 1 := by decide
  simp only [List.mem_cons, List.not_mem_nil, or_false, not_or, ← Fin.val_inj]
  omega

theorem Apart.not_mem {q : Reg} (hq : q ∈ Allocator.registers) (h : (reg q).Apart home) :
    q ∉ [0, 1, home.register Emit.scratch₁] := by
  have hlow : ∀ q ∈ Allocator.registers, q ∉ [0, 1, Emit.scratch₁] := by decide
  have hnone := hlow q hq
  cases home with
  | reg r =>
    simp only [List.mem_cons, List.not_mem_nil, or_false, not_or] at hnone ⊢
    exact ⟨hnone.1, hnone.2.1, h⟩
  | spill addr => exact hnone

end Flow.Home

open TraceScript.Flow

namespace Emit

open Machine (Env Runs)

variable {e : Env} {a : Allocation} {dst : Temp} {home : Home} {v : UInt64} {m₀ : Machine.State}

theorem carries_bringHome (hhome : a.home dst = some home) (hpool : home.Pooled)
    (hframe : m₀.regs Reg.frame = e.frame) :
    Carries e (fun m => m₀.SameBut [0, 1, home.register scratch₁] m ∧
        m.regs (home.register scratch₁) = v) (home.Receives v m₀) ()
      (writeBack a dst (home.register scratch₁)) := by
  have hfixed : ∀ m, m₀.SameBut [0, 1, home.register scratch₁] m →
      ∀ r : Reg, 9 ≤ r.val → m.regs r = m₀.regs r :=
    fun m hm r hr => hm.regs r (hpool.not_mem hr)
  unfold writeBack homeOf
  rw [hhome]
  cases home with
  | reg r =>
    refine .pure fun m hm => ⟨hm.2, fun h hp hapart => ?_, ?_, hfixed m hm.1, hm.1.outside⟩
    · cases h with
      | reg q => exact hm.1.regs q (hapart.not_mem hp)
      | spill y => exact congrArg (fun μ : Memory => Bytes.toWord (μ.read y 8)) hm.1.memory
    · rw [hm.1.memory]
      exact .refl _ _
  | spill addr =>
    refine .offset fun haddr => .storeWord haddr fun m hm => ⟨?_, ?_⟩
    · rw [hfixed m hm.1 _ (by decide), hframe]
    have hmemory : (m.write addr (Bytes.ofWord v)).memory = m₀.memory.write addr (Bytes.ofWord v) := by
      rw [Machine.State.memory_write, hm.1.memory]
    have hchanged := m₀.memory.changedIn_write addr (Bytes.ofWord v)
    rw [Bytes.length_ofWord, ← hmemory] at hchanged
    rw [hm.2]
    refine ⟨?_, fun h hp hapart => ?_, hchanged, hfixed m hm.1, hm.1.outside⟩
    · rw [Home.value, hmemory, Memory.read_write _ _ (Bytes.length_ofWord v), Bytes.toWord_ofWord]
    · cases h with
      | reg q => exact hm.1.regs q (hapart.not_mem hp)
      | spill y =>
        refine congrArg Bytes.toWord (hchanged.read fun r hr => ?_)
        rw [List.mem_singleton.1 hr]
        exact hapart

theorem carries_strcmp (hhome : a.home dst = some home) (hpool : home.Pooled)
    (hframe : m₀.regs Reg.frame = e.frame) (lhs rhs : Int) (size : Nat) :
    Carries e (· = m₀)
      (home.Receives (if m₀.memory.read lhs size = m₀.memory.read rhs size then 0 else 1) m₀) ()
      (instruction a (.call (.strcmp lhs rhs size) (some dst))) := by
  have hregister : a.register dst scratch₁ = home.register scratch₁ := by
    rw [Allocation.register, hhome, Option.map_some, Option.getD_some]
  have hbounds := hpool.register_bounds
  have hne : home.register scratch₁ ≠ 0 ∧ home.register scratch₁ ≠ 1 := by
    constructor <;> intro heq <;> rw [heq] at hbounds <;> exact absurd hbounds.1 (by decide)
  have hcompare : Carries e (· = m₀) (fun m => m₀.SameBut [0, 1, home.register scratch₁] m ∧
      m.regs (home.register scratch₁) =
        if m₀.memory.read lhs size = m₀.memory.read rhs size then 0 else 1) ()
      (compareRegions (home.register scratch₁) lhs rhs size) := by
    refine .weaken (.compareRegions hne (fun r hr m v hm => hm.set hr v) ?_ ?_) ?_
    · intro m hm
      rw [hm.regs _ (hpool.not_mem (by decide)), hframe]
    · intro m hm x _
      rw [hm.memory]
    · rintro m rfl
      exact .refl _ _
  refine .bind carries_target ?_
  rw [hregister]
  exact .bind hcompare (carries_bringHome hhome hpool hframe)

end Emit

/-- A region that the offsets of instructions can reach. -/
def Region.Reachable (r : Region) : Prop := -2 ^ 15 ≤ r.addr ∧ r.addr + r.size ≤ 2 ^ 15

namespace Emit

variable {a : Allocation} {dst : Temp} {home : Home}

/-- An action that succeeds whatever was written before. -/
def Total {α : Type} (m : Emit α) : Prop := ∀ ds, ∃ x es, m ds = .ok x es

namespace Total

variable {α β : Type}

protected theorem pure (x : α) : Total (pure x : Emit α) := fun ds => ⟨x, ds, rfl⟩

protected theorem bind {m : Emit α} {f : α → Emit β} (hm : Total m) (hf : ∀ x, Total (f x)) :
    Total (m >>= f) := by
  intro ds
  obtain ⟨x, es, hx⟩ := hm ds
  obtain ⟨y, fs, hy⟩ := hf x es
  exact ⟨y, fs, Run.estate_bind_ok.2 ⟨x, es, hx, hy⟩⟩

theorem push (s : Slot) : Total (Emit.push s) := fun ds => ⟨(), ds.push { slot := s }, rfl⟩

theorem offset {addr : Int} (hlow : -2 ^ 15 ≤ addr) (hhigh : addr < 2 ^ 15) :
    Total (Emit.offset addr) := by
  unfold Emit.offset
  rw [if_pos (Int16.toInt_ofInt_of_le hlow hhigh)]
  exact .pure _

theorem forChunks {addr : Int} {size : Nat} {action : Nat → Nat → Emit Unit}
    (h : ∀ done < size, ∀ width, Total (action done width)) :
    Total (Emit.forChunks addr size action) := by
  have hfrom : ∀ done, Total (forChunksFrom addr size action done) := by
    intro done
    fun_induction forChunksFrom addr size action done with
    | case1 done hlt width ih => exact .bind (h done hlt width) fun _ => ih
    | case2 done hge => exact .pure ()
  exact hfrom 0

end Total

theorem total_strcmp (hhome : a.home dst = some home) {lhs rhs : Region} {size : Nat}
    (hsize : size ≤ lhs.size) (hsize' : size ≤ rhs.size) (hlhs : lhs.Reachable)
    (hrhs : rhs.Reachable) (hslot : ∀ r ∈ Home.slots (some home), r.Reachable) :
    Total (instruction a (.call (.strcmp lhs.addr rhs.addr size) (some dst))) := by
  obtain ⟨hlhs, hlhs'⟩ := hlhs
  obtain ⟨hrhs, hrhs'⟩ := hrhs
  have hcompare : ∀ d, Total (compareRegions d lhs.addr rhs.addr size) := by
    intro d
    refine .bind (.push _) fun _ => .forChunks fun done hdone width => ?_
    refine .bind (.offset (by omega) (by omega)) fun _ => .bind (.push _) fun _ => ?_
    refine .bind (.offset (by omega) (by omega)) fun _ => .bind (.push _) fun _ => ?_
    exact .bind (.push _) fun _ => .push _
  have hhomeOf : homeOf a dst = pure home := by
    rw [homeOf, hhome]
  have htarget : Total (target a dst) := by
    rw [target, hhomeOf, pure_bind]
    cases home <;> exact .pure _
  have hback : ∀ d, Total (writeBack a dst d) := by
    intro d
    rw [writeBack, hhomeOf, pure_bind]
    cases home with
    | reg r => exact .pure ()
    | spill addr =>
      obtain ⟨hlow, hhigh⟩ := hslot _ (List.mem_singleton_self _)
      dsimp only at hlow hhigh
      exact .bind (.offset hlow (by omega)) fun _ => .push _
  exact .bind htarget fun d => .bind (hcompare d) fun _ => hback d

end Emit

namespace Flow

open Emit Machine Evaluation

theorem scalar_strcmp {t : Table} {tag : Tag} {function : Name} {lhs rhs : Node} {b b' : Builder}
    {dst : Temp} (hname : Builtin.ofName? function = some .strcmp)
    (hbuild : (evaluation t (.call tag function [lhs, rhs])).scalar b = .ok (dst, b')) :
    ∃ left right b₁ b₂, (evaluation t lhs).slot b = .ok (left, b₁) ∧
      (evaluation t rhs).slot b₁ = .ok (right, b₂) ∧
      b' = b₂.append
        ⟨[.call (.strcmp left right (min lhs.facts.size rhs.facts.size)) (some dst)],
          [{ origin := some (.builtin .strcmp) }]⟩ := by
  rw [evaluation] at hbuild
  obtain ⟨⟨result, c⟩, hcall, hrest⟩ := Run.except_bind_ok.1 hbuild
  rw [Evaluation.call, hname] at hcall
  obtain ⟨⟨h, c'⟩, hhelper, hcall⟩ := Run.except_bind_ok.1 hcall
  simp only [evaluations, Evaluation.helper] at hhelper
  obtain ⟨⟨left, b₁⟩, hleft, hhelper⟩ := Run.except_bind_ok.1 hhelper
  obtain ⟨⟨right, b₂⟩, hright, hhelper⟩ := Run.except_bind_ok.1 hhelper
  obtain ⟨rfl, rfl⟩ := Prod.mk.inj (Except.ok.inj hhelper)
  refine ⟨left, right, b₁, _, hleft, hright, ?_⟩
  have hdefine := Emits.define (s := b₂) (some (.builtin .strcmp)) fun dst =>
    .call (.strcmp left right (min lhs.facts.size rhs.facts.size)) (some dst)
  by_cases hint : tag.facts.isInt
  · rw [hint] at hcall
    obtain ⟨rfl, rfl⟩ := Prod.mk.inj (Except.ok.inj hcall)
    obtain ⟨rfl, rfl⟩ := Prod.mk.inj (Except.ok.inj hrest)
    exact (Prod.mk.inj (Except.ok.inj hdefine)).2
  · -- A result that is no integer would have no temporary.
    rw [Bool.eq_false_iff.2 hint] at hcall
    obtain ⟨rfl, rfl⟩ := Prod.mk.inj (Except.ok.inj hcall)
    cases hrest

/-- Code that tells whether the strings in two regions are equal. Wherever it lies, it leaves zero in a
home if they are, and one if they are not. -/
def DecidesEquality (left right : Region) (home : Home) (ds : List Draft) : Prop :=
  ∀ (e : Env) (m : Machine.State) (s u : List UInt8), m.regs Reg.frame = e.frame →
    m.memory.Spells left s → m.memory.Spells right u →
    ∃ ss m', ds = ss.map draft ∧ Machine.Runs e ss m m' ∧
      home.Receives (if s = u then 0 else 1) m m'

/-- A comparison is compiled to code that decides whether two strings are equal, for any home of its
result. There is such code if the regions of the strings and the home can be reached at all. -/
theorem strcmp_decidesEquality {t : Table} {tag : Tag} {function : Name} {lhs rhs : Node}
    {b b' : Builder} {dst : Temp} (hname : Builtin.ofName? function = some .strcmp)
    (hbuild : (evaluation t (.call tag function [lhs, rhs])).scalar b = .ok (dst, b')) :
    ∃ left right b₁ b₂, (evaluation t lhs).slot b = .ok (left.addr, b₁) ∧
      (evaluation t rhs).slot b₁ = .ok (right.addr, b₂) ∧
      left.size = lhs.facts.size ∧ right.size = rhs.facts.size ∧
      let call := Instruction.call (.strcmp left.addr right.addr (min left.size right.size)) (some dst)
      b' = b₂.append ⟨[call], [{ origin := some (.builtin .strcmp) }]⟩ ∧
      ∀ (a : Allocation) (home : Home), a.home dst = some home → home.Pooled →
        (left.Reachable ∧ right.Reachable ∧ (∀ r ∈ Home.slots (some home), r.Reachable) →
          Succeeds (instruction a call)) ∧
        (Succeeds (instruction a call) →
          DecidesEquality left right home (drafts (instruction a call))) := by
  obtain ⟨addr, addr', b₁, b₂, hleft, hright, hb'⟩ := scalar_strcmp hname hbuild
  refine ⟨⟨addr, lhs.facts.size⟩, ⟨addr', rhs.facts.size⟩, b₁, b₂, hleft, hright, rfl, rfl, hb',
    fun a home hhome hpool => ⟨?_, ?_⟩⟩
  · rintro ⟨hlhs, hrhs, hslot⟩
    exact total_strcmp hhome (Nat.min_le_left ..) (Nat.min_le_right ..) hlhs hrhs hslot #[]
  · rintro ⟨x, es, hes⟩ e m s u hframe hs hu
    have hcarries := carries_strcmp hhome hpool hframe addr addr' (min lhs.facts.size rhs.facts.size)
    obtain ⟨-, ss, hss, hrun⟩ := hcarries.made #[] x es hes
    obtain ⟨m', hruns, hreceives⟩ := hrun m rfl
    refine ⟨ss, m', ?_, hruns, ?_⟩
    · rw [drafts, hes]
      exact hss
    · simpa only [hs.read_eq_iff hu] using hreceives

/-- A string literal at a place in the frame. -/
def placedText (value : String) (r : Region) : Node :=
  .text { span := default, facts := { type := some .str, size := r.size, addr := some r.addr } } value

/-- Two names of which one begins with the other, in regions of different sizes. -/
def workers : Node :=
  .call { span := default, facts := .ofShape .int .none } ⟨"strcmp"⟩
    [placedText "kworker" ⟨-8, 8⟩, placedText "kworker/0:1" ⟨-24, 16⟩]

/-- The frame in which both names stand. -/
def workerFrame : Memory :=
  (Memory.write (fun _ => 0) (-8) (Text.utf8 "kworker")).write (-24) (Text.utf8 "kworker/0:1")

theorem workers_differ :
    workerFrame.Spells ⟨-8, 8⟩ (Text.utf8 "kworker") ∧
      workerFrame.Spells ⟨-24, 16⟩ (Text.utf8 "kworker/0:1") ∧
      let a : Allocation := ⟨#[some (.spill (-32))]⟩
      let call := Instruction.call (.strcmp (-8) (-24) 8) (some 0)
      (∃ b', (evaluation {} workers).scalar { program := { blocks := #[{}] } } = .ok (0, b') ∧
        b'.program.blocks.any fun block => block.code.contains call) ∧
      Succeeds (instruction a call) ∧
      ∀ (e : Env) (m : Machine.State), m.regs Reg.frame = e.frame → m.memory = workerFrame →
        ∃ ss m', drafts (instruction a call) = ss.map draft ∧ Machine.Runs e ss m m' ∧
          (Home.spill (-32)).Receives 1 m m' := by
  have hs : workerFrame.Spells ⟨-8, 8⟩ (Text.utf8 "kworker") :=
    ⟨by decide +kernel, by decide +kernel, by decide +kernel⟩
  have hu : workerFrame.Spells ⟨-24, 16⟩ (Text.utf8 "kworker/0:1") :=
    ⟨by decide +kernel, by decide +kernel, by decide +kernel⟩
  obtain ⟨⟨left, size⟩, ⟨right, size'⟩, b₁, b₂, hleft, hright, hsize, hsize', -, hcode⟩ :=
    strcmp_decidesEquality (t := {}) (b := { program := { blocks := #[{}] } }) rfl
      (rfl : (evaluation {} workers).scalar _ = .ok (0, _))
  obtain ⟨rfl, rfl⟩ := Prod.mk.inj (Except.ok.inj hleft)
  obtain ⟨rfl, rfl⟩ := Prod.mk.inj (Except.ok.inj hright)
  obtain rfl : size = 8 := hsize
  obtain rfl : size' = 16 := hsize'
  obtain ⟨hsucceeds, hdecides⟩ := hcode ⟨#[some (.spill (-32))]⟩ (.spill (-32)) rfl trivial
  have hcall := hsucceeds ⟨⟨by decide, by decide⟩, ⟨by decide, by decide⟩, fun r hr => by
    rw [List.mem_singleton.1 hr]
    exact ⟨by decide, by decide⟩⟩
  refine ⟨hs, hu, ⟨_, rfl, by decide +kernel⟩, hcall, fun e m hframe hm => ?_⟩
  exact hdecides hcall e m _ _ hframe (hm ▸ hs) (hm ▸ hu)

end Flow

end TraceScript
