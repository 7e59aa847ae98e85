import TraceScript.Kernel.DryRun
import TraceScript.Proofs.Written

namespace TraceScript

open TraceScript.Flow

namespace Emit

/-- The drafts of some instructions. -/
def codeDrafts (a : Allocation) (code : List Instruction) : List Draft :=
  code.flatMap fun i => drafts (instruction a i)

theorem codeDrafts_append (a : Allocation) (c d : List Instruction) :
    codeDrafts a (c ++ d) = codeDrafts a c ++ codeDrafts a d :=
  List.flatMap_append

theorem instructions_ok {a : Allocation} {code : List Instruction} {ds es : Array Draft}
    (h : instructions a code ds = .ok () es) :
    (∀ i ∈ code, Succeeds (instruction a i)) ∧ es.toList = ds.toList ++ codeDrafts a code := by
  induction code generalizing ds with
  | nil =>
    obtain ⟨-, rfl⟩ := Run.estate_pure_ok.1 h
    exact ⟨nofun, (List.append_nil _).symm⟩
  | cons i code ih =>
    obtain ⟨⟨⟩, fs, hi, hrest⟩ := Run.estate_bind_ok.1 h
    obtain ⟨hsucceeds, hfs, -⟩ := (written_all a i).ok hi
    obtain ⟨hall, hes⟩ := ih hrest
    refine ⟨fun j hj => ?_, ?_⟩
    · rcases List.mem_cons.1 hj with rfl | hj
      · exact hsucceeds
      · exact hall j hj
    · rw [hes, hfs, List.append_assoc]
      rfl

theorem row_codeDrafts {k : Scope} {a : Allocation} {code : List Instruction}
    (h : ∀ i ∈ code, Written k (fun _ => True) fun _ => instruction a i)
    (hall : ∀ i ∈ code, Succeeds (instruction a i)) : Row k (codeDrafts a code) := by
  induction code with
  | nil => exact .nil
  | cons i code ih =>
    exact ((h i List.mem_cons_self).row (hall i List.mem_cons_self)).append
      (ih (fun j hj => h j (List.mem_cons_of_mem _ hj)) fun j hj => hall j (List.mem_cons_of_mem _ hj))

theorem drafts_branch {a : Allocation} {cond : Temp} {yes no : BlockId}
    (h : Succeeds (instruction a (.branch cond yes no))) :
    ∃ ds, read a cond scratch₁ #[] = .ok (a.register cond scratch₁) ds ∧
      drafts (instruction a (.branch cond yes no)) = ds.toList ++
        [{ slot := .jumpImm Opcode.jne (a.register cond scratch₁) 0 0, target := some yes },
          { slot := .jump 0, target := some no }] := by
  obtain ⟨⟨⟩, es, hrun⟩ := h
  obtain ⟨r, ds, hread, hjumps⟩ := Run.estate_bind_ok.1 hrun
  obtain ⟨-, -, rfl, -⟩ := (written_read (admits_all a []) (fun _ => trivial) (by decide)).ok hread
  refine ⟨ds, hread, ?_⟩
  obtain rfl := (EStateM.Result.ok.inj hjumps).2
  rw [drafts, hrun]
  simp

/-- The code of some blocks. -/
def codeOf (bs : List Block) : List Instruction := bs.flatMap (·.code.toList)

theorem blocks_ok {a : Allocation} {bs : List Block} {starts starts' : Array Nat}
    {ds es : Array Draft} (h : blocks a starts bs ds = .ok starts' es) :
    (∀ i ∈ codeOf bs, Succeeds (instruction a i)) ∧
      es.toList = ds.toList ++ codeDrafts a (codeOf bs) ∧
      starts'.toList = starts.toList ++ (List.range bs.length).map fun k =>
        ds.size + (codeDrafts a (codeOf (bs.take k))).length := by
  induction bs generalizing starts ds with
  | nil =>
    obtain ⟨rfl, rfl⟩ := Run.estate_pure_ok.1 h
    exact ⟨nofun, by simp [codeOf, codeDrafts], by simp⟩
  | cons b bs ih =>
    have hrun : (do
        instructions a b.code.toList
        blocks a (starts.push ds.size) bs) ds = .ok starts' es := h
    obtain ⟨⟨⟩, fs, hcode, hrest⟩ := Run.estate_bind_ok.1 hrun
    obtain ⟨hsucceeds, hfs⟩ := instructions_ok hcode
    obtain ⟨hall, hes, hstarts⟩ := ih hrest
    refine ⟨fun i hi => ?_, ?_, ?_⟩
    · exact (List.mem_append.1 hi).elim (hsucceeds i) (hall i)
    · rw [hes, hfs, List.append_assoc, ← codeDrafts_append]
      rfl
    · have hsize : fs.size = ds.size + (codeDrafts a b.code.toList).length := by
        rw [← Array.length_toList, hfs, List.length_append, Array.length_toList]
      rw [hstarts, hsize, List.length_cons, List.range_succ_eq_map, Array.toList_push,
        List.append_assoc]
      simp only [List.singleton_append, List.map_cons, List.map_map, List.take_zero]
      congr 2
      refine List.map_congr_left fun k _ => ?_
      simp only [Function.comp, List.take_succ_cons, codeOf, List.flatMap_cons, codeDrafts_append,
        List.length_append]
      omega

theorem blocks_error {k : Scope} {a : Allocation} {bs : List Block}
    (h : ∀ i ∈ codeOf bs, Written k (fun _ => True) fun _ => instruction a i) {starts : Array Nat}
    {ds es : Array Draft} {e : CodeError} (hrun : blocks a starts bs ds = .error e es) : k.error e := by
  induction bs generalizing starts ds with
  | nil => cases hrun
  | cons b bs ih =>
    change (do
        instructions a b.code.toList
        blocks a (starts.push ds.size) bs) ds = .error e es at hrun
    rcases Run.estate_bind_error.1 hrun with hcode | ⟨_, _, -, hrest⟩
    · exact (written_instructions fun i hi => h i (List.mem_append_left _ hi)).error hcode
    · exact ih (fun i hi => h i (List.mem_append_right _ hi)) hrest

/-- All drafts of a program. The first saves the context of the event. -/
def layout (a : Allocation) (p : Program) : List Draft :=
  { slot := .movReg Reg.context 1 } :: codeDrafts a p.instructions

/-- The slot at which a block begins. -/
def startOf (a : Allocation) (p : Program) (b : Nat) : Nat :=
  1 + (codeDrafts a (codeOf (p.blocks.toList.take b))).length

theorem program_ok {a : Allocation} {p : Program} {starts : Array Nat} {ds : Array Draft}
    (h : program a p #[] = .ok starts ds) :
    (∀ i ∈ p.instructions, Succeeds (instruction a i)) ∧ ds.toList = layout a p ∧
      starts.toList = (List.range p.blocks.size).map (startOf a p) := by
  obtain ⟨⟨⟩, fs, hpush, hrest⟩ := Run.estate_bind_ok.1 h
  obtain rfl := (EStateM.Result.ok.inj hpush).2
  exact blocks_ok hrest

/-- A slot stays as it was drafted, or gets the distance to the block that it goes to. -/
theorem aim_ok {starts : Array Nat} {k : Nat} {d : Draft} {s : Slot}
    (h : aim starts k d = .ok s) :
    (d.target = none ∧ s = d.slot) ∨ ∃ b start, d.target = some b ∧ starts[b]? = some start ∧
      s.off.toInt = (start : Int) - k - 1 ∧ s = { d.slot with off := s.off } := by
  unfold aim at h
  split at h
  · rename_i hnone
    exact .inl ⟨hnone, (Except.ok.inj h).symm⟩
  · rename_i b hb
    split at h
    · cases h
    · rename_i start hstart
      dsimp only at h
      split at h
      · rename_i hdistance
        obtain rfl := Except.ok.inj h
        exact .inr ⟨b, start, hb, hstart, hdistance, rfl⟩
      · cases h

theorem aimAll_ok {starts : Array Nat} {ds : Array Draft} {code : Array Slot}
    (h : aimAll starts ds = .ok code) :
    code.size = ds.size ∧ ∀ (k : Nat) (d : Draft), ds[k]? = some d →
      ∃ s, aim starts k d = .ok s ∧ code[k]? = some s := by
  have hlist : ∀ (l : List Draft) (acc code : Array Slot),
      l.foldlM (fun code d => do return code.push (← aim starts code.size d)) acc = .ok code →
      code.size = acc.size + l.length ∧ (∀ k < acc.size, code[k]? = acc[k]?) ∧
      ∀ (k : Nat) (d : Draft), l[k]? = some d →
        ∃ s, aim starts (acc.size + k) d = .ok s ∧ code[acc.size + k]? = some s := by
    intro l
    induction l with
    | nil =>
      rintro acc _ ⟨⟩
      exact ⟨rfl, fun _ _ => rfl, nofun⟩
    | cons d l ih =>
      intro acc code hfold
      rw [List.foldlM_cons] at hfold
      obtain ⟨acc', hstep, hrest⟩ := Run.except_bind_ok.1 hfold
      obtain ⟨s, hs, hpush⟩ := Run.except_bind_ok.1 hstep
      obtain rfl := Except.ok.inj hpush
      obtain ⟨hsize, hold, hnew⟩ := ih _ _ hrest
      rw [Array.size_push] at hsize hold hnew
      refine ⟨by rw [hsize, List.length_cons]; omega, fun k hk => ?_, fun k d' hk => ?_⟩
      · rw [hold k (by omega), Array.getElem?_push, if_neg (by omega)]
      · cases k with
        | zero =>
          obtain rfl : d = d' := by simpa using hk
          refine ⟨s, hs, ?_⟩
          rw [Nat.add_zero, hold acc.size (by omega), Array.getElem?_push, if_pos rfl]
        | succ k =>
          obtain ⟨s', hs', hcode⟩ := hnew k d' (by simpa using hk)
          have hplace : acc.size + (k + 1) = acc.size + 1 + k := by omega
          rw [hplace]
          exact ⟨s', hs', hcode⟩
  have hfold := hlist ds.toList #[] code (by rw [Array.foldlM_toList]; exact h)
  simpa using hfold

end Emit

namespace Bytecode

/-- Machine code that holds all drafts of a program, each aimed at its own place. -/
structure Generated (p : Program) (a : Allocation) (code : Array Slot) : Prop where
  succeeds : ∀ i ∈ p.instructions, Emit.Succeeds (Emit.instruction a i)
  size : code.size = (Emit.layout a p).length
  slots : ∀ (k : Nat) (d : Draft), (Emit.layout a p)[k]? = some d →
    ∃ s, Emit.aim ((List.range p.blocks.size).map (Emit.startOf a p)).toArray k d = .ok s ∧
      code[k]? = some s

theorem slotsOf_ok {p : Program} {a : Allocation} {code : Array Slot} :
    slotsOf p a = .ok code ↔
      ∃ starts ds, Emit.program a p #[] = .ok starts ds ∧ Emit.aimAll starts ds = .ok code := by
  unfold slotsOf EStateM.run
  cases Emit.program a p #[] with
  | ok starts ds => simp [and_assoc]
  | error e ds => simp

theorem size_slotsOf {p : Program} {a : Allocation} {code : Array Slot}
    (h : slotsOf p a = .ok code) : code.size = Emit.extent (Emit.program a p #[]) := by
  obtain ⟨starts, ds, hrun, haim⟩ := slotsOf_ok.1 h
  rw [hrun]
  exact (Emit.aimAll_ok haim).1

/-- Under a limit, a program either has the code that it has without one, or is too long. -/
theorem generate_eq (p : Program) (a : Allocation) (stack limit : Nat) :
    generate p a stack limit = if Emit.extent (Emit.program a p #[]) ≤ limit then
        (slotsOf p a).map fun code => { code, limit, stack }
      else .error (.tooLong limit) := by
  have hcap : Emit.Capped limit fun _ => Emit.program a p := Emit.capped_program a p
  unfold generate
  split
  · rename_i hle
    have hsame : @slotsOf (.ofLimit limit) p a = slotsOf p a := by
      unfold slotsOf EStateM.run
      rw [hcap.fits #[] hle]
    rw [hsame]
    cases slotsOf p a <;> rfl
  · rename_i hover
    obtain ⟨es, hes⟩ := hcap.exceeds #[] (Nat.zero_le _) (Nat.lt_of_not_le hover)
    have hlong : @slotsOf (.ofLimit limit) p a = .error (.tooLong limit) := by
      unfold slotsOf EStateM.run
      rw [hes]
    rw [hlong]
    rfl

theorem generate_of_slots {p : Program} {a : Allocation} {code : Array Slot}
    (h : slotsOf p a = .ok code) (stack limit : Nat) : generate p a stack limit =
      if code.size ≤ limit then .ok { code, limit, stack } else .error (.tooLong limit) := by
  rw [generate_eq, ← size_slotsOf h, h]
  rfl

theorem slots_of_generate {p : Program} {a : Allocation} {stack limit : Nat} {b : Bytecode}
    (h : generate p a stack limit = .ok b) :
    slotsOf p a = .ok b.code ∧ b.code.size ≤ limit ∧ b = { code := b.code, limit, stack } := by
  rw [generate_eq] at h
  split at h
  · rename_i hle
    obtain ⟨code, hcode, rfl⟩ := Run.except_map_ok.1 h
    exact ⟨hcode, size_slotsOf hcode ▸ hle, rfl⟩
  · cases h

theorem generate_ok {p : Program} {a : Allocation} {stack limit : Nat} {b : Bytecode}
    (h : generate p a stack limit = .ok b) :
    Generated p a b.code ∧ b.code.size ≤ limit ∧ b.stack = stack := by
  obtain ⟨hcode, hfits, hfields⟩ := slots_of_generate h
  obtain ⟨starts, ds, hrun, haim⟩ := slotsOf_ok.1 hcode
  obtain ⟨hall, hds, hstarts⟩ := Emit.program_ok hrun
  obtain ⟨hsize, hslots⟩ := Emit.aimAll_ok haim
  refine ⟨⟨hall, ?_, fun k d hd => ?_⟩, hfits, by rw [hfields]⟩
  · rw [← hds, Array.length_toList]
    exact hsize
  · rw [← hstarts]
    refine hslots k d ?_
    rw [← hds, Array.getElem?_toList] at hd
    exact hd

/-- The limit decides only whether there is code, not what the code is. A lower limit refuses exactly
the programs that have more slots, and a higher one changes nothing. The code is never cut short: it
is the code that there would be without a limit, and it has all slots of all instructions. -/
theorem generate_threshold (p : Program) (a : Allocation) (stack : Nat) {low high : Nat}
    (hle : low ≤ high) :
    (∀ b, generate p a stack high = .ok b →
      (b.code.size ≤ low → generate p a stack low = .ok { b with limit := low }) ∧
      (low < b.code.size → generate p a stack low = .error (.tooLong low))) ∧
    (∀ b, generate p a stack low = .ok b →
      generate p a stack high = .ok { b with limit := high }) ∧
    ∀ limit b, generate p a stack limit = .ok b →
      b.code.size ≤ limit ∧ @slotsOf .unlimited p a = .ok b.code ∧ Generated p a b.code := by
  refine ⟨fun b hb => ?_, fun b hb => ?_, fun limit b hb => ?_⟩
  · obtain ⟨hcode, -, hfields⟩ := slots_of_generate hb
    rw [generate_of_slots hcode, hfields]
    exact ⟨fun hfits => if_pos hfits, fun hover => if_neg (Nat.not_le_of_lt hover)⟩
  · obtain ⟨hcode, hfits, hfields⟩ := slots_of_generate hb
    rw [generate_of_slots hcode, if_pos (Nat.le_trans hfits hle), hfields]
  · obtain ⟨hall, hfits, -⟩ := generate_ok hb
    exact ⟨hfits, (slots_of_generate hb).1, hall⟩

/-- A constant of two slots that is kept in the frame. -/
def spilledConstant : Program where
  name := "p"
  blocks := #[{ code := #[.imm 0 0x10000000000, .ret] }]

theorem spilledConstant_threshold : ∃ b,
    generate spilledConstant ⟨#[some (.spill (-8))]⟩ 8 9 = .ok b ∧ b.code.size = 6 ∧
    generate spilledConstant ⟨#[some (.spill (-8))]⟩ 8 6 = .ok { b with limit := 6 } ∧
    ∀ limit < 6, generate spilledConstant ⟨#[some (.spill (-8))]⟩ 8 limit = .error (.tooLong limit) := by
  obtain ⟨b, hb, hsize⟩ : ∃ b, generate spilledConstant ⟨#[some (.spill (-8))]⟩ 8 9 = .ok b ∧
      b.code.size = 6 := ⟨_, rfl, rfl⟩
  have hlower : ∀ {low : Nat}, low ≤ 9 → _ := fun hle =>
    (generate_threshold spilledConstant ⟨#[some (.spill (-8))]⟩ 8 hle).1 b hb
  refine ⟨b, hb, hsize, (hlower (by omega)).1 (by omega), fun limit hlt => ?_⟩
  exact (hlower (by omega)).2 (by omega)

end Bytecode

end TraceScript
