import TraceScript.Proofs.Allocated
import TraceScript.Proofs.Assembled
import TraceScript.Proofs.Numbered
import TraceScript.Proofs.Prepared
import TraceScript.Proofs.TwoAddress

namespace TraceScript

open TraceScript.Flow Run

namespace Emit

variable {n : Nat} {a : Allocation}

/-- The scope in which code fails at an address of the frame or not at all, and jumps go to known
blocks only. -/
def Scope.reach (n : Nat) : Scope :=
  ⟨fun _ => True, fun _ b => b < n, fun e => ∃ addr, e = .stackOffset addr⟩

/-- The jumps that are still open go to known blocks. -/
def Aimed (n : Nat) (ds : List Draft) : Prop := ∀ d ∈ ds, ∀ b : Nat, d.target = some b → b < n

theorem Row.aimed {ds : List Draft} (h : Row (.reach n) ds) : Aimed n ds := by
  induction h with
  | nil => exact nofun
  | group _ _ ih => exact List.forall_mem_append.2 ⟨List.forall_mem_map.2 fun _ _ => nofun, ih⟩
  | jump hj _ ih => exact List.forall_mem_cons.2 ⟨fun b hb => Option.some.inj hb ▸ hj, ih⟩

/-- An instruction that can be written: its temporaries have homes, arithmetic changes its left
operand, and jumps go to known blocks. -/
structure Writable (a : Allocation) (n : Nat) (i : Instruction) : Prop where
  homes : ∀ u : Temp, i.def? = some u ∨ u ∈ i.uses → (a.home u).isSome
  inPlace : ∀ op dst lhs rhs, i = .arith op dst lhs rhs → lhs = dst
  targets : ∀ k : Nat, k ∈ i.targets → k < n

theorem Writable.written {i : Instruction} (h : Writable a n i) :
    Written (.reach n) (fun _ => True) fun _ => instruction a i := by
  have hk : (Scope.reach n).Admits a i.maps fun _ => True :=
    ⟨usable_all a, fun _ _ => trivial, fun addr => ⟨addr, rfl⟩⟩
  refine written_instruction hk
    ⟨fun t ht hnone => ?_, fun op dst lhs rhs hi hne => absurd (h.inPlace op dst lhs rhs hi) hne,
      fun b hb => ⟨h.targets b hb, fun _ => h.targets b hb⟩, fun _ => trivial⟩ fun _ hx => hx
  have hsome := h.homes t ht
  rw [hnone] at hsome
  cases hsome

theorem program_error {p : Program} (h : ∀ i ∈ p.instructions, Writable a p.blocks.size i)
    {ds : Array Draft} {e : CodeError} (hrun : program a p #[] = .error e ds) :
    ∃ addr, e = .stackOffset addr := by
  rcases Run.estate_bind_error.1 hrun with hpush | ⟨_, _, -, hblocks⟩
  · cases hpush
  · exact blocks_error (k := .reach p.blocks.size) (fun i hi => (h i hi).written) hblocks

theorem aimed_program {p : Program} (h : ∀ i ∈ p.instructions, Writable a p.blocks.size i)
    {starts : Array Nat} {ds : Array Draft} (hrun : program a p #[] = .ok starts ds) :
    Aimed starts.size ds.toList := by
  obtain ⟨hall, hds, hstarts⟩ := program_ok hrun
  have hsize : starts.size = p.blocks.size := by
    rw [← Array.length_toList, hstarts, List.length_map, List.length_range]
  rw [hsize, hds]
  exact List.forall_mem_cons.2 ⟨nofun, (row_codeDrafts (fun i hi => (h i hi).written) hall).aimed⟩

theorem aim_error {starts : Array Nat} {k : Nat} {d : Draft} {e : CodeError}
    (hd : ∀ b : Nat, d.target = some b → b < starts.size) (h : aim starts k d = .error e) :
    ∃ distance, e = .jumpRange distance := by
  unfold aim at h
  split at h
  · cases h
  · rename_i b hb
    rw [Array.getElem?_eq_getElem (hd b hb)] at h
    dsimp only at h
    split at h
    · cases h
    · exact ⟨_, (Except.error.inj h).symm⟩

theorem aimAll_error {starts : Array Nat} {ds : Array Draft} {e : CodeError}
    (hds : Aimed starts.size ds.toList) (h : aimAll starts ds = .error e) :
    ∃ distance, e = .jumpRange distance := by
  have hlist : ∀ (l : List Draft) (acc : Array Slot), (∀ d ∈ l, d ∈ ds.toList) →
      l.foldlM (fun code d => do return code.push (← aim starts code.size d)) acc = .error e →
      ∃ distance, e = .jumpRange distance := by
    intro l
    induction l with
    | nil => exact fun _ _ h => nomatch h
    | cons d l ih =>
      intro acc hmem hfold
      rw [List.foldlM_cons] at hfold
      rcases Run.except_bind_error.1 hfold with hstep | ⟨acc', -, hrest⟩
      · rcases Run.except_bind_error.1 hstep with haim | ⟨s, -, hpush⟩
        · exact aim_error (hds d (hmem d List.mem_cons_self)) haim
        · cases hpush
      · exact ih acc' (fun x hx => hmem x (List.mem_cons_of_mem _ hx)) hrest
  rw [aimAll, ← Array.foldlM_toList] at h
  exact hlist _ _ (fun _ hd => hd) h

end Emit

namespace CodeError

/-- The errors of a program that is too large for the machine. -/
def IsLimit (limit : Nat) : CodeError → Prop
  | tooLong n => n = limit
  | stackOffset _ | jumpRange _ => True
  | unboundMap _ | noEventChannel | internal _ => False

end CodeError

theorem Bytecode.generate_error {p : Program} {a : Allocation} {stack limit : Nat} {e : CodeError}
    (hp : ∀ i ∈ p.instructions, Emit.Writable a p.blocks.size i)
    (h : generate p a stack limit = .error e) : e.IsLimit limit := by
  rw [generate_eq] at h
  split at h
  · unfold slotsOf EStateM.run at h
    split at h
    · rename_i starts drafts hrun
      obtain ⟨distance, rfl⟩ :=
        Emit.aimAll_error (Emit.aimed_program hp hrun) (Run.except_map_error.1 h)
      trivial
    · rename_i e' drafts hrun
      obtain ⟨addr, rfl⟩ := Emit.program_error hp hrun
      obtain rfl := Except.error.inj h
      trivial
  · obtain rfl := Except.error.inj h
    rfl

namespace Flow.Program

variable {p : Program}

theorem Ordered.defined (h : p.Ordered) {i : Instruction} (hi : i ∈ p.instructions) {t : Temp}
    (ht : i.def? = some t ∨ t ∈ i.uses) : ∃ j ∈ p.instructions, j.def? = some t ∧ t < p.temps.size := by
  obtain ⟨k, hk⟩ := List.mem_iff_getElem?.1 hi
  obtain ⟨b, c, d, hcode, -⟩ := code_of_instruction hk
  have hdef : t ∈ defs (p.codeAt b) := by
    rw [hcode]
    rcases ht with ht | ht
    · exact mem_defs.2 ⟨i, by simp, ht⟩
    · obtain ⟨j, hj, hd⟩ := mem_defs.1 (h.isLocal b c i d hcode t ht)
      exact mem_defs.2 ⟨j, by simp [hj], hd⟩
  obtain ⟨j, hj, hd⟩ := mem_defs.1 hdef
  obtain ⟨c', d', hcode'⟩ := List.append_of_mem hj
  exact ⟨j, List.mem_of_getElem? (instruction_of_code hcode'), hd, h.bounded b t hdef⟩

theorem Ordered.home_isSome (h : p.Ordered) (frame : Frame) {i : Instruction}
    (hi : i ∈ p.instructions) {t : Temp} (ht : i.def? = some t ∨ t ∈ i.uses) :
    (((p.analyze.allocateAlong frame p.analyze.intervals).homeOf t)).isSome := by
  obtain ⟨j, hj, hd, hlt⟩ := h.defined hi ht
  obtain ⟨v, hv, rfl⟩ := (p.exists_range_iff t).2 ⟨hlt, j, hj, hd⟩
  obtain ⟨now, hfair⟩ := p.analyze.allocate_fair frame
  exact hfair.settled v (List.mem_reverse.2 hv)

/-- The machine code of a program that lowering builds is missing only if the program is too large
for the machine. -/
theorem Formed.assemble_error (h : p.Formed) {frame : Frame} {limit : Nat} {e : CodeError}
    (he : p.assemble frame limit = .error e) : e.IsLimit limit := by
  refine Bytecode.generate_error (fun i hi => ?_) he
  rw [instructions_allocate, ← instructions_twoAddress] at hi
  have hordered := h.ordered
  obtain ⟨k, hk⟩ := List.mem_iff_getElem?.1 hi
  obtain ⟨b, c, d, hcode, -⟩ := code_of_instruction hk
  have hmem : i ∈ p.twoAddress.codeAt b := by rw [hcode]; simp
  refine ⟨fun u hu => hordered.home_isSome frame hi hu, hordered.inPlace b i hmem, fun k hk => ?_⟩
  have hblocks : (p.twoAddress.analyze.allocate frame).program.blocks.size =
      p.twoAddress.blocks.size := p.twoAddress.size_analyze
  rw [hblocks]
  exact hordered.targets b i hmem k hk

end Flow.Program

end TraceScript
