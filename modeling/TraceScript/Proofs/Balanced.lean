import Mathlib.Algebra.Order.Group.Multiset
import Mathlib.Tactic.Abel
import TraceScript.Proofs.Chunk

namespace TraceScript.Flow

open Instruction Evaluation

/-- The temporaries that code gives a value, in order. -/
def defs (code : List Instruction) : List Temp := code.filterMap Instruction.def?

@[simp] theorem defs_append (c d : List Instruction) : defs (c ++ d) = defs c ++ defs d :=
  List.filterMap_append ..

/-- Whatever code reads was given a value earlier in the same code. -/
def IsLocal (code : List Instruction) : Prop :=
  ∀ c i d, code = c ++ i :: d → ∀ u ∈ i.uses, u ∈ defs c

/-- The temporaries that code reads, as often as it does. -/
def reads (code : List Instruction) : List Temp := code.flatMap uses

/-- Code takes over the temporaries that are owed a read, each instruction reads some of them and
adds the one that it defines, and some are left at the end. -/
def Spends : Multiset Temp → List Instruction → Multiset Temp → Prop
  | owed, [], left => owed = left
  | owed, i :: code, left =>
    ∃ rest : Multiset Temp, owed = ↑i.uses + rest ∧ Spends (↑i.def?.toList + rest) code left

namespace Spends

variable {owed mid left : Multiset Temp} {c d : List Instruction}

theorem one (i : Instruction) (rest : Multiset Temp) :
    Spends (↑i.uses + rest) [i] (↑i.def?.toList + rest) :=
  ⟨rest, rfl, rfl⟩

theorem append (h : Spends owed c mid) (h' : Spends mid d left) : Spends owed (c ++ d) left := by
  induction c generalizing owed with
  | nil =>
    cases h
    exact h'
  | cons i c ih =>
    obtain ⟨rest, howed, hrest⟩ := h
    exact ⟨rest, howed, ih hrest⟩

theorem of_append (h : Spends owed (c ++ d) left) :
    ∃ mid, Spends owed c mid ∧ Spends mid d left := by
  induction c generalizing owed with
  | nil => exact ⟨owed, rfl, h⟩
  | cons i c ih =>
    obtain ⟨rest, howed, hrest⟩ := h
    obtain ⟨mid, hc, hd⟩ := ih hrest
    exact ⟨mid, ⟨rest, howed, hc⟩, hd⟩

theorem frame (h : Spends owed c left) (others : Multiset Temp) :
    Spends (owed + others) c (left + others) := by
  induction c generalizing owed with
  | nil => exact congrArg (· + others) h
  | cons i c ih =>
    obtain ⟨rest, rfl, hrest⟩ := h
    refine ⟨rest + others, add_assoc .., ?_⟩
    rw [← add_assoc]
    exact ih hrest

theorem balance (h : Spends owed c left) : owed + ↑(defs c) = ↑(reads c) + left := by
  induction c generalizing owed with
  | nil =>
    cases h
    exact add_comm ..
  | cons i c ih =>
    obtain ⟨rest, rfl, hrest⟩ := h
    have hdefs : defs (i :: c) = i.def?.toList ++ defs c := by
      cases hd : i.def? <;> simp [defs, hd]
    have hreads : reads (i :: c) = i.uses ++ reads c := List.flatMap_cons ..
    calc (↑i.uses + rest + ↑(defs (i :: c)) : Multiset Temp)
        = ↑i.uses + (↑i.def?.toList + rest + ↑(defs c)) := by
          rw [hdefs, ← Multiset.coe_add]
          abel
      _ = ↑(reads (i :: c)) + left := by rw [ih hrest, hreads, ← Multiset.coe_add, add_assoc]

theorem isLocal (h : Spends 0 c left) : IsLocal c := by
  rintro a i e rfl u hu
  obtain ⟨mid, ha, rest, rfl, -⟩ := h.of_append
  have hbalance := ha.balance
  rw [zero_add] at hbalance
  have hmem : u ∈ (↑(defs a) : Multiset Temp) := by
    rw [hbalance]
    exact Multiset.mem_add.2 (.inr (Multiset.mem_add.2 (.inl hu)))
  exact hmem

end Spends

/-- If the action succeeds, it has added straight code that takes over some temporaries and leaves
others, and has defined all of its new temporaries in their order. -/
def Balanced {α : Type} (m : Build α) (owed : Multiset Temp) (left : α → Multiset Temp) : Prop :=
  Lays m fun s a c => (∀ i ∈ c.code, i.isFinal = false) ∧
    defs c.code = List.range' s.count c.temps.length ∧ Spends owed c.code (left a)

namespace Balanced

variable {α β : Type} {m : Build α} {f : α → Build β} {owed rest : Multiset Temp}
  {left : α → Multiset Temp} {after : β → Multiset Temp}

protected theorem pure {a : α} (h : owed = left a) : Balanced (pure a : Build α) owed left :=
  .of_emits (fun _ => .pure a) fun _ => ⟨nofun, rfl, h⟩

protected theorem throw (e : CodeError) : Balanced (throw e : Build α) owed left := Lays.throw e

theorem fault (f : Fault) : Balanced (Build.fault f : Build α) owed left := .throw _

theorem of_eq {owed' : Multiset Temp} (h : Balanced m owed left) (heq : owed' = owed) :
    Balanced m owed' left :=
  heq ▸ h

theorem bind_frame (hm : Balanced m owed left) (hf : ∀ a, Balanced (f a) (left a + rest) after) :
    Balanced (m >>= f) (owed + rest) after := by
  refine Lays.bind (hm.mono fun s a c h => (hf a).mono fun s' b d h' hcount => ?_)
  obtain ⟨hc, hdefs, hspends⟩ := h
  obtain ⟨hd, hdefs', hspends'⟩ := h'
  refine ⟨fun i hi => (List.mem_append.1 hi).elim (hc i) (hd i), ?_,
    (hspends.frame rest).append hspends'⟩
  rw [Chunk.code_append, defs_append, hdefs, hdefs', hcount, Chunk.temps_append,
    List.length_append, List.range'_append_1]

protected theorem bind (hm : Balanced m 0 left) (hf : ∀ a, Balanced (f a) (left a + rest) after) :
    Balanced (m >>= f) rest after :=
  (hm.bind_frame hf).of_eq (zero_add rest).symm

theorem spend (hm : Balanced m owed fun _ => 0) (hf : ∀ a, Balanced (f a) rest after) :
    Balanced (m >>= f) (owed + rest) after :=
  hm.bind_frame fun a => (hf a).of_eq (zero_add rest)

theorem skip (hm : Balanced m 0 fun _ => 0) (hf : ∀ a, Balanced (f a) rest after) :
    Balanced (m >>= f) rest after :=
  hm.bind fun a => (hf a).of_eq (zero_add rest)

theorem push {i : Instruction} (hi : i.isFinal = false) (hd : i.def? = none) :
    Balanced (Build.push i) ↑i.uses fun _ => 0 := by
  refine .of_emits (fun _ => .push i) fun s => ⟨List.forall_mem_singleton.2 hi, ?_, ?_⟩
  · simp [defs, hd]
  · have hone := Spends.one i 0
    rwa [hd, add_zero] at hone

/-- A new temporary, the instruction that gives it a value, and what is done with it. -/
theorem define {i : Temp → Instruction} {f : Temp → Build β}
    (origin : Option Origin) (used : List Temp) (hi : ∀ dst, (i dst).isFinal = false ∧
      (i dst).def? = some dst ∧ (i dst).uses = used)
    (hf : ∀ dst, Balanced (f dst) ({dst} + rest) after) :
    Balanced (do let dst ← Build.newTemp origin; Build.push (i dst); f dst) (↑used + rest) after := by
  have hdefine : Balanced (do let dst ← Build.newTemp origin; Build.push (i dst); return dst) ↑used
      fun dst => {dst} := by
    refine .of_emits (fun _ => .define origin i) fun s => ?_
    obtain ⟨hfinal, hdef, huses⟩ := hi s.count
    refine ⟨List.forall_mem_singleton.2 hfinal, by simp [defs, hdef], ?_⟩
    have hone := Spends.one (i s.count) 0
    rw [hdef, huses, add_zero] at hone
    exact hone
  have hboth := hdefine.bind_frame hf
  simpa only [bind_assoc, pure_bind] using hboth

theorem announce (f : EventFormat) :
    Balanced (modify fun s : Builder => { s with outputs := s.outputs.push f }) 0 fun _ => 0 :=
  Lays.announce f fun _ => ⟨nofun, rfl, rfl⟩

end Balanced

/-- Each use of a value owes nothing but the temporary that holds it. -/
structure Evaluation.Balanced (e : Evaluation) : Prop where
  scalar : Flow.Balanced e.scalar 0 fun t => {t}
  into : ∀ dest, Flow.Balanced (e.into dest) 0 fun _ => 0
  slot : Flow.Balanced e.slot 0 fun _ => 0

/-- The temporary of a staged value. -/
def Evaluation.Staged.temps : Staged → Multiset Temp
  | .temp t => {t}
  | _ => 0

/-- The temporaries of the staged values that are wanted. -/
def Evaluation.stagedTemps : List (Node × Evaluation) → List Staged → Multiset Temp
  | _ :: rest, s :: staged => s.temps + stagedTemps rest staged
  | _, _ => 0

section

variable {t : Table} {tag : Tag}

theorem balanced_addrOf (tag : Tag) : Balanced (Build.addrOf tag) 0 fun _ => 0 := by
  unfold Build.addrOf
  split
  · exact .pure rfl
  · exact .fault _

theorem balanced_mapRef (t : Table) (tag : Tag) (name : Name) :
    Balanced (mapRef t tag name) 0 fun _ => 0 := by
  unfold mapRef
  dsimp only
  split
  · exact .pure rfl
  · exact .throw _

theorem balanced_load (addr : Int) (origin : Option Origin) :
    Balanced (Build.load addr origin) 0 fun t => {t} :=
  .define origin [] (fun _ => ⟨rfl, rfl, rfl⟩) fun _ => .pure (add_zero _)

namespace Evaluation

theorem balanced_storing {scalar : Build Temp} {build : Int → Build Unit}
    (hs : Flow.Balanced scalar 0 fun t => {t}) (hb : ∀ dest, Flow.Balanced (build dest) 0 fun _ => 0)
    (dest : Int) : Flow.Balanced (storing tag scalar build dest) 0 fun _ => 0 := by
  unfold storing
  split
  · exact .bind hs fun src => (Balanced.push (i := .store src dest) rfl rfl).of_eq (add_zero _)
  · exact hb dest

theorem balanced_standing {scalar : Build Temp} {slot : Build Int}
    (hs : Flow.Balanced scalar 0 fun t => {t}) (hl : Flow.Balanced slot 0 fun _ => 0) :
    (standing tag scalar slot).Balanced where
  scalar := hs
  into := balanced_storing hs fun dest => .skip hl fun source => by
    split
    · exact .push rfl rfl
    · exact .pure rfl
  slot := hl

theorem balanced_built {scalar : Build Temp} {build : Int → Build Unit}
    (hs : Flow.Balanced scalar 0 fun t => {t})
    (hb : ∀ dest, Flow.Balanced (build dest) 0 fun _ => 0) : (built tag scalar build).Balanced where
  scalar := hs
  into := balanced_storing hs hb
  slot := .skip (balanced_addrOf tag) fun addr => .skip (balanced_storing hs hb addr) fun _ => .pure rfl

theorem Balanced.operand {e : Evaluation} (h : e.Balanced) (n : Node) :
    Flow.Balanced (e.operand n) 0 fun r => ↑r.temps := by
  have hscalar : Flow.Balanced (do return Operand.temp (← e.scalar)) 0 fun r => ↑r.temps :=
    .bind h.scalar fun _ => .pure (add_zero _)
  unfold Evaluation.operand
  split
  · split
    · exact .pure rfl
    · exact hscalar
  · exact hscalar

theorem Balanced.stage {e : Evaluation} (h : e.Balanced) (n : Node) :
    Flow.Balanced (Evaluation.stage n e) 0 Staged.temps := by
  unfold Evaluation.stage
  split
  · exact .bind h.scalar fun _ => .pure (add_zero _)
  · split
    · exact .skip h.slot fun _ => .pure rfl
    · exact .pure rfl

theorem Balanced.unstage {e : Evaluation} (h : e.Balanced) (n : Node) (dest : Int) (st : Staged) :
    Flow.Balanced (Evaluation.unstage n e dest st) st.temps fun _ => 0 := by
  cases st with
  | temp src => exact .push rfl rfl
  | slot source => exact .push rfl rfl
  | deferred => exact h.into dest

variable {es : List (Node × Evaluation)}

theorem balanced_stageAll (h : ∀ x ∈ es, x.2.Balanced) :
    Flow.Balanced (stageAll es) 0 (stagedTemps es) := by
  induction es with
  | nil => exact .pure rfl
  | cons x es ih =>
    refine .bind ((h x List.mem_cons_self).stage x.1) fun first => ?_
    refine .bind (ih fun y hy => h y (List.mem_cons_of_mem _ hy)) fun others => ?_
    refine .pure ?_
    rw [add_zero, add_comm]
    rfl

theorem balanced_unstageAll (h : ∀ x ∈ es, x.2.Balanced) (addr : Int) (sts : List Staged) :
    Flow.Balanced (unstageAll addr es sts) (stagedTemps es sts) fun _ => 0 := by
  induction es generalizing addr sts with
  | nil =>
    unfold unstageAll
    exact .pure rfl
  | cons x es ih =>
    cases sts with
    | nil =>
      unfold unstageAll
      exact .pure rfl
    | cons st sts =>
      unfold unstageAll
      exact .spend ((h x List.mem_cons_self).unstage x.1 addr st) fun _ =>
        ih (fun y hy => h y (List.mem_cons_of_mem _ hy)) _ _

theorem balanced_packInto (h : ∀ x ∈ es, x.2.Balanced) (addr : Int) :
    Flow.Balanced (packInto addr es) 0 fun _ => 0 := by
  induction es generalizing addr with
  | nil => exact .pure rfl
  | cons x es ih =>
    exact .skip ((h x List.mem_cons_self).into addr) fun _ =>
      ih (fun y hy => h y (List.mem_cons_of_mem _ hy)) _

theorem balanced_readMap (h : ∀ x ∈ es, x.2.Balanced) (m : MapRef) (dest : Int) :
    Flow.Balanced (readMap m es dest) 0 fun _ => 0 :=
  .bind (balanced_stageAll h) fun sts => .skip (.push rfl rfl) fun _ => .skip (.push rfl rfl)
    fun _ => .spend (balanced_unstageAll h _ sts) fun _ => .push rfl rfl

theorem balanced_output (h : ∀ x ∈ es, x.2.Balanced) :
    Flow.Balanced (output t es) 0 fun _ => 0 := by
  unfold output
  split
  · rename_i e
    have he := fun n hn => (h (n, e) hn).into
    split
    · split
      · split
        · exact .throw _
        · refine .skip (balanced_addrOf _) fun addr => .skip ?_ fun _ =>
            .skip (.push rfl rfl) fun _ => ?_
          · exact he _ (List.mem_cons_of_mem _ List.mem_cons_self) addr
          · split
            · exact .fault _
            · exact .announce _
      · exact .fault _
    · exact .fault _
  · exact .fault _

theorem balanced_helper (h : ∀ x ∈ es, x.2.Balanced) (b : Builtin) :
    Flow.Balanced (helper tag es b) 0 fun _ => 0 := by
  cases b with
  | arg =>
    unfold helper
    dsimp only
    split
    · exact .pure rfl
    · exact .fault _
  | comm => exact .skip (balanced_addrOf tag) fun _ => .pure rfl
  | strcmp =>
    unfold helper
    dsimp only
    split
    · rename_i lhs l rhs r
      exact .skip (h (lhs, l) (by simp)).slot fun _ =>
        .skip (h (rhs, r) (by simp)).slot fun _ => .pure rfl
    · exact .fault _
  | _ => exact .pure rfl

theorem balanced_call (h : ∀ x ∈ es, x.2.Balanced) (function : Name) (wanted : Bool) :
    Flow.Balanced (call t tag function es wanted) 0 fun dst => if wanted then ↑dst.toList else 0 := by
  unfold call
  split
  · exact .fault _
  · refine .skip (balanced_helper h _) fun found => ?_
    cases found with
    | none => exact .skip (balanced_output h) fun _ => .pure (ite_self 0).symm
    | some f =>
      dsimp only
      split
      · rename_i hwanted
        rw [(Bool.and_eq_true_iff.1 hwanted).1]
        simp only [map_eq_pure_bind, bind_assoc, pure_bind]
        change Flow.Balanced _ (↑([] : List Temp) + 0) _
        exact .define _ [] (fun _ => ⟨rfl, rfl, rfl⟩) fun dst => .pure (add_zero {dst})
      · rw [pure_bind]
        exact .skip (.push rfl rfl) fun _ => .pure (ite_self 0).symm

end Evaluation

mutual

theorem balanced_evaluation (t : Table) : ∀ n : Node, (evaluation t n).Balanced
  | .int tag value =>
    balanced_standing (.define _ [] (fun _ => ⟨rfl, rfl, rfl⟩) fun dst =>
      .pure (add_zero _)) (.fault _)
  | .var tag name =>
    balanced_standing (.skip (balanced_addrOf tag) fun _ => balanced_load _ _) (balanced_addrOf tag)
  | .mapAccess tag map keys => by
    have hkeys := balanced_evaluations t keys
    refine balanced_standing ?_ ?_
    · exact .skip (balanced_mapRef t tag map) fun m =>
        .skip (balanced_readMap hkeys m m.value) fun _ => balanced_load _ _
    · exact .skip (balanced_mapRef t tag map) fun m => .skip (balanced_addrOf tag) fun dest =>
        .skip (balanced_readMap hkeys m dest) fun _ => .pure rfl
  | .binary tag op lhs rhs => by
    have hl := balanced_evaluation t lhs
    have hr := balanced_evaluation t rhs
    refine balanced_standing (.bind hl.scalar fun l => .bind (hr.operand rhs) fun r => ?_) (.fault _)
    have howed : (↑r.temps + ({l} + 0) : Multiset Temp) = ↑(l :: r.temps) + 0 := by
      rw [add_zero, add_zero, add_comm, Multiset.singleton_add, Multiset.cons_coe]
    rw [howed]
    cases op <;> exact .define none _ (fun _ => ⟨rfl, rfl, rfl⟩) fun _ => .pure (add_zero _)
  | .call tag function args => by
    have hargs := balanced_evaluations t args
    refine balanced_built ?_ fun dest => ?_
    · refine .bind (balanced_call hargs function true) fun result => ?_
      cases result with
      | some dst => exact .pure (add_zero _)
      | none => exact .fault _
    · split
      · exact .push rfl rfl
      · exact .skip (balanced_addrOf tag) fun _ => .fault _
  | .text tag value => balanced_built (.fault _) fun dest => .push rfl rfl
  | .record tag members => by
    have hmembers := balanced_evaluations t members
    refine balanced_built (.fault _) fun dest => ?_
    split
    · exact .push rfl rfl
    · exact balanced_packInto hmembers dest
  | .declaration .. => balanced_standing (.fault _) (.fault _)
  | .assignment .. => balanced_standing (.fault _) (.fault _)
  | .cond .. => balanced_standing (.fault _) (.fault _)
  | .unroll .. => balanced_standing (.fault _) (.fault _)

theorem balanced_evaluations (t : Table) : ∀ ns : List Node, ∀ x ∈ evaluations t ns, x.2.Balanced
  | [] => nofun
  | n :: ns => by
    intro x hx
    rcases List.mem_cons.1 hx with rfl | hx
    · exact balanced_evaluation t n
    · exact balanced_evaluations t ns x hx

end

theorem balanced_clearRegions (m : MapRef) : Balanced (clearRegions m) 0 fun _ => 0 :=
  .skip (.push rfl rfl) fun _ => .push rfl rfl

theorem balanced_declaration (t : Table) (target value : Node) :
    Balanced (declaration t target value) 0 fun _ => 0 := by
  have hvalue := balanced_evaluation t value
  unfold declaration
  split
  · exact .skip (balanced_addrOf _) fun addr => hvalue.into addr
  · rename_i tag map keys
    have hkeys := balanced_evaluations t keys
    refine .skip (balanced_mapRef t tag map) fun m => .bind (balanced_stageAll hkeys) fun sts =>
      .bind (hvalue.stage value) fun st => .skip (balanced_clearRegions m) fun _ => ?_
    rw [add_comm, add_assoc, zero_add]
    exact .spend (balanced_unstageAll hkeys _ sts) fun _ =>
      .of_eq (.spend (hvalue.unstage value _ st) fun _ => .push rfl rfl) (add_zero _).symm
  · exact .fault _

theorem balanced_change (op : ArithOp) (current : Temp) (r : Operand) (addr : Int)
    {rest : Build Unit} (hrest : Balanced rest 0 fun _ => 0) :
    Balanced (do
      let dst ← Build.newTemp none
      Build.push (.arith op dst current r)
      Build.push (.store dst addr)
      rest) ({current} + ↑r.temps) fun _ => 0 := by
  rw [Multiset.singleton_add, Multiset.cons_coe, ← add_zero (↑(current :: r.temps) : Multiset Temp)]
  exact .define none _ (fun _ => ⟨rfl, rfl, rfl⟩) fun dst =>
    .spend (.push (i := .store dst addr) rfl rfl) fun _ => hrest

theorem balanced_assignment (t : Table) (op : ArithOp) (target value : Node) :
    Balanced (assignment t op target value) 0 fun _ => 0 := by
  have hvalue := balanced_evaluation t value
  unfold assignment
  split
  · refine .skip (balanced_addrOf _) fun addr => .bind (balanced_load _ _) fun current =>
      .bind (hvalue.operand value) fun r => ?_
    rw [add_zero, add_comm]
    have hchange := balanced_change op current r addr (.pure (a := ()) rfl)
    simpa only [bind_pure_unit] using hchange
  · rename_i tag map keys
    have hkeys := balanced_evaluations t keys
    refine .skip (balanced_mapRef t tag map) fun m => .bind (balanced_stageAll hkeys) fun sts =>
      .bind (hvalue.operand value) fun r => .skip (balanced_clearRegions m) fun _ => ?_
    rw [add_zero, add_comm]
    exact .spend (balanced_unstageAll hkeys _ sts) fun _ => .skip (.push rfl rfl) fun _ =>
      .bind (balanced_load _ _) fun current => balanced_change op current r m.value (.push rfl rfl)
  · exact .fault _

theorem balanced_callStatement (t : Table) (tag : Tag) (function : Name) (args : List Node) :
    Balanced (statement t (.call tag function args)) 0 fun _ => 0 :=
  .skip (balanced_call (balanced_evaluations t args) function false) fun _ => .pure rfl

end

end TraceScript.Flow
