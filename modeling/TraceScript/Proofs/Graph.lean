import Mathlib
import TraceScript.Kernel.DryRun
import TraceScript.Proofs.Prepared

namespace TraceScript

namespace Node

open TraceScript.Flow (Spread)

mutual

/-- How far the code of a statement spreads. -/
def spread : Node → Spread
  | .cond _ _ yes no => (spreadAll yes).fork (spreadAll no)
  | .unroll _ count body => (spreadAll body).times count
  | _ => .straight

def spreadAll : List Node → Spread
  | [] => .straight
  | n :: ns => n.spread.seq (spreadAll ns)

end

mutual

/-- The number of branches in a statement's program: one for each condition, as often as the
condition is unrolled. -/
def branches : Node → Nat
  | .cond _ _ yes no => 1 + branchesAll yes + branchesAll no
  | .unroll _ count body => count * branchesAll body
  | _ => 0

def branchesAll : List Node → Nat
  | [] => 0
  | n :: ns => n.branches + branchesAll ns

end

mutual

theorem spread_branches : ∀ n : Node, n.spread.branches = n.branches
  | .cond _ _ yes no => by
    simp only [spread, Spread.fork, branches, spreadAll_branches yes, spreadAll_branches no]
    omega
  | .unroll _ count body => by
    simp only [spread, Spread.times, branches, spreadAll_branches body]
  | .declaration .. | .assignment .. | .var .. | .mapAccess .. | .int .. | .text .. | .call ..
  | .binary .. | .record .. => rfl

theorem spreadAll_branches : ∀ ns : List Node, (spreadAll ns).branches = branchesAll ns
  | [] => rfl
  | n :: ns => by
    simp only [spreadAll, Spread.seq, branchesAll, spread_branches n, spreadAll_branches ns]

end

end Node

namespace Flow

open Instruction

theorem shaped_of_balanced {m : Build Unit} (hm : Balanced m 0 fun _ => 0) {s s' : Builder}
    (h : m s = .ok ((), s')) : Shaped .straight s s' := by
  obtain ⟨c, fs, rfl, hc, -⟩ := hm s () s' h
  exact .straight fs hc

theorem branch_stages {t : Table} {condition : Node} {yes no : Build Unit} {s s' : Builder}
    (h : branch t condition yes no s = .ok ((), s')) :
    ∃ cond s₁ s₃ s₅, (evaluation t condition).scalar s = .ok (cond, s₁) ∧
      yes (s₁.fork cond) = .ok ((), s₃) ∧
      no (s₃.leave (s₁.size + 2) (s₁.size + 1)) = .ok ((), s₅) ∧
      s' = s₅.leave (s₁.size + 2) (s₁.size + 2) := by
  rw [branch_eq] at h
  obtain ⟨cond, s₁, h₁, h⟩ := Build.ok_of_bind h
  rw [Build.bind_of_ok (s₁.openBranch_eq cond)] at h
  obtain ⟨⟨⟩, s₃, h₃, h⟩ := Build.ok_of_bind h
  rw [Build.bind_of_ok (s₃.closeCase_eq ..)] at h
  obtain ⟨⟨⟩, s₅, h₅, h⟩ := Build.ok_of_bind h
  rw [s₅.closeCase_eq] at h
  obtain ⟨-, rfl⟩ := Prod.mk.inj (Except.ok.inj h)
  exact ⟨cond, s₁, s₃, s₅, h₁, h₃, h₅, rfl⟩

theorem shaped_branch {t : Table} {condition : Node} {yes no : Build Unit} {v v' : Spread}
    (hyes : ∀ s s', yes s = .ok ((), s') → Shaped v s s')
    (hno : ∀ s s', no s = .ok ((), s') → Shaped v' s s') {s s' : Builder}
    (h : branch t condition yes no s = .ok ((), s')) : Shaped (v.fork v') s s' := by
  obtain ⟨cond, s₁, s₃, s₅, h₁, h₃, h₅, rfl⟩ := branch_stages h
  obtain ⟨c, fs, rfl, hc, -⟩ := (balanced_evaluation t condition).scalar s cond s₁ h₁
  have hshape := (Shaped.straight fs hc).seq (.branch cond (hyes _ _ h₃) (hno _ _ h₅))
  rwa [Spread.straight_seq] at hshape

theorem shaped_times {m : Build Unit} {v : Spread}
    (hm : ∀ s s', m s = .ok ((), s') → Shaped v s s') (n : Nat) {s s' : Builder}
    (h : times m n s = .ok ((), s')) : Shaped (v.times n) s s' := by
  induction n generalizing s with
  | zero =>
    rw [v.times_zero]
    exact shaped_of_balanced (.pure rfl) h
  | succ n ih =>
    obtain ⟨⟨⟩, s₁, h₁, h₂⟩ := Build.ok_of_bind h
    rw [v.times_succ]
    exact (hm _ _ h₁).seq (ih h₂)

mutual

theorem shaped_statement (t : Table) :
    ∀ (n : Node) (s s' : Builder), statement t n s = .ok ((), s') → Shaped n.spread s s'
  | .declaration _ target value, _, _, h =>
    shaped_of_balanced (balanced_declaration t target value) h
  | .assignment _ op target value, _, _, h =>
    shaped_of_balanced (balanced_assignment t op target value) h
  | .cond _ _ yes no, _, _, h =>
    shaped_branch (shaped_statements t yes) (shaped_statements t no) h
  | .unroll _ count body, _, _, h => shaped_times (shaped_statements t body) count h
  | .call tag function args, _, _, h =>
    shaped_of_balanced (balanced_callStatement t tag function args) h
  | .var .., _, _, h | .mapAccess .., _, _, h | .int .., _, _, h | .text .., _, _, h
  | .binary .., _, _, h | .record .., _, _, h => nomatch h

theorem shaped_statements (t : Table) :
    ∀ (ns : List Node) (s s' : Builder), statements t ns s = .ok ((), s') →
      Shaped (Node.spreadAll ns) s s'
  | [], _, _, h => shaped_of_balanced (.pure rfl) h
  | n :: ns, s, s', h => by
    obtain ⟨⟨⟩, s₁, h₁, h₂⟩ := Build.ok_of_bind h
    exact (shaped_statement t n s s₁ h₁).seq (shaped_statements t ns s₁ s' h₂)

end

/-- From wherever a block is open, an action keeps a condition on the program. -/
def Keeps (I : Program → Prop) (m : Build Unit) : Prop :=
  ∀ s s' : Builder, s.Open → m s = .ok ((), s') → I s.program → I s'.program

section

variable {I : Program → Prop} {t : Table} {n : Node} {ns yes no : List Node}

theorem keeps_nil : Keeps I (statements t []) := by
  rintro s _ _ ⟨⟩ hI
  exact hI

theorem keeps_cons (hn : Keeps I (statement t n)) (hns : Keeps I (statements t ns)) :
    Keeps I (statements t (n :: ns)) := by
  intro s s' hs h hI
  obtain ⟨⟨⟩, s₁, h₁, h₂⟩ := Build.ok_of_bind h
  exact hns s₁ s' ((shaped_statement t n s s₁ h₁).opens hs).1 h₂ (hn s s₁ hs h₁ hI)

theorem keeps_times (h : Keeps I (statements t ns)) (count : Nat) :
    Keeps I (times (statements t ns) count) := by
  induction count with
  | zero =>
    rintro s _ _ ⟨⟩ hI
    exact hI
  | succ count ih =>
    intro s s' hs hrun hI
    obtain ⟨⟨⟩, s₁, h₁, h₂⟩ := Build.ok_of_bind hrun
    exact ih s₁ s' ((shaped_statements t ns s s₁ h₁).opens hs).1 h₂ (h s s₁ hs h₁ hI)

theorem keeps_branch {condition : Node}
    (hfork : ∀ s s₁ cond, s.Open → s₁.Open → (evaluation t condition).scalar s = .ok (cond, s₁) →
      I s.program → I (s₁.fork cond).program)
    (hleave : ∀ s merge next, Builder.Open s → I s.program → I (s.leave merge next).program)
    (hyes : Keeps I (statements t yes)) (hno : Keeps I (statements t no)) :
    Keeps I (branch t condition (statements t yes) (statements t no)) := by
  intro s s' hs h hI
  obtain ⟨cond, s₁, s₃, s₅, h₁, h₃, h₅, rfl⟩ := branch_stages h
  have hs₁ : s₁.Open := by
    obtain ⟨c, fs, rfl, hc, -⟩ := (balanced_evaluation t condition).scalar s cond s₁ h₁
    exact ((Shaped.straight fs hc).opens hs).1
  have hs₂ := Branching.fork_open hs₁ cond
  obtain ⟨hs₃, hadv⟩ := (shaped_statements t yes _ _ h₃).opens hs₂
  have hs₄ := Branching.turn_open hs₁ hadv hs₃
  have hs₅ := ((shaped_statements t no _ _ h₅).opens hs₄).1
  have hI₃ := hyes _ _ hs₂ h₃ (hfork s s₁ cond hs hs₁ h₁ hI)
  exact hleave _ _ _ hs₅ (hno _ _ hs₄ h₅ (hleave _ _ _ hs₃ hI₃))

end

namespace Program

/-- What is recorded at a block. -/
def edgesAt (p : Program) (f : Block → Array BlockId) (b : Nat) : List Nat :=
  ((p.blocks[b]?).map fun x => (f x).toList).getD []

def succsAt (p : Program) (b : Nat) : List Nat := p.edgesAt Block.succs b

def predsAt (p : Program) (b : Nat) : List Nat := p.edgesAt Block.preds b

theorem succsAt_link {p : Program} {source : Nat} (h : source < p.blocks.size) (target b : Nat) :
    (p.link source target).succsAt b =
      if b = source then p.succsAt b ++ [target] else p.succsAt b := by
  simp only [succsAt, edgesAt, link, Array.getElem?_modify]
  by_cases hb : b = source
  · subst hb
    rw [if_pos rfl, if_pos rfl, Array.getElem?_eq_getElem h]
    split <;> simp
  · rw [if_neg (Ne.symm hb), if_neg hb]
    cases p.blocks[b]? with
    | none => simp
    | some block => split <;> rfl

theorem predsAt_link {p : Program} {target : Nat} (h : target < p.blocks.size) (source b : Nat) :
    (p.link source target).predsAt b =
      if b = target then p.predsAt b ++ [source] else p.predsAt b := by
  simp only [predsAt, edgesAt, link, Array.getElem?_modify]
  by_cases hb : b = target
  · subst hb
    rw [if_pos rfl, if_pos rfl, Array.getElem?_eq_getElem h]
    split <;> simp
  · rw [if_neg (Ne.symm hb), if_neg hb]
    cases p.blocks[b]? with
    | none => simp
    | some block => split <;> rfl

theorem succsAt_linkAll {p : Program} {source : Nat} (h : source < p.blocks.size)
    (targets : List Nat) (b : Nat) :
    (p.linkAll source targets).succsAt b =
      if b = source then p.succsAt b ++ targets else p.succsAt b := by
  induction targets generalizing p with
  | nil => simp [linkAll]
  | cons k targets ih =>
    have hrest := ih (p := p.link source k) (by rw [size_link]; exact h)
    rw [succsAt_link h] at hrest
    refine hrest.trans ?_
    split
    · rw [List.append_assoc]
      rfl
    · rfl

theorem count_predsAt_linkAll {p : Program} {source : Nat} {targets : List Nat}
    (h : ∀ k ∈ targets, k < p.blocks.size) (b q : Nat) :
    ((p.linkAll source targets).predsAt b).count q =
      (p.predsAt b).count q + if q = source then targets.count b else 0 := by
  induction targets generalizing p with
  | nil => simp [linkAll]
  | cons k targets ih =>
    have hrest := ih (p := p.link source k) fun j hj => by
      rw [size_link]
      exact h j (List.mem_cons_of_mem _ hj)
    rw [predsAt_link (h k List.mem_cons_self)] at hrest
    refine hrest.trans ?_
    by_cases hb : b = k <;> by_cases hq : q = source <;> grind

/-- The edges are those of the jumps, and are recorded at both ends. -/
structure Linked (p : Program) : Prop where
  succs : ∀ b, p.succsAt b = (p.codeAt b).flatMap targets
  preds : ∀ b q, (p.predsAt b).count q = (p.succsAt q).count b

theorem Linked.congr {p q : Program} (h : p.Linked) (hcode : ∀ b, q.codeAt b = p.codeAt b)
    (hsuccs : ∀ b, q.succsAt b = p.succsAt b) (hpreds : ∀ b, q.predsAt b = p.predsAt b) :
    q.Linked where
  succs b := by rw [hsuccs, hcode, h.succs]
  preds b k := by rw [hpreds, hsuccs, h.preds]

end Program

namespace Builder

variable {s : Builder}

theorem edgesAt_append {f : Block → Array BlockId} (hf : ∀ x code, f { x with code } = f x)
    (s : Builder) (c : Chunk) (b : Nat) :
    (s.append c).program.edgesAt f b = s.program.edgesAt f b := by
  simp only [Program.edgesAt, append, Array.getElem?_modify]
  split
  · cases s.program.blocks[b]? with
    | none => rfl
    | some x => simp [hf]
  · rfl

theorem edgesAt_addBlock {f : Block → Array BlockId} (hf : f {} = #[]) (s : Builder) (b : Nat) :
    s.addBlock.program.edgesAt f b = s.program.edgesAt f b := by
  simp only [Program.edgesAt, addBlock, Array.getElem?_push]
  split
  · rename_i hb
    subst hb
    simp [hf]
  · rfl

theorem succsAt_append (s : Builder) (c : Chunk) (b : Nat) :
    (s.append c).program.succsAt b = s.program.succsAt b :=
  s.edgesAt_append (fun _ _ => rfl) c b

theorem predsAt_append (s : Builder) (c : Chunk) (b : Nat) :
    (s.append c).program.predsAt b = s.program.predsAt b :=
  s.edgesAt_append (fun _ _ => rfl) c b

theorem linked_addBlock (h : s.program.Linked) : s.addBlock.program.Linked :=
  h.congr s.codeAt_addBlock (s.edgesAt_addBlock rfl) (s.edgesAt_addBlock rfl)

theorem linked_append (h : s.program.Linked) (hs : s.here < s.size) {c : Chunk}
    (hc : ∀ i ∈ c.code, i.isFinal = false) : (s.append c).program.Linked where
  succs b := by
    have hnone : c.code.flatMap targets = [] := List.flatMap_eq_nil_iff.2 fun i hi => by
      have hfinal := hc i hi
      cases i <;> first | rfl | cases hfinal
    have hcode : (s.append c).program.codeAt b = _ := codeAt_append hs c b
    rw [succsAt_append, h.succs, hcode]
    split
    · rw [List.flatMap_append, hnone, List.append_nil]
    · rfl
  preds b q := by rw [predsAt_append, succsAt_append, h.preds]

theorem linked_finish (h : s.program.Linked) (hs : s.here < s.size) {i : Instruction}
    (hi : ∀ k : Nat, k ∈ i.targets → k < s.size) : (s.finish i).program.Linked where
  succs b := by
    have hsize : s.here < (s.append ⟨[i], []⟩).program.blocks.size :=
      Nat.lt_of_lt_of_eq hs (s.size_append _).symm
    have hcode : (s.finish i).program.codeAt b = _ := codeAt_finish hs i b
    rw [hcode]
    refine (Program.succsAt_linkAll hsize ..).trans ?_
    rw [succsAt_append, h.succs]
    split <;> simp
  preds b q := by
    have hsize : s.here < (s.append ⟨[i], []⟩).program.blocks.size :=
      Nat.lt_of_lt_of_eq hs (s.size_append _).symm
    have htargets : ∀ k : Nat, k ∈ i.targets → k < (s.append ⟨[i], []⟩).program.blocks.size :=
      fun k hk => Nat.lt_of_lt_of_eq (hi k hk) (s.size_append _).symm
    refine (Program.count_predsAt_linkAll htargets b q).trans ?_
    have hsuccs : (s.finish i).program.succsAt q = _ := Program.succsAt_linkAll hsize i.targets q
    rw [hsuccs, predsAt_append, succsAt_append, h.preds]
    split <;> simp

end Builder

theorem targets_of_straight {i : Instruction} (h : i.isFinal = false) : i.targets = [] := by
  cases i <;> first | rfl | cases h

namespace Program

/-- Some instruction of the first block may go to the second. -/
def Goes (p : Program) (b k : Nat) : Prop := ∃ i ∈ p.codeAt b, k ∈ i.targets

theorem Extends.goes {p q : Program} (h : p.Extends q) {b k : Nat} (hg : q.Goes b k) :
    p.Goes b k := by
  obtain ⟨i, hi, hk⟩ := hg
  exact ⟨i, (h b).subset hi, hk⟩

theorem Extends.path {p q : Program} (h : p.Extends q) {b k : Nat}
    (hg : Relation.ReflTransGen q.Goes b k) : Relation.ReflTransGen p.Goes b k :=
  Relation.ReflTransGen.mono (fun _ _ => h.goes) _ _ hg

theorem goes_of_last {p : Program} {b : Nat} {c : List Instruction} {i : Instruction}
    (hcode : p.codeAt b = c ++ [i]) (hc : ∀ j ∈ c, j.isFinal = false) {k : Nat} :
    p.Goes b k ↔ k ∈ i.targets := by
  rw [Goes, hcode]
  constructor
  · rintro ⟨j, hj, hk⟩
    rcases List.mem_append.1 hj with hj | hj
    · rw [targets_of_straight (hc j hj)] at hk
      cases hk
    · rwa [← List.mem_singleton.1 hj]
  · exact fun hk => ⟨i, by simp, hk⟩

theorem Linked.mem_succsAt {p : Program} (h : p.Linked) {b k : Nat} :
    k ∈ p.succsAt b ↔ p.Goes b k := by
  rw [h.succs]
  exact List.mem_flatMap

end Program

namespace Branching

variable {cond : Temp} {s s₃ s₅ : Builder}

theorem bounds (h : Branching cond s s₃ s₅) :
    s.size + 3 ≤ s₃.size ∧ s₃.size ≤ s₅.size ∧ (s₃.here = s.size ∨ s.size + 3 ≤ s₃.here) ∧
      (s₅.here = s.size + 1 ∨ s₃.size ≤ s₅.here) := by
  have hfork := Builder.fork_leaves h.start.current cond
  have hturn := Builder.leave_leaves h.turn.current (s.size + 2) (s.size + 1)
  have hyes := h.yes.opened _ rfl
  have hno := h.no.opened _ rfl
  rw [hfork.size, hfork.current] at hyes
  rw [hturn.size, hturn.current] at hno
  exact ⟨(here_of_yes hfork h.yes).1, (here_of_no hfork h.yes hturn h.no).1, hyes, hno⟩

theorem codeAt_no (h : Branching cond s s₃ s₅) (b : Nat) :
    (s₅.leave (s.size + 2) (s.size + 2)).program.codeAt b =
      if b = s₅.here then s₅.codeAt b ++ [.jump (s.size + 2)] else s₅.codeAt b :=
  (Builder.leave_leaves h.stop.current ..).code b

theorem codeAt_yes (h : Branching cond s s₃ s₅) {b : Nat} (hb : b < s₃.size)
    (hne : b ≠ s.size + 1) :
    (s₅.leave (s.size + 2) (s.size + 2)).program.codeAt b =
      if b = s₃.here then s₃.codeAt b ++ [.jump (s.size + 2)] else s₃.codeAt b := by
  have hturn := Builder.leave_leaves h.turn.current (s.size + 2) (s.size + 1)
  obtain ⟨-, -, -, hhere⟩ := h.bounds
  rw [h.codeAt_no, if_neg (by omega), h.no.others b (by rw [hturn.size]; exact hb) hne]
  exact hturn.code b

theorem codeAt_start (h : Branching cond s s₃ s₅) :
    (s₅.leave (s.size + 2) (s.size + 2)).program.codeAt s.here =
      s.codeAt s.here ++ [.branch cond s.size (s.size + 1)] := by
  have hfork := Builder.fork_leaves h.start.current cond
  have hcur := h.start.current
  obtain ⟨hsize, -, hhere, -⟩ := h.bounds
  rw [h.codeAt_yes (by omega) (by omega), if_neg (by omega),
    h.yes.others _ (by rw [hfork.size]; omega) (by rw [hfork.current]; omega), hfork.code,
    if_pos rfl]

theorem goes_start (h : Branching cond s s₃ s₅) {k : Nat} :
    (s₅.leave (s.size + 2) (s.size + 2)).program.Goes s.here k ↔
      k = s.size ∨ k = s.size + 1 := by
  rw [Program.goes_of_last h.codeAt_start h.start.straight]
  simp [targets]

theorem goes_turn (h : Branching cond s s₃ s₅) {k : Nat} :
    (s₅.leave (s.size + 2) (s.size + 2)).program.Goes s₃.here k ↔ k = s.size + 2 := by
  obtain ⟨-, -, hhere, -⟩ := h.bounds
  have hcode := h.codeAt_yes h.turn.current (by omega)
  rw [if_pos rfl] at hcode
  rw [Program.goes_of_last hcode h.turn.straight]
  simp [targets]

theorem goes_stop (h : Branching cond s s₃ s₅) {k : Nat} :
    (s₅.leave (s.size + 2) (s.size + 2)).program.Goes s₅.here k ↔ k = s.size + 2 := by
  have hcode := h.codeAt_no s₅.here
  rw [if_pos rfl] at hcode
  rw [Program.goes_of_last hcode h.stop.straight]
  simp [targets]

end Branching

namespace Shaped

variable {v : Spread} {s s' : Builder}

theorem linked (h : Shaped v s s') (hs : s.Open) (hlinked : s.program.Linked) :
    s'.program.Linked := by
  refine h.induct (motive := fun _ s s' => s.program.Linked → s'.program.Linked) hs ?_ ?_ ?_ hlinked
  · exact fun s c fs hs hc h => Builder.linked_append h hs.current hc
  · exact fun _ _ _ _ _ _ _ _ _ ih ih' h => ih' (ih h)
  · intro v v' cond s s₃ s₅ hb ihyes ihno h
    obtain ⟨hthree, hsize, -, -⟩ := hb.bounds
    have hfork : (s.fork cond).program.Linked := by
      refine Builder.linked_finish (Builder.linked_addBlock (Builder.linked_addBlock
        (Builder.linked_addBlock h))) ?_ ?_
      · rw [Builder.size_addBlock, Builder.size_addBlock, Builder.size_addBlock]
        exact Nat.lt_add_right 3 hb.start.current
      · rw [Builder.size_addBlock, Builder.size_addBlock, Builder.size_addBlock]
        rintro k (_ | ⟨_, _ | ⟨_, ⟨⟩⟩⟩) <;> omega
    have hturn : (s₃.leave (s.size + 2) (s.size + 1)).program.Linked := by
      refine Builder.linked_finish (ihyes hfork) hb.turn.current ?_
      rintro k (_ | ⟨_, ⟨⟩⟩)
      omega
    refine Builder.linked_finish (ihno hturn) hb.stop.current ?_
    rintro k (_ | ⟨_, ⟨⟩⟩)
    omega

theorem reaches (h : Shaped v s s') (hs : s.Open) :
    ∀ b, b = s'.here ∨ s.size ≤ b ∧ b < s'.size →
      Relation.ReflTransGen s'.program.Goes s.here b := by
  refine h.induct (motive := fun _ s s' => ∀ b, b = s'.here ∨ s.size ≤ b ∧ b < s'.size →
    Relation.ReflTransGen s'.program.Goes s.here b) hs ?_ ?_ ?_
  · rintro s c fs hs - b (rfl | ⟨hle, hlt⟩)
    · exact .refl
    · exact absurd (Nat.lt_of_lt_of_eq hlt (s.size_append c)) (Nat.not_lt_of_le hle)
  · intro v v' s s' s'' hs hs' hadv hadv' ih ih' b hb
    have hfirst : ∀ b, _ → Relation.ReflTransGen s''.program.Goes s.here b :=
      fun b hb => hadv'.extend.path (ih b hb)
    by_cases hnew : b = s''.here ∨ s'.size ≤ b ∧ b < s''.size
    · exact (hfirst _ (.inl rfl)).trans (ih' b hnew)
    · have hsize := hadv.size
      exact hfirst b (.inr (by omega))
  · intro v v' cond s s₃ s₅ hb ihyes ihno b hb'
    have hfork := Builder.fork_leaves hb.start.current cond
    have hturn := Builder.leave_leaves hb.turn.current (s.size + 2) (s.size + 1)
    have hmeet := Builder.leave_leaves hb.stop.current (s.size + 2) (s.size + 2)
    obtain ⟨hthree, hsize, -, -⟩ := hb.bounds
    rw [hmeet.current, hmeet.size] at hb'
    rw [hfork.current, hfork.size] at ihyes
    rw [hturn.current, hturn.size] at ihno
    have hext₃ := hmeet.extend.trans (hb.no.extend.trans hturn.extend)
    have hyes : Relation.ReflTransGen (s₅.leave (s.size + 2) (s.size + 2)).program.Goes s.here
        s.size := .single (hb.goes_start.2 (.inl rfl))
    have hno : Relation.ReflTransGen (s₅.leave (s.size + 2) (s.size + 2)).program.Goes s.here
        (s.size + 1) := .single (hb.goes_start.2 (.inr rfl))
    have hstop := hno.trans (hmeet.extend.path (ihno _ (.inl rfl)))
    have hmerge := hstop.tail (hb.goes_stop.2 rfl)
    by_cases h0 : b = s.size
    · subst h0
      exact hyes
    by_cases h1 : b = s.size + 1
    · subst h1
      exact hno
    by_cases h2 : b = s.size + 2
    · subst h2
      exact hmerge
    by_cases h3 : b < s₃.size
    · exact hyes.trans (hext₃.path (ihyes b (.inr (by omega))))
    · exact hno.trans (hmeet.extend.path (ihno b (.inr (by omega))))

end Shaped

/-- From each block of a list, edges only lead to later blocks of it or to some others. -/
def Forward (e : Nat → Nat → Prop) : List Nat → List Nat → Prop
  | [], _ => True
  | b :: bs, others => (∀ k, e b k → k ∈ bs ++ others) ∧ Forward e bs others

namespace Forward

variable {e e' : Nat → Nat → Prop} {bs cs others : List Nat}

theorem append (h : Forward e bs (cs ++ others)) (h' : Forward e cs others) :
    Forward e (bs ++ cs) others := by
  induction bs with
  | nil => exact h'
  | cons b bs ih =>
    refine ⟨fun k hk => ?_, ih h.2⟩
    have hmem := h.1 k hk
    rwa [← List.append_assoc] at hmem

theorem mono {others' : List Nat} (h : Forward e bs others)
    (he : ∀ b ∈ bs, ∀ k, e' b k → e b k) (hsub : others ⊆ others') : Forward e' bs others' := by
  induction bs with
  | nil => trivial
  | cons b bs ih =>
    refine ⟨fun k hk => ?_, ih h.2 fun c hc => he c (List.mem_cons_of_mem _ hc)⟩
    have hmem := h.1 k (he b List.mem_cons_self k hk)
    exact (List.mem_append.1 hmem).elim (List.mem_append_left _) fun hk =>
      List.mem_append_right _ (hsub hk)

theorem mem (h : Forward e bs others) {b k : Nat} (hb : b ∈ bs) (hk : e b k) :
    k ∈ bs ++ others := by
  induction bs with
  | nil => cases hb
  | cons c bs ih =>
    rw [List.cons_append]
    rcases List.mem_cons.1 hb with rfl | hb
    · exact List.mem_cons_of_mem _ (h.1 k hk)
    · exact List.mem_cons_of_mem _ (ih h.2 hb)

theorem acc (h : Forward e bs []) : ∀ b ∈ bs, Acc (fun x y => e y x) b := by
  induction bs with
  | nil => exact nofun
  | cons b bs ih =>
    intro c hc
    rcases List.mem_cons.1 hc with rfl | hc
    · refine .intro c fun k hk => ih h.2 k ?_
      have hmem := h.1 k hk
      rwa [List.append_nil] at hmem
    · exact ih h.2 c hc

end Forward

/-- The blocks that are built between two builders, except for the last one, in an order in which
all edges lead forward. -/
structure Ranked (s s' : Builder) (bs : List Nat) : Prop where
  mem : ∀ b, b ∈ bs ∨ b = s'.here ↔ b = s.here ∨ s.size ≤ b ∧ b < s'.size
  last : s'.here ∉ bs
  forward : Forward s'.program.Goes bs [s'.here]

namespace Ranked

variable {s s' s'' : Builder} {bs cs : List Nat}

theorem straight (s : Builder) (c : Chunk) (fs : Array EventFormat) :
    Ranked s ((s.append c).announce fs) [] where
  mem b := by
    have hsize : ((s.append c).announce fs).size = s.size := s.size_append c
    have hhere : ((s.append c).announce fs).here = s.here := rfl
    rw [hsize, hhere]
    grind
  last := nofun
  forward := trivial

theorem seq (h : Ranked s s' bs) (h' : Ranked s' s'' cs) (hs : s.Open) (hadv : s.Advances s')
    (hadv' : s'.Advances s'') : Ranked s s'' (bs ++ cs) := by
  have hsize := hadv.size
  have hsize' := hadv'.size
  have hcur := hs.current
  have hold : ∀ b ∈ bs, b < s'.size := fun b hb => by
    have := (h.mem b).1 (.inl hb)
    omega
  have hhere : ∀ b ∈ bs, b ≠ s'.here := fun b hb heq => h.last (heq ▸ hb)
  constructor
  case mem =>
    intro b
    have hb := h.mem b
    have hb' := h'.mem b
    grind
  case last =>
    intro hmem
    rcases List.mem_append.1 hmem with hmem | hmem
    · have hnew := (h'.mem s''.here).1 (.inr rfl)
      have := hold _ hmem
      have := hhere _ hmem
      omega
    · exact h'.last hmem
  case forward =>
    refine .append (h.forward.mono (fun b hb k hk => ?_) ?_) h'.forward
    · rw [Program.Goes] at hk ⊢
      have hcode : s''.program.codeAt b = s'.program.codeAt b :=
        hadv'.others b (hold b hb) (hhere b hb)
      rwa [hcode] at hk
    · intro b hb
      obtain rfl := List.mem_singleton.1 hb
      rw [List.mem_append, List.mem_singleton]
      exact (h'.mem _).2 (.inl rfl)

theorem branch {cond : Temp} {s₃ s₅ : Builder} (hb : Branching cond s s₃ s₅)
    (h : Ranked (s.fork cond) s₃ bs) (h' : Ranked (s₃.leave (s.size + 2) (s.size + 1)) s₅ cs) :
    Ranked s (s₅.leave (s.size + 2) (s.size + 2))
      (s.here :: ((bs ++ [s₃.here]) ++ (cs ++ [s₅.here]))) := by
  have hfork := Builder.fork_leaves hb.start.current cond
  have hturn := Builder.leave_leaves hb.turn.current (s.size + 2) (s.size + 1)
  have hmeet := Builder.leave_leaves hb.stop.current (s.size + 2) (s.size + 2)
  obtain ⟨hthree, hsize, hhere₃, hhere₅⟩ := hb.bounds
  have hcur := hb.start.current
  have hcur₃ := hb.turn.current
  have hcur₅ := hb.stop.current
  have hyes := h.mem
  have hno := h'.mem
  rw [hfork.current, hfork.size] at hyes
  rw [hturn.current, hturn.size] at hno
  constructor
  case mem =>
    intro b
    have hb₁ := hyes b
    have hb₂ := hno b
    rw [hmeet.current, hmeet.size]
    grind
  case last =>
    have hb₁ := hyes (s.size + 2)
    have hb₂ := hno (s.size + 2)
    rw [hmeet.current]
    grind
  case forward =>
    rw [hmeet.current]
    refine ⟨fun k hk => ?_, .append (.append (h.forward.mono (fun b hb' k hk => ?_) ?_) ?_)
      (.append (h'.forward.mono (fun b hb' k hk => ?_) ?_) ?_)⟩
    · have hb₁ := hyes k
      have hb₂ := hno k
      have := hb.goes_start.1 hk
      grind
    · have hmem := (hyes b).1 (.inl hb')
      have hne : b ≠ s₃.here := fun heq => h.last (heq ▸ hb')
      have hcode := hb.codeAt_yes (b := b) (by omega) (by omega)
      rw [if_neg hne] at hcode
      rwa [Program.Goes, hcode] at hk
    · simp
    · refine ⟨fun k hk => ?_, trivial⟩
      rw [hb.goes_turn.1 hk]
      simp
    · have hne : b ≠ s₅.here := fun heq => h'.last (heq ▸ hb')
      have hcode := hb.codeAt_no b
      rw [if_neg hne] at hcode
      rwa [Program.Goes, hcode] at hk
    · simp
    · refine ⟨fun k hk => ?_, trivial⟩
      rw [hb.goes_stop.1 hk]
      simp

end Ranked

theorem Shaped.ranked {v : Spread} {s s' : Builder} (h : Shaped v s s') (hs : s.Open) :
    ∃ bs, Ranked s s' bs := by
  refine h.induct (motive := fun _ s s' => ∃ bs, Ranked s s' bs) hs ?_ ?_ ?_
  · exact fun s c fs _ _ => ⟨[], .straight s c fs⟩
  · rintro _ _ s s' s'' hs _ hadv hadv' ⟨bs, hbs⟩ ⟨cs, hcs⟩
    exact ⟨bs ++ cs, hbs.seq hcs hs hadv hadv'⟩
  · rintro _ _ cond s s₃ s₅ hb ⟨bs, hbs⟩ ⟨cs, hcs⟩
    exact ⟨_, .branch hb hbs hcs⟩

/-- The statements of a probe are built from one empty block, and a return is added at the end. -/
theorem ofProbe_statements {t : Table} {p : Probe} {built : Built} (h : ofProbe t p = .ok built) :
    ∃ s, statements t p.body (Builder.start p.name.value) = .ok ((), s) ∧
      built.program = (s.finish .ret).program := by
  obtain ⟨⟨⟨⟩, s'⟩, hrun, hbuilt⟩ := Run.except_bind_ok.1 h
  obtain rfl := Except.ok.inj hbuilt
  have hprobe : (do statements t p.body; Build.push .ret) (Builder.start p.name.value) =
      .ok ((), s') := probe_eq t p p.name.value ▸ hrun
  obtain ⟨⟨⟩, s, hs, hpush⟩ := Build.ok_of_bind hprobe
  have hret : Build.push .ret s = .ok ((), s.finish .ret) := Emits.push .ret
  obtain ⟨-, rfl⟩ := Prod.mk.inj (Except.ok.inj (hret.symm.trans hpush))
  exact ⟨s, hs, rfl⟩

theorem ofProbe_shaped {t : Table} {p : Probe} {built : Built} (h : ofProbe t p = .ok built) :
    ∃ s, Shaped (Node.spreadAll p.body) (Builder.start p.name.value) s ∧
      built.program = (s.finish .ret).program := by
  obtain ⟨s, hs, hbuilt⟩ := ofProbe_statements h
  exact ⟨s, shaped_statements t p.body _ s hs, hbuilt⟩

theorem Builder.linked_start (name : String) : (start name).program.Linked := by
  have hnone : ∀ b, (start name).program.succsAt b = [] ∧ (start name).program.predsAt b = [] := by
    rintro (_ | b) <;> exact ⟨rfl, rfl⟩
  constructor
  · intro b
    rw [(hnone b).1, codeAt_start]
    rfl
  · intro b q
    rw [(hnone b).2, (hnone q).1, List.count_nil, List.count_nil]

namespace Program

/-- A graph of blocks. Each block has its only jump or return at the end, one block returns, the
edges are recorded at both of their blocks, and every path from the first block ends. -/
structure WellFormed (p : Program) : Prop where
  ends : ∀ b < p.blocks.size, ∃ c i, p.codeAt b = c ++ [i] ∧ (∀ j ∈ c, j.isFinal = false) ∧
    i.isFinal = true ∧ p.succsAt b = i.targets
  returns : ∃! b, ret ∈ p.codeAt b
  bounded : ∀ b, ∀ k ∈ p.succsAt b, k < p.blocks.size
  preds : ∀ b q, (p.predsAt b).count q = (p.succsAt q).count b
  reachable : ∀ b < p.blocks.size, Relation.ReflTransGen (fun x y => y ∈ p.succsAt x) 0 b
  acyclic : ∀ b, ¬Relation.TransGen (fun x y => y ∈ p.succsAt x) b b

end Program

theorem isFinal_of_targets {i : Instruction} (h : i.targets ≠ []) : i.isFinal = true := by
  cases hi : i.isFinal with
  | true => rfl
  | false => exact (h (targets_of_straight hi)).elim

namespace Shaped

variable {v : Spread} {name : String} {s : Builder}

theorem ended (h : Shaped v (Builder.start name) s) {b : Nat} (hb : b < s.size)
    (hne : b ≠ s.here) : Ended (s.codeAt b) := by
  refine (h.advances (Builder.open_start name)).ended b hb ?_ hne
  exact (Nat.eq_zero_or_pos b).imp id fun hpos => hpos

theorem goes_finish (h : Shaped v (Builder.start name) s) {b k : Nat} :
    (s.finish .ret).program.Goes b k ↔ s.program.Goes b k := by
  have hcur := (h.opens (Builder.open_start name)).1.current
  have hcode : (s.finish .ret).program.codeAt b = _ := Builder.codeAt_finish hcur .ret b
  rw [Program.Goes, Program.Goes, hcode]
  split
  · constructor
    · rintro ⟨i, hi, hk⟩
      rcases List.mem_append.1 hi with hi | hi
      · exact ⟨i, hi, hk⟩
      · obtain rfl := List.mem_singleton.1 hi
        cases hk
    · rintro ⟨i, hi, hk⟩
      exact ⟨i, List.mem_append_left _ hi, hk⟩
  · rfl

theorem reachable (h : Shaped v (Builder.start name) s) {b : Nat} (hb : b < s.size) :
    Relation.ReflTransGen s.program.Goes 0 b := by
  by_cases hzero : b = 0
  · subst hzero
    exact .refl
  · exact h.reaches (Builder.open_start name) b (.inr ⟨Nat.pos_of_ne_zero hzero, hb⟩)

theorem forward (h : Shaped v (Builder.start name) s) :
    ∃ bs, (∀ b, b ∈ bs ↔ b < s.size) ∧ Forward s.program.Goes bs [] := by
  obtain ⟨bs, hbs⟩ := h.ranked (Builder.open_start name)
  have hopen := (h.opens (Builder.open_start name)).1
  refine ⟨bs ++ [s.here], fun b => ?_, .append hbs.forward ⟨?_, trivial⟩⟩
  · have hhere : (Builder.start name).here = 0 := rfl
    have hsize : (Builder.start name).size = 1 := rfl
    have hcur := hopen.current
    rw [List.mem_append, List.mem_singleton, hbs.mem, hhere, hsize]
    omega
  · rintro k ⟨i, hi, hk⟩
    rw [targets_of_straight (hopen.straight i hi)] at hk
    cases hk

theorem goes_lt (h : Shaped v (Builder.start name) s) {b k : Nat} (hg : s.program.Goes b k) :
    b < s.size ∧ k < s.size := by
  obtain ⟨bs, hmem, hforward⟩ := h.forward
  have hb : b < s.size := by
    by_contra hle
    obtain ⟨i, hi, -⟩ := hg
    have hnone : s.program.codeAt b = [] := Builder.codeAt_of_size_le (Nat.le_of_not_lt hle)
    rw [hnone] at hi
    cases hi
  have hk := hforward.mem ((hmem b).2 hb) hg
  rw [List.append_nil] at hk
  exact ⟨hb, (hmem k).1 hk⟩

theorem acyclic (h : Shaped v (Builder.start name) s) (b : Nat) :
    ¬Relation.TransGen s.program.Goes b b := by
  obtain ⟨bs, hmem, hforward⟩ := h.forward
  have hwf : WellFounded fun x y => s.program.Goes y x :=
    ⟨fun b => .intro b fun k hk => hforward.acc k ((hmem k).2 (h.goes_lt hk).2)⟩
  intro hcycle
  exact hwf.transGen.irrefl.irrefl b (Relation.transGen_swap.2 hcycle)

/-- Between one empty block and a return, statements build a well-formed graph. -/
theorem wellFormed (h : Shaped v (Builder.start name) s) :
    (s.finish .ret).program.WellFormed := by
  have hstart := Builder.open_start name
  have hopen := (h.opens hstart).1
  have hlinked : (s.finish .ret).program.Linked :=
    Builder.linked_finish (h.linked hstart (Builder.linked_start name)) hopen.current nofun
  have hcode : ∀ b, (s.finish .ret).program.codeAt b = _ := Builder.codeAt_finish hopen.current .ret
  have hsize : (s.finish .ret).program.blocks.size = s.size := s.size_finish .ret
  have hsuccs : ∀ b k, k ∈ (s.finish .ret).program.succsAt b ↔ s.program.Goes b k := fun b k =>
    hlinked.mem_succsAt.trans h.goes_finish
  have hedges : (fun x y => y ∈ (s.finish .ret).program.succsAt x) = s.program.Goes :=
    funext fun x => funext fun y => propext (hsuccs x y)
  have hends : ∀ b < s.size, ∃ c i, (s.finish .ret).program.codeAt b = c ++ [i] ∧
      (∀ j ∈ c, j.isFinal = false) ∧ i.isFinal = true ∧ (i = .ret ↔ b = s.here) := by
    intro b hb
    rw [hcode]
    split
    · rename_i hhere
      subst hhere
      exact ⟨_, .ret, rfl, hopen.straight, rfl, by simp⟩
    · rename_i hne
      obtain ⟨c, i, hc, htargets, hstraight⟩ := h.ended hb hne
      refine ⟨c, i, hc, hstraight, isFinal_of_targets htargets, ?_, fun heq => (hne heq).elim⟩
      rintro rfl
      exact (htargets rfl).elim
  constructor
  case ends =>
    intro b hb
    obtain ⟨c, i, hc, hstraight, hfinal, -⟩ := hends b (hsize ▸ hb)
    refine ⟨c, i, hc, hstraight, hfinal, ?_⟩
    rw [hlinked.succs, hc, List.flatMap_append, List.flatMap_eq_nil_iff.2 fun j hj =>
      targets_of_straight (hstraight j hj)]
    simp
  case returns =>
    refine ⟨s.here, ?_, fun b hb => ?_⟩
    · dsimp only
      rw [hcode, if_pos rfl]
      simp
    · have hb' : Instruction.ret ∈ (s.finish .ret).codeAt b := hb
      have hlt : b < s.size := by
        by_contra hle
        rw [Builder.codeAt_of_size_le ((s.size_finish .ret).trans_le (Nat.le_of_not_lt hle))] at hb'
        cases hb'
      obtain ⟨c, i, hc, hstraight, -, hret⟩ := hends b hlt
      rw [Builder.codeAt, hc] at hb'
      rcases List.mem_append.1 hb' with hb' | hb'
      · cases hstraight _ hb'
      · exact hret.1 (List.mem_singleton.1 hb').symm
  case bounded =>
    intro b k hk
    rw [hsize]
    exact (h.goes_lt ((hsuccs b k).1 hk)).2
  case preds => exact hlinked.preds
  case reachable =>
    intro b hb
    rw [hedges]
    exact h.reachable (hsize ▸ hb)
  case acyclic =>
    intro b
    rw [hedges]
    exact h.acyclic b

end Shaped

/-- Every program that is built is a well-formed graph, with three blocks for each branch. -/
theorem ofProbe_wellFormed {t : Table} {p : Probe} {built : Built} (h : ofProbe t p = .ok built) :
    built.program.WellFormed ∧
      built.program.blocks.size = 1 + 3 * Node.branchesAll p.body := by
  obtain ⟨s, hshape, hprogram⟩ := ofProbe_shaped h
  rw [hprogram]
  refine ⟨hshape.wellFormed, ?_⟩
  have hmeasures := (hshape.measures (Builder.open_start _)).size
  rw [Node.spreadAll_branches] at hmeasures
  exact (s.size_finish .ret).trans hmeasures

/-- Four conditions, one of which is unrolled twice. -/
def nestedBranches : Source where
  name := "branches"
  lines :=
    ["probe p \x7b if (pid() > 1) \x7b unroll(2) \x7b if (cpu()) \x7b x = 1; \x7d \x7d \x7d " ++
      "else if (tid()) \x7b if (ns()) \x7b out(\"%d\", cpu()); \x7d \x7d \x7d"]

theorem nestedBranches_wellFormed :
    ∃ typed bound placed table built,
      Compile.Prepares DryRun.kernel {} nestedBranches typed bound placed table ∧
      ofProbe table placed = .ok built ∧ built.program.WellFormed ∧
      built.program.blocks.size = 16 := by
  have hprepares : ∃ typed bound placed table,
      Compile.Prepares DryRun.kernel {} nestedBranches typed bound placed table ∧
      Node.branchesAll placed.body = 5 := by
    apply Compile.exists_prepares (s := { kernel := {} })
    · conv => lhs; cbv
    · conv => lhs; cbv
    · exact rfl
    · decide +kernel
  obtain ⟨typed, bound, placed, table, hp, hcount⟩ := hprepares
  obtain ⟨ks, hprep⟩ := hp.prepared
  obtain ⟨built, hbuilt, -⟩ :=
    ofProbe_whole (w := default) hprep.ready_table hprep.placed hprep.statements
  obtain ⟨hwell, hsize⟩ := ofProbe_wellFormed hbuilt
  exact ⟨typed, bound, placed, table, built, hp, hbuilt, hwell, by rw [hsize, hcount]⟩

end Flow

end TraceScript
