import TraceScript.Proofs.Balanced
import TraceScript.Proofs.Performed

namespace TraceScript.Flow

open Instruction

theorem Build.bind_of_ok {α β : Type} {m : Build α} {f : α → Build β} {s s' : Builder} {a : α}
    (h : m s = .ok (a, s')) : (m >>= f) s = f a s' := by
  change (m s >>= fun r => f r.1 r.2) = _
  rw [h]
  rfl

namespace Program

/-- The code of a block; there is none outside the program. -/
def codeAt (p : Program) (b : Nat) : List Instruction :=
  ((p.blocks[b]?).map (·.code.toList)).getD []

theorem fetch_eq (p : Program) (b : Nat) (k : Nat) : p.fetch b k = (p.codeAt b)[k]? := by
  unfold fetch codeAt
  cases p.blocks[b]? with
  | none => rfl
  | some block => simp

/-- A program that agrees with another one as far as that one goes. -/
def Extends (p q : Program) : Prop := ∀ b, q.codeAt b <+: p.codeAt b

theorem Extends.trans {p q r : Program} (h : p.Extends q) (h' : q.Extends r) : p.Extends r :=
  fun b => (h' b).trans (h b)

theorem Extends.fetch {p q : Program} (h : p.Extends q) {b : Nat} {c : List Instruction}
    {i : Instruction} {d : List Instruction} (hq : q.codeAt b = c ++ i :: d) :
    p.fetch b c.length = some i := by
  obtain ⟨rest, hrest⟩ := h b
  rw [fetch_eq, ← hrest, hq, List.append_assoc, List.getElem?_append_right (Nat.le_refl _),
    Nat.sub_self]
  rfl

theorem Extends.reaches {w : World} {p q : Program} (h : p.Extends q) {b : Nat}
    {c d e : List Instruction} (hq : q.codeAt b = c ++ (d ++ e)) (hd : ∀ i ∈ d, i.isFinal = false)
    (σ : State) : p.Reaches w ⟨b, c.length, σ⟩ ⟨b, (c ++ d).length, runAll w d σ⟩ := by
  induction d generalizing c σ with
  | nil =>
    rw [List.append_nil]
    exact .refl
  | cons i d ih =>
    have hfetch := h.fetch hq
    have hstep := step_straight (w := w) (s := σ) hfetch (hd i List.mem_cons_self)
    refine .head hstep ?_
    have hrest := ih (c := c ++ [i]) (by rw [hq]; simp)
      (fun j hj => hd j (List.mem_cons_of_mem _ hj)) (i.run w σ)
    rw [List.length_append, List.length_singleton, List.append_assoc] at hrest
    exact hrest

end Program

theorem Program.codeAt_link (p : Program) (source target b : Nat) :
    (p.link source target).codeAt b = p.codeAt b := by
  simp only [codeAt, link, Array.getElem?_modify]
  cases p.blocks[b]? with
  | none => simp
  | some block => split <;> split <;> rfl

theorem Program.size_link (p : Program) (source target : Nat) :
    (p.link source target).blocks.size = p.blocks.size := by
  simp [link]

namespace Builder

/-- The code of a block so far. -/
abbrev codeAt (s : Builder) (b : Nat) : List Instruction := s.program.codeAt b

def size (s : Builder) : Nat := s.program.blocks.size

/-- The number of the current block. -/
def here (s : Builder) : Nat := s.current

@[simp] theorem here_append (s : Builder) (c : Chunk) : (s.append c).here = s.here := rfl

theorem codeAt_of_size_le {s : Builder} {b : Nat} (h : s.size ≤ b) : s.codeAt b = [] := by
  have hnone : s.program.blocks[b]? = none := Array.getElem?_eq_none h
  rw [codeAt, Program.codeAt, hnone]
  rfl

theorem codeAt_append {s : Builder} (h : s.here < s.size) (c : Chunk) (b : Nat) :
    (s.append c).codeAt b = if b = s.here then s.codeAt b ++ c.code else s.codeAt b := by
  simp only [codeAt, Program.codeAt, append, Array.getElem?_modify]
  have hhere : s.here = s.current := rfl
  by_cases hb : b = s.here
  · have hlt : b < s.program.blocks.size := hb ▸ h
    have hsome : s.program.blocks[b]? = some s.program.blocks[b] := Array.getElem?_eq_getElem hlt
    rw [if_pos (hhere.symm.trans hb.symm), if_pos hb, hsome]
    simp
  · rw [if_neg fun heq => hb (heq.symm.trans hhere.symm), if_neg hb]

/-- Adds an empty block. -/
def addBlock (s : Builder) : Builder :=
  { s with program := { s.program with blocks := s.program.blocks.push {} } }

@[simp] theorem codeAt_addBlock (s : Builder) (b : Nat) : s.addBlock.codeAt b = s.codeAt b := by
  simp only [codeAt, Program.codeAt, addBlock, Array.getElem?_push]
  split
  · rename_i hb
    subst hb
    simp
  · rfl

@[simp] theorem size_addBlock (s : Builder) : s.addBlock.size = s.size + 1 := by
  simp [size, addBlock]

theorem newBlock_eq (s : Builder) : Build.newBlock s = .ok (s.size, s.addBlock) := rfl

theorem linkTo_eq (s : Builder) (target : Nat) :
    Build.linkTo target s = .ok ((), { s with program := s.program.link s.here target }) := rfl

theorem enter_eq (s : Builder) (b : Nat) :
    Build.enter b s = .ok ((), { s with current := b }) := rfl

@[simp] theorem size_append (s : Builder) (c : Chunk) : (s.append c).size = s.size := by
  simp [size, append]

end Builder

/-- What holds of a program all along: every temporary is defined once and used in the same block,
and every jump leads to a block. -/
structure Program.Formed (p : Program) : Prop where
  isLocal : ∀ b, IsLocal (p.codeAt b)
  bounded : ∀ b, ∀ d ∈ defs (p.codeAt b), d < p.temps.size
  nodup : ∀ b, (defs (p.codeAt b)).Nodup
  apart : ∀ b b' d, d ∈ defs (p.codeAt b) → d ∈ defs (p.codeAt b') → b = b'
  targets : ∀ b, ∀ i ∈ p.codeAt b, ∀ k : Nat, k ∈ i.targets → k < p.blocks.size

/-- The current block has not ended. -/
structure Builder.Open (s : Builder) : Prop where
  current : s.here < s.size
  straight : ∀ i ∈ s.codeAt s.here, i.isFinal = false

/-- Straight code that ends in a jump. -/
def Ended (code : List Instruction) : Prop :=
  ∃ c i, code = c ++ [i] ∧ i.targets ≠ [] ∧ ∀ j ∈ c, j.isFinal = false

/-- How a program grows while some blocks are open, and others are at the end. Only blocks that were
open or are new are written, and those that are left end in a jump. -/
structure Grown (P Q : Nat → Prop) (s s' : Builder) : Prop where
  size : s.size ≤ s'.size
  extend : s'.program.Extends s.program
  others : ∀ b < s.size, ¬P b → s'.codeAt b = s.codeAt b
  opened : ∀ b, Q b → P b ∨ s.size ≤ b
  ended : ∀ b < s'.size, P b ∨ s.size ≤ b → ¬Q b → Ended (s'.codeAt b)

namespace Grown

variable {P Q R F : Nat → Prop} {s s' s'' : Builder}

theorem trans (h : Grown P Q s s') (h' : Grown Q R s' s'') : Grown P R s s'' where
  size := Nat.le_trans h.size h'.size
  extend := h'.extend.trans h.extend
  others b hb hP := by
    have hQ : ¬Q b := fun hQ => (h.opened b hQ).elim hP (Nat.not_le_of_lt hb)
    rw [h'.others b (Nat.lt_of_lt_of_le hb h.size) hQ, h.others b hb hP]
  opened b hR := by
    rcases h'.opened b hR with hQ | hb
    · exact h.opened b hQ
    · exact .inr (Nat.le_trans h.size hb)
  ended b hb hP hR := by
    by_cases hQ : Q b ∨ s'.size ≤ b
    · exact h'.ended b hb hQ hR
    · obtain ⟨hQ, hlt⟩ := not_or.1 hQ
      rw [h'.others b (Nat.lt_of_not_le hlt) hQ]
      exact h.ended b (Nat.lt_of_not_le hlt) hP hQ

theorem frame (h : Grown P Q s s') (F : Nat → Prop) :
    Grown (fun b => P b ∨ F b) (fun b => Q b ∨ F b) s s' where
  size := h.size
  extend := h.extend
  others b hb hPF := h.others b hb fun hP => hPF (.inl hP)
  opened b hQF := hQF.elim (fun hQ => (h.opened b hQ).imp_left .inl) fun hF => .inl (.inr hF)
  ended b hb hPF hQF := by
    obtain ⟨hQ, hF⟩ := not_or.1 hQF
    exact h.ended b hb (hPF.imp_left fun hP => hP.resolve_right hF) hQ

theorem congr {P' Q' : Nat → Prop} (h : Grown P Q s s') (hP : ∀ b, P b ↔ P' b)
    (hQ : ∀ b, Q b ↔ Q' b) : Grown P' Q' s s' := by
  obtain rfl : P = P' := funext fun b => propext (hP b)
  obtain rfl : Q = Q' := funext fun b => propext (hQ b)
  exact h

end Grown

/-- A statement is built from the current block on, and ends in the current block. -/
abbrev Builder.Advances (s s' : Builder) : Prop :=
  Grown (· = s.here) (· = s'.here) s s'

/-- An instruction ends the current block, new blocks may appear, and another block becomes the
current one. -/
structure Builder.Leaves (s s' : Builder) (i : Instruction) (size next : Nat) : Prop where
  code : ∀ b, s'.codeAt b = if b = s.here then s.codeAt b ++ [i] else s.codeAt b
  size : s'.size = size
  current : s'.here = next
  count : s'.count = s.count

namespace Builder.Leaves

variable {s s' : Builder} {i : Instruction} {size next : Nat}

theorem opens (h : s.Leaves s' i size next) (hnext : next < size) (hnil : s.codeAt next = [])
    (hne : next ≠ s.here) : s'.Open where
  current := by
    rw [h.current, h.size]
    exact hnext
  straight := by
    rw [h.current, h.code, if_neg hne, hnil]
    exact nofun

theorem extend (h : s.Leaves s' i size next) : s'.program.Extends s.program := by
  intro b
  have hcode : s'.program.codeAt b = _ := h.code b
  rw [hcode]
  split
  · exact List.prefix_append ..
  · exact List.prefix_rfl

/-- The blocks that are new and those that were open besides the current one are open afterwards. -/
theorem grown (h : s.Leaves s' i size next) (hs : s.Open) (hsize : s.size ≤ size)
    (htargets : i.targets ≠ []) (F : Nat → Prop) :
    Grown (fun b => b = s.here ∨ F b) (fun b => F b ∨ s.size ≤ b ∧ b < size) s s' where
  size := by
    rw [h.size]
    exact hsize
  extend := h.extend
  others b hb hP := by
    rw [h.code, if_neg fun hcur => hP (.inl hcur)]
  opened b hQ := hQ.imp .inr And.left
  ended b hb hP hQ := by
    rw [h.size] at hb
    obtain ⟨hnF, hlt⟩ := not_or.1 hQ
    obtain rfl : b = s.here := (hP.resolve_right fun hle => hlt ⟨hle, hb⟩).resolve_right hnF
    rw [h.code, if_pos rfl]
    exact ⟨_, i, rfl, htargets, hs.straight⟩

theorem fetch (h : s.Leaves s' i size next) {p : Program} (hp : p.Extends s'.program) :
    p.fetch s.here (s.codeAt s.here).length = some i := by
  have hcode : s'.program.codeAt s.here = s.codeAt s.here ++ i :: [] :=
    (h.code s.here).trans (if_pos rfl)
  exact hp.fetch hcode

theorem mem (h : s.Leaves s' i size next) {b : Nat} {j : Instruction}
    (hj : j ∈ s'.codeAt b) : j ∈ s.codeAt b ∨ j = i := by
  rw [h.code] at hj
  split at hj
  · exact (List.mem_append.1 hj).imp_right List.mem_singleton.1
  · exact .inl hj

end Builder.Leaves

/-- The head of a branch: new blocks for the two cases and for what follows. -/
def openBranch (cond : Temp) : Build (BlockId × BlockId × BlockId) := do
  let yesBlock ← Build.newBlock
  let noBlock ← Build.newBlock
  let merge ← Build.newBlock
  Build.push (.branch cond yesBlock noBlock)
  Build.linkTo yesBlock
  Build.linkTo noBlock
  Build.enter yesBlock
  return (yesBlock, noBlock, merge)

/-- The end of a case of a branch. -/
def closeCase (merge next : Nat) : Build Unit := do
  Build.jump merge
  Build.enter next

theorem branch_eq (t : Table) (condition : Node) (yes no : Build Unit) :
    branch t condition yes no = (do
      let cond ← (evaluation t condition).scalar
      let (_, noBlock, merge) ← openBranch cond
      yes
      closeCase merge noBlock
      no
      closeCase merge merge) := by
  simp only [branch, openBranch, closeCase, bind_assoc, pure_bind]

/-- Edges from one block to others. -/
def Program.linkAll (p : Program) (source : Nat) (targets : List Nat) : Program :=
  targets.foldl (fun p k => p.link source k) p

theorem Program.linkAll_unchanged {α : Type} {f : Program → α}
    (h : ∀ p source target, f (link p source target) = f p) (p : Program) (source : Nat)
    (targets : List Nat) : f (p.linkAll source targets) = f p := by
  induction targets generalizing p with
  | nil => rfl
  | cons k targets ih => exact (ih _).trans (h p source k)

namespace Builder

variable {s : Builder}

/-- Ends the current block with an instruction, and records its edges. -/
def finish (s : Builder) (i : Instruction) : Builder :=
  { s.append ⟨[i], []⟩ with program := (s.append ⟨[i], []⟩).program.linkAll s.here i.targets }

/-- Opens a branch: blocks for the two cases and for what follows. -/
def fork (s : Builder) (cond : Temp) : Builder :=
  { s.addBlock.addBlock.addBlock.finish (.branch cond s.size (s.size + 1)) with current := s.size }

/-- Goes from the end of a case to where the cases meet, and continues in another block. -/
def leave (s : Builder) (merge next : Nat) : Builder :=
  { s.finish (.jump merge) with current := next }

theorem openBranch_eq (s : Builder) (cond : Temp) :
    openBranch cond s = .ok ((s.size, s.size + 1, s.size + 2), s.fork cond) := by
  let i : Instruction := .branch cond s.size (s.size + 1)
  let s₄ := s.addBlock.addBlock.addBlock.append ⟨[i], []⟩
  have hpush : Build.push i s.addBlock.addBlock.addBlock = .ok ((), s₄) := Emits.push i
  rw [openBranch, Build.bind_of_ok s.newBlock_eq, Build.bind_of_ok s.addBlock.newBlock_eq,
    Build.bind_of_ok s.addBlock.addBlock.newBlock_eq, s.size_addBlock, Build.bind_of_ok hpush,
    Build.bind_of_ok (s₄.linkTo_eq _), Build.bind_of_ok (Builder.linkTo_eq _ _),
    Build.bind_of_ok (Builder.enter_eq _ _), Builder.size_addBlock, Builder.size_addBlock]
  rfl

theorem closeCase_eq (s : Builder) (merge next : Nat) :
    closeCase merge next s = .ok ((), s.leave merge next) := by
  have hpush : Build.push (.jump merge) s = .ok ((), s.append ⟨[.jump merge], []⟩) := Emits.push _
  have hjump : Build.jump merge s = _ := (Build.bind_of_ok hpush).trans (linkTo_eq _ merge)
  rw [closeCase, Build.bind_of_ok hjump]
  rfl

theorem codeAt_finish (h : s.here < s.size) (i : Instruction) (b : Nat) :
    (s.finish i).codeAt b = if b = s.here then s.codeAt b ++ [i] else s.codeAt b :=
  (Program.linkAll_unchanged (f := (·.codeAt b)) (fun p a k => p.codeAt_link a k b) ..).trans
    (codeAt_append h _ b)

theorem size_finish (s : Builder) (i : Instruction) : (s.finish i).size = s.size :=
  (Program.linkAll_unchanged (f := (·.blocks.size)) (fun p a k => p.size_link a k) ..).trans
    (s.size_append _)

theorem count_finish (s : Builder) (i : Instruction) : (s.finish i).count = s.count :=
  (Program.linkAll_unchanged (f := (·.temps.size)) (fun _ _ _ => rfl) ..).trans (s.count_append _)

theorem fork_leaves (h : s.here < s.size) (cond : Temp) :
    s.Leaves (s.fork cond) (.branch cond s.size (s.size + 1)) (s.size + 3) s.size where
  code b := by
    have hlt : s.addBlock.addBlock.addBlock.here < s.addBlock.addBlock.addBlock.size := by
      rw [size_addBlock, size_addBlock, size_addBlock]
      exact Nat.lt_add_right 3 h
    have hcode := codeAt_finish hlt (.branch cond s.size (s.size + 1)) b
    rw [codeAt_addBlock, codeAt_addBlock, codeAt_addBlock] at hcode
    exact hcode
  size := (size_finish ..).trans (by rw [size_addBlock, size_addBlock, size_addBlock])
  current := rfl
  count := count_finish ..

theorem leave_leaves (h : s.here < s.size) (merge next : Nat) :
    s.Leaves (s.leave merge next) (.jump merge) s.size next where
  code := codeAt_finish h _
  size := size_finish ..
  current := rfl
  count := count_finish ..

end Builder

/-- The code that was added between two builders takes situations to others, in every program that
goes on from there. -/
def Runs (w : World) (t : Table) (s s' : Builder) (f : Situation → Situation) : Prop :=
  ∀ p : Program, p.Extends s'.program → ∀ σ : State, ∃ σ' : State,
    p.Reaches w ⟨s.here, (s.codeAt s.here).length, σ⟩
      ⟨s'.here, (s'.codeAt s'.here).length, σ'⟩ ∧
    t.situation σ' = f (t.situation σ)

section

variable {cond : Temp} {s₁ s₂ s₃ s₄ s₅ s₆ : Builder} (hcur : s₁.here < s₁.size)
  (hopen : s₁.Leaves s₂ (.branch cond s₁.size (s₁.size + 1)) (s₁.size + 3) s₁.size)
  (hyes : s₂.Advances s₃)
  (hturn : s₃.Leaves s₄ (.jump (s₁.size + 2)) s₃.size (s₁.size + 1))
  (hno : s₄.Advances s₅)
  (hmeet : s₅.Leaves s₆ (.jump (s₁.size + 2)) s₅.size (s₁.size + 2))

include hopen hyes

theorem here_of_yes :
    s₁.size + 3 ≤ s₃.size ∧ s₃.here ≠ s₁.size + 1 ∧ s₃.here ≠ s₁.size + 2 := by
  have hsize := hyes.size
  have hhere := hyes.opened _ rfl
  rw [hopen.size] at hsize hhere
  rw [hopen.current] at hhere
  omega

include hcur

omit hyes in
theorem codeAt_of_open {b : Nat} (hb : s₁.size ≤ b) : s₂.codeAt b = [] := by
  rw [hopen.code, if_neg (by omega), Builder.codeAt_of_size_le hb]

theorem codeAt_of_yes {b : Nat} (hb : b = s₁.size + 1 ∨ b = s₁.size + 2) : s₃.codeAt b = [] := by
  rw [hyes.others b (by rw [hopen.size]; omega) (by rw [hopen.current]; omega)]
  exact codeAt_of_open hcur hopen (by omega)

include hturn hno

omit hcur in
theorem here_of_no : s₃.size ≤ s₅.size ∧ s₅.here ≠ s₁.size + 2 := by
  have hsize := hno.size
  have hhere := hno.opened _ rfl
  have hthree := (here_of_yes hopen hyes).1
  rw [hturn.size] at hsize hhere
  rw [hturn.current] at hhere
  omega

theorem codeAt_of_no : s₅.codeAt (s₁.size + 2) = [] := by
  obtain ⟨hsize, -, hhere⟩ := here_of_yes hopen hyes
  rw [hno.others _ (by rw [hturn.size]; omega) (by rw [hturn.current]; omega), hturn.code,
    if_neg hhere.symm]
  exact codeAt_of_yes hcur hopen hyes (.inr rfl)

include hmeet

theorem codeAt_of_meet : s₆.codeAt (s₁.size + 2) = [] := by
  rw [hmeet.code, if_neg (here_of_no hopen hyes hturn hno).2.symm]
  exact codeAt_of_no hcur hopen hyes hturn hno

omit hcur in
theorem advances_of_meet (hs₁ : s₁.Open) (hs₃ : s₃.Open) (hs₅ : s₅.Open) : s₁.Advances s₆ := by
  have hopened : Grown (· = s₁.here) (fun b => b = s₁.size ∨ b = s₁.size + 1 ∨ b = s₁.size + 2)
      s₁ s₂ := by
    refine (hopen.grown hs₁ (by omega) nofun fun _ => False).congr (fun b => by simp) fun b => ?_
    simp only [false_or]
    omega
  have hfirst : Grown (fun b => b = s₁.size ∨ b = s₁.size + 1 ∨ b = s₁.size + 2)
      (fun b => b = s₃.here ∨ b = s₁.size + 1 ∨ b = s₁.size + 2) s₂ s₃ := by
    refine (hyes.frame fun b => b = s₁.size + 1 ∨ b = s₁.size + 2).congr (fun b => ?_)
      fun b => Iff.rfl
    rw [hopen.current]
  have hturned : Grown (fun b => b = s₃.here ∨ b = s₁.size + 1 ∨ b = s₁.size + 2)
      (fun b => b = s₁.size + 1 ∨ b = s₁.size + 2) s₃ s₄ := by
    refine (hturn.grown hs₃ (Nat.le_refl _) nofun
      fun b => b = s₁.size + 1 ∨ b = s₁.size + 2).congr (fun b => Iff.rfl) fun b => ?_
    omega
  have hsecond : Grown (fun b => b = s₁.size + 1 ∨ b = s₁.size + 2)
      (fun b => b = s₅.here ∨ b = s₁.size + 2) s₄ s₅ := by
    refine (hno.frame fun b => b = s₁.size + 2).congr (fun b => ?_) fun b => Iff.rfl
    rw [hturn.current]
  have hmet : Grown (fun b => b = s₅.here ∨ b = s₁.size + 2) (· = s₆.here) s₅ s₆ := by
    refine (hmeet.grown hs₅ (Nat.le_refl _) nofun fun b => b = s₁.size + 2).congr
      (fun b => Iff.rfl) fun b => ?_
    rw [hmeet.current]
    omega
  exact hopened.trans (hfirst.trans (hturned.trans (hsecond.trans hmet)))

theorem runs_of_meet {w : World} {t : Table} {f g : Situation → Situation} (hf : Runs w t s₂ s₃ f)
    (hg : Runs w t s₄ s₅ g) {p : Program} (hp : p.Extends s₆.program) (σ : State) :
    ∃ σ', p.Reaches w ⟨s₁.here, (s₁.codeAt s₁.here).length, σ⟩
        ⟨s₆.here, (s₆.codeAt s₆.here).length, σ'⟩ ∧
      t.situation σ' = if σ.temps cond ≠ 0 then f (t.situation σ) else g (t.situation σ) := by
  have hp₅ := hp.trans hmeet.extend
  have hp₄ := hp₅.trans hno.extend
  have hp₃ := hp₄.trans hturn.extend
  have hp₂ := hp₃.trans hyes.extend
  have hstep : p.step w ⟨s₁.here, (s₁.codeAt s₁.here).length, σ⟩ =
      some ⟨if σ.temps cond ≠ 0 then s₁.size else s₁.size + 1, 0, σ⟩ := by
    rw [Program.step, hopen.fetch hp₂]
  rw [hmeet.current, codeAt_of_meet hcur hopen hyes hturn hno hmeet]
  by_cases hcond : σ.temps cond ≠ 0
  · obtain ⟨σ', hreach, hsit⟩ := hf p hp₃ σ
    rw [hopen.current, codeAt_of_open hcur hopen (Nat.le_refl _)] at hreach
    have hjump : p.step w ⟨s₃.here, (s₃.codeAt s₃.here).length, σ'⟩ =
        some ⟨s₁.size + 2, 0, σ'⟩ := by
      rw [Program.step, hturn.fetch hp₄]
    rw [if_pos hcond] at hstep ⊢
    exact ⟨σ', .head hstep (hreach.trans (.single hjump)), hsit⟩
  · obtain ⟨σ', hreach, hsit⟩ := hg p hp₅ σ
    have hcode : s₄.codeAt (s₁.size + 1) = [] := by
      rw [hturn.code, if_neg (here_of_yes hopen hyes).2.1.symm]
      exact codeAt_of_yes hcur hopen hyes (.inl rfl)
    rw [hturn.current, hcode] at hreach
    have hjump : p.step w ⟨s₅.here, (s₅.codeAt s₅.here).length, σ'⟩ =
        some ⟨s₁.size + 2, 0, σ'⟩ := by
      rw [Program.step, hmeet.fetch hp]
    rw [if_neg hcond] at hstep ⊢
    exact ⟨σ', .head hstep (hreach.trans (.single hjump)), hsit⟩

end

theorem Builder.Open.append {s : Builder} {c : Chunk} (h : s.Open)
    (hc : ∀ i ∈ c.code, i.isFinal = false) : (s.append c).Open where
  current := by
    rw [s.size_append]
    exact h.current
  straight i hi := by
    rw [Builder.here_append, Builder.codeAt_append h.current, if_pos rfl] at hi
    exact (List.mem_append.1 hi).elim (h.straight i) (hc i)

theorem Builder.Open.advances_append {s : Builder} (h : s.Open) (c : Chunk) :
    s.Advances (s.append c) where
  size := Nat.le_of_eq (s.size_append c).symm
  extend b := by
    have hcode : (s.append c).program.codeAt b = _ := Builder.codeAt_append h.current c b
    rw [hcode]
    split
    · exact List.prefix_append ..
    · exact List.prefix_rfl
  others b _ hb := by rw [Builder.codeAt_append h.current, if_neg hb]
  opened _ hb := .inl hb
  ended b hb hP hQ := by
    rw [s.size_append] at hb
    exact (hP.elim hQ fun h => absurd hb (Nat.not_lt_of_le h)).elim

/-- How far code spreads: the branches that it has, and how many blocks lie after the current one
when it has been built. -/
structure Spread where
  branches : Nat
  after : Nat → Nat

namespace Spread

def straight : Spread := ⟨0, id⟩

def seq (a b : Spread) : Spread := ⟨a.branches + b.branches, b.after ∘ a.after⟩

/-- The blocks of both cases lie after the one where they meet. -/
def fork (yes no : Spread) : Spread :=
  ⟨yes.branches + no.branches + 1, fun _ => 3 * (yes.branches + no.branches)⟩

def times (a : Spread) (n : Nat) : Spread := ⟨n * a.branches, a.after^[n]⟩

/-- The blocks of a builder before and after. -/
structure Measures (v : Spread) (s s' : Builder) : Prop where
  size : s'.size = s.size + 3 * v.branches
  after : s'.size = s'.here + 1 + v.after (s.size - (s.here + 1))

namespace Measures

variable {v v' : Spread} {s s' s'' : Builder}

protected theorem straight (h : s.here < s.size) (hsize : s'.size = s.size)
    (hhere : s'.here = s.here) : straight.Measures s s' where
  size := hsize
  after := by
    rw [hsize, hhere]
    exact (Nat.add_sub_cancel' h).symm

protected theorem seq (h : v.Measures s s') (h' : v'.Measures s' s'') :
    (v.seq v').Measures s s'' where
  size := by
    rw [h'.size, h.size, seq, Nat.mul_add, Nat.add_assoc]
  after := by
    have hafter := h'.after
    rw [h.after, Nat.add_sub_cancel_left] at hafter
    exact hafter

end Measures

theorem straight_seq (v : Spread) : straight.seq v = v := by
  rw [seq, straight, Nat.zero_add]
  rfl

theorem times_zero (v : Spread) : v.times 0 = straight := by
  rw [times, Nat.zero_mul]
  rfl

theorem times_succ (v : Spread) (n : Nat) : v.times (n + 1) = v.seq (v.times n) := by
  rw [times, Nat.succ_mul, Nat.add_comm]
  rfl

end Spread

/-- How statements are built: straight code, one part after another, and branches. -/
inductive Shaped : Spread → Builder → Builder → Prop
  | straight {s : Builder} {c : Chunk} (fs : Array EventFormat) :
      (∀ i ∈ c.code, i.isFinal = false) → Shaped .straight s ((s.append c).announce fs)
  | seq {v v' : Spread} {s s' s'' : Builder} :
      Shaped v s s' → Shaped v' s' s'' → Shaped (v.seq v') s s''
  | branch {v v' : Spread} {s s₃ s₅ : Builder} (cond : Temp) :
      Shaped v (s.fork cond) s₃ → Shaped v' (s₃.leave (s.size + 2) (s.size + 1)) s₅ →
      Shaped (v.fork v') s (s₅.leave (s.size + 2) (s.size + 2))

/-- The stages of a branch, each of which begins and ends in a block that has not ended. -/
structure Branching (cond : Temp) (s s₃ s₅ : Builder) : Prop where
  start : s.Open
  yes : (s.fork cond).Advances s₃
  turn : s₃.Open
  no : (s₃.leave (s.size + 2) (s.size + 1)).Advances s₅
  stop : s₅.Open

namespace Branching

variable {cond : Temp} {s s₃ s₅ : Builder}

theorem fork_open (h : s.Open) (cond : Temp) : (s.fork cond).Open :=
  (Builder.fork_leaves h.current cond).opens (by omega)
    (Builder.codeAt_of_size_le (Nat.le_refl _)) (Nat.ne_of_gt h.current)

theorem turn_open (h : s.Open) (hyes : (s.fork cond).Advances s₃) (hturn : s₃.Open) :
    (s₃.leave (s.size + 2) (s.size + 1)).Open := by
  have hfork := Builder.fork_leaves h.current cond
  obtain ⟨hsize, hne, -⟩ := here_of_yes hfork hyes
  refine (Builder.leave_leaves hturn.current ..).opens (by omega) ?_ hne.symm
  exact codeAt_of_yes h.current hfork hyes (.inl rfl)

theorem stop_open (h : Branching cond s s₃ s₅) :
    (s₅.leave (s.size + 2) (s.size + 2)).Open := by
  have hfork := Builder.fork_leaves h.start.current cond
  have hturn := Builder.leave_leaves h.turn.current (s.size + 2) (s.size + 1)
  have hthree := (here_of_yes hfork h.yes).1
  obtain ⟨hsize, hne⟩ := here_of_no hfork h.yes hturn h.no
  refine (Builder.leave_leaves h.stop.current ..).opens (by omega) ?_ hne.symm
  exact codeAt_of_no h.start.current hfork h.yes hturn h.no

theorem advances (h : Branching cond s s₃ s₅) :
    s.Advances (s₅.leave (s.size + 2) (s.size + 2)) :=
  advances_of_meet (Builder.fork_leaves h.start.current cond) h.yes
    (Builder.leave_leaves h.turn.current ..) h.no (Builder.leave_leaves h.stop.current ..) h.start
    h.turn h.stop

end Branching

namespace Shaped

variable {v : Spread} {s s' : Builder}

theorem opens (h : Shaped v s s') (hs : s.Open) : s'.Open ∧ s.Advances s' := by
  induction h with
  | straight fs hc => exact ⟨{ hs.append hc with }, { hs.advances_append _ with }⟩
  | seq _ _ ih ih' =>
    obtain ⟨hs', hadv⟩ := ih hs
    obtain ⟨hs'', hadv'⟩ := ih' hs'
    exact ⟨hs'', hadv.trans hadv'⟩
  | branch cond _ _ ihyes ihno =>
    obtain ⟨hs₃, hyes⟩ := ihyes (Branching.fork_open hs cond)
    obtain ⟨hs₅, hno⟩ := ihno (Branching.turn_open hs hyes hs₃)
    have hb : Branching cond _ _ _ := ⟨hs, hyes, hs₃, hno, hs₅⟩
    exact ⟨hb.stop_open, hb.advances⟩

theorem advances (h : Shaped v s s') (hs : s.Open) : s.Advances s' := (h.opens hs).2

/-- Induction on the shape, with what is known of the builders in between. -/
theorem induct {motive : Spread → Builder → Builder → Prop} (h : Shaped v s s') (hs : s.Open)
    (straight : ∀ (s : Builder) (c : Chunk) (fs : Array EventFormat), s.Open →
      (∀ i ∈ c.code, i.isFinal = false) → motive .straight s ((s.append c).announce fs))
    (seq : ∀ (v v' : Spread) (s s' s'' : Builder), s.Open → s'.Open → s.Advances s' →
      s'.Advances s'' → motive v s s' → motive v' s' s'' → motive (v.seq v') s s'')
    (branch : ∀ (v v' : Spread) (cond : Temp) (s s₃ s₅ : Builder), Branching cond s s₃ s₅ →
      motive v (s.fork cond) s₃ → motive v' (s₃.leave (s.size + 2) (s.size + 1)) s₅ →
      motive (v.fork v') s (s₅.leave (s.size + 2) (s.size + 2))) : motive v s s' := by
  induction h with
  | straight fs hc => exact straight _ _ fs hs hc
  | seq h h' ih ih' =>
    obtain ⟨hs', hadv⟩ := h.opens hs
    exact seq _ _ _ _ _ hs hs' hadv (h'.advances hs') (ih hs) (ih' hs')
  | branch cond h h' ihyes ihno =>
    have hfork := Branching.fork_open hs cond
    obtain ⟨hs₃, hyes⟩ := h.opens hfork
    have hturn := Branching.turn_open hs hyes hs₃
    obtain ⟨hs₅, hno⟩ := h'.opens hturn
    exact branch _ _ cond _ _ _ ⟨hs, hyes, hs₃, hno, hs₅⟩ (ihyes hfork) (ihno hturn)

theorem measures (h : Shaped v s s') (hs : s.Open) : v.Measures s s' := by
  refine h.induct hs (fun s c fs hs _ => ?_) (fun _ _ _ _ _ _ _ _ _ ih ih' => ih.seq ih')
    (fun v v' cond s s₃ s₅ hb ihyes ihno => ?_)
  · exact .straight hs.current (s.size_append c) rfl
  · have hfork := (Builder.fork_leaves hb.start.current cond).size
    have hturn := (Builder.leave_leaves hb.turn.current (s.size + 2) (s.size + 1)).size
    have hmeet := Builder.leave_leaves hb.stop.current (s.size + 2) (s.size + 2)
    have hyes := ihyes.size
    have hno := ihno.size
    rw [hfork] at hyes
    rw [hturn, hyes] at hno
    constructor
    · rw [hmeet.size, hno]
      dsimp only [Spread.fork]
      omega
    · rw [hmeet.size, hmeet.current, hno]
      dsimp only [Spread.fork]
      omega

end Shaped

theorem Balanced.straight {α : Type} {m : Build α} {owed : Multiset Temp} {left : α → Multiset Temp}
    (h : Balanced m owed left) {s : Builder} (hs : s.Open) {a : α} {c : Chunk}
    {fs : Array EventFormat} (hrun : m s = .ok (a, (s.append c).announce fs)) :
    ∀ i ∈ c.code, i.isFinal = false := by
  obtain ⟨d, gs, heq, hd, -⟩ := h s a _ hrun
  have hcode : (s.append c).codeAt s.here = (s.append d).codeAt s.here :=
    congrArg (·.codeAt s.here) (congrArg Builder.program heq)
  rw [Builder.codeAt_append hs.current, if_pos rfl, Builder.codeAt_append hs.current,
    if_pos rfl] at hcode
  rw [List.append_cancel_left hcode]
  exact hd

/-- An action builds code for what some statements do. -/
structure Builds (w : World) (t : Table) (rs : List Region) (m : Build Unit) (s s' : Builder)
    (f : Situation → Situation) : Prop where
  run : m s = .ok ((), s')
  opens : s'.Open
  advances : s.Advances s'
  safe : Framed w t rs → ∀ b, ∀ i ∈ s'.codeAt b, i ∈ s.codeAt b ∨ i.Safe w (t.regions ++ rs)
  runs : Framed w t rs → Runs w t s s' f

/-- From every builder, an action builds code for what some statements do. -/
def AlwaysBuilds (w : World) (t : Table) (rs : List Region) (m : Build Unit)
    (f : Situation → Situation) : Prop :=
  ∀ s : Builder, s.Open → ∃ s', Builds w t rs m s s' f

namespace Builds

variable {w : World} {t : Table} {rs qs : List Region} {m m' : Build Unit} {s s' s'' : Builder}
  {f g : Situation → Situation}

theorem mono (h : Builds w t rs m s s' f) (hsub : rs.Sublist qs) : Builds w t qs m s s' f where
  run := h.run
  opens := h.opens
  advances := h.advances
  safe hf b i hi := (h.safe (hf.sublist hsub) b i hi).imp_right fun hsafe =>
    hsafe.mono ((List.Sublist.refl _).append hsub).subset
  runs hf := h.runs (hf.sublist hsub)

theorem nothing (hs : s.Open) : Builds w t rs (pure ()) s s id where
  run := rfl
  opens := hs
  advances := by
    have hadv := hs.advances_append {}
    rwa [s.append_empty] at hadv
  safe _ _ _ hi := .inl hi
  runs _ _ _ σ := ⟨σ, .refl, rfl⟩

theorem seq (h : Builds w t rs m s s' f) (h' : Builds w t rs m' s' s'' g) :
    Builds w t rs (do m; m') s s'' (g ∘ f) where
  run := (Build.bind_of_ok h.run).trans h'.run
  opens := h'.opens
  advances := h.advances.trans h'.advances
  safe hf b i hi := by
    rcases h'.safe hf b i hi with hi | hi
    · exact h.safe hf b i hi
    · exact .inr hi
  runs hf p hp σ := by
    obtain ⟨σ₁, hreach, hsit⟩ := h.runs hf p (hp.trans h'.advances.extend) σ
    obtain ⟨σ₂, hreach', hsit'⟩ := h'.runs hf p hp σ₁
    exact ⟨σ₂, hreach.trans hreach', by rw [hsit', hsit]; rfl⟩

theorem of_straight {n : Node} {c : Chunk} {fs : Array EventFormat} (hs : s.Open)
    (hm : Balanced m 0 fun _ => 0) (h : Straight w t n rs m s c fs) :
    Builds w t rs m s ((s.append c).announce fs) (n.perform w t.scope) where
  run := h.run
  opens := { hs.append (hm.straight hs h.run) with }
  advances := { hs.advances_append c with }
  safe hf b i hi := by
    have hi' : i ∈ (s.append c).codeAt b := hi
    rw [Builder.codeAt_append hs.current] at hi'
    split at hi'
    · exact (List.mem_append.1 hi').imp_right (h.safe hf i)
    · exact .inl hi'
  runs hf p hp σ := by
    have hcode : (s.append c).codeAt s.here = s.codeAt s.here ++ c.code := by
      rw [Builder.codeAt_append hs.current, if_pos rfl]
    refine ⟨runAll w c.code σ, ?_, h.meaning hf σ⟩
    have hreach := hp.reaches (w := w) (b := s.here) (e := []) (by
      rw [List.append_nil]
      exact hcode) (hm.straight hs h.run) σ
    rw [← hcode] at hreach
    exact hreach

/-- Both cases of a branch are built, and control meets again in a new block. -/
theorem branch {condition condition' : Node} {cs ys ns : List Region} {yes no : Build Unit}
    (hcond : LowersScalar w t condition condition' cs) (hs : s.Open)
    (hyes : AlwaysBuilds w t ys yes f) (hno : AlwaysBuilds w t ns no g) :
    ∃ s', Builds w t (cs ++ (ys ++ ns)) (Flow.branch t condition' yes no) s s' fun x =>
      let r := condition.value w t.scope x.vars x.outside
      if Bytes.toWord r.1 ≠ 0 then f ⟨x.vars, r.2⟩ else g ⟨x.vars, r.2⟩ := by
  obtain ⟨cond, c, hadds, -, hrun⟩ := hcond s
  have hemits : (evaluation t condition').scalar s = .ok (cond, s.append c) := hadds.emits
  have hstraight : ∀ i ∈ c.code, i.isFinal = false :=
    (balanced_evaluation t condition').scalar.straight hs
      (by rw [Builder.announce_empty]; exact hemits)
  have hs₁ := hs.append hstraight
  have hadv₁ := hs.advances_append c
  have hcode₁ : (s.append c).codeAt s.here = s.codeAt s.here ++ c.code := by
    rw [Builder.codeAt_append hs.current, if_pos rfl]
  have hhere₁ : (s.append c).here = s.here := rfl
  have hold : ∀ b, ∀ i ∈ (s.append c).codeAt b, i ∈ s.codeAt b ∨ i ∈ c.code := by
    intro b i hi
    rw [Builder.codeAt_append hs.current] at hi
    split at hi
    · exact List.mem_append.1 hi
    · exact .inl hi
  generalize s.append c = s₁ at hs₁ hadv₁ hcode₁ hhere₁ hemits hold
  have hleave₂ := Builder.fork_leaves hs₁.current cond
  obtain ⟨s₃, hyes₃⟩ := hyes _ (Branching.fork_open hs₁ cond)
  have hleave₄ := Builder.leave_leaves hyes₃.opens.current (s₁.size + 2) (s₁.size + 1)
  obtain ⟨s₅, hno₅⟩ := hno _ (Branching.turn_open hs₁ hyes₃.advances hyes₃.opens)
  have hleave₆ := Builder.leave_leaves hno₅.opens.current (s₁.size + 2) (s₁.size + 2)
  have hb : Branching cond s₁ s₃ s₅ :=
    ⟨hs₁, hyes₃.advances, hyes₃.opens, hno₅.advances, hno₅.opens⟩
  refine ⟨_, ?_, hb.stop_open, hadv₁.trans hb.advances, fun hf b i hi => ?_, fun hf p hp σ => ?_⟩
  · rw [branch_eq, Build.bind_of_ok hemits, Build.bind_of_ok (s₁.openBranch_eq cond)]
    dsimp only
    rw [Build.bind_of_ok hyes₃.run, Build.bind_of_ok (s₃.closeCase_eq ..),
      Build.bind_of_ok hno₅.run]
    exact s₅.closeCase_eq ..
  · have hsub : ∀ {qs : List Region}, qs.Sublist (cs ++ (ys ++ ns)) → i.Safe w (t.regions ++ qs) →
        i ∈ s.codeAt b ∨ i.Safe w (t.regions ++ (cs ++ (ys ++ ns))) := fun hqs hsafe =>
      .inr (hsafe.mono ((List.Sublist.refl _).append hqs).subset)
    rcases hleave₆.mem hi with hi | rfl
    · rcases hno₅.safe hf.right.right b i hi with hi | hi
      · rcases hleave₄.mem hi with hi | rfl
        · rcases hyes₃.safe hf.right.left b i hi with hi | hi
          · rcases hleave₂.mem hi with hi | rfl
            · rcases hold b i hi with hi | hi
              · exact .inl hi
              · exact hsub (List.sublist_append_left ..) (hadds.safe hf.left i hi)
            · exact .inr (safe_of_untouched rfl trivial)
          · exact hsub ((List.sublist_append_left ..).trans (List.sublist_append_right ..)) hi
        · exact .inr (safe_of_untouched rfl trivial)
      · exact hsub ((List.sublist_append_right ..).trans (List.sublist_append_right ..)) hi
    · exact .inr (safe_of_untouched rfl trivial)
  · obtain ⟨he, hv⟩ := hrun hf.left σ
    have hreach := (hp.trans hb.advances.extend).reaches (w := w) (b := s.here) (e := [])
      (by rw [List.append_nil]; exact hcode₁) hstraight σ
    rw [← hcode₁] at hreach
    obtain ⟨σ', hreach', hsit⟩ := runs_of_meet hs₁.current hleave₂ hyes₃.advances hleave₄
      hno₅.advances hleave₆ (hyes₃.runs hf.right.left) (hno₅.runs hf.right.right) hp
      (runAll w c.code σ)
    rw [hhere₁] at hreach'
    refine ⟨σ', hreach.trans hreach', ?_⟩
    rw [hsit, hv, Table.situation, hf.left.contents_eq he.frame, he.outside]
    rfl

end Builds

end TraceScript.Flow
