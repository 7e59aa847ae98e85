import TraceScript.Flow.Liveness
import TraceScript.Proofs.TwoAddress

namespace TraceScript.Flow

namespace Numbering

variable {n : Numbering}

def firstDef (n : Numbering) (t : Temp) : Option Nat := n.temps[t]?.bind TempInfo.firstDef

/-- The range of a temporary goes on at least to some place. -/
def UsedTo (n : Numbering) (t : Temp) (k : Nat) : Prop :=
  ∃ u, n.temps[t]?.bind TempInfo.lastUse = some u ∧ k ≤ u

@[simp] theorem firstDef_use (n : Numbering) (k : Nat) (t u : Temp) :
    (n.use k t).firstDef u = n.firstDef u := by
  simp only [firstDef, use, Array.getElem?_modify]
  cases n.temps[u]? with
  | none => simp
  | some info => split <;> rfl

@[simp] theorem index_use (n : Numbering) (k : Nat) (t : Temp) : (n.use k t).index = n.index := rfl

@[simp] theorem size_use (n : Numbering) (k : Nat) (t : Temp) :
    (n.use k t).temps.size = n.temps.size := by
  simp [use]

theorem UsedTo.use {t : Temp} {k : Nat} (h : n.UsedTo t k) (j : Nat) (u : Temp) :
    (n.use j u).UsedTo t k := by
  obtain ⟨v, hv, hk⟩ := h
  simp only [UsedTo, Numbering.use, Array.getElem?_modify]
  cases hi : n.temps[t]? with
  | none =>
    rw [hi] at hv
    cases hv
  | some info =>
    rw [hi] at hv
    have hlast : info.lastUse = some v := hv
    split
    · refine ⟨max v j, ?_, Nat.le_trans hk (Nat.le_max_left ..)⟩
      simp [TempInfo.usedAt, hlast]
    · exact ⟨v, hlast, hk⟩

theorem usedTo_use {t : Temp} {k : Nat} (h : t < n.temps.size) : (n.use k t).UsedTo t k := by
  simp only [UsedTo, use, Array.getElem?_modify, if_true, Array.getElem?_eq_getElem h]
  exact ⟨_, rfl, Nat.le_max_right ..⟩

theorem firstDef_define {t u : Temp} (h : u < n.temps.size) :
    (n.define (some t)).firstDef u =
      if t = u then (n.firstDef u).or (some n.index) else n.firstDef u := by
  simp only [firstDef, define, Array.getElem?_modify]
  split
  · rename_i heq
    subst heq
    rw [Array.getElem?_eq_getElem h]
    cases hf : n.temps[t].firstDef <;> simp [TempInfo.definedAt, hf]
  · rfl

theorem UsedTo.define {t : Temp} {k : Nat} (h : n.UsedTo t k) (d : Option Temp) :
    (n.define d).UsedTo t k := by
  cases d with
  | none => exact h
  | some u =>
    obtain ⟨v, hv, hk⟩ := h
    simp only [UsedTo, Numbering.define, Array.getElem?_modify]
    cases hi : n.temps[t]? with
    | none =>
      rw [hi] at hv
      cases hv
    | some info =>
      rw [hi] at hv
      split <;> exact ⟨v, hv, hk⟩

@[simp] theorem index_define (n : Numbering) (d : Option Temp) : (n.define d).index = n.index := by
  cases d <;> rfl

@[simp] theorem size_define (n : Numbering) (d : Option Temp) :
    (n.define d).temps.size = n.temps.size := by
  cases d <;> simp [define]

theorem useAll_spec (k : Numbering → Nat) (us : List Temp) (n : Numbering) :
    let n' := us.foldl (fun n t => n.use (k n) t) n
    n'.index = n.index ∧ n'.temps.size = n.temps.size ∧ (∀ u, n'.firstDef u = n.firstDef u) ∧
      ∀ t j, n.UsedTo t j → n'.UsedTo t j := by
  induction us generalizing n with
  | nil => exact ⟨rfl, rfl, fun _ => rfl, fun _ _ h => h⟩
  | cons t us ih =>
    obtain ⟨hi, hs, hf, hu⟩ := ih (n.use (k n) t)
    refine ⟨by rw [List.foldl_cons, hi, index_use], by rw [List.foldl_cons, hs, size_use],
      fun u => by rw [List.foldl_cons, hf, firstDef_use], fun u j h => hu u j (h.use _ _)⟩

theorem usedTo_useAll {us : List Temp} {t : Temp} (ht : t ∈ us) (h : t < n.temps.size) :
    (us.foldl (fun n t => n.use n.index t) n).UsedTo t n.index := by
  induction us generalizing n with
  | nil => cases ht
  | cons u us ih =>
    rw [List.foldl_cons]
    by_cases hu : t = u
    · subst hu
      exact (useAll_spec Numbering.index us _).2.2.2 t _ (usedTo_use h)
    · exact ih ((List.mem_cons.1 ht).resolve_left hu) (by rw [size_use]; exact h)

end Numbering

/-- What has been recorded after some instructions. -/
structure Numbered (count : Nat) (done : List Instruction) (n : Numbering) : Prop where
  index : n.index = done.length
  size : n.temps.size = count
  firstDef : ∀ t < count, n.firstDef t = done.findIdx? fun i => i.def? = some t
  lastUse : ∀ (k : Nat) (i : Instruction), done[k]? = some i → ∀ t ∈ i.uses, t < count →
    n.UsedTo t k

namespace Numbered

variable {count : Nat} {done : List Instruction} {n : Numbering}

theorem instruction (h : Numbered count done n) (i : Instruction) :
    Numbered count (done ++ [i]) (n.instruction i) := by
  obtain ⟨hi, hs, hf, hu⟩ := Numbering.useAll_spec Numbering.index i.uses (n.define i.def?)
  rw [n.index_define] at hi
  rw [n.size_define, h.size] at hs
  constructor
  case index =>
    rw [Numbering.instruction, hi, h.index, List.length_append]
    rfl
  case size => exact hs
  case firstDef =>
    intro t ht
    have hstep : (n.instruction i).firstDef t = (n.define i.def?).firstDef t := hf t
    rw [hstep, List.findIdx?_append, ← h.firstDef t ht]
    cases hd : i.def? with
    | none => simp [Numbering.define, hd]
    | some d =>
      have hone : List.findIdx? (fun j => decide (j.def? = some t)) [i] =
          if d = t then some 0 else none := by
        simp [List.findIdx?_cons, hd]
      rw [hone, Numbering.firstDef_define (h.size.symm ▸ ht), h.index]
      split <;> simp
  case lastUse =>
    intro k j hj t ht hlt
    rcases Nat.lt_or_ge k done.length with hk | hk
    · rw [List.getElem?_append_left hk] at hj
      exact hu t k ((h.lastUse k j hj t ht hlt).define _)
    · rw [List.getElem?_append_right hk] at hj
      obtain ⟨hk0, rfl⟩ : k - done.length = 0 ∧ i = j := by
        cases hsub : k - done.length with
        | zero =>
          rw [hsub] at hj
          exact ⟨rfl, Option.some.inj hj⟩
        | succ m =>
          rw [hsub] at hj
          cases hj
      have hused := Numbering.usedTo_useAll ht (n := n.define i.def?)
        (by rw [n.size_define, h.size]; exact hlt)
      rw [n.index_define, h.index] at hused
      obtain rfl : k = done.length := by omega
      exact hused

theorem instructions (h : Numbered count done n) (code : List Instruction) :
    Numbered count (done ++ code) (code.foldl Numbering.instruction n) := by
  induction code generalizing done n with
  | nil =>
    rw [List.append_nil]
    exact h
  | cons i code ih =>
    have hrest := ih (h.instruction i)
    rw [List.append_assoc] at hrest
    exact hrest

theorem block (h : Numbered count done n) (b : Block) :
    Numbered count (done ++ b.code.toList) (n.block b) := by
  have hcode := h.instructions b.code.toList
  rw [Array.foldl_toList] at hcode
  rw [Numbering.block]
  split
  · exact hcode
  · obtain ⟨hi, hs, hf, hu⟩ := Numbering.useAll_spec (fun n => n.index - 1) b.liveOut.toList
      (b.code.foldl Numbering.instruction n)
    exact ⟨hi.trans hcode.index, hs.trans hcode.size, fun t ht => (hf t).trans (hcode.firstDef t ht),
      fun k i hk t ht hlt => hu t k (hcode.lastUse k i hk t ht hlt)⟩

theorem blocks (h : Numbered count done n) (bs : List Block) :
    Numbered count (done ++ bs.flatMap (·.code.toList)) (bs.foldl Numbering.block n) := by
  induction bs generalizing done n with
  | nil =>
    rw [List.flatMap_nil, List.append_nil]
    exact h
  | cons b bs ih =>
    have hrest := ih (h.block b)
    rw [List.append_assoc] at hrest
    exact hrest

end Numbered

namespace Program

/-- The number of instructions before a block. -/
def offset (p : Program) (b : Nat) : Nat :=
  ((p.blocks.toList.take b).flatMap (·.code.toList)).length

theorem codeAt_of_getElem? {p : Program} {b : Nat} {block : Block}
    (h : p.blocks.toList[b]? = some block) : p.codeAt b = block.code.toList := by
  rw [codeAt, ← Array.getElem?_toList, h]
  rfl

theorem instruction_of_code {p : Program} {b : Nat} {c d : List Instruction} {i : Instruction}
    (h : p.codeAt b = c ++ i :: d) : p.instructions[p.offset b + c.length]? = some i := by
  cases hb : p.blocks.toList[b]? with
  | none =>
    rw [codeAt, ← Array.getElem?_toList, hb] at h
    cases c <;> cases h
  | some block =>
    rw [codeAt_of_getElem? hb] at h
    obtain ⟨hlt, rfl⟩ := List.getElem?_eq_some_iff.1 hb
    have hsplit : p.instructions = (p.blocks.toList.take b).flatMap (·.code.toList) ++
        (c ++ i :: (d ++ (p.blocks.toList.drop (b + 1)).flatMap (·.code.toList))) := by
      rw [instructions]
      conv =>
        lhs
        rw [← List.take_append_drop b p.blocks.toList, List.drop_eq_getElem_cons hlt]
      rw [List.flatMap_append, List.flatMap_cons, h]
      simp
    rw [hsplit, offset, List.getElem?_append_right (Nat.le_add_right ..), Nat.add_sub_cancel_left,
      List.getElem?_append_right (Nat.le_refl _), Nat.sub_self]
    rfl

theorem code_of_instruction {p : Program} {k : Nat} {i : Instruction}
    (h : p.instructions[k]? = some i) :
    ∃ b c d, p.codeAt b = c ++ i :: d ∧ p.offset b + c.length = k := by
  obtain ⟨hk, rfl⟩ := List.getElem?_eq_some_iff.1 h
  have hsplit : p.blocks.toList.flatMap (·.code.toList) =
      p.instructions.take k ++ p.instructions[k] :: p.instructions.drop (k + 1) := by
    rw [← List.drop_eq_getElem_cons hk, List.take_append_drop]
    rfl
  obtain ⟨before, block, after, c, d, hblocks, hcode, hpre, -⟩ := flatMap_eq_append hsplit
  have hlen := congrArg List.length hpre
  rw [List.length_take_of_le (Nat.le_of_lt hk), List.length_append] at hlen
  refine ⟨before.length, c, d, ?_, ?_⟩
  · have hblock : p.blocks.toList[before.length]? = some block := by rw [hblocks]; simp
    rw [codeAt_of_getElem? hblock, hcode]
  · rw [offset, hblocks, List.take_left', ← hlen]
    rfl

theorem codeAt_analyze (p : Program) (b : Nat) : p.analyze.codeAt b = p.codeAt b := by
  simp only [codeAt, analyze, Array.getElem?_mapIdx]
  cases p.blocks[b]? <;> rfl

theorem flatMap_code_mapIdx {f : Nat → Block → Block} (hf : ∀ i b, (f i b).code = b.code)
    (bs : List Block) :
    (bs.mapIdx f).flatMap (·.code.toList) = bs.flatMap (·.code.toList) := by
  induction bs generalizing f with
  | nil => rfl
  | cons b bs ih =>
    rw [List.mapIdx_cons, List.flatMap_cons, List.flatMap_cons, hf, ih fun i b => hf (i + 1) b]

theorem instructions_analyze (p : Program) : p.analyze.instructions = p.instructions := by
  rw [instructions, analyze, Array.toList_mapIdx]
  refine flatMap_code_mapIdx ?_ _
  exact fun _ _ => rfl

theorem size_analyze (p : Program) : p.analyze.blocks.size = p.blocks.size := by
  simp [analyze]

theorem numbered_analyze (p : Program) :
    Numbered p.temps.size p.instructions ⟨p.analyze.temps, p.instructions.length⟩ := by
  have hstart : Numbered p.temps.size [] { temps := p.temps.map TempInfo.unknown } := by
    refine ⟨rfl, Array.size_map, fun t ht => ?_, nofun⟩
    simp [Numbering.firstDef, ht, TempInfo.unknown]
  have hall := hstart.blocks p.analyze.blocks.toList
  rw [List.nil_append, Array.foldl_toList] at hall
  have hinstr : p.analyze.blocks.toList.flatMap (·.code.toList) = p.instructions :=
    p.instructions_analyze
  rw [hinstr] at hall
  exact ⟨rfl, hall.size, hall.firstDef, hall.lastUse⟩

end Program

end TraceScript.Flow
