import TraceScript.Proofs.Control
import TraceScript.Proofs.RangeInsertion

namespace TraceScript

open TraceScript.Flow

namespace Flow

theorem Mentions.mono {code code' : List Instruction} (h : code ⊆ code') {t : Temp}
    (ht : Mentions code t) : Mentions code' t := by
  refine ht.imp (fun hdef => ?_) fun hread => ?_
  · obtain ⟨i, hi, hdef⟩ := mem_defs.1 hdef
    exact mem_defs.2 ⟨i, h hi, hdef⟩
  · obtain ⟨i, hi, huse⟩ := List.mem_flatMap.1 hread
    exact List.mem_flatMap.2 ⟨i, h hi, huse⟩

namespace Program

/-- One program is the other with some code put into a block. -/
structure Widens (p q : Program) (block : Nat) (c added d : List Instruction) : Prop where
  lt : block < p.blocks.size
  size : q.blocks.size = p.blocks.size
  old : p.codeAt block = c ++ d
  new : q.codeAt block = c ++ (added ++ d)
  others : ∀ b, b ≠ block → q.codeAt b = p.codeAt b

/-- The code of the blocks before one. -/
def codeBelow (p : Program) (b : Nat) : List Instruction := (List.range b).flatMap p.codeAt

/-- The code of the blocks after one. -/
def codeAbove (p : Program) (b : Nat) : List Instruction :=
  (List.range' (b + 1) (p.blocks.size - (b + 1))).flatMap p.codeAt

theorem instructions_eq_codeBelow (p : Program) : p.instructions = p.codeBelow p.blocks.size := by
  have hblocks : (List.range p.blocks.size).map p.codeAt = p.blocks.toList.map (·.code.toList) := by
    refine List.ext_getElem (by simp) fun b hb hb' => ?_
    rw [List.getElem_map, List.getElem_range, List.getElem_map]
    exact codeAt_of_getElem? (List.getElem?_eq_getElem _)
  rw [instructions, codeBelow, List.flatMap_def, List.flatMap_def, hblocks]

theorem instructions_split (p : Program) {b : Nat} (hb : b < p.blocks.size) :
    p.instructions = p.codeBelow b ++ (p.codeAt b ++ p.codeAbove b) := by
  have hrange : List.range p.blocks.size =
      List.range b ++ (b :: List.range' (b + 1) (p.blocks.size - (b + 1))) := by
    have hsplit := List.range'_append_1 (s := 0) (m := b) (n := p.blocks.size - (b + 1) + 1)
    have hsize : b + (p.blocks.size - (b + 1) + 1) = p.blocks.size := by omega
    rw [Nat.zero_add, List.range'_succ, hsize] at hsplit
    rw [List.range_eq_range', List.range_eq_range', hsplit]
  rw [instructions_eq_codeBelow, codeBelow, hrange, List.flatMap_append, List.flatMap_cons]
  rfl

theorem codeAt_subset (p : Program) {b : Nat} (hb : b < p.blocks.size) :
    p.codeAt b ⊆ p.instructions := by
  intro i hi
  rw [p.instructions_split hb]
  exact List.mem_append_right _ (List.mem_append_left _ hi)

namespace Widens

variable {p q : Program} {block : Nat} {c added d : List Instruction}

theorem instructions_old (h : Widens p q block c added d) :
    p.instructions = (p.codeBelow block ++ c) ++ (d ++ p.codeAbove block) := by
  rw [p.instructions_split h.lt, h.old]
  simp only [List.append_assoc]

theorem instructions_new (h : Widens p q block c added d) :
    q.instructions = (p.codeBelow block ++ c) ++ (added ++ (d ++ p.codeAbove block)) := by
  have hbelow : q.codeBelow block = p.codeBelow block :=
    List.flatMap_congr fun b hb => h.others b (Nat.ne_of_lt (List.mem_range.1 hb))
  have habove : q.codeAbove block = p.codeAbove block := by
    rw [codeAbove, codeAbove, h.size]
    refine List.flatMap_congr fun b hb => h.others b ?_
    have := (List.mem_range'_1.1 hb).1
    omega
  rw [q.instructions_split (h.lt.trans_eq h.size.symm), h.new, hbelow, habove]
  simp only [List.append_assoc]

theorem of_codeAt {p' q' : Program} (h : Widens p q block c added d)
    (hsize : p'.blocks.size = p.blocks.size) (hsize' : q'.blocks.size = q.blocks.size)
    (hp : ∀ b, p'.codeAt b = p.codeAt b) (hq : ∀ b, q'.codeAt b = q.codeAt b) :
    Widens p' q' block c added d where
  lt := h.lt.trans_eq hsize.symm
  size := by rw [hsize', h.size, hsize]
  old := (hp block).trans h.old
  new := (hq block).trans h.new
  others b hb := by rw [hp, hq, h.others b hb]

theorem twoAddress (h : Widens p q block c added d) :
    Widens p.twoAddress q.twoAddress block (c.flatMap Instruction.twoAddress)
      (added.flatMap Instruction.twoAddress) (d.flatMap Instruction.twoAddress) where
  lt := h.lt.trans_eq p.size_twoAddress.symm
  size := by rw [size_twoAddress, size_twoAddress, h.size]
  old := by rw [codeAt_twoAddress, h.old, List.flatMap_append]
  new := by rw [codeAt_twoAddress, h.new, List.flatMap_append, List.flatMap_append]
  others b hb := by rw [codeAt_twoAddress, codeAt_twoAddress, h.others b hb]

end Widens

end Program

end Flow

namespace Emit

variable {a a' : Allocation}

theorem homeOf_congr {t : Temp} (h : a'.home t = a.home t) : homeOf a' t = homeOf a t := by
  rw [homeOf, homeOf, h]

theorem target_congr {t : Temp} (h : a'.home t = a.home t) : target a' t = target a t := by
  rw [target, target, homeOf_congr h]

theorem read_congr {t : Temp} (h : a'.home t = a.home t) (scratch : Reg) :
    read a' t scratch = read a t scratch := by
  rw [read, read, homeOf_congr h]

theorem writeBack_congr {t : Temp} (h : a'.home t = a.home t) (r : Reg) :
    writeBack a' t r = writeBack a t r := by
  rw [writeBack, writeBack, homeOf_congr h]

theorem helper_congr {dst : Option Temp} (h : ∀ t, dst = some t → a'.home t = a.home t)
    (f : Helper) : helper a' dst f = helper a dst f := by
  cases dst with
  | none => cases f <;> rfl
  | some t =>
    have ht := h t rfl
    cases f <;> simp only [helper, keepResult, target_congr ht, writeBack_congr ht]

theorem instruction_congr {i : Instruction}
    (h : ∀ t, i.def? = some t ∨ t ∈ i.uses → a'.home t = a.home t) :
    instruction a' i = instruction a i := by
  have hdef : ∀ t, i.def? = some t → a'.home t = a.home t := fun t ht => h t (.inl ht)
  have huse : ∀ t ∈ i.uses, a'.home t = a.home t := fun t ht => h t (.inr ht)
  cases i with
  | imm dst value =>
    simp only [instruction, target_congr (hdef dst rfl), writeBack_congr (hdef dst rfl)]
  | arith op dst lhs rhs =>
    have hl := huse lhs (List.mem_cons_self ..)
    have hr : ∀ t, rhs = .temp t → a'.home t = a.home t := by
      rintro t rfl
      exact huse t (by simp [Instruction.uses, Operand.temps])
    cases rhs with
    | imm value =>
      simp only [instruction, arith, read_congr hl, target_congr (hdef dst rfl),
        writeBack_congr (hdef dst rfl)]
    | temp t =>
      simp only [instruction, arith, read_congr hl, target_congr (hdef dst rfl),
        writeBack_congr (hdef dst rfl), read_congr (hr t rfl)]
  | compare op dst lhs rhs =>
    have hl := huse lhs (List.mem_cons_self ..)
    have hr : ∀ t, rhs = .temp t → a'.home t = a.home t := by
      rintro t rfl
      exact huse t (by simp [Instruction.uses, Operand.temps])
    cases rhs with
    | imm value =>
      simp only [instruction, compare, read_congr hl, target_congr (hdef dst rfl),
        writeBack_congr (hdef dst rfl)]
    | temp t =>
      simp only [instruction, compare, read_congr hl, target_congr (hdef dst rfl),
        writeBack_congr (hdef dst rfl), read_congr (hr t rfl)]
  | move dst src =>
    simp only [instruction, read_congr (huse src (List.mem_singleton_self _)),
      target_congr (hdef dst rfl), writeBack_congr (hdef dst rfl)]
  | load dst addr =>
    simp only [instruction, target_congr (hdef dst rfl), writeBack_congr (hdef dst rfl)]
  | store src addr =>
    simp only [instruction, read_congr (huse src (List.mem_singleton_self _))]
  | branch cond yes no =>
    simp only [instruction, read_congr (huse cond (List.mem_singleton_self _))]
  | call f dst => exact helper_congr (fun t ht => hdef t ht) f
  | _ => rfl

theorem codeDrafts_congr {code : List Instruction}
    (h : ∀ t, Mentions code t → a'.home t = a.home t) : codeDrafts a' code = codeDrafts a code := by
  refine List.flatMap_congr fun i hi => ?_
  rw [instruction_congr fun t ht => h t ?_]
  exact ht.imp (fun hdef => mem_defs.2 ⟨i, hi, hdef⟩) fun huse => List.mem_flatMap.2 ⟨i, hi, huse⟩

theorem startOf_eq_codeBelow {p : Program} {b : Nat} (hb : b ≤ p.blocks.size) :
    startOf a p b = 1 + (codeDrafts a (p.codeBelow b)).length := by
  induction b with
  | zero => rfl
  | succ b ih =>
    rw [Bytecode.Generated.startOf_succ hb, ih (by omega), Program.codeBelow, Program.codeBelow,
      List.range_succ, List.flatMap_append, codeDrafts_append, List.length_append, Nat.add_assoc,
      List.flatMap_singleton]

theorem startOf_mono {p : Program} {b k : Nat} (h : b ≤ k) (hk : k ≤ p.blocks.size) :
    startOf a p b ≤ startOf a p k := by
  induction h with
  | refl => exact Nat.le_refl _
  | @step k h ih =>
    rw [Bytecode.Generated.startOf_succ hk]
    exact (ih (by omega)).trans (Nat.le_add_right _ _)

end Emit

namespace Bytecode

open Emit

/-- The place of a slot after some have been put in. -/
def movedSlot (place count k : Nat) : Nat := if k < place then k else k + count

/-- The place that a jump goes to after some slots have been put in. A jump to the place of these goes
to the first of them. -/
def movedGoal (place count goal : Nat) : Nat := if goal ≤ place then goal else goal + count

/-- Code with some slots put in. Every other slot stays as it is, or it is a jump that is aimed again
and goes to the same slot as before. -/
structure Widened (place : Nat) (slots : List Slot) (code code' : Array Slot) : Prop where
  place_le : place ≤ code.size
  size : code'.size = code.size + slots.length
  added : ∀ k s, slots[k]? = some s → code'[place + k]? = some s
  kept : ∀ k s, code[k]? = some s → ∃ s', code'[movedSlot place slots.length k]? = some s' ∧
    (s' = s ∨ s' = { s with off := s'.off } ∧ ∃ goal : Nat, k + 1 + s.off.toInt = goal ∧
      movedSlot place slots.length k + 1 + s'.off.toInt = movedGoal place slots.length goal)

variable {p q : Program} {a a' : Allocation} {block : Nat} {c added d : List Instruction}
  {slots : List Slot} {code code' : Array Slot}

section

variable (h : p.Widens q block c added d)
  (hhomes : ∀ t, Mentions p.instructions t → a'.home t = a.home t)

include h hhomes

theorem codeDrafts_others {b : Nat} (hb : b < p.blocks.size) (hne : b ≠ block) :
    codeDrafts a' (q.codeAt b) = codeDrafts a (p.codeAt b) := by
  rw [h.others b hne]
  exact codeDrafts_congr fun t ht => hhomes t (ht.mono (p.codeAt_subset hb))

theorem codeDrafts_block : codeDrafts a' (q.codeAt block) =
    codeDrafts a c ++ (codeDrafts a' added ++ codeDrafts a d) := by
  have hsub := p.codeAt_subset h.lt
  rw [h.old] at hsub
  have hc : codeDrafts a' c = codeDrafts a c := codeDrafts_congr fun t ht =>
    hhomes t (ht.mono fun i hi => hsub (List.mem_append_left _ hi))
  have hd : codeDrafts a' d = codeDrafts a d := codeDrafts_congr fun t ht =>
    hhomes t (ht.mono fun i hi => hsub (List.mem_append_right _ hi))
  rw [h.new, codeDrafts_append, codeDrafts_append, hc, hd]

theorem startOf_widens {b : Nat} (hb : b ≤ p.blocks.size) : startOf a' q b =
    startOf a p b + if block < b then (codeDrafts a' added).length else 0 := by
  induction b with
  | zero => rfl
  | succ b ih =>
    rw [Generated.startOf_succ (hb.trans_eq h.size.symm), Generated.startOf_succ hb, ih (by omega)]
    -- only one block has grown
    by_cases heq : b = block
    · subst heq
      rw [codeDrafts_block h hhomes, h.old, codeDrafts_append, if_neg (Nat.lt_irrefl b),
        if_pos (Nat.lt_succ_self b)]
      simp only [List.length_append]
      omega
    · rw [codeDrafts_others h hhomes hb heq]
      have hlt : block < b ↔ block < b + 1 := by omega
      simp only [hlt]
      omega

theorem layout_widens : ∃ front back, layout a p = front ++ back ∧
    layout a' q = front ++ (codeDrafts a' added ++ back) ∧
    front.length = startOf a p block + (codeDrafts a c).length := by
  have hold := h.instructions_old
  have hfront : codeDrafts a' (p.codeBelow block ++ c) = codeDrafts a (p.codeBelow block ++ c) :=
    codeDrafts_congr fun t ht => hhomes t (ht.mono (by rw [hold]; exact List.subset_append_left _ _))
  have hback : codeDrafts a' (d ++ p.codeAbove block) = codeDrafts a (d ++ p.codeAbove block) :=
    codeDrafts_congr fun t ht => hhomes t (ht.mono (by rw [hold]; exact List.subset_append_right _ _))
  refine ⟨{ slot := .movReg Reg.context 1 } :: codeDrafts a (p.codeBelow block ++ c),
    codeDrafts a (d ++ p.codeAbove block), ?_, ?_, ?_⟩
  · rw [layout, hold, codeDrafts_append, List.cons_append]
  · rw [layout, h.instructions_new, codeDrafts_append, hfront, codeDrafts_append a' added, hback,
      List.cons_append]
  · rw [startOf_eq_codeBelow (Nat.le_of_lt h.lt), codeDrafts_append, List.length_cons,
      List.length_append]
    omega

theorem startOf_eq_movedGoal (hd : codeDrafts a d ≠ []) {b : Nat} (hb : b < p.blocks.size) :
    startOf a' q b = movedGoal (startOf a p block + (codeDrafts a c).length)
      (codeDrafts a' added).length (startOf a p b) := by
  have hpos := List.length_pos_of_ne_nil hd
  rw [startOf_widens h hhomes (Nat.le_of_lt hb), movedGoal]
  by_cases hlt : block < b
  · have hnext : startOf a p (block + 1) ≤ startOf a p b := startOf_mono hlt (Nat.le_of_lt hb)
    rw [Generated.startOf_succ h.lt, h.old, codeDrafts_append, List.length_append] at hnext
    rw [if_pos hlt, if_neg (by omega)]
  · have hbefore : startOf a p b ≤ startOf a p block :=
      startOf_mono (Nat.le_of_not_lt hlt) (Nat.le_of_lt h.lt)
    rw [if_neg hlt, if_pos (by omega), Nat.add_zero]

end

theorem aim_startOf {k : Nat} {x : Draft} {s : Slot}
    (h : aim ((List.range p.blocks.size).map (startOf a p)).toArray k x = .ok s) :
    (x.target = none ∧ s = x.slot) ∨ ∃ b < p.blocks.size, x.target = some b ∧
      k + 1 + s.off.toInt = startOf a p b ∧ s = { x.slot with off := s.off } := by
  obtain hplain | ⟨b, start, htarget, hstart, hoff, hs⟩ := aim_ok h
  · exact .inl hplain
  · rw [List.getElem?_toArray, List.getElem?_map] at hstart
    obtain ⟨b', hb', rfl⟩ := Option.map_eq_some_iff.1 hstart
    obtain ⟨hlt, rfl⟩ := List.getElem?_eq_some_iff.1 hb'
    rw [List.getElem_range] at hoff
    rw [List.length_range] at hlt
    exact .inr ⟨b, hlt, htarget, by omega, hs⟩

theorem Generated.widened (h : p.Widens q block c added d) (hp : Generated p a code)
    (hq : Generated q a' code') (hhomes : ∀ t, Mentions p.instructions t → a'.home t = a.home t)
    (hadded : codeDrafts a' added = slots.map draft) (hd : codeDrafts a d ≠ []) :
    Widened (startOf a p block + (codeDrafts a c).length) slots code code' := by
  obtain ⟨front, back, hold, hnew, hplace⟩ := layout_widens h hhomes
  have hcount : (codeDrafts a' added).length = slots.length := by rw [hadded, List.length_map]
  have hsize := hp.size
  have hsize' := hq.size
  rw [hold, List.length_append] at hsize
  rw [hnew, List.length_append, List.length_append, hcount] at hsize'
  rw [← hplace]
  refine ⟨by omega, by omega, fun k s hs => ?_, fun k s hs => ?_⟩
  · have hdraft : (layout a' q)[front.length + k]? = some (draft s) := by
      have hget : (slots.map draft)[k]? = some (draft s) := by rw [List.getElem?_map, hs]; rfl
      rw [hnew, List.getElem?_append_right (Nat.le_add_right _ _), Nat.add_sub_cancel_left,
        hadded, List.getElem?_append_left (List.getElem?_eq_some_iff.1 hget).1, hget]
    obtain ⟨s', haim, hs'⟩ := hq.slots _ _ hdraft
    obtain ⟨-, rfl⟩ | ⟨b, -, htarget, -⟩ := aim_startOf haim
    · exact hs'
    · cases htarget
  · have hk : k < (layout a p).length := by
      rw [← hp.size]
      exact (Array.getElem?_eq_some_iff.1 hs).1
    -- the draft of an old slot stands where the slot moves to
    obtain ⟨x, hx⟩ : ∃ x, (layout a p)[k]? = some x := ⟨_, List.getElem?_eq_getElem hk⟩
    have hx' : (layout a' q)[movedSlot front.length slots.length k]? = some x := by
      rw [hold] at hx
      rw [hnew, movedSlot]
      split
      · rename_i hlt
        rw [List.getElem?_append_left hlt] at hx ⊢
        exact hx
      · rename_i hge
        rw [List.getElem?_append_right (by omega)] at hx ⊢
        rw [List.getElem?_append_right (by omega), ← hx]
        congr 1
        omega
    obtain ⟨s₁, haim, hs₁⟩ := hp.slots k x hx
    obtain rfl : s₁ = s := Option.some.inj (hs₁.symm.trans hs)
    obtain ⟨s', haim', hs'⟩ := hq.slots _ x hx'
    refine ⟨s', hs', ?_⟩
    -- both slots come from one draft, so they are jumps to one block or equal
    obtain ⟨hnone, rfl⟩ | ⟨b, hb, htarget, hgoal, hslot⟩ := aim_startOf haim
    · obtain ⟨-, rfl⟩ | ⟨b, -, htarget, -⟩ := aim_startOf haim'
      · exact .inl rfl
      · rw [hnone] at htarget
        cases htarget
    · obtain ⟨hnone, -⟩ | ⟨b', hb', htarget', hgoal', hslot'⟩ := aim_startOf haim'
      · rw [hnone] at htarget
        cases htarget
      · obtain rfl : b = b' := Option.some.inj (htarget.symm.trans htarget')
        refine .inr ⟨by rw [hslot', hslot], _, hgoal, ?_⟩
        rw [hgoal', startOf_eq_movedGoal h hhomes hd hb, hcount, hplace]

end Bytecode

end TraceScript
