import TraceScript.Flow.TwoAddress
import TraceScript.Proofs.Blocks

namespace TraceScript.Flow

namespace Instruction

/-- The result of an arithmetic instruction is not its right operand, unless it changes its left
operand. -/
def KeepsOperand : Instruction → Prop
  | arith _ dst lhs rhs => lhs ≠ dst → rhs ≠ .temp dst
  | _ => True

theorem runAll_twoAddress {w : World} {i : Instruction} (h : i.KeepsOperand) (σ : State) :
    runAll w i.twoAddress σ = i.run w σ := by
  cases i with
  | arith op dst lhs rhs =>
    rw [twoAddress]
    split
    · rfl
    · rename_i hne
      have hrhs : rhs.value (σ.set dst (σ.temps lhs)).temps = rhs.value σ.temps := by
        refine Operand.value_congr fun u hu => σ.temps_set_of_ne _ ?_
        cases rhs with
        | temp t =>
          obtain rfl := List.mem_singleton.1 hu
          rintro rfl
          exact h hne rfl
        | imm v => cases hu
      simp only [runAll_cons, runAll_nil, run, hrhs, State.temps_set]
      simp [State.set]
  | _ => rfl

theorem isFinal_twoAddress {i j : Instruction} (h : j ∈ i.twoAddress) : j.isFinal = i.isFinal := by
  cases i with
  | arith op dst lhs rhs =>
    rw [twoAddress] at h
    split at h
    · obtain rfl := List.mem_singleton.1 h
      rfl
    · rcases List.mem_cons.1 h with rfl | h
      · rfl
      · obtain rfl := List.mem_singleton.1 h
        rfl
  | _ =>
    obtain rfl := List.mem_singleton.1 h
    rfl

theorem twoAddress_of_final {i : Instruction} (h : i.isFinal = true) : i.twoAddress = [i] := by
  cases i <;> first | rfl | cases h

theorem twoAddress_of_inPlace {i : Instruction}
    (h : ∀ op dst lhs rhs, i = .arith op dst lhs rhs → lhs = dst) : i.twoAddress = [i] := by
  cases i with
  | arith op dst lhs rhs => exact if_pos (h op dst lhs rhs rfl)
  | _ => rfl

theorem inPlace_or_split (i : Instruction) :
    (∀ op dst lhs rhs, i = .arith op dst lhs rhs → lhs = dst) ∨
      ∃ op dst lhs rhs, lhs ≠ dst ∧ i = .arith op dst lhs rhs ∧
        i.twoAddress = [.move dst lhs, .arith op dst dst rhs] := by
  cases i with
  | arith op dst lhs rhs =>
    by_cases hlhs : lhs = dst
    · refine .inl ?_
      rintro _ _ _ _ ⟨⟩
      exact hlhs
    · exact .inr ⟨op, dst, lhs, rhs, hlhs, rfl, if_neg hlhs⟩
  | _ => exact .inl nofun

theorem twoAddress_cases {i j : Instruction} {a b : List Instruction}
    (h : i.twoAddress = a ++ j :: b) :
    (a = [] ∧ j = i ∧ ∀ op dst lhs rhs, i = .arith op dst lhs rhs → lhs = dst) ∨
      ∃ op dst lhs rhs, i = .arith op dst lhs rhs ∧
        (a = [] ∧ j = .move dst lhs ∨ a = [.move dst lhs] ∧ j = .arith op dst dst rhs) := by
  have hsingle : ∀ {k : Instruction}, [k] = a ++ j :: b → a = [] ∧ j = k := by
    intro k hk
    cases a with
    | nil => exact ⟨rfl, (List.cons.inj hk).1.symm⟩
    | cons x a => cases a <;> cases hk
  cases i with
  | arith op dst lhs rhs =>
    rw [twoAddress] at h
    split at h
    · rename_i heq
      obtain ⟨ha, hj⟩ := hsingle h
      refine .inl ⟨ha, hj, ?_⟩
      rintro _ _ _ _ ⟨⟩
      exact heq
    · refine .inr ⟨op, dst, lhs, rhs, rfl, ?_⟩
      cases a with
      | nil => exact .inl ⟨rfl, (List.cons.inj h).1.symm⟩
      | cons x a =>
        obtain ⟨rfl, hrest⟩ := List.cons.inj h
        obtain ⟨rfl, rfl⟩ : a = [] ∧ j = .arith op dst dst rhs := by
          cases a with
          | nil => exact ⟨rfl, (List.cons.inj hrest).1.symm⟩
          | cons y a => cases a <;> cases hrest
        exact .inr ⟨rfl, rfl⟩
  | _ =>
    obtain ⟨ha, hj⟩ := hsingle h
    exact .inl ⟨ha, hj, nofun⟩

end Instruction

open Instruction

/-- A place in code that was expanded lies in the expansion of one instruction. -/
theorem flatMap_eq_append {α β : Type} {f : α → List β} {l : List α} {c d : List β} {j : β}
    (h : l.flatMap f = c ++ j :: d) :
    ∃ c' i d' a b, l = c' ++ i :: d' ∧ f i = a ++ j :: b ∧ c = c'.flatMap f ++ a ∧
      d = b ++ d'.flatMap f := by
  induction l generalizing c with
  | nil => cases c <;> cases h
  | cons x l ih =>
    rw [List.flatMap_cons] at h
    rcases List.append_eq_append_iff.1 h with ⟨e, rfl, he⟩ | ⟨e, hx, he⟩
    · obtain ⟨c', i, d', a, b, rfl, hi, rfl, rfl⟩ := ih he
      exact ⟨x :: c', i, d', a, b, rfl, hi, by simp, rfl⟩
    · cases e with
      | nil =>
        obtain ⟨c', i, d', a, b, rfl, hi, hc, rfl⟩ := ih (c := []) he.symm
        refine ⟨x :: c', i, d', a, b, rfl, hi, ?_, rfl⟩
        rw [List.flatMap_cons, List.append_assoc, ← hc, hx, List.append_nil, List.append_nil]
      | cons y e =>
        obtain ⟨rfl, rfl⟩ := List.cons.inj he
        exact ⟨[], x, l, c, e, rfl, hx, rfl, rfl⟩

theorem mem_defs {x : Temp} {c : List Instruction} : x ∈ defs c ↔ ∃ i ∈ c, i.def? = some x :=
  List.mem_filterMap

theorem mem_defs_twoAddress {x : Temp} {c : List Instruction} :
    x ∈ defs (c.flatMap Instruction.twoAddress) ↔ x ∈ defs c := by
  have hone : ∀ i : Instruction, x ∈ defs i.twoAddress ↔ i.def? = some x := by
    intro i
    cases i with
    | arith op dst lhs rhs =>
      rw [Instruction.twoAddress]
      split <;> simp [defs, def?, eq_comm]
    | call f dst => cases dst <;> simp [defs, Instruction.twoAddress, def?, eq_comm]
    | _ => simp [defs, Instruction.twoAddress, def?, eq_comm]
  simp only [mem_defs, List.mem_flatMap] at hone ⊢
  constructor
  · rintro ⟨j, ⟨i, hi, hj⟩, hd⟩
    exact ⟨i, hi, (hone i).1 ⟨j, hj, hd⟩⟩
  · rintro ⟨i, hi, hd⟩
    obtain ⟨j, hj, hd⟩ := (hone i).2 hd
    exact ⟨j, ⟨i, hi, hj⟩, hd⟩

/-- In two-address form, whatever is defined a second time is read by the instruction that does so,
and arithmetic changes its left operand. -/
structure Program.Ordered (p : Program) : Prop where
  isLocal : ∀ b, IsLocal (p.codeAt b)
  bounded : ∀ b, ∀ d ∈ defs (p.codeAt b), d < p.temps.size
  apart : ∀ b b' d, d ∈ defs (p.codeAt b) → d ∈ defs (p.codeAt b') → b = b'
  targets : ∀ b, ∀ i ∈ p.codeAt b, ∀ k : Nat, k ∈ i.targets → k < p.blocks.size
  redefined : ∀ b c i d, p.codeAt b = c ++ i :: d → ∀ x, i.def? = some x → x ∈ defs c → x ∈ i.uses
  inPlace : ∀ b, ∀ i ∈ p.codeAt b, ∀ op dst lhs rhs, i = .arith op dst lhs rhs → lhs = dst

namespace Program

theorem codeAt_twoAddress (p : Program) (b : Nat) :
    p.twoAddress.codeAt b = (p.codeAt b).flatMap Instruction.twoAddress := by
  simp only [codeAt, twoAddress, Array.getElem?_map]
  cases p.blocks[b]? with
  | none => rfl
  | some block => simp [Block.twoAddress]

theorem size_twoAddress (p : Program) : p.twoAddress.blocks.size = p.blocks.size :=
  Array.size_map

theorem inPlace_twoAddress (p : Program) (b : Nat) : ∀ i ∈ p.twoAddress.codeAt b,
    ∀ op dst lhs rhs, i = .arith op dst lhs rhs → lhs = dst := by
  intro j hj
  rw [codeAt_twoAddress] at hj
  obtain ⟨i, hi, hj⟩ := List.mem_flatMap.1 hj
  obtain ⟨a, e, heq⟩ := List.append_of_mem hj
  rcases twoAddress_cases heq with
    ⟨-, rfl, hlhs⟩ | ⟨op, dst, lhs, rhs, rfl, ⟨-, rfl⟩ | ⟨-, rfl⟩⟩
  · exact hlhs
  · exact nofun
  · rintro _ _ _ _ ⟨⟩
    rfl

/-- No arithmetic of the program has its result as its right operand, unless it changes its left
operand. -/
def KeepsOperands (p : Program) : Prop := ∀ b, ∀ i ∈ p.codeAt b, i.KeepsOperand

namespace Formed

variable {p : Program}

theorem not_mem_defs (h : p.Formed) {b : Nat} {c d : List Instruction} {i : Instruction}
    (hcode : p.codeAt b = c ++ i :: d) {x : Temp} (hx : i.def? = some x) : x ∉ defs c := by
  have hnodup := h.nodup b
  have hcons : defs (i :: d) = x :: defs d := List.filterMap_cons_some hx
  rw [hcode, defs_append, hcons] at hnodup
  exact fun hmem => (List.nodup_append.1 hnodup).2.2 x hmem x List.mem_cons_self rfl

theorem keepsOperands (h : p.Formed) : p.KeepsOperands := by
  intro b i hi
  obtain ⟨c, d, hcode⟩ := List.append_of_mem hi
  cases i with
  | arith op dst lhs rhs =>
    rintro - rfl
    have hused : dst ∈ defs c :=
      h.isLocal b _ _ _ hcode dst (List.mem_cons_of_mem _ List.mem_cons_self)
    exact h.not_mem_defs hcode rfl hused
  | _ => trivial

theorem ordered (h : p.Formed) : p.twoAddress.Ordered := by
  constructor
  case isLocal =>
    intro b c₂ j d₂ hcode u hu
    rw [codeAt_twoAddress] at hcode
    obtain ⟨c, i, d, a, e, hpc, hi, rfl, -⟩ := flatMap_eq_append hcode
    have hlocal := h.isLocal b c i d hpc
    rw [defs_append, List.mem_append, mem_defs_twoAddress]
    rcases twoAddress_cases hi with ⟨-, rfl, -⟩ | ⟨op, dst, lhs, rhs, rfl, ⟨-, rfl⟩ | ⟨rfl, rfl⟩⟩
    · exact .inl (hlocal u hu)
    · obtain rfl := List.mem_singleton.1 hu
      exact .inl (hlocal u List.mem_cons_self)
    · rcases List.mem_cons.1 hu with rfl | hu
      · exact .inr List.mem_cons_self
      · exact .inl (hlocal u (List.mem_cons_of_mem _ hu))
  case bounded =>
    intro b d hd
    rw [codeAt_twoAddress, mem_defs_twoAddress] at hd
    exact h.bounded b d hd
  case apart =>
    intro b b' d hd hd'
    rw [codeAt_twoAddress, mem_defs_twoAddress] at hd hd'
    exact h.apart b b' d hd hd'
  case targets =>
    intro b j hj k hk
    rw [codeAt_twoAddress] at hj
    obtain ⟨i, hi, hj⟩ := List.mem_flatMap.1 hj
    rw [size_twoAddress]
    obtain ⟨a, e, heq⟩ := List.append_of_mem hj
    rcases twoAddress_cases heq with ⟨-, rfl, -⟩ | ⟨op, dst, lhs, rhs, rfl, ⟨-, rfl⟩ | ⟨-, rfl⟩⟩
    · exact h.targets b j hi k hk
    · cases hk
    · cases hk
  case redefined =>
    intro b c₂ j d₂ hcode x hx hmem
    rw [codeAt_twoAddress] at hcode
    obtain ⟨c, i, d, a, e, hpc, hi, rfl, -⟩ := flatMap_eq_append hcode
    rw [defs_append, List.mem_append, mem_defs_twoAddress] at hmem
    rcases twoAddress_cases hi with
      ⟨rfl, rfl, -⟩ | ⟨op, dst, lhs, rhs, rfl, ⟨rfl, rfl⟩ | ⟨rfl, rfl⟩⟩
    · exact (h.not_mem_defs hpc hx (hmem.resolve_right nofun)).elim
    · exact (h.not_mem_defs hpc hx (hmem.resolve_right nofun)).elim
    · obtain rfl := Option.some.inj hx
      exact List.mem_cons_self
  case inPlace => exact p.inPlace_twoAddress

end Formed

/-- The place in two-address form of a place in a program. -/
def shifted (p : Program) (c : Config) : Config :=
  { c with index := (((p.codeAt c.block).take c.index).flatMap Instruction.twoAddress).length }

theorem code_of_fetch {p : Program} {b k : Nat} {i : Instruction} (h : p.fetch b k = some i) :
    p.codeAt b = (p.codeAt b).take k ++ i :: (p.codeAt b).drop (k + 1) ∧
      ((p.codeAt b).take k).length = k := by
  rw [fetch_eq] at h
  obtain ⟨hk, rfl⟩ := List.getElem?_eq_some_iff.1 h
  refine ⟨?_, List.length_take_of_le (Nat.le_of_lt hk)⟩
  rw [← List.drop_eq_getElem_cons hk, List.take_append_drop]

theorem Extends.refl (p : Program) : p.Extends p := fun _ => List.prefix_rfl

theorem KeepsOperands.reaches_step {w : World} {p : Program} (h : p.KeepsOperands) {c d : Config}
    (hstep : p.step w c = some d) : p.twoAddress.Reaches w (p.shifted c) (p.shifted d) := by
  obtain ⟨b, k, σ⟩ := c
  cases hi : p.fetch b k with
  | none =>
    rw [step, hi] at hstep
    cases hstep
  | some i =>
    obtain ⟨hcode, hlen⟩ := code_of_fetch hi
    have hcode₂ := p.codeAt_twoAddress b
    rw [hcode, List.flatMap_append, List.flatMap_cons] at hcode₂
    cases hfinal : i.isFinal with
    | false =>
      rw [step_straight hi hfinal] at hstep
      obtain rfl := Option.some.inj hstep
      have hreach := (Extends.refl p.twoAddress).reaches (w := w) hcode₂
        (fun j hj => (isFinal_twoAddress hj).trans hfinal) σ
      have hmem : i ∈ p.codeAt b := List.mem_of_getElem? ((p.fetch_eq b k).symm.trans hi)
      rw [runAll_twoAddress (h b i hmem)] at hreach
      have hnext : (p.codeAt b).take (k + 1) = (p.codeAt b).take k ++ [i] := by
        rw [List.take_add_one, ← fetch_eq, hi]
        rfl
      simpa [shifted, hnext] using hreach
    | true =>
      rw [twoAddress_of_final hfinal] at hcode₂
      have hfetch := (Extends.refl p.twoAddress).fetch hcode₂
      refine .single ?_
      rw [step, hi] at hstep
      rw [step, shifted, hfetch]
      cases i with
      | jump target =>
        obtain rfl := Option.some.inj hstep
        simp [shifted]
      | branch cond yes no =>
        obtain rfl := Option.some.inj hstep
        simp [shifted]
      | ret => cases hstep
      | _ => cases hfinal

theorem KeepsOperands.reaches_twoAddress {w : World} {p : Program} (h : p.KeepsOperands)
    {c d : Config} (hreach : p.Reaches w c d) :
    p.twoAddress.Reaches w (p.shifted c) (p.shifted d) := by
  induction hreach with
  | refl => exact .refl
  | tail _ hstep ih => exact ih.trans (h.reaches_step hstep)

theorem KeepsOperands.finishes_twoAddress {w : World} {p : Program} (h : p.KeepsOperands)
    {σ σ' : State} (hrun : p.Finishes w σ σ') : p.twoAddress.Finishes w σ σ' := by
  obtain ⟨b, k, hreach, hret⟩ := hrun
  refine ⟨b, _, h.reaches_twoAddress hreach, ?_⟩
  obtain ⟨hcode, -⟩ := code_of_fetch hret
  have hcode₂ := p.codeAt_twoAddress b
  rw [hcode, List.flatMap_append, List.flatMap_cons] at hcode₂
  exact (Extends.refl p.twoAddress).fetch hcode₂

theorem Formed.finishes_twoAddress {w : World} {p : Program} (h : p.Formed) {σ σ' : State}
    (hrun : p.Finishes w σ σ') : p.twoAddress.Finishes w σ σ' :=
  h.keepsOperands.finishes_twoAddress hrun

end Program

end TraceScript.Flow
