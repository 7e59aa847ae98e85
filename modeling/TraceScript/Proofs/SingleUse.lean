import Mathlib.Algebra.BigOperators.Group.Finset.Piecewise
import Mathlib.Algebra.Order.BigOperators.Group.Finset
import TraceScript.Proofs.Graph

namespace TraceScript.Flow

open Instruction Evaluation

/-- Every temporary is defined once in the program, and each block reads once whatever it defines. -/
structure Program.SingleUse (p : Program) : Prop where
  once : ∑ b ∈ Finset.range p.blocks.size, (↑(defs (p.codeAt b)) : Multiset Temp) =
    Multiset.range p.temps.size
  spent : ∀ b, Spends 0 (p.codeAt b) 0

namespace Program.SingleUse

variable {p q : Program}

theorem extend (h : p.SingleUse) {b n : Nat} {code : List Instruction} (hb : b < p.blocks.size)
    (hcode : ∀ k, q.codeAt k = if k = b then p.codeAt k ++ code else p.codeAt k)
    (hsize : p.blocks.size ≤ q.blocks.size) (hdefs : defs code = List.range' p.temps.size n)
    (htemps : q.temps.size = p.temps.size + n) (hspends : Spends 0 code 0) : q.SingleUse where
  once := by
    have hnew : ∀ k, (↑(defs (q.codeAt k)) : Multiset Temp) =
        ↑(defs (p.codeAt k)) + if k = b then ↑(defs code) else 0 := by
      intro k
      rw [hcode]
      split
      · rw [defs_append, Multiset.coe_add]
      · rw [add_zero]
    have hold : ∑ k ∈ Finset.range q.blocks.size, (↑(defs (p.codeAt k)) : Multiset Temp) =
        Multiset.range p.temps.size := by
      rw [← h.once]
      refine (Finset.sum_subset (Finset.range_subset_range.2 hsize) fun k _ hk => ?_).symm
      rw [codeAt, Array.getElem?_eq_none (Nat.le_of_not_lt fun hlt => hk (Finset.mem_range.2 hlt))]
      rfl
    have hmem : b ∈ Finset.range q.blocks.size := Finset.mem_range.2 (hb.trans_le hsize)
    rw [Finset.sum_congr rfl fun k _ => hnew k, Finset.sum_add_distrib, hold, Finset.sum_ite_eq',
      if_pos hmem, hdefs, htemps, Multiset.range, Multiset.range, Multiset.coe_add,
      List.range_eq_range', List.range_eq_range']
    congr 1
    have happend := List.range'_append_1 (s := 0) (m := p.temps.size) (n := n)
    rwa [Nat.zero_add] at happend
  spent k := by
    rw [hcode]
    split
    · exact (h.spent k).append hspends
    · exact h.spent k

end Program.SingleUse

section

variable {s s' : Builder}

theorem singleUse_of_balanced {m : Build Unit} (hm : Balanced m 0 fun _ => 0) (hs : s.Open)
    (h : m s = .ok ((), s')) (hp : s.program.SingleUse) : s'.program.SingleUse := by
  obtain ⟨c, fs, rfl, -, hdefs, hspends⟩ := hm s () s' h
  have hsize : (s.append c).program.blocks.size = s.program.blocks.size := s.size_append c
  exact hp.extend hs.current (Builder.codeAt_append hs.current c) hsize.ge hdefs (s.count_append c)
    hspends

theorem singleUse_leaves {s₁ : Builder} {c : Chunk} {fs : Array EventFormat} {i : Instruction}
    {size next : Nat} (h₁ : s₁ = (s.append c).announce fs) (hleaves : s₁.Leaves s' i size next)
    (hs : s.Open) (hsize : s.size ≤ size)
    (hdefs : defs c.code = List.range' s.count c.temps.length)
    (hspends : Spends 0 c.code ↑i.uses) (hdef : i.def? = none) (hp : s.program.SingleUse) :
    s'.program.SingleUse := by
  subst h₁
  have hcode : ∀ k, s'.codeAt k =
      if k = s.here then s.codeAt k ++ (c.code ++ [i]) else s.codeAt k := by
    intro k
    have hchunk : ((s.append c).announce fs).codeAt k = _ := Builder.codeAt_append hs.current c k
    have hhere : ((s.append c).announce fs).here = s.here := rfl
    rw [hleaves.code, hchunk, hhere]
    split
    · rw [List.append_assoc]
    · rfl
  have hall : defs (c.code ++ [i]) = List.range' s.count c.temps.length := by
    rw [defs_append, hdefs]
    simp [defs, hdef]
  have hlast := Spends.one i 0
  rw [hdef, add_zero] at hlast
  refine hp.extend hs.current hcode ?_ hall ?_ (hspends.append hlast)
  · exact hsize.trans_eq hleaves.size.symm
  · exact hleaves.count.trans (s.count_append c)

theorem singleUse_ends {i : Instruction} {next : Nat} (hleaves : s.Leaves s' i s.size next)
    (hs : s.Open) (huses : i.uses = []) (hdef : i.def? = none) (hp : s.program.SingleUse) :
    s'.program.SingleUse := by
  have hempty : s = (s.append {}).announce #[] := by
    rw [s.append_empty, Builder.announce, Array.append_empty]
  refine singleUse_leaves hempty hleaves hs (Nat.le_refl _) rfl ?_ hdef hp
  rw [huses]
  rfl

end

theorem singleUse_branch {t : Table} {condition : Node} {yes no : List Node}
    (hyes : Keeps Program.SingleUse (statements t yes))
    (hno : Keeps Program.SingleUse (statements t no)) :
    Keeps Program.SingleUse (branch t condition (statements t yes) (statements t no)) := by
  refine keeps_branch (fun s s₁ cond hs hs₁ h₁ hp => ?_) (fun s merge next hs => ?_) hyes hno
  · obtain ⟨c, fs, rfl, -, hdefs, hspends⟩ := (balanced_evaluation t condition).scalar s cond s₁ h₁
    exact singleUse_leaves rfl (Builder.fork_leaves hs₁.current cond) hs
      (Nat.le_add_right_of_le (s.size_append c).ge) hdefs hspends rfl hp
  · exact singleUse_ends (Builder.leave_leaves hs.current ..) hs rfl rfl

mutual

theorem singleUse_statement (t : Table) : ∀ n : Node, Keeps Program.SingleUse (statement t n)
  | .declaration _ target value => fun _ _ =>
    singleUse_of_balanced (balanced_declaration t target value)
  | .assignment _ op target value => fun _ _ =>
    singleUse_of_balanced (balanced_assignment t op target value)
  | .cond _ _ yes no => singleUse_branch (singleUse_statements t yes) (singleUse_statements t no)
  | .unroll _ count body => keeps_times (singleUse_statements t body) count
  | .call tag function args => fun _ _ =>
    singleUse_of_balanced (balanced_callStatement t tag function args)
  | .var .. | .mapAccess .. | .int .. | .text .. | .binary .. | .record .. => nofun

theorem singleUse_statements (t : Table) :
    ∀ ns : List Node, Keeps Program.SingleUse (statements t ns)
  | [] => keeps_nil
  | n :: ns => keeps_cons (singleUse_statement t n) (singleUse_statements t ns)

end

theorem ofProbe_singleUse {t : Table} {p : Probe} {built : Built} (h : ofProbe t p = .ok built) :
    built.program.SingleUse := by
  obtain ⟨s, hs, hbuilt⟩ := ofProbe_statements h
  have hopen := Builder.open_start p.name.value
  have hstart : (Builder.start p.name.value).program.SingleUse := by
    refine ⟨rfl, fun b => ?_⟩
    rw [Builder.codeAt_start]
    rfl
  have hopen' := ((shaped_statements t p.body _ s hs).opens hopen).1
  have hret : s.Leaves (s.finish .ret) .ret s.size s.here :=
    ⟨Builder.codeAt_finish hopen'.current .ret, s.size_finish .ret, rfl, s.count_finish .ret⟩
  rw [hbuilt]
  exact singleUse_ends hret hopen' rfl rfl (singleUse_statements t p.body _ s hopen hs hstart)

namespace Program.SingleUse

variable {p : Program}

theorem sum_le (h : p.SingleUse) (bs : Finset Nat) :
    ∑ b ∈ bs, (↑(defs (p.codeAt b)) : Multiset Temp) ≤ Multiset.range p.temps.size := by
  rw [← h.once, ← Finset.sum_filter_add_sum_filter_not bs (· < p.blocks.size)]
  have houtside : ∑ b ∈ bs with ¬b < p.blocks.size, (↑(defs (p.codeAt b)) : Multiset Temp) = 0 := by
    refine Finset.sum_eq_zero fun b hb => ?_
    rw [codeAt, Array.getElem?_eq_none (Nat.le_of_not_lt (Finset.mem_filter.1 hb).2)]
    rfl
  rw [houtside, add_zero]
  exact Finset.sum_le_sum_of_subset fun b hb => Finset.mem_range.2 (Finset.mem_filter.1 hb).2

theorem nodup (h : p.SingleUse) (b : Nat) : (defs (p.codeAt b)).Nodup := by
  have hle := h.sum_le {b}
  rw [Finset.sum_singleton] at hle
  exact Multiset.coe_nodup.1 (Multiset.nodup_of_le hle (Multiset.nodup_range _))

theorem bounded (h : p.SingleUse) (b : Nat) : ∀ d ∈ defs (p.codeAt b), d < p.temps.size := by
  intro d hd
  have hle := h.sum_le {b}
  rw [Finset.sum_singleton] at hle
  exact Multiset.mem_range.1 (Multiset.mem_of_le hle hd)

theorem apart (h : p.SingleUse) {b b' : Nat} {d : Temp} (hd : d ∈ defs (p.codeAt b))
    (hd' : d ∈ defs (p.codeAt b')) : b = b' := by
  by_contra hne
  have hle := h.sum_le {b, b'}
  rw [Finset.sum_pair hne, Multiset.coe_add] at hle
  have hnodup := Multiset.coe_nodup.1 (Multiset.nodup_of_le hle (Multiset.nodup_range _))
  exact (List.nodup_append.1 hnodup).2.2 d hd d hd' rfl

theorem exists_block (h : p.SingleUse) {t : Temp} (ht : t < p.temps.size) :
    ∃ b, t ∈ defs (p.codeAt b) := by
  have hmem := Multiset.mem_range.2 ht
  rw [← h.once, Multiset.mem_sum] at hmem
  obtain ⟨b, -, hb⟩ := hmem
  exact ⟨b, hb⟩

theorem isLocal (h : p.SingleUse) (b : Nat) : IsLocal (p.codeAt b) := (h.spent b).isLocal

end Program.SingleUse

theorem ofProbe_formed {t : Table} {p : Probe} {built : Built} (h : ofProbe t p = .ok built) :
    built.program.Formed := by
  have huse := ofProbe_singleUse h
  obtain ⟨s, hshape, hprogram⟩ := ofProbe_shaped h
  refine ⟨huse.isLocal, huse.bounded, huse.nodup, fun _ _ _ => huse.apart, fun b i hi k hk => ?_⟩
  rw [hprogram] at hi ⊢
  have hgoes : (s.finish .ret).program.Goes b k := ⟨i, hi, hk⟩
  exact (hshape.goes_lt (hshape.goes_finish.1 hgoes)).2.trans_eq (s.size_finish .ret).symm

end TraceScript.Flow
