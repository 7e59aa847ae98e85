import Mathlib
import TraceScript.Proofs.LivePaths
import TraceScript.Proofs.SingleUse

namespace TraceScript.Flow

open Instruction

theorem defs_eq_flatMap (code : List Instruction) :
    defs code = code.flatMap fun i => i.def?.toList := by
  induction code with
  | nil => rfl
  | cons i code ih =>
    rw [List.flatMap_cons, ← ih]
    cases hd : i.def? <;> simp [defs, hd]

theorem place_unique {f : Instruction → List Temp} {c c' d d' : List Instruction}
    {i i' : Instruction} {t : Temp} (hnodup : ((c ++ i :: d).flatMap f).Nodup)
    (heq : c ++ i :: d = c' ++ i' :: d') (ht : t ∈ f i) (ht' : t ∈ f i') : c = c' ∧ i = i' := by
  -- If one place came before the other, the temporary would stand at both.
  have hbefore : ∀ {a e g : List Instruction} {x y : Instruction},
      ((a ++ x :: (e ++ y :: g)).flatMap f).Nodup → t ∈ f x → t ∉ f y := by
    intro a e g x y h hx hy
    rw [List.flatMap_append, List.flatMap_cons] at h
    have hrest := (List.nodup_append.1 h).2.1
    refine (List.nodup_append.1 hrest).2.2 t hx t ?_ rfl
    exact List.mem_flatMap.2 ⟨y, by simp, hy⟩
  rcases List.append_eq_append_iff.1 heq with ⟨e, rfl, he⟩ | ⟨e, rfl, he⟩
  · cases e with
    | nil => exact ⟨(List.append_nil c).symm, (List.cons.inj he).1⟩
    | cons x e =>
      obtain ⟨rfl, rfl⟩ := List.cons.inj he
      exact (hbefore hnodup ht ht').elim
  · cases e with
    | nil => exact ⟨List.append_nil c', (List.cons.inj he).1.symm⟩
    | cons x e =>
      obtain ⟨rfl, rfl⟩ := List.cons.inj he
      rw [List.append_assoc, List.cons_append] at hnodup
      exact (hbefore hnodup ht' ht).elim

theorem def_place_unique {c c' d d' : List Instruction} {i i' : Instruction} {t : Temp}
    (hnodup : (defs (c ++ i :: d)).Nodup) (heq : c ++ i :: d = c' ++ i' :: d')
    (ht : i.def? = some t) (ht' : i'.def? = some t) : c = c' ∧ i = i' := by
  rw [defs_eq_flatMap] at hnodup
  exact place_unique (t := t) hnodup heq (by simp [ht]) (by simp [ht'])

theorem twoAddress_head (i : Instruction) : ∃ x g, i.twoAddress = x :: g ∧ x.def? = i.def? := by
  rcases inPlace_or_split i with hi | ⟨op, dst, lhs, rhs, -, rfl, hsplit⟩
  · exact ⟨i, [], twoAddress_of_inPlace hi, rfl⟩
  · exact ⟨_, _, hsplit, rfl⟩

theorem def_of_twoAddress {i x : Instruction} {e g : List Instruction} {t : Temp}
    (h : i.twoAddress = e ++ x :: g) (hx : x.def? = some t) :
    i.def? = some t ∧ (e = [] ∨ ∃ op src rhs, i = .arith op t src rhs ∧ e = [.move t src] ∧
      x = .arith op t t rhs) := by
  rcases twoAddress_cases h with ⟨rfl, rfl, -⟩ | ⟨op, dst, lhs, rhs, rfl, ⟨rfl, rfl⟩ | ⟨rfl, rfl⟩⟩
  · exact ⟨hx, .inl rfl⟩
  · exact ⟨hx, .inl rfl⟩
  · obtain rfl := Option.some.inj hx
    exact ⟨rfl, .inr ⟨op, lhs, rhs, rfl, rfl, rfl⟩⟩

theorem use_of_twoAddress {i x : Instruction} {e g : List Instruction} {t : Temp}
    (h : i.twoAddress = e ++ x :: g) (hx : t ∈ x.uses) :
    t ∈ i.uses ∨ i.def? = some t ∧ e.length = 1 := by
  rcases twoAddress_cases h with ⟨-, rfl, -⟩ | ⟨op, dst, lhs, rhs, rfl, ⟨-, rfl⟩ | ⟨rfl, rfl⟩⟩
  · exact .inl hx
  · obtain rfl := List.mem_singleton.1 hx
    exact .inl List.mem_cons_self
  · rcases List.mem_cons.1 hx with rfl | hx
    · exact .inr ⟨rfl, rfl⟩
    · exact .inl (List.mem_cons_of_mem _ hx)

theorem use_place {i : Instruction} {t : Temp} (ht : t ∈ i.uses) (hdef : i.def? ≠ some t)
    (hnodup : i.uses.Nodup) :
    ∃ e x g, i.twoAddress = e ++ x :: g ∧ t ∈ x.uses ∧
      ∀ e' x' g', i.twoAddress = e' ++ x' :: g' → t ∈ x'.uses → e' = e := by
  rcases inPlace_or_split i with hi | ⟨op, dst, lhs, rhs, hne, rfl, hsplit⟩
  · have htwo := twoAddress_of_inPlace hi
    refine ⟨[], i, [], htwo, ht, fun e' x' g' h' _ => ?_⟩
    rw [htwo] at h'
    cases e' with
    | nil => rfl
    | cons y e' => cases e' <;> cases h'
  · obtain ⟨hlhs, -⟩ := List.nodup_cons.1 hnodup
    have hdst : t ≠ dst := fun heq => hdef (congrArg some heq.symm)
    -- The left operand is read by the move and the right one by the arithmetic.
    rcases List.mem_cons.1 ht with rfl | hrhs
    · refine ⟨[], _, _, hsplit, List.mem_cons_self, fun e' x' g' h' hx' => ?_⟩
      rcases twoAddress_cases h' with
        ⟨rfl, -⟩ | ⟨_, _, _, _, heq, ⟨rfl, -⟩ | ⟨-, rfl⟩⟩
      · rfl
      · rfl
      · cases heq
        exact ((List.mem_cons.1 hx').elim hdst hlhs).elim
    · refine ⟨[.move dst lhs], _, _, hsplit, List.mem_cons_of_mem _ hrhs, fun e' x' g' h' hx' => ?_⟩
      rcases twoAddress_cases h' with
        ⟨-, -, hkeep⟩ | ⟨_, _, _, _, heq, ⟨-, rfl⟩ | ⟨rfl, -⟩⟩
      · exact (hne (hkeep _ _ _ _ rfl)).elim
      · cases heq
        obtain rfl := List.mem_singleton.1 hx'
        exact (hlhs hrhs).elim
      · cases heq
        rfl

/-- A temporary is given its value at the first place, read behind it and up to the last place, and
given another value only by arithmetic right behind the move that was split from it. -/
structure Lifetime (source code : List Instruction) (t : Temp) (first last : Nat) : Prop where
  lt : first < last
  starts : ∃ c i d, code = c ++ i :: d ∧ c.length = first ∧ i.def? = some t
  ends : ∃ c i d, code = c ++ i :: d ∧ c.length = last ∧ t ∈ i.uses
  reads : ∀ c i d, code = c ++ i :: d → t ∈ i.uses → first < c.length ∧ c.length ≤ last
  writes : ∀ c i d, code = c ++ i :: d → i.def? = some t → c.length = first ∨
    ∃ c' op src rhs, c = c' ++ [.move t src] ∧ c'.length = first ∧ i = .arith op t t rhs ∧
      .arith op t src rhs ∈ source

theorem exists_places {code : List Instruction} (hspends : Spends 0 code 0) {t : Temp}
    (ht : t ∈ defs code) :
    ∃ a i m j d, code = (a ++ i :: m) ++ j :: d ∧ i.def? = some t ∧ t ∈ j.uses := by
  have hbalance := hspends.balance
  rw [zero_add, add_zero] at hbalance
  have hread : t ∈ reads code := (Multiset.coe_eq_coe.1 hbalance).subset ht
  obtain ⟨j, hj, htj⟩ := List.mem_flatMap.1 hread
  obtain ⟨c, d, rfl⟩ := List.append_of_mem hj
  obtain ⟨i, hi, hdef⟩ := mem_defs.1 (hspends.isLocal c j d rfl t htj)
  obtain ⟨a, m, rfl⟩ := List.append_of_mem hi
  exact ⟨a, i, m, j, d, rfl, hdef, htj⟩

theorem exists_lifetime {code : List Instruction} (hnodup : (defs code).Nodup)
    (hspends : Spends 0 code 0) {t : Temp} (ht : t ∈ defs code) :
    ∃ first last, Lifetime code (code.flatMap Instruction.twoAddress) t first last := by
  have hbalance := hspends.balance
  rw [zero_add, add_zero] at hbalance
  have hreads : (reads code).Nodup := (Multiset.coe_eq_coe.1 hbalance).nodup hnodup
  obtain ⟨a, i, m, j, d, hcode, hi, hj⟩ := exists_places hspends ht
  have hdefPlace : ∀ {c' i' d'}, code = c' ++ i' :: d' → i'.def? = some t → a = c' ∧ i = i' := by
    intro c' i' d' hcode' hi'
    rw [hcode, List.append_assoc, List.cons_append] at hnodup hcode'
    exact def_place_unique hnodup hcode' hi hi'
  have husePlace : ∀ {c' j' d'}, code = c' ++ j' :: d' → t ∈ j'.uses →
      a ++ i :: m = c' ∧ j = j' := by
    intro c' j' d' hcode' hj'
    rw [hcode] at hreads hcode'
    exact place_unique hreads hcode' hj hj'
  have hnot : j.def? ≠ some t := by
    intro hdef
    have hlen := congrArg List.length (hdefPlace hcode hdef).1
    simp at hlen
  have huses : j.uses.Nodup := by
    rw [hcode, Flow.reads, List.flatMap_append, List.flatMap_cons] at hreads
    exact (List.nodup_append.1 (List.nodup_append.1 hreads).2.1).1
  obtain ⟨e, x, g, htwo, hx, honly⟩ := use_place hj hnot huses
  obtain ⟨x₀, g₀, hhead, hx₀⟩ := twoAddress_head i
  have hcode₂ : code.flatMap Instruction.twoAddress =
      ((a ++ i :: m).flatMap Instruction.twoAddress ++ e) ++
        x :: (g ++ d.flatMap Instruction.twoAddress) := by
    rw [hcode, List.flatMap_append, List.flatMap_cons, htwo]
    simp
  have hlength : ((a ++ i :: m).flatMap Instruction.twoAddress).length =
      (a.flatMap Instruction.twoAddress).length + i.twoAddress.length +
        (m.flatMap Instruction.twoAddress).length := by
    rw [List.flatMap_append, List.flatMap_cons, List.length_append, List.length_append,
      Nat.add_assoc]
  have hpos : 0 < i.twoAddress.length := by
    rw [hhead]
    exact Nat.zero_lt_succ _
  refine ⟨(a.flatMap Instruction.twoAddress).length,
    ((a ++ i :: m).flatMap Instruction.twoAddress ++ e).length, ?_, ?_, ?_, ?_, ?_⟩
  · rw [List.length_append]
    omega
  · refine ⟨_, x₀, g₀ ++ (m ++ j :: d).flatMap Instruction.twoAddress, ?_, rfl, hx₀.trans hi⟩
    rw [hcode, List.append_assoc, List.cons_append, List.flatMap_append, List.flatMap_cons, hhead,
      List.cons_append]
  · exact ⟨_, x, _, hcode₂, rfl, hx⟩
  · intro c₂ x' d₂ hplace hx'
    obtain ⟨c', y, d', e', g', hcode', hy, rfl, -⟩ := flatMap_eq_append hplace
    rcases use_of_twoAddress hy hx' with huse | ⟨hdef, hsecond⟩
    · obtain ⟨rfl, rfl⟩ := husePlace hcode' huse
      obtain rfl := honly e' x' g' hy hx'
      refine ⟨?_, Nat.le_refl _⟩
      rw [List.length_append]
      omega
    · -- The arithmetic behind the move reads the temporary too.
      obtain ⟨rfl, rfl⟩ := hdefPlace hcode' hdef
      have htwo' : i.twoAddress.length = e'.length + (g'.length + 1) := by
        rw [hy, List.length_append, List.length_cons]
      rw [List.length_append, List.length_append]
      omega
  · intro c₂ x' d₂ hplace hx'
    obtain ⟨c', y, d', e', g', hcode', hy, rfl, -⟩ := flatMap_eq_append hplace
    obtain ⟨hdef, hsplit⟩ := def_of_twoAddress hy hx'
    obtain ⟨rfl, rfl⟩ := hdefPlace hcode' hdef
    rcases hsplit with rfl | ⟨op, src, rhs, rfl, rfl, rfl⟩
    · exact .inl (by rw [List.append_nil])
    · refine .inr ⟨_, op, src, rhs, rfl, rfl, rfl, ?_⟩
      rw [hcode']
      exact List.mem_append_right _ List.mem_cons_self

namespace Lifetime

variable {code code' : List Instruction} {t : Temp} {first last : Nat}

theorem mem_defs (h : Lifetime code code' t first last) :
    t ∈ defs code' := by
  obtain ⟨c, i, d, rfl, -, hi⟩ := h.starts
  exact Flow.mem_defs.2 ⟨i, by simp, hi⟩

theorem readsFirst_drop_iff (h : Lifetime code code' t first last) {k : Nat} :
    ReadsFirst (code'.drop (k + 1)) t ↔ first ≤ k ∧ k < last := by
  constructor
  · rintro ⟨c, i, d, hdrop, hu, hd⟩
    have hcode : code' = (code'.take (k + 1) ++ c) ++ i :: d := by
      rw [List.append_assoc, ← hdrop, List.take_append_drop]
    have htake : (code'.take (k + 1)).length = k + 1 := by
      have hlen := congrArg List.length hdrop
      rw [List.length_drop, List.length_append, List.length_cons] at hlen
      exact List.length_take_of_le (by omega)
    obtain ⟨hlt, hle⟩ := h.reads _ i d hcode hu
    rw [List.length_append, htake] at hlt hle
    refine ⟨?_, by omega⟩
    -- Otherwise the temporary would get its value between the place and the read.
    by_contra hgt
    obtain ⟨c₀, i₀, d₀, hcode₀, hlen₀, hdef₀⟩ := h.starts
    have hat : code'[first]? = some i₀ := by
      rw [hcode₀, ← hlen₀]
      simp
    rw [hcode, List.getElem?_append_left (by rw [List.length_append, htake]; exact hlt),
      List.getElem?_append_right (by omega)] at hat
    exact hd (Flow.mem_defs.2 ⟨i₀, List.mem_of_getElem? hat, hdef₀⟩)
  · rintro ⟨hle, hlt⟩
    obtain ⟨c, i, d, rfl, hlen, hu⟩ := h.ends
    have hdrop : (c ++ i :: d).drop (k + 1) = c.drop (k + 1) ++ i :: d :=
      List.drop_append_of_le_length (by omega)
    rw [hdrop]
    by_cases hd : t ∈ defs (c.drop (k + 1))
    · -- Only the arithmetic behind a move writes again, and it reads what the move has written.
      obtain ⟨i', hi', hdef⟩ := Flow.mem_defs.1 hd
      obtain ⟨e, g, heq⟩ := List.append_of_mem hi'
      have hcode : c ++ i :: d = (c.take (k + 1) ++ e) ++ i' :: (g ++ i :: d) := by
        conv =>
          lhs
          rw [← List.take_append_drop (k + 1) c, heq]
        simp
      have htake : (c.take (k + 1)).length = k + 1 := List.length_take_of_le (by omega)
      rcases h.writes _ i' _ hcode hdef with hfirst | ⟨c', op, src, rhs, hmove, hfirst, rfl, -⟩
      · rw [List.length_append, htake] at hfirst
        omega
      · have hsecond := congrArg List.length hmove
        rw [List.length_append, htake, List.length_append, hfirst, List.length_singleton] at hsecond
        obtain rfl : e = [] := List.eq_nil_of_length_eq_zero (by omega)
        exact ⟨[], _, g ++ i :: d, by rw [heq]; rfl, List.mem_cons_self, nofun⟩
    · exact ⟨_, i, d, rfl, hu, hd⟩

end Lifetime

namespace Numbering

variable {n : Numbering}

def lastUse (n : Numbering) (t : Temp) : Option Nat := n.temps[t]?.bind TempInfo.lastUse

theorem lastUse_define (n : Numbering) (d : Option Temp) (t : Temp) :
    (n.define d).lastUse t = n.lastUse t := by
  cases d with
  | none => rfl
  | some u =>
    simp only [lastUse, define, Array.getElem?_modify]
    cases n.temps[t]? with
    | none => simp
    | some info => split <;> rfl

theorem lastUse_use {k : Nat} {t u : Temp} {x : Nat} (h : (n.use k t).lastUse u = some x) :
    n.lastUse u = some x ∨ u = t ∧ x = k := by
  simp only [lastUse, use, Array.getElem?_modify] at h ⊢
  cases hi : n.temps[u]? with
  | none => simp [hi] at h
  | some info =>
    rw [hi] at h
    split at h
    · rename_i htu
      cases hlast : info.lastUse with
      | none =>
        simp [TempInfo.usedAt, hlast] at h
        exact .inr ⟨htu.symm, h.symm⟩
      | some v =>
        simp [TempInfo.usedAt, hlast] at h
        rcases Nat.le_total v k with hle | hle
        · rw [Nat.max_eq_right hle] at h
          exact .inr ⟨htu.symm, h.symm⟩
        · rw [Nat.max_eq_left hle] at h
          exact .inl (hlast.trans (congrArg some h))
    · exact .inl h

theorem lastUse_useAll {us : List Temp} {t : Temp} {x : Nat}
    (h : (us.foldl (fun n t => n.use n.index t) n).lastUse t = some x) :
    n.lastUse t = some x ∨ t ∈ us ∧ x = n.index := by
  induction us generalizing n with
  | nil => exact .inl h
  | cons u us ih =>
    rw [List.foldl_cons] at h
    rcases ih h with h | ⟨ht, hx⟩
    · rcases lastUse_use h with h | ⟨rfl, hx⟩
      · exact .inl h
      · exact .inr ⟨List.mem_cons_self, hx⟩
    · exact .inr ⟨List.mem_cons_of_mem _ ht, hx⟩

end Numbering

/-- Every last use that has been recorded is one. -/
structure LastUses (done : List Instruction) (n : Numbering) : Prop where
  index : n.index = done.length
  used : ∀ t k, n.lastUse t = some k → ∃ i, done[k]? = some i ∧ t ∈ i.uses

namespace LastUses

variable {done : List Instruction} {n : Numbering}

theorem instruction (h : LastUses done n) (i : Instruction) :
    LastUses (done ++ [i]) (n.instruction i) where
  index := by
    have hindex := (Numbering.useAll_spec Numbering.index i.uses (n.define i.def?)).1
    rw [Numbering.instruction, hindex, n.index_define, h.index, List.length_append]
    rfl
  used t k hk := by
    rcases Numbering.lastUse_useAll (n := n.define i.def?) hk with hk | ⟨ht, rfl⟩
    · rw [n.lastUse_define] at hk
      obtain ⟨j, hj, ht⟩ := h.used t k hk
      have hlt := (List.getElem?_eq_some_iff.1 hj).1
      exact ⟨j, by rw [List.getElem?_append_left hlt, hj], ht⟩
    · refine ⟨i, ?_, ht⟩
      rw [n.index_define, h.index, List.getElem?_append_right (Nat.le_refl _), Nat.sub_self]
      rfl

theorem instructions (h : LastUses done n) (code : List Instruction) :
    LastUses (done ++ code) (code.foldl Numbering.instruction n) := by
  induction code generalizing done n with
  | nil =>
    rw [List.append_nil]
    exact h
  | cons i code ih =>
    have hrest := ih (h.instruction i)
    rw [List.append_assoc] at hrest
    exact hrest

theorem blocks (h : LastUses done n) {bs : List Block} (hbs : ∀ b ∈ bs, b.liveOut.isEmpty) :
    LastUses (done ++ bs.flatMap (·.code.toList)) (bs.foldl Numbering.block n) := by
  induction bs generalizing done n with
  | nil =>
    rw [List.flatMap_nil, List.append_nil]
    exact h
  | cons b bs ih =>
    have hcode := h.instructions b.code.toList
    rw [Array.foldl_toList] at hcode
    have hempty : b.liveOut.toList = [] := by
      have hb := hbs b List.mem_cons_self
      rwa [← Std.TreeSet.isEmpty_toList, List.isEmpty_iff] at hb
    have hblock : n.block b = b.code.foldl Numbering.instruction n := by
      rw [Numbering.block, hempty]
      exact ite_self _
    rw [← hblock] at hcode
    have hrest := ih hcode fun b' hb' => hbs b' (List.mem_cons_of_mem _ hb')
    rw [List.append_assoc] at hrest
    exact hrest

end LastUses

namespace Program

variable {p : Program}

theorem lastUses_analyze (h : ∀ b, (p.analyze.liveOutAt b).isEmpty) :
    LastUses p.instructions ⟨p.analyze.temps, p.instructions.length⟩ := by
  have hstart : LastUses [] { temps := p.temps.map TempInfo.unknown } := by
    refine ⟨rfl, fun t k hk => ?_⟩
    simp only [Numbering.lastUse, Array.getElem?_map] at hk
    cases hi : p.temps[t]? <;> simp [hi, TempInfo.unknown] at hk
  have hempty : ∀ b ∈ p.analyze.blocks.toList, b.liveOut.isEmpty := by
    intro block hblock
    obtain ⟨b, hb⟩ := List.getElem?_of_mem hblock
    have hout := h b
    rwa [liveOutAt, ← Array.getElem?_toList, hb] at hout
  have hall := hstart.blocks hempty
  rw [List.nil_append, Array.foldl_toList] at hall
  have hinstr : p.analyze.blocks.toList.flatMap (·.code.toList) = p.instructions :=
    p.instructions_analyze
  rw [hinstr] at hall
  exact ⟨rfl, hall.used⟩

theorem not_liveAt_of_isLocal (h : ∀ b, IsLocal (p.codeAt b)) {t : Temp} {b : Nat} :
    ¬p.LiveAt t b := by
  refine LiveAt.induct (motive := fun _ => False) (fun b hread => ?_) fun _ _ _ _ hq => hq
  obtain ⟨c, i, d, hcode, hu, hd⟩ := hread
  exact hd (h b c i d hcode t hu)

theorem liveAt_analyze_empty (h : ∀ b, IsLocal (p.codeAt b)) (hp : p.Reversible) (b : Nat) :
    (p.analyze.liveInAt b).isEmpty ∧ (p.analyze.liveOutAt b).isEmpty := by
  have hin : ∀ b t, t ∉ p.analyze.liveInAt b := fun b t ht =>
    not_liveAt_of_isLocal h ((mem_liveInAt_analyze hp).1 ht)
  refine ⟨Std.TreeSet.isEmpty_iff_forall_not_mem.2 (hin b),
    Std.TreeSet.isEmpty_iff_forall_not_mem.2 fun t ht => ?_⟩
  obtain ⟨q, -, hq⟩ := (mem_liveOutAt_analyze hp).1 ht
  exact hin q t hq

theorem succsAt_twoAddress (p : Program) (b : Nat) : p.twoAddress.succsAt b = p.succsAt b := by
  simp only [succsAt, edgesAt, twoAddress, Array.getElem?_map]
  cases p.blocks[b]? <;> rfl

theorem predsAt_twoAddress (p : Program) (b : Nat) : p.twoAddress.predsAt b = p.predsAt b := by
  simp only [predsAt, edgesAt, twoAddress, Array.getElem?_map]
  cases p.blocks[b]? <;> rfl

theorem WellFormed.reversible_twoAddress (h : p.WellFormed) : p.twoAddress.Reversible := by
  intro b q
  rw [predsAt_twoAddress, succsAt_twoAddress, ← List.count_pos_iff, h.preds, List.count_pos_iff]

/-- From a place in a block on, some path reads a temporary before it is given another value. -/
def LiveFrom (p : Program) (t : Temp) (b k : Nat) : Prop :=
  ReadsFirst ((p.codeAt b).drop k) t ∨
    t ∉ defs ((p.codeAt b).drop k) ∧ ∃ q ∈ p.succsAt b, p.LiveAt t q

/-- The value that a temporary has after an instruction, counted in the emitted order, is read
later. -/
def ReadAfter (p : Program) (t : Temp) (k : Nat) : Prop :=
  ∃ b j, j < (p.codeAt b).length ∧ p.offset b + j = k ∧ p.LiveFrom t b (j + 1)

/-- What a temporary goes through between the first and the last place of its range. -/
structure ExactRange (source p : Program) (t : Temp) (first last : Nat) : Prop where
  oneBlock : ∃! b, t ∈ defs (p.codeAt b) ∨ t ∈ reads (p.codeAt b)
  starts : ∃ i, p.instructions[first]? = some i ∧ i.def? = some t
  reads : ∀ k i, p.instructions[k]? = some i → t ∈ i.uses → first < k
  writes : ∀ k i, p.instructions[k]? = some i → i.def? = some t → k = first ∨
    k = first + 1 ∧ ∃ b op src rhs, p.instructions[first]? = some (.move t src) ∧
      i = .arith op t t rhs ∧ .arith op t src rhs ∈ source.codeAt b
  needed : ∀ k < p.instructions.length, p.ReadAfter t k ↔ first ≤ k ∧ k < last

section

variable {source : Program} {t : Temp} {b first last : Nat}

theorem block_eq_of_lifetime (hp : p.Ordered)
    (h : Lifetime (source.codeAt b) (p.codeAt b) t first last) {b' : Nat}
    (ht : t ∈ defs (p.codeAt b') ∨ t ∈ Flow.reads (p.codeAt b')) : b' = b := by
  refine hp.apart b' b t (ht.elim id fun hread => ?_) h.mem_defs
  obtain ⟨i, hi, hu⟩ := List.mem_flatMap.1 hread
  obtain ⟨c, d, hcode⟩ := List.append_of_mem hi
  rw [hcode, defs_append]
  exact List.mem_append_left _ (hp.isLocal b' c i d hcode t hu)

theorem place_of_lifetime (hp : p.Ordered)
    (h : Lifetime (source.codeAt b) (p.codeAt b) t first last) {k : Nat} {i : Instruction}
    (hk : p.instructions[k]? = some i) (ht : i.def? = some t ∨ t ∈ i.uses) :
    ∃ c d, p.codeAt b = c ++ i :: d ∧ p.offset b + c.length = k := by
  obtain ⟨b', c, d, hcode, hplace⟩ := code_of_instruction hk
  have hmem : i ∈ p.codeAt b' := by
    rw [hcode]
    exact List.mem_append_right _ List.mem_cons_self
  obtain rfl := block_eq_of_lifetime hp h (ht.imp (fun hd => Flow.mem_defs.2 ⟨i, hmem, hd⟩)
    fun hu => List.mem_flatMap.2 ⟨i, hmem, hu⟩)
  exact ⟨c, d, hcode, hplace⟩

theorem exactRange_of_lifetime (hp : p.Ordered)
    (h : Lifetime (source.codeAt b) (p.codeAt b) t first last) :
    ExactRange source p t (p.offset b + first) (p.offset b + last) where
  oneBlock := ⟨b, .inl h.mem_defs, fun _ => block_eq_of_lifetime hp h⟩
  starts := by
    obtain ⟨c, i, d, hcode, rfl, hi⟩ := h.starts
    exact ⟨i, instruction_of_code hcode, hi⟩
  reads k i hk hu := by
    obtain ⟨c, d, hcode, rfl⟩ := place_of_lifetime hp h hk (.inr hu)
    exact Nat.add_lt_add_left (h.reads c i d hcode hu).1 _
  writes k i hk hi := by
    obtain ⟨c, d, hcode, rfl⟩ := place_of_lifetime hp h hk (.inl hi)
    rcases h.writes c i d hcode hi with hfirst | ⟨c', op, src, rhs, rfl, hfirst, rfl, hsource⟩
    · exact .inl (by rw [hfirst])
    · refine .inr ⟨by rw [List.length_append, hfirst]; rfl, b, op, src, rhs, ?_, rfl, hsource⟩
      rw [List.append_assoc] at hcode
      rw [← hfirst]
      exact instruction_of_code hcode
  needed k _ := by
    constructor
    · rintro ⟨b', j, -, rfl, hread | ⟨-, q, -, hq⟩⟩
      · have hmem : t ∈ Flow.reads (p.codeAt b') := by
          obtain ⟨c, i, d, hdrop, hu, -⟩ := hread
          refine List.mem_flatMap.2 ⟨i, List.mem_of_mem_drop (i := j + 1) ?_, hu⟩
          rw [hdrop]
          exact List.mem_append_right _ List.mem_cons_self
        obtain rfl := block_eq_of_lifetime hp h (.inr hmem)
        obtain ⟨hle, hlt⟩ := h.readsFirst_drop_iff.1 hread
        exact ⟨Nat.add_le_add_left hle _, Nat.add_lt_add_left hlt _⟩
      · exact (not_liveAt_of_isLocal hp.isLocal hq).elim
    · rintro ⟨hle, hlt⟩
      obtain ⟨j, rfl⟩ := Nat.exists_eq_add_of_le (Nat.le_of_add_right_le hle)
      obtain ⟨c, i, d, hcode, hlen, -⟩ := h.ends
      have hj : j < last := Nat.lt_of_add_lt_add_left hlt
      refine ⟨b, j, ?_, rfl, .inl (h.readsFirst_drop_iff.2 ⟨Nat.le_of_add_le_add_left hle, hj⟩)⟩
      rw [hcode, List.length_append, hlen]
      exact Nat.lt_add_right _ hj

theorem recorded_of_lifetime (hp : p.analyze.Ordered)
    (hout : ∀ b, (p.analyze.liveOutAt b).isEmpty) (ht : t < p.temps.size)
    (h : Lifetime (source.codeAt b) (p.analyze.codeAt b) t first last) :
    ∃ info, p.analyze.temps[t]? = some info ∧
      info.firstDef = some (p.analyze.offset b + first) ∧
      info.lastUse = some (p.analyze.offset b + last) := by
  have hnumbered := p.numbered_analyze
  have hused := (lastUses_analyze hout).used t
  rw [← p.instructions_analyze] at hnumbered hused
  obtain ⟨c, i, d, hcode, rfl, hi⟩ := h.starts
  have hfirst : (Numbering.mk p.analyze.temps p.analyze.instructions.length).firstDef t =
      some (p.analyze.offset b + c.length) := by
    have hat := instruction_of_code hcode
    obtain ⟨hlt, hget⟩ := List.getElem?_eq_some_iff.1 hat
    rw [hnumbered.firstDef t ht, List.findIdx?_eq_some_iff_getElem]
    refine ⟨hlt, by simp [hget, hi], fun k hk => ?_⟩
    intro hdef
    have hdef' := of_decide_eq_true hdef
    obtain ⟨c', d', hcode', hplace⟩ := place_of_lifetime hp h
      (List.getElem?_eq_getElem (hk.trans hlt)) (.inl hdef')
    rcases h.writes c' _ d' hcode' hdef' with hlen | ⟨e, op, src, rhs, rfl, hlen, -⟩
    · omega
    · rw [List.length_append, hlen] at hplace
      omega
  obtain ⟨c₂, j, d₂, hcode₂, rfl, hj⟩ := h.ends
  obtain ⟨u, hu, hle⟩ := hnumbered.lastUse _ j (instruction_of_code hcode₂) t hj ht
  have hlast : u = p.analyze.offset b + c₂.length := by
    obtain ⟨i', hi', ht'⟩ := hused u hu
    obtain ⟨c', d', hcode', rfl⟩ := place_of_lifetime hp h hi' (.inr ht')
    have hup := (h.reads c' i' d' hcode' ht').2
    omega
  have hsize : t < p.analyze.temps.size := hnumbered.size.symm ▸ ht
  refine ⟨p.analyze.temps[t], Array.getElem?_eq_getElem hsize, ?_, ?_⟩
  · simpa [Numbering.firstDef, hsize] using hfirst
  · simpa [hsize, hlast] using hu

end

theorem size_temps_analyze (p : Program) : p.analyze.temps.size = p.temps.size :=
  p.numbered_analyze.size

theorem Ordered.analyze (h : p.Ordered) : p.analyze.Ordered where
  isLocal b := by
    rw [codeAt_analyze]
    exact h.isLocal b
  bounded b d hd := by
    rw [size_temps_analyze]
    exact h.bounded b d (p.codeAt_analyze b ▸ hd)
  apart b b' d hd hd' := h.apart b b' d (p.codeAt_analyze b ▸ hd) (p.codeAt_analyze b' ▸ hd')
  targets b i hi k hk := by
    rw [size_analyze]
    exact h.targets b i (p.codeAt_analyze b ▸ hi) k hk
  redefined b c i d hcode := h.redefined b c i d ((p.codeAt_analyze b).symm.trans hcode)
  inPlace b i hi := h.inPlace b i (p.codeAt_analyze b ▸ hi)

end Program

/-- In every program that is built, nothing is live between blocks, and every temporary has a range in
one block. It gets its value at the start of the range, and its value after an instruction is read
later iff the instruction lies in the range and not at its end. -/
theorem ofProbe_ranges_exact {t : Table} {probe : Probe} {built : Built}
    (h : ofProbe t probe = .ok built) :
    let p := built.program.twoAddress.analyze
    (∀ b, (p.liveInAt b).isEmpty ∧ (p.liveOutAt b).isEmpty) ∧
    (∀ b v, v ∈ defs (p.codeAt b) ∨ v ∈ reads (p.codeAt b) → v < p.temps.size) ∧
    ∀ v < p.temps.size, ∃ info first last, p.temps[v]? = some info ∧
      info.firstDef = some first ∧ info.lastUse = some last ∧ first < last ∧
      Program.ExactRange built.program p v first last := by
  intro p
  obtain ⟨s, hshape, hprogram⟩ := ofProbe_shaped h
  have hwell : built.program.WellFormed := hprogram ▸ hshape.wellFormed
  have huse := ofProbe_singleUse h
  have hordered := (ofProbe_formed h).ordered
  have hp : p.Ordered := hordered.analyze
  have hempty := Program.liveAt_analyze_empty hordered.isLocal hwell.reversible_twoAddress
  refine ⟨hempty, fun b v hv => ?_, fun v hv => ?_⟩
  · refine hp.bounded b v (hv.elim id fun hread => ?_)
    obtain ⟨i, hi, hu⟩ := List.mem_flatMap.1 hread
    obtain ⟨c, d, hcode⟩ := List.append_of_mem hi
    rw [hcode, defs_append]
    exact List.mem_append_left _ (hp.isLocal b c i d hcode v hu)
  · have hv' : v < built.program.twoAddress.temps.size :=
      hv.trans_eq built.program.twoAddress.size_temps_analyze
    obtain ⟨b, hb⟩ := huse.exists_block hv'
    obtain ⟨first, last, hlife⟩ := exists_lifetime (huse.nodup b) (huse.spent b) hb
    rw [← Program.codeAt_twoAddress, ← built.program.twoAddress.codeAt_analyze b] at hlife
    obtain ⟨info, hinfo, hfirst, hlast⟩ :=
      Program.recorded_of_lifetime hp (fun b => (hempty b).2) hv' hlife
    exact ⟨info, _, _, hinfo, hfirst, hlast, Nat.add_lt_add_left hlife.lt _,
      Program.exactRange_of_lifetime hp hlife⟩

/-- If the first variable is above three, the product of both is taken from it. -/
def damping : Probe where
  name := default
  body :=
    let int : Tag := { span := default, facts := { type := some .int, size := 8 } }
    let x : Node := .var { int with facts.addr := some (-8) } ⟨"x"⟩
    let y : Node := .var { int with facts.addr := some (-16) } ⟨"y"⟩
    [.cond default (.binary int (.compare .gt) x (.int int 3))
      [.assignment default .sub x (.binary int (.arith .mul) y x)] []]

/-- The product is split into a move and the arithmetic behind it. -/
theorem damping_ranges_exact :
    ∃ built, ofProbe {} damping = .ok built ∧
      (built.program.twoAddress.analyze.liveInAt 3).isEmpty ∧
      ∃ first last, first < last ∧
        Program.ExactRange built.program built.program.twoAddress.analyze 5 first last := by
  obtain ⟨built, hbuilt, hsize⟩ : ∃ built, ofProbe {} damping = .ok built ∧
      built.program.twoAddress.temps.size = 7 := by
    refine ⟨?_, ?_, ?_⟩
    rotate_left
    · conv => lhs; cbv
    · rfl
  obtain ⟨hempty, -, hranges⟩ := ofProbe_ranges_exact hbuilt
  obtain ⟨-, first, last, -, -, -, hlt, hrange⟩ := hranges 5 (by
    rw [Program.size_temps_analyze, hsize]
    decide)
  exact ⟨built, hbuilt, (hempty 3).1, first, last, hlt, hrange⟩

end TraceScript.Flow
