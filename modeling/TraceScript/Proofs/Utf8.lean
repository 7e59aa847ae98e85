import Mathlib.Data.List.Forall2
import Mathlib.Tactic.SplitIfs
import TraceScript.Text.Utf8

namespace TraceScript.Text

/-- Bytes that lie in their ranges. -/
def InRanges (rs : List (UInt8 × UInt8)) (bs : List UInt8) : Prop :=
  List.Forall₂ (fun r b => r.1.toNat ≤ b.toNat ∧ b.toNat ≤ r.2.toNat) rs bs

theorem matching_append {rs : List (UInt8 × UInt8)} {bs : List UInt8} (h : InRanges rs bs)
    (rest : List UInt8) : matching rs (bs ++ rest) = (bs, rest) := by
  induction h with
  | nil => cases rest <;> rfl
  | @cons r b rs bs hb _ ih =>
    have hin : r.1 ≤ b ∧ b ≤ r.2 := hb
    rw [List.cons_append, matching, if_pos hin, ih]

theorem decodeLossy_long {b : UInt8} {bs : List UInt8} (hb : 0x80 ≤ b.toNat)
    (h : ∃ rs, followers b = some rs ∧ InRanges rs bs) (rest : List UInt8) :
    decodeLossy (b :: bs ++ rest) = assemble b bs :: decodeLossy rest := by
  obtain ⟨rs, hrs, hbs⟩ := h
  have hsmall : ¬ b < 0x80 := Nat.not_lt.2 hb
  rw [List.cons_append, decodeLossy, if_neg hsmall, hrs]
  simp only [matching_append hbs, List.Forall₂.length_eq hbs, if_pos]

section

variable {b x y z : UInt8}

theorem followers_two (hb : 0xc2 ≤ b.toNat ∧ b.toNat ≤ 0xdf)
    (hx : 0x80 ≤ x.toNat ∧ x.toNat ≤ 0xbf) : ∃ rs, followers b = some rs ∧ InRanges rs [x] := by
  unfold followers
  simp only [UInt8.le_iff_toNat_le, ← UInt8.toNat_inj, UInt8.reduceToNat]
  rw [if_pos hb]
  exact ⟨_, rfl, .cons hx .nil⟩

/-- The second of three bytes is bounded below after the least first byte, and above before the
range of surrogates. -/
theorem followers_three (hb : 0xe0 ≤ b.toNat ∧ b.toNat ≤ 0xef)
    (hx : 0x80 ≤ x.toNat ∧ x.toNat ≤ 0xbf) (hlow : b.toNat = 0xe0 → 0xa0 ≤ x.toNat)
    (hhigh : b.toNat = 0xed → x.toNat ≤ 0x9f) (hy : 0x80 ≤ y.toNat ∧ y.toNat ≤ 0xbf) :
    ∃ rs, followers b = some rs ∧ InRanges rs [x, y] := by
  unfold followers
  simp only [UInt8.le_iff_toNat_le, ← UInt8.toNat_inj, UInt8.reduceToNat]
  split_ifs with _ h1 h2
  · omega
  · exact ⟨_, rfl, .cons ⟨hlow h1, hx.2⟩ (.cons hy .nil)⟩
  · exact ⟨_, rfl, .cons ⟨hx.1, hhigh h2⟩ (.cons hy .nil)⟩
  · exact ⟨_, rfl, .cons hx (.cons hy .nil)⟩
  all_goals omega

/-- The second of four bytes is bounded below after the least first byte, and above after the
greatest. -/
theorem followers_four (hb : 0xf0 ≤ b.toNat ∧ b.toNat ≤ 0xf4)
    (hx : 0x80 ≤ x.toNat ∧ x.toNat ≤ 0xbf) (hlow : b.toNat = 0xf0 → 0x90 ≤ x.toNat)
    (hhigh : b.toNat = 0xf4 → x.toNat ≤ 0x8f) (hy : 0x80 ≤ y.toNat ∧ y.toNat ≤ 0xbf)
    (hz : 0x80 ≤ z.toNat ∧ z.toNat ≤ 0xbf) :
    ∃ rs, followers b = some rs ∧ InRanges rs [x, y, z] := by
  unfold followers
  simp only [UInt8.le_iff_toNat_le, ← UInt8.toNat_inj, UInt8.reduceToNat]
  split_ifs with _ _ _ _ h1 _ h2
  · omega
  · omega
  · omega
  · omega
  · exact ⟨_, rfl, .cons ⟨hlow h1, hx.2⟩ (.cons hy (.cons hz .nil))⟩
  · exact ⟨_, rfl, .cons hx (.cons hy (.cons hz .nil))⟩
  · exact ⟨_, rfl, .cons ⟨hx.1, hhigh h2⟩ (.cons hy (.cons hz .nil))⟩
  · omega

end

theorem decodeLossy_char (c : Char) (rest : List UInt8) :
    decodeLossy (String.utf8EncodeChar c ++ rest) = c :: decodeLossy rest := by
  have hvalid : c.val.toNat < 0xd800 ∨ 0xdfff < c.val.toNat ∧ c.val.toNat < 0x110000 := c.valid
  have hc : ∀ n, n = c.val.toNat → Char.ofNat n = c := by
    rintro n rfl
    exact Char.ofNat_toNat c
  have hbyte : ∀ n, n < 256 → (UInt8.ofNat n).toNat = n := fun n hn => UInt8.toNat_ofNat_of_lt hn
  unfold String.utf8EncodeChar
  generalize c.val.toNat = v at *
  simp only
  split_ifs with h1 h2 h3
  · have hb := hbyte v (by omega)
    have hsmall : UInt8.ofNat v < 0x80 := by
      rw [UInt8.lt_iff_toNat_lt, hb]
      exact Nat.lt_succ_of_le h1
    rw [List.singleton_append, decodeLossy, if_pos hsmall, hb, hc v rfl]
  · have hb := hbyte (v / 64 % 32 + 0xc0) (by omega)
    have hx := hbyte (v % 64 + 0x80) (by omega)
    rw [decodeLossy_long (by omega) (followers_two (by omega) (by omega))]
    refine congrArg (· :: _) (hc _ ?_)
    simp only [List.length_singleton, Nat.one_shiftLeft, List.foldl_cons, List.foldl_nil, hb, hx]
    omega
  · have hb := hbyte (v / 4096 % 16 + 0xe0) (by omega)
    have hx := hbyte (v / 64 % 64 + 0x80) (by omega)
    have hy := hbyte (v % 64 + 0x80) (by omega)
    rw [decodeLossy_long (by omega)
      (followers_three (by omega) (by omega) (by omega) (by omega) (by omega))]
    refine congrArg (· :: _) (hc _ ?_)
    simp only [List.length_cons, List.length_nil, Nat.one_shiftLeft, List.foldl_cons, List.foldl_nil,
      hb, hx, hy]
    omega
  · have hb := hbyte (v / 262144 % 8 + 0xf0) (by omega)
    have hx := hbyte (v / 4096 % 64 + 0x80) (by omega)
    have hy := hbyte (v / 64 % 64 + 0x80) (by omega)
    have hz := hbyte (v % 64 + 0x80) (by omega)
    rw [decodeLossy_long (by omega)
      (followers_four (by omega) (by omega) (by omega) (by omega) (by omega) (by omega))]
    refine congrArg (· :: _) (hc _ ?_)
    simp only [List.length_cons, List.length_nil, Nat.one_shiftLeft, List.foldl_cons, List.foldl_nil,
      hb, hx, hy, hz]
    omega

theorem decodeLossy_utf8 (s : String) : decodeLossy (utf8 s) = s.toList := by
  unfold utf8
  induction s.toList with
  | nil => rw [List.flatMap_nil, decodeLossy]
  | cons c cs ih => rw [List.flatMap_cons, decodeLossy_char, ih]

theorem zero_not_mem_utf8 {s : String} (h : '\x00' ∉ s.toList) : 0 ∉ utf8 s := by
  intro hmem
  obtain ⟨c, hc, hbyte⟩ := List.mem_flatMap.1 hmem
  have hne : c.val.toNat ≠ 0 := by
    intro h0
    obtain rfl : c = '\x00' := Char.toNat_inj.1 h0
    exact h hc
  have hzero : ∀ n, n % 256 ≠ 0 → (0 : UInt8) ≠ UInt8.ofNat n := by
    intro n hn h0
    have := congrArg UInt8.toNat h0
    rw [UInt8.toNat_ofNat'] at this
    exact hn this.symm
  unfold String.utf8EncodeChar at hbyte
  have hvalid : c.val.toNat < 0xd800 ∨ 0xdfff < c.val.toNat ∧ c.val.toNat < 0x110000 := c.valid
  generalize c.val.toNat = v at *
  simp only at hbyte
  split_ifs at hbyte <;> simp only [List.mem_cons, List.not_mem_nil, or_false] at hbyte
  · exact hzero _ (by omega) hbyte
  · rcases hbyte with h | h <;> exact hzero _ (by omega) h
  · rcases hbyte with h | h | h <;> exact hzero _ (by omega) h
  · rcases hbyte with h | h | h | h <;> exact hzero _ (by omega) h

end TraceScript.Text
