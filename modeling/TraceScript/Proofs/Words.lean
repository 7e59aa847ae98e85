import Mathlib.Algebra.Group.Int.Defs
import TraceScript.Bytecode.Emit
import TraceScript.Proofs.Memory

namespace TraceScript

namespace Bytes

theorem ofNat_mod (count n : Nat) : ofNat count (n % 256 ^ count) = ofNat count n := by
  have h := ofNat_toNat (ofNat count n)
  rwa [length_ofNat, toNat_ofNat] at h

theorem ofNat_mod_of_le {count limit : Nat} (h : count ≤ limit) (n : Nat) :
    ofNat count (n % 256 ^ limit) = ofNat count n := by
  rw [← ofNat_mod, Nat.mod_mod_of_dvd _ (Nat.pow_dvd_pow 256 h), ofNat_mod]

theorem ofNat_add (a b n : Nat) : ofNat (a + b) n = ofNat a n ++ ofNat b (n / 256 ^ a) := by
  induction a generalizing n with
  | zero => simp [ofNat]
  | succ a ih =>
    rw [Nat.succ_add, ofNat, ofNat, ih, Nat.div_div_eq_div_mul, Nat.pow_succ', List.cons_append]

theorem ofNat_zero (count : Nat) : ofNat count 0 = List.replicate count 0 := by
  induction count with
  | zero => rfl
  | succ count ih =>
    rw [ofNat, Nat.zero_div, ih, List.replicate_succ]
    rfl

end Bytes

theorem toUInt32_lowerHalf (v : Int64) : v.toInt32.toUInt32 = v.toUInt64.toUInt32 := by
  apply UInt32.toBitVec_inj.1
  change v.toInt32.toBitVec = v.toBitVec.setWidth 32
  rw [Int64.toBitVec_toInt32, BitVec.signExtend_eq_setWidth_of_le _ (by decide)]

theorem toUInt32_upperHalf (v : Int64) :
    (v >>> 32).toInt32.toUInt32 = (v.toUInt64 >>> 32).toUInt32 := by
  rw [toUInt32_lowerHalf]
  apply UInt32.toBitVec_inj.1
  have hamount : BitVec.smod (32 : Int64).toBitVec 64 = 32#64 := by decide
  change (v >>> 32).toBitVec.setWidth 32 = (v.toBitVec >>> 32).setWidth 32
  rw [Int64.toBitVec_shiftRight, hamount]
  ext i hi
  have hlt : 32 + i < 64 := by omega
  simp only [BitVec.getElem_setWidth, BitVec.sshiftRight_eq', BitVec.getLsbD_sshiftRight]
  simp [hlt]
  omega

theorem toNat_upperHalf (v : Int64) :
    (v >>> 32).toInt32.toUInt32.toNat = v.toUInt64.toNat / 2 ^ 32 := by
  have hlt := v.toUInt64.toNat_lt
  have hshift : (v.toUInt64 >>> 32).toNat = v.toUInt64.toNat / 2 ^ 32 := by
    rw [UInt64.toNat_shiftRight]
    exact Nat.shiftRight_eq_div_pow ..
  rw [toUInt32_upperHalf, UInt64.toNat_toUInt32, hshift]
  omega

theorem toNat_lowerHalf (v : Int64) : v.toInt32.toUInt32.toNat = v.toUInt64.toNat % 2 ^ 32 := by
  rw [toUInt32_lowerHalf, UInt64.toNat_toUInt32]

theorem ofNat_halves (v : Int64) :
    UInt64.ofNat (v.toInt32.toUInt32.toNat + (v >>> 32).toInt32.toUInt32.toNat * 2 ^ 32) =
      v.toUInt64 := by
  have hlt := v.toUInt64.toNat_lt
  apply UInt64.toNat_inj.1
  rw [toNat_upperHalf, toNat_lowerHalf, UInt64.toNat_ofNat']
  omega

section

variable (high low : UInt32)

theorem toNat_joined :
    (UInt64.ofNat (high.toNat * 2 ^ 32 + low.toNat)).toNat = high.toNat * 2 ^ 32 + low.toNat := by
  have hh := high.toNat_lt
  have hl := low.toNat_lt
  rw [UInt64.toNat_ofNat']
  omega

theorem shiftRight_joined :
    UInt64.ofNat (high.toNat * 2 ^ 32 + low.toNat) >>> (32 : Int32).toInt64.toUInt64 =
      high.toUInt64 := by
  have hl := low.toNat_lt
  have hamount : (32 : Int32).toInt64.toUInt64.toNat % 64 = 32 := rfl
  apply UInt64.toNat_inj.1
  rw [UInt64.toNat_shiftRight, toNat_joined, hamount, UInt32.toNat_toUInt64,
    Nat.shiftRight_eq_div_pow]
  omega

theorem toUInt32_joined :
    (UInt64.ofNat (high.toNat * 2 ^ 32 + low.toNat)).toUInt32.toUInt64 = low.toUInt64 := by
  have hl := low.toNat_lt
  apply UInt64.toNat_inj.1
  rw [UInt32.toNat_toUInt64, UInt64.toNat_toUInt32, toNat_joined, UInt32.toNat_toUInt64]
  omega

end

theorem toInt_extend16 {n : Int} (h : (Int16.ofInt n).toInt = n) :
    (Int16.ofInt n).toInt64.toInt = n := by
  rw [Int16.toInt_toInt64, h]

theorem toInt_extend32 {n : Int} (h : -2 ^ 31 ≤ n) (h' : n < 2 ^ 31) :
    (Int32.ofInt n).toInt64.toInt = n := by
  rw [Int32.toInt_toInt64, Int32.toInt_ofInt_of_le h h']

theorem toNat_extend32 {n : Nat} (h : n < 2 ^ 31) :
    (Int32.ofNat n).toInt64.toUInt64.toNat = n := by
  have hsame : (Int32.ofNat n).toInt64 = Int64.ofNat n := by
    rw [← Int64.toInt_inj, Int32.toInt_toInt64, Int32.toInt_ofNat_of_lt h,
      Int64.toInt_ofNat_of_lt (by omega)]
  have hword : (Int64.ofNat n).toUInt64 = UInt64.ofNat n := rfl
  rw [hsame, hword, UInt64.toNat_ofNat']
  omega

theorem argOffset_extend (n : UInt8) :
    (Emit.argOffset n).toInt64.toUInt64 = UInt64.ofNat (16 + 8 * n.toNat) := by
  have hn := n.toNat_lt
  have hsame : (Int16.ofNat (16 + 8 * n.toNat)).toInt64 = Int64.ofNat (16 + 8 * n.toNat) := by
    rw [← Int64.toInt_inj, Int16.toInt_toInt64, Int16.toInt_ofNat_of_lt (by omega),
      Int64.toInt_ofNat_of_lt (by omega)]
  rw [Emit.argOffset, hsame]
  rfl

namespace Bytes

theorem ofNat_extend {count : Nat} (h : count ≤ 4) (v : Int32) :
    ofNat count v.toInt64.toUInt64.toNat = ofNat count v.toUInt32.toNat := by
  have hlow : v.toInt64.toUInt64.toNat % 256 ^ 4 = v.toUInt32.toNat := by
    have hhalf := toNat_lowerHalf v.toInt64
    rw [Int32.toInt32_toInt64] at hhalf
    exact hhalf.symm
  rw [← hlow, ofNat_mod_of_le h]

variable {data : List UInt8}

theorem toNat_word (h : data.length ≤ 8) : (Int64.ofNat (toNat data)).toUInt64.toNat = toNat data := by
  have hlt := toNat_lt data
  have hpow : 256 ^ data.length ≤ 256 ^ 8 := Nat.pow_le_pow_right (by decide) h
  have hword : (Int64.ofNat (toNat data)).toUInt64 = UInt64.ofNat (toNat data) := rfl
  rw [hword, UInt64.toNat_ofNat']
  omega

theorem ofNat_short (h : data.length ≤ 4) :
    ofNat data.length (Int64.ofNat (toNat data)).toInt32.toInt64.toUInt64.toNat = data := by
  have hmod := ofNat_mod_of_le h (toNat data)
  rw [ofNat_extend h, toNat_lowerHalf, toNat_word (by omega)]
  exact hmod.trans (ofNat_toNat data)

theorem ofNat_halved (h : data.length = 8) :
    let word := Int64.ofNat (toNat data)
    ofNat 4 word.toInt32.toInt64.toUInt64.toNat ++
      ofNat 4 (word >>> 32).toInt32.toInt64.toUInt64.toNat = data := by
  intro word
  have hlow := ofNat_mod_of_le (Nat.le_refl 4) (toNat data)
  have hdata := ofNat_toNat data
  rw [h] at hdata
  rw [ofNat_extend (Nat.le_refl 4), ofNat_extend (Nat.le_refl 4), toNat_lowerHalf, toNat_upperHalf,
    toNat_word (by omega)]
  conv =>
    rhs
    rw [← hdata, ofNat_add 4 4]
  have hpow : (256 : Nat) ^ 4 = 2 ^ 32 := rfl
  rw [← hlow, hpow]

theorem ofNat_toWord (h : data.length ≤ 8) : ofNat data.length (toWord data).toNat = data := by
  have hword : (toWord data).toNat = toNat data := toNat_word h
  rw [hword, ofNat_toNat]

theorem toWord_inj {data' : List UInt8} (h : data.length ≤ 8) (hlen : data.length = data'.length) :
    toWord data = toWord data' ↔ data = data' := by
  refine ⟨fun heq => ?_, congrArg toWord⟩
  rw [← ofNat_toWord h, heq, hlen, ofNat_toWord (hlen ▸ h)]

theorem ofNat_whole (h : data.length = 8) :
    ofNat 8 (Int64.ofNat (toNat data)).toUInt64.toNat = data := by
  rw [toNat_word (Nat.le_of_eq h), ← h]
  exact ofNat_toNat data

end Bytes

end TraceScript
