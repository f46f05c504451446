import CryptixAtomic.Arithmetic.Shift
import Mathlib.Data.Nat.Bitwise

/-!
# Compact difficulty targets

A 256-bit target is stored in 32 bits as a byte length and a mantissa of three bytes, whose
highest bit is kept free for a sign. An encoded target decodes to at most the target, with a
relative error below `2^-15`, and to the target itself below `2^16`. The functions over four
limbs are those over bit vectors.
-/
namespace CryptixAtomic.Difficulty

abbrev Uint256 := BitVec 256

def fromCompactTargetBits (bits : BitVec 32) : Uint256 :=
  let unshiftedExpt := bits.toNat >>> 24
  let (mant, expt) :=
    if unshiftedExpt ≤ 3 then ((bits.toNat &&& 0xFFFFFF) >>> (8 * (3 - unshiftedExpt)), 0)
    else (bits.toNat &&& 0xFFFFFF, 8 * (unshiftedExpt - 3))
  -- a shift is taken modulo the width
  if mant > 0x7FFFFF then 0 else BitVec.ofNat 256 mant <<< (expt % 256)

/-- The leading three bytes of a number of `size` bytes. -/
def leadingBytes (x : Uint256) (size : ℕ) : ℕ :=
  if size ≤ 3 then ((x.toNat % 2 ^ 64) <<< (8 * (3 - size))) % 2 ^ 64 % 2 ^ 32
  else (x >>> (8 * (size - 3) % 256)).toNat % 2 ^ 64 % 2 ^ 32

def compactTargetBits (x : Uint256) : BitVec 32 :=
  let size := (x.toNat.size + 7) / 8
  let compact := leadingBytes x size
  let (compact, size) :=
    if compact &&& 0x00800000 ≠ 0 then (compact >>> 8, size + 1) else (compact, size)
  BitVec.ofNat 32 (compact ||| size <<< 24)

/-- The mantissa of `x` for an exponent of `e` bytes. -/
def mantissa (x e : ℕ) : ℕ := if e ≤ 3 then x * 2 ^ (8 * (3 - e)) else x / 2 ^ (8 * (e - 3))

/-- The number that a mantissa and an exponent stand for. -/
def value (m e : ℕ) : ℕ := if e ≤ 3 then m / 2 ^ (8 * (3 - e)) else m * 2 ^ (8 * (e - 3))

/-- The least number of bytes that leaves the sign bit free. -/
def exponent (x : ℕ) : ℕ := if x = 0 then 0 else x.size / 8 + 1

variable {x y m e : ℕ}

theorem mantissa_mono (e : ℕ) (h : x ≤ y) : mantissa x e ≤ mantissa y e := by
  unfold mantissa
  split_ifs
  · exact Nat.mul_le_mul_right _ h
  · exact Nat.div_le_div_right h

theorem mantissa_succ (x e : ℕ) : mantissa x e / 2 ^ 8 = mantissa x (e + 1) := by
  unfold mantissa
  rcases lt_trichotomy e 3 with he | rfl | he
  · rw [if_pos (by omega), if_pos (by omega), show 8 * (3 - e) = 8 * (3 - (e + 1)) + 8 by omega,
      pow_add, ← mul_assoc, Nat.mul_div_cancel _ (by positivity)]
  · simp
  · rw [if_neg (by omega), if_neg (by omega), Nat.div_div_eq_div_mul, ← pow_add]
    congr 2
    omega

theorem mantissa_lt_iff (k : ℕ) (hk : k ≤ 24) (he : e ≤ 3 → 24 ≤ 8 * e + k):
    mantissa x e < 2 ^ k ↔ x < 2 ^ (8 * e + k - 24) := by
  unfold mantissa
  split_ifs with h
  · have hsplit : 2 ^ k = 2 ^ (8 * e + k - 24) * 2 ^ (8 * (3 - e)) := by
      rw [← pow_add]
      congr 1
      have := he h
      omega
    rw [hsplit, Nat.mul_lt_mul_right (by positivity)]
  · rw [Nat.div_lt_iff_lt_mul (by positivity), ← pow_add]
    congr! 2
    omega

theorem leadingBytes_eq (x : Uint256) {size : ℕ} (hx : x.toNat < 2 ^ (8 * size))
    (hsize : size ≤ 32) : leadingBytes x size = mantissa x.toNat size := by
  have hlt : mantissa x.toNat size < 2 ^ 24 :=
    (mantissa_lt_iff 24 le_rfl (fun _ => by omega)).mpr (by simpa using hx)
  unfold leadingBytes mantissa at *
  split_ifs at * with h
  · have hpow : 2 ^ (8 * size) ≤ 2 ^ 64 := Nat.pow_le_pow_right (by norm_num) (by omega)
    rw [Nat.mod_eq_of_lt (hx.trans_le hpow), Nat.shiftLeft_eq]
    omega
  · rw [Nat.mod_eq_of_lt (show 8 * (size - 3) < 256 by omega), BitVec.toNat_ushiftRight,
      Nat.shiftRight_eq_div_pow]
    generalize x.toNat / 2 ^ (8 * (size - 3)) = quotient at *
    omega

theorem and_signBit_ne_zero (n : ℕ) : n &&& 0x00800000 ≠ 0 ↔ 2 ^ 23 ≤ n % 2 ^ 24 := by
  rw [show 0x00800000 = 2 ^ 23 by rfl, Nat.and_two_pow, Nat.testBit_eq_decide_div_mod_eq]
  simp
  omega

theorem exponent_le (x : Uint256) : exponent x.toNat ≤ 33 := by
  have hsize := Nat.size_le.mpr x.isLt
  unfold exponent
  split_ifs <;> omega

theorem mantissa_exponent_lt (x : ℕ) : mantissa x (exponent x) < 2 ^ 23 := by
  unfold exponent
  split_ifs with h
  · simp [h, mantissa]
  · rw [mantissa_lt_iff 23 (by norm_num) (fun _ => by omega), ← Nat.size_le]
    omega

theorem compactTargetBits_toNat (x : Uint256) : (compactTargetBits x).toNat =
      mantissa x.toNat (exponent x.toNat) + exponent x.toNat * 2 ^ 24 := by
  by_cases hzero : x.toNat = 0
  · obtain rfl : x = 0 := BitVec.eq_of_toNat_eq hzero
    decide
  obtain ⟨s, hs⟩ : ∃ s, s = (x.toNat.size + 7) / 8 := ⟨_, rfl⟩
  have hsize := Nat.size_le.mpr x.isLt
  have hpos : 0 < x.toNat.size := Nat.size_pos.mpr (Nat.pos_of_ne_zero hzero)
  have hlt : x.toNat < 2 ^ (8 * s) := Nat.size_le.mp (by omega)
  have hm : mantissa x.toNat s < 2 ^ 24 :=
    (mantissa_lt_iff 24 le_rfl (fun _ => by omega)).mpr (by simpa using hlt)
  have hsign : 2 ^ 23 ≤ mantissa x.toNat s ↔ 8 * s ≤ x.toNat.size := by
    rw [← not_lt, mantissa_lt_iff 23 (by norm_num) (fun _ => by omega), ← Nat.size_le]
    omega
  -- the byte that keeps the sign bit free is the one of `exponent`
  have hfields : (if leadingBytes x s &&& 0x00800000 ≠ 0 then (leadingBytes x s >>> 8, s + 1)
      else (leadingBytes x s, s)) =
      (mantissa x.toNat (exponent x.toNat), exponent x.toNat) := by
    simp only [leadingBytes_eq x hlt (by omega), and_signBit_ne_zero, Nat.mod_eq_of_lt hm, hsign,
      exponent, hzero, if_false, Nat.shiftRight_eq_div_pow, mantissa_succ]
    split_ifs with h
    · rw [show x.toNat.size / 8 + 1 = s + 1 by omega]
    · rw [show x.toNat.size / 8 + 1 = s by omega]
  have hexp := exponent_le x
  have hbound := mantissa_exponent_lt x.toNat
  simp only [compactTargetBits, ← hs, hfields]
  rw [Nat.or_comm, ← Nat.shiftLeft_add_eq_or_of_lt (by omega), Nat.shiftLeft_eq, BitVec.toNat_ofNat]
  omega

theorem fromCompactTargetBits_toNat {bits : BitVec 32} (hbits : bits.toNat = m + e * 2 ^ 24)
    (hm : m < 2 ^ 23) (he : e ≤ 33) (hvalue : value m e < 2 ^ 256) :
    (fromCompactTargetBits bits).toNat = value m e := by
  have hexpt : bits.toNat >>> 24 = e := by
    rw [Nat.shiftRight_eq_div_pow]
    omega
  have hmant : bits.toNat &&& 0xFFFFFF = m := by
    rw [show 0xFFFFFF = 2 ^ 24 - 1 by rfl, Nat.and_two_pow_sub_one_eq_mod]
    omega
  unfold value at *
  by_cases h : e ≤ 3
  · rw [if_pos h] at *
    have hle := Nat.div_le_self m (2 ^ (8 * (3 - e)))
    simp only [fromCompactTargetBits, hexpt, hmant, if_pos h, Nat.shiftRight_eq_div_pow]
    rw [if_neg (by omega)]
    simpa using hvalue
  · rw [if_neg h] at *
    simp only [fromCompactTargetBits, hexpt, hmant, if_neg h]
    rw [if_neg (by omega), Nat.mod_eq_of_lt (show 8 * (e - 3) < 256 by omega),
      BitVec.toNat_shiftLeft, BitVec.toNat_ofNat, Nat.shiftLeft_eq,
      Nat.mod_eq_of_lt (show m < 2 ^ 256 by omega), Nat.mod_eq_of_lt hvalue]

/-- What a number keeps when it is cut to the leading bytes of its encoding. -/
def truncated (x : ℕ) : ℕ := value (mantissa x (exponent x)) (exponent x)

theorem truncated_le (x : ℕ) : truncated x ≤ x := by
  unfold truncated value mantissa
  split_ifs
  · rw [Nat.mul_div_cancel _ (by positivity)]
  · exact Nat.div_mul_le_self x _

theorem truncated_eq (h : exponent x ≤ 3) : truncated x = x := by
  rw [truncated, value, mantissa, if_pos h, if_pos h, Nat.mul_div_cancel _ (by positivity)]

theorem mantissa_ge (h : 3 ≤ exponent x) : 2 ^ 15 ≤ mantissa x (exponent x) := by
  unfold exponent at *
  split_ifs at * with hzero
  · omega
  · rw [← not_lt, mantissa_lt_iff 15 (by norm_num) (fun _ => by omega), not_lt, ← Nat.lt_size]
    omega

theorem mantissa_truncated (x : ℕ) :
    mantissa (truncated x) (exponent x) = mantissa x (exponent x) := by
  by_cases h : exponent x ≤ 3
  · rw [truncated_eq h]
  · simp only [truncated, value, mantissa, if_neg h]
    exact Nat.mul_div_cancel _ (by positivity)

theorem lt_truncated (h : 3 ≤ exponent x) : 2 ^ 15 * x < (2 ^ 15 + 1) * truncated x := by
  have hm := mantissa_ge h
  rcases h.eq_or_lt with h | h
  · rw [truncated_eq h.ge]
    rw [mantissa, if_pos h.ge, ← h] at hm
    omega
  · simp only [truncated, value, mantissa, if_neg h.not_ge] at *
    have hunit : 0 < 2 ^ (8 * (exponent x - 3)) := by positivity
    generalize 2 ^ (8 * (exponent x - 3)) = unit at *
    have hlt : x < x / unit * unit + unit := Nat.lt_div_mul_add hunit
    have hle := Nat.mul_le_mul_right unit hm
    linarith

theorem exponent_truncated (x : ℕ) : exponent (truncated x) = exponent x := by
  by_cases h : exponent x ≤ 3
  · rw [truncated_eq h]
  · have hge := mantissa_ge (not_le.mp h).le
    have hpos : truncated x ≠ 0 := by
      intro hzero
      rw [← mantissa_truncated, hzero] at hge
      simp [mantissa] at hge
    have hsize : 8 * (exponent x - 1) ≤ (truncated x).size := by
      rw [← mantissa_truncated, ← not_lt, mantissa_lt_iff 15 (by norm_num) (fun _ => by omega),
        not_lt, ← Nat.lt_size] at hge
      omega
    have hmono := Nat.size_le_size (truncated_le x)
    have hx : x ≠ 0 := by
      rintro rfl
      simp [exponent] at h
    simp only [exponent, hx, hpos, if_false] at *
    omega

theorem fromCompactTargetBits_compactTargetBits (x : Uint256) :
    (fromCompactTargetBits (compactTargetBits x)).toNat = truncated x.toNat :=
  fromCompactTargetBits_toNat (compactTargetBits_toNat x) (mantissa_exponent_lt _) (exponent_le x)
    ((truncated_le x.toNat).trans_lt x.isLt)

theorem exponent_mono (h : x ≤ y) : exponent x ≤ exponent y := by
  have hsize := Nat.size_le_size h
  unfold exponent
  split_ifs <;> omega

theorem compact_target_bits_exact (x y : Uint256) : (compactTargetBits x).toNat &&& 0x00800000 = 0 ∧
      (fromCompactTargetBits (compactTargetBits x)).toNat ≤ x.toNat ∧
      (2 ^ 16 ≤ x.toNat → 2 ^ 15 * x.toNat <
        (2 ^ 15 + 1) * (fromCompactTargetBits (compactTargetBits x)).toNat) ∧
      (x.toNat < 2 ^ 16 → fromCompactTargetBits (compactTargetBits x) = x) ∧
      (x ≤ y → compactTargetBits x ≤ compactTargetBits y) ∧
      ∀ c, c = compactTargetBits x → compactTargetBits (fromCompactTargetBits c) = c := by
  have hvalue := fromCompactTargetBits_compactTargetBits x
  have hlt := mantissa_exponent_lt x.toNat
  refine ⟨?_, ?_, ?_, ?_, ?_, ?_⟩
  · rw [← not_ne_iff, and_signBit_ne_zero, compactTargetBits_toNat]
    omega
  · rw [hvalue]
    exact truncated_le _
  · intro hx
    rw [hvalue]
    apply lt_truncated
    have hsize := Nat.lt_size.mpr hx
    rw [exponent, if_neg (by omega)]
    omega
  · intro hx
    apply BitVec.eq_of_toNat_eq
    rw [hvalue]
    apply truncated_eq
    have hsize := Nat.size_le.mpr hx
    unfold exponent
    split_ifs <;> omega
  · intro hxy
    rw [BitVec.le_def, compactTargetBits_toNat, compactTargetBits_toNat]
    have hexp := exponent_mono (BitVec.le_def.mp hxy)
    rcases hexp.eq_or_lt with heq | hexp
    · rw [heq]
      exact Nat.add_le_add_right (mantissa_mono _ (BitVec.le_def.mp hxy)) _
    · omega
  · rintro c rfl
    apply BitVec.eq_of_toNat_eq
    rw [compactTargetBits_toNat, hvalue, exponent_truncated, mantissa_truncated,
      compactTargetBits_toNat]

end CryptixAtomic.Difficulty

namespace CryptixAtomic.Uint

open Difficulty (Uint256)

def fromU64 (word : UInt64) : Uint 4 := ⟨[word, 0, 0, 0], rfl⟩

def fromCompactTargetBits (bits : BitVec 32) : Uint 4 :=
  let unshiftedExpt := bits.toNat >>> 24
  let (mant, expt) :=
    if unshiftedExpt ≤ 3 then ((bits.toNat &&& 0xFFFFFF) >>> (8 * (3 - unshiftedExpt)), 0)
    else (bits.toNat &&& 0xFFFFFF, 8 * (unshiftedExpt - 3))
  if mant > 0x7FFFFF then zero else ((fromU64 (.ofNat mant)).overflowingShl expt).1

@[inherit_doc Difficulty.leadingBytes]
def leadingBytes (self : Uint 4) (size : ℕ) : ℕ :=
  if size ≤ 3 then (self.limb 0 <<< .ofNat (8 * (3 - size))).toNat % 2 ^ 32
  else ((self.overflowingShr (8 * (size - 3))).1.limb 0).toNat % 2 ^ 32

def compactTargetBits (self : Uint 4) : BitVec 32 :=
  let size := (self.bits + 7) / 8
  let compact := self.leadingBytes size
  let (compact, size) :=
    if compact &&& 0x00800000 ≠ 0 then (compact >>> 8, size + 1) else (compact, size)
  BitVec.ofNat 32 (compact ||| size <<< 24)

/-- The number that the limbs stand for. -/
def toBitVec (a : Uint 4) : Uint256 := BitVec.ofNat 256 a.value

theorem toNat_toBitVec (a : Uint 4) : a.toBitVec.toNat = a.value := by
  rw [toBitVec, BitVec.toNat_ofNat]
  exact Nat.mod_eq_of_lt a.value_lt

theorem limb_zero_toNat (a : Uint 4) : (a.limb 0).toNat = a.toBitVec.toNat % 2 ^ 64 := by
  rw [toNat_toBitVec]
  apply Nat.eq_of_testBit_eq
  intro k
  rw [Nat.testBit_mod_two_pow]
  by_cases hk : k < 64
  · simpa [hk] using (testBit_value a 0 hk).symm
  · simp [hk, testBit_high _ (not_lt.mp hk)]

theorem toBitVec_shl (a : Uint 4) (s : ℕ) :
    (a.overflowingShl s).1.toBitVec = a.toBitVec <<< (s % 256) := by
  apply BitVec.eq_of_toNat_eq
  rw [BitVec.toNat_shiftLeft, toNat_toBitVec, toNat_toBitVec, value_overflowingShl]

theorem toBitVec_shr (a : Uint 4) (s : ℕ) :
    (a.overflowingShr s).1.toBitVec = a.toBitVec >>> (s % 256) := by
  apply BitVec.eq_of_toNat_eq
  rw [BitVec.toNat_ushiftRight, toNat_toBitVec, toNat_toBitVec, value_overflowingShr]

theorem fromCompactTargetBits_toBitVec (bits : BitVec 32) :
    (fromCompactTargetBits bits).toBitVec = Difficulty.fromCompactTargetBits bits := by
  unfold fromCompactTargetBits Difficulty.fromCompactTargetBits
  dsimp only
  generalize (if bits.toNat >>> 24 ≤ 3 then _ else _ : ℕ × ℕ) = decoded
  split_ifs with hmant
  · decide
  · have hword : (fromU64 (.ofNat decoded.1)).toBitVec = BitVec.ofNat 256 decoded.1 := by
      rw [toBitVec, value, fromU64, limbsValue_cons, UInt64.toNat_ofNat_of_lt'
        ((not_lt.mp hmant).trans_lt (by decide))]
      rfl
    rw [toBitVec_shl, hword]

theorem compactTargetBits_toBitVec (a : Uint 4) :
    a.compactTargetBits = Difficulty.compactTargetBits a.toBitVec := by
  have hbytes (size : ℕ) : a.leadingBytes size = Difficulty.leadingBytes a.toBitVec size := by
    unfold leadingBytes Difficulty.leadingBytes
    split_ifs
    · rw [toNat_shiftLeft _ (by omega), limb_zero_toNat]
    · rw [limb_zero_toNat, toBitVec_shr]
  simp only [compactTargetBits, Difficulty.compactTargetBits, hbytes, bits_eq_size, toNat_toBitVec]

end CryptixAtomic.Uint
