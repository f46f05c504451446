import CryptixAtomic.Arithmetic.Uint
import Mathlib.Data.Nat.Size

/-!
# Shifts and bit lengths of fixed-width integers

The loops of `uint.rs` move whole limbs and then the bits left over to the neighbouring limb.
Bit `k` of a value is bit `k % 64` of limb `k / 64`, so the loops shift the value itself.
-/
namespace CryptixAtomic.Uint

open List

variable {n : ℕ}

def limb (self : Uint n) (i : ℕ) : UInt64 := self.limbs.getD i 0

def modify (self : Uint n) (i : ℕ) (write : UInt64 → UInt64) : Uint n :=
  ⟨self.limbs.modify i write, by rw [length_modify, self.length]⟩

/-- The loop `for i in start..n`, which writes the limb `i - back`. -/
def writeLimbs (start back : ℕ) (write : ℕ → UInt64 → UInt64) (ret : Uint n) : Uint n :=
  (range' start (n - start)).foldl (fun ret i => ret.modify (i - back) (write i)) ret

def zero : Uint n := ⟨replicate n 0, length_replicate⟩

/-- The loop over the whole limbs and the one over the bits left over. -/
def shlLimbs (self : Uint n) (leftWords leftShifts : ℕ) : Uint n :=
  let ret := writeLimbs leftWords 0
    (fun i _ => self.limb (i - leftWords) <<< .ofNat leftShifts) zero
  if leftShifts > 0 then
    writeLimbs (leftWords + 1) 0
      (fun i word => word ||| self.limb (i - 1 - leftWords) >>> .ofNat (64 - leftShifts)) ret
  else ret

@[inherit_doc shlLimbs]
def shrLimbs (self : Uint n) (leftWords leftShifts : ℕ) : Uint n :=
  let ret := writeLimbs leftWords leftWords (fun i _ => self.limb i >>> .ofNat leftShifts) zero
  if leftShifts > 0 then
    writeLimbs (leftWords + 1) (leftWords + 1)
      (fun i word => word ||| self.limb i <<< .ofNat (64 - leftShifts)) ret
  else ret

def overflowingShl (self : Uint n) (s : ℕ) : Uint n × Bool :=
  (self.shlLimbs (s % (64 * n) / 64) (s % (64 * n) % 64), 64 * n ≤ s)

def overflowingShr (self : Uint n) (s : ℕ) : Uint n × Bool :=
  (self.shrLimbs (s % (64 * n) / 64) (s % (64 * n) % 64), 64 * n ≤ s)

def leadingZeros (word : UInt64) : ℕ := 64 - word.toNat.size

/-- The loop of `bits`, from the highest limb down. -/
def bitsLoop : List UInt64 → ℕ
  | [] => 0
  | word :: lower =>
    if word ≠ 0 then 64 * (lower.length + 1) - leadingZeros word else bitsLoop lower

def bits (self : Uint n) : ℕ := bitsLoop self.limbs.reverse

theorem testBit_limbsValue (limbs : List UInt64) (k : ℕ) :
    (limbsValue limbs).testBit k = (limbs.getD (k / 64) 0).toNat.testBit (k % 64) := by
  induction limbs generalizing k with
  | nil => simp [limbsValue]
  | cons w limbs ih =>
    rw [limbsValue_cons, add_comm, Nat.testBit_two_pow_mul_add _ w.toNat_lt]
    split_ifs with hk
    · rw [Nat.div_eq_of_lt hk, Nat.mod_eq_of_lt hk]
      rfl
    · obtain ⟨j, rfl⟩ := Nat.exists_eq_add_of_le (not_lt.mp hk)
      rw [ih, Nat.add_sub_cancel_left, Nat.add_mod_left, Nat.add_div_left _ (by norm_num)]
      rfl

theorem testBit_value (a : Uint n) (j : ℕ) {r : ℕ} (hr : r < 64) :
    a.value.testBit (64 * j + r) = (a.limb j).toNat.testBit r := by
  rw [value, testBit_limbsValue, Nat.mul_add_div (by norm_num), Nat.div_eq_of_lt hr,
    Nat.mul_add_mod, Nat.mod_eq_of_lt hr]
  rfl

theorem value_lt (a : Uint n) : a.value < 2 ^ (64 * n) := by
  simpa only [value, a.length, pow_mul] using limbsValue_lt a.limbs

theorem limb_eq_zero (a : Uint n) {i : ℕ} (hi : n ≤ i) : a.limb i = 0 := by
  unfold limb
  rw [getD_eq_getElem?_getD, getElem?_eq_none (a.length.le.trans hi), Option.getD_none]

theorem limb_zero {i : ℕ} (hi : i < n) : (zero : Uint n).limb i = 0 := by
  simp [limb, zero, hi]

theorem limb_modify (a : Uint n) (write : UInt64 → UInt64) {i j : ℕ} (hj : j < n) :
    (a.modify i write).limb j = if i = j then write (a.limb j) else a.limb j := by
  have hlt : j < a.limbs.length := hj.trans_eq a.length.symm
  unfold limb modify
  rw [getD_eq_getElem?_getD, getD_eq_getElem?_getD, getElem?_modify, getElem?_eq_getElem hlt]
  split_ifs <;> rfl

theorem limb_writeLoop (write : ℕ → UInt64 → UInt64) {back j : ℕ} (hj : j < n) (m : ℕ) {start : ℕ}
    (ret : Uint n) (hback : back ≤ start) :
    ((range' start m).foldl (fun ret i => ret.modify (i - back) (write i)) ret).limb j =
      if start ≤ j + back ∧ j + back < start + m then write (j + back) (ret.limb j)
      else ret.limb j := by
  induction m generalizing start ret with
  | zero => rw [range'_zero, foldl_nil, if_neg (by omega)]
  | succ m ih =>
    rw [range'_succ, foldl_cons, ih _ (by omega), limb_modify ret _ hj]
    by_cases hstart : start - back = j
    · obtain rfl : start = j + back := by omega
      rw [if_neg (by omega), if_pos hstart, if_pos (by omega)]
    · rw [if_neg hstart]
      congr 1
      exact propext (by omega)

theorem limb_writeLimbs (write : ℕ → UInt64 → UInt64) (ret : Uint n) {start back j : ℕ}
    (hback : back ≤ start) (hj : j < n) : (writeLimbs start back write ret).limb j =
      if start ≤ j + back ∧ j + back < n then write (j + back) (ret.limb j) else ret.limb j := by
  unfold writeLimbs
  rw [limb_writeLoop write hj _ ret hback]
  congr 1
  exact propext (by omega)

theorem toNat_shiftLeft (word : UInt64) {s : ℕ} (hs : s < 64) :
    (word <<< UInt64.ofNat s).toNat = word.toNat <<< s % 2 ^ 64 := by
  rw [UInt64.toNat_shiftLeft, UInt64.toNat_ofNat_of_lt' (hs.trans (by decide)), Nat.mod_eq_of_lt hs]

theorem testBit_shiftLeft (word : UInt64) {s : ℕ} (hs : s < 64) (k : ℕ) :
    (word <<< UInt64.ofNat s).toNat.testBit k =
      (decide (k < 64) && decide (s ≤ k) && word.toNat.testBit (k - s)) := by
  rw [toNat_shiftLeft word hs, Nat.testBit_mod_two_pow, Nat.testBit_shiftLeft, Bool.and_assoc]

theorem testBit_shiftRight (word : UInt64) {s : ℕ} (hs : s < 64) (k : ℕ) :
    (word >>> UInt64.ofNat s).toNat.testBit k = word.toNat.testBit (s + k) := by
  rw [UInt64.toNat_shiftRight, UInt64.toNat_ofNat_of_lt' (hs.trans (by decide)),
    Nat.mod_eq_of_lt hs, Nat.testBit_shiftRight]

theorem testBit_high (word : UInt64) {k : ℕ} (hk : 64 ≤ k) : word.toNat.testBit k = false :=
  Nat.testBit_lt_two_pow (word.toNat_lt.trans_le (Nat.pow_le_pow_right two_pos hk))

theorem eq_of_limb_bits {x : ℕ} (a : Uint n) (hx : x < 2 ^ (64 * n))
    (h : ∀ j < n, ∀ r < 64, (a.limb j).toNat.testBit r = x.testBit (64 * j + r)) : a.value = x := by
  apply Nat.eq_of_testBit_eq
  intro k
  have hr : k % 64 < 64 := Nat.mod_lt _ (by norm_num)
  rw [← Nat.div_add_mod k 64, testBit_value a _ hr]
  by_cases hk : k / 64 < n
  · exact h _ hk _ hr
  · rw [limb_eq_zero a (not_lt.mp hk), Nat.testBit_lt_two_pow
      (hx.trans_le (Nat.pow_le_pow_right two_pos (show 64 * n ≤ _ by omega)))]
    exact Nat.zero_testBit _

theorem value_shlLimbs (a : Uint n) (w : ℕ) {d : ℕ} (hd : d < 64) :
    (a.shlLimbs w d).value = a.value <<< (64 * w + d) % 2 ^ (64 * n) := by
  apply eq_of_limb_bits _ (Nat.mod_lt _ (by positivity))
  intro j hj r hr
  have hlimb : (a.shlLimbs w d).limb j =
      (if w ≤ j then a.limb (j - w) <<< UInt64.ofNat d else 0) |||
        if 0 < d ∧ w < j then a.limb (j - 1 - w) >>> UInt64.ofNat (64 - d) else 0 := by
    by_cases hpos : 0 < d
    · simp only [shlLimbs, hpos, if_true, limb_writeLimbs _ _ (Nat.zero_le _) hj, limb_zero hj,
        add_zero, hj, and_true, true_and, Nat.succ_le_iff]
      split_ifs <;> simp
    · simp [shlLimbs, hpos, limb_writeLimbs _ _ (Nat.zero_le _) hj, limb_zero hj, hj]
  have hk : 64 * j + r < 64 * n := by omega
  rw [hlimb, UInt64.toNat_or, Nat.testBit_or, Nat.testBit_mod_two_pow, Nat.testBit_shiftLeft,
    decide_eq_true hk, Bool.true_and]
  by_cases hshift : 64 * w + d ≤ 64 * j + r
  · by_cases hdr : d ≤ r
    · -- the bit stays in the limb that is moved, and those of the limb below end under it
      rw [if_pos (by omega), testBit_shiftLeft _ hd,
        show 64 * j + r - (64 * w + d) = 64 * (j - w) + (r - d) by omega,
        testBit_value a _ (by omega)]
      split_ifs
      · rw [testBit_shiftRight _ (by omega), testBit_high (a.limb (j - 1 - w)) (by omega)]
        simp [hr, hdr, hshift]
      · simp [hr, hdr, hshift]
    · -- the bit comes over from the limb below
      rw [if_pos (by omega), testBit_shiftLeft _ hd, if_pos (by omega),
        testBit_shiftRight _ (by omega),
        show 64 * j + r - (64 * w + d) = 64 * (j - 1 - w) + (64 - d + r) by omega,
        testBit_value a _ (by omega)]
      simp [hdr, hshift]
  · rw [if_neg (show ¬(0 < d ∧ w < j) by omega)]
    split_ifs with hw
    · rw [testBit_shiftLeft _ hd]
      simp [hshift, show ¬d ≤ r by omega]
    · simp [hshift]

theorem value_shrLimbs (a : Uint n) (w : ℕ) {d : ℕ} (hd : d < 64) :
    (a.shrLimbs w d).value = a.value >>> (64 * w + d) := by
  apply eq_of_limb_bits _ ((Nat.shiftRight_le _ _).trans_lt a.value_lt)
  intro j hj r hr
  have hlimb : (a.shrLimbs w d).limb j = a.limb (j + w) >>> UInt64.ofNat d |||
      if 0 < d then a.limb (j + (w + 1)) <<< UInt64.ofNat (64 - d) else 0 := by
    -- the loops stop at the last limb, above which all limbs read as zero
    have hzero {i : ℕ} (hi : ¬i < n) : a.limb i = 0 := limb_eq_zero a (not_lt.mp hi)
    simp only [shrLimbs, apply_ite (limb · j), limb_writeLimbs _ _ le_rfl hj, limb_zero hj,
      Nat.le_add_left, true_and, gt_iff_lt]
    split_ifs <;> simp [*]
  rw [hlimb, UInt64.toNat_or, Nat.testBit_or, Nat.testBit_shiftRight, testBit_shiftRight _ hd]
  by_cases hdr : d + r < 64
  · -- the bit stays in the limb that is moved
    rw [show 64 * w + d + (64 * j + r) = 64 * (j + w) + (d + r) by ring, testBit_value a _ hdr]
    split_ifs
    · rw [testBit_shiftLeft _ (by omega), decide_eq_false (show ¬64 - d ≤ r by omega)]
      simp
    · simp
  · -- the bit comes over from the limb above
    rw [testBit_high _ (not_lt.mp hdr), Bool.false_or, if_pos (by omega),
      testBit_shiftLeft _ (by omega),
      show 64 * w + d + (64 * j + r) = 64 * (j + (w + 1)) + (r - (64 - d)) by omega,
      testBit_value a _ (by omega)]
    simp [hr, show 64 ≤ r + d by omega]

theorem value_overflowingShl (a : Uint n) (s : ℕ) :
    (a.overflowingShl s).1.value = a.value <<< (s % (64 * n)) % 2 ^ (64 * n) := by
  rw [overflowingShl, value_shlLimbs a _ (Nat.mod_lt _ (by norm_num)), Nat.div_add_mod]

theorem value_overflowingShr (a : Uint n) (s : ℕ) :
    (a.overflowingShr s).1.value = a.value >>> (s % (64 * n)) := by
  rw [overflowingShr, value_shrLimbs a _ (Nat.mod_lt _ (by norm_num)), Nat.div_add_mod]

theorem size_add_two_pow_mul {x w k : ℕ} (hx : x < 2 ^ k) (hw : w ≠ 0) :
    (x + 2 ^ k * w).size = k + w.size := by
  obtain ⟨s, hs⟩ := Nat.exists_eq_succ_of_ne_zero (mt Nat.size_eq_zero.mp hw)
  apply le_antisymm
  · rw [Nat.size_le, pow_add]
    calc x + 2 ^ k * w < 2 ^ k * (w + 1) := by rw [mul_add_one]; omega
      _ ≤ 2 ^ k * 2 ^ w.size := Nat.mul_le_mul_left _ (Nat.lt_size_self w)
  · rw [hs, Nat.add_succ, Nat.succ_le_iff, Nat.lt_size, pow_add]
    have hle : 2 ^ s ≤ w := Nat.lt_size.mp (by omega)
    exact (Nat.mul_le_mul_left _ hle).trans (Nat.le_add_left _ _)

theorem bitsLoop_reverse (limbs : List UInt64) :
    bitsLoop limbs.reverse = (limbsValue limbs).size := by
  induction limbs using reverseRecOn with
  | nil => rfl
  | append_singleton limbs w ih =>
    have hvalue : limbsValue (limbs ++ [w]) =
        limbsValue limbs + 2 ^ (64 * limbs.length) * w.toNat := by
      simp [limbsValue, Nat.ofDigits_append, pow_mul]
    rw [reverse_append, reverse_singleton, singleton_append, bitsLoop, hvalue]
    split_ifs with hw
    · have hsize : w.toNat.size ≤ 64 := Nat.size_le.mpr w.toNat_lt
      have hlt : limbsValue limbs < 2 ^ (64 * limbs.length) := by
        simpa only [pow_mul] using limbsValue_lt limbs
      rw [size_add_two_pow_mul hlt (fun h => hw (UInt64.toNat_inj.mp h)), length_reverse, leadingZeros]
      omega
    · rw [not_not.mp hw, ih, UInt64.toNat_zero, mul_zero, add_zero]

theorem bits_eq_size (a : Uint n) : a.bits = a.value.size := bitsLoop_reverse a.limbs

end CryptixAtomic.Uint
