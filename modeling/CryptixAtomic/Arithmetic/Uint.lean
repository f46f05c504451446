import Mathlib.Tactic

/-!
# Multiplication of fixed-width integers

A `Uint` is an array of 64-bit limbs, the lowest one first. `overflowing_mul` adds up the
partial products that start inside the array and drops the others unseen. Its result is the
product modulo `2 ^ (64 * n)`, but the flag only reports carries of the products it has added.
-/
namespace CryptixAtomic

open List

structure Uint (n : ℕ) where
  limbs : List UInt64
  length : limbs.length = n

namespace Uint

def limbsValue (limbs : List UInt64) : ℕ := Nat.ofDigits (2 ^ 64) (limbs.map UInt64.toNat)

def value {n : ℕ} (a : Uint n) : ℕ := limbsValue a.limbs

/-- The inner loop: one limb of the second factor, over the limbs of the first one and the
window of the result that starts where the limb stands. -/
def mulRow (other : UInt64) :
    (carry : UInt64) → (self result : List UInt64) → List UInt64 × UInt64
  | carry, a :: self, r :: result =>
    let n := (a.toNat * other.toNat + r.toNat + carry.toNat) % 2 ^ 128
    let row := mulRow other (.ofNat (n / 2 ^ 64)) self result
    (.ofNat n :: row.1, row.2)
  | carry, _, result => (result, carry)

/-- The outer loop. The first limb of the window is final after its row. -/
def mulRows (self : List UInt64) : (other result : List UInt64) → List UInt64 × Bool
  | b :: other, result =>
    let row := mulRow b 0 self result
    let rows := mulRows self other row.1.tail
    (row.1.take 1 ++ rows.1, row.2 != 0 || rows.2)
  | [], result => (result, false)

def overflowingMul {n : ℕ} (self other : Uint n) : List UInt64 × Bool :=
  mulRows self.limbs other.limbs (replicate n 0)

/-- The sum of the partial products that start inside a window of `m` limbs. -/
def keptProducts (self : List UInt64) : (m : ℕ) → (other : List UInt64) → ℕ
  | m, b :: other => b.toNat * limbsValue (self.take m) + 2 ^ 64 * keptProducts self (m - 1) other
  | _, [] => 0

variable {self other result : List UInt64}

theorem limbsValue_cons (w : UInt64) (limbs : List UInt64) :
    limbsValue (w :: limbs) = w.toNat + 2 ^ 64 * limbsValue limbs := by
  simp [limbsValue, Nat.ofDigits_cons]

theorem limbsValue_lt (limbs : List UInt64) : limbsValue limbs < (2 ^ 64) ^ limbs.length := by
  rw [← length_map UInt64.toNat]
  exact Nat.ofDigits_lt_base_pow_length (by decide) (by simpa using fun w _ => w.toNat_lt)

theorem limbsValue_take_drop {m : ℕ} (h : m ≤ self.length) :
    limbsValue self = limbsValue (self.take m) + (2 ^ 64) ^ m * limbsValue (self.drop m) := by
  conv_lhs => rw [← take_append_drop m self]
  simp only [limbsValue, map_append, Nat.ofDigits_append, length_map, length_take_of_le h]

theorem limbProduct_lt (a b r carry : UInt64) :
    a.toNat * b.toNat + r.toNat + carry.toNat < 2 ^ 128 := by
  have hproduct : a.toNat * b.toNat ≤ (2 ^ 64 - 1) * (2 ^ 64 - 1) :=
    Nat.mul_le_mul (Nat.le_sub_one_of_lt a.toNat_lt) (Nat.le_sub_one_of_lt b.toNat_lt)
  have hr := r.toNat_lt
  have hcarry := carry.toNat_lt
  omega

theorem mulRow_spec (b carry : UInt64) (hle : result.length ≤ self.length) :
    (mulRow b carry self result).1.length = result.length ∧
      limbsValue (mulRow b carry self result).1 +
          (2 ^ 64) ^ result.length * (mulRow b carry self result).2.toNat =
        b.toNat * limbsValue (self.take result.length) + limbsValue result + carry.toNat := by
  induction result generalizing self carry with
  | nil => cases self <;> simp [mulRow, limbsValue]
  | cons r result ih =>
    obtain _ | ⟨a, self⟩ := self
    · simp at hle
    · have hfits := limbProduct_lt a b r carry
      simp only [mulRow, length_cons, limbsValue_cons, take_succ_cons, Nat.mod_eq_of_lt hfits]
      generalize hn : a.toNat * b.toNat + r.toNat + carry.toNat = n at *
      obtain ⟨hlength, hsum⟩ := ih (.ofNat (n / 2 ^ 64)) (Nat.le_of_succ_le_succ hle)
      have hmod := Nat.mod_add_div n (2 ^ 64)
      rw [UInt64.toNat_ofNat_of_lt' (Nat.div_lt_of_lt_mul hfits)] at hsum
      rw [UInt64.toNat_ofNat', hlength]
      exact ⟨rfl, by linear_combination (2 ^ 64) * hsum + hmod - hn⟩

/-- The rows keep the sum of the partial products up to the carries they report. -/
theorem mulRows_spec (other : List UInt64) (hle : result.length ≤ self.length)
    (hrows : other.length ≤ result.length) :
    ∃ lost, (mulRows self other result).1.length = result.length ∧
      limbsValue (mulRows self other result).1 + (2 ^ 64) ^ result.length * lost =
        limbsValue result + keptProducts self result.length other ∧
      ((mulRows self other result).2 = true ↔ lost ≠ 0) := by
  induction other generalizing result with
  | nil => exact ⟨0, by simp [mulRows, keptProducts]⟩
  | cons b other ih =>
    obtain ⟨hlength, hsum⟩ := mulRow_spec b 0 hle
    simp only [mulRows, length_cons] at hrows ⊢
    generalize mulRow b 0 self result = row at *
    obtain ⟨_ | ⟨low, row⟩, carry⟩ := row
    · simp only [length_nil] at hlength
      omega
    · simp only [length_cons] at hlength
      obtain ⟨lost, hlength', hsum', hout⟩ := ih (show row.length ≤ _ by omega) (by omega)
      refine ⟨carry.toNat + lost, by simp [hlength', hlength], ?_, ?_⟩
      · simp only [← hlength, keptProducts, tail_cons, take_succ_cons, take_zero, cons_append,
          nil_append, limbsValue_cons, Nat.add_sub_cancel, UInt64.toNat_zero] at hsum ⊢
        linear_combination (2 ^ 64) * hsum' + hsum
      · simp only [tail_cons, Bool.or_eq_true, hout, bne_iff_ne, ne_eq, ← UInt64.toNat_inj,
          UInt64.toNat_zero]
        omega

theorem mul_eq_keptProducts {m : ℕ} (hself : m ≤ self.length) (hother : other.length ≤ m) :
    ∃ dropped, limbsValue self * limbsValue other =
      keptProducts self m other + (2 ^ 64) ^ m * dropped := by
  induction other generalizing m with
  | nil => exact ⟨0, by simp [keptProducts, limbsValue]⟩
  | cons b other ih =>
    obtain ⟨m, rfl⟩ := Nat.exists_eq_succ_of_ne_zero (Nat.ne_zero_of_lt hother)
    obtain ⟨dropped, hsum⟩ := ih (Nat.le_of_succ_le hself) (Nat.le_of_succ_le_succ hother)
    have hsplit := limbsValue_take_drop hself
    refine ⟨b.toNat * limbsValue (self.drop (m + 1)) + dropped, ?_⟩
    simp only [keptProducts, limbsValue_cons, Nat.succ_eq_add_one, Nat.add_sub_cancel] at hsplit ⊢
    linear_combination b.toNat * hsplit + (2 ^ 64) * hsum

/-- The result is the product modulo `2 ^ (64 * n)`, and the flag is right if and only if
either no partial product was dropped or the kept ones overflow by themselves. -/
theorem overflowing_mul_exact_iff {n : ℕ} (a b : Uint n) :
    limbsValue (overflowingMul a b).1 = a.value * b.value % 2 ^ (64 * n) ∧
      (((overflowingMul a b).2 = true ↔ 2 ^ (64 * n) ≤ a.value * b.value) ↔
        keptProducts a.limbs n b.limbs = a.value * b.value ∨
          2 ^ (64 * n) ≤ keptProducts a.limbs n b.limbs) := by
  obtain ⟨lost, hlength, hsum, hout⟩ := mulRows_spec b.limbs
    (show (replicate n 0).length ≤ a.limbs.length by simp [a.length]) (by simp [b.length])
  obtain ⟨dropped, hproduct⟩ := mul_eq_keptProducts a.length.ge b.length.le
  have hlt := limbsValue_lt (overflowingMul a b).1
  have hzero : limbsValue (replicate n 0) = 0 := by simp [limbsValue]
  rw [overflowingMul, hlength, length_replicate] at hlt
  rw [hzero, length_replicate, zero_add] at hsum
  simp only [overflowingMul, value, hout, hproduct, ← hsum, pow_mul]
  generalize (2 ^ 64) ^ n = size at *
  constructor
  · rw [add_assoc, ← mul_add, Nat.add_mul_mod_self_left, Nat.mod_eq_of_lt hlt]
  · obtain _ | lost := lost <;> obtain _ | dropped := dropped <;>
      simp only [mul_zero, mul_add, mul_one, add_zero, true_or, iff_true] <;> omega

/-- The square of `2 ^ 128` in four limbs: the only partial product is dropped. -/
theorem square_overflows_unseen :
    let a : Uint 4 := ⟨[0, 0, 1, 0], rfl⟩
    2 ^ (64 * 4) ≤ a.value * a.value ∧ overflowingMul a a = ([0, 0, 0, 0], false) := by
  decide

end Uint
end CryptixAtomic
