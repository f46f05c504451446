import CryptixAtomic.Foundation.Checked

/-!
# Constant-product exchange with rounding

A pool holds `x` of one currency and `y` of another. A trade fixes one of the new
reserves and takes for the other the product of the old ones divided by it, rounded
up. Rounding up never lowers the product, and that is all that is needed to bound
what traders can take out, however they split and interleave their trades.
-/
namespace Foundation

section Rounding

theorem ceilDiv_mul_self (x : ℕ) {y : ℕ} (hy : 0 < y) : ceilDiv (x * y) y = x := by
  unfold ceilDiv
  rw [if_pos (Nat.mul_mod_left x y), Nat.mul_div_cancel x hy]

/-- The other reserve pays at least one unit as soon as the exact price is one unit. -/
theorem ceilDiv_mul_add_lt {x y t : ℕ} (hpos : 0 < y + t) (hprice : y + t ≤ x * t) :
    ceilDiv (x * y) (y + t) < x := by
  have hx : 0 < x := by
    rcases Nat.eq_zero_or_pos x with rfl | h
    · omega
    · exact h
  obtain ⟨m, rfl⟩ : ∃ m, x = m + 1 := ⟨x - 1, by omega⟩
  rw [Nat.lt_succ_iff, ceilDiv_le_iff hpos]
  have hleft : (m + 1) * y = m * y + y := by ring
  have hright : (m + 1) * t = m * t + t := by ring
  have hgoal : m * (y + t) = m * y + m * t := by ring
  omega

theorem le_ceilDiv_of_mul_le {k d m : ℕ} (hd : 0 < d) (h : m * d ≤ k) : m ≤ ceilDiv k d := by
  have hk := le_ceilDiv_mul k hd
  exact Nat.le_of_mul_le_mul_right (h.trans hk) hd

end Rounding

section Purchase

variable {k x y z t n : ℕ}

/-- Rounding up twice comes back to a reserve that is no larger than the other one. -/
theorem ceilDiv_ceilDiv (hz : 0 < z) (hle : z ≤ ceilDiv k z) : ceilDiv k (ceilDiv k z) = z := by
  have hpos : 0 < ceilDiv k z := by omega
  have hceil := le_ceilDiv_mul k hz
  have hless : ¬k ≤ (ceilDiv k z - 1) * z := mt (ceilDiv_le_iff hz _).mpr (by omega)
  generalize ceilDiv k z = r at *
  apply le_antisymm
  · rw [ceilDiv_le_iff hpos, mul_comm]
    exact hceil
  · by_contra hlt
    have hk : k ≤ (z - 1) * r := (ceilDiv_le_iff hpos _).mp (by omega)
    have hz' : (z - 1) * r = z * r - r := Nat.sub_one_mul z r
    have hr' : (r - 1) * z = r * z - z := Nat.sub_one_mul r z
    have hcomm := mul_comm r z
    omega

theorem lt_ceilDiv_of_bought (hx : 0 < x) (ht : 0 < t) (hty : t < y) :
    x < ceilDiv (x * y) (y - t) := by
  by_contra hge
  have hle := (ceilDiv_le_iff (by omega) _).mp (not_lt.mp hge)
  exact absurd (Nat.le_of_mul_le_mul_left hle hx) (by omega)

/-- Paying `n` leaves at most `y - t` exactly when it reaches the reserve that `t` costs. -/
theorem ceilDiv_le_sub_iff (hx : 0 < x) (hty : t < y) :
    ceilDiv (x * y) (x + n) ≤ y - t ↔ ceilDiv (x * y) (y - t) ≤ x + n := by
  rw [ceilDiv_le_iff (by omega), ceilDiv_le_iff (by omega), mul_comm (y - t)]

end Purchase

namespace ConstantProduct

@[ext] structure Reserves where
  x : ℕ
  y : ℕ

/-- What a sequence of trades moved: received and paid by the pool, in each currency. -/
structure Flow where
  xIn : ℕ
  xOut : ℕ
  yIn : ℕ
  yOut : ℕ

namespace Flow

def zero : Flow := ⟨0, 0, 0, 0⟩

def add (f g : Flow) : Flow :=
  ⟨f.xIn + g.xIn, f.xOut + g.xOut, f.yIn + g.yIn, f.yOut + g.yOut⟩

end Flow

/-- The reserves change by what was moved, and the product does not fall. -/
structure Moves (r : Reserves) (f : Flow) (r' : Reserves) : Prop where
  x : r'.x + f.xOut = r.x + f.xIn
  y : r'.y + f.yOut = r.y + f.yIn
  product : r.x * r.y ≤ r'.x * r'.y

namespace Moves

variable {r r' r'' : Reserves} {f g : Flow}

theorem refl (r : Reserves) : Moves r .zero r where
  x := rfl
  y := rfl
  product := le_rfl

theorem trans (hf : Moves r f r') (hg : Moves r' g r'') : Moves r (f.add g) r'' := by
  obtain ⟨hfx, hfy, hfk⟩ := hf
  obtain ⟨hgx, hgy, hgk⟩ := hg
  constructor
  · simp only [Flow.add]
    omega
  · simp only [Flow.add]
    omega
  · exact hfk.trans hgk

theorem x_le (h : Moves r f r') (hy : r'.y ≤ r.y) (hpos : 0 < r.y) : r.x ≤ r'.x := by
  have hk : r.x * r.y ≤ r'.x * r.y := h.product.trans (Nat.mul_le_mul_left r'.x hy)
  exact Nat.le_of_mul_le_mul_right hk hpos

theorem paid_le (h : Moves r f r') (hsold : f.yIn ≤ f.yOut) (hpos : 0 < r.y) :
    f.xOut ≤ f.xIn := by
  have hy := h.y
  have hx := h.x
  have hkept : r.x ≤ r'.x := h.x_le (by omega) hpos
  omega

end Moves

theorem moves_buy {x y n y' : ℕ} (hx : 0 < x + n) (hy' : y' = ceilDiv (x * y) (x + n))
    (hle : y' ≤ y) : Moves ⟨x, y⟩ ⟨n, 0, 0, y - y'⟩ ⟨x + n, y'⟩ := by
  have hk : x * y ≤ y' * (x + n) := by
    rw [hy']
    exact le_ceilDiv_mul (x * y) hx
  constructor
  · rfl
  · change y' + (y - y') = y + 0
    omega
  · change x * y ≤ (x + n) * y'
    rwa [mul_comm (x + n)]

theorem moves_sell {x y t x' : ℕ} (hy : 0 < y + t) (hx' : x' = ceilDiv (x * y) (y + t))
    (hle : x' ≤ x) : Moves ⟨x, y⟩ ⟨0, x - x', t, 0⟩ ⟨x', y + t⟩ := by
  constructor
  · change x' + (x - x') = x + 0
    omega
  · rfl
  · change x * y ≤ x' * (y + t)
    rw [hx']
    exact le_ceilDiv_mul (x * y) hy

end ConstantProduct
end Foundation
