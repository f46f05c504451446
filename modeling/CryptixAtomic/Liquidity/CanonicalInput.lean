import CryptixAtomic.Liquidity.Trades

/-!
# The canonical input of a buy

A buy has to pay the least gross input for the tokens it takes. The source inverts the
curve and then the fee, each with its own rounding, and corrects the closed form of the
second step in two loops. The closed form needs no correction.
-/
namespace CryptixAtomic

open Foundation ConsensusMath

section Fees

/-- What is left of a gross amount after the trade fee. -/
def netOfFee (feeBps gross : ℕ) : ℕ := gross - gross * feeBps / feeBpsDenominator

/-- The closed form with which the search for the gross amount starts. -/
def grossGuess (netIn feeBps : ℕ) : ℕ :=
  (netIn - 1) * feeBpsDenominator / (feeBpsDenominator - feeBps) + 1

variable {ε : Type} {err : MathErrors ε} {netIn feeBps : ℕ} (hnet : 0 < netIn)
  (hrate : feeBps < feeBpsDenominator)
include hrate

theorem checkedSub_tradeFee (gross : ℕ) :
    checkedSub gross (gross * feeBps / feeBpsDenominator) = some (netOfFee feeBps gross) := by
  have hle := Nat.div_le_of_le_mul ((Nat.mul_le_mul_left gross hrate.le).trans_eq (mul_comm ..))
  exact checkedSub_eq_some.mpr ⟨hle, rfl⟩

include hnet

/-- The guess inverts the fee exactly: both sides say that `gross` without the part taken
as a fee exceeds `netIn - 1`. -/
theorem le_netOfFee_iff (gross : ℕ) :
    netIn ≤ netOfFee feeBps gross ↔ grossGuess netIn feeBps ≤ gross := by
  unfold netOfFee grossGuess
  generalize feeBpsDenominator = d at *
  obtain ⟨e, rfl⟩ : ∃ e, d = feeBps + e := ⟨d - feeBps, by omega⟩
  have hsub : netIn ≤ gross - gross * feeBps / (feeBps + e) ↔
      gross * feeBps / (feeBps + e) < gross - (netIn - 1) := by
    generalize gross * feeBps / (feeBps + e) = fee
    omega
  have hsplit := Nat.mul_add gross feeBps e
  rw [hsub, Nat.div_lt_iff_lt_mul (by omega), Nat.sub_mul, Nat.succ_le_iff,
    Nat.add_sub_cancel_left, Nat.div_lt_iff_lt_mul (by omega)]
  omega

theorem netOfFee_grossGuess : netOfFee feeBps (grossGuess netIn feeBps) = netIn := by
  have hle := (le_netOfFee_iff hnet hrate _).mpr le_rfl
  obtain ⟨g, hg⟩ : ∃ g, grossGuess netIn feeBps = g + 1 := ⟨_, rfl⟩
  have hless := mt (le_netOfFee_iff hnet hrate g).mp (by omega)
  have hfee : g * feeBps / feeBpsDenominator ≤ (g + 1) * feeBps / feeBpsDenominator :=
    Nat.div_le_div_right (Nat.mul_le_mul_right feeBps g.le_succ)
  rw [hg] at hle ⊢
  unfold netOfFee at *
  omega

variable (err) (hfits : grossGuess netIn feeBps < 2 ^ 64)
include hfits

theorem lowerGross_grossGuess :
    lowerGross err netIn feeBps (grossGuess netIn feeBps) = .ok (grossGuess netIn feeBps) := by
  match hguess : grossGuess netIn feeBps with
  | 0 => rfl
  | 1 => rfl
  | gross + 2 =>
    -- one less leaves less than the net amount, and the loop stops at once
    have hless := not_le.mp (mt (le_netOfFee_iff hnet hrate (gross + 1)).mp (by omega))
    have hprevious : checkedSub (gross + 2) 1 = some (gross + 1) := by simp [checkedSub]
    have hfee := calculateTradeFee_of_lt err (show gross + 1 < 2 ^ 64 by omega) hrate
    simp [lowerGross, hprevious, okOr, hfee, checkedSub_tradeFee hrate, hless]

theorem raiseGross_grossGuess {room : ℕ} (hroom : 0 < room) :
    raiseGross err netIn feeBps room (grossGuess netIn feeBps) = .ok (grossGuess netIn feeBps) := by
  obtain ⟨room, rfl⟩ := Nat.exists_eq_succ_of_ne_zero hroom.ne'
  simp [raiseGross, okOr, calculateTradeFee_of_lt err hfits hrate, checkedSub_tradeFee hrate,
    netOfFee_grossGuess hnet hrate]

omit hfits in
/-- The search succeeds exactly when its first guess is a 64-bit value, and returns it. -/
theorem minGrossInputForNetInput_eq_ok {gross : ℕ} (hword : netIn < 2 ^ 64) :
    minGrossInputForNetInput err netIn feeBps = .ok gross ↔
      gross = grossGuess netIn feeBps ∧ gross < 2 ^ 64 := by
  have hvalid : ¬(netIn = 0 ∨ feeBps ≥ feeBpsDenominator) := by omega
  unfold minGrossInputForNetInput
  simp only [except_bind_eq_ok, failIf_eq_ok, hvalid, not_false_eq_true, true_and, exists_const]
  split_ifs with hzero
  · subst hzero
    have hguess : grossGuess netIn 0 = netIn := by
      unfold grossGuess feeBpsDenominator
      omega
    rw [hguess, except_pure_eq_ok]
    omega
  · simp only [except_bind_eq_ok, okOr_eq_ok, checkedSub_eq_some, checkedMul_eq_some,
      checkedDiv_eq_some, checkedAdd_eq_some, tryNarrow_eq_some]
    have hlower := lowerGross_grossGuess err hnet hrate
    have hraise := fun hfits =>
      raiseGross_grossGuess err hnet hrate hfits (Nat.sub_pos_of_lt hfits)
    constructor
    · rintro ⟨_, ⟨-, rfl⟩, _, ⟨-, rfl⟩, _, ⟨-, rfl⟩, _, ⟨-, rfl⟩, _, ⟨-, rfl⟩, _, ⟨hfits, rfl⟩,
        lowered, hlow, hrise⟩
      obtain rfl := Except.ok.inj (hlow.symm.trans (hlower hfits))
      obtain rfl := Except.ok.inj (hrise.symm.trans (hraise hfits))
      exact ⟨rfl, hfits⟩
    · rintro ⟨rfl, hfits⟩
      have hdiv := Nat.div_le_self ((netIn - 1) * feeBpsDenominator) (feeBpsDenominator - feeBps)
      have hscaled : (netIn - 1) * feeBpsDenominator + 1 < 2 ^ 128 := by
        unfold feeBpsDenominator
        omega
      exact ⟨_, ⟨hrate.le, rfl⟩, _, ⟨hnet, rfl⟩, _, ⟨by omega, rfl⟩, _, ⟨by omega, rfl⟩, _,
        ⟨by omega, rfl⟩, _, ⟨hfits, rfl⟩, _, hlower hfits, hraise hfits⟩

omit hfits in
/-- For every positive net amount and every rate below one, the search returns the least
gross amount that leaves it and fails exactly when that amount is no 64-bit value. The
closed form is already that least amount: neither loop moves away from it, and the raising
loop needs room for a single value. -/
theorem minGrossInputForNetInput_returns_least (hword : netIn < 2 ^ 64) :
    IsLeast {gross | netIn ≤ gross - gross * feeBps / 10000} (grossGuess netIn feeBps) ∧
      (∀ gross, minGrossInputForNetInput err netIn feeBps = .ok gross ↔
        gross = grossGuess netIn feeBps ∧ gross < 2 ^ 64) ∧
      (grossGuess netIn feeBps < 2 ^ 64 →
        lowerGross err netIn feeBps (grossGuess netIn feeBps) = .ok (grossGuess netIn feeBps) ∧
        raiseGross err netIn feeBps 1 (grossGuess netIn feeBps) = .ok (grossGuess netIn feeBps)) :=
  have hiff := le_netOfFee_iff hnet hrate
  ⟨⟨(hiff _).mpr le_rfl, fun gross => (hiff gross).mp⟩,
    fun _ => minGrossInputForNetInput_eq_ok err hnet hrate hword,
    fun hfits => ⟨lowerGross_grossGuess err hnet hrate hfits,
      raiseGross_grossGuess err hnet hrate hfits Nat.one_pos⟩⟩

end Fees

theorem hundred_net_at_one_percent : minGrossInputForNetInput errors 100 100 = .ok 101 :=
  ((minGrossInputForNetInput_returns_least errors (by decide) (by decide) (by decide)).2.1
    101).mpr (by decide)

/-- A zero net amount is refused, although nothing is left of nothing. -/
theorem zero_net_is_refused : IsLeast {gross | 0 ≤ gross - gross * 100 / 10000} 0 ∧
    minGrossInputForNetInput errors 0 100 = .error errors.canonicalInput :=
  ⟨⟨Nat.zero_le _, fun _ _ => Nat.zero_le _⟩, rfl⟩

section Targets

/-- Reserves from which `t` tokens can be bought. -/
structure Purchasable (real x y t feeBps : ℕ) : Prop where
  rate : feeBps < feeBpsDenominator
  tokenPos : 0 < t
  keeps : t < real
  realLe : real ≤ y
  cheap : y ≤ x
  tokenFits : y < 2 ^ 128

/-- A 64-bit gross input whose net amount buys at least `t` tokens. -/
def BuysAtLeast (real x y feeBps t gross : ℕ) : Prop :=
  gross < 2 ^ 64 ∧ ∃ fee q, calculateTradeFee errors gross feeBps = .ok fee ∧
    cpmmBuy real x y (gross - fee) = .ok q ∧ t ≤ q.tokenOut

/-- The virtual sompi reserve after `t` tokens are bought. -/
def reserveAfter (x y t : ℕ) : ℕ := ceilDiv (x * y) (y - t)

/-- The least gross input for `t` tokens. -/
def grossFor (x y t feeBps : ℕ) : ℕ := grossGuess (reserveAfter x y t - x) feeBps

namespace Purchasable

variable {real x y t feeBps gross : ℕ} (h : Purchasable real x y t feeBps)
include h

theorem reserveAfter_gt : x < reserveAfter x y t := by
  obtain ⟨_, _, _, _, _, _⟩ := h
  exact lt_ceilDiv_of_bought (by omega) (by omega) (by omega)

theorem isCpmmBuy (hfits : reserveAfter x y t < 2 ^ 64) :
    IsCpmmBuy real x y (reserveAfter x y t - x) ⟨t, real - t, reserveAfter x y t, y - t⟩ := by
  have hgt := h.reserveAfter_gt
  obtain ⟨_, _, _, _, _, _⟩ := h
  have hsum : x + (reserveAfter x y t - x) = reserveAfter x y t := by omega
  have hback : ceilDiv (x * y) (reserveAfter x y t) = y - t :=
    ceilDiv_ceilDiv (by omega) (by unfold reserveAfter at hgt; omega)
  constructor <;> simp only [hsum, hback, minRealTokenReserve, Nat.sub_pos_of_lt hgt] <;> omega

theorem grossFor_le (hbuys : BuysAtLeast real x y feeBps t gross) :
    grossFor x y t feeBps ≤ gross ∧ reserveAfter x y t < 2 ^ 64 := by
  have hgt := h.reserveAfter_gt
  obtain ⟨hfits, fee, q, hfee, hq, hout⟩ := hbuys
  obtain rfl := Except.ok.inj (hfee.symm.trans (calculateTradeFee_of_lt _ hfits h.rate))
  have hq := cpmmBuy_eq_ok.mp hq
  have hle : reserveAfter x y t ≤ x + netOfFee feeBps gross := by
    obtain ⟨_, _, _, _, _, _⟩ := h
    refine (ceilDiv_le_sub_iff (by omega) (by omega)).mp (hq.token.ge.trans ?_)
    have := hq.out
    omega
  have hcpay : x + netOfFee feeBps gross < 2 ^ 64 := hq.cpayFits
  exact ⟨(le_netOfFee_iff (Nat.sub_pos_of_lt hgt) h.rate _).mp (by omega), by omega⟩

/-- As soon as some input buys `t` tokens, either copy of the search finds the canonical
input, which buys exactly `t`. -/
theorem bought {ε : Type} (err : MathErrors ε) {buy : ℕ → ℕ → ℕ → ℕ → Except ε CpmmBuy}
    (hbuy : ∀ {n q}, buy real x y n = .ok q ↔ IsCpmmBuy real x y n q)
    (hbuys : BuysAtLeast real x y feeBps t gross) :
    ∃ fee q, minGrossInputForTokenOutWith err buy real x y t feeBps = .ok (grossFor x y t feeBps) ∧
      calculateTradeFee err (grossFor x y t feeBps) feeBps = .ok fee ∧
      buy real x y (grossFor x y t feeBps - fee) = .ok q ∧ q.tokenOut = t := by
  obtain ⟨hle, hreserve⟩ := h.grossFor_le hbuys
  have hgt := h.reserveAfter_gt
  have hfits := hle.trans_lt hbuys.1
  have hnet : netOfFee feeBps (grossFor x y t feeBps) = _ :=
    netOfFee_grossGuess (Nat.sub_pos_of_lt hgt) h.rate
  have hexact := hbuy.mpr (h.isCpmmBuy hreserve)
  rw [← hnet] at hexact
  have hfee := calculateTradeFee_of_lt err hfits h.rate
  refine ⟨_, _, ?_, hfee, hexact, rfl⟩
  have hword : reserveAfter x y t - x < 2 ^ 64 := by omega
  have hmin := (minGrossInputForNetInput_eq_ok err (Nat.sub_pos_of_lt hgt) h.rate hword).mpr
    ⟨rfl, hfits⟩
  have hsub := checkedSub_eq_some.mp (checkedSub_tradeFee h.rate (grossFor x y t feeBps))
  obtain ⟨_, _, _, _, _, _⟩ := h
  simp only [minGrossInputForTokenOutWith, except_bind_eq_ok, failIf_eq_ok, okOr_eq_ok,
    checkedSub_eq_some, tryNarrow_eq_some, except_pure_eq_ok, exists_const, minRealTokenReserve]
  exact ⟨by omega, _, ⟨by omega, rfl⟩, by omega, _, ⟨by omega, rfl⟩, by omega, not_le.mpr hgt, _,
    ⟨hword.trans (by decide), rfl⟩, _, ⟨hword, rfl⟩, _, hmin, _, hfee, _, hsub, _, hexact,
    lt_irrefl t, rfl⟩

theorem isLeast_grossFor (hbuys : BuysAtLeast real x y feeBps t gross) :
    IsLeast {g | BuysAtLeast real x y feeBps t g} (grossFor x y t feeBps) := by
  obtain ⟨fee, q, -, hfee, hq, rfl⟩ := h.bought errors cpmmBuy_eq_ok hbuys
  exact ⟨⟨(h.grossFor_le hbuys).1.trans_lt hbuys.1, fee, q, hfee, hq, le_rfl⟩,
    fun _ hg => (h.grossFor_le hg).1⟩

end Purchasable

end Targets

end CryptixAtomic
