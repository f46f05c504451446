import CryptixAtomic.Liquidity.Math

/-!
# What fees and trades compute

One specification per function of the pool arithmetic. Each says when the function
succeeds and with what, without mentioning the errors, so that the specifications of
the two copies can be compared.
-/
namespace CryptixAtomic

open Foundation

section Trades

/-- What a buy with `cpayNetIn` sompi computes, in either copy. -/
structure IsCpmmBuy (realToken virtualCpay virtualToken cpayNetIn : ℕ) (q : CpmmBuy) : Prop where
  netInPos : 0 < cpayNetIn
  cpay : q.virtualCpayReservesSompi = virtualCpay + cpayNetIn
  cpayFits : virtualCpay + cpayNetIn < 2 ^ 64
  token : q.virtualTokenReserves = ceilDiv (virtualCpay * virtualToken) (virtualCpay + cpayNetIn)
  tokenFits : q.virtualTokenReserves < 2 ^ 128
  tokenPos : 0 < q.virtualTokenReserves
  out : q.virtualTokenReserves + q.tokenOut = virtualToken
  outPos : 0 < q.tokenOut
  real : q.realTokenReserves + q.tokenOut = realToken
  realFloor : minRealTokenReserve ≤ q.realTokenReserves

/-- What a sell of `tokenIn` tokens computes, in either copy. -/
structure IsCpmmSell (realCpay virtualCpay virtualToken tokenIn : ℕ) (q : CpmmSell) : Prop where
  tokenInPos : 0 < tokenIn
  token : q.virtualTokenReserves = virtualToken + tokenIn
  tokenFits : virtualToken + tokenIn < 2 ^ 128
  cpay : q.virtualCpayReservesSompi = ceilDiv (virtualCpay * virtualToken) (virtualToken + tokenIn)
  cpayFits : q.virtualCpayReservesSompi < 2 ^ 64
  out : q.virtualCpayReservesSompi + q.grossOut = virtualCpay
  outPos : 0 < q.grossOut
  real : q.realCpayReservesSompi + q.grossOut = realCpay
  realFloor : minCpayReserveSompi ≤ q.realCpayReservesSompi

variable {realToken realCpay x y n t : ℕ}

theorem ConsensusMath.cpmmBuy_eq_ok {q : CpmmBuy} :
    ConsensusMath.cpmmBuy realToken x y n = .ok q ↔ IsCpmmBuy realToken x y n q := by
  unfold ConsensusMath.cpmmBuy
  simp only [except_bind_eq_ok, failIf_eq_ok, okOr_eq_ok, checkedAdd_eq_some, tryNarrow_eq_some,
    checkedSub_eq_some, except_pure_eq_ok, exists_const, not_or, not_le, not_lt, gt_iff_lt]
  constructor
  · rintro ⟨hfloor, _, ⟨hx, rfl⟩, ⟨hx0, hy0⟩, _, ⟨hfits, rfl⟩, hpos, hle, _, ⟨-, rfl⟩, hout, _,
      ⟨hreal, rfl⟩, hkeep, rfl⟩
    -- paying nothing in leaves the token reserve as it is
    have hn : 0 < n := by
      rcases Nat.eq_zero_or_pos n with rfl | h
      · rw [add_zero] at hx0 hout
        rw [mul_comm, ceilDiv_mul_self y (Nat.pos_of_ne_zero hx0)] at hout
        omega
      · exact h
    constructor <;> first | rfl | omega | (simp only; omega)
  · obtain ⟨out, real, cpay, token⟩ := q
    rintro ⟨hn, rfl, hxfits, rfl, hyfits, hypos, hout, houtpos, hreal, hfloor⟩
    simp only [minRealTokenReserve] at *
    refine ⟨by omega, _, ⟨hxfits, rfl⟩, ⟨by omega, by omega⟩, _, ⟨hyfits, rfl⟩, by omega,
      by omega, _, ⟨by omega, rfl⟩, by omega, _, ⟨by omega, rfl⟩, by omega, ?_⟩
    simp only [CpmmBuy.mk.injEq, and_true]
    omega

theorem IndexMath.cpmmBuy_eq_ok {q : CpmmBuy} :
    IndexMath.cpmmBuy realToken x y n = .ok q ↔ IsCpmmBuy realToken x y n q := by
  unfold IndexMath.cpmmBuy
  simp only [except_bind_eq_ok, failIf_eq_ok, okOr_eq_ok, checkedAdd_eq_some, tryNarrow_eq_some,
    checkedSub_eq_some, except_pure_eq_ok, exists_const, not_or, not_le, not_lt, gt_iff_lt]
  constructor
  · rintro ⟨hn, hfloor, _, ⟨hx, rfl⟩, hx0, _, ⟨hfits, rfl⟩, ⟨hpos, hle⟩, _, ⟨-, rfl⟩, hout, _,
      ⟨-, rfl⟩, hkeep, _, ⟨hreal, rfl⟩, rfl⟩
    constructor <;> first | rfl | omega | (simp only; omega)
  · obtain ⟨out, real, cpay, token⟩ := q
    rintro ⟨hn, rfl, hxfits, rfl, hyfits, hypos, hout, houtpos, hreal, hfloor⟩
    simp only [minRealTokenReserve] at *
    refine ⟨by omega, by omega, _, ⟨hxfits, rfl⟩, by omega, _, ⟨hyfits, rfl⟩, by omega, _,
      ⟨by omega, rfl⟩, by omega, _, ⟨by omega, rfl⟩, by omega, _, ⟨by omega, rfl⟩, ?_⟩
    simp only [CpmmBuy.mk.injEq, and_true]
    omega

variable {q : CpmmSell}

theorem ConsensusMath.cpmmSell_eq_ok :
    ConsensusMath.cpmmSell realCpay x y t = .ok q ↔ IsCpmmSell realCpay x y t q := by
  unfold ConsensusMath.cpmmSell
  simp only [except_bind_eq_ok, failIf_eq_ok, okOr_eq_ok, checkedAdd_eq_some, tryNarrow_eq_some,
    checkedSub_eq_some, except_pure_eq_ok, exists_const, not_lt, gt_iff_lt]
  constructor
  · rintro ⟨_, ⟨hy, rfl⟩, hy0, _, ⟨-, rfl⟩, _, ⟨hfits, rfl⟩, hle, _, ⟨-, rfl⟩, hout, _,
      ⟨hreal, rfl⟩, hkeep, rfl⟩
    -- selling nothing pays nothing
    have ht : 0 < t := by
      rcases Nat.eq_zero_or_pos t with rfl | h
      · rw [add_zero] at hy0 hout
        rw [ceilDiv_mul_self x (Nat.pos_of_ne_zero hy0)] at hout
        omega
      · exact h
    constructor <;> first | rfl | omega | (simp only; omega)
  · obtain ⟨out, real, cpay, token⟩ := q
    rintro ⟨ht, rfl, hyfits, rfl, hxfits, hout, houtpos, hreal, hfloor⟩
    simp only [minCpayReserveSompi] at *
    refine ⟨_, ⟨hyfits, rfl⟩, by omega, _, ⟨by omega, rfl⟩, _, ⟨hxfits, rfl⟩, by omega, _,
      ⟨by omega, rfl⟩, by omega, _, ⟨by omega, rfl⟩, by omega, ?_⟩
    simp only [CpmmSell.mk.injEq, and_true]
    omega

theorem IndexMath.cpmmSell_eq_ok :
    IndexMath.cpmmSell realCpay x y t = .ok q ↔ IsCpmmSell realCpay x y t q := by
  unfold IndexMath.cpmmSell
  simp only [except_bind_eq_ok, failIf_eq_ok, okOr_eq_ok, checkedAdd_eq_some, tryNarrow_eq_some,
    checkedSub_eq_some, except_pure_eq_ok, exists_const, not_lt, gt_iff_lt]
  constructor
  · rintro ⟨ht, _, ⟨hy, rfl⟩, _, ⟨-, rfl⟩, _, ⟨hfits, rfl⟩, hle, _, ⟨-, rfl⟩, hout, _,
      ⟨hspend, rfl⟩, hkeep, _, ⟨hreal, rfl⟩, rfl⟩
    simp only [minCpayReserveSompi] at hkeep hspend
    constructor <;> first | rfl | omega | (simp only [minCpayReserveSompi]; omega)
  · obtain ⟨out, real, cpay, token⟩ := q
    rintro ⟨ht, rfl, hyfits, rfl, hxfits, hout, houtpos, hreal, hfloor⟩
    simp only [minCpayReserveSompi] at *
    refine ⟨by omega, _, ⟨hyfits, rfl⟩, _, ⟨by omega, rfl⟩, _, ⟨hxfits, rfl⟩, by omega, _,
      ⟨by omega, rfl⟩, by omega, _, ⟨by omega, rfl⟩, by omega, _, ⟨by omega, rfl⟩, ?_⟩
    simp only [CpmmSell.mk.injEq, and_true]
    omega

open ConstantProduct in
theorem IsCpmmBuy.moves {q : CpmmBuy} (h : IsCpmmBuy realToken x y n q) :
    Moves ⟨x, y⟩ ⟨n, 0, 0, q.tokenOut⟩ ⟨q.virtualCpayReservesSompi, q.virtualTokenReserves⟩ := by
  have hout := h.out
  have hpaid : q.tokenOut = y - q.virtualTokenReserves := by omega
  rw [h.cpay, hpaid]
  have hpos := h.netInPos
  exact moves_buy (by omega) h.token (by omega)

open ConstantProduct in
theorem IsCpmmSell.moves (h : IsCpmmSell realCpay x y t q) :
    Moves ⟨x, y⟩ ⟨0, q.grossOut, t, 0⟩ ⟨q.virtualCpayReservesSompi, q.virtualTokenReserves⟩ := by
  have hout := h.out
  have hpaid : q.grossOut = x - q.virtualCpayReservesSompi := by omega
  rw [h.token, hpaid]
  have hpos := h.tokenInPos
  exact moves_sell (by omega) h.cpay (by omega)

/-- A sell succeeds when one sompi buys less than one token and the product covers the
floor `m` of the first reserve, below which the real reserve does not fall. -/
theorem exists_isCpmmSell {m : ℕ} (ht : 0 < t) (hyfits : y + t < 2 ^ 128) (hxfits : x < 2 ^ 64)
    (hprice : y + t ≤ x * t) (hcover : m * (y + t) ≤ x * y) (hreal : x + 1 ≤ realCpay + m) :
    ∃ q, IsCpmmSell realCpay x y t q ∧ m ≤ q.virtualCpayReservesSompi := by
  have hpos : 0 < y + t := by omega
  have hlt := ceilDiv_mul_add_lt hpos hprice
  have hm := le_ceilDiv_of_mul_le hpos hcover
  generalize hx' : ceilDiv (x * y) (y + t) = x' at hlt hm
  refine ⟨⟨x - x', realCpay - (x - x'), x', y + t⟩, ?_, hm⟩
  constructor <;> first | omega | (simp only [minCpayReserveSompi] <;> omega)

end Trades

section Fees

variable {ε : Type} {err : MathErrors ε}

theorem calculateTradeFee_eq_ok {amount feeBps fee : ℕ} :
    calculateTradeFee err amount feeBps = .ok fee ↔
      amount * feeBps < 2 ^ 128 ∧ amount * feeBps / feeBpsDenominator < 2 ^ 64 ∧
        amount * feeBps / feeBpsDenominator = fee := by
  simp [calculateTradeFee]

theorem tradeFee_lt {amount feeBps fee : ℕ} (h : calculateTradeFee err amount feeBps = .ok fee)
    (hrate : feeBps < feeBpsDenominator) (hpos : 0 < amount) : fee < amount := by
  obtain ⟨-, -, rfl⟩ := calculateTradeFee_eq_ok.mp h
  rw [Nat.div_lt_iff_lt_mul (by decide)]
  exact Nat.mul_lt_mul_of_pos_left hrate hpos

theorem calculateTradeFee_of_lt (err : MathErrors ε) {amount feeBps : ℕ}
    (hamount : amount < 2 ^ 64) (hrate : feeBps < feeBpsDenominator) :
    calculateTradeFee err amount feeBps = .ok (amount * feeBps / feeBpsDenominator) := by
  have hprod : amount * feeBps ≤ amount * feeBpsDenominator := Nat.mul_le_mul_left _ hrate.le
  have hfee : amount * feeBps / feeBpsDenominator ≤ amount :=
    Nat.div_le_of_le_mul (by rwa [mul_comm feeBpsDenominator])
  unfold feeBpsDenominator at hprod
  exact calculateTradeFee_eq_ok.mpr ⟨by omega, by omega, rfl⟩

/-- The part of a recipient that fees do not change. -/
def AtomicLiquidityFeeRecipientState.identity (r : AtomicLiquidityFeeRecipientState) :
    Bytes32 × UInt8 × List UInt8 := (r.ownerId, r.addressVersion, r.addressPayload)

theorem applyFeeToPool_spec {err : FeeErrors ε} {rs rs' : List AtomicLiquidityFeeRecipientState}
    {total total' fee : ℕ} (h : applyFeeToPool err rs total fee = .ok (rs', total')) :
    total' = total + fee ∧ (total < 2 ^ 64 → total' < 2 ^ 64) ∧
      (rs'.map (·.unclaimedSompi)).sum = (rs.map (·.unclaimedSompi)).sum + fee ∧
      rs'.map (·.identity) = rs.map (·.identity) := by
  unfold applyFeeToPool at h
  split_ifs at h with hzero
  · obtain ⟨rfl, rfl⟩ := Prod.mk.inj (Except.ok.inj h)
    simp [hzero]
  · match rs with
    | [] => simp at h
    | [r] =>
      simp only [except_bind_eq_ok, okOr_eq_ok, checkedAdd_eq_some, except_pure_eq_ok,
        Prod.mk.injEq] at h
      obtain ⟨_, ⟨hfits, rfl⟩, _, ⟨-, rfl⟩, rfl, rfl⟩ := h
      refine ⟨rfl, fun _ => hfits, ?_, rfl⟩
      simp
    | [r0, r1] =>
      simp only [except_bind_eq_ok, okOr_eq_ok, checkedAdd_eq_some, except_pure_eq_ok,
        Prod.mk.injEq] at h
      obtain ⟨_, ⟨hfits, rfl⟩, _, ⟨-, rfl⟩, _, ⟨-, rfl⟩, rfl, rfl⟩ := h
      refine ⟨rfl, fun _ => hfits, ?_, rfl⟩
      simp only [List.map_cons, List.map_nil, List.sum_cons, List.sum_nil]
      omega
    | _ :: _ :: _ :: _ => simp at h

end Fees

section InitialReserves

variable {ε : Type} {err : MathErrors ε} {curveErr : CurveErrors ε}

theorem initialVirtualCpayReservesSompiForCurve_bounds {mode : UInt8} {individual v : ℕ}
    (h : initialVirtualCpayReservesSompiForCurve curveErr mode individual = .ok v) :
    individualMinVirtualCpayReservesSompi ≤ v ∧ v ≤ individualMaxVirtualCpayReservesSompi := by
  unfold initialVirtualCpayReservesSompiForCurve initialVirtualCpayReservesSompiForMode at h
  split_ifs at h with hindividual hplain hbasic haggressive
  · simp only [except_bind_eq_ok, validateIndividualLiquidityCurveParams_eq_ok, exists_const,
      except_pure_eq_ok] at h
    obtain ⟨⟨hrange, -⟩, rfl⟩ := h
    exact hrange
  · cases h
    decide
  · cases h
    decide

theorem scaleSupply_eq_ok {supply numerator denominator v : ℕ} :
    scaleSupply err supply numerator denominator = .ok v ↔
      supply * numerator < 2 ^ 128 ∧ denominator ≠ 0 ∧ supply * numerator / denominator = v := by
  simp only [scaleSupply, okOr_eq_ok, Option.bind_eq_some_iff, checkedMul_eq_some,
    checkedDiv_eq_some]
  constructor
  · rintro ⟨_, ⟨hfits, rfl⟩, hd, rfl⟩
    exact ⟨hfits, hd, rfl⟩
  · rintro ⟨hfits, hd, rfl⟩
    exact ⟨_, ⟨hfits, rfl⟩, hd, rfl⟩

theorem initialVirtualTokenReservesForCurve_bounds {maxSupply multiplier v : ℕ} {mode : UInt8}
    (h : initialVirtualTokenReservesForCurve err curveErr maxSupply mode multiplier = .ok v) :
    (minLiquiditySupplyRaw ≤ maxSupply ∧ maxSupply ≤ maxLiquiditySupplyRaw) ∧
      maxSupply ≤ v ∧ v ≤ 2 * maxSupply := by
  unfold initialVirtualTokenReservesForCurve initialVirtualTokenReservesForMode at h
  simp only [except_bind_eq_ok, failIf_eq_ok, not_not, exists_const] at h
  obtain ⟨hsupply, h⟩ := h
  refine ⟨hsupply, ?_⟩
  split_ifs at h with hindividual hplain hbasic haggressive
  · simp only [except_bind_eq_ok, validateIndividualLiquidityCurveParams_eq_ok, exists_const,
      scaleSupply_eq_ok] at h
    obtain ⟨⟨-, -, ⟨hmin, hmax⟩, -⟩, -, -, rfl⟩ := h
    simp only [individualMinVirtualTokenMultiplierBps, individualMaxVirtualTokenMultiplierBps,
      virtualTokenMultiplierBpsDenominator] at *
    have hlow := Nat.mul_le_mul_left maxSupply hmin
    have hhigh := Nat.mul_le_mul_left maxSupply hmax
    omega
  · simp only [except_bind_eq_ok, failIf_eq_ok, not_not, exists_const, scaleSupply_eq_ok] at h
    obtain ⟨-, -, -, rfl⟩ := h
    omega
  · simp only [except_bind_eq_ok, failIf_eq_ok, not_not, exists_const, scaleSupply_eq_ok] at h
    obtain ⟨-, -, -, rfl⟩ := h
    omega
  · simp at h

end InitialReserves

end CryptixAtomic
