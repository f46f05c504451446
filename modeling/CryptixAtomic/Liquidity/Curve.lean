import CryptixAtomic.Chain.Transaction

/-!
# Liquidity curve parameters

The parser, the state store, the transition rules and the index each carry a copy
of the same checks on curve mode and individual curve parameters, with their own
error values. The checks are written once over the record of errors they raise;
which parameters pass does not depend on that record.
-/
namespace CryptixAtomic

open Foundation

def sompiPerCryptix : ℕ := 100000000
def maxSompi : ℕ := 520395506 * sompiPerCryptix

def liquidityMinPayoutSompi : ℕ := 1
def liquidityTokenDecimals : UInt8 := 0
def minLiquiditySupplyRaw : ℕ := 100000
def maxLiquiditySupplyRaw : ℕ := 10000000
def minLiquiditySeedReserveSompi : ℕ := sompiPerCryptix
def initialRealCpayReservesSompi : ℕ := sompiPerCryptix
def minCpayReserveSompi : ℕ := 1
def minRealTokenReserve : ℕ := 1

def curveModeBasic : UInt8 := 0
def curveModeAggressive : UInt8 := 1
def curveModeIndividual : UInt8 := 2
def defaultCurveMode : UInt8 := curveModeBasic

def initialVirtualCpayReservesSompi : ℕ := 250000000000000
def aggressiveInitialVirtualCpayReservesSompi : ℕ := 200000000000000
def individualMinVirtualCpayReservesSompi : ℕ := 100000000000000
def individualMaxVirtualCpayReservesSompi : ℕ := 800000000000000
def individualVirtualCpayStepSompi : ℕ := 10000000000000
def individualMinVirtualTokenMultiplierBps : ℕ := 10100
def individualMaxVirtualTokenMultiplierBps : ℕ := 20000
def individualVirtualTokenMultiplierStepBps : ℕ := 100
def virtualTokenMultiplierBpsDenominator : ℕ := 10000

/-- The errors a copy of the curve checks raises. -/
structure CurveErrors (ε : Type) where
  unsupportedMode : UInt8 → ε
  fixedCpayRange : ℕ → ε
  fixedCpayStep : ℕ → ε
  multiplierRange : ℕ → ε
  multiplierStep : ℕ → ε
  notIndividual : ε

/-- Error texts shared by the copies that report strings; only the name given to
an unknown mode differs. -/
def textCurveErrors (modeName : String) : CurveErrors String where
  unsupportedMode mode := s!"unsupported {modeName} `{mode}`"
  fixedCpayRange v := s!"individual liquidity fixed CPAY `{v}` is outside allowed range"
  fixedCpayStep v := s!"individual liquidity fixed CPAY `{v}` is not on the allowed step"
  multiplierRange v := s!"individual liquidity multiplier `{v}` is outside allowed range"
  multiplierStep v := s!"individual liquidity multiplier `{v}` is not on the allowed step"
  notIndividual := "non-individual liquidity curve must not encode individual parameters"

section Checks

variable {ε : Type} (err : CurveErrors ε)

def validateLiquidityCurveMode (mode : UInt8) : Except ε Unit :=
  if mode = curveModeBasic ∨ mode = curveModeAggressive ∨ mode = curveModeIndividual then .ok ()
  else .error (err.unsupportedMode mode)

def validateIndividualLiquidityCurveParams (virtualCpay multiplierBps : ℕ) : Except ε Unit := do
  failIf (¬(individualMinVirtualCpayReservesSompi ≤ virtualCpay ∧
    virtualCpay ≤ individualMaxVirtualCpayReservesSompi)) (err.fixedCpayRange virtualCpay)
  failIf (virtualCpay % individualVirtualCpayStepSompi ≠ 0) (err.fixedCpayStep virtualCpay)
  failIf (¬(individualMinVirtualTokenMultiplierBps ≤ multiplierBps ∧
    multiplierBps ≤ individualMaxVirtualTokenMultiplierBps)) (err.multiplierRange multiplierBps)
  failIf (multiplierBps % individualVirtualTokenMultiplierStepBps ≠ 0)
    (err.multiplierStep multiplierBps)

def validateLiquidityCurveParameters (mode : UInt8) (virtualCpay multiplierBps : ℕ) :
    Except ε Unit :=
  if mode = curveModeBasic ∨ mode = curveModeAggressive then
    if virtualCpay = 0 ∧ multiplierBps = 0 then .ok () else .error err.notIndividual
  else if mode = curveModeIndividual then
    validateIndividualLiquidityCurveParams err virtualCpay multiplierBps
  else .error (err.unsupportedMode mode)

end Checks

/-- Individual parameters inside their ranges and on their steps. -/
def IndividualCurveParams (virtualCpay multiplierBps : ℕ) : Prop :=
  (individualMinVirtualCpayReservesSompi ≤ virtualCpay ∧
    virtualCpay ≤ individualMaxVirtualCpayReservesSompi) ∧
  virtualCpay % individualVirtualCpayStepSompi = 0 ∧
  (individualMinVirtualTokenMultiplierBps ≤ multiplierBps ∧
    multiplierBps ≤ individualMaxVirtualTokenMultiplierBps) ∧
  multiplierBps % individualVirtualTokenMultiplierStepBps = 0

def CurveParams (mode : UInt8) (virtualCpay multiplierBps : ℕ) : Prop :=
  ((mode = curveModeBasic ∨ mode = curveModeAggressive) ∧ virtualCpay = 0 ∧ multiplierBps = 0) ∨
  (mode = curveModeIndividual ∧ IndividualCurveParams virtualCpay multiplierBps)

section Specs

variable {ε : Type} (err : CurveErrors ε)

@[simp] theorem validateLiquidityCurveMode_eq_ok {mode : UInt8} {u : Unit} :
    validateLiquidityCurveMode err mode = .ok u ↔
      mode = curveModeBasic ∨ mode = curveModeAggressive ∨ mode = curveModeIndividual := by
  unfold validateLiquidityCurveMode
  split_ifs with h <;> simp [h]

@[simp] theorem validateIndividualLiquidityCurveParams_eq_ok {c m : ℕ} {u : Unit} :
    validateIndividualLiquidityCurveParams err c m = .ok u ↔ IndividualCurveParams c m := by
  simp [validateIndividualLiquidityCurveParams, IndividualCurveParams]

@[simp] theorem validateLiquidityCurveParameters_eq_ok {mode : UInt8} {c m : ℕ} {u : Unit} :
    validateLiquidityCurveParameters err mode c m = .ok u ↔ CurveParams mode c m := by
  unfold validateLiquidityCurveParameters CurveParams
  split_ifs with hplain hzero hind
  · simp [hplain, hzero]
  · have hne : mode ≠ curveModeIndividual := by
      rcases hplain with rfl | rfl <;> decide
    simp [hzero, hne]
  · rw [validateIndividualLiquidityCurveParams_eq_ok]
    exact ⟨fun h => Or.inr ⟨hind, h⟩, fun h => (h.resolve_left fun hp => hplain hp.1).2⟩
  · simp [hplain, hind]

end Specs
end CryptixAtomic
