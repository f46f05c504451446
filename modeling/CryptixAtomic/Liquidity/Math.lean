import CryptixAtomic.Foundation.ConstantProduct
import CryptixAtomic.Liquidity.Curve
import CryptixAtomic.State.Asset

/-!
# Fees, reserves and trades

The consensus rules and the index carry two copies of the pool arithmetic. Where only the
errors differ the function is written once over a record of them. The trades also differ in
the order of their checks and are written twice; `IsCpmmBuy` and `IsCpmmSell` say what both
copies compute.

Products of a 64-bit and a 128-bit reserve are taken in 256 bits by the source and
cannot overflow there.
-/
namespace CryptixAtomic

open Foundation

def feeBpsDenominator : ℕ := 10000

/-- The errors of one copy of the fee and reserve arithmetic, one per place. -/
structure MathErrors (ε : Type) where
  feeMultiplication : ε
  feeFit : ε
  canonicalInput : ε
  feeDenominator : ε
  netUnderflow : ε
  grossMultiplication : ε
  feeDenominatorZero : ε
  grossAddition : ε
  grossFit : ε
  grossDecrement : ε
  previousFee : ε
  canonicalFee : ε
  grossIncrement : ε
  target : ε
  targetFloor : ε
  targetDrains : ε
  targetUnderflow : ε
  targetZero : ε
  zeroNetInput : ε
  netFit128 : ε
  netFit64 : ε
  verification : ε
  supplyRange : ε
  virtualTokenOverflow : ε

structure CpmmBuy where
  tokenOut : ℕ
  realTokenReserves : ℕ
  virtualCpayReservesSompi : ℕ
  virtualTokenReserves : ℕ
  deriving DecidableEq

/-- What a sell returns: sompi paid out before fees and the reserves after it. -/
structure CpmmSell where
  grossOut : ℕ
  realCpayReservesSompi : ℕ
  virtualCpayReservesSompi : ℕ
  virtualTokenReserves : ℕ
  deriving DecidableEq

section Shared

variable {ε : Type} (err : MathErrors ε)

def calculateTradeFee (amount feeBps : ℕ) : Except ε ℕ := do
  let product ← okOr (checkedMul 128 amount feeBps) err.feeMultiplication
  okOr (tryNarrow 64 (product / feeBpsDenominator)) err.feeFit

/-- The loop that lowers the gross amount while one less would still do. -/
def lowerGross (netIn feeBps : ℕ) : ℕ → Except ε ℕ
  | 0 => .ok 0
  | 1 => .ok 1
  | gross + 2 => do
    let previous ← okOr (checkedSub (gross + 2) 1) err.grossDecrement
    let previousFee ← calculateTradeFee err previous feeBps
    let previousNet ← okOr (checkedSub previous previousFee) err.previousFee
    if previousNet < netIn then .ok (gross + 2) else lowerGross netIn feeBps (gross + 1)

/-- The loop that raises the gross amount until it does; `room` counts the 64-bit
values that are left. -/
def raiseGross (netIn feeBps : ℕ) : (room gross : ℕ) → Except ε ℕ
  | 0, _ => .error err.grossFit
  | room + 1, gross => do
    let fee ← calculateTradeFee err gross feeBps
    let net ← okOr (checkedSub gross fee) err.canonicalFee
    if net < netIn then do
      let next ← okOr (checkedAdd 128 gross 1) err.grossIncrement
      let next ← okOr (tryNarrow 64 next) err.grossFit
      raiseGross netIn feeBps room next
    else .ok gross

def minGrossInputForNetInput (netIn feeBps : ℕ) : Except ε ℕ := do
  failIf (netIn = 0 ∨ feeBps ≥ feeBpsDenominator) err.canonicalInput
  if feeBps = 0 then return netIn
  else
    let denominator ← okOr (checkedSub feeBpsDenominator feeBps) err.feeDenominator
    let below ← okOr (checkedSub netIn 1) err.netUnderflow
    let scaled ← okOr (checkedMul 128 below feeBpsDenominator) err.grossMultiplication
    let quotient ← okOr (checkedDiv scaled denominator) err.feeDenominatorZero
    let gross ← okOr (checkedAdd 128 quotient 1) err.grossAddition
    let gross ← okOr (tryNarrow 64 gross) err.grossFit
    let gross ← lowerGross err netIn feeBps gross
    raiseGross err netIn feeBps (2 ^ 64 - gross) gross

/-- The least gross input that buys `tokenOut`, checked by buying with it. -/
def minGrossInputForTokenOutWith (cpmmBuy : ℕ → ℕ → ℕ → ℕ → Except ε CpmmBuy)
    (realToken virtualCpay virtualToken tokenOut feeBps : ℕ) : Except ε ℕ := do
  failIf (tokenOut = 0 ∨ virtualCpay = 0 ∨ virtualToken = 0) err.target
  let spendable ← okOr (checkedSub realToken minRealTokenReserve) err.targetFloor
  failIf (tokenOut > spendable) err.targetDrains
  let yAfter ← okOr (checkedSub virtualToken tokenOut) err.targetUnderflow
  failIf (yAfter = 0) err.targetZero
  let xAfter := ceilDiv (virtualCpay * virtualToken) yAfter
  failIf (xAfter ≤ virtualCpay) err.zeroNetInput
  let netIn ← okOr (tryNarrow 128 (xAfter - virtualCpay)) err.netFit128
  let netIn ← okOr (tryNarrow 64 netIn) err.netFit64
  let grossIn ← minGrossInputForNetInput err netIn feeBps
  let fee ← calculateTradeFee err grossIn feeBps
  let net ← okOr (checkedSub grossIn fee) err.canonicalFee
  let actual ← cpmmBuy realToken virtualCpay virtualToken net
  failIf (actual.tokenOut < tokenOut) err.verification
  return grossIn

variable (curveErr : CurveErrors ε)

def initialVirtualCpayReservesSompiForMode (mode : UInt8) : Except ε ℕ :=
  if mode = curveModeBasic then .ok initialVirtualCpayReservesSompi
  else if mode = curveModeAggressive then .ok aggressiveInitialVirtualCpayReservesSompi
  else .error (curveErr.unsupportedMode mode)

def initialVirtualCpayReservesSompiForCurve (mode : UInt8) (individualCpay : ℕ) : Except ε ℕ :=
  if mode = curveModeIndividual then do
    validateIndividualLiquidityCurveParams curveErr individualCpay
      individualMinVirtualTokenMultiplierBps
    return individualCpay
  else if mode = curveModeBasic ∨ mode = curveModeAggressive then
    initialVirtualCpayReservesSompiForMode curveErr mode
  else .error (curveErr.unsupportedMode mode)

def scaleSupply (maxSupply numerator denominator : ℕ) : Except ε ℕ :=
  okOr ((checkedMul 128 maxSupply numerator).bind (checkedDiv · denominator))
    err.virtualTokenOverflow

def initialVirtualTokenReservesForMode (maxSupply : ℕ) (mode : UInt8) : Except ε ℕ := do
  failIf (¬(minLiquiditySupplyRaw ≤ maxSupply ∧ maxSupply ≤ maxLiquiditySupplyRaw)) err.supplyRange
  if mode = curveModeBasic then scaleSupply err maxSupply 6 5
  else if mode = curveModeAggressive then scaleSupply err maxSupply 21 20
  else .error (curveErr.unsupportedMode mode)

def initialVirtualTokenReservesForCurve (maxSupply : ℕ) (mode : UInt8) (multiplierBps : ℕ) :
    Except ε ℕ := do
  failIf (¬(minLiquiditySupplyRaw ≤ maxSupply ∧ maxSupply ≤ maxLiquiditySupplyRaw)) err.supplyRange
  if mode = curveModeIndividual then do
    validateIndividualLiquidityCurveParams curveErr individualMinVirtualCpayReservesSompi
      multiplierBps
    scaleSupply err maxSupply multiplierBps virtualTokenMultiplierBpsDenominator
  else if mode = curveModeBasic ∨ mode = curveModeAggressive then
    initialVirtualTokenReservesForMode err curveErr maxSupply mode
  else .error (curveErr.unsupportedMode mode)

end Shared

/-- The errors of one copy of the fee distribution. -/
structure FeeErrors (ε : Type) where
  total : ε
  noRecipients : ε
  recipient : ε
  recipient0 : ε
  recipient1 : ε
  recipientCount : ε

/-- Credit a trade fee to the recipients; the second one gets the odd sompi. -/
def applyFeeToPool {ε : Type} (err : FeeErrors ε)
    (recipients : List AtomicLiquidityFeeRecipientState) (unclaimedFeeTotalSompi feeTrade : ℕ) :
    Except ε (List AtomicLiquidityFeeRecipientState × ℕ) :=
  if feeTrade = 0 then .ok (recipients, unclaimedFeeTotalSompi)
  else do
    let nextTotal ← okOr (checkedAdd 64 unclaimedFeeTotalSompi feeTrade) err.total
    match recipients with
    | [] => .error err.noRecipients
    | [r] =>
      let next ← okOr (checkedAdd 64 r.unclaimedSompi feeTrade) err.recipient
      return ([{ r with unclaimedSompi := next }], nextTotal)
    | [r0, r1] =>
      let fee0 := feeTrade / 2
      let fee1 := feeTrade - fee0
      let next0 ← okOr (checkedAdd 64 r0.unclaimedSompi fee0) err.recipient0
      let next1 ← okOr (checkedAdd 64 r1.unclaimedSompi fee1) err.recipient1
      return ([{ r0 with unclaimedSompi := next0 }, { r1 with unclaimedSompi := next1 }], nextTotal)
    | _ => .error err.recipientCount

namespace ConsensusMath

def curveErrors : CurveErrors String := textCurveErrors "liquidity curve mode"

def errors : MathErrors String where
  feeMultiplication := "fee multiplication overflow"
  feeFit := "fee does not fit into u64"
  canonicalInput := "canonical buy net input or fee_bps is invalid"
  feeDenominator := "canonical buy fee denominator underflow"
  netUnderflow := "canonical buy net underflow"
  grossMultiplication := "canonical buy gross multiplication overflow"
  feeDenominatorZero := "canonical buy fee denominator is zero"
  grossAddition := "canonical buy gross addition overflow"
  grossFit := "canonical buy gross input does not fit u64"
  grossDecrement := "canonical buy gross decrement underflow"
  previousFee := "canonical buy previous fee underflow"
  canonicalFee := "canonical buy fee underflow"
  grossIncrement := "canonical buy gross increment overflow"
  target := "canonical buy target token_out is invalid"
  targetFloor := "canonical buy real token reserve floor reached"
  targetDrains := "canonical buy token_out drains final token"
  targetUnderflow := "canonical buy y_after underflow"
  targetZero := "canonical buy y_after cannot be zero"
  zeroNetInput := "canonical buy produced zero net input"
  netFit128 := "canonical buy net input does not fit u128"
  netFit64 := "canonical buy net input does not fit u64"
  verification := "canonical buy verification failed"
  supplyRange :=
    s!"liquidity asset max_supply must be in `{minLiquiditySupplyRaw}..={maxLiquiditySupplyRaw}`"
  virtualTokenOverflow := "liquidity virtual token reserve overflow"

def feeErrors : FeeErrors String where
  total := "unclaimed_fee_total overflow"
  noRecipients := "fee_trade > 0 but no fee recipients are configured"
  recipient := "recipient fee overflow"
  recipient0 := "recipient0 fee overflow"
  recipient1 := "recipient1 fee overflow"
  recipientCount := "invalid recipient count in liquidity pool state"

def cpmmBuy (realToken virtualCpay virtualToken cpayNetIn : ℕ) : Except String CpmmBuy := do
  failIf (realToken ≤ minRealTokenReserve) "CPMM buy real token reserve floor reached"
  let xAfter ← okOr (checkedAdd 64 virtualCpay cpayNetIn) "CPMM x_after overflow"
  failIf (xAfter = 0 ∨ virtualToken = 0) "CPMM buy x_after cannot be zero"
  let yAfter ← okOr (tryNarrow 128 (ceilDiv (virtualCpay * virtualToken) xAfter))
    "CPMM buy y_after conversion overflow"
  failIf (yAfter = 0) "CPMM buy y_after cannot be zero"
  failIf (yAfter > virtualToken) "CPMM buy would increase y_after"
  let tokenOut ← okOr (checkedSub virtualToken yAfter) "CPMM buy token_out underflow"
  failIf (tokenOut = 0) "CPMM buy produced zero token_out"
  let newRealToken ← okOr (checkedSub realToken tokenOut) "CPMM buy real token reserve underflow"
  failIf (newRealToken < minRealTokenReserve) "CPMM buy would drain final real token"
  return { tokenOut, realTokenReserves := newRealToken, virtualCpayReservesSompi := xAfter,
           virtualTokenReserves := yAfter }

def cpmmSell (realCpay virtualCpay virtualToken tokenIn : ℕ) : Except String CpmmSell := do
  let yAfter ← okOr (checkedAdd 128 virtualToken tokenIn) "CPMM y_after overflow"
  failIf (yAfter = 0) "CPMM sell y_after cannot be zero"
  let xAfter ← okOr (tryNarrow 128 (ceilDiv (virtualCpay * virtualToken) yAfter))
    "CPMM sell x_after conversion overflow"
  let xAfter ← okOr (tryNarrow 64 xAfter) "CPMM sell x_after does not fit u64"
  failIf (xAfter > virtualCpay) "CPMM sell x_after exceeds x_before"
  let grossOut ← okOr (checkedSub virtualCpay xAfter) "CPMM sell gross_out underflow"
  failIf (grossOut = 0) "CPMM sell produced zero gross_out"
  let newRealCpay ← okOr (checkedSub realCpay grossOut) "CPMM sell real CPAY reserve underflow"
  failIf (newRealCpay < minCpayReserveSompi) "CPMM sell would drain final real sompi"
  return { grossOut, realCpayReservesSompi := newRealCpay, virtualCpayReservesSompi := xAfter,
           virtualTokenReserves := yAfter }

def minGrossInputForTokenOut : (realToken virtualCpay virtualToken tokenOut feeBps : ℕ) →
    Except String ℕ :=
  minGrossInputForTokenOutWith errors cpmmBuy

end ConsensusMath

/-- The error values of the index arithmetic. -/
inductive LiquidityMathError
  | overflow
  | invalidInput
  | invalidState
  | zeroOutput
  deriving DecidableEq

namespace IndexMath

open LiquidityMathError

def errors : MathErrors LiquidityMathError where
  feeMultiplication := overflow
  feeFit := overflow
  canonicalInput := invalidInput
  feeDenominator := invalidInput
  netUnderflow := invalidInput
  grossMultiplication := overflow
  feeDenominatorZero := invalidInput
  grossAddition := overflow
  grossFit := overflow
  grossDecrement := overflow
  previousFee := overflow
  canonicalFee := overflow
  grossIncrement := overflow
  target := invalidInput
  targetFloor := invalidInput
  targetDrains := invalidInput
  targetUnderflow := invalidInput
  targetZero := invalidInput
  zeroNetInput := zeroOutput
  netFit128 := overflow
  netFit64 := overflow
  verification := invalidState
  supplyRange := invalidInput
  virtualTokenOverflow := overflow

def cpmmBuy (realToken virtualCpay virtualToken cpayNetIn : ℕ) :
    Except LiquidityMathError CpmmBuy := do
  failIf (cpayNetIn = 0) invalidInput
  failIf (realToken ≤ minRealTokenReserve) invalidInput
  let xAfter ← okOr (checkedAdd 64 virtualCpay cpayNetIn) overflow
  failIf (xAfter = 0) invalidInput
  let yAfter ← okOr (tryNarrow 128 (ceilDiv (virtualCpay * virtualToken) xAfter)) overflow
  failIf (yAfter = 0 ∨ yAfter > virtualToken) invalidState
  let tokenOut ← okOr (checkedSub virtualToken yAfter) overflow
  failIf (tokenOut = 0) zeroOutput
  let spendable ← okOr (checkedSub realToken minRealTokenReserve) overflow
  failIf (tokenOut > spendable) invalidInput
  let newRealToken ← okOr (checkedSub realToken tokenOut) overflow
  return { tokenOut, realTokenReserves := newRealToken, virtualCpayReservesSompi := xAfter,
           virtualTokenReserves := yAfter }

def maxTokensOut (realToken : ℕ) : ℕ := realToken - minRealTokenReserve

def maxBuyInSompi (realToken virtualCpay virtualToken feeBps : ℕ) :
    Except LiquidityMathError ℕ :=
  let tokenOut := maxTokensOut realToken
  if tokenOut = 0 then .ok 0
  else minGrossInputForTokenOutWith errors cpmmBuy realToken virtualCpay virtualToken tokenOut
    feeBps

def cpmmSell (realCpay virtualCpay virtualToken tokenIn : ℕ) :
    Except LiquidityMathError CpmmSell := do
  failIf (tokenIn = 0) invalidInput
  let yAfter ← okOr (checkedAdd 128 virtualToken tokenIn) overflow
  let xAfter ← okOr (tryNarrow 128 (ceilDiv (virtualCpay * virtualToken) yAfter)) overflow
  let xAfter ← okOr (tryNarrow 64 xAfter) overflow
  failIf (xAfter > virtualCpay) invalidState
  let grossOut ← okOr (checkedSub virtualCpay xAfter) overflow
  failIf (grossOut = 0) zeroOutput
  let spendable ← okOr (checkedSub realCpay minCpayReserveSompi) overflow
  failIf (grossOut > spendable) invalidInput
  let newRealCpay ← okOr (checkedSub realCpay grossOut) overflow
  return { grossOut, realCpayReservesSompi := newRealCpay, virtualCpayReservesSompi := xAfter,
           virtualTokenReserves := yAfter }

end IndexMath

end CryptixAtomic
