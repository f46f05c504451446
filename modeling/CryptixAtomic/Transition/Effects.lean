import CryptixAtomic.Transition.Apply

/-!
# What operations do

`OpSpec` is the meaning of the nine operations: when one is admissible over a view of
assets and balances, and what it writes. It mentions neither error values nor the
order of checks, so that it can be compared with any implementation of the same
rules. `opEffect_spec` says that the consensus rules follow it.
-/
namespace CryptixAtomic

open Foundation ConsensusMath AtomicLiquidityPoolState

/-- What operations read: assets, and balances with absent ones as zero. -/
structure LedgerView where
  asset : Bytes32 → Option AtomicAssetState
  balance : AtomicBalanceKey → ℕ

def AtomicConsensusState.view (s : AtomicConsensusState) : LedgerView := ⟨s.assetOption, s.balance⟩

namespace Transition

variable {name : String}

section Trades

/-- A buy of `tokenOut` tokens for `cpayIn` sompi, of which `netIn` reach the reserves. -/
structure IsFundedBuy (f : PoolFunds) (feeBps cpayIn minTokenOut netIn tokenOut : ℕ)
    (f' : PoolFunds) : Prop where
  fee : calculateTradeFee errors cpayIn feeBps = .ok (cpayIn - netIn)
  netInLe : netIn ≤ cpayIn
  trade : IsCpmmBuy f.realTokenReserves f.virtualCpayReservesSompi f.virtualTokenReserves netIn
    ⟨tokenOut, f'.realTokenReserves, f'.virtualCpayReservesSompi, f'.virtualTokenReserves⟩
  minOut : minTokenOut ≤ tokenOut
  canonical : minGrossInputForTokenOut f.realTokenReserves
    f.virtualCpayReservesSompi f.virtualTokenReserves tokenOut feeBps = .ok cpayIn
  real : f'.realCpayReservesSompi = f.realCpayReservesSompi + netIn
  realFits : f.realCpayReservesSompi + netIn < 2 ^ 64
  fees : applyFeeToPool feeErrors f.feeRecipients f.unclaimedFeeTotalSompi
    (cpayIn - netIn) = .ok (f'.feeRecipients, f'.unclaimedFeeTotalSompi)

/-- A sell of `tokenIn` tokens for `grossOut` sompi, of which `cpayOut` are paid out. -/
structure IsFundedSell (f : PoolFunds) (feeBps tokenIn grossOut cpayOut : ℕ)
    (f' : PoolFunds) : Prop where
  trade : IsCpmmSell f.realCpayReservesSompi f.virtualCpayReservesSompi f.virtualTokenReserves
    tokenIn ⟨grossOut, f'.realCpayReservesSompi, f'.virtualCpayReservesSompi,
      f'.virtualTokenReserves⟩
  fee : calculateTradeFee errors grossOut feeBps = .ok (grossOut - cpayOut)
  cpayOutLe : cpayOut ≤ grossOut
  real : f'.realTokenReserves = f.realTokenReserves + tokenIn
  realFits : f.realTokenReserves + tokenIn < 2 ^ 128
  fees : applyFeeToPool feeErrors f.feeRecipients f.unclaimedFeeTotalSompi
    (grossOut - cpayOut) = .ok (f'.feeRecipients, f'.unclaimedFeeTotalSompi)

theorem buyWith_spec {f f' : PoolFunds} {feeBps cpayIn minTokenOut tokenOut : ℕ}
    (h : buyWith name f feeBps cpayIn minTokenOut = .ok (tokenOut, f')) :
    ∃ netIn, IsFundedBuy f feeBps cpayIn minTokenOut netIn tokenOut f' := by
  simp only [buyWith, except_bind_eq_ok, okOr_eq_ok, failIf_eq_ok, checkedSub_eq_some,
    checkedAdd_eq_some, except_pure_eq_ok, exists_const, not_not, not_lt,
    cpmmBuy_eq_ok, Prod.exists, Prod.mk.injEq] at h
  obtain ⟨fee, hfee, netIn, ⟨hle, rfl⟩, trade, htrade, hmin, canonical, hcanonical, rfl, -, real,
    ⟨hfits, rfl⟩, rs, total, hfees, rfl, rfl⟩ := h
  have hback : cpayIn - (cpayIn - fee) = fee := by omega
  exact ⟨cpayIn - fee,
    { fee := by rwa [hback]
      netInLe := by omega
      trade := htrade
      minOut := hmin
      canonical := hcanonical
      real := rfl
      realFits := hfits
      fees := by rwa [hback] }⟩

end Trades

section Pools

/-- An operation on an existing pool: what it found, and the funds and supply it leaves. -/
structure PoolMove where
  asset : AtomicAssetState
  pool : AtomicLiquidityPoolState
  vault : VaultTransition
  funds : PoolFunds
  totalSupply : ℕ

namespace PoolMove

variable (m : PoolMove) (txId : Bytes32)

def newPool : AtomicLiquidityPoolState :=
  ((m.pool.withFunds m.funds).unlockAtTarget).moved txId m.vault (m.pool.poolNonce + 1)

def newAsset : AtomicAssetState :=
  { m.asset with totalSupply := m.totalSupply, liquidity := some (m.newPool txId) }

/-- What holds whichever operation moves the pool. -/
structure Valid (v : LedgerView) (ptx : PopulatedTransaction) (assetId : Bytes32)
    (expectedPoolNonce : ℕ) : Prop where
  known : v.asset assetId = some m.asset
  liquidity : m.asset.assetClass = .liquidity
  capped : m.asset.supplyMode = .capped
  pool : m.asset.liquidity = some m.pool
  nonce : m.pool.poolNonce = expectedPoolNonce
  nonceFits : m.pool.poolNonce + 1 < 2 ^ 64
  vault : vaultTransition ptx m.pool = .ok m.vault
  invariants : LiquidityInvariants (m.newAsset ptx.tx.id) (m.newPool ptx.tx.id)

end PoolMove

/-- The launch buy of a creation, or its absence. -/
inductive LaunchSpec (v : LedgerView) (txId ownerId : Bytes32) (op : CreateLiquidityAssetOp)
    (seeded : PoolFunds) : Launch → Prop
  | skipped (none : op.launchBuySompi = 0) : LaunchSpec v txId ownerId op seeded ⟨0, seeded, []⟩
  | bought {netIn tokenOut : ℕ} {funds : PoolFunds} (some : 0 < op.launchBuySompi)
      (trade : IsFundedBuy seeded op.feeBps op.launchBuySompi op.launchBuyMinTokenOut netIn
        tokenOut funds)
      (fits : v.balance ⟨txId, ownerId⟩ + tokenOut < 2 ^ 128) :
      LaunchSpec v txId ownerId op seeded
        ⟨tokenOut, funds, [(⟨txId, ownerId⟩, v.balance ⟨txId, ownerId⟩ + tokenOut)]⟩

/-- What a creation of a pool found and computed before its launch buy. -/
structure PoolCreation where
  vaultIndex : ℕ
  vaultValue : ℕ
  virtualCpay : ℕ
  virtualToken : ℕ
  recipients : List AtomicLiquidityFeeRecipientState
  launched : Launch

namespace PoolCreation

variable (c : PoolCreation) (op : CreateLiquidityAssetOp) (txId ownerId : Bytes32)
  (ctx : AtomicCreationContext)

def seeded : PoolFunds where
  realCpayReservesSompi := initialRealCpayReservesSompi
  realTokenReserves := op.maxSupply
  virtualCpayReservesSompi := c.virtualCpay
  virtualTokenReserves := c.virtualToken
  unclaimedFeeTotalSompi := 0
  feeRecipients := c.recipients

def newPool : AtomicLiquidityPoolState :=
  createdPool op c.launched.funds ⟨txId, c.vaultIndex⟩ c.vaultValue

def newAsset : AtomicAssetState :=
  liquidityAsset op ownerId c.launched.totalSupply (c.newPool op txId) ctx

structure Valid (blake2b : Blake2b) (v : LedgerView) (ptx : PopulatedTransaction) : Prop where
  fresh : v.asset ptx.tx.id = none
  decimals : op.decimals = liquidityTokenDecimals
  supplyRange : minLiquiditySupplyRaw ≤ op.maxSupply ∧ op.maxSupply ≤ maxLiquiditySupplyRaw
  seed : op.seedReserveSompi = initialRealCpayReservesSompi
  curve : CurveParams op.curveMode op.individualVirtualCpayReservesSompi
    op.individualVirtualTokenMultiplierBps
  target : op.liquidityUnlockTargetSompi ≤ maxSompi
  noVaultInput : ∀ p ∈ ptx.populatedInputs, isVaultScript p.2.scriptPublicKey = false
  vault : findCreatedVaultOutput createVaultErrors ptx.tx.outputs 0 none =
    .ok (some (c.vaultIndex, c.vaultValue))
  vaultFits : op.seedReserveSompi + op.launchBuySompi < 2 ^ 64
  value : c.vaultValue = op.seedReserveSompi + op.launchBuySompi
  recipients : buildFeeRecipientState recipientError blake2b op.recipients = .ok c.recipients
  feePayable : 0 < op.feeBps → c.recipients ≠ []
  virtualCpay : initialVirtualCpayReservesSompiForCurve curveErrors op.curveMode
    op.individualVirtualCpayReservesSompi = .ok c.virtualCpay
  virtualToken : initialVirtualTokenReservesForCurve errors curveErrors
    op.maxSupply op.curveMode op.individualVirtualTokenMultiplierBps = .ok c.virtualToken
  launch : LaunchSpec v ptx.tx.id ownerId op (c.seeded op) c.launched
  invariants : LiquidityInvariants (c.newAsset op ptx.tx.id ownerId ctx) (c.newPool op ptx.tx.id)

end PoolCreation

/-- The funds a claim of `amount` by recipient `i` leaves. -/
def claimedFunds (f : PoolFunds) (i : ℕ) (recipient : AtomicLiquidityFeeRecipientState)
    (amount : ℕ) : PoolFunds :=
  { f with
    unclaimedFeeTotalSompi := f.unclaimedFeeTotalSompi - amount
    feeRecipients := f.feeRecipients.set i
      { recipient with unclaimedSompi := recipient.unclaimedSompi - amount } }

end Pools

section Spec

variable (blake2b : Blake2b) (v : LedgerView) (ptx : PopulatedTransaction) (ownerId : Bytes32)
  (ctx : AtomicCreationContext)

/-- The operations: when each one is admissible, and what it writes. -/
inductive OpSpec : AtomicPayloadOp → OpEffect → Prop
  | createAsset (op : CreateAssetOp) (fresh : v.asset ptx.tx.id = none) : OpSpec (.createAsset op)
        ⟨some (ptx.tx.id, standardAsset op.toCreateAssetFields op.platformTag ownerId 0 ctx), []⟩
  | createAssetUnminted (op : CreateAssetWithMintOp) (fresh : v.asset ptx.tx.id = none)
      (none : op.initialMintAmount = 0) :
      OpSpec (.createAssetWithMint op)
        ⟨some (ptx.tx.id, standardAsset op.toCreateAssetFields op.platformTag ownerId 0 ctx), []⟩
  | createAssetMinted (op : CreateAssetWithMintOp) (fresh : v.asset ptx.tx.id = none)
      (some : 0 < op.initialMintAmount)
      (cap : op.supplyMode = .capped → op.initialMintAmount ≤ op.maxSupply)
      (fits : v.balance ⟨ptx.tx.id, op.initialMintToOwnerId⟩ + op.initialMintAmount < 2 ^ 128) :
      OpSpec (.createAssetWithMint op)
        ⟨.some (ptx.tx.id, standardAsset op.toCreateAssetFields op.platformTag ownerId
            op.initialMintAmount ctx),
          [(⟨ptx.tx.id, op.initialMintToOwnerId⟩,
            v.balance ⟨ptx.tx.id, op.initialMintToOwnerId⟩ + op.initialMintAmount)]⟩
  | createLiquidityAsset (op : CreateLiquidityAssetOp) (c : PoolCreation)
      (valid : c.Valid op ownerId ctx blake2b v ptx) :
      OpSpec (.createLiquidityAsset op)
        ⟨some (ptx.tx.id, c.newAsset op ptx.tx.id ownerId ctx), c.launched.balances⟩
  | selfTransfer (op : TransferOp) (known : (v.asset op.assetId).isSome)
      (self : ownerId = op.toOwnerId) (funded : op.amount ≤ v.balance ⟨op.assetId, ownerId⟩) :
      OpSpec (.transfer op) ⟨none, []⟩
  | transfer (op : TransferOp) (known : (v.asset op.assetId).isSome)
      (other : ownerId ≠ op.toOwnerId) (funded : op.amount ≤ v.balance ⟨op.assetId, ownerId⟩)
      (fits : v.balance ⟨op.assetId, op.toOwnerId⟩ + op.amount < 2 ^ 128) :
      OpSpec (.transfer op)
        ⟨none, [(⟨op.assetId, ownerId⟩, v.balance ⟨op.assetId, ownerId⟩ - op.amount),
          (⟨op.assetId, op.toOwnerId⟩, v.balance ⟨op.assetId, op.toOwnerId⟩ + op.amount)]⟩
  | mint (op : MintOp) (asset : AtomicAssetState) (known : v.asset op.assetId = some asset)
      (standard : asset.assetClass ≠ .liquidity) (authority : asset.mintAuthorityOwnerId = ownerId)
      (supplyFits : asset.totalSupply + op.amount < 2 ^ 128)
      (cap : asset.supplyMode = .capped → asset.totalSupply + op.amount ≤ asset.maxSupply)
      (fits : v.balance ⟨op.assetId, op.toOwnerId⟩ + op.amount < 2 ^ 128) :
      OpSpec (.mint op)
        ⟨some (op.assetId, { asset with totalSupply := asset.totalSupply + op.amount }),
          [(⟨op.assetId, op.toOwnerId⟩, v.balance ⟨op.assetId, op.toOwnerId⟩ + op.amount)]⟩
  | burn (op : BurnOp) (asset : AtomicAssetState) (known : v.asset op.assetId = some asset)
      (standard : asset.assetClass ≠ .liquidity)
      (funded : op.amount ≤ v.balance ⟨op.assetId, ownerId⟩)
      (supply : op.amount ≤ asset.totalSupply) :
      OpSpec (.burn op)
        ⟨some (op.assetId, { asset with totalSupply := asset.totalSupply - op.amount }),
          [(⟨op.assetId, ownerId⟩, v.balance ⟨op.assetId, ownerId⟩ - op.amount)]⟩
  | buyLiquidityExactIn (op : BuyLiquidityExactInOp) (m : PoolMove) {netIn tokenOut : ℕ}
      (valid : m.Valid v ptx op.assetId op.expectedPoolNonce)
      (paid : m.vault.outputValue = m.vault.inputValue + op.cpayInSompi)
      (trade : IsFundedBuy m.pool.funds m.pool.feeBps op.cpayInSompi op.minTokenOut netIn tokenOut
        m.funds)
      (supplyFits : m.asset.totalSupply + tokenOut < 2 ^ 128)
      (supply : m.totalSupply = m.asset.totalSupply + tokenOut)
      (fits : v.balance ⟨op.assetId, ownerId⟩ + tokenOut < 2 ^ 128) :
      OpSpec (.buyLiquidityExactIn op) ⟨some (op.assetId, m.newAsset ptx.tx.id),
          [(⟨op.assetId, ownerId⟩, v.balance ⟨op.assetId, ownerId⟩ + tokenOut)]⟩
  | sellLiquidityExactIn (op : SellLiquidityExactInOp) (m : PoolMove) {grossOut cpayOut : ℕ}
      (valid : m.Valid v ptx op.assetId op.expectedPoolNonce)
      (unlocked : m.pool.sellLocked = false)
      (funded : op.tokenIn ≤ v.balance ⟨op.assetId, ownerId⟩)
      (trade : IsFundedSell m.pool.funds m.pool.feeBps op.tokenIn grossOut cpayOut m.funds)
      (minOut : op.minCpayOutSompi ≤ cpayOut) (minPayout : liquidityMinPayoutSompi ≤ cpayOut)
      (payout : validatePayoutOutput payoutErrors blake2b ptx.tx.outputs op.cpayReceiveOutputIndex
        cpayOut none = .ok ())
      (paid : m.vault.inputValue = m.vault.outputValue + cpayOut)
      (supply : m.totalSupply + op.tokenIn = m.asset.totalSupply) :
      OpSpec (.sellLiquidityExactIn op) ⟨some (op.assetId, m.newAsset ptx.tx.id),
          [(⟨op.assetId, ownerId⟩, v.balance ⟨op.assetId, ownerId⟩ - op.tokenIn)]⟩
  | claimLiquidityFees (op : ClaimLiquidityFeesOp) (m : PoolMove)
      {recipient : AtomicLiquidityFeeRecipientState}
      (valid : m.Valid v ptx op.assetId op.expectedPoolNonce)
      (unlocked : m.pool.sellLocked = false)
      (minPayout : liquidityMinPayoutSompi ≤ op.claimAmountSompi)
      (recipientAt : m.pool.feeRecipients[op.recipientIndex.toNat]? = some recipient)
      (unclaimed : op.claimAmountSompi ≤ recipient.unclaimedSompi)
      (authorized : ownerId = recipient.ownerId)
      (payout : validatePayoutOutput payoutErrors blake2b ptx.tx.outputs op.claimReceiveOutputIndex
        op.claimAmountSompi (some recipient.ownerId) = .ok ())
      (paid : m.vault.inputValue = m.vault.outputValue + op.claimAmountSompi)
      (total : op.claimAmountSompi ≤ m.pool.unclaimedFeeTotalSompi)
      (funds : m.funds = claimedFunds m.pool.funds op.recipientIndex.toNat recipient
        op.claimAmountSompi)
      (supply : m.totalSupply = m.asset.totalSupply) :
      OpSpec (.claimLiquidityFees op) ⟨some (op.assetId, m.newAsset ptx.tx.id), []⟩

end Spec

section Consensus

variable {blake2b : Blake2b} {s : AtomicConsensusState} {ptx : PopulatedTransaction}
  {ownerId : Bytes32} {ctx : AtomicCreationContext}
variable {assetId : Bytes32} {e : OpEffect}

theorem hasAsset_eq_false : s.hasAsset assetId = false ↔ s.view.asset assetId = none := by
  simp [AtomicConsensusState.hasAsset, AtomicConsensusState.view]

variable {pool : AtomicLiquidityPoolState} {asset : AtomicAssetState}

theorem validateLiquidityInvariants_eq_ok {u : Unit}
    (h : validateLiquidityInvariants assetId asset = .ok u)
    (hclass : asset.assetClass = .liquidity) (hpool : asset.liquidity = some pool) :
    asset.supplyMode = .capped ∧ LiquidityInvariants asset pool := by
  simp only [validateLiquidityInvariants, hclass, ne_eq, not_true_eq_false, if_false, hpool,
    except_bind_eq_ok, okOr_eq_ok, Option.some.injEq, failIf_eq_ok, checkedAdd_eq_some,
    validateLiquidityCurveMode_eq_ok, validateLiquidityCurveParameters_eq_ok,
    validateLiquidityUnlockTarget, exists_const, exists_eq_left', not_not, not_lt, not_and,
    Bool.not_eq_false, not_or, gt_iff_lt, ge_iff_le] at h
  obtain ⟨hcapped, -, hcurve, htarget, hdisabled, hlocked, hcpay, htoken, ⟨hvcpay, hvtoken⟩, _,
    ⟨hvaultFits, rfl⟩, hvault, _, ⟨hsupplyFits, rfl⟩, hsupply⟩ := h
  refine ⟨hcapped, ?_⟩
  exact
    { curve := hcurve
      target := htarget
      disabledLock := hdisabled
      locked := by
        intro hpos hshut
        by_contra hreached
        rw [hlocked hpos (not_lt.mp hreached)] at hshut
        cases hshut
      realCpay := hcpay
      realToken := htoken
      virtualCpay := hvcpay
      virtualToken := hvtoken
      vaultFits := hvaultFits
      vaultValue := hvault
      supplyFits := hsupplyFits
      supply := hsupply }

theorem createAsset_spec {op : CreateAssetOp} (h : createAsset s ptx.tx.id ownerId op ctx = .ok e) :
    OpSpec blake2b s.view ptx ownerId ctx (.createAsset op) e := by
  simp only [createAsset, except_bind_eq_ok, failIf_eq_ok, except_pure_eq_ok, exists_const,
    Bool.not_eq_true, hasAsset_eq_false] at h
  obtain ⟨hfresh, rfl⟩ := h
  exact .createAsset op hfresh

theorem createAssetWithMint_spec {op : CreateAssetWithMintOp}
    (h : createAssetWithMint s ptx.tx.id ownerId op ctx = .ok e) :
    OpSpec blake2b s.view ptx ownerId ctx (.createAssetWithMint op) e := by
  simp only [createAssetWithMint, except_bind_eq_ok, failIf_eq_ok, exists_const, Bool.not_eq_true,
    hasAsset_eq_false] at h
  obtain ⟨hfresh, h⟩ := h
  split_ifs at h with hmint
  · simp only [except_bind_eq_ok, failIf_eq_ok, okOr_eq_ok, checkedAdd_eq_some,
      except_pure_eq_ok, exists_const, not_and, not_lt, gt_iff_lt] at h
    obtain ⟨hcap, _, ⟨hfits, rfl⟩, rfl⟩ := h
    exact .createAssetMinted op hfresh hmint hcap hfits
  · obtain rfl := Except.ok.inj h
    exact .createAssetUnminted op hfresh (by omega)

theorem transfer_spec {op : TransferOp} (h : transfer s ownerId op = .ok e) :
    OpSpec blake2b s.view ptx ownerId ctx (.transfer op) e := by
  simp only [transfer, except_bind_eq_ok, failIf_eq_ok, exists_const, not_not] at h
  obtain ⟨hknown, h⟩ := h
  split_ifs at h with hself
  · simp only [except_bind_eq_ok, okOr_eq_ok, checkedSub_eq_some, except_pure_eq_ok] at h
    obtain ⟨_, ⟨hfunded, -⟩, rfl⟩ := h
    exact .selfTransfer op hknown (by simpa using hself) hfunded
  · simp only [except_bind_eq_ok, okOr_eq_ok, checkedSub_eq_some, checkedAdd_eq_some,
      except_pure_eq_ok] at h
    obtain ⟨_, ⟨hfunded, rfl⟩, _, ⟨hfits, rfl⟩, rfl⟩ := h
    exact .transfer op hknown (by simpa using hself) hfunded hfits

theorem mint_spec {op : MintOp} (h : mint s ownerId op = .ok e) :
    OpSpec blake2b s.view ptx ownerId ctx (.mint op) e := by
  simp only [mint, except_bind_eq_ok, okOr_eq_ok, failIf_eq_ok, checkedAdd_eq_some, exists_const,
    except_pure_eq_ok, not_not, not_and, not_lt, gt_iff_lt] at h
  obtain ⟨asset, hknown, hclass, hauthority, _, ⟨hsupply, rfl⟩, hcap, _, ⟨hfits, rfl⟩, rfl⟩ := h
  exact .mint op asset hknown hclass hauthority hsupply hcap hfits

theorem burn_spec {op : BurnOp} (h : burn s ownerId op = .ok e) :
    OpSpec blake2b s.view ptx ownerId ctx (.burn op) e := by
  simp only [burn, except_bind_eq_ok, okOr_eq_ok, failIf_eq_ok, checkedSub_eq_some, exists_const,
    except_pure_eq_ok] at h
  obtain ⟨asset, hknown, hclass, _, ⟨hfunded, rfl⟩, _, ⟨hsupply, rfl⟩, rfl⟩ := h
  exact .burn op asset hknown hclass hfunded hsupply

variable {op : CreateLiquidityAssetOp}

theorem launch_spec {seeded : PoolFunds} {launched : Launch}
    (h : launch s ptx ownerId op seeded = .ok launched) :
    LaunchSpec s.view ptx.tx.id ownerId op seeded launched := by
  unfold launch at h
  split_ifs at h with hbuy
  · simp only [except_bind_eq_ok, okOr_eq_ok, checkedAdd_eq_some, except_pure_eq_ok,
      Prod.exists] at h
    obtain ⟨tokenOut, funds, htrade, _, ⟨hfits, rfl⟩, rfl⟩ := h
    obtain ⟨netIn, htrade⟩ := buyWith_spec htrade
    exact .bought hbuy htrade hfits
  · obtain rfl := Except.ok.inj h
    exact .skipped (by omega)

theorem createLiquidityAsset_spec (h : createLiquidityAsset blake2b s ptx ownerId op ctx = .ok e) :
    OpSpec blake2b s.view ptx ownerId ctx (.createLiquidityAsset op) e := by
  simp only [createLiquidityAsset, resolveCreateLiquidityVaultOutput,
    validateLiquidityCreationParameters, validateLiquidityUnlockTarget, except_bind_eq_ok,
    failIf_eq_ok, okOr_eq_ok, checkedAdd_eq_some, validateLiquidityCurveMode_eq_ok,
    validateLiquidityCurveParameters_eq_ok, except_pure_eq_ok, exists_const, Prod.exists, not_not,
    not_lt, gt_iff_lt, Bool.not_eq_true, hasAsset_eq_false, List.any_eq_false] at h
  obtain ⟨hfresh, ⟨hdecimals, hsupply, hseed⟩, -, hcurve, htarget, index, value,
    ⟨hinputs, _, hvault, rfl⟩, _, ⟨hfits, rfl⟩, hvalue, recipients, hrecipients, hfee, cpay, hcpay,
    token, htoken, launched, hlaunch, _, hinv, rfl⟩ := h
  obtain ⟨-, hinvariants⟩ := validateLiquidityInvariants_eq_ok hinv rfl rfl
  exact .createLiquidityAsset op ⟨index, value, cpay, token, recipients, launched⟩
    { fresh := hfresh
      decimals := hdecimals
      supplyRange := hsupply
      seed := hseed
      curve := hcurve
      target := htarget
      noVaultInput := hinputs
      vault := hvault
      vaultFits := hfits
      value := hvalue
      recipients := hrecipients
      feePayable := fun hpos hnil => hfee ⟨hpos, hnil⟩
      virtualCpay := hcpay
      virtualToken := htoken
      launch := launch_spec hlaunch
      invariants := hinvariants }

theorem tradedPool_eq_ok {nonce : ℕ} : tradedPool s name assetId nonce = .ok (asset, pool) ↔
      s.view.asset assetId = some asset ∧ asset.assetClass = .liquidity ∧
        asset.liquidity = some pool ∧ pool.poolNonce = nonce := by
  simp only [tradedPool, except_bind_eq_ok, okOr_eq_ok, failIf_eq_ok, except_pure_eq_ok,
    exists_const, not_not, Prod.mk.injEq]
  constructor
  · rintro ⟨_, hknown, hclass, _, hpool, hnonce, rfl, rfl⟩
    exact ⟨hknown, hclass, hpool, hnonce⟩
  · rintro ⟨hknown, hclass, hpool, hnonce⟩
    exact ⟨asset, hknown, hclass, pool, hpool, hnonce, rfl, rfl⟩

theorem PoolMove.valid_of_checks {m : PoolMove} {nonce : ℕ}
    {u : Unit} (hpool : tradedPool s name assetId nonce = .ok (m.asset, m.pool))
    (hnonceFits : m.pool.poolNonce + 1 < 2 ^ 64) (hvault : vaultTransition ptx m.pool = .ok m.vault)
    (hinv : validateLiquidityInvariants assetId (m.newAsset ptx.tx.id) = .ok u) :
    m.Valid s.view ptx assetId nonce := by
  obtain ⟨hknown, hclass, hpool, hnonce⟩ := tradedPool_eq_ok.mp hpool
  obtain ⟨hcapped, hinvariants⟩ := validateLiquidityInvariants_eq_ok hinv hclass rfl
  exact
    { known := hknown
      liquidity := hclass
      capped := hcapped
      pool := hpool
      nonce := hnonce
      nonceFits := hnonceFits
      vault := hvault
      invariants := hinvariants }

theorem PoolMove.newPool_of_unlocked (m : PoolMove) (h : m.pool.sellLocked = false)
    (txId : Bytes32) :
    m.newPool txId = (m.pool.withFunds m.funds).moved txId m.vault (m.pool.poolNonce + 1) := by
  unfold newPool unlockAtTarget
  split_ifs with htarget
  · have hopen : m.pool.unlocked = true := by
      simp only [sellLocked, Bool.and_eq_false_iff, decide_eq_false_iff_not,
        Bool.not_eq_false'] at h
      exact h.resolve_left (not_not.mpr htarget.1)
    simp [withFunds, moved, hopen]
  · rfl

theorem buyLiquidityExactIn_spec {op : BuyLiquidityExactInOp}
    (h : buyLiquidityExactIn s ptx ownerId op = .ok e) :
    OpSpec blake2b s.view ptx ownerId ctx (.buyLiquidityExactIn op) e := by
  simp only [buyLiquidityExactIn, except_bind_eq_ok, failIf_eq_ok, okOr_eq_ok, checkedAdd_eq_some,
    checkedSub_eq_some, except_pure_eq_ok, exists_const, Prod.exists, not_not] at h
  obtain ⟨asset, pool, hpool, vault, hvault, _, ⟨hle, rfl⟩, hpaid, tokenOut, funds, htrade, _,
    ⟨hnonceFits, rfl⟩, _, ⟨hfits, rfl⟩, _, ⟨hsupply, rfl⟩, _, hinv, rfl⟩ := h
  obtain ⟨netIn, htrade⟩ := buyWith_spec htrade
  let m : PoolMove := ⟨asset, pool, vault, funds, asset.totalSupply + tokenOut⟩
  have hpaid : m.vault.outputValue = m.vault.inputValue + op.cpayInSompi := by
    simp only [m]
    omega
  exact .buyLiquidityExactIn op m (PoolMove.valid_of_checks hpool hnonceFits hvault hinv) hpaid
    htrade hsupply rfl hfits

theorem sellLiquidityExactIn_spec {op : SellLiquidityExactInOp}
    (h : sellLiquidityExactIn blake2b s ptx ownerId op = .ok e) :
    OpSpec blake2b s.view ptx ownerId ctx (.sellLiquidityExactIn op) e := by
  simp only [sellLiquidityExactIn, except_bind_eq_ok, failIf_eq_ok, okOr_eq_ok, checkedAdd_eq_some,
    checkedSub_eq_some, except_pure_eq_ok, exists_const, Prod.exists, not_not, not_lt,
    Bool.not_eq_true, cpmmSell_eq_ok] at h
  obtain ⟨asset, pool, hpool, hunlocked, _, ⟨hfunded, rfl⟩, _, ⟨hsupply, rfl⟩, trade, htrade, fee,
    hfee, _, ⟨hfeeLe, rfl⟩, -, hmin, hminPayout, _, hpayout, vault, hvault, _, ⟨hle, rfl⟩, hpaid, _,
    ⟨hreal, rfl⟩, rs, total, hfees, _, ⟨hnonceFits, rfl⟩, _, hinv, rfl⟩ := h
  let m : PoolMove :=
    { asset, pool, vault
      funds := ⟨trade.realCpayReservesSompi, pool.realTokenReserves + op.tokenIn,
        trade.virtualCpayReservesSompi, trade.virtualTokenReserves, total, rs⟩
      totalSupply := asset.totalSupply - op.tokenIn }
  have hnew : (pool.withFunds m.funds).moved ptx.tx.id vault (pool.poolNonce + 1) =
      m.newPool ptx.tx.id := (m.newPool_of_unlocked hunlocked ptx.tx.id).symm
  rw [hnew] at hinv ⊢
  have hback : trade.grossOut - (trade.grossOut - fee) = fee := by omega
  have htrade : IsFundedSell pool.funds pool.feeBps op.tokenIn trade.grossOut
      (trade.grossOut - fee) m.funds :=
    { trade := htrade
      fee := by rwa [hback]
      cpayOutLe := by omega
      real := rfl
      realFits := hreal
      fees := by rwa [hback] }
  have hpaid : m.vault.inputValue = m.vault.outputValue + (trade.grossOut - fee) := by
    simp only [m]
    omega
  have hsupply : m.totalSupply + op.tokenIn = m.asset.totalSupply := by
    simp only [m]
    omega
  exact .sellLiquidityExactIn op m (PoolMove.valid_of_checks hpool hnonceFits hvault hinv) hunlocked
    hfunded htrade hmin hminPayout hpayout hpaid hsupply

theorem claimLiquidityFees_spec {op : ClaimLiquidityFeesOp}
    (h : claimLiquidityFees blake2b s ptx ownerId op = .ok e) :
    OpSpec blake2b s.view ptx ownerId ctx (.claimLiquidityFees op) e := by
  simp only [claimLiquidityFees, validateLiquidityClaimAuthorization, except_bind_eq_ok,
    failIf_eq_ok, okOr_eq_ok, checkedAdd_eq_some, checkedSub_eq_some, except_pure_eq_ok,
    exists_const, Prod.exists, not_not, not_lt, Bool.not_eq_true] at h
  obtain ⟨asset, pool, hpool, hunlocked, hmin, recipient, hrecipient, hunclaimed, hauth, _, hpayout,
    vault, hvault, _, ⟨hle, rfl⟩, hpaid, _, ⟨htotal, rfl⟩, _, ⟨hnonceFits, rfl⟩, _, hinv, rfl⟩ := h
  let m : PoolMove :=
    { asset, pool, vault
      funds := claimedFunds pool.funds op.recipientIndex.toNat recipient op.claimAmountSompi
      totalSupply := asset.totalSupply }
  have hnew : (pool.withFunds m.funds).moved ptx.tx.id vault (pool.poolNonce + 1) =
      m.newPool ptx.tx.id := (m.newPool_of_unlocked hunlocked ptx.tx.id).symm
  have hpaid : m.vault.inputValue = m.vault.outputValue + op.claimAmountSompi := by
    simp only [m]
    omega
  have hasset : { asset with
      liquidity := some ((pool.withFunds m.funds).moved ptx.tx.id vault (pool.poolNonce + 1)) } =
        m.newAsset ptx.tx.id := by
    rw [hnew]
    rfl
  change validateLiquidityInvariants op.assetId { asset with
    liquidity := some ((pool.withFunds m.funds).moved ptx.tx.id vault (pool.poolNonce + 1)) } = _
    at hinv
  rw [hasset] at hinv
  have heffect : OpSpec blake2b s.view ptx ownerId ctx (.claimLiquidityFees op)
      ⟨some (op.assetId, m.newAsset ptx.tx.id), []⟩ :=
    .claimLiquidityFees op m (PoolMove.valid_of_checks hpool hnonceFits hvault hinv) hunlocked hmin
      hrecipient hunclaimed hauth hpayout hpaid htotal rfl rfl
  rw [← hasset] at heffect
  exact heffect

theorem opEffect_spec {op : AtomicPayloadOp} (h : opEffect blake2b s ptx ownerId ctx op = .ok e) :
    OpSpec blake2b s.view ptx ownerId ctx op e := by
  cases op with
  | createAsset => exact createAsset_spec h
  | transfer => exact transfer_spec h
  | mint => exact mint_spec h
  | burn => exact burn_spec h
  | createAssetWithMint => exact createAssetWithMint_spec h
  | createLiquidityAsset => exact createLiquidityAsset_spec h
  | buyLiquidityExactIn => exact buyLiquidityExactIn_spec h
  | sellLiquidityExactIn => exact sellLiquidityExactIn_spec h
  | claimLiquidityFees => exact claimLiquidityFees_spec h

end Consensus

end Transition
end CryptixAtomic
