import CryptixAtomic.Payload.Canonical
import CryptixAtomic.Transition.PoolRuns

/-!
# Solvency of pools

Real and virtual reserves move by the same amounts, and the product of the virtual ones
never falls. Both are facts about one trade; along a run they add up, so that a pool can
be compared with its creation, and any two moments of a pool with each other.
-/
namespace CryptixAtomic

open Foundation ConstantProduct AtomicLiquidityPoolState ConsensusMath Option

namespace Transition

/-- The funds change by a flow: both pairs of reserves by the same amounts, the virtual
ones without a loss of product. -/
structure FundsMove (f : PoolFunds) (flow : Flow) (f' : PoolFunds) : Prop where
  virtual : Moves ⟨f.virtualCpayReservesSompi, f.virtualTokenReserves⟩ flow
    ⟨f'.virtualCpayReservesSompi, f'.virtualTokenReserves⟩
  realCpay : f'.realCpayReservesSompi + flow.xOut = f.realCpayReservesSompi + flow.xIn
  realToken : f'.realTokenReserves + flow.yOut = f.realTokenReserves + flow.yIn
  cpayFits : f.virtualCpayReservesSompi < 2 ^ 64 → f'.virtualCpayReservesSompi < 2 ^ 64

namespace FundsMove

variable {f f' f'' : PoolFunds} {g g' : Flow}

theorem refl (f : PoolFunds) : FundsMove f .zero f where
  virtual := Moves.refl _
  realCpay := rfl
  realToken := rfl
  cpayFits := id

theorem trans (h : FundsMove f g f') (h' : FundsMove f' g' f'') : FundsMove f (g.add g') f'' := by
  constructor
  · exact h.virtual.trans h'.virtual
  · have hfirst := h.realCpay
    have hsecond := h'.realCpay
    simp only [Flow.add]
    omega
  · have hfirst := h.realToken
    have hsecond := h'.realToken
    simp only [Flow.add]
    omega
  · exact fun hfits => h'.cpayFits (h.cpayFits hfits)

theorem cpay_gap (h : FundsMove f g f') : f'.virtualCpayReservesSompi + f.realCpayReservesSompi =
      f.virtualCpayReservesSompi + f'.realCpayReservesSompi := by
  have hvirtual := h.virtual.x
  have hreal := h.realCpay
  simp only at hvirtual
  omega

theorem token_gap (h : FundsMove f g f') : f'.virtualTokenReserves + f.realTokenReserves =
      f.virtualTokenReserves + f'.realTokenReserves := by
  have hvirtual := h.virtual.y
  have hreal := h.realToken
  simp only at hvirtual
  omega

end FundsMove

section Trades

theorem IsFundedBuy.move {f f' : PoolFunds} {feeBps cpayIn minTokenOut netIn tokenOut : ℕ}
    (h : IsFundedBuy f feeBps cpayIn minTokenOut netIn tokenOut f') :
    FundsMove f ⟨netIn, 0, 0, tokenOut⟩ f' where
  virtual := h.trade.moves
  realCpay := h.real
  realToken := h.trade.real
  cpayFits := fun _ => by
    have hcpay := h.trade.cpay
    have hfits := h.trade.cpayFits
    simp only at hcpay
    omega

theorem IsFundedSell.move {f f' : PoolFunds} {feeBps tokenIn grossOut cpayOut : ℕ}
    (h : IsFundedSell f feeBps tokenIn grossOut cpayOut f') :
    FundsMove f ⟨0, grossOut, tokenIn, 0⟩ f' where
  virtual := h.trade.moves
  realCpay := h.trade.real
  realToken := h.real
  cpayFits := fun _ => h.trade.cpayFits

theorem claimedFunds_move (f : PoolFunds) (i : ℕ) (recipient : AtomicLiquidityFeeRecipientState)
    (amount : ℕ) : FundsMove f .zero (claimedFunds f i recipient amount) where
  virtual := Moves.refl _
  realCpay := rfl
  realToken := rfl
  cpayFits := id

/-- The sompi and tokens that an operation moves into and out of the reserves of a pool
which it takes from `p` to `q`. -/
def tradeFlow (assetId : Bytes32) (op : AtomicPayloadOp) (p q : AtomicLiquidityPoolState) : Flow :=
  match op with
  | .buyLiquidityExactIn buy =>
    if buy.assetId = assetId then
      ⟨q.realCpayReservesSompi - p.realCpayReservesSompi, 0, 0,
        p.realTokenReserves - q.realTokenReserves⟩
    else .zero
  | .sellLiquidityExactIn sell =>
    if sell.assetId = assetId then
      ⟨0, p.realCpayReservesSompi - q.realCpayReservesSompi, sell.tokenIn, 0⟩
    else .zero
  | _ => .zero

theorem tradeFlow_of_other {assetId : Bytes32} {op : AtomicPayloadOp}
    (h : op.poolSlot?.map (·.1) ≠ some assetId) (p q : AtomicLiquidityPoolState) :
    tradeFlow assetId op p q = .zero := by
  unfold tradeFlow
  split
  · next buy => exact if_neg fun heq => h (by simp [AtomicPayloadOp.poolSlot?, heq])
  · next sell => exact if_neg fun heq => h (by simp [AtomicPayloadOp.poolSlot?, heq])
  · rfl

@[simp] theorem PoolMove.funds_newPool (m : PoolMove) (txId : Bytes32) :
    (m.newPool txId).funds = m.funds := by
  unfold newPool unlockAtTarget
  split_ifs <;> rfl

@[simp] theorem PoolMove.feeBps_newPool (m : PoolMove) (txId : Bytes32) :
    (m.newPool txId).feeBps = m.pool.feeBps := by
  unfold newPool unlockAtTarget
  split_ifs <;> rfl

theorem PoolMove.Trades.move {m : PoolMove} {op : AtomicPayloadOp} (h : m.Trades op)
    {assetId : Bytes32} (hslot : op.poolSlot?.map (·.1) = some assetId) (txId : Bytes32) :
    FundsMove m.pool.funds (tradeFlow assetId op m.pool (m.newPool txId)) m.funds := by
  cases h with
  | buy op trade =>
    have hasset : op.assetId = assetId := some.inj hslot
    have hmove := trade.move
    have hcpay := hmove.realCpay
    have htoken := hmove.realToken
    simp only [AtomicLiquidityPoolState.funds] at hcpay htoken
    rw [tradeFlow, if_pos hasset, m.realCpayReservesSompi_newPool, m.realTokenReserves_newPool]
    convert hmove using 2 <;> omega
  | sell op unlocked trade =>
    have hasset : op.assetId = assetId := some.inj hslot
    have hmove := trade.move
    have hcpay := hmove.realCpay
    simp only [AtomicLiquidityPoolState.funds] at hcpay
    rw [tradeFlow, if_pos hasset, m.realCpayReservesSompi_newPool]
    convert hmove using 2
    omega
  | claim op unlocked recipientAt unclaimed total funds =>
    rw [funds]
    exact claimedFunds_move ..

end Trades

variable {xs : List TxContext}

section Flows

variable (blake2b : Blake2b) (params : AtomicParams)

def stepFlow (assetId : Bytes32) (x : TxContext) (p q : AtomicLiquidityPoolState) : Flow :=
  match authorizedPayload blake2b params x with
  | some (parsed, _) => tradeFlow assetId parsed.op p q
  | none => .zero

/-- Accepted transactions with the total of what they move through the pool of an asset. -/
inductive PoolFlow (assetId : Bytes32) :
    AtomicConsensusState → List TxContext → Flow → AtomicConsensusState → Prop
  | nil (s : AtomicConsensusState) : PoolFlow assetId s [] .zero s
  | cons {s m t : AtomicConsensusState} {x : TxContext} {xs : List TxContext} {f : Flow}
      {p q : AtomicLiquidityPoolState} (step : Accepts blake2b params s x m)
      (before : s.pool assetId = some p) (after : m.pool assetId = some q)
      (rest : PoolFlow assetId m xs f t) :
      PoolFlow assetId s (x :: xs) ((stepFlow blake2b params assetId x p q).add f) t

variable {blake2b params}
variable {s t : AtomicConsensusState} {assetId : Bytes32} {p : AtomicLiquidityPoolState}

theorem Accepts.pool_funds {x : TxContext} (h : Accepts blake2b params s x t) {a : AtomicAssetState}
    (ha : s.assetOption assetId = some a)
    (hclass : a.assetClass = .liquidity) (hp : a.liquidity = some p)
    (hinv : LiquidityInvariants a p) :
    ∃ b q, t.assetOption assetId = some b ∧ b.assetClass = .liquidity ∧ b.liquidity = some q ∧
      LiquidityInvariants b q ∧ b.maxSupply = a.maxSupply ∧ q.feeBps = p.feeBps ∧
      FundsMove p.funds (stepFlow blake2b params assetId x p q) q.funds := by
  cases h.reads with
  | plain payload collected noVaultOutput nonces assets =>
    have hflow : stepFlow blake2b params assetId x p p = .zero := by
      simp [stepFlow, authorizedPayload_of_plain payload]
    refine ⟨a, p, by rw [assets]; exact ha, hclass, hp, hinv, rfl, rfl, ?_⟩
    rw [hflow]
    exact .refl _
  | @token spent parsed adm effect payload collected admitted spec nonces assets =>
    have hflow : ∀ q, stepFlow blake2b params assetId x p q = tradeFlow assetId parsed.op p q := by
      intro q
      simp [stepFlow, authorizedPayload_of_token payload admitted.owner]
    rw [assets]
    by_cases hslot : parsed.op.poolSlot?.map (·.1) = some assetId
    · obtain ⟨⟨id, poolNonce⟩, hfound, rfl⟩ := map_eq_some_iff.mp hslot
      obtain ⟨m, valid, trades, hasset⟩ := spec.pool_moved hfound
      obtain rfl := some.inj (valid.known.symm.trans ha)
      obtain rfl := some.inj (valid.pool.symm.trans hp)
      refine ⟨m.newAsset x.ptx.tx.id, m.newPool x.ptx.tx.id, ?_, valid.liquidity, rfl,
        valid.invariants, rfl, m.feeBps_newPool _, ?_⟩
      · simp [OpEffect.assetAfter, hasset]
      · rw [hflow, m.funds_newPool]
        exact trades.move hslot _
    · refine ⟨a, p, spec.pool_kept ha hclass hslot, hclass, hp, hinv, rfl, rfl, ?_⟩
      rw [hflow, tradeFlow_of_other hslot]
      exact .refl _

theorem PoolFlow.move
    {f : Flow} (h : PoolFlow blake2b params assetId s xs f t) (hvalid : PoolsValid s.assetOption)
    (hp : s.pool assetId = some p) :
    ∃ q, t.pool assetId = some q ∧ FundsMove p.funds f q.funds := by
  induction h generalizing p with
  | nil => exact ⟨p, hp, .refl _⟩
  | @cons s m t x xs f p₀ r step before after rest ih =>
    obtain rfl := some.inj (before.symm.trans hp)
    obtain ⟨a, ha, hpool⟩ := pool_eq_some.mp hp
    have hclass : a.assetClass = .liquidity := (hvalid.consistent _ _ ha).mpr (by simp [hpool])
    obtain ⟨b, r', hb, -, hr', -, -, -, hfirst⟩ :=
      step.pool_funds ha hclass hpool (hvalid.invariants _ _ _ ha hpool)
    obtain rfl := some.inj (after.symm.trans (pool_eq_some.mpr ⟨b, hb, hr'⟩))
    obtain ⟨q, hq, hrest⟩ := ih (step.poolsValid hvalid) after
    exact ⟨q, hq, hfirst.trans hrest⟩

theorem Accepted.exists_poolFlow (h : Accepted blake2b params s xs t)
    (hvalid : PoolsValid s.assetOption)
    (hp : s.pool assetId = some p) : ∃ f, PoolFlow blake2b params assetId s xs f t := by
  induction h generalizing p with
  | nil s => exact ⟨_, .nil s⟩
  | cons step rest ih =>
    obtain ⟨q, hq, -⟩ := step.pool_step hvalid hp
    obtain ⟨f, hf⟩ := ih (step.poolsValid hvalid) hq
    exact ⟨_, .cons step hp hq hf⟩

/-- Buys and sells, by whomever and in whatever portions, that return no more tokens than
they took are paid no more sompi than they brought. -/
theorem no_round_trip_profit {assetId : Bytes32} {s₀ s t : AtomicConsensusState}
    {pre xs : List TxContext} {f : Flow} (hstart : ∀ id, s₀.assetOption id = none)
    (hreach : Accepted blake2b params s₀ pre s) (h : PoolFlow blake2b params assetId s xs f t)
    {p q : AtomicLiquidityPoolState} (hp : s.pool assetId = some p) (hq : t.pool assetId = some q) :
    (p.realTokenReserves ≤ q.realTokenReserves → f.yIn ≤ f.yOut → f.xOut ≤ f.xIn) ∧
      (q.realTokenReserves = p.realTokenReserves →
        p.realCpayReservesSompi ≤ q.realCpayReservesSompi) := by
  have hvalid := hreach.poolsValid (poolsValid_of_empty hstart)
  obtain ⟨q', hq', hmove⟩ := h.move hvalid hp
  obtain rfl := some.inj (hq.symm.trans hq')
  obtain ⟨a, ha, hpool⟩ := pool_eq_some.mp hp
  have hpos : 0 < p.virtualTokenReserves :=
    Nat.pos_of_ne_zero (hvalid.invariants _ _ _ ha hpool).virtualToken
  refine ⟨fun _ hsold => hmove.virtual.paid_le hsold hpos, fun hback => ?_⟩
  have htoken := hmove.realToken
  have hcpay := hmove.realCpay
  simp only [funds] at htoken hcpay
  have hpaid := hmove.virtual.paid_le (by omega) hpos
  omega

end Flows

section Origin

/-- The funds a pool starts with, before its launch buy. -/
structure PoolOrigin where
  op : CreateLiquidityAssetOp
  virtualCpay : ℕ
  virtualToken : ℕ
  recipients : List AtomicLiquidityFeeRecipientState

namespace PoolOrigin

variable (o : PoolOrigin)

def seeded : PoolFunds where
  realCpayReservesSompi := initialRealCpayReservesSompi
  realTokenReserves := o.op.maxSupply
  virtualCpayReservesSompi := o.virtualCpay
  virtualTokenReserves := o.virtualToken
  unclaimedFeeTotalSompi := 0
  feeRecipients := o.recipients

/-- What a valid creation computes. -/
structure Valid : Prop where
  seed : o.op.seedReserveSompi = initialRealCpayReservesSompi
  virtualCpay : initialVirtualCpayReservesSompiForCurve curveErrors o.op.curveMode
    o.op.individualVirtualCpayReservesSompi = .ok o.virtualCpay
  virtualToken : initialVirtualTokenReservesForCurve errors curveErrors
    o.op.maxSupply o.op.curveMode o.op.individualVirtualTokenMultiplierBps = .ok o.virtualToken
  rate : o.op.feeBps ≤ maxLiquidityFeeBps

/-- A pool that comes from a creation through trades and claims. -/
structure Reaches (a : AtomicAssetState) (p : AtomicLiquidityPoolState) : Prop where
  liquidity : a.assetClass = .liquidity
  pool : a.liquidity = some p
  invariants : LiquidityInvariants a p
  supply : a.maxSupply = o.op.maxSupply
  rate : p.feeBps = o.op.feeBps
  move : ∃ flow, FundsMove o.seeded flow p.funds

/-- The promises to the holders of a pool's tokens. -/
structure Solvent (a : AtomicAssetState) (p : AtomicLiquidityPoolState) : Prop where
  cpayGap : p.virtualCpayReservesSompi + o.op.seedReserveSompi =
    o.virtualCpay + p.realCpayReservesSompi
  tokenGap : p.virtualTokenReserves + o.op.maxSupply = o.virtualToken + p.realTokenReserves
  product : o.virtualCpay * o.virtualToken ≤ p.virtualCpayReservesSompi * p.virtualTokenReserves
  reserve : o.op.seedReserveSompi ≤ p.realCpayReservesSompi
  exit : p.unlocked = true → ∀ tokenIn, 1 ≤ tokenIn → tokenIn ≤ a.totalSupply →
    ∃ q fee, cpmmSell p.realCpayReservesSompi p.virtualCpayReservesSompi
        p.virtualTokenReserves tokenIn = .ok q ∧
      IndexMath.cpmmSell p.realCpayReservesSompi p.virtualCpayReservesSompi
        p.virtualTokenReserves tokenIn = .ok q ∧
      calculateTradeFee errors q.grossOut p.feeBps = .ok fee ∧
      liquidityMinPayoutSompi + fee ≤ q.grossOut

variable {o}

variable {a : AtomicAssetState} {p : AtomicLiquidityPoolState}

/-- Tokens in circulation are missing from the pool, so the pool holds at least the sompi
it started with. -/
theorem Reaches.virtualCpay_le
    (valid : o.Valid) (h : o.Reaches a p) : o.virtualCpay ≤ p.virtualCpayReservesSompi := by
  obtain ⟨flow, hmove⟩ := h.move
  have hgap := hmove.token_gap
  have hsupply := h.invariants.supply
  have hmax := h.supply
  have hbounds := initialVirtualTokenReservesForCurve_bounds valid.virtualToken
  simp only [seeded, funds, minLiquiditySupplyRaw] at hgap hbounds
  exact hmove.virtual.x_le (by change p.virtualTokenReserves ≤ o.virtualToken; omega)
    (by change 0 < o.virtualToken; omega)

theorem Reaches.exit (valid : o.Valid)
    (h : o.Reaches a p) {tokenIn : ℕ} (hpos : 1 ≤ tokenIn) (hle : tokenIn ≤ a.totalSupply) :
    ∃ q, IsCpmmSell p.realCpayReservesSompi p.virtualCpayReservesSompi p.virtualTokenReserves
      tokenIn q := by
  obtain ⟨flow, hmove⟩ := h.move
  have hfloor := h.virtualCpay_le valid
  have hcpayGap := hmove.cpay_gap
  have htokenGap := hmove.token_gap
  have hsupply := h.invariants.supply
  have hmax := h.supply
  have hcpay := initialVirtualCpayReservesSompiForCurve_bounds valid.virtualCpay
  have htoken := initialVirtualTokenReservesForCurve_bounds valid.virtualToken
  have hproduct := hmove.virtual.product
  have hfits : p.virtualCpayReservesSompi < 2 ^ 64 := hmove.cpayFits (by
    simp only [individualMaxVirtualCpayReservesSompi] at hcpay
    change o.virtualCpay < _
    omega)
  simp only [seeded, funds, minLiquiditySupplyRaw, maxLiquiditySupplyRaw,
    individualMinVirtualCpayReservesSompi, initialRealCpayReservesSompi, sompiPerCryptix]
    at hcpayGap htokenGap htoken hcpay hproduct
  -- selling everything leads back at most to the virtual reserves of the creation
  have hback : p.virtualTokenReserves + tokenIn ≤ o.virtualToken := by omega
  have hsell : ∃ q, IsCpmmSell p.realCpayReservesSompi p.virtualCpayReservesSompi
      p.virtualTokenReserves tokenIn q ∧ o.virtualCpay - 99999999 ≤ q.virtualCpayReservesSompi :=
    exists_isCpmmSell hpos (by omega) hfits
    (calc p.virtualTokenReserves + tokenIn ≤ p.virtualCpayReservesSompi := by omega
      _ ≤ p.virtualCpayReservesSompi * tokenIn := Nat.le_mul_of_pos_right _ hpos)
    (calc (o.virtualCpay - 99999999) * (p.virtualTokenReserves + tokenIn)
        ≤ o.virtualCpay * o.virtualToken := Nat.mul_le_mul (Nat.sub_le _ _) hback
      _ ≤ p.virtualCpayReservesSompi * p.virtualTokenReserves := hproduct)
    (by omega)
  obtain ⟨q, hq, -⟩ := hsell
  exact ⟨q, hq⟩

theorem Reaches.solvent (valid : o.Valid) (h : o.Reaches a p) : o.Solvent a p := by
  obtain ⟨flow, hmove⟩ := h.move
  have hcpayGap := hmove.cpay_gap
  have htokenGap := hmove.token_gap
  have hfloor := h.virtualCpay_le valid
  simp only [seeded, funds] at hcpayGap htokenGap
  rw [← valid.seed] at hcpayGap
  refine ⟨hcpayGap, htokenGap, hmove.virtual.product, by omega, ?_⟩
  intro _ tokenIn hpos hle
  obtain ⟨q, hq⟩ := h.exit valid hpos hle
  have hrate : p.feeBps < feeBpsDenominator := by
    have hmost := valid.rate
    rw [h.rate]
    simp only [maxLiquidityFeeBps, feeBpsDenominator] at hmost ⊢
    omega
  have hgross : q.grossOut < 2 ^ 64 := by
    have hreal := hq.real
    have hfits := h.invariants.vaultFits
    omega
  have hfee := calculateTradeFee_of_lt errors hgross hrate
  have hlt := tradeFee_lt hfee hrate hq.outPos
  refine ⟨q, _, cpmmSell_eq_ok.mpr hq, IndexMath.cpmmSell_eq_ok.mpr hq, hfee, ?_⟩
  simp only [liquidityMinPayoutSompi]
  omega

end PoolOrigin

variable {blake2b : Blake2b} {params : AtomicParams}

variable {ptx : PopulatedTransaction}

theorem canonical_of_payloadOf {povDaaScore : ℕ}
    {parsed : ParsedAtomicPayload} (h : payloadOf params ptx povDaaScore = .ok (some parsed)) :
    parsed.op.Canonical ∧ 0 < parsed.nonce := by
  unfold payloadOf at h
  split_ifs at h
  · cases h
  · exact canonical_of_parseAtomicPayload h

theorem PoolCreation.Valid.move {v : LedgerView}
    {ownerId : Bytes32} {ctx : AtomicCreationContext} {op : CreateLiquidityAssetOp}
    {c : PoolCreation} (valid : c.Valid op ownerId ctx blake2b v ptx) :
    ∃ flow, FundsMove (c.seeded op) flow c.launched.funds := by
  have hlaunch := valid.launch
  cases hl : c.launched with
  | mk =>
    rw [hl] at hlaunch
    cases hlaunch with
    | skipped => exact ⟨_, .refl _⟩
    | bought some trade => exact ⟨_, trade.move⟩

variable {s t : AtomicConsensusState} {x : TxContext} {assetId : Bytes32} {a : AtomicAssetState}

variable {p : AtomicLiquidityPoolState}

theorem Accepts.pool_created (h : Accepts blake2b params s x t)
    (hnone : s.assetOption assetId = none)
    (ha : t.assetOption assetId = some a) (hp : a.liquidity = some p) :
    ∃ o : PoolOrigin, x.ptx.tx.id = assetId ∧
      (authorizedPayload blake2b params x).map (·.1.op) = some (.createLiquidityAsset o.op) ∧
      o.Valid ∧ o.Reaches a p := by
  cases h.reads with
  | plain payload collected noVaultOutput nonces assets =>
    rw [assets, hnone] at ha
    cases ha
  | @token spent parsed adm effect payload collected admitted spec nonces assets =>
    have hpayload := authorizedPayload_of_token payload admitted.owner
    have hcanonical := (canonical_of_payloadOf payload).1
    rw [assets] at ha
    have hwrite : effect.asset = some (assetId, a) := by
      cases hasset : effect.asset with
      | none =>
        simp only [OpEffect.assetAfter, hasset, hnone] at ha
        cases ha
      | some write =>
        by_cases hid : assetId = write.1
        · subst hid
          have hval : write.2 = a := by simpa [OpEffect.assetAfter, hasset] using ha
          rw [← hval]
        · simp [OpEffect.assetAfter, hasset, hid, hnone] at ha
    generalize hop : parsed.op = op at spec hcanonical
    cases spec with
    | createLiquidityAsset op c valid =>
      cases hwrite
      obtain rfl := some.inj hp
      refine ⟨⟨op, c.virtualCpay, c.virtualToken, c.recipients⟩, rfl, ?_, ?_, ?_⟩
      · rw [hpayload, map_some, hop]
      · refine ⟨valid.seed, valid.virtualCpay, valid.virtualToken, ?_⟩
        rcases hcanonical.fees.rate with ⟨hzero, -⟩ | ⟨⟨-, hmost⟩, -⟩
        · rw [hzero]
          exact Nat.zero_le _
        · exact hmost
      · exact ⟨rfl, rfl, valid.invariants, rfl, rfl, valid.move⟩
    | createAsset | createAssetUnminted | createAssetMinted =>
      cases hwrite
      cases hp
    | selfTransfer | transfer => cases hwrite
    | mint op asset known | burn op asset known =>
      cases hwrite
      cases hnone.symm.trans known
    | buyLiquidityExactIn op m valid | sellLiquidityExactIn op m valid
    | claimLiquidityFees op m valid =>
      cases hwrite
      cases hnone.symm.trans valid.known

theorem Accepted.reaches {o : PoolOrigin} (h : Accepted blake2b params s xs t)
    (ha : s.assetOption assetId = some a) (hp : o.Reaches a p) :
    ∃ b q, t.assetOption assetId = some b ∧ o.Reaches b q := by
  induction h generalizing a p with
  | nil => exact ⟨a, p, ha, hp⟩
  | cons step rest ih =>
    obtain ⟨b, q, hb, hclass, hq, hinv, hmax, hrate, hmove⟩ :=
      step.pool_funds ha hp.liquidity hp.pool hp.invariants
    obtain ⟨flow, hbefore⟩ := hp.move
    exact ih hb ⟨hclass, hq, hinv, hmax.trans hp.supply, hrate.trans hp.rate, _,
      hbefore.trans hmove⟩

theorem Accepts.no_pool (h : Accepts blake2b params s x t)
    (ha : s.assetOption assetId = some a) (hclass : a.assetClass ≠ .liquidity)
    (hnone : a.liquidity = none) :
    ∃ b, t.assetOption assetId = some b ∧ b.assetClass ≠ .liquidity ∧ b.liquidity = none := by
  cases h.reads with
  | plain payload collected noVaultOutput nonces assets =>
    exact ⟨a, by rw [assets]; exact ha, hclass, hnone⟩
  | @token spent parsed adm effect payload collected admitted spec nonces assets balances =>
    have hkept := (ownerFrame_of_spec spec assets balances (by
      intro key hne
      rw [nonces, admitted.key, Function.update_of_ne hne])).kept assetId (by simp [ha])
    obtain ⟨b, hb⟩ := isSome_iff_exists.mp hkept
    refine ⟨b, hb, ?_⟩
    rw [assets] at hb
    rcases spec.asset_cases hb with hsame | hwrite
    · obtain rfl := some.inj (hsame.symm.trans ha)
      exact ⟨hclass, hnone⟩
    · cases hwrite with
      | created fresh => cases ha.symm.trans fresh
      | minted amount known | burned amount known =>
        obtain rfl := some.inj (ha.symm.trans known)
        exact ⟨hclass, hnone⟩
      | moved m valid =>
        obtain rfl := some.inj (ha.symm.trans valid.known)
        exact absurd valid.liquidity hclass

theorem Accepted.no_pool (h : Accepted blake2b params s xs t)
    (ha : s.assetOption assetId = some a) (hclass : a.assetClass ≠ .liquidity)
    (hnone : a.liquidity = none) :
    ∃ b, t.assetOption assetId = some b ∧ b.liquidity = none := by
  induction h generalizing a with
  | nil => exact ⟨a, ha, hnone⟩
  | cons step rest ih =>
    obtain ⟨b, hb, hclass', hnone'⟩ := step.no_pool ha hclass hnone
    exact ih hb hclass' hnone'

theorem Accepts.created_consistent (h : Accepts blake2b params s x t)
    (hnone : s.assetOption assetId = none) (ha : t.assetOption assetId = some a) :
    a.ClassConsistent := by
  cases h.reads with
  | plain payload collected noVaultOutput nonces assets =>
    rw [assets, hnone] at ha
    cases ha
  | token payload collected admitted spec nonces assets =>
    rw [assets] at ha
    rcases spec.asset_cases ha with hsame | hwrite
    · cases hnone.symm.trans hsame
    · cases hwrite with
      | created fresh creator consistent => exact consistent
      | minted amount known | burned amount known => cases hnone.symm.trans known
      | moved m valid => cases hnone.symm.trans valid.known

theorem Accepted.exists_origin (h : Accepted blake2b params s xs t)
    (hfresh : s.assetOption assetId = none) (ha : t.assetOption assetId = some a)
    (hp : a.liquidity = some p) :
    ∃ (o : PoolOrigin) (x : TxContext), x ∈ xs ∧ x.ptx.tx.id = assetId ∧
      (authorizedPayload blake2b params x).map (·.1.op) = some (.createLiquidityAsset o.op) ∧
      o.Valid ∧ o.Reaches a p := by
  induction h with
  | nil => cases hfresh.symm.trans ha
  | @cons s₀ m s x xs step rest ih =>
    cases hm : m.assetOption assetId with
    | none =>
      obtain ⟨o, y, hy, hrest⟩ := ih hm ha
      exact ⟨o, y, List.mem_cons_of_mem _ hy, hrest⟩
    | some b =>
      cases hq : b.liquidity with
      | none =>
        have hclass : b.assetClass ≠ .liquidity := by
          intro hliquidity
          have hsome := (step.created_consistent hfresh hm).mp hliquidity
          rw [hq] at hsome
          cases hsome
        obtain ⟨c, hc, hnone⟩ := rest.no_pool hm hclass hq
        obtain rfl := some.inj (hc.symm.trans ha)
        cases hnone.symm.trans hp
      | some =>
        obtain ⟨o, hid, hop, hvalid, hreaches⟩ := step.pool_created hfresh hm hq
        obtain ⟨c, r, hc, hend⟩ := rest.reaches hm hreaches
        obtain rfl := some.inj (hc.symm.trans ha)
        obtain rfl := some.inj (hend.pool.symm.trans hp)
        exact ⟨o, x, List.mem_cons_self, hid, hop, hvalid, hend⟩

/-- Every pool that accepted transactions lead to was created by one of them, and it is
solvent: the gaps between virtual and real reserves are those of the creation, the product
and the reserve have not fallen below it, and once the pool is unlocked any part of the
circulating supply can be sold for at least one sompi. -/
theorem pools_stay_solvent {s₀ s : AtomicConsensusState} {xs : List TxContext}
    (h : Accepted blake2b params s₀ xs s) {assetId : Bytes32} {a : AtomicAssetState}
    {p : AtomicLiquidityPoolState} (hfresh : s₀.assetOption assetId = none)
    (ha : s.assetOption assetId = some a) (hp : a.liquidity = some p) :
    ∃ (o : PoolOrigin) (x : TxContext), x ∈ xs ∧ x.ptx.tx.id = assetId ∧
      (authorizedPayload blake2b params x).map (·.1.op) = some (.createLiquidityAsset o.op) ∧
      o.Valid ∧ o.Solvent a p := by
  obtain ⟨o, x, hx, hid, hop, hvalid, hreaches⟩ := h.exists_origin hfresh ha hp
  exact ⟨o, x, hx, hid, hop, hvalid, hreaches.solvent hvalid⟩

end Origin

section Samples

open AtomicConsensusState

/-- Magic, version, operation, flags, first input as authorization, nonce. -/
def tradeHeader (op : UInt8) (nonce : ℕ) : List UInt8 :=
  [67, 65, 84, 1, op, 0, 0, 0] ++ toLeBytes 8 nonce

/-- A trade with the pool of asset 7: the vault of the transaction `previous` goes to
output 0. -/
def tradeTx (id previous : Bytes32) (vaultIn vaultOut : ℕ) (payload : List UInt8)
    (payouts : List TransactionOutput) : PopulatedTransaction where
  tx :=
    { id, inputs := [⟨⟨sampleId 200, 0⟩⟩, ⟨⟨previous, 0⟩⟩]
      outputs := ⟨vaultOut, vaultScript⟩ :: payouts ++ [⟨1000, keyScript⟩]
      subnetworkId := subnetworkIdPayload, payload }
  entries := [keyEntry, ⟨vaultIn, vaultScript, 0, false⟩]
  aligned := rfl

/-- One token for its price in the new pool. -/
def buyTx : PopulatedTransaction := tradeTx (sampleId 8) (sampleId 7) 100000000 308333507
    (tradeHeader 6 1 ++ (sampleId 7).val ++ toLeBytes 8 1 ++ toLeBytes 8 208333507 ++
      toLeBytes 16 1) []

/-- The token is sold again, for one sompi less. -/
def sellTx : PopulatedTransaction := tradeTx (sampleId 9) (sampleId 8) 308333507 100000001
    (tradeHeader 7 2 ++ (sampleId 7).val ++ toLeBytes 8 2 ++ toLeBytes 16 1 ++ toLeBytes 8 1 ++
      toLeBytes 2 1) [⟨208333506, keyScript⟩]

def buyRun : EStateM.Result String AtomicConsensusState Unit :=
  (validateAndApplyAtomicStateTransition zeroHash sampleParams buyTx 0 sampleContext).run
    (finalState createPoolRun)

def sellRun : EStateM.Result String AtomicConsensusState Unit :=
  (validateAndApplyAtomicStateTransition zeroHash sampleParams sellTx 0 sampleContext).run
    (finalState buyRun)

theorem createPoolRun_eq : createPoolRun = .ok () (finalState createPoolRun) :=
  eq_ok_of_succeeded (by decide +kernel)

theorem buyRun_eq : buyRun = .ok () (finalState buyRun) := eq_ok_of_succeeded (by decide +kernel)

theorem sellRun_eq : sellRun = .ok () (finalState sellRun) := eq_ok_of_succeeded (by decide +kernel)

theorem accepted_creation : Accepted zeroHash sampleParams default
    [⟨createPoolTx (sampleId 7), 0, sampleContext⟩] (finalState createPoolRun) :=
  .cons createPoolRun_eq (.nil _)

theorem accepted_trades : Accepted zeroHash sampleParams (finalState createPoolRun)
    [⟨buyTx, 0, sampleContext⟩, ⟨sellTx, 0, sampleContext⟩] (finalState sellRun) :=
  .cons buyRun_eq (.cons sellRun_eq (.nil _))

/-- Buying a token and selling it again leaves the reserve no smaller. -/
theorem buy_and_sell_gains_nothing : ∃ p q, (finalState createPoolRun).pool (sampleId 7) = some p ∧
      (finalState sellRun).pool (sampleId 7) = some q ∧
      q.realTokenReserves = p.realTokenReserves ∧
      p.realCpayReservesSompi ≤ q.realCpayReservesSompi := by
  have hp : ((finalState createPoolRun).pool (sampleId 7)).map (·.realTokenReserves) =
      some 1000000 := by decide +kernel
  have hq : ((finalState sellRun).pool (sampleId 7)).map (·.realTokenReserves) =
      some 1000000 := by decide +kernel
  obtain ⟨p, hp, hptoken⟩ := map_eq_some_iff.mp hp
  obtain ⟨q, hq, hqtoken⟩ := map_eq_some_iff.mp hq
  have hback : q.realTokenReserves = p.realTokenReserves := hqtoken.trans hptoken.symm
  have hvalid := accepted_creation.poolsValid (poolsValid_of_empty fun _ => rfl)
  obtain ⟨f, hflow⟩ := accepted_trades.exists_poolFlow hvalid hp
  exact ⟨p, q, hp, hq, hback,
    (no_round_trip_profit (fun _ => rfl) accepted_creation hflow hp hq).2 hback⟩

/-- The pool of the sample after its first buy. -/
theorem bought_pool_is_solvent :
    ∃ (o : PoolOrigin) (a : AtomicAssetState) (p : AtomicLiquidityPoolState),
      (finalState buyRun).assetOption (sampleId 7) = some a ∧ a.liquidity = some p ∧
        o.Solvent a p := by
  have hsome : ((finalState buyRun).pool (sampleId 7)).isSome = true := by decide +kernel
  obtain ⟨p, hp⟩ := isSome_iff_exists.mp hsome
  obtain ⟨a, ha, hpool⟩ := pool_eq_some.mp hp
  have hrun : Accepted zeroHash sampleParams default
      [⟨createPoolTx (sampleId 7), 0, sampleContext⟩, ⟨buyTx, 0, sampleContext⟩]
      (finalState buyRun) := .cons createPoolRun_eq (.cons buyRun_eq (.nil _))
  obtain ⟨o, -, -, -, -, -, hsolvent⟩ := pools_stay_solvent hrun rfl ha hpool
  exact ⟨o, a, p, ha, hpool, hsolvent⟩

end Samples

end Transition
end CryptixAtomic
