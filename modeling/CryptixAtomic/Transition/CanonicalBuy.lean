import CryptixAtomic.Liquidity.CanonicalInput
import CryptixAtomic.Transition.Solvency

/-!
# Buys in reachable pools

The canonical input is exact only where a token costs at least one sompi, which holds of
every pool that a creation leads to.
-/
namespace CryptixAtomic

open Foundation AtomicLiquidityPoolState AtomicConsensusState ConsensusMath Option

namespace Transition

variable {o : PoolOrigin} {a : AtomicAssetState} {p : AtomicLiquidityPoolState} {t : ℕ}

/-- The virtual sompi reserve of a pool never falls below its start, which is far above the
number of tokens. -/
theorem PoolOrigin.Reaches.purchasable (valid : o.Valid) (h : o.Reaches a p) (hpos : 0 < t)
    (hlt : t < p.realTokenReserves) :
    Purchasable p.realTokenReserves p.virtualCpayReservesSompi p.virtualTokenReserves t
      p.feeBps := by
  have hx := h.virtualCpay_le valid
  have hgap := (h.solvent valid).tokenGap
  have hsupply := h.invariants.supply
  have hmax := h.supply
  have htoken := initialVirtualTokenReservesForCurve_bounds valid.virtualToken
  have hcpay := initialVirtualCpayReservesSompiForCurve_bounds valid.virtualCpay
  have hrate := h.rate ▸ valid.rate
  simp only [maxLiquiditySupplyRaw, individualMinVirtualCpayReservesSompi, maxLiquidityFeeBps]
    at htoken hcpay hrate
  constructor <;> first | omega | (simp only [feeBpsDenominator]; omega)

variable {blake2b : Blake2b} {params : AtomicParams} {s s' : AtomicConsensusState}
  {x : TxContext} {assetId : Bytes32}

theorem Accepts.bought (h : Accepts blake2b params s x s') {op : BuyLiquidityExactInOp}
    (hop : (authorizedPayload blake2b params x).map (·.1.op) = some (.buyLiquidityExactIn op))
    (hp : s.pool op.assetId = some p) {q : AtomicLiquidityPoolState}
    (hq : s'.pool op.assetId = some q) :
    ∃ netIn tokenOut, IsFundedBuy p.funds p.feeBps op.cpayInSompi op.minTokenOut netIn tokenOut
      q.funds := by
  cases h.reads with
  | plain payload => simp [authorizedPayload_of_plain payload] at hop
  | @token spent parsed adm effect payload collected admitted spec nonces assets =>
    rw [authorizedPayload_of_token payload admitted.owner] at hop
    have hbuy : parsed.op = .buyLiquidityExactIn op := some.inj hop
    rw [hbuy] at spec
    obtain ⟨m, valid, trades, hasset⟩ := spec.pool_moved rfl
    obtain ⟨a, ha, hpool⟩ := pool_eq_some.mp hp
    obtain ⟨b, hb, hpool'⟩ := pool_eq_some.mp hq
    obtain rfl := some.inj (valid.known.symm.trans ha)
    obtain rfl := some.inj (valid.pool.symm.trans hpool)
    have hnew : m.newAsset x.ptx.tx.id = b := by
      simpa [assets, OpEffect.assetAfter, hasset] using hb
    obtain rfl := hnew
    obtain rfl := some.inj hpool'
    rw [m.funds_newPool]
    cases trades with
    | buy op trade => exact ⟨_, _, trade⟩

/-- Of every pool that accepted transactions lead to, and for every number `t` of tokens
that leaves one behind and that some 64-bit input can buy: the canonical input is the least
one that buys `t` tokens, it buys exactly `t`, and no accepted buy of `t` tokens pays
another. -/
theorem canonical_buy_input {s₀ : AtomicConsensusState} {xs : List TxContext}
    (h : Accepted blake2b params s₀ xs s) (hfresh : s₀.assetOption assetId = none)
    (hp : s.pool assetId = some p) (hpos : 1 ≤ t) (hlt : t ≤ p.realTokenReserves - 1)
    (hcost : ∃ gross, BuysAtLeast p.realTokenReserves p.virtualCpayReservesSompi
      p.virtualTokenReserves p.feeBps t gross) :
    ∃ gross, minGrossInputForTokenOut p.realTokenReserves p.virtualCpayReservesSompi
        p.virtualTokenReserves t p.feeBps = .ok gross ∧
      IsLeast {g | BuysAtLeast p.realTokenReserves p.virtualCpayReservesSompi
        p.virtualTokenReserves p.feeBps t g} gross ∧
      (∃ fee q, calculateTradeFee errors gross p.feeBps = .ok fee ∧
        cpmmBuy p.realTokenReserves p.virtualCpayReservesSompi p.virtualTokenReserves
          (gross - fee) = .ok q ∧ q.tokenOut = t) ∧
      ∀ x s' op q, Accepts blake2b params s x s' →
        (authorizedPayload blake2b params x).map (·.1.op) = some (.buyLiquidityExactIn op) →
        op.assetId = assetId → s'.pool assetId = some q →
        q.realTokenReserves + t = p.realTokenReserves → op.cpayInSompi = gross := by
  obtain ⟨a, ha, hpool⟩ := pool_eq_some.mp hp
  obtain ⟨o, _, _, _, _, hvalid, hreaches⟩ := h.exists_origin hfresh ha hpool
  obtain ⟨gross, hbuys⟩ := hcost
  have hpurchasable := hreaches.purchasable hvalid hpos (by omega)
  obtain ⟨fee, out, hmin, hexact⟩ := hpurchasable.bought errors cpmmBuy_eq_ok hbuys
  refine ⟨_, hmin, hpurchasable.isLeast_grossFor hbuys, ⟨fee, out, hexact⟩, ?_⟩
  rintro x s' op q hstep hop rfl hq hout
  obtain ⟨netIn, tokenOut, hfunded⟩ := hstep.bought hop hp hq
  have hreal : q.realTokenReserves + tokenOut = p.realTokenReserves := hfunded.trade.real
  obtain rfl : tokenOut = t := by omega
  exact Except.ok.inj (hfunded.canonical.symm.trans hmin)

/-- Of every pool that accepted transactions lead to, with two tokens or more and with a
64-bit input that buys all but one of them: the amount that `maxBuyInSompi` returns is
accepted by the curve and buys exactly all but one, and no input buys more. -/
theorem max_buy_leaves_one_token {s₀ : AtomicConsensusState} {xs : List TxContext}
    (h : Accepted blake2b params s₀ xs s) (hfresh : s₀.assetOption assetId = none)
    (hp : s.pool assetId = some p) (htwo : 2 ≤ p.realTokenReserves)
    (hcost : ∃ gross, BuysAtLeast p.realTokenReserves p.virtualCpayReservesSompi
      p.virtualTokenReserves p.feeBps (p.realTokenReserves - 1) gross) :
    (∃ gross fee q, IndexMath.maxBuyInSompi p.realTokenReserves p.virtualCpayReservesSompi
        p.virtualTokenReserves p.feeBps = .ok gross ∧
      calculateTradeFee IndexMath.errors gross p.feeBps = .ok fee ∧
      IndexMath.cpmmBuy p.realTokenReserves p.virtualCpayReservesSompi p.virtualTokenReserves
        (gross - fee) = .ok q ∧ q.tokenOut = p.realTokenReserves - 1) ∧
      ∀ netIn q, IndexMath.cpmmBuy p.realTokenReserves p.virtualCpayReservesSompi
        p.virtualTokenReserves netIn = .ok q → q.tokenOut ≤ p.realTokenReserves - 1 := by
  obtain ⟨a, ha, hpool⟩ := pool_eq_some.mp hp
  obtain ⟨o, _, _, _, _, hvalid, hreaches⟩ := h.exists_origin hfresh ha hpool
  obtain ⟨gross, hbuys⟩ := hcost
  have hall := hreaches.purchasable hvalid (t := p.realTokenReserves - 1) (by omega) (by omega)
  obtain ⟨fee, q, hmin, hexact⟩ := hall.bought IndexMath.errors IndexMath.cpmmBuy_eq_ok hbuys
  constructor
  · exact ⟨_, fee, q, (if_neg hall.tokenPos.ne').trans hmin, hexact⟩
  · intro netIn q hq
    obtain ⟨-, -, -, -, -, -, -, -, hreal, hfloor⟩ := IndexMath.cpmmBuy_eq_ok.mp hq
    simp only [minRealTokenReserve] at hfloor
    omega

theorem createPoolRun_buys : ∃ p, (finalState createPoolRun).pool (sampleId 7) = some p ∧
    2 ≤ p.realTokenReserves ∧ ∀ t gross, (t, gross) = (1, 208333507) ∨
      (t, gross) = (p.realTokenReserves - 1, 1249992500037500) →
    BuysAtLeast p.realTokenReserves p.virtualCpayReservesSompi p.virtualTokenReserves p.feeBps t
      gross := by
  have hfields : ((finalState createPoolRun).pool (sampleId 7)).map (fun p =>
      (p.realTokenReserves, p.virtualCpayReservesSompi, p.virtualTokenReserves, p.feeBps)) =
      some (1000000, 250000000000000, 1200000, 0) := by decide +kernel
  obtain ⟨p, hp, hfields⟩ := map_eq_some_iff.mp hfields
  simp only [Prod.mk.injEq] at hfields
  obtain ⟨hreal, hx, hy, hrate⟩ := hfields
  refine ⟨p, hp, by omega, ?_⟩
  rw [hreal, hx, hy, hrate]
  rintro t gross (h | h) <;> cases h
  · exact ⟨by decide, 0, ⟨1, 999999, 250000208333507, 1199999⟩, rfl, rfl, le_rfl⟩
  · exact ⟨by decide, 0, ⟨999999, 1, 1499992500037500, 200001⟩, rfl, rfl, le_rfl⟩

/-- The first token of the sample pool, and every buy of one token. -/
theorem first_token_has_canonical_input :
    ∃ p gross, (finalState createPoolRun).pool (sampleId 7) = some p ∧
      minGrossInputForTokenOut p.realTokenReserves p.virtualCpayReservesSompi
        p.virtualTokenReserves 1 p.feeBps = .ok gross ∧
      IsLeast {g | BuysAtLeast p.realTokenReserves p.virtualCpayReservesSompi
        p.virtualTokenReserves p.feeBps 1 g} gross ∧
      ∀ x s' op q, Accepts zeroHash sampleParams (finalState createPoolRun) x s' →
        (authorizedPayload zeroHash sampleParams x).map (·.1.op) =
          some (.buyLiquidityExactIn op) →
        op.assetId = sampleId 7 → s'.pool (sampleId 7) = some q →
        q.realTokenReserves + 1 = p.realTokenReserves → op.cpayInSompi = gross := by
  obtain ⟨p, hp, htwo, hbuys⟩ := createPoolRun_buys
  obtain ⟨gross, hmin, hleast, -, hpaid⟩ := canonical_buy_input accepted_creation rfl hp le_rfl
    (by omega) ⟨_, hbuys 1 _ (.inl rfl)⟩
  exact ⟨p, gross, hp, hmin, hleast, hpaid⟩

theorem sample_pool_sells_all_but_one :
    ∃ p gross fee q, (finalState createPoolRun).pool (sampleId 7) = some p ∧
      IndexMath.maxBuyInSompi p.realTokenReserves p.virtualCpayReservesSompi
        p.virtualTokenReserves p.feeBps = .ok gross ∧
      calculateTradeFee IndexMath.errors gross p.feeBps = .ok fee ∧
      IndexMath.cpmmBuy p.realTokenReserves p.virtualCpayReservesSompi p.virtualTokenReserves
        (gross - fee) = .ok q ∧ q.tokenOut = p.realTokenReserves - 1 := by
  obtain ⟨p, hp, htwo, hbuys⟩ := createPoolRun_buys
  obtain ⟨⟨gross, fee, q, hmax⟩, -⟩ := max_buy_leaves_one_token accepted_creation rfl hp htwo
    ⟨_, hbuys _ _ (.inr rfl)⟩
  exact ⟨p, gross, fee, q, hp, hmax⟩

end Transition
end CryptixAtomic
