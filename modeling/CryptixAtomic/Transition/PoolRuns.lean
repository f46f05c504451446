import CryptixAtomic.Transition.Runs

/-!
# Pools along accepted transactions

A pool is created once and then moved by buys, sells and claims. Every move is checked
against the pool invariants, so these hold of every pool that a sequence of accepted
transactions leads to. Pool nonces count the moves, and a lock that has opened stays
open; while it is shut only buys are possible.
-/
namespace CryptixAtomic

open Foundation AtomicLiquidityPoolState Option

/-- One if an operation is a buy, sell or claim of the given asset. -/
def AtomicPayloadOp.poolMoves (op : AtomicPayloadOp) (assetId : Bytes32) : ℕ :=
  if op.poolSlot?.map (·.1) = some assetId then 1 else 0

def AtomicConsensusState.pool (s : AtomicConsensusState) (assetId : Bytes32) :
    Option AtomicLiquidityPoolState :=
  (s.assetOption assetId).bind (·.liquidity)

namespace Transition

/-- Assets have a pool exactly when they are of the liquidity class, and every pool
passes the checks that follow each operation. -/
structure PoolsValid (assets : Bytes32 → Option AtomicAssetState) : Prop where
  consistent : ∀ assetId a, assets assetId = some a → a.ClassConsistent
  invariants : ∀ assetId a p, assets assetId = some a → a.liquidity = some p →
    LiquidityInvariants a p

theorem poolsValid_of_empty {assets : Bytes32 → Option AtomicAssetState}
    (h : ∀ assetId, assets assetId = none) : PoolsValid assets := by
  constructor <;> simp [h]

section Moves

/-- What a move does to the funds of a pool. -/
inductive PoolMove.Trades (m : PoolMove) : AtomicPayloadOp → Prop
  | buy (op : BuyLiquidityExactInOp) {netIn tokenOut : ℕ}
      (trade : IsFundedBuy m.pool.funds m.pool.feeBps op.cpayInSompi op.minTokenOut netIn tokenOut
        m.funds)
      (supply : m.totalSupply = m.asset.totalSupply + tokenOut) :
      m.Trades (.buyLiquidityExactIn op)
  | sell (op : SellLiquidityExactInOp) {grossOut cpayOut : ℕ} (unlocked : m.pool.sellLocked = false)
      (trade : IsFundedSell m.pool.funds m.pool.feeBps op.tokenIn grossOut cpayOut m.funds)
      (supply : m.totalSupply + op.tokenIn = m.asset.totalSupply) :
      m.Trades (.sellLiquidityExactIn op)
  | claim (op : ClaimLiquidityFeesOp) {recipient : AtomicLiquidityFeeRecipientState}
      (unlocked : m.pool.sellLocked = false)
      (recipientAt : m.pool.feeRecipients[op.recipientIndex.toNat]? = some recipient)
      (unclaimed : op.claimAmountSompi ≤ recipient.unclaimedSompi)
      (total : op.claimAmountSompi ≤ m.pool.unclaimedFeeTotalSompi)
      (funds : m.funds = claimedFunds m.pool.funds op.recipientIndex.toNat recipient
        op.claimAmountSompi)
      (supply : m.totalSupply = m.asset.totalSupply) :
      m.Trades (.claimLiquidityFees op)

variable {blake2b : Blake2b} {v : LedgerView} {ptx : PopulatedTransaction} {ownerId : Bytes32}
  {ctx : AtomicCreationContext} {op : AtomicPayloadOp} {effect : OpEffect}
variable {assetId : Bytes32} {a : AtomicAssetState}

theorem OpSpec.pool_moved (spec : OpSpec blake2b v ptx ownerId ctx op effect)
    {poolNonce : ℕ} (hslot : op.poolSlot? = some (assetId, poolNonce)) :
    ∃ m : PoolMove, m.Valid v ptx assetId poolNonce ∧ m.Trades op ∧
      effect.asset = some (assetId, m.newAsset ptx.tx.id) := by
  cases spec with
  | buyLiquidityExactIn op m valid paid trade supplyFits supply =>
    cases hslot
    exact ⟨m, valid, .buy op trade supply, rfl⟩
  | sellLiquidityExactIn op m valid unlocked funded trade minOut minPayout payout paid supply =>
    cases hslot
    exact ⟨m, valid, .sell op unlocked trade supply, rfl⟩
  | claimLiquidityFees op m valid unlocked minPayout recipientAt unclaimed authorized payout paid total funds supply =>
    cases hslot
    exact ⟨m, valid, .claim op unlocked recipientAt unclaimed total funds supply, rfl⟩
  | _ => cases hslot

theorem OpSpec.pool_kept (spec : OpSpec blake2b v ptx ownerId ctx op effect)
    (ha : v.asset assetId = some a) (hclass : a.assetClass = .liquidity)
    (hslot : op.poolSlot?.map (·.1) ≠ some assetId) :
    effect.assetAfter v.asset assetId = some a := by
  rw [OpEffect.assetAfter_of_unwritten _ _, ha]
  rintro ⟨id, b⟩ hwrite rfl
  cases spec with
  | buyLiquidityExactIn | sellLiquidityExactIn | claimLiquidityFees =>
    cases hwrite
    exact hslot rfl
  | mint op asset known standard | burn op asset known standard =>
    cases hwrite
    cases some.inj (ha.symm.trans known)
    exact standard hclass
  | createAsset op fresh | createAssetUnminted op fresh | createAssetMinted op fresh =>
    cases hwrite
    cases ha.symm.trans fresh
  | createLiquidityAsset op c valid =>
    cases hwrite
    cases ha.symm.trans valid.fresh
  | selfTransfer | transfer => cases hwrite

theorem OpSpec.poolsValid (spec : OpSpec blake2b v ptx ownerId ctx op effect)
    (h : PoolsValid v.asset) : PoolsValid (effect.assetAfter v.asset) := by
  have hwrites : ∀ {assetId : Bytes32} {b : AtomicAssetState},
      AssetWrite v ptx ownerId effect.balances assetId b →
      b.ClassConsistent ∧ ∀ p, b.liquidity = some p → LiquidityInvariants b p := by
    intro assetId b hwrite
    have hplain : ∀ {a : AtomicAssetState} (totalSupply : ℕ), v.asset assetId = some a →
        a.assetClass ≠ .liquidity → ({ a with totalSupply } : AtomicAssetState).ClassConsistent ∧
          ∀ p, a.liquidity = some p → LiquidityInvariants { a with totalSupply } p := by
      intro a totalSupply known standard
      have hconsistent := h.consistent assetId a known
      refine ⟨hconsistent, fun p hp => absurd (hconsistent.mpr ?_) standard⟩
      rw [hp]
      rfl
    cases hwrite with
    | created fresh creator consistent invariants => exact ⟨consistent, invariants⟩
    | minted amount known standard | burned amount known standard => exact hplain _ known standard
    | moved m valid =>
      refine ⟨?_, fun p hp => ?_⟩
      · simp [AtomicAssetState.ClassConsistent, PoolMove.newAsset, valid.liquidity]
      · obtain rfl := some.inj hp
        exact valid.invariants
  constructor
  · intro assetId b hb
    rcases spec.asset_cases hb with hkeep | hwrite
    · exact h.consistent assetId b hkeep
    · exact (hwrites hwrite).1
  · intro assetId b p hb hp
    rcases spec.asset_cases hb with hkeep | hwrite
    · exact h.invariants assetId b p hkeep hp
    · exact (hwrites hwrite).2 p hp

/-- One operation as a pool sees it. -/
structure PoolStep (moves : ℕ) (p q : AtomicLiquidityPoolState) : Prop where
  nonce : q.poolNonce = p.poolNonce + moves
  staysUnlocked : p.unlocked = true → q.unlocked = true
  vault : p.unlocked = false → p.vaultValueSompi ≤ q.vaultValueSompi
  tokens : p.unlocked = false → q.realTokenReserves ≤ p.realTokenReserves

variable (m : PoolMove)

variable (txId : Bytes32)

@[simp] theorem PoolMove.realTokenReserves_newPool :
    (m.newPool txId).realTokenReserves = m.funds.realTokenReserves := by
  unfold newPool unlockAtTarget
  split_ifs <;> rfl

@[simp] theorem PoolMove.realCpayReservesSompi_newPool :
    (m.newPool txId).realCpayReservesSompi = m.funds.realCpayReservesSompi := by
  unfold newPool unlockAtTarget
  split_ifs <;> rfl

@[simp] theorem PoolMove.unclaimedFeeTotalSompi_newPool :
    (m.newPool txId).unclaimedFeeTotalSompi = m.funds.unclaimedFeeTotalSompi := by
  unfold newPool unlockAtTarget
  split_ifs <;> rfl

theorem PoolMove.unlocked_newPool (h : m.pool.unlocked = true) :
    (m.newPool txId).unlocked = true := by
  unfold newPool unlockAtTarget
  split_ifs
  · rfl
  · exact h

variable {p : AtomicLiquidityPoolState}

theorem sellLocked_of_invariants
    (h : LiquidityInvariants a p) (hshut : p.unlocked = false) : p.sellLocked = true := by
  have htarget : p.unlockTargetSompi ≠ 0 := by
    intro hzero
    rw [h.disabledLock hzero] at hshut
    cases hshut
  simp only [sellLocked, hshut, Bool.not_false, Bool.and_true, decide_eq_true_eq]
  omega

theorem PoolMove.Valid.step {m : PoolMove} {assetId : Bytes32} {poolNonce : ℕ}
    (valid : m.Valid v ptx assetId poolNonce) (trades : m.Trades op)
    (hinv : LiquidityInvariants m.asset m.pool) : PoolStep 1 m.pool (m.newPool ptx.tx.id) := by
  have hold := hinv.vaultValue
  have hnew := valid.invariants.vaultValue
  rw [m.realCpayReservesSompi_newPool, m.unclaimedFeeTotalSompi_newPool] at hnew
  have hmoved : m.pool.unlocked = false → m.pool.vaultValueSompi ≤ (m.newPool ptx.tx.id).vaultValueSompi ∧
      (m.newPool ptx.tx.id).realTokenReserves ≤ m.pool.realTokenReserves := by
    intro hshut
    have hlocked := sellLocked_of_invariants hinv hshut
    cases trades with
    | buy op trade =>
      -- the vault holds the reserve and the fees, and a buy adds to both
      have hreal : m.funds.realCpayReservesSompi = m.pool.realCpayReservesSompi + _ := trade.real
      have hfees : m.funds.unclaimedFeeTotalSompi = m.pool.unclaimedFeeTotalSompi + _ :=
        (applyFeeToPool_spec trade.fees).1
      have htokens : m.funds.realTokenReserves + _ = m.pool.realTokenReserves := trade.trade.real
      refine ⟨by omega, ?_⟩
      rw [m.realTokenReserves_newPool]
      omega
    | sell op unlocked | claim op unlocked =>
      rw [unlocked] at hlocked
      cases hlocked
  exact
    { nonce := rfl
      staysUnlocked := m.unlocked_newPool _
      vault := fun hshut => (hmoved hshut).1
      tokens := fun hshut => (hmoved hshut).2 }

theorem OpSpec.pool_step (spec : OpSpec blake2b v ptx ownerId ctx op effect)
    (hvalid : PoolsValid v.asset) (ha : v.asset assetId = some a) (hp : a.liquidity = some p) :
    ∃ b q, effect.assetAfter v.asset assetId = some b ∧ b.liquidity = some q ∧
      PoolStep (op.poolMoves assetId) p q := by
  by_cases hslot : op.poolSlot?.map (·.1) = some assetId
  · obtain ⟨⟨id, poolNonce⟩, hfound, rfl⟩ := map_eq_some_iff.mp hslot
    obtain ⟨m, valid, trades, hasset⟩ := spec.pool_moved hfound
    obtain rfl := some.inj (valid.known.symm.trans ha)
    obtain rfl := some.inj (valid.pool.symm.trans hp)
    have hmoves : op.poolMoves id = 1 := if_pos hslot
    rw [hmoves]
    refine ⟨m.newAsset ptx.tx.id, m.newPool ptx.tx.id, ?_, rfl,
      valid.step trades (hvalid.invariants _ _ _ ha hp)⟩
    simp [OpEffect.assetAfter, hasset]
  · have hclass : a.assetClass = .liquidity := (hvalid.consistent _ _ ha).mpr (by simp [hp])
    have hmoves : op.poolMoves assetId = 0 := if_neg hslot
    rw [hmoves]
    exact ⟨a, p, spec.pool_kept ha hclass hslot, hp, ⟨rfl, id, fun _ => le_rfl, fun _ => le_rfl⟩⟩

end Moves

section Runs

variable (blake2b : Blake2b) (params : AtomicParams)

/-- The number of buys, sells and claims of an asset among some transactions. -/
def movesOf (assetId : Bytes32) (xs : List TxContext) : ℕ :=
  (xs.map fun x => ((authorizedPayload blake2b params x).map
    fun p => p.1.op.poolMoves assetId).getD 0).sum

variable {blake2b params}
variable {s t : AtomicConsensusState} {x : TxContext} {assetId : Bytes32}
  {p : AtomicLiquidityPoolState}

theorem Accepts.poolsValid (h : Accepts blake2b params s x t) (hvalid : PoolsValid s.assetOption) :
    PoolsValid t.assetOption := by
  cases h.reads with
  | plain payload collected noVaultOutput nonces assets => rwa [assets]
  | token payload collected admitted spec nonces assets =>
    rw [assets]
    exact spec.poolsValid hvalid

theorem Accepted.poolsValid {xs : List TxContext}
    (h : Accepted blake2b params s xs t) (hvalid : PoolsValid s.assetOption) :
    PoolsValid t.assetOption :=
  h.induct (P := fun s => PoolsValid s.assetOption) (fun _ _ _ step => step.poolsValid) hvalid

theorem pool_eq_some {s : AtomicConsensusState} :
    s.pool assetId = some p ↔ ∃ a, s.assetOption assetId = some a ∧ a.liquidity = some p := by
  simp [AtomicConsensusState.pool, bind_eq_some_iff]

theorem Accepts.pool_step (h : Accepts blake2b params s x t) (hvalid : PoolsValid s.assetOption)
    (hp : s.pool assetId = some p) :
    ∃ q, t.pool assetId = some q ∧ PoolStep (movesOf blake2b params assetId [x]) p q := by
  cases h.reads with
  | plain payload collected noVaultOutput nonces assets =>
    have hmoves : movesOf blake2b params assetId [x] = 0 := by
      simp [movesOf, authorizedPayload_of_plain payload]
    rw [hmoves]
    refine ⟨p, ?_, ⟨rfl, id, fun _ => le_rfl, fun _ => le_rfl⟩⟩
    rwa [AtomicConsensusState.pool, assets]
  | @token spent parsed a effect payload collected admitted spec nonces assets =>
    have hmoves : movesOf blake2b params assetId [x] = parsed.op.poolMoves assetId := by
      simp [movesOf, authorizedPayload_of_token payload admitted.owner]
    rw [hmoves]
    obtain ⟨asset, hasset, hpool⟩ := pool_eq_some.mp hp
    obtain ⟨b, q, hb, hq, hstep⟩ := spec.pool_step hvalid hasset hpool
    refine ⟨q, pool_eq_some.mpr ⟨b, ?_, hq⟩, hstep⟩
    rw [assets]
    exact hb

/-- Along a run pool nonces count the moves, open locks stay open, and a pool that is
still locked has only gained sompi and only lost tokens. -/
theorem Accepted.pool_run {xs : List TxContext}
    (h : Accepted blake2b params s xs t) (hvalid : PoolsValid s.assetOption)
    (hp : s.pool assetId = some p) :
    ∃ q, t.pool assetId = some q ∧ q.poolNonce = p.poolNonce + movesOf blake2b params assetId xs ∧
      (p.unlocked = true → q.unlocked = true) ∧
      (q.unlocked = false → p.vaultValueSompi ≤ q.vaultValueSompi ∧
        q.realTokenReserves ≤ p.realTokenReserves) := by
  induction h generalizing p with
  | nil => exact ⟨p, hp, rfl, id, fun _ => ⟨le_rfl, le_rfl⟩⟩
  | @cons s m t x xs step rest ih =>
    obtain ⟨r, hr, hstep⟩ := step.pool_step hvalid hp
    obtain ⟨q, hq, hnonce, hopen, hlocked⟩ := ih (step.poolsValid hvalid) hr
    refine ⟨q, hq, ?_, fun hu => hopen (hstep.staysUnlocked hu), fun hshut => ?_⟩
    · have hsplit : movesOf blake2b params assetId (x :: xs) =
          movesOf blake2b params assetId [x] + movesOf blake2b params assetId xs := by
        simp [movesOf]
      have hfirst := hstep.nonce
      omega
    · -- a lock that is shut at the end was shut all along
      have hmid : r.unlocked = false := by
        by_contra hne
        rw [hopen (by simpa using hne)] at hshut
        cases hshut
      have hstart : p.unlocked = false := by
        by_contra hne
        rw [hstep.staysUnlocked (by simpa using hne)] at hmid
        cases hmid
      obtain ⟨hvault, htokens⟩ := hlocked hshut
      exact ⟨(hstep.vault hstart).trans hvault, htokens.trans (hstep.tokens hstart)⟩

theorem Accepts.poolNonce_eq (h : Accepts blake2b params s x t) {parsed : ParsedAtomicPayload}
    {poolNonce : ℕ} (hpayload : payloadOf params x.ptx x.povDaaScore = .ok (some parsed))
    (hslot : parsed.op.poolSlot? = some (assetId, poolNonce)) :
    ∃ p, s.pool assetId = some p ∧ p.poolNonce = poolNonce := by
  cases h.reads with
  | plain payload => cases hpayload.symm.trans payload
  | token payload collected admitted spec =>
    cases hpayload.symm.trans payload
    obtain ⟨m, valid, -, -⟩ := spec.pool_moved hslot
    exact ⟨m.pool, pool_eq_some.mpr ⟨m.asset, valid.known, valid.pool⟩, valid.nonce⟩

/-- Replay protection and lock discipline along the accepted transactions `xs`, which lead
to `s`, and whatever is accepted after them. -/
theorem replay_protection_and_lock_discipline {s₀ s : AtomicConsensusState}
    {xs : List TxContext} (hnonces : ∀ key, s₀.nonceOption key = none)
    (hpools : PoolsValid s₀.assetOption) (h : Accepted blake2b params s₀ xs s) :
    (∀ key, noncesOf blake2b params key xs =
        List.range' 1 (noncesOf blake2b params key xs).length) ∧
      (xs.filterMap (usedNonce blake2b params)).Nodup ∧
      (∀ x parsed assetId poolNonce p, payloadOf params x.ptx x.povDaaScore = .ok (some parsed) →
        parsed.op.poolSlot? = some (assetId, poolNonce) → s.pool assetId = some p →
        poolNonce < p.poolNonce → ∀ t, ¬Accepts blake2b params s x t) ∧
      (∀ x t, Accepts blake2b params s x t → ∀ assetId p, s.pool assetId = some p →
        ∃ q, t.pool assetId = some q ∧ PoolStep (movesOf blake2b params assetId [x]) p q) ∧
      ∀ ys t, Accepted blake2b params s ys t → ∀ assetId p, s.pool assetId = some p →
        ∃ q, t.pool assetId = some q ∧
          q.poolNonce = p.poolNonce + movesOf blake2b params assetId ys ∧
          (p.unlocked = true → q.unlocked = true) ∧
          (q.unlocked = false → p.vaultValueSompi ≤ q.vaultValueSompi ∧
            q.realTokenReserves ≤ p.realTokenReserves) := by
  have hvalid := h.poolsValid hpools
  refine ⟨fun key => ?_, h.nodup_usedNonce, ?_, ?_, ?_⟩
  · have hstart : s₀.nextNonce key = 1 := by simp [AtomicConsensusState.nextNonce, hnonces]
    have hall := (h.nonces key).1
    rwa [hstart] at hall
  · intro x parsed assetId poolNonce p hpayload hslot hp hold t haccepts
    obtain ⟨q, hq, hnonce⟩ := haccepts.poolNonce_eq hpayload hslot
    obtain rfl := some.inj (hp.symm.trans hq)
    omega
  · intro x t haccepts assetId p hp
    exact haccepts.pool_step hvalid hp
  · intro ys t hrun assetId p hp
    exact hrun.pool_run hvalid hp

open AtomicConsensusState in
/-- The empty state and the creation of a pool meet the conditions. -/
theorem createPoolTx_replay_protected : ∃ s, Accepted zeroHash sampleParams default
        [⟨createPoolTx (sampleId 7), 0, sampleContext⟩] s ∧
      ∀ ys t, Accepted zeroHash sampleParams s ys t → ∀ p, s.pool (sampleId 7) = some p →
        ∃ q, t.pool (sampleId 7) = some q ∧
          q.poolNonce = p.poolNonce + movesOf zeroHash sampleParams (sampleId 7) ys := by
  have hsucceeded : succeeded createPoolRun = true := by decide +kernel
  have hrun : createPoolRun = .ok () (finalState createPoolRun) := eq_ok_of_succeeded hsucceeded
  have haccepted : Accepted zeroHash sampleParams default
      [⟨createPoolTx (sampleId 7), 0, sampleContext⟩] (finalState createPoolRun) :=
    .cons hrun (.nil _)
  refine ⟨_, haccepted, fun ys t hys p hp => ?_⟩
  have hall := replay_protection_and_lock_discipline (fun _ => rfl)
    (poolsValid_of_empty fun _ => rfl) haccepted
  obtain ⟨q, hq, hnonce, -⟩ := hall.2.2.2.2 ys t hys (sampleId 7) p hp
  exact ⟨q, hq, hnonce⟩

end Runs

end Transition
end CryptixAtomic
