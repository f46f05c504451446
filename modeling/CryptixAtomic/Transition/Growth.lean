import CryptixAtomic.Transition.PoolRuns

/-!
# Growth of the state

Before a transaction is applied its growth is estimated: how many keys of each kind it
will add. The estimate is a second implementation of the operations, reduced to their
keys. Here it is shown to be exact for every accepted transaction, so that the counters of
a block bound the keys that the block adds.
-/
namespace CryptixAtomic

open Foundation AtomicConsensusState OpEffect AtomicBlockStateGrowth List Option

namespace Transition

/-- The keys of each kind that `t` has and `s` has not. -/
structure AddedKeys (s t : AtomicConsensusState) (growth : AtomicStateGrowth) : Prop where
  assets : (newKeys s.assetOption t.assetOption).encard = growth.newAssets
  balances : (newKeys s.balanceOption t.balanceOption).encard = growth.newBalanceKeys
  nonces : (newKeys s.nonceOption t.nonceOption).encard = growth.newNonceKeys
  pools : (newKeys s.pool t.pool).encard = growth.newPools
  anchors : (newKeys s.anchorCountOption t.anchorCountOption).encard = growth.newAnchorOwnerKeys

theorem countIf_congr {c d : Prop} [Decidable c] [Decidable d] (h : c ↔ d) :
    countIf c = countIf d := by
  unfold countIf
  exact if_congr h rfl rfl

theorem countIf_of_not {c : Prop} [Decidable c] (h : ¬c) : countIf c = 0 := if_neg h

theorem encard_newKeys_update {K V : Type} [DecidableEq K] (f : K → Option V) (k : K)
    (v : Option V) [Decidable (f k = none ∧ v.isSome = true)] :
    (newKeys f (Function.update f k v)).encard = (countIf (f k = none ∧ v.isSome = true) : ℕ) := by
  rw [newKeys_update, countIf]
  split_ifs <;> simp

section Anchors

variable (blake2b : Blake2b) (ptx : PopulatedTransaction)

theorem newKeys_anchorAfter (f : Bytes32 → Option ℕ) : newKeys f (anchorAfter blake2b ptx f) =
      ((createdOwners blake2b ptx).filter fun ownerId => !(f ownerId).isSome).toFinset := by
  ext ownerId
  simp only [newKeys, anchorAfter, Set.mem_ofPred_eq, coe_toFinset, mem_filter,
    Bool.not_eq_true', isSome_eq_false_iff, isNone_iff_eq_none]
  constructor
  · rintro ⟨hnone, hsome⟩
    refine ⟨?_, hnone⟩
    by_contra hmem
    have hcount : (createdOwners blake2b ptx).count ownerId = 0 := count_eq_zero.mpr hmem
    split_ifs at hsome with howner
    · simp [newAnchorCount, hnone, hcount, saturatingAdd, nonZero] at hsome
    · rw [hnone] at hsome
      cases hsome
  · rintro ⟨hmem, hnone⟩
    have howner : ownerId ∈ anchorOwners blake2b ptx := by
      simp [anchorOwners, hmem]
    have hpos : 0 < (createdOwners blake2b ptx).count ownerId := count_pos_iff.mpr hmem
    have hcount : newAnchorCount blake2b ptx ownerId 0 ≠ 0 := by
      simp only [newAnchorCount, saturatingAdd, maxWord]
      omega
    refine ⟨hnone, ?_⟩
    rw [if_pos howner, hnone]
    simpa [nonZero] using hcount

end Anchors

section Operations

variable {blake2b : Blake2b} {s : AtomicConsensusState} {ptx : PopulatedTransaction}
  {ownerId : Bytes32} {ctx : AtomicCreationContext} {op : AtomicPayloadOp} {effect : OpEffect}

theorem OpSpec.assets_added (spec : OpSpec blake2b s.view ptx ownerId ctx op effect)
    (growth : AtomicStateGrowth) (hstart : growth.newAssets = 0) :
    (newKeys s.assetOption (effect.assetAfter s.assetOption)).encard =
      (opGrowth ptx s ownerId growth op).newAssets := by
  have hwrite : ∀ (assetId : Bytes32) (b : AtomicAssetState)
      (balances : List (AtomicBalanceKey × ℕ)),
      (newKeys s.assetOption ((⟨some (assetId, b), balances⟩ : OpEffect).assetAfter
        s.assetOption)).encard = (countIf (s.hasAsset assetId = false) : ℕ) := by
    intro assetId b balances
    rw [assetAfter, encard_newKeys_update]
    congr 1
    apply countIf_congr
    simp [hasAsset]
  have hknown : ∀ {assetId : Bytes32} {a : AtomicAssetState}, s.view.asset assetId = some a →
      countIf (s.hasAsset assetId = false) = growth.newAssets := by
    intro assetId a ha
    rw [hstart]
    apply countIf_of_not
    have hread : s.assetOption assetId = some a := ha
    simp [hasAsset, hread]
  cases spec with
  | createAsset | createAssetUnminted | createAssetMinted | createLiquidityAsset => exact hwrite ..
  | selfTransfer | transfer => simp [assetAfter, opGrowth, hstart]
  | mint op asset known | burn op asset known =>
    rw [hwrite, hknown known]
    rfl
  | buyLiquidityExactIn op m valid | sellLiquidityExactIn op m valid
  | claimLiquidityFees op m valid =>
    rw [hwrite, hknown valid.known]
    rfl

variable (f : Bytes32 → Option AtomicAssetState)

/-- The pools an asset map shows. -/
def poolsOf (assetId : Bytes32) :
    Option AtomicLiquidityPoolState := (f assetId).bind (·.liquidity)

theorem poolsOf_update (assetId : Bytes32) (b : AtomicAssetState) :
    poolsOf (Function.update f assetId (some b)) =
      Function.update (poolsOf f) assetId b.liquidity := by
  funext id
  by_cases hid : id = assetId <;> simp [poolsOf, hid]

theorem OpSpec.pools_added (spec : OpSpec blake2b s.view ptx ownerId ctx op effect)
    (growth : AtomicStateGrowth) (hstart : growth.newPools = 0) :
    (newKeys (poolsOf s.assetOption) (poolsOf (effect.assetAfter s.assetOption))).encard =
      (opGrowth ptx s ownerId growth op).newPools := by
  have hwrite : ∀ (assetId : Bytes32) (b : AtomicAssetState)
      (balances : List (AtomicBalanceKey × ℕ)),
      (newKeys (poolsOf s.assetOption) (poolsOf ((⟨some (assetId, b), balances⟩ :
        OpEffect).assetAfter s.assetOption))).encard =
      (countIf (poolsOf s.assetOption assetId = none ∧ b.liquidity.isSome = true) : ℕ) := by
    intro assetId b balances
    rw [assetAfter, poolsOf_update, encard_newKeys_update]
  -- an operation on an existing asset does not give it a pool
  have hknown : ∀ {assetId : Bytes32} {a b : AtomicAssetState}, s.view.asset assetId = some a →
      (b.liquidity.isSome = true → a.liquidity.isSome = true) →
      countIf (poolsOf s.assetOption assetId = none ∧ b.liquidity.isSome = true) =
        growth.newPools := by
    intro assetId a b ha hpool
    rw [hstart]
    apply countIf_of_not
    have hread : s.assetOption assetId = some a := ha
    rintro ⟨hnone, hsome⟩
    simp only [poolsOf, hread, bind_some] at hnone
    have hsome' := hpool hsome
    rw [hnone] at hsome'
    cases hsome'
  cases spec with
  | createAsset | createAssetUnminted | createAssetMinted =>
    rw [hwrite, countIf_of_not (by simp [standardAsset])]
    simp [opGrowth, hstart]
  | createLiquidityAsset op c valid =>
    have hread : s.assetOption ptx.tx.id = none := valid.fresh
    rw [hwrite, opGrowth]
    congr 1
    apply countIf_congr
    simp [poolsOf, hread, PoolCreation.newAsset, liquidityAsset, hasAsset]
  | selfTransfer | transfer => simp [assetAfter, opGrowth, hstart]
  | mint op asset known | burn op asset known =>
    rw [hwrite, hknown known id]
    rfl
  | buyLiquidityExactIn op m valid | sellLiquidityExactIn op m valid
  | claimLiquidityFees op m valid =>
    rw [hwrite, hknown valid.known fun _ => by simp [valid.pool]]
    rfl

variable (f : AtomicBalanceKey → Option ℕ)

theorem credit_added (key : AtomicBalanceKey) (amount : ℕ) :
    (newKeys f (Function.update f key (nonZero ((f key).getD 0 + amount)))).encard =
      (countIf (0 < amount ∧ (f key).isSome = false) : ℕ) := by
  rw [encard_newKeys_update]
  congr 1
  apply countIf_congr
  cases hkey : f key with
  | some => simp
  | none => simp [nonZero, Nat.pos_iff_ne_zero]

theorem newKeys_debit (key : AtomicBalanceKey) (amount : ℕ) :
    newKeys f (Function.update f key (nonZero ((f key).getD 0 - amount))) = ∅ := by
  rw [newKeys_update, if_neg]
  rintro ⟨hnone, hsome⟩
  simp [hnone, nonZero] at hsome

theorem newKeys_debit_credit {fromKey toKey : AtomicBalanceKey} (hne : fromKey ≠ toKey) (amount : ℕ)
    (credit : Option ℕ) :
    newKeys f (Function.update (Function.update f fromKey
      (nonZero ((f fromKey).getD 0 - amount))) toKey credit) =
      newKeys f (Function.update f toKey credit) := by
  ext key
  by_cases hto : key = toKey
  · simp [newKeys, hto]
  · by_cases hfrom : key = fromKey
    · subst hfrom
      cases hkey : f key <;> simp [newKeys, hne, hkey, nonZero]
    · simp [newKeys, hto, hfrom]

theorem OpSpec.balances_added (spec : OpSpec blake2b s.view ptx ownerId ctx op effect)
    (growth : AtomicStateGrowth) (hstart : growth.newBalanceKeys = 0) :
    (newKeys s.balanceOption (effect.balanceAfter s.balanceOption)).encard =
      (opGrowth ptx s ownerId growth op).newBalanceKeys := by
  have hcredit : ∀ (key : AtomicBalanceKey) (amount : ℕ),
      (newKeys s.balanceOption (Function.update s.balanceOption key
        (nonZero (s.view.balance key + amount)))).encard =
        (countIf (0 < amount ∧ s.hasBalance key = false) : ℕ) :=
    fun key amount => credit_added s.balanceOption key amount
  have hnone : (newKeys s.balanceOption s.balanceOption).encard =
      (growth.newBalanceKeys : ℕ∞) := by simp [hstart]
  have hskip : ∀ (c : Prop) [Decidable c], ¬c →
      (newKeys s.balanceOption s.balanceOption).encard = (countIf c : ℕ) := by
    intro c _ hc
    rw [countIf_of_not hc]
    simp
  have hdebit : ∀ (key : AtomicBalanceKey) (amount : ℕ),
      (newKeys s.balanceOption (Function.update s.balanceOption key
        (nonZero (s.view.balance key - amount)))).encard =
        (growth.newBalanceKeys : ℕ∞) := by
    intro key amount
    rw [show s.view.balance key = (s.balanceOption key).getD 0 from rfl, newKeys_debit]
    simp [hstart]
  cases spec with
  | createAsset | claimLiquidityFees => exact hnone
  | createAssetUnminted op fresh none => exact hskip _ (by simp [none])
  | createAssetMinted | mint => exact hcredit ..
  | createLiquidityAsset op c valid =>
    have hlaunch := valid.launch
    rw [opGrowth, balanceAfter]
    generalize c.launched = launched at hlaunch
    cases hlaunch with
    | skipped none => exact hskip _ (by simp [none])
    | bought some trade =>
      refine (hcredit ..).trans ?_
      congr 1
      apply countIf_congr
      have hout := trade.trade.outPos
      exact and_congr_left fun _ => ⟨fun _ => some, fun _ => hout⟩
  | selfTransfer op known self => exact hskip _ (by simp [self])
  | transfer op known other =>
    have hkeys : (⟨op.assetId, ownerId⟩ : AtomicBalanceKey) ≠ ⟨op.assetId, op.toOwnerId⟩ := by
      simpa using other
    rw [balanceAfter, foldl_cons, foldl_cons, foldl_nil,
      show s.view.balance ⟨op.assetId, ownerId⟩ =
        (s.balanceOption ⟨op.assetId, ownerId⟩).getD 0 from rfl,
      newKeys_debit_credit _ hkeys, hcredit, opGrowth]
    congr 1
    apply countIf_congr
    simp [other]
  | burn | sellLiquidityExactIn => exact hdebit ..
  | buyLiquidityExactIn op m valid paid trade =>
    refine (hcredit ..).trans ?_
    rw [opGrowth]
    congr 1
    apply countIf_congr
    have hout := trade.trade.outPos
    exact and_iff_right hout

end Operations

section Estimate

variable {blake2b : Blake2b} {params : AtomicParams}

theorem pool_eq_poolsOf (s : AtomicConsensusState) : s.pool = poolsOf s.assetOption := rfl

theorem opGrowth_newNonceKeys (ptx : PopulatedTransaction) (s : AtomicConsensusState)
    (ownerId : Bytes32) (growth : AtomicStateGrowth) (op : AtomicPayloadOp) :
    (opGrowth ptx s ownerId growth op).newNonceKeys = growth.newNonceKeys := by
  cases op <;> rfl

theorem opGrowth_newAnchorOwnerKeys (ptx : PopulatedTransaction) (s : AtomicConsensusState)
    (ownerId : Bytes32) (growth : AtomicStateGrowth) (op : AtomicPayloadOp) :
    (opGrowth ptx s ownerId growth op).newAnchorOwnerKeys = growth.newAnchorOwnerKeys := by
  cases op <;> rfl

def newAnchorOwners (blake2b : Blake2b) (ptx : PopulatedTransaction)
    (s : AtomicConsensusState) : Finset Bytes32 :=
  ((createdOwners blake2b ptx).filter fun ownerId => !s.hasAnchorCount ownerId).toFinset

variable {ptx : PopulatedTransaction}

theorem estimate_of_plain {povDaaScore : ℕ}
    (hpayload : payloadOf params ptx povDaaScore = .ok none) (s : AtomicConsensusState) :
    estimateAtomicStateGrowthForTx blake2b params ptx povDaaScore s =
      .ok ⟨0, 0, 0, 0, (newAnchorOwners blake2b ptx s).card⟩ := by
  rw [estimateAtomicStateGrowthForTx, hpayload]
  rfl

theorem estimate_of_token {povDaaScore : ℕ} {parsed : ParsedAtomicPayload} {ownerId : Bytes32}
    (hpayload : payloadOf params ptx povDaaScore = .ok (some parsed))
    (howner : resolveAtomicOwnerFromPopulatedTx blake2b ptx parsed.authInputIndex = .ok ownerId)
    (s : AtomicConsensusState) :
    estimateAtomicStateGrowthForTx blake2b params ptx povDaaScore s = .ok (opGrowth ptx s ownerId
        ⟨0, 0, countIf (s.hasNonce (parsed.op.nonceKey ownerId) = false), 0,
          (newAnchorOwners blake2b ptx s).card⟩ parsed.op) := by
  simp only [estimateAtomicStateGrowthForTx, hpayload]
  change (resolveAtomicOwnerFromPopulatedTx blake2b ptx parsed.authInputIndex >>= _) = _
  rw [howner]
  rfl

/-- The estimate counts exactly the keys that an accepted transaction adds. -/
theorem estimate_exact {s t : AtomicConsensusState} {x : TxContext}
    (h : Accepts blake2b params s x t) :
    ∃ growth, estimateAtomicStateGrowthForTx blake2b params x.ptx x.povDaaScore s = .ok growth ∧
      AddedKeys s t growth := by
  cases h.reads with
  | plain payload collected noVaultOutput nonces assets balances anchors =>
    refine ⟨_, estimate_of_plain payload s, ?_⟩
    constructor
    · simp [assets]
    · simp [balances]
    · simp [nonces]
    · simp [pool_eq_poolsOf, assets]
    · rw [anchors, newKeys_anchorAfter, Set.encard_coe_eq_coe_finsetCard]
      rfl
  | @token spent parsed a effect payload collected admitted spec nonces assets balances anchors =>
    refine ⟨_, estimate_of_token payload admitted.owner s, ?_⟩
    constructor
    · rw [assets]
      exact spec.assets_added _ rfl
    · rw [balances]
      exact spec.balances_added _ rfl
    · rw [nonces, encard_newKeys_update, opGrowth_newNonceKeys, admitted.key]
      congr 1
      apply countIf_congr
      simp [hasNonce]
    · rw [pool_eq_poolsOf, pool_eq_poolsOf, assets]
      exact spec.pools_added _ rfl
    · rw [anchors, newKeys_anchorAfter, Set.encard_coe_eq_coe_finsetCard,
        opGrowth_newAnchorOwnerKeys]
      rfl

end Estimate

section Rejected

variable (blake2b : Blake2b)

/-- The same reads of everything but the vault index. -/
structure SameEntries (s t : AtomicConsensusState) : Prop where
  nonces : t.nonceOption = s.nonceOption
  assets : t.assetOption = s.assetOption
  balances : t.balanceOption = s.balanceOption
  anchors : t.anchorCountOption = s.anchorCountOption

theorem SameEntries.refl (s : AtomicConsensusState) : SameEntries s s := ⟨rfl, rfl, rfl, rfl⟩

/-- The maps that reads consult, and the store below them. -/
def entries (s : AtomicConsensusState) :=
  (s.nextNonces, s.assets, s.balances, s.anchorCounts, s.currentStore)

variable {s t : AtomicConsensusState} {e : String}

theorem SameEntries.of_entries (h : entries t = entries s) : SameEntries s t := by
  simp only [entries, Prod.mk.injEq] at h
  obtain ⟨hnonces, hassets, hbalances, hanchors, hstore⟩ := h
  constructor <;> funext key
  · simp only [nonceOption, hnonces, hstore]
  · simp only [assetOption, hassets, hstore]
  · simp only [balanceOption, hbalances, hstore]
  · simp only [anchorCountOption, hanchors, hstore]

theorem keeps_setVaultIndex (assetId : Bytes32) (oldValue newValue : Option AtomicAssetState) :
    Keeps entries (setVaultIndexForAssetChange assetId oldValue newValue) := by
  unfold setVaultIndexForAssetChange
  refine Keeps.bind (keeps_modify ?_) fun _ => ?_
  · exact fun _ => rfl
  split
  · exact keeps_pure _
  · split_ifs
    · split
      · exact keeps_throw _
      · refine keeps_get.bind fun s => Keeps.bind (keeps_modify ?_) fun _ => ?_
        · exact fun _ => rfl
        split_ifs
        · exact keeps_throw _
        · exact keeps_pure _
    · exact keeps_pure _

/-- A refused asset is not written: the vault index is checked before the asset map is
touched. -/
theorem sameEntries_of_setAsset_error {assetId : Bytes32} {asset : AtomicAssetState}
    (h : (setAsset blake2b assetId asset).run s = .error e t) :
    SameEntries s t := by
  simp only [setAsset, setAssetValueWithoutDelta,
    run_bind_eq_error, run_modify, run_get, reduceCtorEq, false_or, EStateM.Result.ok.injEq,
    and_false, exists_false, or_false] at h
  obtain ⟨_, m, ⟨-, hm⟩, _, _, ⟨rfl, rfl⟩, _, n, ⟨-, hn⟩, hvault⟩ := h
  have hkept := keeps_setVaultIndex assetId (m.assetOption assetId) (some asset) n
  rw [hvault] at hkept
  have hstart : entries m = entries s := by
    rw [← hm]
    split_ifs <;> rfl
  apply SameEntries.of_entries
  calc entries t = entries n := hkept
    _ = entries m := by rw [← hn]; rfl
    _ = entries s := hstart

theorem sameEntries_of_effect_error {effect : OpEffect}
    (h : (StateCall.runAll blake2b effect.calls).run s = .error e t) : SameEntries s t := by
  have hbalances : ∀ (s : AtomicConsensusState), ∃ m, (StateCall.runAll blake2b
      (effect.balances.map fun write => .setBalance write.1 write.2)).run s = .ok () m :=
    fun s => run_balances blake2b s effect.balances
  cases hasset : effect.asset with
  | none =>
    obtain ⟨m, hm⟩ := hbalances s
    simp only [calls, hasset, toList_none, map_nil, nil_append, hm] at h
    cases h
  | some =>
    simp only [calls, hasset, toList_some, map_cons, map_nil,
      singleton_append, StateCall.runAll, run_bind_eq_error] at h
    rcases h with h | ⟨_, m, -, hrest⟩
    · exact sameEntries_of_setAsset_error blake2b h
    · obtain ⟨n, hn⟩ := hbalances m
      rw [hn] at hrest
      cases hrest

/-- A rejected transaction changes no entry, not even if it fails half-way. -/
theorem sameEntries_of_rejected {params : AtomicParams} {x : TxContext}
    (h : (validateAndApplyAtomicStateTransition blake2b params x.ptx x.povDaaScore x.ctx).run s =
      .error e t) : SameEntries s t := by
  rcases rejected_cases blake2b params x.ptx x.povDaaScore x.ctx h with
    rfl | ⟨_, _, effect, -, hrun⟩
  · exact .refl _
  · exact sameEntries_of_effect_error blake2b hrun

end Rejected

section Blocks

variable (blake2b : Blake2b) (params : AtomicParams)

/-- Transactions processed with one growth counter; rejected ones are skipped. -/
def processAll (xs : List TxContext) (st : AtomicConsensusState × AtomicBlockStateGrowth) :
    AtomicConsensusState × AtomicBlockStateGrowth :=
  xs.foldl (fun st x => finalState ((validateAndApplyAtomicStateTransitionWithGrowth blake2b params
    x.ptx x.povDaaScore x.ctx).run st)) st

/-- A counter has counted the new keys of its kind or is exhausted, and it has not passed
its limit. -/
def Covers {K V : Type} (f g : K → Option V) (used limit : ℕ) : Prop :=
  ((newKeys f g).encard ≤ used ∨ maxWord 64 ≤ used) ∧ used ≤ limit

theorem Covers.refl {K V : Type} (f : K → Option V) (limit : ℕ) : Covers f f 0 limit :=
  ⟨Or.inl (by simp), Nat.zero_le _⟩

theorem Covers.add {K V : Type} {f g h : K → Option V} {used limit delta : ℕ}
    (hcovers : Covers f g used limit) (hdelta : (newKeys g h).encard = delta)
    (hlimit : saturatingAdd 64 used delta ≤ limit) :
    Covers f h (saturatingAdd 64 used delta) limit := by
  refine ⟨?_, hlimit⟩
  rcases hcovers.1 with hcount | hfull
  · by_cases hroom : used + delta ≤ maxWord 64
    · left
      rw [saturatingAdd, min_eq_left hroom]
      calc (newKeys f h).encard
          ≤ (newKeys f g ∪ newKeys g h).encard := Set.encard_le_encard (newKeys_subset f g h)
        _ ≤ (newKeys f g).encard + (newKeys g h).encard := Set.encard_union_le _ _
        _ ≤ used + delta := by
          rw [hdelta]
          gcongr
        _ = ((used + delta : ℕ) : ℕ∞) := by push_cast; rfl
    · right
      simp only [saturatingAdd]
      omega
  · right
    simp only [saturatingAdd]
    omega

theorem Covers.le_limit {K V : Type} {f g : K → Option V} {used limit : ℕ}
    (h : Covers f g used limit) (hlimit : limit < maxWord 64) : (newKeys f g).encard ≤ limit := by
  have hused : (newKeys f g).encard ≤ used := by
    rcases h.1 with hcount | hfull
    · exact hcount
    · exact absurd h.2 (by omega)
  exact hused.trans (by exact_mod_cast h.2)

/-- All counters of a block cover what was added since `s₀`. -/
structure BlockCovers (limits : AtomicStateGrowthLimits) (s₀ s : AtomicConsensusState)
    (growth : AtomicBlockStateGrowth) : Prop where
  assets : Covers s₀.assetOption s.assetOption growth.used.newAssets limits.maxNewAssets
  balances : Covers s₀.balanceOption s.balanceOption growth.used.newBalanceKeys
    limits.maxNewBalanceKeys
  nonces : Covers s₀.nonceOption s.nonceOption growth.used.newNonceKeys limits.maxNewNonceKeys
  pools : Covers s₀.pool s.pool growth.used.newPools limits.maxNewPools
  anchors : Covers s₀.anchorCountOption s.anchorCountOption growth.used.newAnchorOwnerKeys
    limits.maxNewAnchorOwnerKeys

theorem BlockCovers.refl (limits : AtomicStateGrowthLimits) (s : AtomicConsensusState) :
    BlockCovers limits s s .default :=
  ⟨.refl _ _, .refl _ _, .refl _ _, .refl _ _, .refl _ _⟩

variable {limits : AtomicStateGrowthLimits} {growth : AtomicBlockStateGrowth}

theorem BlockCovers.of_sameEntries {s₀ s t : AtomicConsensusState}
    (h : BlockCovers limits s₀ s growth) (hsame : SameEntries s t) :
    BlockCovers limits s₀ t growth := by
  constructor
  · rw [hsame.assets]
    exact h.assets
  · rw [hsame.balances]
    exact h.balances
  · rw [hsame.nonces]
    exact h.nonces
  · rw [pool_eq_poolsOf t, hsame.assets]
    exact h.pools
  · rw [hsame.anchors]
    exact h.anchors

@[simp] theorem ensureLimit_eq_ok {current delta limit : ℕ} {label : String} {u : Unit} :
    ensureLimit current delta limit label = .ok u ↔ saturatingAdd 64 current delta ≤ limit := by
  simp [ensureLimit]

theorem BlockCovers.commit {s₀ s t : AtomicConsensusState} {delta : AtomicStateGrowth}
    (h : BlockCovers limits s₀ s growth) (hadded : AddedKeys s t delta)
    (hroom : growth.ensureCanAdd delta limits = .ok ()) :
    BlockCovers limits s₀ t (growth.commit delta) := by
  simp only [ensureCanAdd, except_bind_eq_ok, ensureLimit_eq_ok, exists_const] at hroom
  obtain ⟨hassets, hbalances, hnonces, hpools, hanchors⟩ := hroom
  exact
    { assets := h.assets.add hadded.assets hassets
      balances := h.balances.add hadded.balances hbalances
      nonces := h.nonces.add hadded.nonces hnonces
      pools := h.pools.add hadded.pools hpools
      anchors := h.anchors.add hadded.anchors hanchors }

variable {blake2b params}

theorem withGrowth_eq_ok {s t : AtomicConsensusState} {growth growth' : AtomicBlockStateGrowth}
    {x : TxContext} {u : Unit} :
    (validateAndApplyAtomicStateTransitionWithGrowth blake2b params x.ptx x.povDaaScore x.ctx).run
        (s, growth) = .ok u (t, growth') ↔
      ∃ delta, estimateAtomicStateGrowthForTx blake2b params x.ptx x.povDaaScore s = .ok delta ∧
        growth.ensureCanAdd delta params.atomicStateGrowthLimits = .ok () ∧
        Accepts blake2b params s x t ∧ growth' = growth.commit delta := by
  simp only [validateAndApplyAtomicStateTransitionWithGrowth, run_bind_eq_ok, run_get,
    EStateM.Result.ok.injEq, run_pureCheck_eq_ok, run_onFirst_eq_ok, run_modify]
  constructor
  · rintro ⟨_, _, ⟨rfl, rfl⟩, delta, _, ⟨hdelta, rfl⟩, _, _, ⟨hroom, rfl⟩, _, ⟨m, growth''⟩,
      ⟨haccepts, hkeep⟩, -, hout⟩
    obtain ⟨rfl, rfl⟩ := Prod.mk.inj hout
    obtain rfl := hkeep
    exact ⟨delta, hdelta, hroom, haccepts, rfl⟩
  · rintro ⟨delta, hdelta, hroom, haccepts, rfl⟩
    exact ⟨_, _, ⟨rfl, rfl⟩, delta, _, ⟨hdelta, rfl⟩, _, _, ⟨hroom, rfl⟩, _, (t, growth),
      ⟨haccepts, rfl⟩, trivial, rfl⟩

theorem BlockCovers.step {s₀ : AtomicConsensusState}
    {st : AtomicConsensusState × AtomicBlockStateGrowth} (x : TxContext)
    (h : BlockCovers params.atomicStateGrowthLimits s₀ st.1 st.2) :
    BlockCovers params.atomicStateGrowthLimits s₀
      (finalState ((validateAndApplyAtomicStateTransitionWithGrowth blake2b params x.ptx
        x.povDaaScore x.ctx).run st)).1
      (finalState ((validateAndApplyAtomicStateTransitionWithGrowth blake2b params x.ptx
        x.povDaaScore x.ctx).run st)).2 := by
  obtain ⟨s, growth⟩ := st
  cases hrun : (validateAndApplyAtomicStateTransitionWithGrowth blake2b params x.ptx
      x.povDaaScore x.ctx).run (s, growth) with
  | ok u out =>
    obtain ⟨t, growth'⟩ := out
    obtain ⟨delta, hdelta, hroom, haccepts, rfl⟩ := withGrowth_eq_ok.mp hrun
    obtain ⟨delta', hdelta', hadded⟩ := estimate_exact haccepts
    obtain rfl := Except.ok.inj (hdelta.symm.trans hdelta')
    exact h.commit hadded hroom
  | error e out =>
    obtain ⟨t, growth'⟩ := out
    simp only [validateAndApplyAtomicStateTransitionWithGrowth, run_bind_eq_error, run_get,
      EStateM.Result.ok.injEq, run_pureCheck_eq_error, run_pureCheck_eq_ok, run_onFirst_eq_error,
      run_modify, reduceCtorEq, false_or, and_false, exists_false, or_false] at hrun
    obtain ⟨_, _, ⟨rfl, rfl⟩, ⟨-, hsame⟩ | ⟨delta, _, ⟨-, rfl⟩, ⟨-, hsame⟩ |
      ⟨_, _, ⟨-, rfl⟩, hrejected, hkeep⟩⟩⟩ := hrun
    · obtain ⟨rfl, rfl⟩ := Prod.mk.inj hsame
      exact h
    · obtain ⟨rfl, rfl⟩ := Prod.mk.inj hsame
      exact h
    · obtain rfl := hkeep
      exact h.of_sameEntries (sameEntries_of_rejected blake2b hrejected)

theorem blockCovers_processAll (xs : List TxContext) {s₀ : AtomicConsensusState}
    {st : AtomicConsensusState × AtomicBlockStateGrowth}
    (h : BlockCovers params.atomicStateGrowthLimits s₀ st.1 st.2) :
    BlockCovers params.atomicStateGrowthLimits s₀ (processAll blake2b params xs st).1
      (processAll blake2b params xs st).2 := by
  induction xs generalizing st with
  | nil => exact h
  | cons x xs ih => exact ih (h.step x)

/-- The keys that `t` has and `s` has not, against the limits of a block. A limit of
`usize::MAX` is none: no number of keys exceeds it. -/
structure WithinLimits (limits : AtomicStateGrowthLimits) (s t : AtomicConsensusState) : Prop where
  assets : limits.maxNewAssets < maxWord 64 →
    (newKeys s.assetOption t.assetOption).encard ≤ limits.maxNewAssets
  balances : limits.maxNewBalanceKeys < maxWord 64 →
    (newKeys s.balanceOption t.balanceOption).encard ≤ limits.maxNewBalanceKeys
  nonces : limits.maxNewNonceKeys < maxWord 64 →
    (newKeys s.nonceOption t.nonceOption).encard ≤ limits.maxNewNonceKeys
  pools : limits.maxNewPools < maxWord 64 → (newKeys s.pool t.pool).encard ≤ limits.maxNewPools
  anchors : limits.maxNewAnchorOwnerKeys < maxWord 64 →
    (newKeys s.anchorCountOption t.anchorCountOption).encard ≤ limits.maxNewAnchorOwnerKeys

/-- The estimate is exact for accepted transactions, and transactions processed with one
counter, rejected ones included, add at most as many keys of each kind as the block may. -/
theorem growth_estimate_exact_and_limits_sound (s : AtomicConsensusState) :
    (∀ x t, Accepts blake2b params s x t →
      ∃ growth, estimateAtomicStateGrowthForTx blake2b params x.ptx x.povDaaScore s = .ok growth ∧
        AddedKeys s t growth) ∧
      ∀ xs, WithinLimits params.atomicStateGrowthLimits s
        (processAll blake2b params xs (s, .default)).1 := by
  refine ⟨fun x t haccepts => estimate_exact haccepts, fun xs => ?_⟩
  have hcovers : BlockCovers params.atomicStateGrowthLimits s
      (processAll blake2b params xs (s, .default)).1
      (processAll blake2b params xs (s, .default)).2 :=
    blockCovers_processAll xs (.refl _ s)
  exact
    { assets := hcovers.assets.le_limit
      balances := hcovers.balances.le_limit
      nonces := hcovers.nonces.le_limit
      pools := hcovers.pools.le_limit
      anchors := hcovers.anchors.le_limit }

end Blocks

end Transition
end CryptixAtomic
