import CryptixAtomic.Transition.Failure
import CryptixAtomic.Transition.Reads

/-!
# Who may change what

An accepted operation acts for the owner of its authorization input. It can take tokens
from that owner only, it writes only the asset it names, and it uses up one nonce of
that owner. The facts are read off the writes that `OpSpec` lists, once for each
operation.
-/
namespace CryptixAtomic

open Foundation OpEffect List Option

/-- The asset an operation is about. Creations are about the asset that gets the id of
the transaction. -/
def AtomicPayloadOp.namedAsset (op : AtomicPayloadOp) (txId : Bytes32) : Bytes32 :=
  op.assetId?.getD txId

variable {assetId : Bytes32}

namespace OpEffect

variable {e : OpEffect}

theorem amountAfter_cases (f : AtomicBalanceKey → ℕ) (key : AtomicBalanceKey) :
    e.amountAfter f key = f key ∨ ∃ write ∈ e.balances, write.1 = key ∧
      e.amountAfter f key = write.2 := by
  unfold amountAfter
  induction e.balances generalizing f with
  | nil => exact .inl rfl
  | cons write rest ih =>
    rw [foldl_cons]
    rcases ih (Function.update f write.1 write.2) with hkeep | ⟨w, hw, hkey, hval⟩
    · rw [hkeep]
      by_cases hk : key = write.1
      · exact .inr ⟨write, mem_cons_self, hk.symm, by simp [hk]⟩
      · exact .inl (by simp [hk])
    · exact .inr ⟨w, mem_cons_of_mem _ hw, hkey, hval⟩

theorem balanceAfter_of_unwritten {key : AtomicBalanceKey}
    (h : ∀ write ∈ e.balances, write.1 ≠ key) (f : AtomicBalanceKey → Option ℕ) :
    e.balanceAfter f key = f key := by
  have hlist : ∀ (ws : List (AtomicBalanceKey × ℕ)) (f : AtomicBalanceKey → Option ℕ),
      (∀ write ∈ ws, write.1 ≠ key) → ws.foldl (fun f write =>
        Function.update f write.1 (AtomicConsensusState.nonZero write.2)) f key = f key := by
    intro ws
    induction ws with
    | nil =>
      intro f _
      rfl
    | cons write rest ih =>
      intro f hall
      have hne : key ≠ write.1 := (hall write mem_cons_self).symm
      rw [foldl_cons, ih _ fun w hw => hall w (mem_cons_of_mem _ hw)]
      simp [hne]
  exact hlist _ f h

theorem assetAfter_of_unwritten (h : ∀ write ∈ e.asset, write.1 ≠ assetId)
    (f : Bytes32 → Option AtomicAssetState) : e.assetAfter f assetId = f assetId := by
  cases hasset : e.asset with
  | none => simp [assetAfter, hasset]
  | some write =>
    have hne : assetId ≠ write.1 := (h write (by simp [hasset])).symm
    simp [assetAfter, hasset, hne]

end OpEffect

namespace Transition

variable {b : AtomicAssetState}

section Writes

variable {blake2b : Blake2b} {v : LedgerView} {ptx : PopulatedTransaction} {ownerId : Bytes32}
  {ctx : AtomicCreationContext} {op : AtomicPayloadOp} {effect : OpEffect}

theorem OpSpec.asset_named (spec : OpSpec blake2b v ptx ownerId ctx op effect) :
    ∀ write ∈ effect.asset, write.1 = op.namedAsset ptx.tx.id := by
  intro write hwrite
  cases spec <;> first | (obtain rfl := some.inj hwrite; rfl) | cases hwrite

/-- Balances are written in the asset the operation names, and only the acting owner
can lose. -/
theorem OpSpec.balance_write (spec : OpSpec blake2b v ptx ownerId ctx op effect) :
    ∀ write ∈ effect.balances, write.1.assetId = op.namedAsset ptx.tx.id ∧
      (write.1.ownerId ≠ ownerId → v.balance write.1 ≤ write.2) := by
  intro write hwrite
  cases spec with
  | createAsset | createAssetUnminted | selfTransfer | claimLiquidityFees => cases hwrite
  | createAssetMinted | mint | buyLiquidityExactIn =>
    obtain rfl := mem_singleton.mp hwrite
    exact ⟨rfl, fun _ => Nat.le_add_right _ _⟩
  | createLiquidityAsset op c valid =>
    have hlaunch := valid.launch
    cases hl : c.launched with
    | mk =>
      rw [hl] at hlaunch hwrite
      cases hlaunch with
      | skipped => cases hwrite
      | bought =>
        obtain rfl := mem_singleton.mp hwrite
        exact ⟨rfl, fun _ => Nat.le_add_right _ _⟩
  | transfer =>
    rcases mem_cons.mp hwrite with rfl | hwrite
    · exact ⟨rfl, fun hne => absurd rfl hne⟩
    · obtain rfl := mem_singleton.mp hwrite
      exact ⟨rfl, fun _ => Nat.le_add_right _ _⟩
  | burn | sellLiquidityExactIn =>
    obtain rfl := mem_singleton.mp hwrite
    exact ⟨rfl, fun hne => absurd rfl hne⟩

/-- The ways an asset is written: created under the transaction's id, minted by its
authority, burned by a holder, or moved to a new vault. -/
inductive AssetWrite (v : LedgerView) (ptx : PopulatedTransaction) (ownerId : Bytes32)
    (balances : List (AtomicBalanceKey × ℕ)) : Bytes32 → AtomicAssetState → Prop
  | created {b : AtomicAssetState} (fresh : v.asset ptx.tx.id = none)
      (creator : b.creatorOwnerId = ownerId) (consistent : b.ClassConsistent)
      (invariants : ∀ pool, b.liquidity = some pool → LiquidityInvariants b pool) :
      AssetWrite v ptx ownerId balances ptx.tx.id b
  | minted {assetId : Bytes32} {a : AtomicAssetState} (amount : ℕ)
      (known : v.asset assetId = some a) (standard : a.assetClass ≠ .liquidity)
      (authority : a.mintAuthorityOwnerId = ownerId) :
      AssetWrite v ptx ownerId balances assetId { a with totalSupply := a.totalSupply + amount }
  | burned {assetId : Bytes32} {a : AtomicAssetState} (amount : ℕ)
      (known : v.asset assetId = some a) (standard : a.assetClass ≠ .liquidity)
      (funded : amount ≤ v.balance ⟨assetId, ownerId⟩) (supply : amount ≤ a.totalSupply)
      (paid : balances = [(⟨assetId, ownerId⟩, v.balance ⟨assetId, ownerId⟩ - amount)]) :
      AssetWrite v ptx ownerId balances assetId { a with totalSupply := a.totalSupply - amount }
  | moved {assetId : Bytes32} {poolNonce : ℕ} (m : PoolMove)
      (valid : m.Valid v ptx assetId poolNonce) :
      AssetWrite v ptx ownerId balances assetId (m.newAsset ptx.tx.id)

theorem standardAsset_created {fields : CreateAssetFields} {platformTag : List UInt8}
    {totalSupply : ℕ} {balances : List (AtomicBalanceKey × ℕ)} (fresh : v.asset ptx.tx.id = none) :
    AssetWrite v ptx ownerId balances ptx.tx.id
      (standardAsset fields platformTag ownerId totalSupply ctx) :=
  .created fresh rfl (by simp [AtomicAssetState.ClassConsistent, standardAsset])
    (by simp [standardAsset])

theorem OpSpec.asset_write (spec : OpSpec blake2b v ptx ownerId ctx op effect)
    (hwrite : effect.asset = some (assetId, b)) :
    AssetWrite v ptx ownerId effect.balances assetId b := by
  cases spec with
  | createAsset op fresh | createAssetUnminted op fresh | createAssetMinted op fresh =>
    cases hwrite
    exact standardAsset_created fresh
  | createLiquidityAsset op c valid =>
    cases hwrite
    refine .created valid.fresh rfl ?_ ?_
    · simp [AtomicAssetState.ClassConsistent, PoolCreation.newAsset, liquidityAsset]
    · intro pool hpool
      obtain rfl := some.inj hpool
      exact valid.invariants
  | selfTransfer | transfer => cases hwrite
  | mint op asset known standard authority =>
    cases hwrite
    exact .minted op.amount known standard authority
  | burn op asset known standard funded supply =>
    cases hwrite
    exact .burned op.amount known standard funded supply rfl
  | buyLiquidityExactIn op m valid | sellLiquidityExactIn op m valid
  | claimLiquidityFees op m valid =>
    cases hwrite
    exact .moved m valid

theorem OpSpec.asset_cases (spec : OpSpec blake2b v ptx ownerId ctx op effect)
    (hb : effect.assetAfter v.asset assetId = some b) :
    v.asset assetId = some b ∨ AssetWrite v ptx ownerId effect.balances assetId b := by
  cases hasset : effect.asset with
  | none => exact .inl (by simpa [assetAfter, hasset] using hb)
  | some write =>
    by_cases hid : assetId = write.1
    · subst hid
      have hval : write.2 = b := by simpa [assetAfter, hasset] using hb
      exact .inr (hval ▸ spec.asset_write hasset)
    · exact .inl (by simpa [assetAfter, hasset, hid] using hb)

end Writes

section Frame

/-- The changes an operation of `ownerId` may make from `s` to `t`. -/
structure OwnerFrame (txId ownerId : Bytes32) (op : AtomicPayloadOp)
    (s t : AtomicConsensusState) : Prop where
  otherOwners : ∀ key, key.ownerId ≠ ownerId → s.balance key ≤ t.balance key
  otherBalances : ∀ key, key.assetId ≠ op.namedAsset txId →
    t.balanceOption key = s.balanceOption key
  otherAssets : ∀ assetId, assetId ≠ op.namedAsset txId →
    t.assetOption assetId = s.assetOption assetId
  minted : ∀ assetId a b, s.assetOption assetId = some a → a.assetClass = .standard →
    t.assetOption assetId = some b → a.totalSupply < b.totalSupply →
    a.mintAuthorityOwnerId = ownerId
  burned : ∀ assetId a b, s.assetOption assetId = some a → a.assetClass = .standard →
    t.assetOption assetId = some b → b.totalSupply < a.totalSupply →
    a.totalSupply - b.totalSupply = s.balance ⟨assetId, ownerId⟩ - t.balance ⟨assetId, ownerId⟩
  created : ∀ assetId b, s.assetOption assetId = none → t.assetOption assetId = some b →
    assetId = txId ∧ b.creatorOwnerId = ownerId
  kept : ∀ assetId, (s.assetOption assetId).isSome → (t.assetOption assetId).isSome
  transferred : ∀ transferOp, op = .transfer transferOp → t.assetOption = s.assetOption
  nonces : ∀ key, key ≠ op.nonceKey ownerId → t.nonceOption key = s.nonceOption key

/-- Nothing but anchor counts differs between `s` and `t`. -/
structure AnchorsOnly (s t : AtomicConsensusState) : Prop where
  nonces : t.nonceOption = s.nonceOption
  assets : t.assetOption = s.assetOption
  balances : t.balanceOption = s.balanceOption
  vaults : t.vaultOption = s.vaultOption

variable {blake2b : Blake2b} {params : AtomicParams} {ptx : PopulatedTransaction}
  {povDaaScore : ℕ} {ctx : AtomicCreationContext}

variable {effect : OpEffect}

/-- A standard asset after an operation: untouched, minted by its authority, or burned
by the acting owner. -/
theorem OpSpec.standard_cases {v : LedgerView} {ownerId : Bytes32} {op : AtomicPayloadOp}
    (spec : OpSpec blake2b v ptx ownerId ctx op effect) {a : AtomicAssetState}
    (ha : v.asset assetId = some a)
    (hstandard : a.assetClass = .standard) (hb : effect.assetAfter v.asset assetId = some b) :
    b = a ∨ a.mintAuthorityOwnerId = ownerId ∧ a.totalSupply ≤ b.totalSupply ∨
      b.totalSupply ≤ a.totalSupply ∧ a.totalSupply - b.totalSupply = v.balance ⟨assetId, ownerId⟩ -
          effect.amountAfter v.balance ⟨assetId, ownerId⟩ := by
  rcases spec.asset_cases hb with hkeep | hwrite
  · rw [ha] at hkeep
    exact .inl (some.inj hkeep).symm
  · cases hwrite with
    | created fresh =>
      rw [ha] at fresh
      cases fresh
    | minted amount known standard authority =>
      obtain rfl := some.inj (ha.symm.trans known)
      exact .inr (.inl ⟨authority, Nat.le_add_right _ _⟩)
    | burned amount known standard funded supply paid =>
      obtain rfl := some.inj (ha.symm.trans known)
      have hafter : effect.amountAfter v.balance ⟨assetId, ownerId⟩ =
          v.balance ⟨assetId, ownerId⟩ - amount := by
        simp [amountAfter, paid]
      refine .inr (.inr ⟨Nat.sub_le _ _, ?_⟩)
      rw [hafter]
      dsimp only
      omega
    | moved m valid =>
      obtain rfl := some.inj (ha.symm.trans valid.known)
      rw [valid.liquidity] at hstandard
      cases hstandard

theorem balance_eq_amountAfter {s t : AtomicConsensusState}
    (h : t.balanceOption = effect.balanceAfter s.balanceOption) :
    t.balance = effect.amountAfter s.balance := by
  funext key
  rw [AtomicConsensusState.balance, h, balanceAfter_getD]
  rfl

theorem ownerFrame_of_spec {s t : AtomicConsensusState} {ownerId : Bytes32} {op : AtomicPayloadOp}
    (spec : OpSpec blake2b s.view ptx ownerId ctx op effect)
    (hassets : t.assetOption = effect.assetAfter s.assetOption)
    (hbalances : t.balanceOption = effect.balanceAfter s.balanceOption)
    (hnonces : ∀ key, key ≠ op.nonceKey ownerId → t.nonceOption key = s.nonceOption key) :
    OwnerFrame ptx.tx.id ownerId op s t := by
  have hamounts := balance_eq_amountAfter hbalances
  constructor
  case otherOwners =>
    intro key hne
    rw [hamounts]
    rcases effect.amountAfter_cases s.balance key with hkeep | ⟨write, hmem, rfl, hval⟩
    · exact hkeep.ge
    · rw [hval]
      exact (spec.balance_write write hmem).2 hne
  case otherBalances =>
    intro key hne
    rw [hbalances]
    apply balanceAfter_of_unwritten
    rintro write hmem rfl
    exact hne (spec.balance_write write hmem).1
  case otherAssets =>
    intro assetId hne
    rw [hassets]
    apply assetAfter_of_unwritten
    rintro write hmem rfl
    exact hne (spec.asset_named write hmem)
  case minted =>
    intro assetId a b ha hstandard hb hlt
    rw [hassets] at hb
    rcases spec.standard_cases ha hstandard hb with rfl | ⟨hauthority, -⟩ | ⟨hle, -⟩
    · exact absurd hlt (lt_irrefl _)
    · exact hauthority
    · exact absurd hlt (not_lt.mpr hle)
  case burned =>
    intro assetId a b ha hstandard hb hlt
    rw [hassets] at hb
    rw [hamounts]
    rcases spec.standard_cases ha hstandard hb with rfl | ⟨-, hle⟩ | ⟨-, hpaid⟩
    · exact absurd hlt (lt_irrefl _)
    · exact absurd hlt (not_lt.mpr hle)
    · exact hpaid
  case created =>
    intro assetId b hnone hb
    rw [hassets] at hb
    rcases spec.asset_cases hb with hkeep | hwrite
    · rw [show s.view.asset assetId = none from hnone] at hkeep
      cases hkeep
    · cases hwrite with
      | created fresh creator => exact ⟨rfl, creator⟩
      | minted amount known | burned amount known => cases hnone.symm.trans known
      | moved m valid => cases hnone.symm.trans valid.known
  case kept =>
    intro assetId hsome
    rw [hassets]
    cases hasset : effect.asset with
    | none => simpa [assetAfter, hasset] using hsome
    | some write =>
      by_cases hid : assetId = write.1
      · simp [assetAfter, hasset, hid]
      · simpa [assetAfter, hasset, hid] using hsome
  case transferred =>
    rintro transferOp rfl
    rw [hassets]
    cases spec <;> rfl
  case nonces => exact hnonces

theorem anchorsOnly_setAnchorCount (s : AtomicConsensusState) (ownerId : Bytes32) (count : ℕ) :
    AnchorsOnly s (s.setAnchorCount blake2b ownerId count) := by
  unfold AtomicConsensusState.setAnchorCount
  split_ifs <;> exact ⟨rfl, rfl, rfl, rfl⟩

theorem AnchorsOnly.trans {s t u : AtomicConsensusState} (h : AnchorsOnly s t)
    (h' : AnchorsOnly t u) : AnchorsOnly s u :=
  ⟨h'.nonces.trans h.nonces, h'.assets.trans h.assets, h'.balances.trans h.balances,
    h'.vaults.trans h.vaults⟩

theorem anchorsOnly_applyAnchorDeltas (s : AtomicConsensusState) :
    AnchorsOnly s (applyAnchorDeltasToAtomicState blake2b ptx s) := by
  unfold applyAnchorDeltasToAtomicState
  generalize anchorOwners blake2b ptx = owners
  induction owners generalizing s with
  | nil => exact ⟨rfl, rfl, rfl, rfl⟩
  | cons owner owners ih => exact (anchorsOnly_setAnchorCount s owner _).trans (ih _)

/-- An accepted transaction either has no token payload and changes anchor counts only,
or it acts for the owner of its authorization input and stays within that owner's
frame. -/
theorem accepted_within_frame {s t : AtomicConsensusState}
    (h : (validateAndApplyAtomicStateTransition blake2b params ptx povDaaScore ctx).run s =
      .ok () t) :
    payloadOf params ptx povDaaScore = .ok none ∧ AnchorsOnly s t ∨
      ∃ parsed ownerId, payloadOf params ptx povDaaScore = .ok (some parsed) ∧
        resolveAtomicOwnerFromPopulatedTx blake2b ptx parsed.authInputIndex = .ok ownerId ∧
        OwnerFrame ptx.tx.id ownerId parsed.op s t := by
  cases transition_reads blake2b params ptx povDaaScore ctx h with
  | plain payload =>
    obtain ⟨calls, hcalls, hrun⟩ := transition_spec blake2b params ptx povDaaScore ctx h
    cases hcalls with
    | plain =>
      rw [run_anchorCalls blake2b ptx fun _ => rfl] at hrun
      cases hrun
      exact .inl ⟨payload, anchorsOnly_applyAnchorDeltas s⟩
    | token payload' =>
      rw [payload] at payload'
      cases payload'
  | @token spent parsed a effect payload collected admitted spec nonces assets balances =>
    refine .inr ⟨parsed, a.ownerId, payload, admitted.owner,
      ownerFrame_of_spec spec assets balances ?_⟩
    intro key hne
    rw [nonces, admitted.key, Function.update_of_ne hne]

open AtomicConsensusState in
/-- The first pool of the empty state, created by a key that pays back to itself. -/
def createPoolRun : EStateM.Result String AtomicConsensusState Unit :=
  (validateAndApplyAtomicStateTransition zeroHash sampleParams (createPoolTx (sampleId 7)) 0
    sampleContext).run default

open AtomicConsensusState in
/-- The creation is accepted, carries a payload, and stays within its owner's frame. -/
theorem createPoolTx_within_frame :
    ∃ t parsed ownerId, (validateAndApplyAtomicStateTransition zeroHash sampleParams
        (createPoolTx (sampleId 7)) 0 sampleContext).run default = .ok () t ∧
      payloadOf sampleParams (createPoolTx (sampleId 7)) 0 = .ok (some parsed) ∧
      OwnerFrame (sampleId 7) ownerId parsed.op default t := by
  have hsucceeded : succeeded createPoolRun = true := by decide +kernel
  have hrun : createPoolRun = .ok () (finalState createPoolRun) := eq_ok_of_succeeded hsucceeded
  have hpayload : (payloadOf sampleParams (createPoolTx (sampleId 7)) 0).toOption.join.isSome =
      true := by decide +kernel
  rcases accepted_within_frame hrun with ⟨hnone, -⟩ | ⟨parsed, ownerId, hsome, -, hframe⟩
  · rw [hnone] at hpayload
    cases hpayload
  · exact ⟨_, parsed, ownerId, hrun, hsome, hframe⟩

end Frame

end Transition
end CryptixAtomic
