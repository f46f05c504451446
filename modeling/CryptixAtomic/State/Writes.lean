import CryptixAtomic.State.Store

/-!
# What each mutator does

One specification per mutator: when it succeeds, and what every read returns
afterwards. Later modules use these statements and never unfold a mutator.
-/
namespace CryptixAtomic

open Foundation Option

namespace VaultIndex

def listPool (v : VaultIndex) (backed : Bool) (assetId : Bytes32)
    (newValue : Option AtomicAssetState) : VaultIndex :=
  match newValue.bind (·.vaultOutpoint) with
  | some outpoint => v.write backed outpoint (some assetId)
  | none => v

/-- A liquidity asset needs a pool whose outpoint the overlay lists for no other asset. -/
def Free (v : VaultIndex) (assetId : Bytes32) (newValue : Option AtomicAssetState) : Prop :=
  ∀ asset, newValue = some asset → asset.assetClass = .liquidity →
    ∃ pool, asset.liquidity = some pool ∧
      ∀ other, v.live.lookup pool.vaultOutpoint = some other → other = assetId

end VaultIndex

namespace AtomicConsensusState

section InMemory

variable {s : AtomicConsensusState} (hmem : s.currentStore = none)

include hmem

theorem nonceOption_in_memory (key : AtomicNonceKey) :
    s.nonceOption key = s.nextNonces.live.lookup key := by
  rw [nonceOption, hmem, map_none, Overlay.read_none_base]

theorem assetOption_in_memory (assetId : Bytes32) :
    s.assetOption assetId = s.assets.live.lookup assetId := by
  rw [assetOption, hmem, map_none, Overlay.read_none_base]

theorem balanceOption_in_memory (key : AtomicBalanceKey) :
    s.balanceOption key = s.balances.live.lookup key := by
  rw [balanceOption, hmem, map_none, Overlay.read_none_base]

theorem anchorCountOption_in_memory (ownerId : Bytes32) :
    s.anchorCountOption ownerId = s.anchorCounts.live.lookup ownerId := by
  rw [anchorCountOption, hmem, map_none, Overlay.read_none_base]

theorem vaultOption_in_memory (outpoint : TransactionOutpoint) :
    s.vaultOption outpoint = s.liquidityVaultOutpoints.live.lookup outpoint := by
  rw [vaultOption, hmem, map_none, Overlay.read_none_base]

end InMemory

theorem setVaultIndexForAssetChange_eq_ok {s t : AtomicConsensusState} {assetId : Bytes32}
    {oldValue newValue : Option AtomicAssetState} {u : Unit} :
    (setVaultIndexForAssetChange assetId oldValue newValue).run s = .ok u t ↔
      (s.liquidityVaultOutpoints.dropPool s.isDiskBacked oldValue).Free assetId newValue ∧
        { s with
          liquidityVaultOutpoints :=
            (s.liquidityVaultOutpoints.dropPool s.isDiskBacked oldValue).listPool s.isDiskBacked
              assetId newValue } = t := by
  unfold setVaultIndexForAssetChange VaultIndex.Free VaultIndex.listPool
  generalize hv : s.liquidityVaultOutpoints.dropPool s.isDiskBacked oldValue = v
  cases newValue with
  | none => simp [hv]
  | some asset =>
    by_cases hclass : asset.assetClass = .liquidity
    · cases hpool : asset.liquidity with
      | none => simp [hclass, hpool]
      | some pool =>
        have hvault : asset.vaultOutpoint = some pool.vaultOutpoint := by
          simp [AtomicAssetState.vaultOutpoint, AtomicAssetState.poolOutpoint, hclass, hpool]
        cases hlook : v.live.lookup pool.vaultOutpoint with
        | none =>
          simp [hv, hclass, hpool, hlook, hvault]
          rfl
        | some other =>
          by_cases hother : other = assetId
          · simp [hv, hclass, hpool, hlook, hother, hvault, -Subtype.forall]
            rfl
          · simp [hv, hclass, hpool, hlook, hother, -Subtype.forall]
    · simp [hv, hclass, AtomicAssetState.vaultOutpoint]

section AssetWrite

variable (blake2b : Blake2b)

/-- The state a successful asset write leaves behind. -/
def withAsset (s : AtomicConsensusState) (assetId : Bytes32) (asset : Option AtomicAssetState) :
    AtomicConsensusState :=
  { s with
    storedRoot := if s.isDiskBacked then
        s.storedRoot.applyAsset blake2b assetId (s.assetOption assetId) asset else s.storedRoot
    liquidityVaultOutpoints :=
      (s.liquidityVaultOutpoints.dropPool s.isDiskBacked (s.assetOption assetId)).listPool
        s.isDiskBacked assetId asset
    assets := s.assets.write s.isDiskBacked assetId asset }

/-- The overlay lists nobody else at the outpoint an asset write needs. -/
def VaultFree (s : AtomicConsensusState) (assetId : Bytes32)
    (asset : Option AtomicAssetState) : Prop :=
  (s.liquidityVaultOutpoints.dropPool s.isDiskBacked (s.assetOption assetId)).Free assetId asset

theorem setAssetValueWithoutDelta_eq_ok {s t : AtomicConsensusState} {assetId : Bytes32}
    {asset : Option AtomicAssetState} {u : Unit} :
    (setAssetValueWithoutDelta blake2b assetId asset).run s = .ok u t ↔
      s.VaultFree assetId asset ∧ s.withAsset blake2b assetId asset = t := by
  unfold setAssetValueWithoutDelta
  simp only [run_bind_eq_ok, run_get, run_modify, setVaultIndexForAssetChange_eq_ok,
    EStateM.Result.ok.injEq]
  constructor
  · rintro ⟨_, _, ⟨rfl, rfl⟩, _, _, ⟨-, rfl⟩, _, _, ⟨hfree, rfl⟩, -, rfl⟩
    exact ⟨hfree, rfl⟩
  · rintro ⟨hfree, rfl⟩
    exact ⟨s, s, ⟨rfl, rfl⟩, (), _, ⟨trivial, rfl⟩, (), _, ⟨hfree, rfl⟩, trivial, rfl⟩

end AssetWrite
end AtomicConsensusState
end CryptixAtomic
