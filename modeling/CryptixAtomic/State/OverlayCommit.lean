import CryptixAtomic.Chain.UtxoAlgebra
import CryptixAtomic.Foundation.OverlayRows
import CryptixAtomic.State.Commitment
import CryptixAtomic.State.Persistence

/-!
# Writing a state to the current store

A state is written as it is: removals first, then the values held, column by column, and
the root at the end. `commit_writeCurrentOverlayBatch` says that every column then holds
what reads through the state over the old column returned. Nothing is taken away that the
state does not list as removed; replacing the contents clears the columns before.
-/
namespace CryptixAtomic

open Foundation

namespace AtomicConsensusState

variable (blake2b : Blake2b)

def writeCurrentOverlayBatch (s : AtomicConsensusState) : List CurrentOp :=
  s.nextNonces.removals.map (fun r => .nonce r.1 r.2) ++
    s.nextNonces.insertions.map (fun r => .nonce r.1 r.2) ++
    s.liquidityVaultOutpoints.removals.map (fun r => .vault r.1 r.2) ++
    s.assets.removals.map (fun r => .asset r.1 r.2) ++
    s.assets.insertions.map (fun r => .asset r.1 r.2) ++
    s.liquidityVaultOutpoints.insertions.map (fun r => .vault r.1 r.2) ++
    s.balances.removals.map (fun r => .balance r.1 r.2) ++
    s.balances.insertions.map (fun r => .balance r.1 r.2) ++
    s.anchorCounts.removals.map (fun r => .anchor r.1 r.2) ++
    s.anchorCounts.insertions.map (fun r => .anchor r.1 r.2) ++
    [.root (s.rootAccumulator blake2b)]

end AtomicConsensusState

namespace CurrentStore

open AtomicConsensusState

section Columns

variable {K V : Type} [DecidableEq K]

theorem commit_column {op : K → Option V → CurrentOp} {column : FMap K V → CurrentStore}
    (hop : ∀ m k v, (column m).apply (op k v) = column (m.assign k v)) (m : FMap K V)
    (rows : List (K × Option V)) :
    (column m).commit (rows.map fun r => op r.1 r.2) = column (m.assignAll rows) := by
  induction rows generalizing m with
  | nil => rfl
  | cons r rows ih =>
    have hfirst := hop m r.1 r.2
    rw [List.map_cons, commit, List.foldl_cons, hfirst]
    exact ih (m.assign r.1 r.2)

end Columns

section Rows

variable (store : CurrentStore)

theorem commit_nonces (rows : List (AtomicNonceKey × Option ℕ)) :
    store.commit (rows.map fun r => .nonce r.1 r.2) =
      { store with nonces := store.nonces.assignAll rows } :=
  commit_column (fun _ _ _ => rfl : ∀ m k v, ({ store with nonces := m } : CurrentStore).apply
    (.nonce k v) = { store with nonces := m.assign k v }) store.nonces rows

theorem commit_assets (rows : List (Bytes32 × Option AtomicAssetState)) :
    store.commit (rows.map fun r => .asset r.1 r.2) =
      { store with assets := store.assets.assignAll rows } :=
  commit_column (fun _ _ _ => rfl : ∀ m k v, ({ store with assets := m } : CurrentStore).apply
    (.asset k v) = { store with assets := m.assign k v }) store.assets rows

theorem commit_balances (rows : List (AtomicBalanceKey × Option ℕ)) :
    store.commit (rows.map fun r => .balance r.1 r.2) =
      { store with balances := store.balances.assignAll rows } :=
  commit_column (fun _ _ _ => rfl : ∀ m k v, ({ store with balances := m } : CurrentStore).apply
    (.balance k v) = { store with balances := m.assign k v }) store.balances rows

theorem commit_anchors (rows : List (Bytes32 × Option ℕ)) :
    store.commit (rows.map fun r => .anchor r.1 r.2) =
      { store with anchorCounts := store.anchorCounts.assignAll rows } :=
  commit_column (fun _ _ _ => rfl : ∀ m k v, ({ store with anchorCounts := m } : CurrentStore).apply
    (.anchor k v) = { store with anchorCounts := m.assign k v }) store.anchorCounts rows

theorem commit_vaults (rows : List (TransactionOutpoint × Option Bytes32)) :
    store.commit (rows.map fun r => .vault r.1 r.2) =
      { store with vaults := store.vaults.assignAll rows } :=
  commit_column (fun _ _ _ => rfl : ∀ m k v, ({ store with vaults := m } : CurrentStore).apply
    (.vault k v) = { store with vaults := m.assign k v }) store.vaults rows

end Rows

variable (blake2b : Blake2b) (store : CurrentStore) (s : AtomicConsensusState)

theorem commit_writeCurrentOverlayBatch : store.commit (s.writeCurrentOverlayBatch blake2b) =
      { nonces := s.nextNonces.merged (some store.nonces)
        assets := s.assets.merged (some store.assets)
        balances := s.balances.merged (some store.balances)
        anchorCounts := s.anchorCounts.merged (some store.anchorCounts)
        vaults := s.liquidityVaultOutpoints.merged (some store.vaults)
        root := some (s.rootAccumulator blake2b) } := by
  simp only [writeCurrentOverlayBatch, commit_append, commit_nonces, commit_assets,
    commit_balances, commit_anchors, commit_vaults, Overlay.assignAll_removals_insertions]
  rfl

/-- Clearing deletes every key of the six columns. -/
def replaceCurrentOverlay : CurrentStore :=
  CurrentStore.empty.commit (s.writeCurrentOverlayBatch blake2b)

theorem replaceCurrentOverlay_eq : replaceCurrentOverlay blake2b s =
      { nonces := s.nextNonces.live
        assets := s.assets.live
        balances := s.balances.live
        anchorCounts := s.anchorCounts.live
        vaults := s.liquidityVaultOutpoints.live
        root := some (s.rootAccumulator blake2b) } := by
  simp only [replaceCurrentOverlay, commit_writeCurrentOverlayBatch, CurrentStore.empty,
    Overlay.merged_empty_base]

end CurrentStore
end CryptixAtomic
