import CryptixAtomic.State.Content

/-!
# The root accumulator and the logical content

Over a store the accumulator is maintained write by write, in memory it is
recomputed from the maps. Both are compared with `logicalRoot`, the accumulator
rebuilt from everything the state answers to reads.
-/
namespace CryptixAtomic

open Foundation Overlay AtomicConsensusRootAccumulator FMap Finmap

namespace AtomicConsensusState

section LogicalMaps

variable (s : AtomicConsensusState)

def logicalNonces : FMap AtomicNonceKey ℕ := s.nextNonces.merged (s.currentStore.map (·.nonces))

def logicalAssets : FMap Bytes32 AtomicAssetState := s.assets.merged (s.currentStore.map (·.assets))

def logicalBalances : FMap AtomicBalanceKey ℕ := s.balances.merged (s.currentStore.map (·.balances))

def logicalAnchorCounts : FMap Bytes32 ℕ :=
  s.anchorCounts.merged (s.currentStore.map (·.anchorCounts))

/-- The accumulator rebuilt from the full logical maps. -/
def logicalRoot (blake2b : Blake2b) : AtomicConsensusRootAccumulator :=
  .fromStateMaps blake2b s.logicalNonces s.logicalAssets s.logicalBalances s.logicalAnchorCounts

end LogicalMaps

/-- Two states answer every read of the four maps alike. -/
structure SameMaps (s t : AtomicConsensusState) : Prop where
  nonces : s.nonceOption = t.nonceOption
  assets : s.assetOption = t.assetOption
  balances : s.balanceOption = t.balanceOption
  anchors : s.anchorCountOption = t.anchorCountOption

theorem SameMaps.of_content {s t : AtomicConsensusState} (h : s.content = t.content) :
    SameMaps s t where
  nonces := congrArg Content.nonce h
  assets := congrArg (fun c => c.ledger.table) h
  balances := congrArg Content.balance h
  anchors := congrArg Content.anchor h

theorem logicalRoot_congr (blake2b : Blake2b) {s t : AtomicConsensusState} (h : SameMaps s t) :
    s.logicalRoot blake2b = t.logicalRoot blake2b := by
  have hnonces : s.logicalNonces = t.logicalNonces := merged_congr h.nonces
  have hassets : s.logicalAssets = t.logicalAssets := merged_congr h.assets
  have hbalances : s.logicalBalances = t.logicalBalances := merged_congr h.balances
  have hanchors : s.logicalAnchorCounts = t.logicalAnchorCounts := merged_congr h.anchors
  rw [logicalRoot, logicalRoot, hnonces, hassets, hbalances, hanchors]

section Maintenance

variable (blake2b : Blake2b)

/-- Over a store the accumulator field describes the logical content. -/
def RootMaintained (s : AtomicConsensusState) : Prop :=
  s.currentStore.isSome → s.storedRoot = s.logicalRoot blake2b

/-- Another `n` entries fit the 64-bit counters of the accumulator. -/
structure EntriesFit (s : AtomicConsensusState) (n : ℕ) : Prop where
  nonces : s.logicalNonces.size + n ≤ maxWord 64
  assets : s.logicalAssets.size + n ≤ maxWord 64
  balances : s.logicalBalances.size + n ≤ maxWord 64
  anchors : s.logicalAnchorCounts.size + n ≤ maxWord 64

section LogicalWrites

variable (s : AtomicConsensusState)

theorem logicalNonces_set (key : AtomicNonceKey) (value : Option ℕ) :
    (s.put blake2b (.nonce key value)).logicalNonces = s.logicalNonces.assign key value := by
  rw [logicalNonces, logicalNonces, ← merged_write, ← s.isDiskBacked_eq]
  rfl

theorem logicalAssets_set (assetId : Bytes32) (value : Option AtomicAssetState) :
    (s.put blake2b (.asset assetId value)).logicalAssets =
      s.logicalAssets.assign assetId value := by
  rw [logicalAssets, logicalAssets, ← merged_write, ← s.isDiskBacked_eq]
  rfl

theorem logicalBalances_set (key : AtomicBalanceKey) (value : Option ℕ) :
    (s.put blake2b (.balance key value)).logicalBalances = s.logicalBalances.assign key value := by
  rw [logicalBalances, logicalBalances, ← merged_write, ← s.isDiskBacked_eq]
  rfl

theorem logicalAnchorCounts_set (ownerId : Bytes32) (value : Option ℕ) :
    (s.put blake2b (.anchor ownerId value)).logicalAnchorCounts =
      s.logicalAnchorCounts.assign ownerId value := by
  rw [logicalAnchorCounts, logicalAnchorCounts, ← merged_write, ← s.isDiskBacked_eq]
  rfl

end LogicalWrites

variable {s : AtomicConsensusState}

theorem EntriesFit.mono {m n : ℕ} (h : s.EntriesFit n) (hmn : m ≤ n) : s.EntriesFit m := by
  obtain ⟨hn, ha, hb, hc⟩ := h
  exact ⟨by omega, by omega, by omega, by omega⟩

theorem EntriesFit.put {n : ℕ} (h : s.EntriesFit (n + 1)) (w : Write) :
    (s.put blake2b w).EntriesFit n := by
  obtain ⟨hn, ha, hb, hc⟩ := h
  -- the three maps that the write does not touch only get a weaker bound
  have hn' := Nat.le_of_succ_le hn
  have ha' := Nat.le_of_succ_le ha
  have hb' := Nat.le_of_succ_le hb
  have hc' := Nat.le_of_succ_le hc
  cases w with
  | nonce key value =>
    have hsize := size_assign_le s.logicalNonces key value
    rw [← logicalNonces_set blake2b] at hsize
    exact ⟨by omega, ha', hb', hc'⟩
  | asset assetId value =>
    have hsize := size_assign_le s.logicalAssets assetId value
    rw [← logicalAssets_set blake2b] at hsize
    exact ⟨hn', by omega, hb', hc'⟩
  | balance key value =>
    have hsize := size_assign_le s.logicalBalances key value
    rw [← logicalBalances_set blake2b] at hsize
    exact ⟨hn', ha', by omega, hc'⟩
  | anchor ownerId value =>
    have hsize := size_assign_le s.logicalAnchorCounts ownerId value
    rw [← logicalAnchorCounts_set blake2b] at hsize
    exact ⟨hn', ha', hb', by omega⟩

theorem RootMaintained.put (h : s.RootMaintained blake2b)
    (hfit : s.currentStore.isSome → s.EntriesFit 0) (w : Write) :
    (s.put blake2b w).RootMaintained blake2b := by
  intro hstore
  rw [currentStore_put] at hstore
  replace hfit := hfit hstore
  have hbacked : s.isDiskBacked = true := hstore
  have hroot := h hstore
  rw [logicalRoot, fromStateMaps_eq] at hroot
  rw [logicalRoot, fromStateMaps_eq]
  cases w with
  | nonce key value =>
    have hentry := EntrySum.applyEntry_ofMap (hashNonceEntry blake2b) s.logicalNonces key value
      hfit.nonces
    rw [logicalNonces_set, ← hentry]
    simp only [AtomicConsensusState.put, setNonceValueWithoutDelta, hbacked, if_true, hroot]
    rw [logicalNonces, lookup_merged]
    rfl
  | asset assetId value =>
    have hentry := EntrySum.applyEntry_ofMap (hashAssetEntry blake2b) s.logicalAssets assetId value
      hfit.assets
    rw [logicalAssets_set, ← hentry]
    simp only [AtomicConsensusState.put, withAsset, hbacked, if_true, hroot]
    rw [logicalAssets, lookup_merged]
    rfl
  | balance key value =>
    have hentry := EntrySum.applyEntry_ofMap (hashBalanceEntry blake2b) s.logicalBalances key value
      hfit.balances
    rw [logicalBalances_set, ← hentry]
    simp only [AtomicConsensusState.put, setBalanceValueWithoutDelta, hbacked, if_true, hroot]
    rw [logicalBalances, lookup_merged]
    rfl
  | anchor ownerId value =>
    have hentry := EntrySum.applyEntry_ofMap (hashAnchorCountEntry blake2b) s.logicalAnchorCounts
      ownerId value hfit.anchors
    rw [logicalAnchorCounts_set, ← hentry]
    simp only [AtomicConsensusState.put, setAnchorCountValueWithoutDelta, hbacked, if_true, hroot]
    rw [logicalAnchorCounts, lookup_merged]
    rfl

end Maintenance

section Accessor

variable (blake2b : Blake2b)

def MapsEmpty (s : AtomicConsensusState) : Prop :=
  s.nextNonces.live = ∅ ∧ s.assets.live = ∅ ∧ s.balances.live = ∅ ∧ s.anchorCounts.live = ∅

theorem keys_eq_empty_iff {K V : Type} [DecidableEq K] (m : FMap K V) : m.keys = ∅ ↔ m = ∅ := by
  constructor
  · intro h
    rw [eq_empty_iff]
    intro k
    rw [lookup_eq_none, ← mem_keys, h]
    simp
  · rintro rfl
    simp

variable {s : AtomicConsensusState}

theorem rootAccumulator_of_store (hstore : s.currentStore.isSome)
    (h : s.RootMaintained blake2b) : s.rootAccumulator blake2b = s.logicalRoot blake2b := by
  rw [rootAccumulator, if_pos (.inl hstore), h hstore]

theorem logicalRoot_in_memory (hmem : s.currentStore = none) :
    s.logicalRoot blake2b = .fromStateMaps blake2b s.nextNonces.live s.assets.live s.balances.live
      s.anchorCounts.live := by
  simp [logicalRoot, logicalNonces, logicalAssets, logicalBalances, logicalAnchorCounts, hmem,
      merged_none_base]

theorem rootAccumulator_of_mapsEmpty (h : s.MapsEmpty) :
    s.rootAccumulator blake2b = s.storedRoot := by
  rw [rootAccumulator, if_pos]
  simp only [keys_eq_empty_iff]
  exact .inr h

theorem rootAccumulator_of_not_mapsEmpty (hmem : s.currentStore = none)
    (h : ¬s.MapsEmpty) : s.rootAccumulator blake2b = s.logicalRoot blake2b := by
  rw [rootAccumulator, if_neg, logicalRoot_in_memory blake2b hmem]
  simp only [hmem, Option.isSome_none, Bool.false_eq_true, false_or, keys_eq_empty_iff]
  exact h

theorem logicalRoot_of_mapsEmpty (hmem : s.currentStore = none)
    (h : s.MapsEmpty) : s.logicalRoot blake2b = .default := by
  rw [logicalRoot_in_memory blake2b hmem, h.1, h.2.1, h.2.2.1, h.2.2.2]
  simp [fromStateMaps, iter_empty]

end Accessor
end AtomicConsensusState
end CryptixAtomic
