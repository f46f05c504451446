import CryptixAtomic.State.DeltaReplay
import CryptixAtomic.State.Persistence

/-!
# Moving the persisted state along a delta

A batch with the delta of a block writes without reading what the database holds. If that is
the content on one side of the block, and the block hands no vault outpoint from one pool to
another, the result is the content on the other side.
-/
namespace CryptixAtomic

open Foundation AtomicAssetState Content StateCall List Option Finmap

variable {delta : AtomicConsensusStateDelta}

namespace CurrentStore

/-- What the typed store holds, as the content of a state. -/
def content (store : CurrentStore) : Content where
  nonce k := store.nonces.lookup k
  ledger := { table := fun k => store.assets.lookup k, index := fun o => store.vaults.lookup o }
  balance k := store.balances.lookup k
  anchor k := store.anchorCounts.lookup k

theorem ext_content {s t : CurrentStore} (hcontent : s.content = t.content)
    (hroot : s.root = t.root) : s = t := by
  obtain ⟨n, a, b, c, v, r⟩ := s
  obtain ⟨n', a', b', c', v', r'⟩ := t
  obtain rfl : n = n' := ext_lookup (congrFun (congrArg nonce hcontent))
  obtain rfl : a = a' := ext_lookup (congrFun (congrArg (·.ledger.table) hcontent))
  obtain rfl : b = b' := ext_lookup (congrFun (congrArg balance hcontent))
  obtain rfl : c = c' := ext_lookup (congrFun (congrArg anchor hcontent))
  obtain rfl : v = v' := ext_lookup (congrFun (congrArg (·.ledger.index) hcontent))
  obtain rfl : r = r' := hroot
  rfl

theorem content_commit_map {α : Type} {op : α → CurrentOp} {w : α → Write}
    (hop : ∀ (store : CurrentStore) a, (store.apply (op a)).content = store.content.put (w a))
    (store : CurrentStore) (l : List α) :
    (store.commit (l.map op)).content = store.content.putAll (l.map w) := by
  induction l generalizing store with
  | nil => rfl
  | cons a l ih =>
    have hrest := ih (store.apply (op a))
    rw [hop store a] at hrest
    exact hrest

theorem content_apply_nonce (store : CurrentStore) (key : AtomicNonceKey) (value : Option ℕ) :
    (store.apply (.nonce key value)).content = store.content.put (.nonce key value) :=
  Content.ext (lookup_assign_eq_update _ _ _) rfl rfl rfl

theorem content_apply_balance (store : CurrentStore) (key : AtomicBalanceKey) (value : Option ℕ) :
    (store.apply (.balance key value)).content = store.content.put (.balance key value) :=
  Content.ext rfl rfl (lookup_assign_eq_update _ _ _) rfl

theorem content_apply_anchor (store : CurrentStore) (ownerId : Bytes32) (value : Option ℕ) :
    (store.apply (.anchor ownerId value)).content = store.content.put (.anchor ownerId value) :=
  Content.ext rfl rfl rfl (lookup_assign_eq_update _ _ _)

/-- If the recorded old value is the current one, an asset change of a batch is a write
to the indexed asset table. -/
theorem content_commit_asset (store : CurrentStore) {assetId : Bytes32}
    {oldValue : Option AtomicAssetState} (newValue : Option AtomicAssetState)
    (hold : store.assets.lookup assetId = oldValue)
    (hcons : ∀ asset, oldValue = some asset → asset.ClassConsistent) :
    (store.commit (writeCurrentAssetChange assetId oldValue newValue)).content =
      store.content.put (.asset assetId newValue) := by
  have hslot : oldValue.bind (·.poolOutpoint) =
      store.content.ledger.slotOf vaultOutpoint assetId := by
    have htable : store.content.ledger.table assetId = oldValue := hold
    rw [Indexed.slotOf, htable]
    cases oldValue with
    | none => rfl
    | some asset => exact (hcons asset rfl).poolOutpoint_eq
  have htable := lookup_assign_eq_update store.assets assetId newValue
  have hindex : ∀ o, (store.commit (writeCurrentAssetChange assetId oldValue newValue)).vaults.lookup
      o = if newValue.bind (·.vaultOutpoint) = some o then some assetId
        else if oldValue.bind (·.poolOutpoint) = some o then none else store.vaults.lookup o := by
    intro o
    unfold writeCurrentAssetChange
    cases oldValue.bind (·.poolOutpoint) <;> cases newValue.bind (·.vaultOutpoint) <;>
      simp [commit, apply, eq_comm]
  have hrest : (store.commit (writeCurrentAssetChange assetId oldValue newValue)) = { store with
        assets := store.assets.assign assetId newValue
        vaults := (store.commit (writeCurrentAssetChange assetId oldValue newValue)).vaults } := by
    unfold writeCurrentAssetChange
    cases oldValue.bind (·.poolOutpoint) <;> cases newValue.bind (·.vaultOutpoint) <;> rfl
  rw [hslot] at hindex
  rw [hrest]
  exact Content.ext rfl (Indexed.ext htable (funext hindex)) rfl rfl

/-- The same for a list of changes: each one finds its recorded old value, since no asset
changes twice. -/
theorem content_commit_assets (store : CurrentStore) (forward : Bool)
    {cs : List (Change Bytes32 AtomicAssetState)} (hnodup : cs.Pairwise fun c d => c.key ≠ d.key)
    (hold : ∀ c ∈ cs, store.assets.lookup c.key = c.value !forward)
    (hcons : ∀ c ∈ cs, ∀ asset, c.value (!forward) = some asset → asset.ClassConsistent) :
    (store.commit (cs.flatMap fun c =>
      writeCurrentAssetChange c.key (c.value !forward) (c.value forward))).content =
      store.content.putAll (cs.map fun c => .asset c.key (c.value forward)) := by
  induction cs generalizing store with
  | nil => rfl
  | cons c cs ih =>
    obtain ⟨hfirst, hrest⟩ := pairwise_cons.mp hnodup
    have hstep := store.content_commit_asset (c.value forward)
      (hold c mem_cons_self) (hcons c mem_cons_self)
    rw [flatMap_cons, commit_append, ih _ hrest ?_ fun d hd => hcons d (mem_cons_of_mem _ hd),
      hstep]
    · rfl
    · intro d hd
      -- the change of `c` leaves the row of `d` alone
      have hrow : (store.content.put (.asset c.key (c.value forward))).ledger.table d.key =
          store.content.ledger.table d.key := by
        simp [put, Indexed.write, Function.update_of_ne (hfirst d hd).symm]
      rw [← hstep] at hrow
      exact hrow.trans (hold d (mem_cons_of_mem _ hd))

theorem content_commit_delta (store : CurrentStore)
    (forward : Bool) (hnodup : delta.assetChanges.Pairwise fun c d => c.key ≠ d.key)
    (hold : ∀ c ∈ delta.assetChanges, store.assets.lookup c.key = c.value !forward)
    (hcons : ∀ c ∈ delta.assetChanges, ∀ asset,
      c.value (!forward) = some asset → asset.ClassConsistent) :
    (store.commit (applyCurrentDeltaBatch delta forward)).content =
      store.content.putAll (delta.writes forward) := by
  have hnonces := content_commit_map
    (fun s (c : Change AtomicNonceKey ℕ) => s.content_apply_nonce c.key (c.value forward)) store
    delta.nonceChanges
  rw [applyCurrentDeltaBatch, AtomicConsensusStateDelta.writes, commit_append, commit_append,
    commit_append, putAll_append, putAll_append, putAll_append, ← hnonces]
  have hassets := content_commit_assets
    (store.commit (delta.nonceChanges.map fun c => .nonce c.key (c.value forward))) forward hnodup
    (fun c hc => by
      rw [putAll_nonces] at hnonces
      have htable := congrFun (congrArg (fun d => d.ledger.table) hnonces) c.key
      exact htable.trans (hold c hc)) hcons
  rw [← hassets]
  rw [← content_commit_map (fun s (c : Change AtomicBalanceKey ℕ) =>
      s.content_apply_balance c.key (c.value forward)),
    ← content_commit_map (fun s (c : Change Bytes32 ℕ) =>
      s.content_apply_anchor c.key (c.value forward))]

end CurrentStore

/-- What is known of the delta of a processed block: it was tracked from one content to the
other, and no vault outpoint passes from one pool to another. -/
structure DeltaBetween (delta : AtomicConsensusStateDelta) (c d : Content) : Prop where
  coherent : c.Coherent ∧ d.Coherent
  consistent : c.Consistent ∧ d.Consistent
  tracked : ∃ b : AtomicConsensusStateDeltaBuilder, b.intoDelta = delta ∧ b.Tracks c d
  quiet : Indexed.NoHandover vaultOutpoint c.ledger d.ledger

namespace DeltaBetween

variable {c d : Content} {store : CurrentStore}

theorem value (h : DeltaBetween delta c d) {change : Change Bytes32 AtomicAssetState}
    (hchange : change ∈ delta.assetChanges) (side : Bool) :
    change.value side = (if side then d else c).ledger.table change.key := by
  obtain ⟨b, rfl, htracks⟩ := h.tracked
  cases side with
  | true => exact (htracks.assets.change hchange).2
  | false => exact (htracks.assets.change hchange).1

theorem replays (h : DeltaBetween delta c d) :
    c.putAll (delta.writes true) = d ∧ d.putAll (delta.writes false) = c := by
  obtain ⟨b, rfl, htracks⟩ := h.tracked
  exact (htracks.replay_iff h.coherent.1 h.coherent.2).mpr h.quiet

theorem consistent_value (h : DeltaBetween delta c d) {change : Change Bytes32 AtomicAssetState}
    (hchange : change ∈ delta.assetChanges) (side : Bool) {asset : AtomicAssetState}
    (hasset : change.value side = some asset) : asset.ClassConsistent := by
  rw [h.value hchange] at hasset
  cases side with
  | true => exact h.consistent.2 change.key asset hasset
  | false => exact h.consistent.1 change.key asset hasset

/-- A batch with the delta moves a store from one content to the other. -/
theorem content_commit (h : DeltaBetween delta c d) (forward : Bool)
    (hstore : store.content = if forward then c else d) :
    (store.commit (applyCurrentDeltaBatch delta forward)).content = if forward then d else c := by
  have htable : ∀ change ∈ delta.assetChanges,
      store.assets.lookup change.key = change.value !forward := by
    intro change hchange
    have hrow : store.assets.lookup change.key = store.content.ledger.table change.key := rfl
    rw [hrow, hstore, h.value hchange]
    cases forward <;> rfl
  have hsorted : delta.assetChanges.Pairwise fun c d => c.key ≠ d.key := by
    obtain ⟨b, rfl, -⟩ := h.tracked
    exact (changesOf_sorted b.assets).imp ne_of_lt
  rw [store.content_commit_delta forward hsorted htable fun change hchange _ hvalue =>
    h.consistent_value hchange _ hvalue, hstore]
  cases forward with
  | true => exact h.replays.1
  | false => exact h.replays.2

/-- If vault outpoints have 32-bit indices, the operations of the batch can be encoded. -/
theorem fits (h : DeltaBetween delta c d) (hfits : ∀ (side : Bool) assetId o,
      (if side then d else c).ledger.slotOf vaultOutpoint assetId = some o → o.Fits)
    (forward : Bool) : ∀ op ∈ applyCurrentDeltaBatch delta forward, op.Fits := by
  have hvault : ∀ change ∈ delta.assetChanges, ∀ side o,
      (change.value side).bind (·.vaultOutpoint) = some o → o.Fits := by
    intro change hchange side o ho
    rw [h.value hchange] at ho
    exact hfits side change.key o ho
  have hpool : ∀ change ∈ delta.assetChanges, ∀ side o,
      (change.value side).bind (·.poolOutpoint) = some o → o.Fits := by
    intro change hchange side o ho
    obtain ⟨asset, hasset, hat⟩ := bind_eq_some_iff.mp ho
    rw [(h.consistent_value hchange side hasset).poolOutpoint_eq] at hat
    exact hvault change hchange side o (bind_eq_some_iff.mpr ⟨asset, hasset, hat⟩)
  intro op hop
  simp only [applyCurrentDeltaBatch, writeCurrentAssetChange, List.mem_append, List.mem_map,
    List.mem_flatMap, List.mem_singleton, Option.mem_toList, Option.map_eq_some_iff] at hop
  rcases hop with ((⟨_, -, rfl⟩ | ⟨e, he, (⟨o, ho, rfl⟩ | rfl) | ⟨o, ho, rfl⟩⟩) | ⟨_, -, rfl⟩) |
    ⟨_, -, rfl⟩
  · trivial
  · exact hpool e he _ o ho
  · trivial
  · exact hvault e he forward o ho
  · trivial
  · trivial

end DeltaBetween
end CryptixAtomic
