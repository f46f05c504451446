import CryptixAtomic.State.Delta

/-!
# A tracked delta replays the run it was tracked over

`Sound` is what the code keeps true of every state: the vault index is exact, pools belong to
liquidity assets, and over a store the accumulator matches the content. A tracked delta leads
from the state before to the state after and back exactly when it hands no vault outpoint from
one asset to another.
-/
namespace CryptixAtomic

open Foundation AtomicAssetState StateCall AtomicConsensusStateDelta Change List Finmap

variable {delta : AtomicConsensusStateDelta} {forward : Bool} {ws : List Write} {c : Content}

namespace Content

section Components

variable (c : Content) (forward : Bool)

theorem putAll_append (vs ws : List Write) : c.putAll (vs ++ ws) = (c.putAll vs).putAll ws :=
  foldl_append

theorem putAll_nonces (cs : List (Change AtomicNonceKey ℕ)) :
    c.putAll (cs.map fun d => .nonce d.key (d.value forward)) =
      { c with nonce := updateAll c.nonce (cs.map (row forward)) } := by
  induction cs generalizing c with
  | nil => rfl
  | cons d cs ih => exact ih _

theorem putAll_assets (cs : List (Change Bytes32 AtomicAssetState)) :
    c.putAll (cs.map fun d => .asset d.key (d.value forward)) =
      { c with ledger := c.ledger.writeAll vaultOutpoint (cs.map (row forward)) } := by
  induction cs generalizing c with
  | nil => rfl
  | cons d cs ih => exact ih _

theorem putAll_balances (cs : List (Change AtomicBalanceKey ℕ)) :
    c.putAll (cs.map fun d => .balance d.key (d.value forward)) =
      { c with balance := updateAll c.balance (cs.map (row forward)) } := by
  induction cs generalizing c with
  | nil => rfl
  | cons d cs ih => exact ih _

theorem putAll_anchors (cs : List (Change Bytes32 ℕ)) :
    c.putAll (cs.map fun d => .anchor d.key (d.value forward)) =
      { c with anchor := updateAll c.anchor (cs.map (row forward)) } := by
  induction cs generalizing c with
  | nil => rfl
  | cons d cs ih => exact ih _

theorem putAll_writes (delta : AtomicConsensusStateDelta) : c.putAll (delta.writes forward) =
      { nonce := updateAll c.nonce (delta.nonceChanges.map (row forward))
        ledger := c.ledger.writeAll vaultOutpoint (delta.assetChanges.map (row forward))
        balance := updateAll c.balance (delta.balanceChanges.map (row forward))
        anchor := updateAll c.anchor (delta.anchorCountChanges.map (row forward)) } := by
  rw [writes, putAll_append, putAll_append, putAll_append,
    putAll_nonces, putAll_assets, putAll_balances, putAll_anchors]

end Components

section Exclusiveness

theorem exclusiveAll_append (c : Content) (vs ws : List Write) :
    c.ExclusiveAll (vs ++ ws) ↔ c.ExclusiveAll vs ∧ (c.putAll vs).ExclusiveAll ws := by
  induction vs generalizing c with
  | nil => simp [ExclusiveAll, putAll]
  | cons v vs ih =>
    simp only [cons_append, ExclusiveAll, ih, and_assoc]
    rfl

theorem exclusiveAll_of_plain (h : ∀ w ∈ ws, ∀ d : Content, w.Exclusive d) : c.ExclusiveAll ws := by
  induction ws generalizing c with
  | nil => trivial
  | cons w ws ih =>
    exact ⟨h w mem_cons_self c, ih fun v hv => h v (mem_cons_of_mem _ hv)⟩

theorem exclusiveAll_assets {cs : List (Change Bytes32 AtomicAssetState)}
    (h : Indexed.ExclusiveAll vaultOutpoint c.ledger (cs.map (row forward))) :
    c.ExclusiveAll (cs.map fun d => .asset d.key (d.value forward)) := by
  induction cs generalizing c with
  | nil => trivial
  | cons d cs ih => exact ⟨h.1, ih h.2⟩

theorem exclusiveAll_writes (h : Indexed.ExclusiveAll vaultOutpoint c.ledger
      (delta.assetChanges.map (row forward))) :
    c.ExclusiveAll (delta.writes forward) := by
  rw [writes, exclusiveAll_append, exclusiveAll_append, exclusiveAll_append]
  refine ⟨?_, exclusiveAll_assets ?_, ?_, ?_⟩
  · exact exclusiveAll_of_plain (by simp [Write.Exclusive])
  · rwa [putAll_nonces]
  · exact exclusiveAll_of_plain (by simp [Write.Exclusive])
  · exact exclusiveAll_of_plain (by simp [Write.Exclusive])

end Exclusiveness

end Content

namespace AtomicConsensusStateDeltaBuilder

variable (b : AtomicConsensusStateDeltaBuilder)

def size : ℕ :=
  b.nonces.size + b.assets.size + b.balances.size + b.anchorCounts.size

theorem size_record_le (c : Content) (w : Write) : (b.record c w).size ≤ b.size + 1 := by
  cases w with
  | nonce key value =>
    have h := size_recordDelta_le b.nonces key (c.nonce key) value
    simp only [record, size]
    omega
  | asset assetId value =>
    have h := size_recordDelta_le b.assets assetId (c.ledger.table assetId) value
    simp only [record, size]
    omega
  | balance key value =>
    have h := size_recordDelta_le b.balances key (c.balance key) value
    simp only [record, size]
    omega
  | anchor ownerId value =>
    have h := size_recordDelta_le b.anchorCounts ownerId (c.anchor ownerId) value
    simp only [record, size]
    omega

theorem length_writes (forward : Bool) : (b.intoDelta.writes forward).length = b.size := by
  simp only [writes, intoDelta, length_append, length_map, length_changesOf, size]
  omega

theorem Tracks.writes_consistent {b : AtomicConsensusStateDeltaBuilder} {d : Content}
    (h : Tracks b c d) (hc : c.Consistent) (hd : d.Consistent) (forward : Bool) :
    ∀ w ∈ b.intoDelta.writes forward, w.Consistent := by
  intro w hw
  simp only [writes, mem_append, mem_map] at hw
  rcases hw with ⟨x, -, rfl⟩ | ⟨x, hx, rfl⟩ | ⟨x, -, rfl⟩ | ⟨x, -, rfl⟩
  · trivial
  · obtain ⟨hold, hnew⟩ := h.assets.change hx
    cases hv : x.value forward with
    | none => trivial
    | some asset =>
      cases forward with
      | true => exact hd x.key asset (hnew.symm.trans hv)
      | false => exact hc x.key asset (hold.symm.trans hv)
  · trivial
  · trivial

section Replay

variable {b : AtomicConsensusStateDeltaBuilder} {c d : Content}

theorem Tracks.putAll_forward (h : Tracks b c d) : c.putAll (b.intoDelta.writes true) = d ↔
      c.ledger.writeAll vaultOutpoint (b.intoDelta.assetChanges.map (row true)) = d.ledger := by
  rw [Content.putAll_writes]
  constructor
  · intro heq
    exact congrArg Content.ledger heq
  · intro hledger
    exact Content.ext h.nonces.replays_forward.updateAll_eq hledger
      h.balances.replays_forward.updateAll_eq h.anchors.replays_forward.updateAll_eq

theorem Tracks.putAll_back (h : Tracks b c d) : d.putAll (b.intoDelta.writes false) = c ↔
      d.ledger.writeAll vaultOutpoint (b.intoDelta.assetChanges.map (row false)) = c.ledger := by
  rw [Content.putAll_writes]
  constructor
  · intro heq
    exact congrArg Content.ledger heq
  · intro hledger
    exact Content.ext h.nonces.replays_back.updateAll_eq hledger
      h.balances.replays_back.updateAll_eq h.anchors.replays_back.updateAll_eq

theorem Tracks.replay_iff (h : Tracks b c d) (hc : c.Coherent) (hd : d.Coherent) :
    c.putAll (b.intoDelta.writes true) = d ∧ d.putAll (b.intoDelta.writes false) = c ↔
      Indexed.NoHandover vaultOutpoint c.ledger d.ledger := by
  rw [h.putAll_forward, h.putAll_back]
  exact Indexed.replay_iff hc hd h.assets.replays_forward h.assets.replays_back
    (changeRows_sorted _ _) (changeRows_sorted _ _)

theorem Tracks.exclusive_forward (h : Tracks b c d) (hd : d.Coherent)
    (hno : Indexed.NoHandover vaultOutpoint c.ledger d.ledger) :
    c.ExclusiveAll (b.intoDelta.writes true) :=
  Content.exclusiveAll_writes (Indexed.exclusiveAll_of_replays hd hno h.assets.replays_forward)

theorem Tracks.exclusive_back (h : Tracks b c d) (hc : c.Coherent)
    (hno : Indexed.NoHandover vaultOutpoint c.ledger d.ledger) :
    d.ExclusiveAll (b.intoDelta.writes false) :=
  Content.exclusiveAll_writes (Indexed.exclusiveAll_of_replays hc hno.symm h.assets.replays_back)

end Replay
end AtomicConsensusStateDeltaBuilder

namespace AtomicConsensusState

section Soundness

variable (blake2b : Blake2b)

/-- What the code keeps true of every state. The store bound leaves room for `n`
more entries in the 64-bit counters. -/
structure Sound (s : AtomicConsensusState) (n : ℕ) : Prop where
  coherent : s.content.Coherent
  consistent : s.content.Consistent
  root : s.RootMaintained blake2b
  fit : s.currentStore.isSome → s.EntriesFit n

variable {blake2b}
variable {s : AtomicConsensusState}

theorem Sound.mono {m n : ℕ} (h : s.Sound blake2b n) (hmn : m ≤ n) : s.Sound blake2b m :=
  ⟨h.coherent, h.consistent, h.root, fun hs => (h.fit hs).mono hmn⟩

theorem Sound.put {n : ℕ} (h : s.Sound blake2b (n + 1)) {w : Write}
    (hw : w.Consistent) (hexcl : w.Exclusive s.content) : (s.put blake2b w).Sound blake2b n := by
  have hcontent := s.content_put blake2b h.consistent w
  refine ⟨?_, ?_, ?_, ?_⟩
  · rw [hcontent]
    exact h.coherent.put hexcl
  · rw [hcontent]
    exact h.consistent.put hw
  · exact h.root.put blake2b (fun hs => (h.fit hs).mono (Nat.zero_le _)) w
  · rw [currentStore_put]
    exact fun hs => (h.fit hs).put blake2b w

theorem Sound.putAll {n : ℕ} (h : s.Sound blake2b (ws.length + n)) (hws : ∀ w ∈ ws, w.Consistent)
    (hexcl : s.content.ExclusiveAll ws) :
    AcceptsAll blake2b s ws ∧ (s.putAll blake2b ws).Sound blake2b n := by
  induction ws generalizing s with
  | nil => exact ⟨trivial, h.mono (by simp)⟩
  | cons w ws ih =>
    have hw : w.Consistent := hws w mem_cons_self
    have hcontent := s.content_put blake2b h.consistent w
    have hnext : (s.put blake2b w).Sound blake2b (ws.length + n) :=
      (h.mono (by simp only [length_cons]; omega)).put hw hexcl.1
    obtain ⟨hacc, hsound⟩ := ih hnext (fun v hv => hws v (mem_cons_of_mem _ hv))
      (by rw [hcontent]; exact hexcl.2)
    exact ⟨⟨accepts_of_exclusive h.coherent h.consistent hw hexcl.1, hacc⟩, hsound⟩

theorem content_putAll (hcons : s.content.Consistent)
    (hws : ∀ w ∈ ws, w.Consistent) : (s.putAll blake2b ws).content = s.content.putAll ws := by
  induction ws generalizing s with
  | nil => rfl
  | cons w ws ih =>
    have hcontent := s.content_put blake2b hcons w
    have hnext : (s.put blake2b w).content.Consistent := by
      rw [hcontent]
      exact hcons.put (hws w mem_cons_self)
    have h := ih hnext fun v hv => hws v (mem_cons_of_mem _ hv)
    rw [hcontent] at h
    exact h

theorem storedRoot_putAll (hmem : s.currentStore = none)
    (ws : List Write) : (s.putAll blake2b ws).storedRoot = s.storedRoot := by
  induction ws generalizing s with
  | nil => rfl
  | cons w ws ih =>
    have hput : (s.put blake2b w).storedRoot = s.storedRoot := by
      have hbacked : s.isDiskBacked = false := by simp [isDiskBacked, hmem]
      cases w <;> simp [AtomicConsensusState.put, setNonceValueWithoutDelta, withAsset,
        setBalanceValueWithoutDelta, setAnchorCountValueWithoutDelta, hbacked]
    exact (ih (by rw [currentStore_put]; exact hmem)).trans hput

end Soundness

section SameState

variable (blake2b : Blake2b)

/-- Equal content, vault index included, and equal state hash. -/
structure SameState (s t : AtomicConsensusState) : Prop where
  content : s.content = t.content
  hash : s.canonicalHash blake2b = t.canonicalHash blake2b

theorem mapsEmpty_congr {s t : AtomicConsensusState} (hs : s.currentStore = none)
    (ht : t.currentStore = none) (h : s.content = t.content) : s.MapsEmpty ↔ t.MapsEmpty := by
  have hmaps := SameMaps.of_content h
  have hnonces : s.nextNonces.live = t.nextNonces.live := by
    apply ext_lookup
    intro k
    rw [← nonceOption_in_memory hs, ← nonceOption_in_memory ht, hmaps.nonces]
  have hassets : s.assets.live = t.assets.live := by
    apply ext_lookup
    intro k
    rw [← assetOption_in_memory hs, ← assetOption_in_memory ht, hmaps.assets]
  have hbalances : s.balances.live = t.balances.live := by
    apply ext_lookup
    intro k
    rw [← balanceOption_in_memory hs, ← balanceOption_in_memory ht, hmaps.balances]
  have hanchors : s.anchorCounts.live = t.anchorCounts.live := by
    apply ext_lookup
    intro k
    rw [← anchorCountOption_in_memory hs, ← anchorCountOption_in_memory ht, hmaps.anchors]
  rw [MapsEmpty, MapsEmpty, hnonces, hassets, hbalances, hanchors]

/-- States of one backing with equal content have equal hashes, as long as both keep
their accumulator in order. -/
theorem SameState.of_content {s t : AtomicConsensusState}
    (hstore : s.currentStore = t.currentStore) (hs : s.RootMaintained blake2b)
    (ht : t.RootMaintained blake2b) (hroot : s.currentStore = none → s.storedRoot = t.storedRoot)
    (h : s.content = t.content) : SameState blake2b s t := by
  refine ⟨h, congrArg (AtomicConsensusRootAccumulator.hash blake2b) ?_⟩
  cases hcase : s.currentStore with
  | some =>
    have hsome : s.currentStore.isSome := by simp [hcase]
    rw [rootAccumulator_of_store blake2b hsome hs,
      rootAccumulator_of_store blake2b (hstore ▸ hsome) ht, logicalRoot_congr blake2b (.of_content h)]
  | none =>
    have hnone : t.currentStore = none := hstore ▸ hcase
    by_cases hempty : s.MapsEmpty
    · rw [rootAccumulator_of_mapsEmpty blake2b hempty,
        rootAccumulator_of_mapsEmpty blake2b ((mapsEmpty_congr hcase hnone h).mp hempty),
        hroot hcase]
    · rw [rootAccumulator_of_not_mapsEmpty blake2b hcase hempty,
        rootAccumulator_of_not_mapsEmpty blake2b hnone
          (mt (mapsEmpty_congr hcase hnone h).mpr hempty),
        logicalRoot_congr blake2b (.of_content h)]

end SameState

section Runs

variable {blake2b : Blake2b}
variable {s : AtomicConsensusState} {n : ℕ}

theorem Sound.retrack (h : s.Sound blake2b n)
    (deltaTracking : Bool) (dirtyDelta : AtomicConsensusStateDeltaBuilder) :
    ({ s with deltaTracking, dirtyDelta } : AtomicConsensusState).Sound blake2b n where
  coherent := h.coherent
  consistent := h.consistent
  root := h.root
  fit hs := by
    obtain ⟨hn, ha, hb, hc⟩ := h.fit hs
    exact ⟨hn, ha, hb, hc⟩

theorem Sound.recorded (h : s.Sound blake2b n) (w : Write) : (s.recorded w).Sound blake2b n := by
  unfold AtomicConsensusState.recorded
  split
  · exact h.retrack _ _
  · exact h

/-- What is known after some setters have run from `S` with tracking on. -/
structure Tracked (blake2b : Blake2b) (S s : AtomicConsensusState) (n : ℕ) : Prop where
  sound : s.Sound blake2b n
  tracking : s.deltaTracking = true
  tracks : s.dirtyDelta.Tracks S.content s.content
  store : s.currentStore = S.currentStore
  root : S.currentStore = none → s.storedRoot = S.storedRoot

/-- The part of it that the record of the changes depends on. -/
structure Records (S s : AtomicConsensusState) : Prop where
  tracking : s.deltaTracking = true
  consistent : s.content.Consistent
  tracks : s.dirtyDelta.Tracks S.content s.content

theorem Records.call {S s t : AtomicConsensusState} (h : Records S s) {call : StateCall}
    (hcons : call.write.Consistent) (hrun : (call.run blake2b).run s = .ok () t) :
    Records S t ∧ t.content = s.content.put call.write ∧
      t.dirtyDelta = s.dirtyDelta.record s.content call.write := by
  obtain ⟨-, rfl⟩ := (run_call_eq_ok blake2b).mp hrun
  have hcontent : ((s.recorded call.write).put blake2b call.write).content =
      s.content.put call.write := by
    rw [content_put blake2b _ (by rw [content_recorded]; exact h.consistent), content_recorded]
  have hrecorded : s.recorded call.write =
      { s with dirtyDelta := s.dirtyDelta.record s.content call.write } := by
    rw [recorded, if_pos h.tracking]
  have hdelta : ((s.recorded call.write).put blake2b call.write).dirtyDelta =
      s.dirtyDelta.record s.content call.write := by
    rw [dirtyDelta_put, hrecorded]
  refine ⟨⟨?_, ?_, ?_⟩, hcontent, hdelta⟩
  · rw [deltaTracking_put, hrecorded]
    exact h.tracking
  · rw [hcontent]
    exact h.consistent.put hcons
  · rw [hcontent, hdelta]
    exact h.tracks.record call.write

theorem Records.runAll {S s t : AtomicConsensusState} {calls : List StateCall} (h : Records S s)
    (hcons : ∀ call ∈ calls, call.write.Consistent)
    (hrun : (StateCall.runAll blake2b calls).run s = .ok () t) : Records S t := by
  induction calls generalizing s with
  | nil =>
    simp only [StateCall.runAll, run_pure, EStateM.Result.ok.injEq, true_and] at hrun
    exact hrun ▸ h
  | cons call calls ih =>
    simp only [StateCall.runAll, run_bind_eq_ok] at hrun
    obtain ⟨_, m, hcall, hrest⟩ := hrun
    rw [forall_mem_cons] at hcons
    exact ih (h.call hcons.1 hcall).1 hcons.2 hrest

theorem Tracked.call {S s t : AtomicConsensusState} (h : Tracked blake2b S s (n + 1))
    {call : StateCall} (hcons : call.write.Consistent)
    (hdisk : S.currentStore.isSome → call.write.Exclusive s.content)
    (hrun : (call.run blake2b).run s = .ok () t) :
    Tracked blake2b S t n ∧ t.content = s.content.put call.write ∧
      t.dirtyDelta.size ≤ s.dirtyDelta.size + 1 := by
  have hrecords : Records S s := ⟨h.tracking, h.sound.consistent, h.tracks⟩
  obtain ⟨ht, hcontent, hdelta⟩ := hrecords.call hcons hrun
  obtain ⟨hacc, rfl⟩ := (run_call_eq_ok blake2b).mp hrun
  have hexcl : call.write.Exclusive s.content := by
    cases hcase : S.currentStore with
    | some => exact hdisk (by simp [hcase])
    | none =>
      exact exclusive_of_accepts (h.store.trans hcase) h.sound.coherent h.sound.consistent hacc
  have hrecorded : s.recorded call.write =
      { s with dirtyDelta := s.dirtyDelta.record s.content call.write } := by
    rw [recorded, if_pos h.tracking]
  refine ⟨⟨?_, ht.tracking, ht.tracks, ?_, ?_⟩, hcontent, ?_⟩
  · exact (h.sound.recorded call.write).put hcons (by rw [content_recorded]; exact hexcl)
  · rw [currentStore_put, hrecorded]
    exact h.store
  · intro hmem
    have hnone : (s.recorded call.write).currentStore = none := by
      rw [hrecorded]
      exact h.store.trans hmem
    have hroot : ((s.recorded call.write).putAll blake2b [call.write]).storedRoot = _ :=
      storedRoot_putAll hnone _
    exact hroot.trans (by rw [hrecorded]; exact h.root hmem)
  · rw [hdelta]
    exact s.dirtyDelta.size_record_le s.content call.write

theorem Tracked.runAll {S s t : AtomicConsensusState} {calls : List StateCall}
    (h : Tracked blake2b S s (calls.length + n)) (hcons : ∀ call ∈ calls, call.write.Consistent)
    (hdisk : S.currentStore.isSome → s.content.ExclusiveAll (calls.map StateCall.write))
    (hrun : (StateCall.runAll blake2b calls).run s = .ok () t) :
    Tracked blake2b S t n ∧ t.content = s.content.putAll (calls.map StateCall.write) ∧
      t.dirtyDelta.size ≤ s.dirtyDelta.size + calls.length := by
  induction calls generalizing s with
  | nil =>
    simp only [StateCall.runAll, run_pure, EStateM.Result.ok.injEq, true_and] at hrun
    subst hrun
    have hn : Tracked blake2b S s n := by simpa using h
    exact ⟨hn, rfl, by simp⟩
  | cons call calls ih =>
    simp only [StateCall.runAll, run_bind_eq_ok] at hrun
    obtain ⟨u, m, hcall, hrest⟩ := hrun
    have hroom : Tracked blake2b S s ((calls.length + n) + 1) := by
      have hlen : (call :: calls).length + n = (calls.length + n) + 1 := by
        simp only [length_cons]
        omega
      rwa [hlen] at h
    obtain ⟨hm, hcontent, hsize⟩ := hroom.call (hcons call mem_cons_self)
      (fun hs => (hdisk hs).1) hcall
    obtain ⟨ht, hfinal, hgrow⟩ := ih hm (fun c hc => hcons c (mem_cons_of_mem _ hc))
      (fun hs => by rw [hcontent]; exact (hdisk hs).2) hrest
    refine ⟨ht, ?_, ?_⟩
    · rw [hfinal, hcontent]
      rfl
    · simp only [length_cons]
      omega

theorem applyDelta_sound (h : s.Sound blake2b ((delta.writes forward).length + n))
    (hcons : ∀ w ∈ delta.writes forward, w.Consistent)
    (hexcl : s.content.ExclusiveAll (delta.writes forward)) :
    ∃ t, (applyDelta blake2b delta forward).run s = .ok () t ∧ t.Sound blake2b n ∧
      t.content = s.content.putAll (delta.writes forward) ∧ t.currentStore = s.currentStore ∧
      (s.currentStore = none → t.storedRoot = s.storedRoot) := by
  have hs : s.suspended.Sound blake2b ((delta.writes forward).length + n) := h.retrack _ _
  obtain ⟨hacc, hsound⟩ := hs.putAll hcons hexcl
  refine ⟨_, (applyDelta_eq_ok blake2b).mpr ⟨hacc, rfl⟩, hsound.retrack _ _, ?_, ?_, ?_⟩
  · exact content_putAll (s := s.suspended) h.consistent hcons
  · exact currentStore_putAll blake2b s.suspended _
  · intro hmem
    exact storedRoot_putAll (s := s.suspended) hmem _

theorem content_of_applyDelta {s t : AtomicConsensusState} (hs : s.content.Consistent)
    (hcons : ∀ w ∈ delta.writes forward, w.Consistent)
    (hrun : (applyDelta blake2b delta forward).run s = .ok () t) :
    t.content = s.content.putAll (delta.writes forward) := by
  obtain ⟨-, rfl⟩ := (applyDelta_eq_ok blake2b).mp hrun
  exact content_putAll (s := s.suspended) hs hcons

end Runs

section Main

variable (blake2b : Blake2b)

/-- The delta leads from the state before to the state after. -/
def ForwardReaches (delta : AtomicConsensusStateDelta) (S T : AtomicConsensusState) : Prop :=
  ∃ T', (applyDeltaForward blake2b delta).run S = .ok () T' ∧ SameState blake2b T' T

/-- The delta leads back. -/
def RollbackReaches (delta : AtomicConsensusStateDelta) (T S : AtomicConsensusState) : Prop :=
  ∃ S', (applyDeltaRollback blake2b delta).run T = .ok () S' ∧ SameState blake2b S' S

/-- Some outpoint is the vault of one asset before the calls and of another after them. -/
def CallsHandOver (S : AtomicConsensusState) (calls : List StateCall) : Prop :=
  ∃ o a b, a ≠ b ∧ S.content.ledger.slotOf vaultOutpoint a = some o ∧
    (S.content.putAll (calls.map write)).ledger.slotOf vaultOutpoint b = some o

theorem noHandover_iff (S : AtomicConsensusState) (calls : List StateCall) :
    Indexed.NoHandover vaultOutpoint S.content.ledger
        (S.content.putAll (calls.map write)).ledger ↔ ¬CallsHandOver S calls := by
  unfold Indexed.NoHandover CallsHandOver
  constructor
  · rintro h ⟨o, a, b, hab, ha, hb⟩
    exact hab (h o a b ha hb)
  · intro h o a b ha hb
    by_contra hab
    exact h ⟨o, a, b, hab, ha, hb⟩

/-- A tracked delta leads from the state before the calls to the state after them and
back exactly when the calls hand no vault outpoint from one asset to another. Over a
store, callers never write a pool at an outpoint that another pool occupies. -/
theorem delta_replays_iff {S T : AtomicConsensusState} {calls : List StateCall}
    (hS : S.Sound blake2b (3 * calls.length)) (hcons : ∀ call ∈ calls, call.write.Consistent)
    (hdisk : S.currentStore.isSome → S.content.ExclusiveAll (calls.map write))
    (hrun : (runAll blake2b calls).run S.beginDeltaTracking = .ok () T) :
    ForwardReaches blake2b T.takeDelta.1 S T.takeDelta.2 ∧
        RollbackReaches blake2b T.takeDelta.1 T.takeDelta.2 S ↔
      ¬CallsHandOver S calls := by
  have hstart : Tracked blake2b S S.beginDeltaTracking (calls.length + 2 * calls.length) :=
    { sound := (hS.mono (by omega)).retrack _ _
      tracking := rfl
      tracks := .default S.content
      store := rfl
      root := fun _ => rfl }
  obtain ⟨hT, hcontent, hsize⟩ := hstart.runAll hcons hdisk hrun
  have hlength : ∀ forward, (T.takeDelta.1.writes forward).length ≤ calls.length := by
    intro forward
    have hlen : (T.takeDelta.1.writes forward).length = T.dirtyDelta.size :=
      T.dirtyDelta.length_writes forward
    have hzero : S.beginDeltaTracking.dirtyDelta.size = 0 := rfl
    omega
  have hwrites : ∀ forward, ∀ w ∈ T.takeDelta.1.writes forward, w.Consistent :=
    hT.tracks.writes_consistent hS.consistent hT.sound.consistent
  have hiff := hT.tracks.replay_iff hS.coherent hT.sound.coherent
  rw [← noHandover_iff]
  have hledger : (S.content.putAll (calls.map write)).ledger = T.content.ledger :=
    congrArg Content.ledger hcontent.symm
  rw [hledger]
  constructor
  · rintro ⟨⟨T', hforward, hsameT⟩, ⟨S', hback, hsameS⟩⟩
    apply hiff.mp
    constructor
    · exact (content_of_applyDelta hS.consistent (hwrites true) hforward).symm.trans hsameT.content
    · exact (content_of_applyDelta (s := T.takeDelta.2) hT.sound.consistent (hwrites false)
        hback).symm.trans hsameS.content
  · intro hno
    obtain ⟨hforward, hback⟩ := hiff.mpr hno
    constructor
    · obtain ⟨T', hrunF, hsound, hc, hstore, hroot⟩ := applyDelta_sound (n := 0)
        (hS.mono (by have := hlength true; omega)) (hwrites true)
        (hT.tracks.exclusive_forward hT.sound.coherent hno)
      refine ⟨T', hrunF, .of_content blake2b ?_ hsound.root (hT.sound.retrack _ _).root ?_ ?_⟩
      · exact hstore.trans hT.store.symm
      · intro hmem
        have hmemS : S.currentStore = none := hstore.symm.trans hmem
        exact (hroot hmemS).trans (hT.root hmemS).symm
      · exact hc.trans hforward
    · obtain ⟨S', hrunB, hsound, hc, hstore, hroot⟩ := applyDelta_sound (n := 0)
        (s := T.takeDelta.2)
        ((hT.sound.mono (by have := hlength false; omega)).retrack _ _) (hwrites false)
        (hT.tracks.exclusive_back hS.coherent hno)
      refine ⟨S', hrunB, .of_content blake2b ?_ hsound.root hS.root ?_ ?_⟩
      · exact hstore.trans hT.store
      · intro hmem
        have hmemT : T.currentStore = none := hstore.symm.trans hmem
        exact (hroot hmemT).trans (hT.root (hT.store.symm.trans hmemT))
      · exact hc.trans hback

end Main

section Samples

/-- A hash that forgets its input, for evaluating the model. -/
def zeroHash : Blake2b := fun _ => zero32

variable (outpoint : TransactionOutpoint)

def poolAt : AtomicLiquidityPoolState :=
  { poolNonce := 1, curveVersion := 1, curveMode := 0
    individualVirtualCpayReservesSompi := 0, individualVirtualTokenMultiplierBps := 0
    realCpayReservesSompi := 100000000, realTokenReserves := 1000000
    virtualCpayReservesSompi := 250000000000000, virtualTokenReserves := 1200000
    unclaimedFeeTotalSompi := 0, feeBps := 0, feeRecipients := [], vaultOutpoint := outpoint
    vaultValueSompi := 100000000, unlockTargetSompi := 0, unlocked := true }

/-- A freshly created pool nobody has bought from. -/
def liquidityAssetAt : AtomicAssetState :=
  { creatorOwnerId := zero32, assetClass := .liquidity, tokenVersion := 1
    mintAuthorityOwnerId := zero32, decimals := 0, supplyMode := .capped
    maxSupply := 1000000, totalSupply := 0, name := [], symbol := [], metadata := []
    platformTag := [], createdBlockHash := none, createdDaaScore := none, createdAt := none
    liquidity := some (poolAt outpoint) }

def sampleId (n : UInt8) : Bytes32 := Bytes.fill 32 n
def sampleOutpoint (n : UInt8) : TransactionOutpoint := ⟨Bytes.fill 32 n, 0⟩

/-- One pool, living at the first outpoint. -/
def onePoolState : AtomicConsensusState :=
  default.withAsset zeroHash (sampleId 1) (some (liquidityAssetAt (sampleOutpoint 7)))

/-- The pool moves on and a second one takes its place. -/
def handoverCalls : List StateCall := [.setAsset (sampleId 1) (liquidityAssetAt (sampleOutpoint 8)),
    .setAsset (sampleId 2) (liquidityAssetAt (sampleOutpoint 7))]

/-- Both calls succeed, but their delta cannot be rolled back: restoring the first pool
finds its outpoint still listed for the second. -/
theorem handover_not_rolled_back :
    ∃ T, (runAll zeroHash handoverCalls).run onePoolState.beginDeltaTracking = .ok () T ∧
      ¬RollbackReaches zeroHash T.takeDelta.1 T.takeDelta.2 onePoolState := by
  refine ⟨_, eq_ok_of_succeeded (by decide +kernel), ?_⟩
  rintro ⟨S', hrun, -⟩
  exact ne_ok_of_not_succeeded (by decide +kernel) () S' hrun

theorem sound_default (blake2b : Blake2b) (n : ℕ) : default.Sound blake2b n where
  coherent := by
    intro o k
    simp [content, default, vaultOption, assetOption, Indexed.slotOf, Overlay.read_empty]
  consistent := by
    intro assetId asset h
    simp [content, default, assetOption, Overlay.read_empty] at h
  root := by
    intro h
    cases h
  fit := by
    intro h
    cases h

/-- A pool is created, tokens are bought from it, and it moves. -/
def movingCalls : List StateCall :=
  [.setNextNonce (.owner (sampleId 3)) 2, .setAsset (sampleId 1) (liquidityAssetAt (sampleOutpoint 7)),
    .setBalance ⟨sampleId 1, sampleId 3⟩ 5, .setAsset (sampleId 1) (liquidityAssetAt (sampleOutpoint 8))]

theorem liquidityAssetAt_consistent : (liquidityAssetAt outpoint).ClassConsistent := by
  simp [AtomicAssetState.ClassConsistent, liquidityAssetAt]

theorem moving_pool_replays :
    ∃ T, (runAll zeroHash movingCalls).run default.beginDeltaTracking = .ok () T ∧
      ForwardReaches zeroHash T.takeDelta.1 default T.takeDelta.2 ∧
        RollbackReaches zeroHash T.takeDelta.1 T.takeDelta.2 default := by
  have hrun := eq_ok_of_succeeded (r := (runAll zeroHash movingCalls).run
    default.beginDeltaTracking) (by decide +kernel)
  have hcons : ∀ call ∈ movingCalls, call.write.Consistent := by
    intro call hcall
    simp only [movingCalls, mem_cons, not_mem_nil, or_false] at hcall
    rcases hcall with rfl | rfl | rfl | rfl
    · trivial
    · exact liquidityAssetAt_consistent _
    · trivial
    · exact liquidityAssetAt_consistent _
  have hfresh : ¬CallsHandOver default movingCalls := by
    rintro ⟨o, a, b, -, ha, -⟩
    simp [content, default, assetOption, Indexed.slotOf] at ha
  have hreplay := delta_replays_iff zeroHash (sound_default zeroHash _) hcons (by simp [default]) hrun
  exact ⟨_, hrun, hreplay.mpr hfresh⟩

end Samples
end AtomicConsensusState
end CryptixAtomic
