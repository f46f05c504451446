import CryptixAtomic.State.Commitment

/-!
# Delta tracking and replay

While tracking is on, every setter records the value it replaces. The tracked delta of a run
is applied forwards to the state before it, and backwards to the state after it. Asset changes
are replayed in the order of asset ids, so that an outpoint which passes from one pool to
another is claimed too early in one of the two directions.
-/
namespace CryptixAtomic

open Foundation Content List Function

/-- A call of one of the four public setters. -/
inductive StateCall
  | setAsset (assetId : Bytes32) (asset : AtomicAssetState)
  | setBalance (key : AtomicBalanceKey) (amount : ℕ)
  | setNextNonce (key : AtomicNonceKey) (nonce : ℕ)
  | setAnchorCount (ownerId : Bytes32) (count : ℕ)

namespace StateCall

def write : StateCall → Write
  | setAsset assetId asset => .asset assetId (some asset)
  | setBalance key amount => .balance key (AtomicConsensusState.nonZero amount)
  | setNextNonce key nonce => .nonce key (some nonce)
  | setAnchorCount ownerId count => .anchor ownerId (AtomicConsensusState.nonZero count)

variable (blake2b : Blake2b)

def run : StateCall → AtomicM Unit
  | setAsset assetId asset => AtomicConsensusState.setAsset blake2b assetId asset
  | setBalance key amount => modify fun s => s.setBalance blake2b key amount
  | setNextNonce key nonce => modify fun s => s.setNextNonce blake2b key nonce
  | setAnchorCount ownerId count => modify fun s => s.setAnchorCount blake2b ownerId count

def runAll : List StateCall → AtomicM Unit
  | [] => pure ()
  | call :: calls => do
    call.run blake2b
    runAll calls

end StateCall

namespace AtomicConsensusStateDeltaBuilder

/-- Record a write over the given content. -/
def record (b : AtomicConsensusStateDeltaBuilder) (c : Content) :
    Write → AtomicConsensusStateDeltaBuilder
  | .nonce key value => { b with nonces := recordDelta b.nonces key (c.nonce key) value }
  | .asset assetId value =>
    { b with assets := recordDelta b.assets assetId (c.ledger.table assetId) value }
  | .balance key value => { b with balances := recordDelta b.balances key (c.balance key) value }
  | .anchor ownerId value =>
    { b with anchorCounts := recordDelta b.anchorCounts ownerId (c.anchor ownerId) value }

/-- The builder knows every key on which two contents differ, with both values. -/
structure Tracks (b : AtomicConsensusStateDeltaBuilder) (c d : Content) : Prop where
  nonces : Foundation.Tracks b.nonces c.nonce d.nonce
  assets : Foundation.Tracks b.assets c.ledger.table d.ledger.table
  balances : Foundation.Tracks b.balances c.balance d.balance
  anchors : Foundation.Tracks b.anchorCounts c.anchor d.anchor

theorem Tracks.default (c : Content) : Tracks .default c c :=
  ⟨.empty _, .empty _, .empty _, .empty _⟩

theorem Tracks.record {b : AtomicConsensusStateDeltaBuilder} {c d : Content} (h : Tracks b c d)
    (w : Write) : Tracks (b.record d w) c (d.put w) := by
  obtain ⟨hn, ha, hb, hc⟩ := h
  cases w with
  | nonce key value =>
    refine ⟨hn.record key value ?_ ?_, ha, hb, hc⟩
    · simp [put]
    · intro j hj
      simp [put, update_of_ne hj]
  | asset assetId value =>
    refine ⟨hn, ha.record assetId value ?_ ?_, hb, hc⟩
    · simp [put, Indexed.write]
    · intro j hj
      simp [put, Indexed.write, update_of_ne hj]
  | balance key value =>
    refine ⟨hn, ha, hb.record key value ?_ ?_, hc⟩
    · simp [put]
    · intro j hj
      simp [put, update_of_ne hj]
  | anchor ownerId value =>
    refine ⟨hn, ha, hb, hc.record ownerId value ?_ ?_⟩
    · simp [put]
    · intro j hj
      simp [put, update_of_ne hj]

end AtomicConsensusStateDeltaBuilder

namespace AtomicConsensusState

section Calls

variable (blake2b : Blake2b)

def recorded (s : AtomicConsensusState) (w : Write) : AtomicConsensusState :=
  if s.deltaTracking then { s with dirtyDelta := s.dirtyDelta.record s.content w } else s

theorem accepts_recorded (s : AtomicConsensusState) (v w : Write) :
    (s.recorded v).Accepts w ↔ s.Accepts w := by
  unfold recorded
  split <;> rfl

theorem content_recorded (s : AtomicConsensusState) (w : Write) :
    (s.recorded w).content = s.content := by
  unfold recorded
  split <;> rfl

theorem run_call_eq_ok {s t : AtomicConsensusState} {call : StateCall} {u : Unit} :
    (call.run blake2b).run s = .ok u t ↔
      s.Accepts call.write ∧ (s.recorded call.write).put blake2b call.write = t := by
  cases call with
  | setAsset assetId asset =>
    rw [← accepts_recorded s (StateCall.setAsset assetId asset).write]
    simp only [StateCall.run, setAsset, run_bind_eq_ok, run_modify, EStateM.Result.ok.injEq,
      setAssetValueWithoutDelta_eq_ok]
    constructor
    · rintro ⟨_, _, ⟨-, rfl⟩, hfree, rfl⟩
      exact ⟨hfree, rfl⟩
    · rintro ⟨hfree, rfl⟩
      exact ⟨(), _, ⟨trivial, rfl⟩, hfree, rfl⟩
  | setBalance | setNextNonce | setAnchorCount =>
    simp only [StateCall.run, run_modify, EStateM.Result.ok.injEq, Accepts, StateCall.write,
      true_and]
    rfl

end Calls
end AtomicConsensusState

namespace Content

/-- The same answers to all reads but those of the vault index. -/
structure SameReads (c d : Content) : Prop where
  nonce : c.nonce = d.nonce
  table : c.ledger.table = d.ledger.table
  balance : c.balance = d.balance
  anchor : c.anchor = d.anchor

theorem SameReads.trans {b c d : Content} (h : SameReads b c) (h' : SameReads c d) :
    SameReads b d :=
  ⟨h.nonce.trans h'.nonce, h.table.trans h'.table, h.balance.trans h'.balance,
    h.anchor.trans h'.anchor⟩

theorem SameReads.put {c d : Content} (h : SameReads c d) (w : Write) :
    SameReads (c.put w) (d.put w) := by
  obtain ⟨hn, ht, hb, ha⟩ := h
  cases w <;> constructor <;> simp [Content.put, Indexed.write, hn, ht, hb, ha]

end Content

def Content.putAll (c : Content) (ws : List Write) : Content := ws.foldl put c

/-- Every write claims a vault that belongs to nobody else when its turn comes. -/
def Content.ExclusiveAll : Content → List Write → Prop
  | _, [] => True
  | c, w :: ws => w.Exclusive c ∧ Content.ExclusiveAll (c.put w) ws

theorem Content.SameReads.putAll {c d : Content} (h : SameReads c d) (ws : List Write) :
    SameReads (c.putAll ws) (d.putAll ws) := by
  induction ws generalizing c d with
  | nil => exact h
  | cons w ws ih => exact ih (h.put w)

/-- The writes of one side of a delta, in the order of its application. -/
def AtomicConsensusStateDelta.writes (delta : AtomicConsensusStateDelta) (forward : Bool) :
    List Write :=
  delta.nonceChanges.map (fun c => .nonce c.key (c.value forward)) ++
    (delta.assetChanges.map (fun c => .asset c.key (c.value forward)) ++
      (delta.balanceChanges.map (fun c => .balance c.key (c.value forward)) ++
        delta.anchorCountChanges.map (fun c => .anchor c.key (c.value forward))))

namespace AtomicConsensusState

section Sequences

variable (blake2b : Blake2b)

def putAll (s : AtomicConsensusState) (ws : List Write) : AtomicConsensusState :=
  ws.foldl (fun s w => s.put blake2b w) s

/-- Every write succeeds when its turn comes. -/
def AcceptsAll : AtomicConsensusState → List Write → Prop
  | _, [] => True
  | s, w :: ws => s.Accepts w ∧ AcceptsAll (s.put blake2b w) ws

variable {s t : AtomicConsensusState} {u : Unit}

theorem sameReads_of_runAll {calls : List StateCall}
    (h : (StateCall.runAll blake2b calls).run s = .ok u t) :
    t.content.SameReads (s.content.putAll (calls.map StateCall.write)) := by
  induction calls generalizing s with
  | nil =>
    simp only [StateCall.runAll, run_pure, EStateM.Result.ok.injEq] at h
    obtain rfl := h.2
    exact ⟨rfl, rfl, rfl, rfl⟩
  | cons call calls ih =>
    simp only [StateCall.runAll, run_bind_eq_ok, run_call_eq_ok] at h
    obtain ⟨_, _, ⟨-, rfl⟩, hrest⟩ := h
    have hput : ((s.recorded call.write).put blake2b call.write).content.SameReads
        (s.content.put call.write) := by
      rw [← content_recorded s call.write]
      exact ⟨nonceOption_put .., assetOption_put .., balanceOption_put .., anchorCountOption_put ..⟩
    exact (ih hrest).trans (hput.putAll _)

theorem acceptsAll_append (s : AtomicConsensusState) (vs ws : List Write) :
    AcceptsAll blake2b s (vs ++ ws) ↔
      AcceptsAll blake2b s vs ∧ AcceptsAll blake2b (s.putAll blake2b vs) ws := by
  induction vs generalizing s with
  | nil => simp [AcceptsAll, putAll]
  | cons v vs ih =>
    simp only [cons_append, AcceptsAll, ih, and_assoc]
    rfl

theorem acceptsAll_of_plain {s : AtomicConsensusState} {ws : List Write}
    (h : ∀ w ∈ ws, ∀ t : AtomicConsensusState, t.Accepts w) : AcceptsAll blake2b s ws := by
  induction ws generalizing s with
  | nil => trivial
  | cons w ws ih =>
    exact ⟨h w mem_cons_self s, ih fun v hv => h v (mem_cons_of_mem _ hv)⟩

theorem applyAssetChanges_eq_ok {forward : Bool} {cs : List (Change Bytes32 AtomicAssetState)} :
    (applyAssetChanges blake2b forward cs).run s = .ok u t ↔
      AcceptsAll blake2b s (cs.map fun c => .asset c.key (c.value forward)) ∧
        s.putAll blake2b (cs.map fun c => .asset c.key (c.value forward)) = t := by
  induction cs generalizing s with
  | nil => simp [applyAssetChanges, AcceptsAll, putAll]
  | cons c cs ih =>
    simp only [applyAssetChanges, run_bind_eq_ok, setAssetValueWithoutDelta_eq_ok, ih,
      map_cons, AcceptsAll]
    constructor
    · rintro ⟨_, _, ⟨hfree, rfl⟩, hrest, rfl⟩
      exact ⟨⟨hfree, hrest⟩, rfl⟩
    · rintro ⟨⟨hfree, hrest⟩, rfl⟩
      exact ⟨(), _, ⟨hfree, rfl⟩, hrest, rfl⟩

theorem putAll_append (s : AtomicConsensusState) (vs ws : List Write) :
    s.putAll blake2b (vs ++ ws) = (s.putAll blake2b vs).putAll blake2b ws :=
  foldl_append

theorem putAll_map {α : Type} (s : AtomicConsensusState) (f : α → Write) (l : List α) :
    s.putAll blake2b (l.map f) = l.foldl (fun s a => s.put blake2b (f a)) s :=
  foldl_map

@[simp] theorem currentStore_putAll (s : AtomicConsensusState) (ws : List Write) :
    (s.putAll blake2b ws).currentStore = s.currentStore := by
  induction ws generalizing s with
  | nil => rfl
  | cons w ws ih => exact (ih _).trans (currentStore_put blake2b s w)

def suspended (s : AtomicConsensusState) : AtomicConsensusState := { s with deltaTracking := false }

def resumed (s : AtomicConsensusState) (deltaTracking : Bool) : AtomicConsensusState :=
  { s with deltaTracking, dirtyDelta := if deltaTracking then .default else s.dirtyDelta }

theorem applyDelta_eq_ok {delta : AtomicConsensusStateDelta} {forward : Bool} :
    (applyDelta blake2b delta forward).run s = .ok u t ↔
      AcceptsAll blake2b s.suspended (delta.writes forward) ∧
        (s.suspended.putAll blake2b (delta.writes forward)).resumed s.deltaTracking = t := by
  simp only [applyDelta, run_bind_eq_ok, run_get, run_modify, EStateM.Result.ok.injEq,
    applyAssetChanges_eq_ok, AtomicConsensusStateDelta.writes, acceptsAll_append, putAll_append]
  have hnonces : AcceptsAll blake2b s.suspended
      (delta.nonceChanges.map fun c => .nonce c.key (c.value forward)) :=
    acceptsAll_of_plain blake2b (by simp [Accepts])
  have hbalances : ∀ m : AtomicConsensusState, AcceptsAll blake2b m
      (delta.balanceChanges.map fun c => .balance c.key (c.value forward)) :=
    fun m => acceptsAll_of_plain blake2b (by simp [Accepts])
  have hanchors : ∀ m : AtomicConsensusState, AcceptsAll blake2b m
      (delta.anchorCountChanges.map fun c => .anchor c.key (c.value forward)) :=
    fun m => acceptsAll_of_plain blake2b (by simp [Accepts])
  constructor
  · rintro ⟨_, _, ⟨rfl, rfl⟩, _, _, ⟨-, rfl⟩, _, _, ⟨-, rfl⟩, _, _, ⟨hassets, rfl⟩, _, _, ⟨-, rfl⟩,
      _, _, ⟨-, rfl⟩, -, rfl⟩
    refine ⟨⟨hnonces, ?_, hbalances _, hanchors _⟩, ?_⟩
    · rwa [putAll_map]
    · simp only [putAll_map]
      rfl
  · rintro ⟨⟨-, hassets, -⟩, rfl⟩
    rw [putAll_map] at hassets
    simp only [putAll_map]
    exact ⟨_, _, ⟨rfl, rfl⟩, (), _, ⟨trivial, rfl⟩, (), _, ⟨trivial, rfl⟩, (), _, ⟨hassets, rfl⟩,
      (), _, ⟨trivial, rfl⟩, (), _, ⟨trivial, rfl⟩, trivial, rfl⟩

end Sequences
end AtomicConsensusState
end CryptixAtomic
