import CryptixAtomic.Mempool.Removal

/-!
# Making room for a transaction

A full pool evicts ready transactions of low priority, cheapest first, until the incoming one
fits. The slots a token transaction may build on are only protected in the ready transaction
itself, which goes with all its descendants: `eviction_safe_iff` says when that is enough. The
order of the frontier, by feerates in floating point, is a parameter.
-/
namespace CryptixAtomic.Mempool

open Foundation BookedPool List Option Relation FMap

structure Config where
  maximumTransactionCount : ℕ
  mempoolSizeLimit : ℕ

/-- The traversal of a frontier by ascending feerate, and the comparison of two feerates. -/
structure FeerateOrder where
  ascending : Finset FeerateTransactionKey → List FeerateTransactionKey
  exceeds : FeerateTransactionKey → FeerateTransactionKey → Bool
  nodup : ∀ tree, (ascending tree).Nodup
  mem : ∀ tree key, key ∈ ascending tree ↔ key ∈ tree

def MutableTransaction.hasParentInSet (mtx : MutableTransaction) (ids : List Bytes32) : Bool :=
  mtx.tx.inputs.any fun input => input.previousOutpoint.transactionId ∈ ids

/-- The fee and the mass behind `calculated_feerate`, when both are set. -/
def ValidatedTransaction.feerateKey (vtx : ValidatedTransaction) : Option FeerateTransactionKey :=
  match vtx.calculatedFee with
  | none => none
  | some fee => if vtx.mass = 0 then none else some ⟨fee, vtx.mass, vtx.id⟩

namespace BookedPool

def len (pool : BookedPool) : ℕ := pool.all.keys.card

def hasRoom (config : Config) (pool : BookedPool) (transactionSize : ℕ) : Bool :=
  pool.len < config.maximumTransactionCount &&
    pool.estimatedSize + transactionSize ≤ config.mempoolSizeLimit

section Selection

variable (order : FeerateOrder) (estimate : MutableTransaction → ℕ) (pool : BookedPool)
  (vtx : ValidatedTransaction) (incoming : FeerateTransactionKey)
  (canRemove : MempoolTransaction → Except PoolError Bool)

/-- What the selection does with one ready transaction: pass over it, stop, or take it with
its size. -/
def judge (key : FeerateTransactionKey) : Except PoolError (Option ℕ) :=
  match pool.all.lookup key.id, pool.books.lookup key.id, pool.keyOf key.id with
  | some tx, some booking, some current =>
    if booking.priority ≠ .low then .ok none
    else
      match canRemove tx with
      | .error e => .error e
      | .ok false => .ok none
      | .ok true =>
        if vtx.hasParentInSet (pool.getRedeemerIdsInPool key.id ++ [key.id]) then .ok none
        else if order.exceeds current incoming then .error .rejectMempoolIsFull
        else .ok (some (estimate tx.mtx))
  | _, _, _ => .error .panicked

variable (config : Config) (transactionSize : ℕ)

def select : List FeerateTransactionKey → List Bytes32 → ℕ → Except PoolError (List Bytes32)
  | [], _, _ => .error .rejectMempoolIsFull
  | key :: keys, chosen, selectionOverallSize =>
    match judge order estimate pool vtx incoming canRemove key with
    | .error e => .error e
    | .ok none => select keys chosen selectionOverallSize
    | .ok (some size) =>
      if pool.len + 1 - (chosen ++ [key.id]).length ≤ config.maximumTransactionCount ∧
          pool.estimatedSize + transactionSize - (selectionOverallSize + size) ≤
            config.mempoolSizeLimit then
        .ok (chosen ++ [key.id])
      else select keys (chosen ++ [key.id]) (selectionOverallSize + size)

def limitTransactionCountBy : Except PoolError (List Bytes32) :=
  if pool.hasRoom config transactionSize then .ok []
  else
    match vtx.feerateKey with
    | none => .error .panicked
    | some incoming =>
      select order estimate pool vtx incoming canRemove config transactionSize
        (order.ascending pool.readyTransactions.searchTree) [] 0

def limitTransactionCount : Except PoolError (List Bytes32) :=
  limitTransactionCountBy order estimate pool vtx (fun _ => .ok true) config transactionSize

variable (blake2b : Blake2b)

/-- A transaction whose own slots do not block the incoming ones may be removed. -/
def canRemovePreservingSlots (incomingSlots : List AtomicMempoolSlot) (tx : MempoolTransaction) :
    Except PoolError Bool := do
  let existingSlots ← atomicMempoolSlots blake2b tx.mtx
  return !atomicSlotsBlockCapacityEviction incomingSlots existingSlots

def limitTransactionCountPreservingAtomicSlotOrder : Except PoolError (List Bytes32) := do
  let incomingSlots ← atomicMempoolSlots blake2b vtx.toMutableTransaction
  limitTransactionCountBy order estimate pool vtx (canRemovePreservingSlots blake2b incomingSlots)
    config transactionSize

def txsToRemove : Except PoolError (List Bytes32) :=
  if isCatTransaction vtx.tx then
    limitTransactionCountPreservingAtomicSlotOrder order estimate pool vtx config transactionSize
      blake2b
  else limitTransactionCount order estimate pool vtx config transactionSize

end Selection
end BookedPool

namespace BookedState

variable (order : FeerateOrder) (estimate : MutableTransaction → ℕ) (blake2b : Blake2b)
  (config : Config)

/-- Remove the selected transactions with their redeemers until there is room. -/
def evict (transactionSize : ℕ) : List Bytes32 → EStateM PoolError BookedState Unit
  | [] => pure ()
  | id :: ids => do
    removeTransaction estimate id true
    let m ← get
    if m.transactionPool.hasRoom config transactionSize then pure ()
    else evict transactionSize ids

/-- The part of `post_validate_and_insert_transaction` between the slot check and the
insertion. The last line is its capacity assertion. -/
def makeRoom (vtx : ValidatedTransaction) : EStateM PoolError BookedState Unit := do
  let m ← get
  let transactionSize := estimate vtx.toMutableTransaction
  let ids ← pureCheck
    (m.transactionPool.txsToRemove order estimate vtx config transactionSize blake2b)
  evict estimate config transactionSize ids
  let m ← get
  if m.transactionPool.hasRoom config transactionSize then pure () else throw .panicked

end BookedState
variable {transactionSize : ℕ} {ids : List Bytes32}

namespace BookedPool

variable {estimate : MutableTransaction → ℕ} {pool pool' : BookedPool} {config : Config}

/-- The listed transactions and everything that descends from them. -/
def ClosureOf (pool : BookedPool) (ids : List Bytes32) (k : Bytes32) : Prop :=
  ∃ id ∈ ids, k = id ∨ pool.DescendsFrom k id

/-- `pool'` stores what `pool` stores, without the transactions of `gone`. -/
structure LeftWithout (pool : BookedPool) (gone : Bytes32 → Prop) (pool' : BookedPool) : Prop where
  kept : ∀ k, ¬ gone k → pool'.mtxOf k = pool.mtxOf k
  removed : ∀ k, gone k → pool'.mtxOf k = none

def sizeAt (estimate : MutableTransaction → ℕ) (pool : BookedPool) (k : Bytes32) : ℕ :=
  (pool.mtxOf k).elim 0 estimate

open Classical in
/-- There would be room for one more transaction if those of `gone` were not there. -/
def RoomWithout (config : Config) (estimate : MutableTransaction → ℕ) (pool : BookedPool)
    (transactionSize : ℕ) (gone : Bytes32 → Prop) : Prop :=
  (pool.all.keys.filter fun k => ¬ gone k).card < config.maximumTransactionCount ∧
    ∑ k ∈ pool.all.keys.filter (fun k => ¬ gone k), pool.sizeAt estimate k + transactionSize ≤
      config.mempoolSizeLimit

theorem totalSize_eq_sum (estimate : MutableTransaction → ℕ) (pool : BookedPool) :
    pool.totalSize estimate = ∑ k ∈ pool.all.keys, pool.sizeAt estimate k := by
  apply Finset.sum_congr rfl
  intro k _
  rw [sizeAt, Pool.mtxOf]
  cases pool.all.lookup k <;> rfl

theorem LeftWithout.refl (pool : BookedPool) : LeftWithout pool (fun _ => False) pool :=
  ⟨fun _ _ => rfl, fun _ h => h.elim⟩

variable {gone gone' : Bytes32 → Prop}

theorem LeftWithout.congr (h : LeftWithout pool gone pool')
    (hiff : ∀ k, gone k ↔ gone' k) : LeftWithout pool gone' pool' where
  kept := fun k hk => h.kept k fun hgone => hk ((hiff k).mp hgone)
  removed := fun k hk => h.removed k ((hiff k).mpr hk)

theorem LeftWithout.trans {pool'' : BookedPool}
    (h : LeftWithout pool gone pool') (h' : LeftWithout pool' gone' pool'') :
    LeftWithout pool (fun k => gone k ∨ gone' k) pool'' where
  kept := by
    intro k hk
    rw [not_or] at hk
    rw [h'.kept k hk.2, h.kept k hk.1]
  removed := by
    intro k hk
    by_cases hgone' : gone' k
    · exact h'.removed k hgone'
    · rw [h'.kept k hgone', h.removed k (hk.resolve_right hgone')]

variable {gone : Bytes32 → Prop}

theorem LeftWithout.has_iff (h : LeftWithout pool gone pool')
    (k : Bytes32) : pool'.has k = true ↔ pool.has k = true ∧ ¬ gone k := by
  rw [Pool.has_iff_mtxOf, Pool.has_iff_mtxOf]
  by_cases hk : gone k
  · simp [h.removed k hk, hk]
  · simp [h.kept k hk, hk]

theorem LeftWithout.hasRoom_iff (h : LeftWithout pool gone pool')
    (hpool' : pool'.Consistent estimate) (transactionSize : ℕ) :
    pool'.hasRoom config transactionSize = true ↔
      pool.RoomWithout config estimate transactionSize gone := by
  classical
  have hkeys : pool'.all.keys = pool.all.keys.filter fun k => ¬ gone k := by
    ext k
    rw [← Pool.has_iff_mem_keys, h.has_iff, Finset.mem_filter, ← Pool.has_iff_mem_keys]
  have hsizes : ∀ k ∈ pool'.all.keys, pool'.sizeAt estimate k = pool.sizeAt estimate k := by
    intro k hk
    rw [← Pool.has_iff_mem_keys, h.has_iff] at hk
    rw [sizeAt, sizeAt, h.kept k hk.2]
  rw [hasRoom, RoomWithout, Bool.and_eq_true, decide_eq_true_eq, decide_eq_true_eq, len,
    hpool'.size, totalSize_eq_sum, Finset.sum_congr rfl hsizes, hkeys]

theorem RoomWithout.mono (h : pool.RoomWithout config estimate transactionSize gone)
    (hsub : ∀ k, gone k → gone' k) : pool.RoomWithout config estimate transactionSize gone' := by
  classical
  have hfilter : (pool.all.keys.filter fun k => ¬ gone' k) ⊆
      pool.all.keys.filter fun k => ¬ gone k :=
    Finset.monotone_filter_right _ fun k _ hk hgone => hk (hsub k hgone)
  have hcard := Finset.card_le_card hfilter
  have hsum := Finset.sum_le_sum_of_subset (f := pool.sizeAt estimate) hfilter
  unfold RoomWithout at h ⊢
  omega

/-- What is taken out directly already makes enough room; its descendants only add to it. -/
theorem roomWithout_of_chosen (h : pool.Consistent estimate)
    {chosen : List Bytes32} (hnodup : chosen.Nodup) (hpooled : ∀ id ∈ chosen, pool.has id = true)
    (hcount : pool.len + 1 - chosen.length ≤ config.maximumTransactionCount)
    (hsize : pool.estimatedSize + transactionSize - (chosen.map (pool.sizeAt estimate)).sum ≤
      config.mempoolSizeLimit) :
    pool.RoomWithout config estimate transactionSize (pool.ClosureOf chosen) := by
  classical
  have hsub : chosen.toFinset ⊆ pool.all.keys := by
    intro k hk
    exact Pool.has_iff_mem_keys.mp (hpooled k (List.mem_toFinset.mp hk))
  have hrest : (pool.all.keys.filter fun k => ¬ pool.ClosureOf chosen k) ⊆
      pool.all.keys \ chosen.toFinset := by
    intro k hk
    rw [Finset.mem_filter] at hk
    rw [Finset.mem_sdiff, List.mem_toFinset]
    exact ⟨hk.1, fun hmem => hk.2 ⟨k, hmem, .inl rfl⟩⟩
  have hcard := Finset.card_le_card hrest
  have hsum := Finset.sum_le_sum_of_subset (f := pool.sizeAt estimate) hrest
  have hcards := Finset.card_sdiff_add_card_eq_card hsub
  have hsums := Finset.sum_sdiff (f := pool.sizeAt estimate) hsub
  rw [toFinset_card_of_nodup hnodup] at hcards
  have hchosen : ∑ k ∈ chosen.toFinset, pool.sizeAt estimate k =
      (chosen.map (pool.sizeAt estimate)).sum := sum_toFinset _ hnodup
  rw [h.size, totalSize_eq_sum] at hsize
  unfold RoomWithout
  unfold len at hcount
  omega

/-- Descending from a transaction that is left means the same in the rest of the pool, when
nothing that is left descends from what is gone. -/
theorem LeftWithout.descendsFrom_iff (h : LeftWithout pool gone pool')
    (hclosed : ∀ a b, gone a → pool.DescendsFrom b a → gone b) {x : Bytes32} (hx : ¬ gone x)
    (k : Bytes32) : pool'.DescendsFrom k x ↔ pool.DescendsFrom k x ∧ ¬ gone k := by
  have hedge : ∀ b a, pool'.SpendsOutputOf b a ↔ pool.SpendsOutputOf b a ∧ ¬ gone a ∧ ¬ gone b := by
    intro b a
    unfold SpendsOutputOf
    rw [h.has_iff]
    by_cases hb : gone b
    · simp [h.removed b hb, hb]
    · rw [h.kept b hb]
      tauto
  constructor
  · intro hdescends
    constructor
    · exact TransGen.mono (fun b a hba => ((hedge b a).mp hba).1) _ _ hdescends
    · induction hdescends using TransGen.head_induction_on with
      | single hba | head hba => exact ((hedge _ _).mp hba).2.2
  · rintro ⟨hdescends, hk⟩
    induction hdescends using TransGen.head_induction_on with
    | single hba => exact .single ((hedge _ _).mpr ⟨hba, hx, hk⟩)
    | head hba hrest ih =>
      have hmid : ¬ gone _ := fun hgone => hk (hclosed _ _ hgone (.single hba))
      exact .head ((hedge _ _).mpr ⟨hba, hmid, hk⟩) (ih hmid)

theorem closureOf_closed {a b : Bytes32} (ha : pool.ClosureOf ids a)
    (hb : pool.DescendsFrom b a) : pool.ClosureOf ids b := by
  obtain ⟨id, hid, rfl | hdescends⟩ := ha
  · exact ⟨a, hid, .inr hb⟩
  · exact ⟨id, hid, .inr (hb.trans hdescends)⟩

theorem closureOf_mono {ids' : List Bytes32} (hsub : ∀ id ∈ ids, id ∈ ids') {k : Bytes32}
    (hk : pool.ClosureOf ids k) : pool.ClosureOf ids' k := by
  obtain ⟨id, hid, hclosure⟩ := hk
  exact ⟨id, hsub id hid, hclosure⟩

theorem closureOf_append (pool : BookedPool) (ids : List Bytes32) (id k : Bytes32) :
    pool.ClosureOf (ids ++ [id]) k ↔ pool.ClosureOf ids k ∨ (k = id ∨ pool.DescendsFrom k id) := by
  unfold ClosureOf
  simp

end BookedPool

namespace BookedState

/-- Both pools of the mempool are in order, and the recorded slots are those of the stored
transactions. -/
structure Sound (blake2b : Blake2b) (estimate : MutableTransaction → ℕ) (m : BookedState) :
    Prop where
  consistent : m.transactionPool.Consistent estimate
  slots : ∀ id mtx, m.transactionPool.mtxOf id = some mtx →
    atomicMempoolSlots blake2b mtx = .ok ((m.transactionPool.atomicSlotsByTx.lookup id).getD [])
  owned : m.orphanPool.Owned
  apart : ∀ id, m.orphanPool.has id = true → m.transactionPool.has id = false

end BookedState

variable {id : Bytes32}

namespace BookedPool

def RecordedSlots (blake2b : Blake2b) (pool : BookedPool) : Prop :=
  ∀ id mtx, pool.mtxOf id = some mtx →
    atomicMempoolSlots blake2b mtx = .ok ((pool.atomicSlotsByTx.lookup id).getD [])

variable (order : FeerateOrder) (pool : BookedPool) (vtx : ValidatedTransaction)
  (incomingSlots : List AtomicMempoolSlot)

/-- The stored transaction holds a slot that the incoming one may build on. -/
def blocks (id : Bytes32) : Bool :=
  atomicSlotsBlockCapacityEviction incomingSlots ((pool.atomicSlotsByTx.lookup id).getD [])

/-- A ready transaction that may be evicted: of low priority, without a blocking slot of its
own, and not among the ancestors of the incoming one. -/
def eligible (id : Bytes32) : Bool :=
  (pool.books.lookup id).any (fun booking => booking.priority = .low) &&
    !pool.blocks incomingSlots id &&
    !vtx.hasParentInSet (pool.getRedeemerIdsInPool id ++ [id])

/-- The transactions that may be evicted, cheapest first. -/
def evictionOrder : List Bytes32 :=
  ((order.ascending pool.readyTransactions.searchTree).map FeerateTransactionKey.id).filter
    (pool.eligible vtx incomingSlots)

variable {order pool vtx incomingSlots} {estimate : MutableTransaction → ℕ} {blake2b : Blake2b}
  {incoming : FeerateTransactionKey}

theorem eligible_spec (h : pool.Consistent estimate)
    (hid : pool.has id = true) (heligible : pool.eligible vtx incomingSlots id = true) :
    pool.blocks incomingSlots id = false ∧
      ∀ p, vtx.Spends p → p ≠ id ∧ ¬ pool.DescendsFrom p id := by
  rw [eligible, Bool.and_eq_true, Bool.and_eq_true, Bool.not_eq_true', Bool.not_eq_true'] at heligible
  obtain ⟨⟨-, hblocks⟩, hparents⟩ := heligible
  refine ⟨hblocks, ?_⟩
  rintro p ⟨input, hinput, rfl⟩
  have hnot := any_eq_false.mp hparents input hinput
  simp only [decide_eq_true_eq, mem_append, mem_singleton, not_or] at hnot
  rw [(h.redeemers_spec hid).2.2] at hnot
  exact ⟨hnot.2, hnot.1⟩

variable (order vtx incomingSlots incoming) in
theorem judge_cases (h : pool.Consistent estimate) (hslots : pool.RecordedSlots blake2b)
    {key : FeerateTransactionKey} (hkey : key ∈ pool.readyTransactions.searchTree) :
    judge order estimate pool vtx incoming (canRemovePreservingSlots blake2b incomingSlots) key =
        .error .rejectMempoolIsFull ∨
      judge order estimate pool vtx incoming (canRemovePreservingSlots blake2b incomingSlots) key =
        .ok (if pool.eligible vtx incomingSlots key.id then some (pool.sizeAt estimate key.id)
          else none) := by
  obtain ⟨hkeyOf, -⟩ := (h.frontier key).mp hkey
  have hhas : pool.has key.id = true := by
    rw [← h.keys, hkeyOf]
    rfl
  obtain ⟨mtx, hmtx⟩ := Pool.has_iff_mtxOf.mp hhas
  obtain ⟨tx, htx, rfl⟩ := map_eq_some_iff.mp hmtx
  obtain ⟨booking, hbooking, -⟩ := bind_eq_some_iff.mp hkeyOf
  have hcan : canRemovePreservingSlots blake2b incomingSlots tx =
      .ok (!pool.blocks incomingSlots key.id) := by
    rw [canRemovePreservingSlots, hslots key.id tx.mtx hmtx]
    rfl
  have hsize : pool.sizeAt estimate key.id = estimate tx.mtx := by
    rw [sizeAt, hmtx]
    rfl
  rw [judge, htx, hbooking, hkeyOf, hsize]
  dsimp only
  rw [hcan, eligible, hbooking, any_some]
  by_cases hlow : booking.priority = .low
  · cases hblocks : pool.blocks incomingSlots key.id with
    | true => simp [hlow]
    | false =>
      cases hparent : vtx.hasParentInSet (pool.getRedeemerIdsInPool key.id ++ [key.id]) with
      | true => simp [hlow]
      | false =>
        cases hexceeds : order.exceeds key incoming with
        | true | false => simp [hlow]
  · simp [hlow]

variable {config : Config} {transactionSize : ℕ}
variable (order vtx incomingSlots incoming config transactionSize) in
/-- A selection that succeeds takes the first transactions of the eviction order, enough of
them. -/
theorem select_spec (h : pool.Consistent estimate) (hslots : pool.RecordedSlots blake2b)
    (keys : List FeerateTransactionKey)
    (hkeys : ∀ key ∈ keys, key ∈ pool.readyTransactions.searchTree) (chosen : List Bytes32) :
    select order estimate pool vtx incoming (canRemovePreservingSlots blake2b incomingSlots) config
        transactionSize keys chosen (chosen.map (pool.sizeAt estimate)).sum =
          .error .rejectMempoolIsFull ∨
      ∃ taken rest, (keys.map FeerateTransactionKey.id).filter (pool.eligible vtx incomingSlots) =
          taken ++ rest ∧
        select order estimate pool vtx incoming (canRemovePreservingSlots blake2b incomingSlots)
          config transactionSize keys chosen (chosen.map (pool.sizeAt estimate)).sum =
            .ok (chosen ++ taken) ∧
        pool.len + 1 - (chosen ++ taken).length ≤ config.maximumTransactionCount ∧
        pool.estimatedSize + transactionSize - ((chosen ++ taken).map (pool.sizeAt estimate)).sum ≤
          config.mempoolSizeLimit := by
  induction keys generalizing chosen with
  | nil => exact .inl rfl
  | cons key keys ih =>
    have hrest : ∀ other ∈ keys, other ∈ pool.readyTransactions.searchTree :=
      fun other hother => hkeys other (mem_cons_of_mem key hother)
    rw [select, map_cons, filter_cons]
    rcases judge_cases order vtx incomingSlots incoming h hslots (hkeys key mem_cons_self)
      with hfull | hjudge
    · rw [hfull]
      exact .inl rfl
    · rw [hjudge]
      by_cases heligible : pool.eligible vtx incomingSlots key.id = true
      · rw [if_pos heligible, if_pos heligible]
        dsimp only
        have hsum : ((chosen ++ [key.id]).map (pool.sizeAt estimate)).sum =
            (chosen.map (pool.sizeAt estimate)).sum + pool.sizeAt estimate key.id := by simp
        rw [← hsum]
        split_ifs with henough
        · right
          exact ⟨[key.id], _, rfl, rfl, henough⟩
        · rcases ih hrest (chosen ++ [key.id]) with hfull | ⟨taken, rest, hfilter, hok, henough⟩
          · exact .inl hfull
          · right
            rw [append_assoc, singleton_append] at hok henough
            exact ⟨key.id :: taken, rest, by rw [hfilter]; rfl, hok, henough⟩
      · rw [if_neg heligible, if_neg heligible]
        exact ih hrest chosen

end BookedPool

namespace BookedState

variable {estimate : MutableTransaction → ℕ} {m : BookedState}

/-- Removing a pooled transaction with its redeemers takes out everything that descends from
it, and nothing else. -/
theorem removeTransaction_run (h : m.transactionPool.Consistent estimate)
    (howned : m.orphanPool.Owned) (hid : m.transactionPool.has id = true)
    (horphan : m.orphanPool.has id = false) :
    ∃ m', (removeTransaction estimate id true).run m = .ok () m' ∧
      m'.transactionPool.Consistent estimate ∧ m'.orphanPool.Owned ∧
      (∀ k, m'.orphanPool.has k = true → m.orphanPool.has k = true) ∧
      m.transactionPool.LeftWithout
        (fun k => k = id ∨ m.transactionPool.DescendsFrom k id) m'.transactionPool := by
  obtain ⟨hnodup, hhas, hdescends⟩ := h.redeemers_spec hid
  obtain ⟨m', gone, hrun, hm', hmtxOf, hdropped, -⟩ :=
    removeListed_run consistent_keptByRemoval none _ h howned hnodup hhas
  refine ⟨m', ?_, hm', hdropped.owned, fun k hk => (hdropped.has.mp hk).1, ?_⟩
  · rw [removeTransaction, removeTransactionWithUnblockedDaa, run_bind_of_ok (run_get m), horphan,
      hid]
    exact hrun
  · have hlisted : ∀ k, k ∈ id :: m.transactionPool.getRedeemerIdsInPool id ↔
        k = id ∨ m.transactionPool.DescendsFrom k id := by
      intro k
      rw [mem_cons, hdescends]
    constructor
    · intro k hk
      rw [hmtxOf, if_neg (mt (hlisted k).mp hk)]
    · intro k hk
      rw [hmtxOf, if_pos ((hlisted k).mpr hk)]

variable {config : Config} {transactionSize : ℕ}

variable {pool : BookedPool}

/-- One more removal from what earlier ones left of `pool`. A transaction that went with one of
them is removed without effect. -/
theorem removeTransaction_left (before : List Bytes32) (h : m.transactionPool.Consistent estimate)
    (howned : m.orphanPool.Owned) (hapart : ∀ k, m.orphanPool.has k = true → pool.has k = false)
    (hleft : pool.LeftWithout (pool.ClosureOf before) m.transactionPool)
    (hid : pool.has id = true) :
    ∃ m', (removeTransaction estimate id true).run m = .ok () m' ∧
      m'.transactionPool.Consistent estimate ∧ m'.orphanPool.Owned ∧
      (∀ k, m'.orphanPool.has k = true → m.orphanPool.has k = true) ∧
      pool.LeftWithout (pool.ClosureOf (before ++ [id])) m'.transactionPool := by
  have horphan : m.orphanPool.has id = false := by
    by_contra hboth
    rw [Bool.not_eq_false] at hboth
    rw [hapart id hboth] at hid
    cases hid
  by_cases hgone : pool.ClosureOf before id
  · have habsent : m.transactionPool.has id = false := by
      rw [← Bool.not_eq_true, hleft.has_iff]
      exact fun hand => hand.2 hgone
    refine ⟨m, ?_, h, howned, fun _ hk => hk, hleft.congr fun k => ?_⟩
    · rw [removeTransaction, removeTransactionWithUnblockedDaa, run_bind_of_ok (run_get m),
        horphan, habsent]
      rfl
    · rw [closureOf_append]
      constructor
      · exact .inl
      · rintro (hk | rfl | hk)
        exacts [hk, hgone, closureOf_closed hgone hk]
  · obtain ⟨m', hrun, hm', howned', hshrink, hremoved⟩ :=
      removeTransaction_run h howned ((hleft.has_iff id).mpr ⟨hid, hgone⟩) horphan
    refine ⟨m', hrun, hm', howned', hshrink, (hleft.trans hremoved).congr fun k => ?_⟩
    rw [closureOf_append, hleft.descendsFrom_iff (fun a b => closureOf_closed) hgone]
    tauto

/-- What the evictions leave when they start from a pool from which `before` is gone already:
they go through the list until there is room, and there was none before each of them. -/
theorem evict_run (before ids : List Bytes32) (hpooled : ∀ id ∈ ids, pool.has id = true)
    (h : m.transactionPool.Consistent estimate) (howned : m.orphanPool.Owned)
    (hapart : ∀ k, m.orphanPool.has k = true → pool.has k = false)
    (hleft : pool.LeftWithout (pool.ClosureOf before) m.transactionPool) (hfull : ids ≠ [] →
      ¬ pool.RoomWithout config estimate transactionSize (pool.ClosureOf before)) :
    ∃ m' evicted spared, ids = evicted ++ spared ∧
      (evict estimate config transactionSize ids).run m = .ok () m' ∧
      m'.transactionPool.Consistent estimate ∧
      pool.LeftWithout (pool.ClosureOf (before ++ evicted)) m'.transactionPool ∧
      (spared = [] ∨ pool.RoomWithout config estimate transactionSize
        (pool.ClosureOf (before ++ evicted))) ∧
      ∀ first id rest, evicted = first ++ id :: rest →
        ¬ pool.RoomWithout config estimate transactionSize (pool.ClosureOf (before ++ first)) := by
  induction ids generalizing before m with
  | nil =>
    refine ⟨m, [], [], rfl, rfl, h, ?_, .inl rfl, ?_⟩
    · rw [append_nil]
      exact hleft
    · intro first id rest hempty
      simp at hempty
  | cons id ids ih =>
    obtain ⟨mid, hremove, hmid, howned', hshrink, hleft'⟩ :=
      removeTransaction_left before h howned hapart hleft (hpooled id mem_cons_self)
    have hapart' : ∀ k, mid.orphanPool.has k = true → pool.has k = false :=
      fun k hk => hapart k (hshrink k hk)
    have hassoc : ∀ rest, before ++ [id] ++ rest = before ++ id :: rest := by simp
    have hfirst : ¬ pool.RoomWithout config estimate transactionSize
        (pool.ClosureOf (before ++ [])) := by
      rw [append_nil]
      exact hfull (cons_ne_nil id ids)
    by_cases hroom : mid.transactionPool.hasRoom config transactionSize = true
    · refine ⟨mid, [id], ids, rfl, ?_, hmid, hleft', ?_, ?_⟩
      · rw [evict, run_bind_of_ok hremove, run_bind_of_ok (run_get mid), if_pos hroom]
        rfl
      · exact .inr ((hleft'.hasRoom_iff hmid transactionSize).mp hroom)
      · intro first other rest hsplit
        cases first with
        | nil => exact hfirst
        | cons => simp at hsplit
    · have hstill := fun hr => hroom ((hleft'.hasRoom_iff hmid transactionSize).mpr hr)
      obtain ⟨m', evicted, spared, rfl, hrun, hm', hleft'', hend, hbefore⟩ :=
        ih (before ++ [id]) (fun k hk => hpooled k (mem_cons_of_mem id hk)) hmid howned'
          hapart' hleft' (fun _ => hstill)
      rw [hassoc] at hleft'' hend
      refine ⟨m', id :: evicted, spared, rfl, ?_, hm', hleft'', hend, ?_⟩
      · rw [evict, run_bind_of_ok hremove, run_bind_of_ok (run_get mid), if_neg hroom]
        exact hrun
      · intro first other rest hsplit
        cases first with
        | nil => exact hfirst
        | cons a first =>
          rw [cons_append, List.cons.injEq] at hsplit
          obtain ⟨rfl, hsplit⟩ := hsplit
          rw [← hassoc]
          exact hbefore first other rest hsplit

variable {order : FeerateOrder} {blake2b : Blake2b} {vtx : ValidatedTransaction}
  {incomingSlots : List AtomicMempoolSlot}

theorem evictionOrder_nodup (h : pool.Consistent estimate) :
    (pool.evictionOrder order vtx incomingSlots).Nodup := by
  apply Nodup.filter
  apply Nodup.map_on _ (order.nodup _)
  intro key hkey other hother hid
  have hsome := ((h.frontier key).mp ((order.mem _ key).mp hkey)).1
  rw [hid, ((h.frontier other).mp ((order.mem _ other).mp hother)).1] at hsome
  exact (some.inj hsome).symm

theorem mem_evictionOrder (h : pool.Consistent estimate)
    (hid : id ∈ pool.evictionOrder order vtx incomingSlots) :
    pool.has id = true ∧ pool.eligible vtx incomingSlots id = true := by
  obtain ⟨hmem, heligible⟩ := mem_filter.mp hid
  obtain ⟨key, hkey, rfl⟩ := mem_map.mp hmem
  have hkeyOf := ((h.frontier key).mp ((order.mem _ key).mp hkey)).1
  refine ⟨?_, heligible⟩
  rw [← h.keys, hkeyOf]
  rfl

theorem makeRoom_of_evict {m' : BookedState}
    (hlimit : m.transactionPool.txsToRemove order estimate vtx config
      (estimate vtx.toMutableTransaction) blake2b = .ok ids)
    (hevict : (evict estimate config (estimate vtx.toMutableTransaction) ids).run m = .ok () m')
    (hroom : m'.transactionPool.hasRoom config (estimate vtx.toMutableTransaction) = true) :
    (makeRoom order estimate blake2b config vtx).run m = .ok () m' := by
  have hcheck : (pureCheck (m.transactionPool.txsToRemove order estimate vtx config
      (estimate vtx.toMutableTransaction) blake2b) : EStateM PoolError BookedState _).run m =
      .ok ids m := by
    rw [hlimit]
    rfl
  rw [makeRoom, run_bind_of_ok (run_get m), run_bind_of_ok hcheck, run_bind_of_ok hevict,
    run_bind_of_ok (run_get m'), if_pos hroom]
  rfl

theorem makeRoom_of_error {e : PoolError}
    (hlimit : m.transactionPool.txsToRemove order estimate vtx config
      (estimate vtx.toMutableTransaction) blake2b = .error e) :
    (makeRoom order estimate blake2b config vtx).run m = .error e m := by
  have hcheck : (pureCheck (m.transactionPool.txsToRemove order estimate vtx config
      (estimate vtx.toMutableTransaction) blake2b) : EStateM PoolError BookedState _).run m =
      .error e m := by
    rw [hlimit]
    rfl
  rw [makeRoom, run_bind_of_ok (run_get m)]
  exact run_bind_eq_error.mpr (.inl hcheck)

variable (order config) in
/-- A token transaction is refused before anything is evicted, or a first part of the eviction
order goes, as much as is needed. -/
theorem makeRoom_cases (h : m.Sound blake2b estimate) (hcat : isCatTransaction vtx.tx = true)
    (hrate : vtx.feerateKey.isSome = true)
    (hslots : atomicMempoolSlots blake2b vtx.toMutableTransaction = .ok incomingSlots) :
    (makeRoom order estimate blake2b config vtx).run m = .error .rejectMempoolIsFull m ∨
      ∃ m' evicted rest, m.transactionPool.evictionOrder order vtx incomingSlots = evicted ++ rest ∧
        (makeRoom order estimate blake2b config vtx).run m = .ok () m' ∧
        m.transactionPool.LeftWithout (m.transactionPool.ClosureOf evicted) m'.transactionPool ∧
        m.transactionPool.RoomWithout config estimate (estimate vtx.toMutableTransaction)
          (m.transactionPool.ClosureOf evicted) ∧
        ∀ first id after, evicted = first ++ id :: after →
          ¬ m.transactionPool.RoomWithout config estimate (estimate vtx.toMutableTransaction)
            (m.transactionPool.ClosureOf first) := by
  obtain ⟨incoming, hincoming⟩ := isSome_iff_exists.mp hrate
  have hnone : ∀ k, m.transactionPool.ClosureOf [] k ↔ False := by
    simp [BookedPool.ClosureOf]
  have hstart : m.transactionPool.LeftWithout (m.transactionPool.ClosureOf []) m.transactionPool :=
    (BookedPool.LeftWithout.refl m.transactionPool).congr fun k => (hnone k).symm
  obtain ⟨size, hsize⟩ : ∃ size, size = estimate vtx.toMutableTransaction := ⟨_, rfl⟩
  have hlimit : m.transactionPool.txsToRemove order estimate vtx config size blake2b =
      if m.transactionPool.hasRoom config size then .ok []
      else select order estimate m.transactionPool vtx incoming
        (canRemovePreservingSlots blake2b incomingSlots) config size
        (order.ascending m.transactionPool.readyTransactions.searchTree) [] 0 := by
    rw [txsToRemove, if_pos hcat, limitTransactionCountPreservingAtomicSlotOrder, hslots]
    change limitTransactionCountBy _ _ _ _ _ _ _ = _
    rw [limitTransactionCountBy, hincoming]
  rw [← hsize]
  by_cases hroom : m.transactionPool.hasRoom config size = true
  · right
    rw [if_pos hroom] at hlimit
    refine ⟨m, [], _, rfl, ?_, hstart, ?_, ?_⟩
    · exact makeRoom_of_evict (hsize ▸ hlimit) rfl (hsize ▸ hroom)
    · exact (hstart.hasRoom_iff h.consistent _).mp hroom
    · intro first id after hempty
      simp at hempty
  · rw [if_neg hroom] at hlimit
    have hfull : ¬ m.transactionPool.RoomWithout config estimate size
        (m.transactionPool.ClosureOf []) :=
      fun hr => hroom ((hstart.hasRoom_iff h.consistent _).mpr hr)
    rcases select_spec order vtx incomingSlots incoming config size h.consistent h.slots
      (order.ascending m.transactionPool.readyTransactions.searchTree)
      (fun key hkey => (order.mem _ key).mp hkey) [] with
      hselect | ⟨taken, rest, horder, hselect, hcount, hsizes⟩
    · left
      exact makeRoom_of_error (hsize ▸ hlimit.trans hselect)
    · rw [nil_append] at hselect hcount hsizes
      have htaken : ∀ id ∈ taken, m.transactionPool.has id = true := by
        intro id hid
        have hmem : id ∈ m.transactionPool.evictionOrder order vtx incomingSlots := by
          rw [evictionOrder, horder]
          exact mem_append_left rest hid
        exact (mem_evictionOrder h.consistent hmem).1
      have hnodup : taken.Nodup := by
        have hall : (m.transactionPool.evictionOrder order vtx incomingSlots).Nodup :=
          evictionOrder_nodup h.consistent
        rw [evictionOrder, horder] at hall
        exact hall.of_append_left
      obtain ⟨m', evicted, spared, rfl, hevict, hm', hleft, hend, hbefore⟩ :=
        evict_run [] taken htaken h.consistent h.owned h.apart hstart fun _ => hfull
      rw [nil_append] at hleft hend
      have hroomEnd : m.transactionPool.RoomWithout config estimate size
          (m.transactionPool.ClosureOf evicted) := by
        rcases hend with rfl | hend
        · rw [append_nil] at hnodup htaken hcount hsizes
          exact roomWithout_of_chosen h.consistent hnodup htaken hcount hsizes
        · exact hend
      right
      refine ⟨m', evicted, spared ++ rest, ?_, ?_, hleft, hroomEnd, hbefore⟩
      · rw [evictionOrder, horder, append_assoc]
      · apply makeRoom_of_evict (hsize ▸ hlimit.trans hselect) (hsize ▸ hevict)
        rw [← hsize]
        exact (hleft.hasRoom_iff hm' size).mpr hroomEnd

/-- A pooled transaction that the incoming one spends from, directly or through others. -/
def Ancestor (m : BookedState) (vtx : ValidatedTransaction) (id : Bytes32) : Prop :=
  m.transactionPool.has id = true ∧
    (vtx.Spends id ∨ ∃ p, vtx.Spends p ∧ m.transactionPool.DescendsFrom p id)

/-- `id` was evicted on the way from `m` to `m'`. -/
def Evicted (m m' : BookedState) (id : Bytes32) : Prop :=
  m.transactionPool.has id = true ∧ m'.transactionPool.has id = false

/-- The evictions for an incoming transaction with these slots took nothing it may build on. -/
structure SafelyEvicted (m m' : BookedState) (vtx : ValidatedTransaction)
    (incomingSlots : List AtomicMempoolSlot) : Prop where
  slots : ∀ id, Evicted m m' id → m.transactionPool.blocks incomingSlots id = false
  ancestors : ∀ id, Evicted m m' id → ¬ m.Ancestor vtx id

/-- No transaction that has to go, because the cheaper ones that may go do not make enough room
with all their descendants, has a descendant with a blocking slot. -/
def FreeDescendants (config : Config) (order : FeerateOrder) (estimate : MutableTransaction → ℕ)
    (m : BookedState) (vtx : ValidatedTransaction) (incomingSlots : List AtomicMempoolSlot) : Prop :=
  ∀ before id after,
    m.transactionPool.evictionOrder order vtx incomingSlots = before ++ id :: after →
    ¬ m.transactionPool.RoomWithout config estimate (estimate vtx.toMutableTransaction)
      (m.transactionPool.ClosureOf before) →
    ∀ descendant, m.transactionPool.DescendsFrom descendant id →
      m.transactionPool.blocks incomingSlots descendant = false

theorem eviction_safe_iff (config : Config) (order : FeerateOrder)
    (estimate : MutableTransaction → ℕ) (blake2b : Blake2b) (m : BookedState)
    (vtx : ValidatedTransaction) (h : m.Sound blake2b estimate)
    (hcat : isCatTransaction vtx.tx = true) (hrate : vtx.feerateKey.isSome = true) :
    (∀ m', (makeRoom order estimate blake2b config vtx).run m ≠ .error .panicked m') ∧
      ∀ m' incomingSlots, atomicMempoolSlots blake2b vtx.toMutableTransaction = .ok incomingSlots →
        (makeRoom order estimate blake2b config vtx).run m = .ok () m' →
        (SafelyEvicted m m' vtx incomingSlots ↔
          FreeDescendants config order estimate m vtx incomingSlots) := by
  constructor
  · intro m' hpanic
    cases hslots : atomicMempoolSlots blake2b vtx.toMutableTransaction with
    | error e =>
      have hlimit : m.transactionPool.txsToRemove order estimate vtx config
          (estimate vtx.toMutableTransaction) blake2b = .error e := by
        rw [txsToRemove, if_pos hcat, limitTransactionCountPreservingAtomicSlotOrder, hslots]
        rfl
      rw [makeRoom_of_error hlimit] at hpanic
      injection hpanic with he
      rw [he] at hslots
      exact atomicMempoolSlots_ne_panicked blake2b _ hslots
    | ok =>
      rcases makeRoom_cases config order h hcat hrate hslots with hfull | ⟨m'', _, _, -, hok, -⟩
      · rw [hfull] at hpanic
        cases hpanic
      · rw [hok] at hpanic
        cases hpanic
  · intro m' incomingSlots hslots hrun
    rcases makeRoom_cases config order h hcat hrate hslots with
      hfull | ⟨m'', evicted, rest, horder, hok, hleft, hroom, hbefore⟩
    · rw [hfull] at hrun
      cases hrun
    · rw [hok] at hrun
      obtain rfl : m'' = m' := by injection hrun
      have hmem : ∀ id ∈ evicted, id ∈ m.transactionPool.evictionOrder order vtx incomingSlots := by
        intro id hid
        rw [horder]
        exact mem_append_left rest hid
      have heligible : ∀ id ∈ evicted, m.transactionPool.blocks incomingSlots id = false ∧
          ∀ p, vtx.Spends p → p ≠ id ∧ ¬ m.transactionPool.DescendsFrom p id := by
        intro id hid
        obtain ⟨hhas, helig⟩ := mem_evictionOrder h.consistent (hmem id hid)
        exact eligible_spec h.consistent hhas helig
      have hevicted : ∀ id, m.transactionPool.ClosureOf evicted id → Evicted m m'' id := by
        rintro id ⟨x, hx, hclosed⟩
        constructor
        · rcases hclosed with rfl | hdescends
          · exact (mem_evictionOrder h.consistent (hmem id hx)).1
          · exact ((h.consistent.chained_iff x id).mpr hdescends).has
        · rw [← Bool.not_eq_true, hleft.has_iff]
          exact fun hand => hand.2 ⟨x, hx, hclosed⟩
      have hclosure : ∀ id, Evicted m m'' id → m.transactionPool.ClosureOf evicted id := by
        rintro id ⟨hhas, hgone⟩
        by_contra hkept
        rw [(hleft.has_iff id).mpr ⟨hhas, hkept⟩] at hgone
        cases hgone
      constructor
      · intro hsafe before id after hsplit hnoRoom descendant hdescends
        have hid : id ∈ evicted := by
          rw [horder] at hsplit
          rcases append_eq_append_iff.mp hsplit with ⟨more, rfl, -⟩ | ⟨more, rfl, hmore⟩
          · -- everything up to `id` would be gone, and more than was needed
            have hmore := hroom.mono fun k hk =>
              closureOf_mono (fun id hid => mem_append_left more hid) hk
            exact absurd hmore hnoRoom
          · cases more with
            | nil =>
              rw [append_nil] at hroom
              exact absurd hroom hnoRoom
            | cons =>
              rw [cons_append, List.cons.injEq] at hmore
              rw [hmore.1]
              exact mem_append_right before mem_cons_self
        apply hsafe.slots
        exact hevicted descendant ⟨id, hid, .inr hdescends⟩
      · intro hfree
        constructor
        · intro id hid
          obtain ⟨x, hx, rfl | hdescends⟩ := hclosure id hid
          · exact (heligible id hx).1
          · obtain ⟨first, after, rfl⟩ := append_of_mem hx
            rw [append_assoc, cons_append] at horder
            exact hfree first x (after ++ rest) horder (hbefore first x after rfl) id hdescends
        · rintro id hid ⟨-, hancestor⟩
          obtain ⟨x, hx, hclosed⟩ := hclosure id hid
          have hspends := (heligible x hx).2
          rcases hancestor with hdirect | ⟨p, hp, hdescends⟩
          · obtain ⟨hne, hnot⟩ := hspends id hdirect
            exact hclosed.elim hne hnot
          · obtain ⟨hne, hnot⟩ := hspends p hp
            rcases hclosed with rfl | hdescends'
            · exact hnot hdescends
            · exact hnot (hdescends.trans hdescends')

/-- The recorded slots are those of the stored transactions, whose entries have the scripts
of the outputs they spend. -/
structure Recorded (blake2b : Blake2b) (script : TransactionOutpoint → ScriptPublicKey)
    (pool : BookedPool) : Prop where
  slots : pool.RecordedSlots blake2b
  scripted : ∀ id mtx, pool.mtxOf id = some mtx → mtx.Scripted script

section Recorded

variable {script : TransactionOutpoint → ScriptPublicKey} {pool pool' : BookedPool}

theorem Recorded.add {priority : Priority} {virtualDaaScore : ℕ} (h : pool.Consistent estimate)
    (hrecorded : Recorded blake2b script pool) (hmass : vtx.mass ≠ 0) (hvtx : vtx.Scripted script)
    (hadd : pool.addMempoolTransaction blake2b vtx priority virtualDaaScore transactionSize =
      .ok pool') : Recorded blake2b script pool' := by
  obtain ⟨key, slots, hnew, -, -, -, a⟩ :=
    @BookedPool.addMempoolTransaction_eq_ok estimate pool pool' blake2b vtx priority virtualDaaScore
      transactionSize hmass hadd
  constructor
  · intro id mtx hid
    rw [a.mtxOf] at hid
    split_ifs at hid with heq
    · obtain rfl := some.inj hid
      rw [hnew, a.slotsByTx, heq]
      split_ifs with hempty
      · -- a new id has no recorded slots
        cases hslots : pool.atomicSlotsByTx.lookup vtx.id with
        | none => rw [hempty]; rfl
        | some slots' =>
          obtain ⟨-, m', hm', -⟩ := h.slotted vtx.id slots' hslots
          rw [a.mtxOf_eq_none] at hm'
          cases hm'
      · rw [lookup_insert_ite, if_pos rfl]
        rfl
    · rw [hrecorded.slots id mtx hid, a.slotsByTx]
      split_ifs
      · rfl
      · rw [lookup_insert_ite, if_neg heq]
  · intro id mtx hid
    rw [a.mtxOf] at hid
    split_ifs at hid
    · rw [← some.inj hid]
      exact hvtx
    · exact hrecorded.scripted id mtx hid

theorem recorded_keptByRemoval :
    KeptByRemoval estimate fun pool => pool.Consistent estimate ∧ Recorded blake2b script pool := by
  apply KeptByRemoval.of_removal (fun h => h.1.workable)
  rintro id mtx pool pool' r hid ⟨h, hrecorded⟩
  refine ⟨r.consistent h hid, ?_, ?_⟩
  · intro k m hk
    obtain ⟨hne, hk⟩ := r.mtxOf_eq_some hk
    rw [hrecorded.slots k m hk, r.slotsByTx, lookup_erase_ite, if_neg hne]
  · exact fun k m hk => hrecorded.scripted k m (r.mtxOf_eq_some hk).2

theorem Recorded.revalidate (h : Recorded blake2b script pool) (hok : pool.Revalidated vtx)
    (hvtx : vtx.Scripted script) :
    Recorded blake2b script (pool.updateRevalidatedTransaction estimate vtx).2 := by
  unfold updateRevalidatedTransaction
  split
  · rename_i tx booking htx hbooking
    have hold : pool.mtxOf vtx.id = some tx.mtx := by
      rw [Pool.mtxOf, htx]
      rfl
    constructor
    · intro k m hk
      rw [Pool.mtxOf, lookup_insert_ite] at hk
      split_ifs at hk with heq
      · obtain rfl := some.inj hk
        rw [heq, ← h.slots vtx.id _ hold]
        exact atomicMempoolSlots_of_scripted blake2b hvtx (h.scripted _ _ hold) (hok.same _ hold).symm
      · exact h.slots k m hk
    · intro k m hk
      rw [Pool.mtxOf, lookup_insert_ite] at hk
      split_ifs at hk
      · rw [← some.inj hk]
        exact hvtx
      · exact h.scripted k m hk
  · exact h

theorem Reaches.recorded (h : Reaches blake2b estimate (·.Scripted script) m) :
    Recorded blake2b script m.transactionPool := by
  induction h with
  | start => constructor <;> simp [RecordedSlots, empty, Pool.mtxOf]
  | add vtx priority virtualDaaScore hm hvtx hok hadd ih =>
    exact ih.add (hm.consistent) hok.mass hvtx hadd
  | remove id removeRedeemers unblockedAtDaaScore hm ih =>
    exact (removeTransactionWithUnblockedDaa_keeps recorded_keptByRemoval hm.consistent
      ⟨hm.consistent, ih⟩ id removeRedeemers unblockedAtDaaScore).2
  | revalidate vtx _ hvtx hok ih => exact ih.revalidate hok hvtx
  | orphans orphanPool _ ih => exact ih

end Recorded

instance : LinearOrder FeerateTransactionKey :=
  LinearOrder.lift' (fun key => toLex (key.fee, toLex (key.mass, key.id))) (by
    rintro ⟨fee, mass, id⟩ ⟨fee', mass', id'⟩ h
    simpa using h)

/-- The order of keys with equal feerates. -/
def plainOrder : FeerateOrder where
  ascending := sortKeys
  exceeds _ _ := false
  nodup tree := (sortKeys_sorted tree).imp ne_of_lt
  mem _ _ := mem_sortKeys

/-- The next creation of the same owner, with nonce 2, paid from elsewhere. -/
def nextCreation : ValidatedTransaction where
  tx := ⟨Bytes.fill 32 3, [⟨⟨Bytes.fill 32 5, 0⟩⟩], [⟨9, ownerScript⟩], subnetworkIdPayload,
    [67, 65, 84, 1, 0, 0, 0, 0, 2, 0, 0, 0, 0, 0, 0, 0]⟩
  entries := [some ⟨10, ownerScript, 0, false⟩]
  aligned := rfl
  calculatedFee := some 1
  calculatedComputeMass := some 1
  mass := 1

def nextSlots : List AtomicMempoolSlot := [.nonce zero32 atomicNonceScopeOwner zero32 2]

def fullState : BookedState := ⟨creationPool, noOrphans⟩

def twoPlaces : Config := ⟨2, 100⟩

theorem pending_creation_evicted :
    atomicMempoolSlots fixedDigest nextCreation.toMutableTransaction = .ok nextSlots ∧
      ∃ m', (makeRoom plainOrder unitEstimate fixedDigest twoPlaces nextCreation).run fullState =
          .ok () m' ∧ ¬ SafelyEvicted fullState m' nextCreation nextSlots := by
  have hrun : succeededWith (fun _ m' => decide (m'.transactionPool.has creationId = false))
      ((makeRoom plainOrder unitEstimate fixedDigest twoPlaces nextCreation).run fullState) =
        true := by
    decide +kernel
  obtain ⟨u, m', hok, hgone⟩ := exists_of_succeededWith _ _ hrun
  refine ⟨by decide +kernel, m', hok, ?_⟩
  intro hsafe
  have hblocks := hsafe.slots creationId ⟨by decide +kernel, of_decide_eq_true hgone⟩
  revert hblocks
  decide +kernel

theorem sound_of_reaches {pool : BookedPool}
    (h : Reaches blake2b estimate (·.Scripted script) ⟨pool, noOrphans⟩) :
    (⟨pool, noOrphans⟩ : BookedState).Sound blake2b estimate where
  consistent := h.consistent
  slots := h.recorded.slots
  owned := by constructor <;> simp [noOrphans, Pool.mtxOf]
  apart := by simp [noOrphans, Pool.has]

theorem fullState_sound : fullState.Sound fixedDigest unitEstimate :=
  sound_of_reaches creationPool_reached

theorem pending_creation_evicted_iff :
    (∀ m', (makeRoom plainOrder unitEstimate fixedDigest twoPlaces nextCreation).run fullState ≠
        .error .panicked m') ∧
      ∀ m' incomingSlots,
        atomicMempoolSlots fixedDigest nextCreation.toMutableTransaction = .ok incomingSlots →
        (makeRoom plainOrder unitEstimate fixedDigest twoPlaces nextCreation).run fullState =
          .ok () m' →
        (SafelyEvicted fullState m' nextCreation incomingSlots ↔
          FreeDescendants twoPlaces plainOrder unitEstimate fullState nextCreation incomingSlots) :=
  eviction_safe_iff twoPlaces plainOrder unitEstimate fixedDigest fullState nextCreation
    fullState_sound (by decide) (by decide)

end BookedState
end CryptixAtomic.Mempool
