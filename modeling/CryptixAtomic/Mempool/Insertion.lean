import CryptixAtomic.Mempool.Consistency

/-!
# Additions and revalidations keep the books consistent

An addition may assume what the callers of the pool have checked, `Admissible`; a
revalidation may assume `Revalidated`. `Addition` says what an addition does to every
structure of the pool. A revalidation only replaces entries: everything else depends on the
stored transactions through `SameTransactions`.
-/
namespace CryptixAtomic.Mempool

open Foundation List Option FMap

namespace BookedPool

variable {estimate : MutableTransaction → ℕ} {pool pool' : BookedPool}

variable {id : Bytes32}

section Addition

/-- What callers promise of a transaction they add: its entries are those of the outputs it
spends, its mass is set, it double-spends nothing in the pool, and nothing in the pool
spends from it. No transaction spends from itself: its id is a hash over its inputs. -/
structure Admissible (pool : BookedPool) (vtx : ValidatedTransaction) : Prop where
  populated : pool.Populated vtx.toMutableTransaction
  mass : vtx.mass ≠ 0
  inputs : ∀ o ∈ vtx.tx.spentOutpoints, ∀ k, ¬ pool.Spent o k
  outputs : ∀ k m, pool.mtxOf k = some m → ¬ m.Spends vtx.id
  irreflexive : ¬ vtx.Spends vtx.id

/-- Fill in the entries of the outputs that pooled transactions create. -/
def populateMempoolEntries (pool : BookedPool) (mtx : MutableTransaction) : MutableTransaction where
  tx := mtx.tx
  entries := List.zipWith
    (fun (input : TransactionInput) entry => (pool.createdEntry input.previousOutpoint).or entry)
    mtx.tx.inputs mtx.entries
  aligned := by rw [length_zipWith, ← mtx.aligned, Nat.min_self]

structure Addition (id : Bytes32) (mtx : MutableTransaction) (key : FeerateTransactionKey)
    (slots : List AtomicMempoolSlot) (pool pool' : BookedPool) : Prop where
  fresh : pool.all.lookup id = none
  own : mtx.id = id
  mtxOf : ∀ k, pool'.mtxOf k = if k = id then some mtx else pool.mtxOf k
  keyOf : ∀ k, pool'.keyOf k = if k = id then some key else pool.keyOf k
  parents : pool'.parents = pool.parents.insert id (pool.getParentTransactionIdsInPool mtx)
  redeemers : ∀ a, pool'.redeemersOf a =
    if a ∈ pool.getParentTransactionIdsInPool mtx then insert id (pool.redeemersOf a)
    else pool.redeemersOf a
  frontier : ∀ other, other ∈ pool'.readyTransactions.searchTree ↔
    other ∈ pool.readyTransactions.searchTree ∨
      other = key ∧ pool.getParentTransactionIdsInPool mtx = ∅
  totalMass : pool.readyTransactions.Balanced → pool'.readyTransactions.Balanced
  utxoSet : pool'.utxoSet = pool.utxoSet.addTransaction mtx
  free : ∀ slot ∈ slots, pool.atomicSlotOwners.lookup slot = none
  cat : slots ≠ [] → isCatTransaction mtx.tx = true
  slotOwners : pool'.atomicSlotOwners =
    pool.atomicSlotOwners.insertAll (slots.map fun slot => (slot, id))
  slotsByTx : pool'.atomicSlotsByTx =
    if slots = [] then pool.atomicSlotsByTx else pool.atomicSlotsByTx.insert id slots

theorem lookup_foldl_chain (id : Bytes32) (parents : List Bytes32) (chained : TransactionsEdges)
    (a : Bytes32) :
    ((parents.foldl (chain id) chained).lookup a).getD ∅ =
      if a ∈ parents then insert id ((chained.lookup a).getD ∅)
      else (chained.lookup a).getD ∅ := by
  induction parents generalizing chained with
  | nil => simp
  | cons parent parents ih =>
    rw [foldl_cons, ih, chain, lookup_insert_ite]
    by_cases heq : a = parent
    · subst heq
      by_cases hmem : a ∈ parents <;> simp [hmem]
    · by_cases hmem : a ∈ parents <;> simp [heq, hmem]

variable {slots : List AtomicMempoolSlot}

theorem checkAtomicSlotConflictsForSlots_ok
    (h : pool.checkAtomicSlotConflictsForSlots id slots = .ok ()) :
    ∀ slot ∈ slots, pool.atomicSlotOwners.lookup slot = none := by
  induction slots with
  | nil => simp
  | cons slot slots ih =>
    unfold checkAtomicSlotConflictsForSlots at h
    cases howner : pool.atomicSlotOwners.lookup slot with
    | some => simp [howner] at h
    | none =>
      simp only [howner] at h
      intro other hother
      rcases mem_cons.mp hother with rfl | hmem
      · exact howner
      · exact ih h other hmem

variable {key : FeerateTransactionKey}

theorem readyAfter_ok {parents : TransactionIdSet} {booking : Booking} {ready : Frontier}
    (hkey : booking.key id = some key)
    (h : pool.readyAfter parents booking id = .ok ready) :
    (∀ other, other ∈ ready.searchTree ↔
      other ∈ pool.readyTransactions.searchTree ∨ other = key ∧ parents = ∅) ∧
      (pool.readyTransactions.Balanced → ready.Balanced) := by
  unfold readyAfter at h
  rw [hkey] at h
  split_ifs at h with hempty
  · obtain rfl := Except.ok.inj h
    refine ⟨fun other => ?_, fun hbalanced => hbalanced.insert key⟩
    rw [Frontier.mem_insert, or_comm, and_iff_left hempty]
  · obtain rfl := Except.ok.inj h
    refine ⟨fun other => ?_, fun hbalanced => hbalanced⟩
    simp [hempty]

theorem addMempoolTransaction_eq_ok {blake2b : Blake2b} {vtx : ValidatedTransaction}
    {priority : Priority} {virtualDaaScore transactionSize : ℕ} (hmass : vtx.mass ≠ 0)
    (hadd : addMempoolTransaction blake2b pool vtx priority virtualDaaScore transactionSize =
      .ok pool') :
    ∃ key slots, atomicMempoolSlots blake2b vtx.toMutableTransaction = .ok slots ∧
      key.id = vtx.id ∧ pool'.estimatedSize = pool.estimatedSize + transactionSize ∧
      pool'.totalSize estimate = pool.totalSize estimate + estimate vtx.toMutableTransaction ∧
      Addition vtx.id vtx.toMutableTransaction key slots pool pool' := by
  unfold addMempoolTransaction at hadd
  by_cases hchecks : (pool.has vtx.id || !vtx.isFullyPopulated) = true
  · rw [if_pos hchecks] at hadd
    cases hadd
  rw [if_neg hchecks] at hadd
  rw [Bool.or_eq_true, not_or, Bool.not_eq_true, Bool.not_eq_true', Bool.not_eq_false] at hchecks
  obtain ⟨hnew, hfull⟩ := hchecks
  obtain ⟨slots, hslots, hadd⟩ := except_bind_eq_ok.mp hadd
  obtain ⟨⟨⟩, hfree, hadd⟩ := except_bind_eq_ok.mp hadd
  obtain ⟨ready, hready, hadd⟩ := except_bind_eq_ok.mp hadd
  obtain rfl := Except.ok.inj hadd
  obtain ⟨fee, hfee⟩ : ∃ fee, vtx.calculatedFee = some fee := by
    rw [ValidatedTransaction.isFullyPopulated, Bool.and_eq_true, Bool.and_eq_true] at hfull
    exact isSome_iff_exists.mp hfull.1.2
  obtain ⟨key, hkey⟩ : ∃ key : FeerateTransactionKey, key = ⟨fee, vtx.mass, vtx.id⟩ := ⟨_, rfl⟩
  have hbooked : Booking.key ⟨vtx.calculatedFee, vtx.calculatedComputeMass, vtx.mass, priority,
      virtualDaaScore⟩ vtx.id = some key := by
    rw [Booking.key, hfee, hkey]
    exact if_neg hmass
  have hfresh : pool.all.lookup vtx.id = none := by simpa [Pool.has] using hnew
  have hids : key.id = vtx.id := by rw [hkey]
  refine ⟨key, slots, hslots, hids, rfl, ?_, ?_⟩
  · exact total_insert (fun _ (tx : MempoolTransaction) => estimate tx.mtx) pool.all _ hfresh
  constructor
  case fresh => exact hfresh
  case own => rfl
  case mtxOf =>
    intro k
    rw [Pool.mtxOf, lookup_insert_ite]
    split_ifs <;> rfl
  case keyOf =>
    intro k
    rw [BookedPool.keyOf, lookup_insert_ite]
    split_ifs with heq
    · rw [heq]
      exact hbooked
    · rfl
  case parents => rfl
  case redeemers =>
    intro a
    rw [redeemersOf, lookup_foldl_chain]
    simp only [mem_sortKeys, redeemersOf]
  case frontier => exact (readyAfter_ok hbooked hready).1
  case totalMass => exact (readyAfter_ok hbooked hready).2
  case utxoSet => rfl
  case free => exact checkAtomicSlotConflictsForSlots_ok hfree
  case cat => exact isCat_of_mem_slots hslots
  case slotOwners => rfl
  case slotsByTx => rfl

section Effects

variable {id : Bytes32} {mtx : MutableTransaction} {key : FeerateTransactionKey}
  {slots : List AtomicMempoolSlot}

theorem Addition.mtxOf_eq_none (a : Addition id mtx key slots pool pool') :
    pool.mtxOf id = none := by
  rw [Pool.mtxOf, a.fresh]
  rfl

theorem Addition.has_iff (a : Addition id mtx key slots pool pool') (k : Bytes32) :
    pool'.has k = true ↔ k = id ∨ pool.has k = true := by
  rw [Pool.has_iff_mtxOf, a.mtxOf, Pool.has_iff_mtxOf]
  split_ifs with heq <;> simp [heq]

theorem Addition.spent_iff (a : Addition id mtx key slots pool pool') (o : TransactionOutpoint)
    (k : Bytes32) : pool'.Spent o k ↔ k = id ∧ o ∈ mtx.tx.spentOutpoints ∨ pool.Spent o k := by
  unfold Spent
  rw [a.mtxOf]
  split_ifs with heq
  · simp [heq, a.mtxOf_eq_none]
  · simp [heq]

theorem Addition.createdEntry (a : Addition id mtx key slots pool pool') (o : TransactionOutpoint) :
    pool'.createdEntry o =
      if o.transactionId = id then (mtx.tx.outputs[o.index]?).map pendingEntry
      else pool.createdEntry o := by
  rw [BookedPool.createdEntry, a.mtxOf]
  split_ifs <;> rfl

theorem Addition.parentsOf (a : Addition id mtx key slots pool pool') (k : Bytes32) :
    pool'.parentsOf k =
      if k = id then pool.getParentTransactionIdsInPool mtx else pool.parentsOf k := by
  rw [BookedPool.parentsOf, a.parents, lookup_insert_ite]
  split_ifs <;> rfl

end Effects

theorem lookup_insertAll_map {K V : Type} [DecidableEq K] (m : FMap K V) (keys : List K) (v : V)
    (k : K) :
    (m.insertAll (keys.map fun key => (key, v))).lookup k =
      if k ∈ keys then some v else m.lookup k := by
  induction keys generalizing m with
  | nil => simp
  | cons key keys ih =>
    rw [map_cons, insertAll_cons, ih, lookup_insert_ite]
    by_cases hmem : k ∈ keys
    · simp [hmem]
    · by_cases heq : k = key <;> simp [heq, hmem]

variable {vtx : ValidatedTransaction}

theorem Addition.consistent (h : pool.Consistent estimate) (hok : pool.Admissible vtx)
    (hkey : key.id = vtx.id) (hsize : pool'.estimatedSize = pool'.totalSize estimate)
    (a : Addition vtx.id vtx.toMutableTransaction key slots pool pool') :
    pool'.Consistent estimate := by
  have hnew : ∀ k m, pool.mtxOf k = some m → k ≠ vtx.id := by
    rintro k m hk rfl
    rw [a.mtxOf_eq_none] at hk
    cases hk
  have hnotHas : ¬ pool.has vtx.id = true := by
    rw [Pool.has_iff_mtxOf, a.mtxOf_eq_none]
    simp
  have hslotsByTx : ∀ k, pool'.atomicSlotsByTx.lookup k =
      if k = vtx.id ∧ slots ≠ [] then some slots else pool.atomicSlotsByTx.lookup k := by
    intro k
    rw [a.slotsByTx]
    by_cases hempty : slots = []
    · rw [if_pos hempty, if_neg fun hand => hand.2 hempty]
    · rw [if_neg hempty, lookup_insert_ite]
      split_ifs with heq hand hand
      · rfl
      · exact absurd ⟨heq, hempty⟩ hand
      · exact absurd hand.1 heq
      · rfl
  constructor
  case keyed =>
    intro k m hk
    rw [a.mtxOf] at hk
    split_ifs at hk with heq
    · rw [← some.inj hk, heq]
    · exact h.keyed k m hk
  case keys =>
    intro k
    rw [a.keyOf, Bool.eq_iff_iff, a.has_iff]
    split_ifs with heq
    · simp [heq]
    · rw [h.keys]
      simp [heq]
  case populated =>
    -- no stored input refers to the new transaction, so its parents have not changed
    have hpopulated : ∀ m, pool.Populated m → ¬ m.Spends vtx.id → pool'.Populated m := by
      rintro m ⟨hverifiable, hentries⟩ hspends
      refine ⟨hverifiable, ?_⟩
      intro spent hmem hhas
      have hne : spent.1.previousOutpoint.transactionId ≠ vtx.id := by
        intro heq
        exact hspends ⟨spent.1, (of_mem_zip hmem).1, heq⟩
      rw [a.createdEntry, if_neg hne]
      exact hentries spent hmem (((a.has_iff _).mp hhas).resolve_left hne)
    intro k m hk
    rw [a.mtxOf] at hk
    split_ifs at hk with heq
    · obtain rfl := some.inj hk
      exact hpopulated _ hok.populated hok.irreflexive
    · exact hpopulated m (h.populated k m hk) (hok.outputs k m hk)
  case registered =>
    intro k
    rw [Bool.eq_iff_iff, a.has_iff, a.parents, lookup_insert_ite]
    split_ifs with heq
    · simp [heq]
    · rw [h.registered]
      simp [heq]
  case parents =>
    intro p b
    rw [a.parentsOf]
    unfold SpendsOutputOf
    rw [a.has_iff, a.mtxOf]
    split_ifs with heq
    · rw [mem_parentsInPool]
      constructor
      · rintro ⟨hspends, hhas⟩
        exact ⟨.inr hhas, _, rfl, hspends⟩
      · rintro ⟨hhas, m, hm, hspends⟩
        obtain rfl := some.inj hm
        refine ⟨hspends, hhas.resolve_left ?_⟩
        rintro rfl
        exact hok.irreflexive hspends
    · rw [h.parents, SpendsOutputOf]
      constructor
      · rintro ⟨hhas, hspends⟩
        exact ⟨.inr hhas, hspends⟩
      · rintro ⟨hhas, m, hm, hspends⟩
        refine ⟨hhas.resolve_left ?_, m, hm, hspends⟩
        rintro rfl
        exact hok.outputs b m hm hspends
  case acyclic =>
    -- nothing spends from the new transaction, so no chain leads through it
    have hedge : ∀ b p, pool'.SpendsOutputOf b p → p ≠ vtx.id ∧
        (b ≠ vtx.id → pool.SpendsOutputOf b p) := by
      rintro b p ⟨hhas, m, hm, hspends⟩
      rw [a.mtxOf] at hm
      split_ifs at hm with heq
      · obtain rfl := some.inj hm
        refine ⟨?_, fun hne => absurd heq hne⟩
        rintro rfl
        exact hok.irreflexive hspends
      · have hne : p ≠ vtx.id := by
          rintro rfl
          exact hok.outputs b m hm hspends
        exact ⟨hne, fun _ => ⟨((a.has_iff p).mp hhas).resolve_left hne, m, hm, hspends⟩⟩
    have hchain : ∀ b p, pool'.DescendsFrom b p → p ≠ vtx.id ∧
        (b ≠ vtx.id → pool.DescendsFrom b p) := by
      intro b p hdescends
      induction hdescends with
      | single hfirst =>
        obtain ⟨hne, hold⟩ := hedge _ _ hfirst
        exact ⟨hne, fun hb => .single (hold hb)⟩
      | tail _ hlast ih =>
        obtain ⟨hne, hold⟩ := hedge _ _ hlast
        exact ⟨hne, fun hb => (ih.2 hb).tail (hold ih.1)⟩
    intro k hcycle
    obtain ⟨hne, hold⟩ := hchain k k hcycle
    exact h.acyclic k (hold hne)
  case redeemers =>
    intro p b
    have hnone : ∀ p, vtx.id ∉ pool.redeemersOf p := by
      intro p hmem
      obtain ⟨-, m, hm, -⟩ := (h.parents p vtx.id).mp ((h.redeemers p vtx.id).mp hmem)
      exact hnew _ m hm rfl
    rw [a.redeemers, a.parentsOf]
    by_cases heq : b = vtx.id
    · subst heq
      rw [if_pos rfl]
      split_ifs with hmem
      · simp [hmem]
      · simp [hmem, hnone]
    · rw [if_neg heq, ← h.redeemers]
      split_ifs with hmem
      · rw [Finset.mem_insert, or_iff_right heq]
      · rfl
  case frontier =>
    intro other
    rw [a.frontier, h.frontier, a.keyOf, a.parentsOf]
    by_cases heq : other.id = vtx.id
    · have hnokey : pool.keyOf other.id ≠ some other := by
        intro hother
        apply hnotHas
        rw [← h.keys, ← heq, hother]
        rfl
      rw [if_pos heq, if_pos heq, some_inj]
      simp [hnokey, eq_comm]
    · have hne : other ≠ key := fun hother => heq (hother ▸ hkey)
      rw [if_neg heq, if_neg heq]
      simp [hne]
  case totalMass => exact a.totalMass h.totalMass
  case size => exact hsize
  case owners =>
    intro o k
    rw [a.utxoSet, MempoolUtxoSet.addTransaction, lookup_insertAll_map, a.spent_iff]
    split_ifs with ho
    · have hone := hok.inputs o ho k
      simp [ho, hone, eq_comm, MutableTransaction.id]
    · rw [h.owners]
      simp [ho]
  case unspent =>
    intro o e
    rw [a.utxoSet, MempoolUtxoSet.lookup_unspent_addTransaction, a.createdEntry]
    by_cases hown : o.transactionId = vtx.id
    · -- nothing spends from the new transaction, and nothing was stored under its id
      have hunspent : ∀ k, ¬ pool'.Spent o k := by
        intro k hk
        rcases (a.spent_iff o k).mp hk with ⟨-, ho⟩ | ⟨m, hm, ho⟩
        · obtain ⟨input, hinput, rfl⟩ := mem_map.mp ho
          exact hok.irreflexive ⟨input, hinput, hown⟩
        · obtain ⟨input, hinput, rfl⟩ := mem_map.mp ho
          exact hok.outputs k m hm ⟨input, hinput, hown⟩
      rw [if_pos hown, and_iff_left hunspent]
      by_cases hindex : o.index < vtx.tx.outputs.length
      · rw [if_pos ⟨hown, hindex⟩]
      · have hnone : pool.utxoSet.poolUnspentOutputs.lookup o ≠ some e := by
          intro hstored
          have hcreated := ((h.unspent o e).mp hstored).1
          rw [createdEntry_of_not_has (hown ▸ hnotHas)] at hcreated
          cases hcreated
        rw [if_neg fun hand => hindex hand.2, getElem?_eq_none (not_lt.mp hindex)]
        split_ifs <;> simp [hnone]
    · rw [if_neg fun hand => hown hand.1, if_neg hown]
      split_ifs with ho
      · have hspent : pool'.Spent o vtx.id := (a.spent_iff o vtx.id).mpr (.inl ⟨rfl, ho⟩)
        constructor
        · intro hnone
          cases hnone
        · rintro ⟨-, hfree⟩
          exact absurd hspent (hfree vtx.id)
      · rw [h.unspent]
        apply and_congr_right
        intro _
        apply forall_congr'
        intro k
        rw [a.spent_iff]
        simp [ho]
  case slots =>
    intro slot k
    rw [a.slotOwners, lookup_insertAll_map, hslotsByTx]
    constructor
    · intro howner
      split_ifs at howner with hmem
      · obtain rfl := some.inj howner
        rw [if_pos ⟨rfl, ne_nil_of_mem hmem⟩]
        exact ⟨slots, rfl, hmem⟩
      · obtain ⟨slots', hslots', hin⟩ := (h.slots slot k).mp howner
        obtain ⟨-, m, hm, -⟩ := h.slotted k slots' hslots'
        rw [if_neg fun hand => hnew k m hm hand.1]
        exact ⟨slots', hslots', hin⟩
    · rintro ⟨slots', hslots', hin⟩
      split_ifs at hslots' with hand
      · obtain rfl := some.inj hslots'
        rw [if_pos hin, hand.1]
      · have howner := (h.slots slot k).mpr ⟨slots', hslots', hin⟩
        rw [if_neg, howner]
        intro hmem
        rw [a.free slot hmem] at howner
        cases howner
  case slotted =>
    intro k slots' hk
    rw [hslotsByTx] at hk
    split_ifs at hk with heq
    · obtain rfl := some.inj hk
      refine ⟨heq.2, vtx.toMutableTransaction, ?_, a.cat heq.2⟩
      rw [a.mtxOf, if_pos heq.1]
    · obtain ⟨hne, m, hm, hcat⟩ := h.slotted k slots' hk
      refine ⟨hne, m, ?_, hcat⟩
      rw [a.mtxOf, if_neg (hnew k m hm), hm]

theorem addMempoolTransaction_consistent {blake2b : Blake2b}
    {priority : Priority} {virtualDaaScore : ℕ} (h : pool.Consistent estimate)
    (hok : pool.Admissible vtx)
    (hadd : addMempoolTransaction blake2b pool vtx priority virtualDaaScore
      (estimate vtx.toMutableTransaction) = .ok pool') : pool'.Consistent estimate := by
  obtain ⟨key, slots, -, hkey, hsize, htotal, a⟩ := addMempoolTransaction_eq_ok hok.mass hadd
  apply a.consistent h hok hkey
  rw [hsize, htotal, h.size]

/-- What has to be looked up to see that nothing in the pool spends what the transaction
spends or creates. -/
theorem Consistent.admissible (h : pool.Consistent estimate)
    (hpopulated : pool.Populated vtx.toMutableTransaction) (hmass : vtx.mass ≠ 0)
    (hinputs : ∀ o ∈ vtx.tx.spentOutpoints, pool.utxoSet.outpointOwnerId.lookup o = none)
    (houtputs : ∀ o ∈ pool.utxoSet.outpointOwnerId.keys, o.transactionId ≠ vtx.id)
    (hself : ∀ input ∈ vtx.tx.inputs, input.previousOutpoint.transactionId ≠ vtx.id) :
    pool.Admissible vtx where
  populated := hpopulated
  mass := hmass
  inputs := by
    intro o ho k hk
    have howner := (h.owners o k).mpr hk
    rw [hinputs o ho] at howner
    cases howner
  outputs := by
    rintro k m hm ⟨input, hinput, hid⟩
    have howner := (h.owners input.previousOutpoint k).mpr ⟨m, hm, mem_map.mpr ⟨input, hinput, rfl⟩⟩
    apply houtputs input.previousOutpoint _ hid
    rw [Finmap.mem_keys]
    exact Finmap.mem_of_lookup_eq_some howner
  irreflexive := by
    rintro ⟨input, hinput, hid⟩
    exact hself input hinput hid

end Addition

/-- What callers promise of a revalidated transaction: it is a stored one, with the fee and
the mass it was added with, and its entries are those of the outputs it spends. -/
structure Revalidated (pool : BookedPool) (vtx : ValidatedTransaction) : Prop where
  populated : pool.Populated vtx.toMutableTransaction
  same : ∀ mtx, pool.mtxOf vtx.id = some mtx → mtx.tx = vtx.tx
  priced : ∀ booking, pool.books.lookup vtx.id = some booking →
    booking.calculatedFee = vtx.calculatedFee ∧ booking.mass = vtx.mass

/-- Both pools store the same transactions, possibly with other entries. -/
def SameTransactions (pool pool' : BookedPool) : Prop :=
  ∀ k, (pool'.mtxOf k).map (·.tx) = (pool.mtxOf k).map (·.tx)

section SameTransactions

theorem SameTransactions.exists_iff (h : SameTransactions pool pool') (k : Bytes32)
    (p : Transaction → Prop) :
    (∃ mtx, pool'.mtxOf k = some mtx ∧ p mtx.tx) ↔ ∃ mtx, pool.mtxOf k = some mtx ∧ p mtx.tx := by
  have hmap : ∀ o : Option MutableTransaction,
      (∃ mtx, o = some mtx ∧ p mtx.tx) ↔ ∃ tx, o.map (·.tx) = some tx ∧ p tx := by
    intro o
    cases o <;> simp
  rw [hmap, hmap, h]

theorem SameTransactions.has (h : SameTransactions pool pool') (k : Bytes32) :
    pool'.has k = pool.has k := by
  have hiff := h.exists_iff k fun _ => True
  simp only [and_true] at hiff
  rw [Bool.eq_iff_iff, Pool.has_iff_mtxOf, Pool.has_iff_mtxOf, hiff]

theorem SameTransactions.createdEntry (h : SameTransactions pool pool') (o : TransactionOutpoint) :
    pool'.createdEntry o = pool.createdEntry o := by
  have hbind : ∀ x : Option MutableTransaction,
      (x.bind fun mtx => (mtx.tx.outputs[o.index]?).map pendingEntry) =
        (x.map (·.tx)).bind fun tx => (tx.outputs[o.index]?).map pendingEntry := by
    intro x
    cases x <;> rfl
  rw [BookedPool.createdEntry, BookedPool.createdEntry, hbind, hbind, h]

theorem SameTransactions.spendsOutputOf (h : SameTransactions pool pool') (b a : Bytes32) :
    pool'.SpendsOutputOf b a ↔ pool.SpendsOutputOf b a := by
  unfold SpendsOutputOf
  rw [h.has]
  apply and_congr_right
  intro _
  exact h.exists_iff b fun tx => ∃ input ∈ tx.inputs, input.previousOutpoint.transactionId = a

theorem SameTransactions.spent (h : SameTransactions pool pool') (o : TransactionOutpoint)
    (k : Bytes32) : pool'.Spent o k ↔ pool.Spent o k :=
  h.exists_iff k fun tx => o ∈ tx.spentOutpoints

theorem SameTransactions.populated (h : SameTransactions pool pool') {mtx : MutableTransaction}
    (hmtx : pool.Populated mtx) : pool'.Populated mtx := by
  refine ⟨hmtx.1, ?_⟩
  intro spent hmem hhas
  rw [h.has] at hhas
  rw [h.createdEntry]
  exact hmtx.2 spent hmem hhas

end SameTransactions

theorem totalSize_replace (estimate : MutableTransaction → ℕ)
    {tx : MempoolTransaction} (htx : pool.all.lookup id = some tx) (mtx : MutableTransaction) :
    total (fun _ (tx : MempoolTransaction) => estimate tx.mtx)
        (pool.all.insert id { tx with mtx := mtx }) + estimate tx.mtx =
      pool.totalSize estimate + estimate mtx ∧ estimate tx.mtx ≤ pool.totalSize estimate := by
  have htotal := total_assign (fun _ (tx : MempoolTransaction) => estimate tx.mtx) pool.all id
    (some { tx with mtx := mtx })
  have hle := weight_le_total (fun _ (tx : MempoolTransaction) => estimate tx.mtx) pool.all id
  rw [htx] at htotal hle
  exact ⟨htotal, hle⟩

theorem size_updateRevalidatedTransaction (vtx : ValidatedTransaction)
    (hsize : pool.estimatedSize = pool.totalSize estimate) :
    (updateRevalidatedTransaction estimate pool vtx).2.estimatedSize =
      (updateRevalidatedTransaction estimate pool vtx).2.totalSize estimate := by
  unfold updateRevalidatedTransaction
  split
  · rename_i tx booking htx _
    obtain ⟨htotal, hle⟩ := totalSize_replace estimate htx vtx.toMutableTransaction
    unfold totalSize at hsize htotal hle ⊢
    dsimp only
    omega
  · exact hsize

theorem mtxOf_updateRevalidatedTransaction {vtx : ValidatedTransaction} {tx : MempoolTransaction}
    {booking : Booking} (htx : pool.all.lookup vtx.id = some tx)
    (hbooking : pool.books.lookup vtx.id = some booking) (k : Bytes32) :
    (updateRevalidatedTransaction estimate pool vtx).2.mtxOf k =
      if k = vtx.id then some vtx.toMutableTransaction else pool.mtxOf k := by
  rw [updateRevalidatedTransaction, htx, hbooking]
  dsimp only
  rw [Pool.mtxOf, lookup_insert_ite]
  split_ifs <;> rfl

theorem updateRevalidatedTransaction_consistent {vtx : ValidatedTransaction}
    (h : pool.Consistent estimate) (hok : pool.Revalidated vtx) :
    (updateRevalidatedTransaction estimate pool vtx).2.Consistent estimate := by
  have hsize := size_updateRevalidatedTransaction vtx h.size
  have hmtx := @mtxOf_updateRevalidatedTransaction estimate pool vtx
  obtain ⟨pool', hpool'⟩ : ∃ p, p = (updateRevalidatedTransaction estimate pool vtx).2 := ⟨_, rfl⟩
  rw [← hpool'] at hsize hmtx ⊢
  unfold updateRevalidatedTransaction at hpool'
  cases htx : pool.all.lookup vtx.id with
  | none =>
    rw [htx] at hpool'
    exact hpool' ▸ h
  | some tx =>
    cases hbooking : pool.books.lookup vtx.id with
    | none =>
      rw [htx, hbooking] at hpool'
      exact hpool' ▸ h
    | some booking =>
      replace hmtx := hmtx htx hbooking
      rw [htx, hbooking] at hpool'
      have hold : pool.mtxOf vtx.id = some tx.mtx := by
        rw [Pool.mtxOf, htx]
        rfl
      have hsame : SameTransactions pool pool' := by
        intro k
        rw [hmtx]
        split_ifs with heq
        · rw [heq, hold, map_some, map_some, hok.same _ hold]
        · rfl
      have hkeyOf : ∀ k, pool'.keyOf k = pool.keyOf k := by
        intro k
        rw [hpool', keyOf, keyOf, lookup_insert_ite]
        split_ifs with heq
        · obtain ⟨hfee, hmass⟩ := hok.priced booking hbooking
          rw [heq, hbooking, bind_some, bind_some, Booking.key, Booking.key, hfee, hmass]
        · rfl
      have hparentsOf : ∀ k, pool'.parentsOf k = pool.parentsOf k := by
        rw [hpool']
        exact fun _ => rfl
      constructor
      case keyed =>
        intro k m hk
        rw [hmtx] at hk
        split_ifs at hk with heq
        · rw [← some.inj hk, heq]
        · exact h.keyed k m hk
      case keys =>
        intro k
        rw [hkeyOf, hsame.has, h.keys]
      case populated =>
        intro k m hk
        rw [hmtx] at hk
        split_ifs at hk with heq
        · obtain rfl := some.inj hk
          exact hsame.populated hok.populated
        · exact hsame.populated (h.populated k m hk)
      case registered =>
        intro k
        rw [hsame.has, ← h.registered, hpool']
      case parents =>
        intro a b
        rw [hparentsOf, hsame.spendsOutputOf, h.parents]
      case redeemers =>
        intro a b
        rw [hparentsOf, ← h.redeemers, hpool']
        rfl
      case acyclic =>
        intro a hcycle
        apply h.acyclic a
        exact Relation.TransGen.mono (fun _ _ hedge => (hsame.spendsOutputOf _ _).mp hedge) _ _ hcycle
      case frontier =>
        intro key
        rw [hkeyOf, hparentsOf, ← h.frontier, hpool']
      case totalMass =>
        rw [hpool']
        exact h.totalMass
      case size => exact hsize
      case owners =>
        intro o k
        rw [hsame.spent, ← h.owners, hpool']
      case unspent =>
        intro o e
        simp only [hsame.spent, hsame.createdEntry]
        rw [← h.unspent, hpool']
      case slots =>
        intro slot k
        rw [hpool']
        exact h.slots slot k
      case slotted =>
        intro k slots hk
        rw [hsame.exists_iff k fun tx => isCatTransaction tx = true]
        rw [hpool'] at hk
        exact h.slotted k slots hk

end BookedPool
end CryptixAtomic.Mempool
