import CryptixAtomic.Mempool.Books

/-!
# The books of the transaction pool stay consistent

`BookedPool.Consistent` says what every structure of the pool has to be in terms of the
stored transactions alone. `Removal` says once what a removal does to each structure;
`Removal.consistent` derives from this description that the pool stays consistent.
-/
namespace CryptixAtomic.Mempool

open Foundation List

variable {o : TransactionOutpoint}

namespace MempoolUtxoSet

variable {parentIds : TransactionIdSet}

theorem lookup_owner_foldl_unspend (l : List (TransactionInput × Option UtxoEntry))
    (utxoSet : MempoolUtxoSet) (o : TransactionOutpoint) :
    (l.foldl (unspend parentIds) utxoSet).outpointOwnerId.lookup o =
      if o ∈ l.map (·.1.previousOutpoint) then none else utxoSet.outpointOwnerId.lookup o := by
  induction l generalizing utxoSet with
  | nil => simp
  | cons spent l ih =>
    rw [foldl_cons, ih, unspend, FMap.lookup_erase_ite, map_cons]
    by_cases hmem : o ∈ l.map (·.1.previousOutpoint)
    · rw [if_pos hmem, if_pos (mem_cons_of_mem _ hmem)]
    · rw [if_neg hmem]
      by_cases heq : o = spent.1.previousOutpoint
      · rw [if_pos heq, if_pos (heq ▸ mem_cons_self)]
      · rw [if_neg heq, if_neg]
        rw [mem_cons, not_or]
        exact ⟨heq, hmem⟩

variable (created : TransactionOutpoint → Option UtxoEntry)

/-- Undoing spent inputs whose entries are those of `created` brings these entries
back. -/
theorem lookup_unspent_foldl_unspend (l : List (TransactionInput × Option UtxoEntry))
    (utxoSet : MempoolUtxoSet)
    (hl : ∀ spent ∈ l, spent.1.previousOutpoint.transactionId ∈ parentIds → spent.2.isSome = true ∧ spent.2 = created spent.1.previousOutpoint)
    (o : TransactionOutpoint) :
    (l.foldl (unspend parentIds) utxoSet).poolUnspentOutputs.lookup o =
      if o ∈ l.map (·.1.previousOutpoint) ∧ o.transactionId ∈ parentIds then created o
      else utxoSet.poolUnspentOutputs.lookup o := by
  induction l generalizing utxoSet with
  | nil => simp
  | cons spent l ih =>
    have hstep : (unspend parentIds utxoSet spent).poolUnspentOutputs.lookup o =
        if o = spent.1.previousOutpoint ∧ o.transactionId ∈ parentIds then created o
        else utxoSet.poolUnspentOutputs.lookup o := by
      unfold unspend
      by_cases hparent : spent.1.previousOutpoint.transactionId ∈ parentIds
      · obtain ⟨hsome, hcreated⟩ := hl spent mem_cons_self hparent
        obtain ⟨entry, hentry⟩ := Option.isSome_iff_exists.mp hsome
        simp only [hentry, if_pos hparent]
        rw [FMap.lookup_insert_ite]
        by_cases heq : o = spent.1.previousOutpoint
        · rw [if_pos heq, if_pos ⟨heq, heq ▸ hparent⟩, ← hentry, hcreated, heq]
        · rw [if_neg heq, if_neg fun hand => heq hand.1]
      · have hnot : ¬ (o = spent.1.previousOutpoint ∧ o.transactionId ∈ parentIds) := by
          rintro ⟨rfl, hmem⟩
          exact hparent hmem
        rw [if_neg hnot]
        cases spent.2 with
        | none => rfl
        | some => simp only [if_neg hparent]
    rw [foldl_cons, ih _ fun x hx => hl x (mem_cons_of_mem _ hx), hstep]
    by_cases hlater : o ∈ l.map (·.1.previousOutpoint) ∧ o.transactionId ∈ parentIds
    · rw [if_pos hlater, if_pos ⟨mem_cons_of_mem _ hlater.1, hlater.2⟩]
    · rw [if_neg hlater]
      by_cases hnow : o = spent.1.previousOutpoint ∧ o.transactionId ∈ parentIds
      · rw [if_pos hnow, if_pos ⟨mem_cons.mpr (.inl hnow.1), hnow.2⟩]
      · rw [if_neg hnow, if_neg]
        rintro ⟨hcons, hparent⟩
        rcases mem_cons.mp hcons with heq | hmem
        · exact hnow ⟨heq, hparent⟩
        · exact hlater ⟨hmem, hparent⟩

variable (utxoSet : MempoolUtxoSet) (mtx : MutableTransaction)

theorem map_zip_entries : (mtx.tx.inputs.zip mtx.entries).map (·.1.previousOutpoint) =
    mtx.tx.spentOutpoints := by
  have hfst : (mtx.tx.inputs.zip mtx.entries).map Prod.fst = mtx.tx.inputs :=
    map_fst_zip (by rw [mtx.aligned])
  calc (mtx.tx.inputs.zip mtx.entries).map (·.1.previousOutpoint)
      = ((mtx.tx.inputs.zip mtx.entries).map Prod.fst).map (·.previousOutpoint) := by
        rw [List.map_map]
        rfl
    _ = mtx.tx.spentOutpoints := by rw [hfst, Transaction.spentOutpoints]

theorem lookup_owner_removeTransaction (o : TransactionOutpoint) :
    (utxoSet.removeTransaction mtx parentIds).outpointOwnerId.lookup o =
      if o ∈ mtx.tx.spentOutpoints then none else utxoSet.outpointOwnerId.lookup o := by
  rw [removeTransaction, lookup_owner_foldl_unspend, map_zip_entries]

theorem lookup_unspent_removeTransaction
    (hentries : ∀ spent ∈ mtx.tx.inputs.zip mtx.entries, spent.1.previousOutpoint.transactionId ∈ parentIds → spent.2.isSome = true ∧ spent.2 = created spent.1.previousOutpoint)
    (o : TransactionOutpoint) :
    (utxoSet.removeTransaction mtx parentIds).poolUnspentOutputs.lookup o =
      if o.transactionId = mtx.id ∧ o.index < mtx.tx.outputs.length then none
      else if o ∈ mtx.tx.spentOutpoints ∧ o.transactionId ∈ parentIds then created o
      else utxoSet.poolUnspentOutputs.lookup o := by
  have hfold : ∀ m : UtxoCollection, (List.range mtx.tx.outputs.length).foldl
      (fun outputs i => outputs.erase (mtx.tx.outpoint i)) m =
        m.eraseAll ((List.range mtx.tx.outputs.length).map mtx.tx.outpoint) := by
    intro m
    rw [FMap.eraseAll, foldl_map]
  have hmem : o ∈ (List.range mtx.tx.outputs.length).map mtx.tx.outpoint ↔
      o.transactionId = mtx.id ∧ o.index < mtx.tx.outputs.length := by
    rw [List.mem_map]
    constructor
    · rintro ⟨i, hi, rfl⟩
      exact ⟨rfl, mem_range.mp hi⟩
    · rintro ⟨hid, hindex⟩
      refine ⟨o.index, mem_range.mpr hindex, ?_⟩
      rw [Transaction.outpoint, show mtx.tx.id = o.transactionId from hid.symm]
  rw [removeTransaction, hfold, FMap.lookup_eraseAll,
    lookup_unspent_foldl_unspend created _ _ hentries, map_zip_entries]
  by_cases hown : o.transactionId = mtx.id ∧ o.index < mtx.tx.outputs.length
  · rw [if_pos (hmem.mpr hown), if_pos hown]
  · rw [if_neg fun h => hown (hmem.mp h), if_neg hown]

theorem mem_pendingEntries {tx : Transaction} {e : UtxoEntry} : (o, e) ∈ pendingEntries tx ↔
      o.transactionId = tx.id ∧ (tx.outputs[o.index]?).map pendingEntry = some e := by
  simp only [pendingEntries, List.mem_map, Prod.exists, List.mem_zipIdx_iff_getElem?,
    Option.map_eq_some_iff, Prod.mk.injEq]
  constructor
  · rintro ⟨output, i, hget, rfl, rfl⟩
    exact ⟨rfl, output, hget, rfl⟩
  · rintro ⟨hid, output, hget, rfl⟩
    exact ⟨output, o.index, hget, by rw [Transaction.outpoint, ← hid], rfl⟩

theorem nodup_pendingEntries (tx : Transaction) : ((pendingEntries tx).map Prod.fst).Nodup := by
  have hmap : (pendingEntries tx).map Prod.fst = (range' 0 tx.outputs.length).map tx.outpoint := by
    rw [← zipIdx_map_snd 0 tx.outputs, pendingEntries, List.map_map, List.map_map]
    rfl
  rw [hmap]
  apply Nodup.map
  · intro i j h
    exact congrArg TransactionOutpoint.index h
  · exact nodup_range'

theorem lookup_unspent_addTransaction (o : TransactionOutpoint) :
    (utxoSet.addTransaction mtx).poolUnspentOutputs.lookup o =
      if o.transactionId = mtx.id ∧ o.index < mtx.tx.outputs.length then
        (mtx.tx.outputs[o.index]?).map pendingEntry
      else if o ∈ mtx.tx.spentOutpoints then none
      else utxoSet.poolUnspentOutputs.lookup o := by
  rw [addTransaction]
  by_cases hown : o.transactionId = mtx.id ∧ o.index < mtx.tx.outputs.length
  · rw [if_pos hown, getElem?_eq_getElem hown.2, Option.map_some]
    apply FMap.lookup_insertAll_of_mem _ (nodup_pendingEntries mtx.tx)
    rw [mem_pendingEntries]
    exact ⟨hown.1, by rw [getElem?_eq_getElem hown.2, Option.map_some]⟩
  · have hnew : o ∉ (pendingEntries mtx.tx).map Prod.fst := by
      intro hmem
      obtain ⟨⟨o', e⟩, he, rfl⟩ := List.mem_map.mp hmem
      obtain ⟨hid, hentry⟩ := mem_pendingEntries.mp he
      obtain ⟨output, hget, -⟩ := Option.map_eq_some_iff.mp hentry
      exact hown ⟨hid, (List.getElem?_eq_some_iff.mp hget).1⟩
    rw [if_neg hown, FMap.lookup_insertAll_of_notMem _ hnew, FMap.lookup_eraseAll]

end MempoolUtxoSet

namespace BookedPool

/-- `b` spends an output of `a`, and both are in the pool. -/
def SpendsOutputOf (pool : BookedPool) (b a : Bytes32) : Prop :=
  pool.has a = true ∧ ∃ mtx, pool.mtxOf b = some mtx ∧ mtx.Spends a

/-- `b` spends from `a` through a chain of pooled transactions. -/
def DescendsFrom (pool : BookedPool) : Bytes32 → Bytes32 → Prop :=
  Relation.TransGen pool.SpendsOutputOf

/-- The pooled transaction `id` spends the outpoint. -/
def Spent (pool : BookedPool) (outpoint : TransactionOutpoint) (id : Bytes32) : Prop :=
  ∃ mtx, pool.mtxOf id = some mtx ∧ outpoint ∈ mtx.tx.spentOutpoints

def createdEntry (pool : BookedPool) (outpoint : TransactionOutpoint) : Option UtxoEntry :=
  (pool.mtxOf outpoint.transactionId).bind fun mtx =>
    (mtx.tx.outputs[outpoint.index]?).map pendingEntry

/-- Every input has its entry, and an input that refers to a pooled transaction has the
entry of the output it spends. -/
def Populated (pool : BookedPool) (mtx : MutableTransaction) : Prop := mtx.isVerifiable = true ∧
    ∀ spent ∈ mtx.tx.inputs.zip mtx.entries,
      pool.has spent.1.previousOutpoint.transactionId = true →
        spent.2 = pool.createdEntry spent.1.previousOutpoint

def totalSize (estimate : MutableTransaction → ℕ) (pool : BookedPool) : ℕ :=
  FMap.total (fun _ tx => estimate tx.mtx) pool.all

structure Consistent (estimate : MutableTransaction → ℕ) (pool : BookedPool) : Prop where
  keyed : ∀ id mtx, pool.mtxOf id = some mtx → mtx.id = id
  keys : ∀ id, (pool.keyOf id).isSome = pool.has id
  populated : ∀ id mtx, pool.mtxOf id = some mtx → pool.Populated mtx
  registered : ∀ id, (pool.parents.lookup id).isSome = pool.has id
  parents : ∀ a b, a ∈ pool.parentsOf b ↔ pool.SpendsOutputOf b a
  redeemers : ∀ a b, b ∈ pool.redeemersOf a ↔ a ∈ pool.parentsOf b
  acyclic : ∀ a, ¬ pool.DescendsFrom a a
  frontier : ∀ key, key ∈ pool.readyTransactions.searchTree ↔
    pool.keyOf key.id = some key ∧ pool.parentsOf key.id = ∅
  totalMass : pool.readyTransactions.Balanced
  size : pool.estimatedSize = pool.totalSize estimate
  owners : ∀ o id, pool.utxoSet.outpointOwnerId.lookup o = some id ↔ pool.Spent o id
  unspent : ∀ o e, pool.utxoSet.poolUnspentOutputs.lookup o = some e ↔
    pool.createdEntry o = some e ∧ ∀ id, ¬ pool.Spent o id
  slots : ∀ slot id, pool.atomicSlotOwners.lookup slot = some id ↔
    ∃ slots, pool.atomicSlotsByTx.lookup id = some slots ∧ slot ∈ slots
  slotted : ∀ id slots, pool.atomicSlotsByTx.lookup id = some slots →
    slots ≠ [] ∧ ∃ mtx, pool.mtxOf id = some mtx ∧ isCatTransaction mtx.tx = true

variable {estimate : MutableTransaction → ℕ} {pool pool' : BookedPool}
variable {id : Bytes32} {chains : List Bytes32}

variable {key : FeerateTransactionKey}

theorem keyOf_id (h : pool.keyOf id = some key) : key.id = id := by
  obtain ⟨booking, -, hkey⟩ := Option.bind_eq_some_iff.mp h
  unfold Booking.key at hkey
  cases hfee : booking.calculatedFee with
  | none => simp [hfee] at hkey
  | some =>
    simp only [hfee] at hkey
    split_ifs at hkey
    rw [← Option.some.inj hkey]

theorem totalSize_congr (h : ∀ k, pool'.mtxOf k = pool.mtxOf k) :
    pool'.totalSize estimate = pool.totalSize estimate := by
  have hweight : ∀ (p : BookedPool) k,
      FMap.weight (fun _ (tx : MempoolTransaction) => estimate tx.mtx) k (p.all.lookup k) =
        (p.mtxOf k).elim 0 estimate := by
    intro p k
    rw [Pool.mtxOf]
    cases p.all.lookup k <;> rfl
  have hleft : pool'.all.keys ⊆ pool'.all.keys ∪ pool.all.keys := Finset.subset_union_left
  have hright : pool.all.keys ⊆ pool'.all.keys ∪ pool.all.keys := Finset.subset_union_right
  rw [totalSize, totalSize, FMap.total_eq_sum _ _ hleft, FMap.total_eq_sum _ _ hright]
  apply Finset.sum_congr rfl
  intro k _
  rw [hweight, hweight, h]

theorem lookup_unchain (id : Bytes32) (chained : TransactionsEdges) (parent a : Bytes32) :
    ((unchain id chained parent).lookup a).getD ∅ =
      if a = parent then ((chained.lookup a).getD ∅).erase id else (chained.lookup a).getD ∅ := by
  unfold unchain
  cases hparent : chained.lookup parent with
  | none =>
    split_ifs with heq
    · rw [heq, hparent]
      rfl
    · rfl
  | some =>
    dsimp only
    rw [FMap.lookup_insert_ite]
    split_ifs with heq
    · rw [heq, hparent]
      rfl
    · rfl

theorem lookup_foldl_unchain (id : Bytes32) (parents : List Bytes32) (chained : TransactionsEdges)
    (a : Bytes32) :
    ((parents.foldl (unchain id) chained).lookup a).getD ∅ =
      if a ∈ parents then ((chained.lookup a).getD ∅).erase id
      else (chained.lookup a).getD ∅ := by
  induction parents generalizing chained with
  | nil => simp
  | cons parent parents ih =>
    rw [foldl_cons, ih, lookup_unchain]
    by_cases heq : a = parent <;> by_cases hmem : a ∈ parents <;> simp [heq, hmem]

/-- What releasing the redeemers of `id` does: each loses `id` as a parent, and those
without parents left join the frontier. -/
structure Released (id : Bytes32) (chains : List Bytes32) (pool pool' : BookedPool) : Prop where
  mtxOf : ∀ k, pool'.mtxOf k = pool.mtxOf k
  books : pool'.books = pool.books
  chained : pool'.chained = pool.chained
  parents : ∀ k, pool'.parents.lookup k =
    if k ∈ chains then (pool.parents.lookup k).map (·.erase id) else pool.parents.lookup k
  frontier : ∀ key, key ∈ pool'.readyTransactions.searchTree ↔
    key ∈ pool.readyTransactions.searchTree ∨ key.id ∈ chains ∧ pool.keyOf key.id = some key ∧
      ∃ parents, pool.parents.lookup key.id = some parents ∧ parents.erase id = ∅
  totalMass : pool.readyTransactions.Balanced → pool'.readyTransactions.Balanced
  size : pool'.estimatedSize = pool.estimatedSize
  utxoSet : pool'.utxoSet = pool.utxoSet
  slotOwners : pool'.atomicSlotOwners = pool.atomicSlotOwners
  slotsByTx : pool'.atomicSlotsByTx = pool.atomicSlotsByTx

/-- Whatever has an entry in the parents map is stored, with a frontier key. -/
def Listed (pool : BookedPool) : Prop :=
  ∀ id, (pool.parents.lookup id).isSome = true → pool.has id = true ∧ (pool.keyOf id).isSome = true

theorem Released.keyOf (h : Released id chains pool pool')
    (k : Bytes32) : pool'.keyOf k = pool.keyOf k := by
  rw [BookedPool.keyOf, h.books, BookedPool.keyOf]

theorem Released.listed (h : Released id chains pool pool')
    (hlisted : pool.Listed) : pool'.Listed := by
  intro k hk
  have hsome : (pool.parents.lookup k).isSome = true := by
    rw [h.parents] at hk
    split_ifs at hk
    · rwa [Option.isSome_map] at hk
    · exact hk
  rw [Pool.has_of_mtxOf_eq (h.mtxOf k), h.keyOf]
  exact hlisted k hsome

theorem Released.refl (id : Bytes32) (pool : BookedPool) : Released id [] pool pool := by
  constructor <;> simp

theorem Released.trans {id chain : Bytes32} {mid : BookedPool}
    (h : Released id [chain] pool mid) (h' : Released id chains mid pool') :
    Released id (chain :: chains) pool pool' where
  mtxOf := fun k => (h'.mtxOf k).trans (h.mtxOf k)
  books := h'.books.trans h.books
  chained := h'.chained.trans h.chained
  parents := by
    intro k
    rw [h'.parents, h.parents]
    by_cases heq : k = chain <;> by_cases hmem : k ∈ chains
    all_goals simp [heq, hmem, Option.map_map, Function.comp_def]
  frontier := by
    intro key
    -- erasing `id` twice leaves what erasing it once leaves
    have hparents : (∃ parents, mid.parents.lookup key.id = some parents ∧ parents.erase id = ∅) ↔
        ∃ parents, pool.parents.lookup key.id = some parents ∧ parents.erase id = ∅ := by
      rw [h.parents]
      split_ifs
      · cases pool.parents.lookup key.id <;> simp
      · rfl
    simp only [h'.frontier, h.frontier, h.keyOf, hparents, mem_cons, not_mem_nil, or_false]
    rw [or_and_right, or_assoc]
  totalMass := fun hb => h'.totalMass (h.totalMass hb)
  size := h'.size.trans h.size
  utxoSet := h'.utxoSet.trans h.utxoSet
  slotOwners := h'.slotOwners.trans h.slotOwners
  slotsByTx := h'.slotsByTx.trans h.slotsByTx

theorem release_run (hlisted : pool.Listed) (id : Bytes32) (unblockedAtDaaScore : Option ℕ)
    (chain : Bytes32) :
    ∃ pool', (release id unblockedAtDaaScore chain).run pool = .ok () pool' ∧
      Released id [chain] pool pool' := by
  cases hparents : pool.parents.lookup chain with
  | none =>
    have hrun : (release id unblockedAtDaaScore chain).run pool = .ok () pool := by
      simp [release, EStateM.run_bind, hparents]
    refine ⟨pool, hrun, ⟨fun k => rfl, rfl, rfl, ?_, ?_, fun hb => hb, rfl, rfl, rfl, rfl⟩⟩
    · intro k
      by_cases heq : k = chain
      · subst heq
        simp [hparents]
      · simp [heq]
    · intro key
      constructor
      · exact .inl
      · rintro (hmem | ⟨hchain, -, parents, hsome, -⟩)
        · exact hmem
        · rw [mem_singleton.mp hchain, hparents] at hsome
          cases hsome
  | some parents =>
    have hedges : ∀ k, (pool.parents.insert chain (parents.erase id)).lookup k =
        if k ∈ [chain] then (pool.parents.lookup k).map (·.erase id)
        else pool.parents.lookup k := by
      intro k
      rw [FMap.lookup_insert_ite]
      by_cases heq : k = chain
      · subst heq
        simp [hparents]
      · simp [heq]
    obtain ⟨hhas, hkeyed⟩ := hlisted chain (by rw [hparents]; rfl)
    obtain ⟨tx, htx⟩ := Option.isSome_iff_exists.mp hhas
    obtain ⟨key, hkey⟩ := Option.isSome_iff_exists.mp hkeyed
    have hkeyid := keyOf_id hkey
    by_cases hempty : parents.erase id = ∅
    · have hrun : (release id unblockedAtDaaScore chain).run pool = .ok ()
          { pool with
            parents := pool.parents.insert chain (parents.erase id)
            all := pool.all.insert chain
              { tx with readyAtDaaScore := unblockedAtDaaScore.getD tx.readyAtDaaScore }
            readyTransactions := pool.readyTransactions.insert key } := by
        simp [release, EStateM.run_bind, hparents, hempty, htx, hkey]
      refine ⟨_, hrun, ⟨?_, rfl, rfl, hedges, ?_, fun hb => hb.insert key, rfl, rfl, rfl, rfl⟩⟩
      · intro k
        rw [Pool.mtxOf, Pool.mtxOf, FMap.lookup_insert_ite]
        split_ifs with heq
        · rw [heq, htx]
          rfl
        · rfl
      · intro other
        rw [Frontier.mem_insert, mem_singleton, or_comm]
        apply or_congr_right
        constructor
        · rintro rfl
          rw [hkeyid]
          exact ⟨rfl, hkey, parents, hparents, hempty⟩
        · rintro ⟨heq, hother, -⟩
          rw [heq, hkey] at hother
          exact (Option.some.inj hother).symm
    · have hrun : (release id unblockedAtDaaScore chain).run pool =
          .ok () { pool with parents := pool.parents.insert chain (parents.erase id) } := by
        simp [release, EStateM.run_bind, hparents, hempty]
      refine ⟨_, hrun, ⟨fun k => rfl, rfl, rfl, hedges, ?_, fun hb => hb, rfl, rfl, rfl, rfl⟩⟩
      intro other
      constructor
      · exact .inl
      · rintro (hmem | ⟨hchain, -, others, hsome, hnone⟩)
        · exact hmem
        · rw [mem_singleton.mp hchain, hparents] at hsome
          obtain rfl := Option.some.inj hsome
          exact absurd hnone hempty

theorem releaseAll_run (hlisted : pool.Listed) (id : Bytes32) (unblockedAtDaaScore : Option ℕ)
    (chains : List Bytes32) :
    ∃ pool', (releaseAll id unblockedAtDaaScore chains).run pool = .ok () pool' ∧
      Released id chains pool pool' := by
  induction chains generalizing pool with
  | nil => exact ⟨pool, rfl, Released.refl id pool⟩
  | cons chain chains ih =>
    obtain ⟨mid, hmid, hreleased⟩ := release_run hlisted id unblockedAtDaaScore chain
    obtain ⟨pool', hrun, hrest⟩ := ih (hreleased.listed hlisted)
    have hall : (releaseAll id unblockedAtDaaScore (chain :: chains)).run pool = .ok () pool' := by
      rw [releaseAll, run_bind_of_ok hmid]
      exact hrun
    exact ⟨pool', hall, hreleased.trans hrest⟩

structure Removal (estimate : MutableTransaction → ℕ) (id : Bytes32) (mtx : MutableTransaction)
    (pool pool' : BookedPool) : Prop where
  mtxOf : ∀ k, pool'.mtxOf k = if k = id then none else pool.mtxOf k
  books : pool'.books = pool.books.erase id
  parents : ∀ k, pool'.parents.lookup k =
    if k = id then none
    else if k ∈ pool.redeemersOf id then (pool.parents.lookup k).map (·.erase id)
    else pool.parents.lookup k
  redeemers : ∀ a, pool'.redeemersOf a =
    if a = id then ∅
    else if a ∈ pool.parentsOf id then (pool.redeemersOf a).erase id
    else pool.redeemersOf a
  frontier : ∀ key, key ∈ pool'.readyTransactions.searchTree ↔
    pool.keyOf id ≠ some key ∧ (key ∈ pool.readyTransactions.searchTree ∨
      key.id ∈ pool.redeemersOf id ∧ pool.keyOf key.id = some key ∧
        ∃ parents, pool.parents.lookup key.id = some parents ∧ parents.erase id = ∅)
  totalMass : pool.readyTransactions.Balanced → pool'.readyTransactions.Balanced
  size : pool'.estimatedSize = pool.estimatedSize - estimate mtx
  utxoSet : pool'.utxoSet =
    pool.utxoSet.removeTransaction mtx (pool'.getParentTransactionIdsInPool mtx)
  slotOwners : pool'.atomicSlotOwners =
    ((pool.atomicSlotsByTx.lookup id).getD []).foldl (freeSlot id) pool.atomicSlotOwners
  slotsByTx : pool'.atomicSlotsByTx = pool.atomicSlotsByTx.erase id

theorem totalSize_erase {id : Bytes32} {mtx : MutableTransaction} (hid : pool.mtxOf id = some mtx)
    (h : ∀ k, pool'.mtxOf k = if k = id then none else pool.mtxOf k) :
    pool'.totalSize estimate + estimate mtx = pool.totalSize estimate := by
  obtain ⟨tx, htx, rfl⟩ := Option.map_eq_some_iff.mp hid
  have herased : ∀ k, pool'.mtxOf k =
      ({ pool with all := pool.all.erase id } : BookedPool).mtxOf k := by
    intro k
    rw [h]
    exact (Pool.mtxOf_erase rfl k).symm
  have htotal := FMap.total_erase (fun _ (tx : MempoolTransaction) => estimate tx.mtx) pool.all id
  rw [htx] at htotal
  rw [totalSize_congr herased]
  exact htotal

theorem redeemersOf_unlink (id : Bytes32) (pool : BookedPool) (a : Bytes32) :
    (unlink id pool).redeemersOf a =
      if a ∈ pool.parentsOf id then (pool.redeemersOf a).erase id else pool.redeemersOf a := by
  rw [redeemersOf, unlink, lookup_foldl_unchain]
  simp only [FMap.mem_sortKeys, redeemersOf]

theorem redeemersOf_cut (id : Bytes32) (pool : BookedPool) (a : Bytes32) :
    (cut id pool).redeemersOf a = if a = id then ∅ else pool.redeemersOf a := by
  rw [redeemersOf, cut, FMap.lookup_erase_ite]
  split_ifs <;> rfl

theorem takeOut_run {tx : MempoolTransaction}
    (htx : pool.all.lookup id = some tx) (hkey : pool.keyOf id = some key)
    (hsize : pool.estimatedSize = pool.totalSize estimate) :
    (takeOut estimate id).run pool = .ok tx (without estimate pool id tx key) := by
  have hassert : ¬ ((without estimate pool id tx key).all = ∅ ∧
      (without estimate pool id tx key).estimatedSize ≠ 0) := by
    rintro ⟨hall, hne⟩
    apply hne
    have htotal := FMap.total_erase (fun _ (tx : MempoolTransaction) => estimate tx.mtx) pool.all id
    have herase : pool.all.erase id = ∅ := hall
    rw [herase, FMap.total_empty, htx] at htotal
    change pool.estimatedSize - estimate tx.mtx = 0
    rw [hsize, totalSize, ← htotal]
    simp
  simp [takeOut, htx, hkey, if_neg hassert]

/-- Enough for a transaction to be taken out. Unlike consistency it survives an update
that changes fees. -/
structure Workable (estimate : MutableTransaction → ℕ) (pool : BookedPool) : Prop where
  keyed : ∀ id mtx, pool.mtxOf id = some mtx → mtx.id = id
  listed : pool.Listed
  keys : ∀ id, pool.has id = true → (pool.keyOf id).isSome = true
  size : pool.estimatedSize = pool.totalSize estimate

theorem Consistent.workable (h : pool.Consistent estimate) : pool.Workable estimate where
  keyed := h.keyed
  listed := by
    intro id hid
    rw [h.registered] at hid
    exact ⟨hid, (h.keys id).trans hid⟩
  keys := fun id hid => (h.keys id).trans hid
  size := h.size

/-- The three stages of a removal: unlink from the parents, release the redeemers, take the
transaction out. -/
theorem removeTransaction_eq (h : pool.Workable estimate) {mtx : MutableTransaction}
    (hid : pool.mtxOf id = some mtx) (unblockedAtDaaScore : Option ℕ) :
    ∃ tx key released, tx.mtx = mtx ∧ pool.keyOf id = some key ∧
      Released id (FMap.sortKeys ((unlink id pool).redeemersOf id)) (unlink id pool) released ∧
      (removeTransaction estimate id unblockedAtDaaScore).run pool =
        .ok tx (without estimate (cut id released) id tx key) := by
  have hlisted : (unlink id pool).Listed := h.listed
  obtain ⟨released, hrelease, hreleased⟩ := releaseAll_run hlisted id unblockedAtDaaScore
    (FMap.sortKeys ((unlink id pool).redeemersOf id))
  have hmtx : ∀ k, (cut id released).mtxOf k = pool.mtxOf k := hreleased.mtxOf
  obtain ⟨tx, htx, rfl⟩ := Option.map_eq_some_iff.mp ((hmtx id).trans hid)
  obtain ⟨key, hkey⟩ := Option.isSome_iff_exists.mp (h.keys id (Pool.has_iff_mtxOf.mpr ⟨_, hid⟩))
  have hkey' : (cut id released).keyOf id = some key := (hreleased.keyOf id).trans hkey
  have hsize : (cut id released).estimatedSize = (cut id released).totalSize estimate := by
    rw [totalSize_congr hmtx, ← h.size]
    exact hreleased.size
  refine ⟨tx, key, released, rfl, hkey, hreleased, ?_⟩
  rw [removeTransaction, run_bind_of_ok (run_modify _ _), run_bind_of_ok (run_get _),
    run_bind_of_ok hrelease, run_bind_of_ok (run_modify _ _)]
  exact takeOut_run htx hkey' hsize

theorem removeTransaction_run (h : pool.Workable estimate)
    {mtx : MutableTransaction} (hid : pool.mtxOf id = some mtx) (unblockedAtDaaScore : Option ℕ) :
    ∃ tx pool', (removeTransaction estimate id unblockedAtDaaScore).run pool = .ok tx pool' ∧
      tx.mtx = mtx ∧ Removal estimate id mtx pool pool' := by
  obtain ⟨tx, key, released, rfl, hkey, hreleased, hrun⟩ :=
    removeTransaction_eq h hid unblockedAtDaaScore
  have hmtx : ∀ k, (cut id released).mtxOf k = pool.mtxOf k := hreleased.mtxOf
  have hchain : ∀ k, k ≠ id → (k ∈ FMap.sortKeys ((unlink id pool).redeemersOf id) ↔
      k ∈ pool.redeemersOf id) := by
    intro k hne
    rw [FMap.mem_sortKeys, redeemersOf_unlink]
    split_ifs
    · rw [Finset.mem_erase, and_iff_right hne]
    · rfl
  refine ⟨tx, _, hrun, rfl, ?_⟩
  constructor
  case mtxOf =>
    intro k
    rw [← hmtx]
    exact Pool.mtxOf_erase rfl k
  case books =>
    change released.books.erase id = pool.books.erase id
    rw [hreleased.books]
    rfl
  case parents =>
    intro k
    change (released.parents.erase id).lookup k = _
    rw [FMap.lookup_erase_ite, hreleased.parents]
    split_ifs with heq hmem hmem' hmem'
    · rfl
    · rfl
    · exact absurd ((hchain k heq).mp hmem) hmem'
    · exact absurd ((hchain k heq).mpr hmem') hmem
    · rfl
  case redeemers =>
    intro a
    have hreleasedRedeemers : released.redeemersOf a = (unlink id pool).redeemersOf a := by
      rw [redeemersOf, hreleased.chained, redeemersOf]
    change (cut id released).redeemersOf a = _
    rw [redeemersOf_cut, hreleasedRedeemers, redeemersOf_unlink]
  case frontier =>
    intro other
    change other ∈ (released.readyTransactions.remove key).searchTree ↔ _
    rw [Frontier.mem_remove, hreleased.frontier, hkey, ne_comm, Ne, Ne, Option.some_inj]
    apply and_congr_right
    intro hne
    have hneid : pool.keyOf other.id = some other → other.id ≠ id := by
      intro hother heq
      have hsame : pool.keyOf id = some other := heq ▸ hother
      exact hne (Option.some.inj (hkey.symm.trans hsame))
    apply or_congr_right
    constructor
    · rintro ⟨hmem, hother, hparents⟩
      exact ⟨(hchain other.id (hneid hother)).mp hmem, hother, hparents⟩
    · rintro ⟨hmem, hother, hparents⟩
      exact ⟨(hchain other.id (hneid hother)).mpr hmem, hother, hparents⟩
  case totalMass => exact fun hbalanced => (hreleased.totalMass hbalanced).remove key
  case size =>
    change released.estimatedSize - estimate tx.mtx = _
    rw [hreleased.size]
    rfl
  case utxoSet =>
    change released.utxoSet.removeTransaction tx.mtx _ = _
    rw [hreleased.utxoSet]
    rfl
  case slotOwners =>
    change ((released.atomicSlotsByTx.lookup id).getD []).foldl (freeSlot id)
      released.atomicSlotOwners = _
    rw [hreleased.slotsByTx, hreleased.slotOwners]
    rfl
  case slotsByTx =>
    change released.atomicSlotsByTx.erase id = _
    rw [hreleased.slotsByTx]
    rfl

section Removal

variable {id : Bytes32} {mtx : MutableTransaction}

theorem Removal.mtxOf_eq_some (r : Removal estimate id mtx pool pool') {k : Bytes32}
    {m : MutableTransaction} (hk : pool'.mtxOf k = some m) : k ≠ id ∧ pool.mtxOf k = some m := by
  rw [r.mtxOf] at hk
  split_ifs at hk with heq
  exact ⟨heq, hk⟩

theorem Removal.has_iff (r : Removal estimate id mtx pool pool') (k : Bytes32) :
    pool'.has k = true ↔ k ≠ id ∧ pool.has k = true := by
  rw [Pool.has_iff_mtxOf, r.mtxOf, Pool.has_iff_mtxOf]
  split_ifs with heq
  · simp [heq]
  · simp [heq]

theorem Removal.keyOf (r : Removal estimate id mtx pool pool') (k : Bytes32) :
    pool'.keyOf k = if k = id then none else pool.keyOf k := by
  rw [BookedPool.keyOf, r.books, FMap.lookup_erase_ite]
  split_ifs <;> rfl

theorem Removal.parentsOf (h : pool.Consistent estimate) (r : Removal estimate id mtx pool pool')
    (k : Bytes32) :
    pool'.parentsOf k = if k = id then ∅ else (pool.parentsOf k).erase id := by
  rw [BookedPool.parentsOf, r.parents]
  split_ifs with heq hmem
  · rfl
  · rw [BookedPool.parentsOf]
    cases pool.parents.lookup k <;> rfl
  · rw [h.redeemers] at hmem
    exact (Finset.erase_eq_of_notMem hmem).symm

theorem Removal.redeemersOf (h : pool.Consistent estimate) (r : Removal estimate id mtx pool pool')
    (a : Bytes32) :
    pool'.redeemersOf a = if a = id then ∅ else (pool.redeemersOf a).erase id := by
  rw [r.redeemers]
  split_ifs with heq hmem
  · rfl
  · rfl
  · rw [← h.redeemers] at hmem
    exact (Finset.erase_eq_of_notMem hmem).symm

theorem Removal.spent_iff (r : Removal estimate id mtx pool pool') (o : TransactionOutpoint)
    (k : Bytes32) : pool'.Spent o k ↔ k ≠ id ∧ pool.Spent o k := by
  unfold Spent
  rw [r.mtxOf]
  split_ifs with heq <;> simp [heq]

theorem Removal.createdEntry (r : Removal estimate id mtx pool pool') (o : TransactionOutpoint) :
    pool'.createdEntry o = if o.transactionId = id then none else pool.createdEntry o := by
  rw [BookedPool.createdEntry, r.mtxOf]
  split_ifs <;> rfl

theorem Removal.spendsOutputOf_iff (r : Removal estimate id mtx pool pool') (b a : Bytes32) :
    pool'.SpendsOutputOf b a ↔ a ≠ id ∧ b ≠ id ∧ pool.SpendsOutputOf b a := by
  unfold SpendsOutputOf
  rw [r.has_iff, r.mtxOf]
  split_ifs with heq
  · simp [heq]
  · simp [heq, and_assoc]

theorem Removal.frontier_iff (h : pool.Consistent estimate)
    (r : Removal estimate id mtx pool pool') (key : FeerateTransactionKey) :
    key ∈ pool'.readyTransactions.searchTree ↔
      pool'.keyOf key.id = some key ∧ pool'.parentsOf key.id = ∅ := by
  rw [r.frontier, h.frontier, r.keyOf, Removal.parentsOf h r]
  constructor
  · rintro ⟨hne, hready⟩
    have hkey : pool.keyOf key.id = some key := by
      rcases hready with hready | hready
      · exact hready.1
      · exact hready.2.1
    have hneid : key.id ≠ id := fun heq => hne (heq ▸ hkey)
    rw [if_neg hneid, if_neg hneid]
    rcases hready with ⟨-, hempty⟩ | ⟨-, -, parents, hparents, hempty⟩
    · rw [hempty]
      exact ⟨hkey, Finset.erase_empty id⟩
    · rw [BookedPool.parentsOf, hparents]
      exact ⟨hkey, hempty⟩
  · rintro ⟨hkey, hempty⟩
    have hneid : key.id ≠ id := by
      intro heq
      rw [if_pos heq] at hkey
      cases hkey
    rw [if_neg hneid] at hkey hempty
    constructor
    · intro hid
      exact hneid (keyOf_id hid)
    · by_cases hmem : id ∈ pool.parentsOf key.id
      · have hsome : (pool.parents.lookup key.id).isSome = true := by
          rw [h.registered, ← h.keys, hkey]
          rfl
        obtain ⟨parents, hparents⟩ := Option.isSome_iff_exists.mp hsome
        rw [BookedPool.parentsOf, hparents] at hempty
        exact .inr ⟨(h.redeemers id key.id).mpr hmem, hkey, parents, hparents, hempty⟩
      · rw [Finset.erase_eq_of_notMem hmem] at hempty
        exact .inl ⟨hkey, hempty⟩

theorem mem_parentsInPool (pool : BookedPool) (mtx : MutableTransaction) (a : Bytes32) :
    a ∈ pool.getParentTransactionIdsInPool mtx ↔ mtx.Spends a ∧ pool.has a = true := by
  rw [Pool.getParentTransactionIdsInPool, List.mem_toFinset, List.mem_filter, List.mem_map]
  rfl

theorem lookup_foldl_freeSlot (id : Bytes32) (slots : List AtomicMempoolSlot)
    (owners : FMap AtomicMempoolSlot Bytes32) (slot : AtomicMempoolSlot) :
    (slots.foldl (freeSlot id) owners).lookup slot =
      if slot ∈ slots ∧ owners.lookup slot = some id then none else owners.lookup slot := by
  induction slots generalizing owners with
  | nil => simp
  | cons other slots ih =>
    rw [foldl_cons, ih]
    by_cases heq : slot = other
    · subst heq
      have hstep : (freeSlot id owners slot).lookup slot =
          if owners.lookup slot = some id then none else owners.lookup slot := by
        unfold freeSlot
        split_ifs
        · rw [FMap.lookup_erase_ite, if_pos rfl]
        · rfl
      rw [hstep]
      by_cases howner : owners.lookup slot = some id <;> simp [howner]
    · have hstep : (freeSlot id owners other).lookup slot = owners.lookup slot := by
        unfold freeSlot
        split_ifs
        · rw [FMap.lookup_erase_ite, if_neg heq]
        · rfl
      rw [hstep]
      simp [heq]

theorem Consistent.spent_unique (h : pool.Consistent estimate)
    {a b : Bytes32} (ha : pool.Spent o a) (hb : pool.Spent o b) : a = b := by
  have howner := (h.owners o a).mpr ha
  rw [(h.owners o b).mpr hb] at howner
  exact (Option.some.inj howner).symm

theorem createdEntry_of_not_has
    (hhas : ¬ pool.has o.transactionId = true) : pool.createdEntry o = none := by
  rw [Pool.has_iff_mtxOf] at hhas
  rw [BookedPool.createdEntry]
  cases hmtx : pool.mtxOf o.transactionId with
  | none => rfl
  | some mtx => exact absurd ⟨mtx, hmtx⟩ hhas

theorem Removal.workable (h : pool.Workable estimate) (hid : pool.mtxOf id = some mtx)
    (r : Removal estimate id mtx pool pool') : pool'.Workable estimate := by
  constructor
  case keyed => exact fun k m hk => h.keyed k m (r.mtxOf_eq_some hk).2
  case listed =>
    intro k hk
    have hparents : k ≠ id ∧ (pool.parents.lookup k).isSome = true := by
      rw [r.parents] at hk
      split_ifs at hk with heq hmem
      · cases hk
      · exact ⟨heq, by rwa [Option.isSome_map] at hk⟩
      · exact ⟨heq, hk⟩
    rw [r.has_iff, r.keyOf, if_neg hparents.1]
    obtain ⟨hhas, hkey⟩ := h.listed k hparents.2
    exact ⟨⟨hparents.1, hhas⟩, hkey⟩
  case keys =>
    intro k hk
    rw [r.has_iff] at hk
    rw [r.keyOf, if_neg hk.1]
    exact h.keys k hk.2
  case size =>
    have htotal : pool'.totalSize estimate + estimate mtx = pool.totalSize estimate :=
      totalSize_erase hid r.mtxOf
    rw [r.size, h.size]
    omega

theorem Removal.consistent (h : pool.Consistent estimate) (hid : pool.mtxOf id = some mtx)
    (r : Removal estimate id mtx pool pool') : pool'.Consistent estimate := by
  have hmtxid : mtx.id = id := h.keyed id mtx hid
  have hspent : ∀ o, o ∈ mtx.tx.spentOutpoints ↔ pool.Spent o id := by
    intro o
    constructor
    · intro ho
      exact ⟨mtx, hid, ho⟩
    · rintro ⟨m, hm, ho⟩
      rw [hid] at hm
      rwa [Option.some.inj hm]
  have hfreed : ∀ o ∈ mtx.tx.spentOutpoints, ∀ k, ¬ pool'.Spent o k := by
    intro o ho k hk
    rw [r.spent_iff] at hk
    exact hk.1 (h.spent_unique hk.2 ((hspent o).mp ho))
  have hothers : ∀ o, o ∉ mtx.tx.spentOutpoints → ∀ k, pool.Spent o k ↔ pool'.Spent o k := by
    intro o ho k
    rw [r.spent_iff]
    constructor
    · intro hk
      refine ⟨?_, hk⟩
      rintro rfl
      exact ho ((hspent o).mpr hk)
    · exact And.right
  constructor
  case keyed => exact (r.workable h.workable hid).keyed
  case keys =>
    intro k
    rw [r.keyOf, Bool.eq_iff_iff, r.has_iff]
    split_ifs with heq
    · simp [heq]
    · rw [h.keys]
      simp [heq]
  case populated =>
    intro k m hk
    obtain ⟨hverifiable, hentries⟩ := h.populated k m (r.mtxOf_eq_some hk).2
    refine ⟨hverifiable, ?_⟩
    intro spent hmem hhas
    rw [r.has_iff] at hhas
    rw [r.createdEntry, if_neg hhas.1]
    exact hentries spent hmem hhas.2
  case registered =>
    intro k
    rw [Bool.eq_iff_iff, r.has_iff, r.parents]
    split_ifs with heq hmem
    · simp [heq]
    · rw [Option.isSome_map, h.registered]
      simp [heq]
    · rw [h.registered]
      simp [heq]
  case parents =>
    intro a b
    rw [Removal.parentsOf h r, r.spendsOutputOf_iff]
    split_ifs with heq
    · simp [heq]
    · rw [Finset.mem_erase, h.parents]
      simp [heq]
  case redeemers =>
    intro a b
    rw [Removal.parentsOf h r, Removal.redeemersOf h r]
    split_ifs with ha hb hb
    · simp
    · simp [ha]
    · simp [hb]
    · rw [Finset.mem_erase, Finset.mem_erase, h.redeemers]
      simp [ha, hb]
  case acyclic =>
    intro a hcycle
    apply h.acyclic a
    exact Relation.TransGen.mono (fun _ _ hedge => ((r.spendsOutputOf_iff _ _).mp hedge).2.2) _ _ hcycle
  case frontier => exact Removal.frontier_iff h r
  case totalMass => exact r.totalMass h.totalMass
  case size => exact (r.workable h.workable hid).size
  case owners =>
    intro o k
    rw [r.utxoSet, MempoolUtxoSet.lookup_owner_removeTransaction]
    split_ifs with ho
    · have hfree := hfreed o ho k
      simp [hfree]
    · rw [h.owners, hothers o ho]
  case unspent =>
    intro o e
    have hentries : ∀ spent ∈ mtx.tx.inputs.zip mtx.entries,
        spent.1.previousOutpoint.transactionId ∈ pool'.getParentTransactionIdsInPool mtx →
          spent.2.isSome = true ∧ spent.2 = pool.createdEntry spent.1.previousOutpoint := by
      intro spent hmem hparent
      obtain ⟨hverifiable, hpopulated⟩ := h.populated id mtx hid
      have hhas := (r.has_iff _).mp ((mem_parentsInPool _ _ _).mp hparent).2
      have hsome := all_eq_true.mp hverifiable spent.2 (of_mem_zip hmem).2
      exact ⟨hsome, hpopulated spent hmem hhas.2⟩
    rw [r.utxoSet, MempoolUtxoSet.lookup_unspent_removeTransaction _ _ _ hentries, r.createdEntry,
      hmtxid]
    by_cases hown : o.transactionId = id
    · -- its own outputs are taken out, and nothing else was stored under its id
      have hparent : ¬ (o ∈ mtx.tx.spentOutpoints ∧
          o.transactionId ∈ pool'.getParentTransactionIdsInPool mtx) := by
        rintro ⟨-, hmem⟩
        exact ((r.has_iff _).mp ((mem_parentsInPool _ _ _).mp hmem).2).1 hown
      rw [if_neg hparent, if_pos hown]
      split_ifs with hindex
      · simp
      · have hbefore : pool.utxoSet.poolUnspentOutputs.lookup o ≠ some e := by
          intro hstored
          obtain ⟨m, hm, hentry⟩ := Option.bind_eq_some_iff.mp ((h.unspent o e).mp hstored).1
          obtain ⟨output, houtput, -⟩ := Option.map_eq_some_iff.mp hentry
          rw [hown, hid] at hm
          obtain rfl := Option.some.inj hm
          exact hindex ⟨hown, (List.getElem?_eq_some_iff.mp houtput).1⟩
        simp [hbefore]
    · rw [if_neg fun hand => hown hand.1, if_neg hown]
      by_cases ho : o ∈ mtx.tx.spentOutpoints
      · have hparent : o.transactionId ∈ pool'.getParentTransactionIdsInPool mtx ↔
            pool.has o.transactionId = true := by
          rw [mem_parentsInPool, r.has_iff]
          obtain ⟨input, hinput, hprevious⟩ := List.mem_map.mp ho
          have hspends : mtx.Spends o.transactionId := ⟨input, hinput, by rw [hprevious]⟩
          simp [hspends, hown]
        rw [and_iff_left (hfreed o ho)]
        split_ifs with hand
        · rfl
        · have hhas : ¬ pool.has o.transactionId = true := fun hhas =>
            hand ⟨ho, hparent.mpr hhas⟩
          rw [h.unspent, createdEntry_of_not_has hhas]
          simp
      · rw [if_neg fun hand => ho hand.1, h.unspent]
        apply and_congr_right
        intro _
        exact forall_congr' fun k => not_congr (hothers o ho k)
  case slots =>
    intro slot k
    rw [r.slotOwners, lookup_foldl_freeSlot, r.slotsByTx, FMap.lookup_erase_ite]
    constructor
    · intro howner
      split_ifs at howner with hgone
      obtain ⟨slots, hslots, hmem⟩ := (h.slots slot k).mp howner
      have hne : k ≠ id := by
        rintro rfl
        apply hgone
        rw [hslots]
        exact ⟨hmem, howner⟩
      rw [if_neg hne]
      exact ⟨slots, hslots, hmem⟩
    · rintro ⟨slots, hslots, hmem⟩
      split_ifs at hslots with heq
      have howner := (h.slots slot k).mpr ⟨slots, hslots, hmem⟩
      rw [if_neg, howner]
      rintro ⟨-, hid'⟩
      rw [howner] at hid'
      exact heq (Option.some.inj hid')
  case slotted =>
    intro k slots hk
    rw [r.slotsByTx, FMap.lookup_erase_ite] at hk
    split_ifs at hk with heq
    obtain ⟨hne, m, hm, hcat⟩ := h.slotted k slots hk
    refine ⟨hne, m, ?_, hcat⟩
    rw [r.mtxOf, if_neg heq, hm]

end Removal

/-- An invariant under which every stored transaction can be taken out, and which that keeps. -/
def KeptByRemoval (estimate : MutableTransaction → ℕ) (inv : BookedPool → Prop) : Prop :=
  ∀ pool id, inv pool → pool.has id = true → ∀ unblockedAtDaaScore, ∃ tx pool',
    (removeTransaction estimate id unblockedAtDaaScore).run pool = .ok tx pool' ∧ tx.id = id ∧
      (∀ k, pool'.mtxOf k = if k = id then none else pool.mtxOf k) ∧ inv pool'

theorem KeptByRemoval.of_removal {inv : BookedPool → Prop}
    (hworkable : ∀ {pool}, inv pool → pool.Workable estimate)
    (hkept : ∀ {id mtx pool pool'}, Removal estimate id mtx pool pool' →
      pool.mtxOf id = some mtx → inv pool → inv pool') : KeptByRemoval estimate inv := by
  intro pool id h hid unblockedAtDaaScore
  obtain ⟨mtx, hmtx⟩ := Pool.has_iff_mtxOf.mp hid
  obtain ⟨tx, pool', hrun, rfl, r⟩ :=
    removeTransaction_run (hworkable h) hmtx unblockedAtDaaScore
  exact ⟨tx, pool', hrun, (hworkable h).keyed id _ hmtx, r.mtxOf, hkept r hmtx h⟩

theorem consistent_keptByRemoval : KeptByRemoval estimate (Consistent estimate) :=
  .of_removal Consistent.workable fun r hid h => r.consistent h hid

theorem workable_keptByRemoval : KeptByRemoval estimate (Workable estimate) :=
  .of_removal id fun r hid h => r.workable h hid

end BookedPool
end CryptixAtomic.Mempool
