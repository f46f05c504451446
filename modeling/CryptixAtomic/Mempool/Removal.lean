import CryptixAtomic.Mempool.ConsistentRuns

/-!
# What a removal leaves behind

Removing a transaction with its redeemers takes out of the transaction pool exactly what is
registered as chained to it. The same search in the orphan pool finds nothing, as the
transaction is not stored there. By `removal_cleans_iff` no descendant is left behind if and
only if every one is registered in the pool the transaction is taken from.
-/
namespace CryptixAtomic.Mempool

open Foundation BookedPool List Option Relation FMap

variable {id : Bytes32} {mtx : MutableTransaction}

namespace OrphanPool

/-- Orphans are stored under their ids, no orphan spends an outpoint twice, and
every outpoint an orphan spends is owned by it. -/
structure Owned (pool : OrphanPool) : Prop where
  keyed : ∀ id mtx, pool.mtxOf id = some mtx → mtx.id = id
  inputs : ∀ id mtx, pool.mtxOf id = some mtx →
    (mtx.tx.inputs.map TransactionInput.previousOutpoint).Nodup
  owners : ∀ id mtx, pool.mtxOf id = some mtx → ∀ input ∈ mtx.tx.inputs,
    pool.outpointOwnerId.lookup input.previousOutpoint = some id

theorem disown_eq (id : Bytes32) (i : ℕ) (inputs : List TransactionInput) (owners : OutpointIndex)
    (hnodup : (inputs.map TransactionInput.previousOutpoint).Nodup)
    (howners : ∀ input ∈ inputs, (owners.lookup input.previousOutpoint).isSome) :
    (disown id i inputs owners).1 = none ∧ ∀ o, o ∉ inputs.map TransactionInput.previousOutpoint →
        (disown id i inputs owners).2.lookup o = owners.lookup o := by
  induction inputs generalizing i owners with
  | nil => exact ⟨rfl, fun o _ => rfl⟩
  | cons input inputs ih =>
    rw [map_cons, nodup_cons] at hnodup
    have hrest : ∀ x ∈ inputs,
        ((owners.erase input.previousOutpoint).lookup x.previousOutpoint).isSome := by
      intro x hx
      have hne : x.previousOutpoint ≠ input.previousOutpoint := by
        intro heq
        apply hnodup.1
        rw [← heq]
        exact mem_map_of_mem hx
      rw [lookup_erase_ite, if_neg hne]
      exact howners x (mem_cons_of_mem _ hx)
    obtain ⟨hnone, hlookup⟩ := ih (i + 1) (owners.erase input.previousOutpoint) hnodup.2 hrest
    constructor
    · have hsome := howners input mem_cons_self
      simp [disown, hnone, isNone_eq_false_iff.mpr hsome]
    · intro o ho
      rw [map_cons, mem_cons, not_or] at ho
      calc (disown id i (input :: inputs) owners).2.lookup o
          = (owners.erase input.previousOutpoint).lookup o := hlookup o ho.2
        _ = owners.lookup o := by rw [lookup_erase_ite, if_neg ho.1]

/-- The sets of redeemers only shrink. -/
def EdgesWithin (chained chained' : TransactionsEdges) : Prop :=
  ∀ k, (chained'.lookup k).getD ∅ ⊆ (chained.lookup k).getD ∅

theorem edgesWithin_erase (chained : TransactionsEdges) (id : Bytes32) :
    EdgesWithin chained (chained.erase id) := by
  intro k
  rw [lookup_erase_ite]
  split_ifs
  · exact Finset.empty_subset _
  · exact Finset.Subset.refl _

theorem edgesWithin_unchain (id : Bytes32) (chained : TransactionsEdges) (parent : Bytes32) :
    EdgesWithin chained (unchain id chained parent) := by
  unfold unchain
  cases hparent : chained.lookup parent with
  | none => exact fun k => Finset.Subset.refl _
  | some chains =>
    dsimp only
    split_ifs with hempty
    · exact edgesWithin_erase chained parent
    · intro k
      rw [lookup_insert_ite]
      split_ifs with heq
      · rw [heq, hparent]
        exact Finset.erase_subset id chains
      · exact Finset.Subset.refl _

theorem edgesWithin_foldl_unchain (id : Bytes32) (parents : List Bytes32)
    (chained : TransactionsEdges) : EdgesWithin chained (parents.foldl (unchain id) chained) := by
  induction parents generalizing chained with
  | nil => exact fun k => Finset.Subset.refl _
  | cons parent parents ih =>
    exact fun k => (ih (unchain id chained parent) k).trans (edgesWithin_unchain id chained parent k)

variable {pool pool' : OrphanPool}

/-- What a removal of orphans does to a pool: it drops a set of orphans, leaves
the others as they were, and registers no new redeemer. -/
structure Dropped (pool : OrphanPool) (gone : Bytes32 → Prop) (pool' : OrphanPool) : Prop where
  owned : pool'.Owned
  removed : ∀ k, gone k → pool'.mtxOf k = none
  kept : ∀ k, ¬ gone k → pool'.mtxOf k = pool.mtxOf k
  redeems : ∀ a b, pool'.Redeems a b → pool.Redeems a b

variable {gone : Bytes32 → Prop}

theorem Dropped.chained (h : Dropped pool gone pool') {a b : Bytes32}
    (hab : pool'.Chained a b) : pool.Chained a b :=
  TransGen.mono h.redeems a b hab

theorem Dropped.has (h : Dropped pool gone pool') {k : Bytes32} :
    pool'.has k = true ↔ pool.has k = true ∧ ¬ gone k := by
  by_cases hk : gone k
  · rw [Pool.has_iff_mtxOf, h.removed k hk]
    simp [hk]
  · rw [Pool.has_of_mtxOf_eq (h.kept k hk)]
    simp [hk]

variable {gone' : Bytes32 → Prop}

theorem Dropped.trans {pool'' : OrphanPool}
    (h : Dropped pool gone pool') (h' : Dropped pool' gone' pool'') :
    Dropped pool (fun k => gone k ∨ gone' k) pool'' where
  owned := h'.owned
  removed := by
    intro k hk
    by_cases hgone' : gone' k
    · exact h'.removed k hgone'
    · rw [h'.kept k hgone', h.removed k (hk.resolve_right hgone')]
  kept := by
    intro k hk
    rw [not_or] at hk
    rw [h'.kept k hk.2, h.kept k hk.1]
  redeems := fun a b hab => h.redeems a b (h'.redeems a b hab)

theorem Dropped.congr (h : Dropped pool gone pool')
    (hiff : ∀ k, gone k ↔ gone' k) : Dropped pool gone' pool' where
  owned := h.owned
  removed := fun k hk => h.removed k ((hiff k).mpr hk)
  kept := fun k hk => h.kept k fun hgone => hk ((hiff k).mp hgone)
  redeems := h.redeems

theorem Dropped.refl (h : pool.Owned) : Dropped pool (fun _ => False) pool where
  owned := h
  removed := fun _ hk => hk.elim
  kept := fun _ _ => rfl
  redeems := fun _ _ hab => hab

theorem redeems_of_edgesWithin (hall : pool'.all = pool.all.erase id)
    (hchained : EdgesWithin pool.chained pool'.chained) {a b : Bytes32}
    (hab : pool'.Redeems a b) : pool.Redeems a b := by
  have hlookup : ∀ k tx, pool'.all.lookup k = some tx → pool.all.lookup k = some tx := by
    intro k tx hk
    rw [hall, lookup_erase_ite] at hk
    split_ifs at hk
    exact hk
  have hmem : ∀ chains : Option TransactionIdSet,
      b ∈ chains.elim [] sortKeys ↔ b ∈ chains.getD ∅ := by
    rintro (_ | chains) <;> simp [mem_sortKeys]
  unfold Pool.Redeems Pool.redeemers at hab ⊢
  cases ha : pool'.all.lookup a with
  | none => simp [ha] at hab
  | some tx =>
    simp only [ha, hlookup a tx ha, mem_filter, hmem] at hab ⊢
    obtain ⟨btx, hbtx⟩ := isSome_iff_exists.mp hab.2
    exact ⟨hchained tx.id hab.1, isSome_iff_exists.mpr ⟨btx, hlookup b btx hbtx⟩⟩

theorem removeSingleOrphan_run (h : pool.Owned) (hid : pool.has id = true) :
    ∃ tx pool', (removeSingleOrphan id).run pool = .ok tx pool' ∧
      Dropped pool (fun k => k = id) pool' := by
  obtain ⟨mtx, hmtx⟩ := Pool.has_iff_mtxOf.mp hid
  obtain ⟨tx, htx, rfl⟩ := map_eq_some_iff.mp hmtx
  obtain ⟨hnone, hlookup⟩ := disown_eq tx.id 0 tx.mtx.tx.inputs pool.outpointOwnerId
    (h.inputs id tx.mtx hmtx) (fun input hinput => by rw [h.owners id tx.mtx hmtx input hinput]; rfl)
  have hrun : ∃ pool', (removeSingleOrphan id).run pool = .ok tx pool' ∧
      pool'.all = pool.all.erase id ∧ EdgesWithin pool.chained pool'.chained ∧
      pool'.outpointOwnerId = (disown tx.id 0 tx.mtx.tx.inputs pool.outpointOwnerId).2 := by
    simp only [removeSingleOrphan, EStateM.run_bind, run_get, htx, run_set, hnone, run_pure]
    exact ⟨_, rfl, rfl,
      fun k => (edgesWithin_erase _ id k).trans (edgesWithin_foldl_unchain id _ pool.chained k), rfl⟩
  obtain ⟨pool', hrun, hall, hchained, howner⟩ := hrun
  have hmtxOf := Pool.mtxOf_erase hall
  have hkept : ∀ k m, pool'.mtxOf k = some m → k ≠ id ∧ pool.mtxOf k = some m := by
    intro k m hk
    rw [hmtxOf] at hk
    split_ifs at hk with heq
    exact ⟨heq, hk⟩
  refine ⟨tx, pool', hrun, ⟨?_, ?_, ?_⟩, ?_, ?_, ?_⟩
  · exact fun k m hk => h.keyed k m (hkept k m hk).2
  · exact fun k m hk => h.inputs k m (hkept k m hk).2
  · -- another orphan owns its outpoints, so none of them was spent by the removed one
    intro k m hk input hinput
    obtain ⟨hne, hold⟩ := hkept k m hk
    have hown := h.owners k m hold input hinput
    rw [howner, hlookup]
    · exact hown
    · intro hspent
      obtain ⟨other, hother, heq⟩ := mem_map.mp hspent
      have hown' := h.owners id tx.mtx hmtx other hother
      rw [heq, hown] at hown'
      exact hne (some.inj hown')
  · intro k hk
    rw [hmtxOf, if_pos hk]
  · intro k hk
    rw [hmtxOf, if_neg hk]
  · exact fun a b hab => redeems_of_edgesWithin hall hchained hab

theorem removeOrphans_run (h : pool.Owned) (ids : List Bytes32) (hnodup : ids.Nodup)
    (hids : ∀ id ∈ ids, pool.has id = true) :
    ∃ txs pool', (removeOrphans ids).run pool = .ok txs pool' ∧
      Dropped pool (fun k => k ∈ ids) pool' := by
  induction ids generalizing pool with
  | nil => exact ⟨[], pool, rfl, (Dropped.refl h).congr (by simp)⟩
  | cons id ids ih =>
    rw [nodup_cons] at hnodup
    obtain ⟨tx, mid, hmid, hdrop⟩ := removeSingleOrphan_run h (hids id mem_cons_self)
    have hrest : ∀ k ∈ ids, mid.has k = true := by
      intro k hk
      apply hdrop.has.mpr
      exact ⟨hids k (mem_cons_of_mem _ hk), fun heq => hnodup.1 (heq ▸ hk)⟩
    obtain ⟨txs, pool', hrun, hdrop'⟩ := ih hdrop.owned hnodup.2 hrest
    have hall : (removeOrphans (id :: ids)).run pool = .ok (tx :: txs) pool' := by
      rw [removeOrphans, run_bind_of_ok hmid, run_bind_of_ok hrun]
      rfl
    exact ⟨tx :: txs, pool', hall, (hdrop.trans hdrop').congr (by simp)⟩

theorem removeRedeemersOf_run (h : pool.Owned) (id : Bytes32) :
    ∃ txs pool', (removeRedeemersOf id).run pool = .ok txs pool' ∧
      Dropped pool (fun k => pool.Chained id k) pool' := by
  obtain ⟨hnodup, hmem⟩ := pool.getRedeemerIdsInPool_spec id
  have hhas : ∀ k ∈ pool.getRedeemerIdsInPool id, pool.has k = true := by
    intro k hk
    exact ((hmem k).mp hk).has
  obtain ⟨txs, pool', hrun, hdrop⟩ := removeOrphans_run h _ hnodup hhas
  exact ⟨txs, pool', hrun, hdrop.congr hmem⟩

theorem removeOrphan_run (h : pool.Owned) (hid : pool.has id = true)
    (hacyclic : ¬ pool.Chained id id) :
    ∃ txs pool', (removeOrphan id true).run pool = .ok txs pool' ∧
      Dropped pool (fun k => k = id ∨ pool.Chained id k) pool' := by
  obtain ⟨hnodup, hmem⟩ := pool.getRedeemerIdsInPool_spec id
  have hnodup' : (id :: pool.getRedeemerIdsInPool id).Nodup := by
    rw [nodup_cons, hmem]
    exact ⟨hacyclic, hnodup⟩
  have hhas : ∀ k ∈ id :: pool.getRedeemerIdsInPool id, pool.has k = true := by
    intro k hk
    rcases mem_cons.mp hk with rfl | hk
    · exact hid
    · exact ((hmem k).mp hk).has
  obtain ⟨txs, pool', hrun, hdrop⟩ := removeOrphans_run h _ hnodup' hhas
  have hall : (removeOrphan id true).run pool = .ok txs pool' := by
    rw [removeOrphan, run_bind_of_ok (run_get _), if_pos hid, if_pos rfl]
    exact hrun
  exact ⟨txs, pool', hall, hdrop.congr fun k => by rw [mem_cons, hmem]⟩

end OrphanPool

namespace BookedState

/-- The transaction stored under `id` in one of the two pools. -/
def Holds (m : BookedState) (id : Bytes32) (mtx : MutableTransaction) : Prop :=
  m.transactionPool.mtxOf id = some mtx ∨ m.orphanPool.mtxOf id = some mtx

/-- `b`, pooled or orphaned, spends an output of `a`. -/
def Spends (m : BookedState) (a b : Bytes32) : Prop := ∃ mtx, m.Holds b mtx ∧ mtx.Spends a

/-- `b` spends an output of `a`, directly or through pooled or orphaned
transactions. -/
def Descends (m : BookedState) : Bytes32 → Bytes32 → Prop := TransGen m.Spends

/-- What holds between two calls: the pools' own bookkeeping, registered redeemers
do spend what they are registered for, and no transaction descends from itself
(an id is the hash of the inputs). -/
structure Consistent (estimate : MutableTransaction → ℕ) (m : BookedState) : Prop where
  workable : m.transactionPool.Workable estimate
  owned : m.orphanPool.Owned
  pooledEdges : ∀ a b, m.transactionPool.Redeems a b → m.Spends a b
  orphanEdges : ∀ a b, m.orphanPool.Redeems a b → m.Spends a b
  acyclic : ∀ id, ¬ m.Descends id id

/-- A transaction that one of the pools lost between two states. -/
def Removed (m m' : BookedState) (id : Bytes32) : Prop :=
  (m.transactionPool.has id = true ∧ m'.transactionPool.has id = false) ∨
    (m.orphanPool.has id = true ∧ m'.orphanPool.has id = false)

/-- Nothing left in `m'` descends from `id`, and no orphan left has an entry that
came from a removed transaction. -/
structure Cleaned (m m' : BookedState) (id : Bytes32) : Prop where
  descendants : ∀ k mtx, m'.Holds k mtx → ¬ m.Descends id k
  entries : ∀ k mtx, m'.orphanPool.mtxOf k = some mtx →
    ∀ (i : ℕ) (input : TransactionInput) (entry : UtxoEntry),
    mtx.tx.inputs[i]? = some input → mtx.entries[i]? = some (some entry) →
      ¬ m.Removed m' input.previousOutpoint.transactionId

/-- Every descendant of `id` is registered as chained to it, in the pool from
which `id` is going to be removed. -/
structure Registered (m : BookedState) (id : Bytes32) : Prop where
  pooled : ∀ k, m.transactionPool.has k = true → m.Descends id k →
    m.orphanPool.has id = false ∧ m.transactionPool.Chained id k
  orphaned : ∀ k, m.orphanPool.has k = true → m.Descends id k → m.orphanPool.Chained id k

variable {m m' : BookedState} {estimate : MutableTransaction → ℕ}

theorem Consistent.descends_of_pooled (h : m.Consistent estimate) {a b : Bytes32}
    (hab : m.transactionPool.Chained a b) : m.Descends a b :=
  TransGen.mono h.pooledEdges a b hab

theorem Consistent.descends_of_orphaned (h : m.Consistent estimate) {a b : Bytes32}
    (hab : m.orphanPool.Chained a b) : m.Descends a b :=
  TransGen.mono h.orphanEdges a b hab

theorem spends_of_entry {k : Bytes32} (hk : m.Holds k mtx) {i : ℕ}
    {input : TransactionInput} (hinput : mtx.tx.inputs[i]? = some input) :
    m.Spends input.previousOutpoint.transactionId k :=
  ⟨mtx, hk, input, mem_of_getElem? hinput, rfl⟩

open OrphanPool (Dropped)

theorem onOrphans_run {α : Type} {x : EStateM RuleError OrphanPool α} {a : α}
    {orphanPool : OrphanPool} (h : x.run m.orphanPool = .ok a orphanPool) :
    (onOrphans x).run m = .ok a { m with orphanPool := orphanPool } := by
  change onOrphans x m = _
  unfold onOrphans
  rw [show x m.orphanPool = .ok a orphanPool from h]

variable {inv : BookedPool → Prop}

/-- A run over a list of pooled transactions removes exactly these from the
transaction pool; an orphan is only lost when it is chained, in the orphan pool,
to one of them. -/
theorem removeListed_run (hinv : KeptByRemoval estimate inv) (unblockedAtDaaScore : Option ℕ)
    (ids : List Bytes32) (h : inv m.transactionPool) (howned : m.orphanPool.Owned)
    (hnodup : ids.Nodup) (hids : ∀ id ∈ ids, m.transactionPool.has id = true) :
    ∃ m' gone, (removeListed estimate true unblockedAtDaaScore ids).run m = .ok () m' ∧
      inv m'.transactionPool ∧
      (∀ k, m'.transactionPool.mtxOf k =
        if k ∈ ids then none else m.transactionPool.mtxOf k) ∧
      Dropped m.orphanPool gone m'.orphanPool ∧
      ∀ k, gone k → ∃ id ∈ ids, m.orphanPool.Chained id k := by
  induction ids generalizing m with
  | nil => exact ⟨m, fun _ => False, rfl, h, by simp, Dropped.refl howned, by simp⟩
  | cons id ids ih =>
    rw [nodup_cons] at hnodup
    obtain ⟨tx, pool, hpool, htxid, hmtxOf, hkept⟩ :=
      hinv _ id h (hids id mem_cons_self) unblockedAtDaaScore
    obtain ⟨txs, orphans, horphans, hdrop⟩ := OrphanPool.removeRedeemersOf_run howned id
    have hrest : ∀ k ∈ ids, pool.has k = true := by
      intro k hk
      have hne : k ≠ id := fun heq => hnodup.1 (heq ▸ hk)
      have heq : pool.mtxOf k = m.transactionPool.mtxOf k := by rw [hmtxOf, if_neg hne]
      rw [Pool.has_of_mtxOf_eq heq]
      exact hids k (mem_cons_of_mem _ hk)
    obtain ⟨m', gone, hrun, hm', hpool', hdrop', hgone⟩ :=
      @ih ⟨pool, orphans⟩ hkept hdrop.owned hnodup.2 hrest
    have hupdate : (OrphanPool.updateOrphansAfterTransactionRemoved tx true).run m.orphanPool =
        .ok txs orphans := by
      rw [OrphanPool.updateOrphansAfterTransactionRemoved, if_pos rfl, htxid]
      exact horphans
    have hall : (removeListed estimate true unblockedAtDaaScore (id :: ids)).run m = .ok () m' := by
      rw [removeListed, run_bind_of_ok (onTransactions_run hpool),
        run_bind_of_ok (onOrphans_run (m := ⟨pool, m.orphanPool⟩) hupdate)]
      exact hrun
    refine ⟨m', _, hall, hm', ?_, hdrop.trans hdrop', ?_⟩
    · intro k
      rw [hpool', hmtxOf]
      by_cases hk : k ∈ ids <;> by_cases hkid : k = id <;> simp [hk, hkid]
    · intro k hk
      rcases hk with hk | hk
      · exact ⟨id, mem_cons_self, hk⟩
      · obtain ⟨r, hr, hchain⟩ := hgone k hk
        exact ⟨r, mem_cons_of_mem _ hr, hdrop.chained hchain⟩

theorem exists_unchained (h : m.Consistent estimate) (ids : List Bytes32) (hids : ids ≠ []) :
    ∃ r ∈ ids, ∀ r' ∈ ids, ¬ m.orphanPool.Chained r' r := by
  have htrans : IsTrans {r // r ∈ ids} fun a b => m.orphanPool.Chained a.1 b.1 :=
    ⟨fun _ _ _ hab hbc => TransGen.trans hab hbc⟩
  have hirrefl : Std.Irrefl fun a b : {r // r ∈ ids} => m.orphanPool.Chained a.1 b.1 :=
    ⟨fun a haa => h.acyclic a.1 (h.descends_of_orphaned haa)⟩
  have hwf := Finite.wellFounded_of_trans_of_irrefl
    fun a b : {r // r ∈ ids} => m.orphanPool.Chained a.1 b.1
  obtain ⟨r, hr⟩ := exists_mem_of_ne_nil ids hids
  obtain ⟨⟨r, hr⟩, -, hmin⟩ := hwf.has_min Set.univ ⟨⟨r, hr⟩, trivial⟩
  exact ⟨r, hr, fun r' hr' => hmin ⟨r', hr'⟩ trivial⟩

theorem removal_of_orphan (h : m.Consistent estimate) (horphan : m.orphanPool.has id = true) :
    ∃ m', (removeTransaction estimate id true).run m = .ok () m' ∧ (m.Cleaned m' id ↔ m.Registered id) := by
  have hacyclic : ¬ m.orphanPool.Chained id id :=
    fun hchain => h.acyclic id (h.descends_of_orphaned hchain)
  obtain ⟨txs, orphans, hrun, hdrop⟩ := OrphanPool.removeOrphan_run h.owned horphan hacyclic
  have hall : (removeTransaction estimate id true).run m = .ok () { m with orphanPool := orphans } := by
    rw [removeTransaction, removeTransactionWithUnblockedDaa, run_bind_of_ok (run_get _),
      if_pos horphan, run_bind_of_ok (onOrphans_run hrun)]
    rfl
  refine ⟨_, hall, ?_, ?_⟩
  · intro hclean
    constructor
    · intro k hk hdesc
      obtain ⟨mtx, hmtx⟩ := Pool.has_iff_mtxOf.mp hk
      exact absurd hdesc (hclean.descendants k mtx (.inl hmtx))
    · intro k hk hdesc
      by_contra hunchained
      have hne : k ≠ id := fun heq => h.acyclic id (heq ▸ hdesc)
      have hkept := hdrop.has.mpr ⟨hk, not_or.mpr ⟨hne, hunchained⟩⟩
      obtain ⟨mtx, hmtx⟩ := Pool.has_iff_mtxOf.mp hkept
      exact hclean.descendants k mtx (.inr hmtx) hdesc
  · intro hreach
    -- an orphan that is still there is not chained to `id`, hence no descendant
    have horphans : ∀ k mtx, orphans.mtxOf k = some mtx →
        m.orphanPool.mtxOf k = some mtx ∧ ¬ m.Descends id k := by
      intro k mtx hk
      have hhas := hdrop.has.mp (Pool.has_iff_mtxOf.mpr ⟨mtx, hk⟩)
      rw [hdrop.kept k hhas.2] at hk
      exact ⟨hk, fun hdesc => hhas.2 (.inr (hreach.orphaned k hhas.1 hdesc))⟩
    constructor
    · intro k mtx hk hdesc
      rcases hk with hk | hk
      · have hnot := (hreach.pooled k (Pool.has_iff_mtxOf.mpr ⟨mtx, hk⟩) hdesc).1
        rw [horphan] at hnot
        cases hnot
      · exact (horphans k mtx hk).2 hdesc
    · intro k mtx hk i input entry hinput _ hremoved
      obtain ⟨hold, hnot⟩ := horphans k mtx hk
      have hspends := spends_of_entry (.inr hold) hinput
      rcases hremoved with ⟨hhas, hlost⟩ | ⟨hhas, hlost⟩
      · rw [hhas] at hlost
        cases hlost
      · have hgone : input.previousOutpoint.transactionId = id ∨
            m.orphanPool.Chained id input.previousOutpoint.transactionId := by
          by_contra hkept
          rw [hdrop.has.mpr ⟨hhas, hkept⟩] at hlost
          cases hlost
        rcases hgone with hid | hchain
        · exact hnot (TransGen.single (hid ▸ hspends))
        · exact hnot ((h.descends_of_orphaned hchain).tail hspends)

theorem removal_of_pooled (h : m.Consistent estimate)
    (hpooled : m.transactionPool.has id = true) (horphan : m.orphanPool.has id = false) :
    ∃ m', (removeTransaction estimate id true).run m = .ok () m' ∧ (m.Cleaned m' id ↔ m.Registered id) := by
  obtain ⟨hnodup, hmem⟩ := m.transactionPool.getRedeemerIdsInPool_spec id
  obtain ⟨ids, hids⟩ : ∃ ids, ids = id :: m.transactionPool.getRedeemerIdsInPool id := ⟨_, rfl⟩
  have hlisted : ∀ k, k ∈ ids ↔ k = id ∨ m.transactionPool.Chained id k := by
    intro k
    rw [hids, mem_cons, hmem]
  have hnodup' : ids.Nodup := by
    rw [hids, nodup_cons, hmem]
    exact ⟨fun hchain => h.acyclic id (h.descends_of_pooled hchain), hnodup⟩
  have hhas : ∀ k ∈ ids, m.transactionPool.has k = true := by
    intro k hk
    rcases (hlisted k).mp hk with rfl | hchain
    · exact hpooled
    · exact hchain.has
  obtain ⟨m', gone, hrun, -, hpool, hdrop, hgone⟩ :=
    removeListed_run workable_keptByRemoval none ids h.workable h.owned hnodup' hhas
  have hall : (removeTransaction estimate id true).run m = .ok () m' := by
    rw [removeTransaction, removeTransactionWithUnblockedDaa, run_bind_of_ok (run_get _),
      if_neg (by simp [horphan]), if_pos hpooled, if_pos rfl, ← hids]
    exact hrun
  -- a listed transaction other than `id` is a descendant
  have hdescends : ∀ k ∈ ids, k ≠ id → m.Descends id k := by
    intro k hk hne
    exact h.descends_of_pooled (((hlisted k).mp hk).resolve_left hne)
  have hkept : (∀ r ∈ ids, m.orphanPool.has r = false) → ∀ k, ¬ gone k := by
    intro hnone k hk
    obtain ⟨r, hr, hchain⟩ := hgone k hk
    have hhas := hchain.has_left
    rw [hnone r hr] at hhas
    cases hhas
  refine ⟨m', hall, ?_, ?_⟩
  · intro hclean
    -- no listed transaction is stored among the orphans: one that is chained to no
    -- other would stay there
    have hnone : ∀ r ∈ ids, m.orphanPool.has r = false := by
      by_contra hsome
      push Not at hsome
      obtain ⟨r₀, hr₀, hhas₀⟩ := hsome
      have hfilter : ids.filter (m.orphanPool.has ·) ≠ [] := by
        apply ne_nil_of_mem
        exact mem_filter.mpr ⟨hr₀, by simpa using hhas₀⟩
      obtain ⟨r, hr, hmin⟩ := exists_unchained h _ hfilter
      obtain ⟨hrids, hrhas⟩ := mem_filter.mp hr
      have hstays : ¬ gone r := by
        intro hrgone
        obtain ⟨r', hr', hchain⟩ := hgone r hrgone
        exact hmin r' (mem_filter.mpr ⟨hr', hchain.has_left⟩) hchain
      obtain ⟨mtx, hmtx⟩ := Pool.has_iff_mtxOf.mp (hdrop.has.mpr ⟨hrhas, hstays⟩)
      have hne : r ≠ id := by
        intro heq
        rw [heq, horphan] at hrhas
        cases hrhas
      exact hclean.descendants r mtx (.inr hmtx) (hdescends r hrids hne)
    constructor
    · intro k hk hdesc
      have hne : k ≠ id := fun heq => h.acyclic id (heq ▸ hdesc)
      by_cases hin : k ∈ ids
      · exact ⟨horphan, ((hlisted k).mp hin).resolve_left hne⟩
      · obtain ⟨mtx, hmtx⟩ := Pool.has_iff_mtxOf.mp hk
        have hleft : m'.transactionPool.mtxOf k = some mtx := by rw [hpool, if_neg hin, hmtx]
        exact absurd hdesc (hclean.descendants k mtx (.inl hleft))
    · intro k hk hdesc
      obtain ⟨mtx, hmtx⟩ := Pool.has_iff_mtxOf.mp hk
      have hleft : m'.orphanPool.mtxOf k = some mtx := by
        rw [hdrop.kept k (hkept hnone k), hmtx]
      exact absurd hdesc (hclean.descendants k mtx (.inr hleft))
  · intro hreach
    -- no orphan descends from `id`, which itself is not one; so no orphan is touched
    have hnodesc : ∀ k, m.orphanPool.has k = true → ¬ m.Descends id k := by
      intro k hk hdesc
      have hhas := (hreach.orphaned k hk hdesc).has_left
      rw [horphan] at hhas
      cases hhas
    have hnone : ∀ r ∈ ids, m.orphanPool.has r = false := by
      intro r hr
      by_cases hne : r = id
      · rw [hne, horphan]
      · cases hrhas : m.orphanPool.has r with
        | false => rfl
        | true => exact absurd (hdescends r hr hne) (hnodesc r hrhas)
    have horphans : ∀ k, m'.orphanPool.mtxOf k = m.orphanPool.mtxOf k :=
      fun k => hdrop.kept k (hkept hnone k)
    constructor
    · intro k mtx hk hdesc
      rcases hk with hk | hk
      · rw [hpool] at hk
        split_ifs at hk with hin
        have hchain := (hreach.pooled k (Pool.has_iff_mtxOf.mpr ⟨mtx, hk⟩) hdesc).2
        exact hin ((hlisted k).mpr (.inr hchain))
      · rw [horphans] at hk
        exact hnodesc k (Pool.has_iff_mtxOf.mpr ⟨mtx, hk⟩) hdesc
    · intro k mtx hk i input entry hinput _ hremoved
      rw [horphans] at hk
      have hspends := spends_of_entry (.inr hk) hinput
      have hnot := hnodesc k (Pool.has_iff_mtxOf.mpr ⟨mtx, hk⟩)
      rcases hremoved with ⟨hhas, hlost⟩ | ⟨hhas, hlost⟩
      · have hin : input.previousOutpoint.transactionId ∈ ids := by
          by_contra hin
          have heq := hpool input.previousOutpoint.transactionId
          rw [if_neg hin] at heq
          rw [Pool.has_of_mtxOf_eq heq, hhas] at hlost
          cases hlost
        rcases (hlisted _).mp hin with hid | hchain
        · exact hnot (TransGen.single (hid ▸ hspends))
        · exact hnot ((h.descends_of_pooled hchain).tail hspends)
      · rw [Pool.has_of_mtxOf_eq (horphans _), hhas] at hlost
        cases hlost

/-- Removing a pooled transaction with its redeemers leaves no descendant and no
stale entry behind if and only if every descendant is registered in the pool the
transaction is taken from. -/
theorem removal_cleans_iff (estimate : MutableTransaction → ℕ) (m : BookedState)
    (h : m.Consistent estimate) (id : Bytes32) (hpooled : m.transactionPool.has id = true) :
    ∃ m', (removeTransaction estimate id true).run m = .ok () m' ∧ (m.Cleaned m' id ↔ m.Registered id) := by
  cases horphan : m.orphanPool.has id with
  | true => exact removal_of_orphan h horphan
  | false => exact removal_of_pooled h hpooled horphan

def orphanId : Bytes32 := Bytes.fill 32 3

/-- The first input spends the payment and is populated from the pool; the parent
of the second one is unknown. -/
def sampleOrphan : MutableTransaction where
  tx := ⟨orphanId, [⟨⟨fundingId, 0⟩⟩, ⟨⟨Bytes.fill 32 5, 0⟩⟩], [⟨9, ⟨0, []⟩⟩], Bytes.zeros 20, []⟩
  entries := [some ⟨10, ownerScript, unacceptedDaaScore, false⟩, none]
  aligned := rfl

def sampleMempool : BookedState where
  transactionPool := fundedPool
  orphanPool :=
    { all := (∅ : FMap _ _).insert orphanId ⟨sampleOrphan, 0⟩
      chained := ∅
      outpointOwnerId := ((∅ : FMap _ _).insert ⟨fundingId, 0⟩ orphanId).insert
        ⟨Bytes.fill 32 5, 0⟩ orphanId }

theorem fundedPool_mtxOf (h : fundedPool.mtxOf k = some mtx) :
    k = fundingId ∧ mtx = funding.toMutableTransaction := by
  obtain ⟨key, slots, -, -, -, -, a⟩ :=
    @addMempoolTransaction_eq_ok unitEstimate _ _ _ _ _ _ _ (by decide) fundedPool_eq
  rw [a.mtxOf] at h
  split_ifs at h with heq
  · exact ⟨heq, (some.inj h).symm⟩
  · simp [empty, Pool.mtxOf] at h

theorem sampleMempool_orphaned
    (h : sampleMempool.orphanPool.mtxOf k = some mtx) : k = orphanId ∧ mtx = sampleOrphan := by
  simp only [sampleMempool, Pool.mtxOf, lookup_insert_ite] at h
  split_ifs at h with heq
  · exact ⟨heq, (some.inj h).symm⟩
  · simp at h

/-- Height of the sample transactions, which every spend increases. -/
def sampleRank (id : Bytes32) : ℕ := if id = fundingId then 1 else if id = orphanId then 2 else 0

theorem sampleMempool_rank {a b : Bytes32} (h : sampleMempool.Descends a b) :
    sampleRank a < sampleRank b := by
  have hstep : ∀ a b, sampleMempool.Spends a b → sampleRank a < sampleRank b := by
    rintro a b ⟨mtx, hb | hb, input, hinput, rfl⟩
    · obtain ⟨rfl, rfl⟩ := fundedPool_mtxOf hb
      obtain rfl := mem_singleton.mp hinput
      decide
    · obtain ⟨rfl, rfl⟩ := sampleMempool_orphaned hb
      rcases mem_cons.mp hinput with rfl | hinput
      · decide
      · obtain rfl := mem_singleton.mp hinput
        decide
  induction h with
  | single hab => exact hstep _ _ hab
  | tail _ hbc ih => exact ih.trans (hstep _ _ hbc)

theorem sampleMempool_consistent : sampleMempool.Consistent unitEstimate where
  workable := fundedPool_consistent.workable
  owned := by
    constructor
    all_goals
      intro id mtx h
      obtain ⟨rfl, rfl⟩ := sampleMempool_orphaned h
      decide
  pooledEdges := by
    intro a b h
    obtain ⟨-, mtx, hmtx, hspends⟩ := (fundedPool_consistent.redeems_iff a b).mp h
    exact ⟨mtx, .inl hmtx, hspends⟩
  orphanEdges := by
    intro a b h
    unfold Pool.Redeems Pool.redeemers at h
    split at h <;> simp [sampleMempool] at h
  acyclic := fun _ h => Nat.lt_irrefl _ (sampleMempool_rank h)

/-- The payment is gone, the orphan is still there with the entry it got from it. -/
theorem stale_entry_survives :
    ∃ m', (removeTransaction unitEstimate fundingId true).run sampleMempool = .ok () m' ∧
      m'.transactionPool.has fundingId = false ∧
      m'.orphanPool.mtxOf orphanId = some sampleOrphan ∧
      ¬ sampleMempool.Cleaned m' fundingId := by
  have hrun : succeededWith (fun _ m' => decide (m'.transactionPool.has fundingId = false ∧
      m'.orphanPool.mtxOf orphanId = some sampleOrphan))
      ((removeTransaction unitEstimate fundingId true).run sampleMempool) = true := by
    decide +kernel
  obtain ⟨u, m', hok, htest⟩ := exists_of_succeededWith _ _ hrun
  obtain ⟨hgone, horphan⟩ := of_decide_eq_true htest
  refine ⟨m', hok, hgone, horphan, ?_⟩
  intro hclean
  apply hclean.descendants orphanId sampleOrphan (.inr horphan)
  apply TransGen.single
  exact ⟨sampleOrphan, .inr rfl, ⟨⟨fundingId, 0⟩⟩, mem_cons_self, rfl⟩

theorem sampleMempool_cleans_iff :
    ∃ m', (removeTransaction unitEstimate fundingId true).run sampleMempool = .ok () m' ∧
      (sampleMempool.Cleaned m' fundingId ↔ sampleMempool.Registered fundingId) :=
  removal_cleans_iff unitEstimate sampleMempool sampleMempool_consistent fundingId
    (by decide +kernel)

end BookedState
end CryptixAtomic.Mempool
