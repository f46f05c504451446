import CryptixAtomic.Foundation.ReadySpec
import CryptixAtomic.Processor.TemplateOrder

/-!
# What the order of token transactions is

An item depends on the previous nonce, on the previous pool nonce and on the creation of its
asset, each as long as the token state does not have it. The order of a batch puts an item
after all it depends on, unless there is a cycle behind it, and does not depend on how the
batch was listed.
-/
namespace CryptixAtomic.Processor

open Foundation Transition List

def AtomicTxOrderInfo.DependsOn (s : AtomicConsensusState) (child parent : AtomicTxOrderInfo) :
    Prop :=
  (child.nonce > s.nextNonce child.nonceKey ∧ parent.nonceKey = child.nonceKey ∧
    parent.nonce = child.nonce - 1) ∨
  (∃ assetId poolNonce, child.pool = some (assetId, poolNonce) ∧
    poolNonce > s.poolNonce assetId ∧ parent.pool = some (assetId, poolNonce - 1)) ∨
  ∃ assetId, child.referencesAssetId = some assetId ∧ s.hasAsset assetId = false ∧
    parent.createsAssetId = some assetId

/-- The item at position `child` of a list has to wait for the one at `parent`. -/
def DependsAt (items : List (ℕ × AtomicTxOrderInfo)) (s : AtomicConsensusState)
    (parent child : ℕ) : Prop :=
  ∃ p c, items[parent]? = some p ∧ items[child]? = some c ∧ c.2.DependsOn s p.2

variable {items : List (ℕ × AtomicTxOrderInfo)} {s : AtomicConsensusState}

theorem mem_positionsWhere {p : AtomicTxOrderInfo → Bool} {pos : ℕ} :
    pos ∈ positionsWhere items p ↔ ∃ item, items[pos]? = some item ∧ p item.2 = true := by
  rw [positionsWhere, List.mem_filter, List.mem_range, Option.any_eq_true]
  constructor
  · exact fun h => h.2
  · rintro ⟨item, hitem, hp⟩
    exact ⟨(List.getElem?_eq_some_iff.mp hitem).1, item, hitem, hp⟩

theorem mem_atomicDependencies {info : AtomicTxOrderInfo} {pos : ℕ} :
    pos ∈ atomicDependencies items s info ↔
      ∃ item, items[pos]? = some item ∧ info.DependsOn s item.2 := by
  simp only [AtomicTxOrderInfo.DependsOn, and_or_left, exists_or]
  rw [atomicDependencies, mem_append, mem_append, or_assoc]
  apply or_congr
  · split_ifs with hbase
    · simp [mem_positionsWhere, hbase]
    · simp [hbase]
  apply or_congr
  · cases hinfo : info.pool with
    | none => simp
    | some pool =>
      obtain ⟨assetId, poolNonce⟩ := pool
      by_cases hbase : poolNonce > s.poolNonce assetId
      · simp only [if_pos hbase, mem_positionsWhere, decide_eq_true_eq]
        constructor
        · rintro ⟨item, hitem, hparent⟩
          exact ⟨item, hitem, assetId, poolNonce, rfl, hbase, hparent⟩
        · rintro ⟨item, hitem, assetId', poolNonce', heq, -, hparent⟩
          obtain ⟨rfl, rfl⟩ := Prod.mk.inj (Option.some.inj heq)
          exact ⟨item, hitem, hparent⟩
      · simp only [if_neg hbase, not_mem_nil, false_iff]
        rintro ⟨item, -, assetId', poolNonce', heq, hgt, -⟩
        obtain ⟨rfl, rfl⟩ := Prod.mk.inj (Option.some.inj heq)
        exact hbase hgt
  · cases hinfo : info.referencesAssetId with
    | none => simp
    | some assetId =>
      by_cases hhas : s.hasAsset assetId = false
      · simp [mem_positionsWhere, hhas]
      · simp [hhas]

theorem mem_atomicEdges {parent child : ℕ} :
    (parent, child) ∈ atomicEdges items s ↔ DependsAt items s parent child := by
  unfold atomicEdges DependsAt
  simp only [List.mem_flatMap, List.mem_map, Prod.exists, Prod.mk.injEq,
    List.mem_zipIdx_iff_getElem?, mem_atomicDependencies]
  constructor
  · rintro ⟨idx, info, pos, hchild, p, ⟨idx', info', hparent, hdepends⟩, rfl, rfl⟩
    exact ⟨idx', info', idx, info, hparent, hchild, hdepends⟩
  · rintro ⟨idx', info', idx, info, hparent, hchild, hdepends⟩
    exact ⟨idx, info, child, hchild, parent, ⟨idx', info', hparent, hdepends⟩, rfl, rfl⟩

theorem DependsAt.lt {parent child : ℕ} (h : DependsAt items s parent child) :
    parent < items.length := by
  obtain ⟨p, -, hp, -⟩ := h
  exact (List.getElem?_eq_some_iff.mp hp).1

theorem exists_isReadyOrder (items : List (ℕ × AtomicTxOrderInfo)) (s : AtomicConsensusState) :
    ∃ l rest, readyOrder (priorityAt items) items.length (atomicEdges items s) = l ++ rest ∧
      IsReadyOrder (Set.Iio items.length) (DependsAt items s) (priorityAt items) l rest := by
  obtain ⟨l, rest, heq, horder⟩ := readyOrder_isReadyOrder (priorityAt items)
    (lt_of_mem_atomicEdges)
  have hdep : (fun p c => (p, c) ∈ atomicEdges items s) = DependsAt items s := by
    funext p c
    exact propext mem_atomicEdges
  rw [hdep] at horder
  exact ⟨l, rest, heq, horder⟩

/-- A position of the order comes after all the positions it depends on, unless there is
a cycle behind it. -/
def DependenciesFirst (items : List (ℕ × AtomicTxOrderInfo)) (s : AtomicConsensusState)
    (order : List ℕ) : Prop :=
  ∀ pos < items.length,
    (∀ y, Relation.TransGen (DependsAt items s) y pos → ¬ Relation.TransGen (DependsAt items s) y y) →
      ∃ before after, order = before ++ pos :: after ∧
        ∀ parent, DependsAt items s parent pos → parent ∈ before

theorem orderAtomicIndices_dependenciesFirst (items : List (ℕ × AtomicTxOrderInfo))
    (s : AtomicConsensusState) :
    ∃ order, order.Perm (List.range items.length) ∧
      orderAtomicIndices items s = order.filterMap (fun pos => items[pos]?.map Prod.fst) ∧
      DependenciesFirst items s order := by
  unfold orderAtomicIndices
  split_ifs with hlength
  · refine ⟨List.range items.length, Perm.refl _, ?_, ?_⟩
    · rw [← map_filterMap, filterMap_getElem?_range]
    · intro pos hpos hacyclic
      obtain rfl : pos = 0 := by omega
      have hone : items.length = 1 := by omega
      refine ⟨[], [], by rw [hone]; rfl, ?_⟩
      -- the only position there is does not depend on itself
      intro parent hparent
      obtain rfl : parent = 0 := by
        have hlt := hparent.lt
        omega
      exact absurd (.single hparent) (hacyclic 0 (.single hparent))
  · obtain ⟨l, rest, heq, horder⟩ := exists_isReadyOrder items s
    refine ⟨_, readyOrder_perm _ _ _ lt_of_mem_atomicEdges, rfl, ?_⟩
    intro pos hpos hacyclic
    rw [heq]
    exact horder.after_dependencies (Set.finite_Iio _) (fun p x h => h.lt) hpos hacyclic

section Independence

variable {T : Type}

variable (tx : ℕ → T)

/-- The item at a position, with its index replaced by what the index stands for. -/
def labelAt (items : List (ℕ × AtomicTxOrderInfo)) (pos : ℕ) : Option (T × AtomicTxOrderInfo) :=
  (items.map fun item => (tx item.1, item.2))[pos]?

theorem labelAt_eq (items : List (ℕ × AtomicTxOrderInfo)) (pos : ℕ) :
    labelAt tx items pos = items[pos]?.map fun item => (tx item.1, item.2) := by
  rw [labelAt, getElem?_map]

theorem image_labelAt (items : List (ℕ × AtomicTxOrderInfo)) :
    labelAt tx items '' Set.Iio items.length =
      {z | ∃ q ∈ items.map (fun item => (tx item.1, item.2)), z = some q} := by
  ext z
  constructor
  · rintro ⟨pos, hpos, rfl⟩
    rw [Set.mem_Iio] at hpos
    refine ⟨_, getElem_mem (by rwa [List.length_map]), ?_⟩
    exact getElem?_eq_getElem _
  · rintro ⟨q, hq, rfl⟩
    obtain ⟨pos, hpos⟩ := List.mem_iff_getElem?.mp hq
    have hlt := (List.getElem?_eq_some_iff.mp hpos).1
    rw [List.length_map] at hlt
    exact ⟨pos, hlt, hpos⟩

/-- Dependence between labelled items. -/
def DependsLabelled (labels : List (T × AtomicTxOrderInfo)) (s : AtomicConsensusState)
    (parent child : Option (T × AtomicTxOrderInfo)) : Prop :=
  ∃ p c, p ∈ labels ∧ parent = some p ∧ child = some c ∧ c.2.DependsOn s p.2

theorem dependsLabelled_iff {pos : ℕ} (hpos : pos < items.length)
    (q : Option (T × AtomicTxOrderInfo)) :
    DependsLabelled (items.map fun item => (tx item.1, item.2)) s q (labelAt tx items pos) ↔
      ∃ parent, DependsAt items s parent pos ∧ q = labelAt tx items parent := by
  have hget : items[pos]? = some items[pos] := getElem?_eq_getElem hpos
  constructor
  · rintro ⟨p, c, hp, rfl, hc, hdepends⟩
    obtain ⟨parent, hparent⟩ := List.mem_iff_getElem?.mp hp
    refine ⟨parent, ?_, hparent.symm⟩
    rw [labelAt_eq, hget] at hc
    obtain rfl := Option.some.inj hc
    rw [getElem?_map, Option.map_eq_some_iff] at hparent
    obtain ⟨item, hitem, rfl⟩ := hparent
    exact ⟨item, items[pos], hitem, hget, hdepends⟩
  · rintro ⟨parent, ⟨p, c, hp, hc, hdepends⟩, rfl⟩
    refine ⟨(tx p.1, p.2), (tx c.1, c.2), ?_, ?_, ?_, hdepends⟩
    · exact mem_map_of_mem (mem_of_getElem? hp)
    · rw [labelAt_eq, hp]
      rfl
    · rw [labelAt_eq, hc]
      rfl

def labelPriority (z : Option (T × AtomicTxOrderInfo)) : WithBot AtomicTxOrderPriority :=
  z.map fun q => q.2.priority

theorem injOn_labelPriority {labels : List (T × AtomicTxOrderInfo)}
    (hnodup : (labels.map (·.2.priority.txidBytes)).Nodup) :
    Set.InjOn labelPriority {z | ∃ q ∈ labels, z = some q} := by
  rintro _ ⟨p, hp, rfl⟩ _ ⟨q, hq, rfl⟩ heq
  have hpriority : p.2.priority = q.2.priority := Option.some.inj heq
  rw [inj_on_of_nodup_map hnodup hp hq (by rw [hpriority])]

theorem injOn_labelAt (hnodup : (items.map (·.2.priority.txidBytes)).Nodup) :
    Set.InjOn (labelAt tx items) (Set.Iio items.length) := by
  intro i hi j hj heq
  rw [Set.mem_Iio] at hi hj
  rw [labelAt_eq, labelAt_eq, getElem?_eq_getElem hi, getElem?_eq_getElem hj] at heq
  rw [Option.map_some, Option.map_some] at heq
  have hinfo : items[i].2 = items[j].2 := (Prod.mk.inj (Option.some.inj heq)).2
  have hids : (items.map (·.2.priority.txidBytes))[i]? =
      (items.map (·.2.priority.txidBytes))[j]? := by
    rw [getElem?_map, getElem?_map, getElem?_eq_getElem hi,
      getElem?_eq_getElem hj, Option.map_some, Option.map_some, hinfo]
  exact (getElem?_inj (by rwa [List.length_map]) hnodup).mp hids

theorem readyOrder_map_label (items : List (ℕ × AtomicTxOrderInfo)) (s : AtomicConsensusState)
    (hnodup : (items.map (·.2.priority.txidBytes)).Nodup) :
    ∃ l rest, (readyOrder (priorityAt items) items.length (atomicEdges items s)).map
        (labelAt tx items) = l ++ rest ∧
      IsReadyOrder {z | ∃ q ∈ items.map (fun item => (tx item.1, item.2)), z = some q}
        (DependsLabelled (items.map fun item => (tx item.1, item.2)) s) labelPriority l rest := by
  obtain ⟨l, rest, heq, horder⟩ := exists_isReadyOrder items s
  refine ⟨l.map (labelAt tx items), rest.map (labelAt tx items), by rw [heq, map_append], ?_⟩
  rw [← image_labelAt]
  apply horder.map (injOn_labelAt tx hnodup) (fun p x h => h.lt)
  · intro pos hpos q
    exact dependsLabelled_iff tx hpos q
  · intro pos hpos
    rw [labelAt_eq, priorityAt, labelPriority, Option.map_map]
    rfl

theorem orderAtomicIndices_map_eq {ys : List (ℕ × AtomicTxOrderInfo)} {tx tx' : ℕ → T}
    (hperm : (ys.map fun item => (tx' item.1, item.2)).Perm
      (items.map fun item => (tx item.1, item.2)))
    (hnodup : (items.map (·.2.priority.txidBytes)).Nodup) :
    (orderAtomicIndices ys s).map tx' = (orderAtomicIndices items s).map tx := by
  have hlength : ys.length = items.length := by simpa using hperm.length_eq
  unfold orderAtomicIndices
  rw [hlength]
  split_ifs with hshort
  · -- at most one item: the two lists are equal
    have hlabels : ys.map (fun item => (tx' item.1, item.2)) =
        items.map fun item => (tx item.1, item.2) := by
      match items, hshort with
      | [], _ => exact perm_nil.mp hperm
      | [item], _ => exact perm_singleton.mp hperm
    have htxs := congrArg (List.map Prod.fst) hlabels
    simpa [List.map_map, Function.comp_def] using htxs
  · have hids : (ys.map (·.2.priority.txidBytes)).Perm (items.map (·.2.priority.txidBytes)) := by
      simpa [List.map_map, Function.comp_def] using hperm.map (·.2.priority.txidBytes)
    obtain ⟨l, rest, heq, horder⟩ := readyOrder_map_label tx items s hnodup
    obtain ⟨l', rest', heq', horder'⟩ := readyOrder_map_label tx' ys s (hids.nodup_iff.mpr hnodup)
    have hmembers : {z | ∃ q ∈ ys.map (fun item => (tx' item.1, item.2)), z = some q} =
        {z | ∃ q ∈ items.map (fun item => (tx item.1, item.2)), z = some q} := by
      ext z
      simp [hperm.mem_iff]
    have hdepends : DependsLabelled (ys.map fun item => (tx' item.1, item.2)) s =
        DependsLabelled (items.map fun item => (tx item.1, item.2)) s := by
      funext p c
      simp only [DependsLabelled, hperm.mem_iff]
    rw [hmembers, hdepends] at horder'
    have hinj : Set.InjOn labelPriority
        {z | ∃ q ∈ items.map (fun item => (tx item.1, item.2)), z = some q} := by
      apply injOn_labelPriority
      rwa [List.map_map]
    obtain ⟨rfl, rfl⟩ := horder.unique hinj horder'
    have hlabelled := heq'.trans heq.symm
    rw [hlength] at hlabelled
    have hfst := congrArg (List.filterMap (Option.map Prod.fst)) hlabelled
    rw [filterMap_map, filterMap_map] at hfst
    rw [map_filterMap, map_filterMap]
    simpa [Function.comp_def, labelAt_eq, Option.map_map] using hfst

end Independence

end CryptixAtomic.Processor
