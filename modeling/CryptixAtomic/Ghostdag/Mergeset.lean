import CryptixAtomic.Ghostdag.Protocol
import CryptixAtomic.Foundation.Traversal

/-!
# Block DAGs and mergesets

`Built` says that a block DAG was built block by block, each one with the data `ghostdag`
computed from the blocks before it, over parents none of which is in the past of another.
First `ghostdag` picks the parent of highest blue work and collects the mergeset. The search
stops at blocks in the past of that parent, which loses nothing.
-/
namespace CryptixAtomic.Ghostdag

open Foundation GhostdagManager List Relation

variable {H : Type} [LinearOrder H]

/-- What is stored for every block, and the answers of the reachability service. -/
structure BlockDag (H : Type) where
  genesis : H
  origin : H
  k : ℕ
  parents : H → List H
  data : H → GhostdagData H
  work : H → ℕ
  reach : H → H → Bool

namespace BlockDag

variable (D : BlockDag H)

/-- The manager over the stores that hold `blocks`. -/
def manager (blocks : List H) : GhostdagManager H where
  genesisHash := D.genesis
  originHash := D.origin
  k := D.k
  ghostdagStore := fun h => if h ∈ blocks then some (D.data h) else none
  relationsStore := fun h => if h ∈ blocks then some (D.parents h) else none
  work := fun h => if h ∈ blocks then some (D.work h) else none
  isDagAncestorOf := D.reach
  blockCount := blocks.length

variable (D : BlockDag H)

/-- `a` is `b` or in its past. -/
def Le : H → H → Prop := ReflTransGen fun p c => p ∈ D.parents c

structure Parents (blocks parents : List H) : Prop where
  nonempty : parents ≠ []
  stored : ∀ p ∈ parents, p ∈ blocks
  antichain : ∀ p ∈ parents, ∀ q ∈ parents, D.Le p q → p = q

/-- DAGs that grow from genesis by calls of `ghostdag`. -/
inductive Built : List H → Prop
  | genesis (hdata : D.data D.genesis = (D.manager []).genesisGhostdagData)
      (hparents : D.parents D.genesis = []) (horigin : D.genesis ≠ D.origin) : Built [D.genesis]
  | add {blocks : List H} {b : H} (hbuilt : Built blocks) (hfresh : b ∉ blocks)
      (horigin : b ≠ D.origin) (hparents : D.Parents blocks (D.parents b))
      (hdata : (D.manager blocks).ghostdag (D.parents b) = some (D.data b)) : Built (b :: blocks)

/-- The reachability service answers exactly. -/
def Exact (blocks : List H) : Prop := ∀ a ∈ blocks, ∀ b ∈ blocks, D.reach a b = true ↔ D.Le a b

variable {D} {blocks : List H}

def blueWork (b : H) : ℕ := (D.data b).blueWork

def key (b : H) : ℕ ×ₗ H := toLex (D.blueWork b, b)

/-- What the order of the blocks needs to be like: parents are stored, genesis is
below everything, and blue work grows along every edge. -/
structure Layered (D : BlockDag H) (blocks : List H) : Prop where
  closed : ∀ b ∈ blocks, ∀ p ∈ D.parents b, p ∈ blocks
  genesis_mem : D.genesis ∈ blocks
  genesis_le : ∀ b ∈ blocks, D.Le D.genesis b
  grows : ∀ b ∈ blocks, ∀ p ∈ D.parents b, D.blueWork p < D.blueWork b

namespace Layered

omit [LinearOrder H]

theorem mem_of_le (h : D.Layered blocks) {a b : H} (hab : D.Le a b) (hb : b ∈ blocks) :
    a ∈ blocks := by
  induction hab using ReflTransGen.head_induction_on with
  | refl => exact hb
  | head hedge _ ih => exact h.closed _ ih _ hedge

theorem eq_or_lt (h : D.Layered blocks) {a b : H} (hab : D.Le a b) (hb : b ∈ blocks) :
    a = b ∨ D.blueWork a < D.blueWork b := by
  induction hab using ReflTransGen.head_induction_on with
  | refl => exact .inl rfl
  | head hedge hrest ih =>
    have hlt := h.grows _ (h.mem_of_le hrest hb) _ hedge
    rcases ih with rfl | ih
    · exact .inr hlt
    · exact .inr (hlt.trans ih)

theorem antisymm (h : D.Layered blocks) {a b : H} (hab : D.Le a b) (hba : D.Le b a)
    (hb : b ∈ blocks) : a = b := by
  rcases h.eq_or_lt hab hb with heq | hlt
  · exact heq
  · rcases h.eq_or_lt hba (h.mem_of_le hab hb) with heq | hlt'
    · exact heq.symm
    · omega

end Layered

omit [LinearOrder H] in
theorem le_iff {a b : H} : D.Le a b ↔ a = b ∨ ∃ p ∈ D.parents b, D.Le a p := by
  constructor
  · intro h
    rcases ReflTransGen.cases_tail h with rfl | ⟨p, hap, hp⟩
    · exact .inl rfl
    · exact .inr ⟨p, hp, hap⟩
  · rintro (rfl | ⟨p, hp, hap⟩)
    · exact ReflTransGen.refl
    · exact hap.tail hp

def sortableOf (b : H) : SortableBlock H := ⟨b, D.blueWork b⟩

theorem mapM_sortable {l : List H} (hl : ∀ b ∈ l, b ∈ blocks) :
    l.mapM (D.manager blocks).sortable = some (l.map D.sortableOf) := by
  apply mapM_eq_some_map
  intro b hb
  simp [sortable, manager, hl b hb, sortableOf, blueWork]

theorem foldl_laterMax (l : List H) (b : H) :
    ∃ x ∈ b :: l, (l.map D.sortableOf).foldl laterMax (D.sortableOf b) =
      D.sortableOf x ∧ ∀ y ∈ b :: l, D.key y ≤ D.key x := by
  induction l generalizing b with
  | nil => exact ⟨b, mem_cons_self, rfl, by simp⟩
  | cons c l ih =>
    rw [map_cons, foldl_cons]
    by_cases hlt : D.key c < D.key b
    · have hmax : laterMax (D.sortableOf b) (D.sortableOf c) = D.sortableOf b :=
        if_pos hlt
      rw [hmax]
      obtain ⟨x, hx, hfold, hle⟩ := ih b
      refine ⟨x, ?_, hfold, ?_⟩
      · rcases mem_cons.mp hx with rfl | hx
        · exact mem_cons_self
        · exact mem_cons_of_mem _ (mem_cons_of_mem _ hx)
      · intro y hy
        rcases mem_cons.mp hy with rfl | hy
        · exact hle y mem_cons_self
        · rcases mem_cons.mp hy with rfl | hy
          · exact hlt.le.trans (hle b mem_cons_self)
          · exact hle y (mem_cons_of_mem _ hy)
    · have hmax : laterMax (D.sortableOf b) (D.sortableOf c) = D.sortableOf c :=
        if_neg hlt
      rw [hmax]
      obtain ⟨x, hx, hfold, hle⟩ := ih c
      have hge := (not_lt.mp hlt).trans (hle c mem_cons_self)
      exact ⟨x, mem_cons_of_mem b hx, hfold, forall_mem_cons.mpr ⟨hge, hle⟩⟩

variable {parents : List H} {selectedParent : H}

theorem findSelectedParent_eq (hne : parents ≠ []) (hstored : ∀ p ∈ parents, p ∈ blocks) :
    ∃ x ∈ parents, (D.manager blocks).findSelectedParent parents = some x ∧
      ∀ y ∈ parents, D.key y ≤ D.key x := by
  cases parents with
  | nil => exact absurd rfl hne
  | cons b l =>
    obtain ⟨x, hx, hfold, hle⟩ := D.foldl_laterMax l b
    refine ⟨x, hx, ?_, hle⟩
    rw [findSelectedParent, mapM_sortable hstored]
    change some ((l.map D.sortableOf).foldl laterMax (D.sortableOf b)).hash = some x
    rw [hfold]
    rfl

theorem sortBlocks_eq {l : List H} (hnodup : l.Nodup) (hl : ∀ b ∈ l, b ∈ blocks) :
    ∃ sorted, (D.manager blocks).sortBlocks l = some sorted ∧ sorted.Perm l ∧
      sorted.Pairwise fun a b => D.key a < D.key b := by
  obtain ⟨keyed, hkeyed⟩ : ∃ keyed, keyed = (l.map D.sortableOf).insertionSort
      fun a b => a.key ≤ b.key := ⟨_, rfl⟩
  have hperm : (keyed.map SortableBlock.hash).Perm l := by
    have h := (perm_insertionSort (fun a b : SortableBlock H => a.key ≤ b.key)
      (l.map D.sortableOf)).map SortableBlock.hash
    rw [hkeyed]
    simpa [List.map_map, Function.comp_def, sortableOf] using h
  refine ⟨keyed.map SortableBlock.hash, ?_, hperm, ?_⟩
  · rw [sortBlocks, mapM_sortable hl, hkeyed]
    rfl
  · -- every entry still carries the work of its block
    have hkeys : ∀ s ∈ keyed, s.key = D.key s.hash := by
      intro s hs
      rw [hkeyed, mem_insertionSort] at hs
      obtain ⟨b, _, rfl⟩ := mem_map.mp hs
      rfl
    have htotal : Std.Total fun a b : SortableBlock H => a.key ≤ b.key := ⟨fun _ _ => le_total _ _⟩
    have htrans : IsTrans (SortableBlock H) fun a b => a.key ≤ b.key := ⟨fun _ _ _ => le_trans⟩
    have hsorted : keyed.Pairwise fun a b => a.key ≤ b.key := by
      rw [hkeyed]
      exact pairwise_insertionSort _ _
    have hdistinct : (keyed.map SortableBlock.hash).Nodup := hperm.nodup_iff.mpr hnodup
    rw [Nodup, pairwise_map] at hdistinct
    rw [pairwise_map]
    apply (hsorted.and hdistinct).imp_of_mem
    intro a b ha hb hab
    rw [← hkeys a ha, ← hkeys b hb]
    apply lt_of_le_of_ne hab.1
    intro heq
    exact hab.2 (congrArg Prod.snd (toLex.injective heq))

theorem visitParent_eq (selectedParent p : H) (s : GhostdagManager.MergesetState H)
    (hpast : ∀ b ∈ s.past, D.reach b selectedParent = true) :
    ∃ new past, (D.manager blocks).visitParent selectedParent s p =
        ⟨s.queue ++ new, s.mergeset ++ new, past⟩ ∧
      (∀ b ∈ past, D.reach b selectedParent = true) ∧ new.Nodup ∧
      ∀ b, b ∈ new ↔ b = p ∧ p ∉ s.mergeset ∧ D.reach p selectedParent = false := by
  by_cases hknown : p ∈ s.mergeset ∨ p ∈ s.past
  · refine ⟨[], s.past, by simp [visitParent, hknown], hpast, nodup_nil, ?_⟩
    have hold : p ∉ s.mergeset → D.reach p selectedParent = true := fun hnot =>
      hpast p (hknown.resolve_left hnot)
    simpa using hold
  cases hreach : D.reach p selectedParent with
  | true =>
    refine ⟨[], s.past ++ [p], by simp [visitParent, hknown, manager, hreach], ?_, nodup_nil, by simp⟩
    rw [forall_mem_append, forall_mem_singleton]
    exact ⟨hpast, hreach⟩
  | false =>
    rw [not_or] at hknown
    exact ⟨[p], s.past, by simp [visitParent, hknown, manager, hreach], hpast, nodup_singleton p,
      by simp [hknown]⟩

theorem foldl_visitParent (selectedParent : H) (ps : List H) (s : GhostdagManager.MergesetState H)
    (hpast : ∀ b ∈ s.past, D.reach b selectedParent = true) :
    ∃ fresh past, ps.foldl ((D.manager blocks).visitParent selectedParent) s =
        ⟨s.queue ++ fresh, s.mergeset ++ fresh, past⟩ ∧
      (∀ b ∈ past, D.reach b selectedParent = true) ∧ fresh.Nodup ∧
      (∀ b ∈ fresh, b ∉ s.mergeset ∧ b ∈ ps ∧ D.reach b selectedParent = false) ∧
      ∀ b ∈ ps, D.reach b selectedParent = false → b ∈ s.mergeset ∨ b ∈ fresh := by
  induction ps generalizing s with
  | nil => exact ⟨[], s.past, by simp, hpast, by simp⟩
  | cons p ps ih =>
    obtain ⟨new, past, hvisit, hpast, hone, hnew⟩ := visitParent_eq selectedParent p s hpast
    obtain ⟨fresh, past', hfold, hpast', hnodup, hfresh, hcover⟩ :=
      ih ⟨s.queue ++ new, s.mergeset ++ new, past⟩ hpast
    refine ⟨new ++ fresh, past', ?_, hpast', ?_, ?_, ?_⟩
    · rw [foldl_cons, hvisit, hfold, append_assoc, append_assoc]
    · apply hone.append hnodup
      intro b hb hb'
      exact (hfresh b hb').1 (mem_append_right _ hb)
    · intro b hb
      rcases mem_append.mp hb with hb | hb
      · obtain ⟨rfl, hnot, hreach⟩ := (hnew b).mp hb
        exact ⟨hnot, mem_cons_self, hreach⟩
      · obtain ⟨hnot, hmem, hreach⟩ := hfresh b hb
        exact ⟨fun hold => hnot (mem_append_left _ hold), mem_cons_of_mem p hmem, hreach⟩
    · intro b hb hreach
      have hkept : b ∈ s.mergeset ++ new ∨ b ∈ fresh := by
        rcases mem_cons.mp hb with rfl | hb
        · rw [mem_append, hnew]
          tauto
        · exact hcover b hb hreach
      simpa [or_assoc] using hkept

def Merged (parents : List H) (selectedParent y : H) : Prop :=
  (∃ p ∈ parents, D.Le y p) ∧ ¬ D.Le y selectedParent

def MergeEdge (selectedParent x y : H) : Prop :=
  y ∈ D.parents x ∧ ¬ D.Le y selectedParent

theorem mergesetLoop_eq (h : D.Layered blocks) (hexact : D.Exact blocks)
    (hsp : selectedParent ∈ blocks) (hparents : ∀ p ∈ parents, p ∈ blocks) {seed : H → Prop}
    (hseed : ∀ x, seed x → D.Merged parents selectedParent x) (fuel : ℕ)
    (s : GhostdagManager.MergesetState H) (hpast : ∀ b ∈ s.past, D.reach b selectedParent = true)
    (hinv : SearchInvariant (D.MergeEdge selectedParent) seed (D.Merged parents selectedParent)
      blocks.toFinset s.queue s.mergeset)
    (hfuel : s.queue.length + blocks.length ≤ fuel + s.mergeset.length) :
    ∃ mergeset, (D.manager blocks).mergesetLoop selectedParent fuel s = some mergeset ∧
      (∀ b ∈ s.mergeset, b ∈ mergeset) ∧
      SearchInvariant (D.MergeEdge selectedParent) seed (D.Merged parents selectedParent)
        blocks.toFinset [] mergeset := by
  have hcard : blocks.toFinset.card ≤ blocks.length := toFinset_card_le blocks
  induction fuel generalizing s with
  | zero =>
    have hqueue := hinv.queue_eq_nil (by omega)
    rw [hqueue] at hinv
    refine ⟨s.mergeset, ?_, fun b hb => hb, hinv⟩
    rw [mergesetLoop, if_pos hqueue]
  | succ fuel ih =>
    obtain ⟨queue, mergeset, past⟩ := s
    cases queue with
    | nil => exact ⟨mergeset, rfl, fun b hb => hb, hinv⟩
    | cons current queue =>
      have hcurrent : D.Merged parents selectedParent current := by
        rcases hinv.queued current mem_cons_self with hc | hc
        · exact hseed current hc
        · exact hinv.reachable current hc
      have hmem : current ∈ blocks := by
        obtain ⟨⟨p, hp, hle⟩, -⟩ := hcurrent
        exact h.mem_of_le hle (hparents p hp)
      obtain ⟨fresh, past', hfold, hpast', hnodup, hfresh, hcover⟩ :=
        foldl_visitParent selectedParent (D.parents current) ⟨queue, mergeset, past⟩ hpast
      have hreach : ∀ b ∈ D.parents current,
          D.reach b selectedParent = false ↔ ¬ D.Le b selectedParent := by
        intro b hb
        rw [← hexact b (h.closed current hmem b hb) selectedParent hsp, Bool.not_eq_true]
      have hloop : (D.manager blocks).mergesetLoop selectedParent (fuel + 1)
          ⟨current :: queue, mergeset, past⟩ = (D.manager blocks).mergesetLoop selectedParent fuel
              ⟨queue ++ fresh, mergeset ++ fresh, past'⟩ := by
        have hrelations : (D.manager blocks).relationsStore current = some (D.parents current) :=
          if_pos hmem
        simp only [mergesetLoop, hrelations, Option.bind_eq_bind, Option.bind_some]
        rw [hfold]
      have hstep : SearchInvariant (D.MergeEdge selectedParent) seed
          (D.Merged parents selectedParent) blocks.toFinset (queue ++ fresh)
          (mergeset ++ fresh) := by
        apply hinv.step
        · intro x y hx hxy
          have hxm : D.Merged parents selectedParent x := hx.elim (hseed x) id
          obtain ⟨⟨p, hp, hle⟩, -⟩ := hxm
          have hyp : D.Le y p := ReflTransGen.head hxy.1 hle
          exact ⟨⟨⟨p, hp, hyp⟩, hxy.2⟩, mem_toFinset.mpr (h.mem_of_le hyp (hparents p hp))⟩
        · exact hnodup
        · exact fun b hb => (hfresh b hb).1
        · intro b hb
          obtain ⟨-, hb, hb'⟩ := hfresh b hb
          exact ⟨hb, (hreach b hb).mp hb'⟩
        · intro b hb
          exact hcover b hb.1 ((hreach b hb.1).mpr hb.2)
      have hfuel' : (queue ++ fresh).length + blocks.length ≤
          fuel + (mergeset ++ fresh).length := by
        simp only [length_append, length_cons] at hfuel ⊢
        omega
      obtain ⟨result, hrun, hkept, hend⟩ :=
        ih ⟨queue ++ fresh, mergeset ++ fresh, past'⟩ hpast' hstep hfuel'
      refine ⟨result, hloop.trans hrun, ?_, hend⟩
      intro b hb
      exact hkept b (mem_append_left _ hb)

theorem unorderedMergeset_eq (h : D.Layered blocks) (hexact : D.Exact blocks)
    (hparents : D.Parents blocks parents) (hsp : selectedParent ∈ parents) :
    ∃ mergeset, (D.manager blocks).unorderedMergesetWithoutSelectedParent selectedParent parents =
        some mergeset ∧ mergeset.Nodup ∧
      ∀ y, y ∈ mergeset ↔ D.Merged parents selectedParent y := by
  have hseed : ∀ x, x ∈ parents.filter (· ≠ selectedParent) →
      D.Merged parents selectedParent x := by
    intro x hx
    obtain ⟨hx, hne⟩ := mem_filter.mp hx
    refine ⟨⟨x, hx, ReflTransGen.refl⟩, ?_⟩
    intro hle
    exact (of_decide_eq_true hne) (hparents.antichain x hx selectedParent hsp hle)
  have hinit : SearchInvariant (D.MergeEdge selectedParent)
      (· ∈ parents.filter (· ≠ selectedParent)) (D.Merged parents selectedParent) blocks.toFinset
      (parents.filter (· ≠ selectedParent)) (parents.filter (· ≠ selectedParent)).dedup := by
    constructor
    · exact nodup_dedup _
    · intro b hb
      have hb' := mem_dedup.mp hb
      exact mem_toFinset.mpr (hparents.stored b (mem_filter.mp hb').1)
    · exact fun b hb => hseed b (mem_dedup.mp hb)
    · exact fun a ha => .inl ha
    · intro a ha
      apply Or.inl
      rcases ha with ha | ha
      · exact ha
      · exact mem_dedup.mp ha
  obtain ⟨mergeset, hrun, hkept, hend⟩ := mergesetLoop_eq h hexact (hparents.stored _ hsp)
    hparents.stored hseed _
    ⟨parents.filter (· ≠ selectedParent), (parents.filter (· ≠ selectedParent)).dedup, []⟩
    (by simp) hinit (Nat.le_add_right _ _)
  refine ⟨mergeset, hrun, hend.nodup, fun y => ⟨hend.reachable y, ?_⟩⟩
  rintro ⟨⟨p, hp, hle⟩, hnot⟩
  -- walk down from the parent: nothing on the way is below the selected parent
  revert hnot
  induction hle using ReflTransGen.head_induction_on with
  | refl =>
    intro hnot
    have hne : p ≠ selectedParent := by
      rintro rfl
      exact hnot ReflTransGen.refl
    apply hkept
    apply mem_dedup.mpr
    exact mem_filter.mpr ⟨hp, by simpa using hne⟩
  | head hedge _ ih =>
    intro hnot
    have habove := ih fun hle => hnot (ReflTransGen.head hedge hle)
    exact hend.closed (.inr habove) ⟨hedge, hnot⟩

theorem orderedMergeset_eq (h : D.Layered blocks) (hexact : D.Exact blocks)
    (hparents : D.Parents blocks parents) (hsp : selectedParent ∈ parents) :
    ∃ mergeset, (D.manager blocks).orderedMergesetWithoutSelectedParent selectedParent parents =
        some mergeset ∧ (∀ y, y ∈ mergeset ↔ D.Merged parents selectedParent y) ∧
      mergeset.Pairwise fun a b => D.key a < D.key b := by
  obtain ⟨unordered, hrun, hnodup, hmem⟩ := unorderedMergeset_eq h hexact hparents hsp
  have hstored : ∀ b ∈ unordered, b ∈ blocks := by
    intro b hb
    obtain ⟨⟨p, hp, hle⟩, -⟩ := (hmem b).mp hb
    exact h.mem_of_le hle (hparents.stored p hp)
  obtain ⟨sorted, hsort, hperm, hpairwise⟩ := sortBlocks_eq hnodup hstored
  refine ⟨sorted, ?_, ?_, hpairwise⟩
  · rw [orderedMergesetWithoutSelectedParent, hrun]
    exact hsort
  · intro y
    rw [hperm.mem_iff, hmem]

end BlockDag

end CryptixAtomic.Ghostdag
