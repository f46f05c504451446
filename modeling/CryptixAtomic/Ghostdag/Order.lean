import CryptixAtomic.Ghostdag.KCluster
import CryptixAtomic.Foundation.SortedMerge

/-!
# The consensus order

`consensusOrderedMergeset` puts the selected parent first and merges the blues and the reds of
the mergeset by blue work. Along the selected chain these pieces list the whole past of a
block, every block after its ancestors: the rest of the mergeset is in the anticone of the
selected parent. The piece of genesis holds nothing but the origin.
-/
namespace CryptixAtomic.Ghostdag

open Foundation GhostdagManager List Option

variable {H : Type} [LinearOrder H]

namespace GhostdagManager

variable (m : GhostdagManager H)

/-- The mergeset in ascending order of blue work, ties broken by hash. -/
def ascendingMergesetWithoutSelectedParent (d : GhostdagData H) :
    Option (List (SortableBlock H)) := do
  let blues ← (d.mergesetBlues.drop 1).mapM m.sortable
  let reds ← d.mergesetReds.mapM m.sortable
  -- distinct blocks are never equal
  mergeDistinct SortableBlock.key blues reds

def consensusOrderedMergeset (d : GhostdagData H) : Option (List H) := do
  let mergeset ← m.ascendingMergesetWithoutSelectedParent d
  some (d.selectedParent :: mergeset.map SortableBlock.hash)

/-- The mergesets of the selected chain of `block`, from genesis up. -/
def chainOrder : ℕ → H → Option (List H)
  | 0, _ => none
  | fuel + 1, block => do
    let d ← m.ghostdagStore block
    let mergeset ← m.consensusOrderedMergeset d
    if block = m.genesisHash then some mergeset
    else do
      let below ← chainOrder fuel d.selectedParent
      some (below ++ mergeset)

def consensusOrder (block : H) : Option (List H) := m.chainOrder (m.blockCount + 1) block

end GhostdagManager

namespace BlockDag

variable {D : BlockDag H} {blocks : List H}

omit [LinearOrder H] in
theorem greedy_sublist (base chosen candidates : List H) :
    ∃ picked, (D.greedy base chosen candidates).1 = chosen ++ picked ∧
      picked.Sublist candidates ∧ (D.greedy base chosen candidates).2.Sublist candidates := by
  induction candidates generalizing chosen with
  | nil => exact ⟨[], (append_nil chosen).symm, Sublist.refl _, Sublist.refl _⟩
  | cons c candidates ih =>
    rw [greedy]
    split_ifs
    · obtain ⟨picked, hblues, hpicked, hreds⟩ := ih (chosen ++ [c])
      refine ⟨c :: picked, ?_, hpicked.cons_cons c, hreds.cons c⟩
      rw [hblues, append_assoc, singleton_append]
    · obtain ⟨picked, hblues, hpicked, hreds⟩ := ih chosen
      exact ⟨picked, hblues, hpicked.cons c, hreds.cons_cons c⟩

omit [LinearOrder H] in
theorem key_injective : Function.Injective D.key := by
  intro a b h
  exact (Prod.ext_iff.mp (toLex.injective h)).2

theorem Colored.consensusOrderedMergeset_eq {ps mergeset blues : List H} {d : GhostdagData H}
    (h : D.Colored blocks ps d mergeset blues) (hstored : ∀ x ∈ mergeset, x ∈ blocks) :
    (D.manager blocks).consensusOrderedMergeset d = some (d.selectedParent :: mergeset) := by
  obtain ⟨picked, hblues, hpicked, hreds⟩ := D.greedy_sublist blues [d.selectedParent] mergeset
  rw [← h.blue] at hblues
  rw [← h.red] at hreds
  have hdrop : d.mergesetBlues.drop 1 = picked := by
    rw [hblues]
    rfl
  have hperm : (picked ++ d.mergesetReds).Perm mergeset := by
    have hall := h.perm
    rw [hblues] at hall
    exact Perm.cons_inv hall
  have hnodup : (picked ++ d.mergesetReds).Nodup := hperm.nodup_iff.mpr (nodup_cons.mp h.nodup).2
  obtain ⟨l, hmerge, hl, hsorted⟩ := mergeDistinct_eq D.key picked d.mergesetReds
    (h.sorted.sublist hpicked) (h.sorted.sublist hreds)
    fun a ha b hb heq => (nodup_append.mp hnodup).2.2 a ha b hb (key_injective heq)
  have hmergeset : l = mergeset :=
    eq_of_sorted_of_mem_iff hsorted h.sorted fun x => (hl.trans hperm).mem_iff
  have hmap := mergeDistinct_map SortableBlock.key D.sortableOf picked d.mergesetReds
  have hascending : (D.manager blocks).ascendingMergesetWithoutSelectedParent d =
      some (mergeset.map D.sortableOf) := by
    rw [ascendingMergesetWithoutSelectedParent, hdrop,
      mapM_sortable fun x hx => hstored x (hpicked.subset hx),
      mapM_sortable fun x hx => hstored x (hreds.subset hx)]
    change mergeDistinct _ _ _ = _
    rw [hmap]
    change (mergeDistinct D.key picked d.mergesetReds).map _ = _
    rw [hmerge, hmergeset]
    rfl
  rw [consensusOrderedMergeset, hascending]
  change some (d.selectedParent :: (mergeset.map D.sortableOf).map SortableBlock.hash) = _
  rw [List.map_map]
  simp [Function.comp_def, sortableOf]

/-- `order` lists the past of `b`, every block after its ancestors. -/
structure Listing (D : BlockDag H) (b : H) (order : List H) : Prop where
  once : order.Nodup
  mem_iff : ∀ y, y ∈ order ↔ D.Past b y
  later : order.Pairwise fun a c => ¬ D.Le c a

omit [LinearOrder H] in
theorem Listing.ancestors_before {b : H} {order : List H} (h : D.Listing b order)
    {before after : List H} {x y : H} (hsplit : order = before ++ x :: after)
    (hclosed : D.Past b y) (hy : D.Past x y) : y ∈ before := by
  have hmem := (h.mem_iff y).mpr hclosed
  have hlater := h.later
  rw [hsplit] at hmem hlater
  rcases mem_append.mp hmem with hmem | hmem
  · exact hmem
  · rcases mem_cons.mp hmem with rfl | hmem
    · exact absurd rfl hy.2
    · have hx := (pairwise_cons.mp (pairwise_append.mp hlater).2.1).1
      exact absurd hy.1 (hx y hmem)

/-- The past of a block is the past of its selected parent, that parent, and the
mergeset, in this order. -/
theorem Listing.append (h : D.Valid blocks) {b : H} (hb : b ∈ blocks) {mergeset blues : List H}
    (hcolored : D.Colored blocks (D.parents b) (D.data b) mergeset blues)
    (hstored : ∀ x ∈ mergeset, x ∈ blocks) {below : List H}
    (hbelow : D.Listing (D.data b).selectedParent below) :
    D.Listing b (below ++ (D.data b).selectedParent :: mergeset) := by
  have hsp := hcolored.choosing.parent
  have hself : ∀ x ∈ below, ¬ D.Le (D.data b).selectedParent x := by
    intro x hx hle
    have hpast := (hbelow.mem_iff x).mp hx
    exact hpast.2 (h.layered.antisymm hpast.1 hle hsp)
  have hmerged : ∀ x ∈ mergeset, ¬ D.Le x (D.data b).selectedParent :=
    fun x hx => ((hcolored.members x).mp hx).2
  have hapart : ∀ x ∈ below, ∀ y ∈ mergeset, ¬ D.Le y x :=
    fun x hx y hy hle => hmerged y hy (hle.trans ((hbelow.mem_iff x).mp hx).1)
  constructor
  · apply nodup_append.mpr
    refine ⟨hbelow.once, hcolored.nodup, ?_⟩
    rintro x hx y hy rfl
    rcases mem_cons.mp hy with rfl | hy
    · exact hself _ hx Relation.ReflTransGen.refl
    · exact hapart x hx x hy Relation.ReflTransGen.refl
  · intro y
    rw [mem_append, hbelow.mem_iff, ← hcolored.perm.mem_iff, h.mem_mergeset_iff hb hcolored]
    constructor
    · rintro (hy | hy)
      · exact h.lt_of_le_parent hb hcolored.parent_mem hy.1
      · exact hy.1
    · intro hy
      by_cases hbelow' : D.Past (D.data b).selectedParent y
      · exact .inl hbelow'
      · exact .inr ⟨hy, hbelow'⟩
  · apply pairwise_append.mpr
    refine ⟨hbelow.later, pairwise_cons.mpr ⟨hmerged, ?_⟩, ?_⟩
    · exact h.layered.not_le_of_sorted hstored hcolored.sorted
    · intro x hx y hy
      rcases mem_cons.mp hy with rfl | hy
      · exact hself x hx
      · exact hapart x hx y hy

theorem Valid.chainOrder_eq (h : D.Valid blocks) {b : H} {blues : List H}
    (hblues : D.Blues b blues) (hb : b ∈ blocks) (fuel : ℕ) (hfuel : blues.length < fuel) :
    ∃ order, (D.manager blocks).chainOrder fuel b = some (D.origin :: order) ∧
      D.Listing b order := by
  induction hblues generalizing fuel with
  | genesis =>
    obtain ⟨fuel, rfl⟩ := Nat.exists_eq_succ_of_ne_zero (Nat.ne_zero_of_lt hfuel)
    have hstore : (D.manager blocks).ghostdagStore D.genesis =
        some (D.manager []).genesisGhostdagData := by
      rw [← h.genesis]
      exact if_pos hb
    have hmergeset : (D.manager blocks).consensusOrderedMergeset
        (D.manager []).genesisGhostdagData = some [D.origin] := by
      simp [consensusOrderedMergeset, ascendingMergesetWithoutSelectedParent,
        genesisGhostdagData, mergeDistinct, manager]
    refine ⟨[], ?_, nodup_nil, ?_, Pairwise.nil⟩
    · rw [chainOrder, hstore]
      simp only [bind_eq_bind, bind_some, hmergeset]
      exact if_pos rfl
    · intro y
      refine iff_of_false not_mem_nil ?_
      rintro ⟨hle, hne⟩
      exact hne (h.le_genesis_iff.mp hle)
  | @step b blues hne hparent ih =>
    obtain ⟨fuel, rfl⟩ := Nat.exists_eq_succ_of_ne_zero (Nat.ne_zero_of_lt hfuel)
    obtain ⟨mergeset, base, hcolored⟩ := h.colored b hb hne
    have hlength : 0 < (D.data b).mergesetBlues.length :=
      length_pos_iff.mpr (h.chains.blues_ne b hb hne)
    rw [length_append] at hfuel
    obtain ⟨below, hbelow, hlisting⟩ := ih (h.chains.parent b hb hne) fuel (by omega)
    have hstored : ∀ x ∈ mergeset, x ∈ blocks := by
      intro x hx
      obtain ⟨⟨p, hp, hle⟩, _⟩ := (hcolored.members x).mp hx
      exact h.layered.mem_of_le hle (h.layered.closed b hb p hp)
    have hstore : (D.manager blocks).ghostdagStore b = some (D.data b) := if_pos hb
    refine ⟨below ++ (D.data b).selectedParent :: mergeset, ?_, ?_⟩
    · rw [chainOrder, hstore]
      simp only [bind_eq_bind, bind_some, hcolored.consensusOrderedMergeset_eq hstored, hbelow]
      exact if_neg hne
    · exact hlisting.append h hb hcolored hstored

end BlockDag

end CryptixAtomic.Ghostdag
