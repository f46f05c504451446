import CryptixAtomic.Ghostdag.Order

/-!
# Independence of the order of parents

A header lists its parents in some order. Two DAGs that differ in these orders
only have the same data: the selected parent is the highest one in either, the
mergeset is a set before it is sorted, and everything else is computed from them.
So they have the same consensus order.
-/
namespace CryptixAtomic.Ghostdag

open Foundation GhostdagManager List Relation

variable {H : Type} [LinearOrder H]

namespace BlockDag

variable {D D' : BlockDag H} {blocks blocks' : List H}

/-- `D'` has the blocks of `D`, with their parents listed in another order. -/
structure Relisted (D D' : BlockDag H) (blocks : List H) : Prop where
  genesis : D'.genesis = D.genesis
  origin : D'.origin = D.origin
  k : D'.k = D.k
  work : ∀ b ∈ blocks, D'.work b = D.work b
  parents : ∀ b ∈ blocks, (D'.parents b).Perm (D.parents b)

/-- The data that the order depends on. -/
structure SameData (d d' : GhostdagData H) : Prop where
  selectedParent : d'.selectedParent = d.selectedParent
  blues : d'.mergesetBlues = d.mergesetBlues
  reds : d'.mergesetReds = d.mergesetReds
  blueWork : d'.blueWork = d.blueWork

omit [LinearOrder H] in
theorem le_of_parents_subset (hclosed : ∀ b ∈ blocks, ∀ p ∈ D.parents b, p ∈ blocks)
    (hsub : ∀ b ∈ blocks, ∀ p ∈ D.parents b, p ∈ D'.parents b) {a b : H} (hle : D.Le a b)
    (hb : b ∈ blocks) : D'.Le a b := by
  induction hle with
  | refl => exact ReflTransGen.refl
  | @tail p c _ hp ih => exact (ih (hclosed c hb p hp)).tail (hsub c hb p hp)

namespace Relisted

omit [LinearOrder H] in
theorem le_iff (h : Relisted D D' blocks) (hlayered : D.Layered blocks) {a b : H}
    (hb : b ∈ blocks) : D'.Le a b ↔ D.Le a b := by
  constructor
  · intro hle
    have hsub : ∀ c ∈ blocks, ∀ p ∈ D'.parents c, p ∈ D.parents c :=
      fun c hc p hp => (h.parents c hc).mem_iff.mp hp
    exact le_of_parents_subset (fun c hc p hp => hlayered.closed c hc p (hsub c hc p hp)) hsub hle hb
  · intro hle
    exact le_of_parents_subset hlayered.closed
      (fun c hc p hp => (h.parents c hc).mem_iff.mpr hp) hle hb

omit [LinearOrder H] in
theorem cluster_iff (h : Relisted D D' blocks) (hlayered : D.Layered blocks) {set : List H}
    (hset : ∀ x ∈ set, x ∈ blocks) : D'.Cluster set ↔ D.Cluster set := by
  have hanticone : ∀ b ∈ set, D'.anticone set b = D.anticone set b := by
    intro b hb
    apply filter_congr
    intro y hy
    rw [h.le_iff hlayered (hset b hb), h.le_iff hlayered (hset y hy)]
  unfold Cluster
  rw [h.k]
  constructor
  · intro hcluster b hb
    exact hanticone b hb ▸ hcluster b hb
  · intro hcluster b hb
    exact (hanticone b hb).symm ▸ hcluster b hb

omit [LinearOrder H] in
theorem greedy_eq (h : Relisted D D' blocks) (hlayered : D.Layered blocks) {base : List H}
    (hbase : ∀ x ∈ base, x ∈ blocks) (candidates chosen : List H)
    (hchosen : ∀ x ∈ chosen, x ∈ blocks) (hcandidates : ∀ x ∈ candidates, x ∈ blocks) :
    D'.greedy base chosen candidates = D.greedy base chosen candidates := by
  induction candidates generalizing chosen with
  | nil => rfl
  | cons c candidates ih =>
    have hc := hcandidates c mem_cons_self
    have hrest : ∀ x ∈ candidates, x ∈ blocks :=
      fun x hx => hcandidates x (mem_cons_of_mem c hx)
    have hset : ∀ x ∈ c :: (chosen ++ base), x ∈ blocks := by
      intro x hx
      rcases mem_cons.mp hx with rfl | hx
      · exact hc
      · exact (mem_append.mp hx).elim (hchosen x) (hbase x)
    have hmore : ∀ x ∈ chosen ++ [c], x ∈ blocks := by
      intro x hx
      rcases mem_append.mp hx with hx | hx
      · exact hchosen x hx
      · exact mem_singleton.mp hx ▸ hc
    rw [greedy, greedy, ih (chosen ++ [c]) hmore hrest, ih chosen hchosen hrest]
    by_cases hcluster : D.Cluster (c :: (chosen ++ base))
    · rw [if_pos hcluster, if_pos ((h.cluster_iff hlayered hset).mpr hcluster)]
    · rw [if_neg hcluster, if_neg (mt (h.cluster_iff hlayered hset).mp hcluster)]

omit [LinearOrder H] in
theorem blues (h : Relisted D D' blocks) (hchains : D.Chains blocks) {b : H} {l : List H}
    (hblues : D.Blues b l) (hb : b ∈ blocks)
    (hsame : ∀ y, D.Le y b → SameData (D.data y) (D'.data y)) : D'.Blues b l := by
  induction hblues with
  | genesis =>
    rw [← h.genesis]
    exact Blues.genesis
  | @step b l hne _ ih =>
    have hself := hsame b ReflTransGen.refl
    have hparent := ih (hchains.parent b hb hne)
      fun y hy => hsame y (hy.trans (hchains.parent_le b hb hne))
    rw [← hself.blues]
    rw [← hself.selectedParent] at hparent
    exact Blues.step (h.genesis ▸ hne) hparent

omit [LinearOrder H] in
theorem merged_iff (h : Relisted D D' blocks) (hlayered : D.Layered blocks) {b sp : H}
    (hb : b ∈ blocks) (hsp : sp ∈ blocks) (y : H) :
    D'.Merged (D'.parents b) sp y ↔ D.Merged (D.parents b) sp y := by
  unfold Merged
  rw [h.le_iff hlayered hsp]
  apply and_congr _ Iff.rfl
  constructor
  · rintro ⟨p, hp, hle⟩
    have hp := (h.parents b hb).mem_iff.mp hp
    exact ⟨p, hp, (h.le_iff hlayered (hlayered.closed b hb p hp)).mp hle⟩
  · rintro ⟨p, hp, hle⟩
    exact ⟨p, (h.parents b hb).mem_iff.mpr hp,
      (h.le_iff hlayered (hlayered.closed b hb p hp)).mpr hle⟩

theorem sameData_step (h : Relisted D D' blocks) (hvalid : D.Valid blocks) {b : H}
    (hb : b ∈ blocks) (hpast : ∀ y, D.Past b y → SameData (D.data y) (D'.data y))
    {mergeset blues mergeset' blues' : List H}
    (hcolored : D.Colored blocks (D.parents b) (D.data b) mergeset blues)
    (hcolored' : D'.Colored blocks' (D'.parents b) (D'.data b) mergeset' blues') :
    SameData (D.data b) (D'.data b) := by
  have hkey : ∀ y, D.Past b y → D'.key y = D.key y := by
    intro y hy
    have hwork : D'.blueWork y = D.blueWork y := (hpast y hy).blueWork
    rw [key, key, hwork]
  have hbelow : ∀ {p y : H}, p ∈ D.parents b → D.Le y p → D.Past b y :=
    fun hp hle => hvalid.lt_of_le_parent hb hp hle
  -- the highest parent is the same
  have hsp : (D'.data b).selectedParent = (D.data b).selectedParent := by
    have hmem := (h.parents b hb).mem_iff.mp hcolored'.parent_mem
    have hle := hcolored.highest _ hmem
    have hge := hcolored'.highest _ ((h.parents b hb).mem_iff.mpr hcolored.parent_mem)
    rw [hkey _ (hbelow hcolored.parent_mem ReflTransGen.refl),
      hkey _ (hbelow hmem ReflTransGen.refl)] at hge
    exact key_injective (le_antisymm hle hge)
  have hspmem := hcolored.choosing.parent
  have hmembers : ∀ y ∈ mergeset, D.Past b y := by
    intro y hy
    obtain ⟨⟨p, hp, hle⟩, _⟩ := (hcolored.members y).mp hy
    exact hbelow hp hle
  have hstored : ∀ y ∈ mergeset, y ∈ blocks :=
    fun y hy => hvalid.layered.mem_of_le (hmembers y hy).1 hb
  -- so is the mergeset, as a set and therefore as a sorted list
  have hmergeset : mergeset' = mergeset := by
    have hmem : ∀ y, y ∈ mergeset' ↔ y ∈ mergeset := by
      intro y
      rw [hcolored'.members, hcolored.members, hsp, h.merged_iff hvalid.layered hb hspmem]
    have hsorted : mergeset'.Pairwise fun a c => D.key a < D.key c := by
      apply hcolored'.sorted.imp_of_mem
      intro a c ha hc hlt
      rwa [hkey a (hmembers a ((hmem a).mp ha)), hkey c (hmembers c ((hmem c).mp hc))] at hlt
    exact eq_of_sorted_of_mem_iff hsorted hcolored.sorted hmem
  have hbase : blues' = blues := by
    have hchain := h.blues hvalid.chains hcolored.choosing.chain hspmem
      fun y hy => hpast y (hbelow hcolored.parent_mem hy)
    rw [← hsp] at hchain
    exact hcolored'.choosing.chain.unique hchain
  have hbaseMem : ∀ x ∈ blues, x ∈ blocks := fun x hx =>
    hvalid.layered.mem_of_le (hcolored.choosing.chain.le hvalid.chains hspmem x hx) hspmem
  have hgreedy : D'.greedy blues' [(D'.data b).selectedParent] mergeset' =
      D.greedy blues [(D.data b).selectedParent] mergeset := by
    rw [hmergeset, hbase, hsp]
    apply h.greedy_eq hvalid.layered hbaseMem _ _ _ hstored
    intro x hx
    exact mem_singleton.mp hx ▸ hspmem
  have hblues : (D'.data b).mergesetBlues = (D.data b).mergesetBlues := by
    rw [hcolored'.blue, hcolored.blue, hgreedy]
  refine ⟨hsp, hblues, ?_, ?_⟩
  · rw [hcolored'.red, hcolored.red, hgreedy]
  · have hworks : (D.data b).mergesetBlues.map D'.work = (D.data b).mergesetBlues.map D.work :=
      map_congr_left fun x hx => h.work x (hcolored.choosing.stored x hx)
    have hwork : D'.blueWork (D.data b).selectedParent = D.blueWork (D.data b).selectedParent :=
      (hpast _ (hbelow hcolored.parent_mem ReflTransGen.refl)).blueWork
    rw [hcolored'.work, hcolored.work, hblues, hsp, hworks, hwork]

/-- By induction on blue work, every block has the same data in both DAGs. -/
theorem sameData (h : Relisted D D' blocks) (hperm : blocks'.Perm blocks)
    (hvalid : D.Valid blocks) (hvalid' : D'.Valid blocks') {b : H} (hb : b ∈ blocks) :
    SameData (D.data b) (D'.data b) := by
  induction hn : D.blueWork b using Nat.strong_induction_on generalizing b with
  | _ n ih =>
    by_cases hgenesis : b = D.genesis
    · have hdata : D'.data b = (D'.manager []).genesisGhostdagData := by
        rw [hgenesis, ← h.genesis]
        exact hvalid'.genesis
      rw [hdata, hgenesis, hvalid.genesis]
      exact ⟨h.origin, rfl, rfl, rfl⟩
    · obtain ⟨mergeset, blues, hcolored⟩ := hvalid.colored b hb hgenesis
      obtain ⟨mergeset', blues', hcolored'⟩ :=
        hvalid'.colored b (hperm.mem_iff.mpr hb) (h.genesis ▸ hgenesis)
      apply h.sameData_step hvalid hb _ hcolored hcolored'
      intro y hy
      rcases hvalid.layered.eq_or_lt hy.1 hb with heq | hlt
      · exact absurd heq hy.2
      · exact ih _ (hn ▸ hlt) (hvalid.layered.mem_of_le hy.1 hb) rfl

theorem chainOrder_eq (h : Relisted D D' blocks) (hperm : blocks'.Perm blocks)
    (hsame : ∀ b ∈ blocks, SameData (D.data b) (D'.data b)) (fuel : ℕ) (b : H) :
    (D'.manager blocks').chainOrder fuel b = (D.manager blocks).chainOrder fuel b := by
  have hsortable : (D'.manager blocks').sortable = (D.manager blocks).sortable := by
    funext x
    by_cases hx : x ∈ blocks
    · simp [sortable, manager, hx, hperm.mem_iff, (hsame x hx).blueWork]
    · simp [sortable, manager, hx, hperm.mem_iff]
  induction fuel generalizing b with
  | zero => rfl
  | succ fuel ih =>
    rw [chainOrder, chainOrder]
    by_cases hb : b ∈ blocks
    · have hstore : (D.manager blocks).ghostdagStore b = some (D.data b) := if_pos hb
      have hstore' : (D'.manager blocks').ghostdagStore b = some (D'.data b) :=
        if_pos (hperm.mem_iff.mpr hb)
      have hgenesis : (D'.manager blocks').genesisHash = (D.manager blocks).genesisHash := h.genesis
      rw [hstore, hstore']
      simp [consensusOrderedMergeset, ascendingMergesetWithoutSelectedParent, hsortable,
          (hsame b hb).blues, (hsame b hb).reds, (hsame b hb).selectedParent, ih, hgenesis]
    · have hstore : (D.manager blocks).ghostdagStore b = none := if_neg hb
      have hstore' : (D'.manager blocks').ghostdagStore b = none :=
        if_neg fun hmem => hb (hperm.mem_iff.mp hmem)
      rw [hstore, hstore']
      rfl

end Relisted

/-- Blue work grows along every edge, the consensus order of a block lists its past
in topological order after the origin, and the order of the parents in the headers
does not matter. -/
theorem Built.consensusOrder_spec (hbuilt : D.Built blocks) (hexact : D.Exact blocks)
    (hwork : ∀ b ∈ blocks, 0 < D.work b) (hfits : D.NoOverflow blocks) :
    (∀ b ∈ blocks, ∀ p ∈ D.parents b, D.blueWork p < D.blueWork b) ∧
    (∀ b ∈ blocks, ∃ order, (D.manager blocks).consensusOrder b = some (D.origin :: order) ∧
      D.origin ∉ order ∧ order.Nodup ∧ (∀ y, y ∈ order ↔ D.Past b y) ∧
      ∀ before x after, order = before ++ x :: after → ∀ y, D.Past x y → y ∈ before) ∧
    ∀ (D' : BlockDag H) (blocks' : List H), Relisted D D' blocks → blocks'.Perm blocks →
      D'.Built blocks' → D'.Exact blocks' → D'.NoOverflow blocks' →
      ∀ b ∈ blocks, (D'.manager blocks').consensusOrder b =
    (D.manager blocks).consensusOrder b := by
  have hvalid := hbuilt.valid hexact hwork hfits
  refine ⟨hvalid.layered.grows, ?_, ?_⟩
  · intro b hb
    obtain ⟨blues, hblues⟩ := hvalid.blueSet hb
    have hlength : blues.length ≤ blocks.length := length_le_of_stored hblues.nodup
        fun y hy => hvalid.layered.mem_of_le (hblues.below y hy).1 hb
    obtain ⟨order, horder, hlisting⟩ :=
      hvalid.chainOrder_eq hblues.chain hb (blocks.length + 1) (Nat.lt_succ_of_le hlength)
    have hstored : ∀ y, D.Past b y → y ∈ blocks := fun y hy => hvalid.layered.mem_of_le hy.1 hb
    refine ⟨order, horder, ?_, hlisting.once, hlisting.mem_iff, ?_⟩
    · intro hmem
      exact hvalid.chains.origin (hstored _ ((hlisting.mem_iff _).mp hmem))
    · intro before x after hsplit y hy
      have hx : D.Past b x := (hlisting.mem_iff x).mp (by simp [hsplit])
      apply hlisting.ancestors_before hsplit _ hy
      refine ⟨hy.1.trans hx.1, ?_⟩
      rintro rfl
      exact hx.2 (hvalid.layered.antisymm hx.1 hy.1 hb)
  · intro D' blocks' hrelisted hperm hbuilt' hexact' hfits' b _
    have hwork' : ∀ b ∈ blocks', 0 < D'.work b := by
      intro c hc
      have hc := hperm.mem_iff.mp hc
      rw [hrelisted.work c hc]
      exact hwork c hc
    have hvalid' := hbuilt'.valid hexact' hwork' hfits'
    have hlength : blocks'.length = blocks.length := hperm.length_eq
    have hcount : (D'.manager blocks').blockCount = (D.manager blocks).blockCount := hlength
    rw [consensusOrder, consensusOrder, hcount]
    exact hrelisted.chainOrder_eq hperm (fun c hc => hrelisted.sameData hperm hvalid hvalid' hc) _ b

/-- `diamondDag` with the parents of its last block the other way round. -/
def relistedDiamondDag : BlockDag (Fin 5) := { diamondDag with
    parents := fun b => (diamondDag.parents b).reverse }

theorem relistedDiamondDag_exact (blocks : List (Fin 5)) : relistedDiamondDag.Exact blocks :=
  exact_of_recursion Fin.val (by decide) (by decide)

theorem relistedDiamondDag_relisted : Relisted diamondDag relistedDiamondDag [4, 3, 2, 1] :=
  ⟨rfl, rfl, rfl, fun _ _ => rfl, by decide⟩

theorem relistedDiamondDag_built : relistedDiamondDag.Built [4, 3, 2, 1] := by
  have h1 : relistedDiamondDag.Built [1] := Built.genesis rfl rfl (by decide)
  have h2 : relistedDiamondDag.Built [2, 1] :=
    .add_of_table h1 (relistedDiamondDag_exact _) (by decide) rfl
  have h3 : relistedDiamondDag.Built [3, 2, 1] :=
    .add_of_table h2 (relistedDiamondDag_exact _) (by decide) rfl
  exact .add_of_table h3 (relistedDiamondDag_exact _) (by decide) rfl

theorem diamondDag_consensusOrder :
    (∃ order, (diamondDag.manager [4, 3, 2, 1]).consensusOrder 4 = some (0 :: order) ∧
      ∀ y, y ∈ order ↔ diamondDag.Past 4 y) ∧
    (relistedDiamondDag.manager [4, 3, 2, 1]).consensusOrder 4 =
      (diamondDag.manager [4, 3, 2, 1]).consensusOrder 4 := by
  obtain ⟨_, horder, hrelisted⟩ := Built.consensusOrder_spec diamondDag_built (diamondDag_exact _)
    (by decide) diamondDag_noOverflow
  constructor
  · obtain ⟨order, heq, _, _, hmem, _⟩ := horder 4 (by decide)
    exact ⟨order, heq, hmem⟩
  · exact hrelisted relistedDiamondDag _ relistedDiamondDag_relisted (Perm.refl _)
      relistedDiamondDag_built (relistedDiamondDag_exact _) diamondDag_noOverflow 4 (by decide)

end BlockDag

end CryptixAtomic.Ghostdag
