import CryptixAtomic.Ghostdag.Coloring

/-!
# The coloring of a block DAG

`greedy` is the coloring rule itself: candidates are taken in order, and one is red exactly
when together with the blues chosen before it and the blue set of the selected parent it breaks
the bound. The candidate loop of the protocol follows this rule.
-/
namespace CryptixAtomic.Ghostdag

open Foundation List FMap

variable {H : Type} [LinearOrder H]

theorem lookup_foldl_insert (l : List (H × ℕ)) (hdistinct : l.Pairwise fun a b => a.1 ≠ b.1)
    (sizes : FMap H ℕ) (b : H) :
    (∀ size, (b, size) ∈ l →
      (l.foldl (fun all blue => all.insert blue.1 (blue.2 + 1)) sizes).lookup b = some (size + 1)) ∧
    ((∀ size, (b, size) ∉ l) →
      (l.foldl (fun all blue => all.insert blue.1 (blue.2 + 1)) sizes).lookup b =
        sizes.lookup b) := by
  induction l generalizing sizes with
  | nil => simp
  | cons e l ih =>
    obtain ⟨hhead, htail⟩ := pairwise_cons.mp hdistinct
    obtain ⟨hmem, hnot⟩ := ih htail (sizes.insert e.1 (e.2 + 1))
    rw [foldl_cons]
    constructor
    · intro size hsize
      rcases mem_cons.mp hsize with rfl | hsize
      · have hnone : ∀ size', (b, size') ∉ l := fun size' h => hhead _ h rfl
        rw [hnot hnone, lookup_insert_ite, if_pos rfl]
      · exact hmem size hsize
    · intro hnone
      have hne : b ≠ e.1 := by
        rintro rfl
        exact hnone e.2 mem_cons_self
      rw [hnot fun size h => hnone size (mem_cons_of_mem e h), lookup_insert_ite,
        if_neg hne]

theorem lookup_addBlue (d : GhostdagData H) (block : H) (size : ℕ) (sizes : FMap H ℕ) (b : H) :
    (d.addBlue block size sizes).bluesAnticoneSizes.lookup b =
      match sizes.lookup b with
      | some blueSize => some (blueSize + 1)
      | none => if b = block then some size else d.bluesAnticoneSizes.lookup b := by
  have hdistinct : sizes.iter.Pairwise fun a b => a.1 ≠ b.1 := (iter_sorted sizes).imp ne_of_lt
  obtain ⟨hmem, hnot⟩ :=
    lookup_foldl_insert sizes.iter hdistinct (d.bluesAnticoneSizes.insert block size) b
  cases hb : sizes.lookup b with
  | some blueSize => exact hmem blueSize (mem_iter.mpr hb)
  | none =>
    have hnone : ∀ blueSize, (b, blueSize) ∉ sizes.iter := by
      intro blueSize h
      rw [mem_iter, hb] at h
      cases h
    rw [GhostdagData.addBlue, hnot hnone, lookup_insert_ite]

namespace BlockDag

variable {D : BlockDag H} {blocks : List H} {d : GhostdagData H} {blues : List H} {c : H}

theorem lookup_recordSizes (sizeOf : H → ℕ) (others : List H) (sizes : FMap H ℕ) (b : H) :
    (recordSizes sizeOf others sizes).lookup b =
      if b ∈ others then some (sizeOf b) else sizes.lookup b := by
  induction others generalizing sizes with
  | nil => rfl
  | cons x others ih =>
    have hstep : recordSizes sizeOf (x :: others) sizes =
        recordSizes sizeOf others (sizes.insert x (sizeOf x)) := rfl
    rw [hstep, ih, lookup_insert_ite]
    by_cases hmem : b ∈ others
    · rw [if_pos hmem, if_pos (mem_cons_of_mem x hmem)]
    · by_cases heq : b = x
      · rw [heq, if_neg (heq ▸ hmem), if_pos rfl, if_pos mem_cons_self]
      · rw [if_neg hmem, if_neg heq, if_neg (by simp [heq, hmem])]

theorem SizeAt.congr {n : ℕ} {d' : GhostdagData H} {b : H} {size : ℕ}
    (h : D.SizeAt n d b size) (hparent : d'.selectedParent = d.selectedParent)
    (hentry : d'.bluesAnticoneSizes.lookup b = d.bluesAnticoneSizes.lookup b) :
    D.SizeAt n d' b size := by
  cases h with
  | here hsize => exact SizeAt.here (hentry.trans hsize)
  | there hnone hgenesis hrest =>
    apply SizeAt.there (hentry.trans hnone)
    · rw [hparent]; exact hgenesis
    · rw [hparent]; exact hrest

theorem Choosing.addRed (h : D.Choosing blocks d blues) (c : H) :
    D.Choosing blocks (d.addRed c) blues where
  chain := h.chain
  parent := h.parent
  head := h.head
  nodup := h.nodup
  stored := h.stored
  sizes := fun b hb => (h.sizes b hb).congr rfl rfl
  cluster := h.cluster

theorem Choosing.addBlue (hlayered : D.Layered blocks) (hexact : D.Exact blocks)
    (hchains : D.Chains blocks) (h : D.Choosing blocks d blues)
    (hc : D.Candidate blocks d blues c) (hcluster : D.Cluster (c :: (d.mergesetBlues ++ blues))) :
    D.Choosing blocks (d.addBlue c (D.anticone (d.mergesetBlues ++ blues) c).length
        (recordSizes (fun b => (D.anticone (d.mergesetBlues ++ blues) b).length)
          (D.unrelated c (d.mergesetBlues ++ blues)) ∅)) blues := by
  have hstored := h.stored_all hlayered hchains
  have hnew : c ∉ d.mergesetBlues ++ blues := fun hmem => hc.later c hmem Relation.ReflTransGen.refl
  have hperm : ((d.mergesetBlues ++ [c]) ++ blues).Perm (c :: (d.mergesetBlues ++ blues)) := by
    rw [append_assoc]
    exact perm_middle
  have hunrelated : ∀ b ∈ d.mergesetBlues ++ blues,
      b ∈ D.unrelated c (d.mergesetBlues ++ blues) ↔ ¬ D.Le b c := by
    intro b hb
    rw [unrelated, mem_filter, Bool.not_eq_true', ← hexact b (hstored b hb) c hc.stored,
      Bool.not_eq_true]
    exact and_iff_right hb
  obtain ⟨rest, hhead, hrest⟩ := h.head
  have hparent : d.selectedParent ∈ d.mergesetBlues ++ blues := by
    rw [hhead]
    exact mem_cons_self
  constructor
  · exact h.chain
  · exact h.parent
  · refine ⟨rest ++ [c], ?_, ?_⟩
    · change d.mergesetBlues ++ [c] = _
      rw [hhead]
      rfl
    · intro a ha
      rcases mem_append.mp ha with ha | ha
      · exact hrest a ha
      · rw [mem_singleton.mp ha]
        exact ⟨hc.later _ hparent, hc.parent⟩
  · exact hperm.nodup_iff.mpr (nodup_cons.mpr ⟨hnew, h.nodup⟩)
  · intro b hb
    rcases mem_append.mp hb with hb | hb
    · exact h.stored b hb
    · rw [mem_singleton.mp hb]
      exact hc.stored
  · intro b hb
    change D.SizeAt _ _ b (D.anticone ((d.mergesetBlues ++ [c]) ++ blues) b).length
    rw [length_anticone_perm hperm]
    rcases mem_cons.mp (hperm.mem_iff.mp hb) with rfl | hb
    · -- the candidate itself
      apply SizeAt.here
      have hnone : b ∉ D.unrelated b (d.mergesetBlues ++ blues) :=
        fun hmem => hnew (mem_filter.mp hmem).1
      rw [lookup_addBlue, lookup_recordSizes, if_neg hnone, anticone_cons_self]
      simp
    · by_cases hle : D.Le b c
      · -- a blue in its past keeps its size
        have hnone : b ∉ D.unrelated c (d.mergesetBlues ++ blues) :=
          fun hmem => (hunrelated b hb).mp hmem hle
        have hne : b ≠ c := fun heq => hnew (heq ▸ hb)
        rw [length_anticone_cons_of_le hle]
        apply SizeAt.congr (h.sizes b hb)
        · rfl
        · rw [lookup_addBlue, lookup_recordSizes, if_neg hnone]
          simp [hne]
      · apply SizeAt.here
        rw [lookup_addBlue, lookup_recordSizes, if_pos ((hunrelated b hb).mpr hle),
          length_anticone_cons_of_not_le hle (hc.later b hb)]
  · intro b hb
    change (D.anticone ((d.mergesetBlues ++ [c]) ++ blues) b).length ≤ D.k
    rw [length_anticone_perm hperm]
    exact hcluster b (hperm.mem_iff.mp hb)

open scoped Classical in
/-- Blues and reds among the candidates, given the blues chosen before and the
blue set `base` of the selected parent. -/
noncomputable def greedy (D : BlockDag H) (base : List H) : List H → List H → List H × List H
  | chosen, [] => (chosen, [])
  | chosen, c :: candidates =>
    if D.Cluster (c :: (chosen ++ base)) then D.greedy base (chosen ++ [c]) candidates
    else
      ((D.greedy base chosen candidates).1, c :: (D.greedy base chosen candidates).2)

theorem color_eq (hlayered : D.Layered blocks) (hexact : D.Exact blocks)
    (hchains : D.Chains blocks) (h : D.Choosing blocks d blues)
    (hc : D.Candidate blocks d blues c) :
    ∃ d', (D.manager blocks).color d c = some d' ∧ D.Choosing blocks d' blues ∧
      d'.selectedParent = d.selectedParent ∧
      (D.Cluster (c :: (d.mergesetBlues ++ blues)) ∧ d'.mergesetBlues = d.mergesetBlues ++ [c] ∧
          d'.mergesetReds = d.mergesetReds ∨
        ¬ D.Cluster (c :: (d.mergesetBlues ++ blues)) ∧ d'.mergesetBlues = d.mergesetBlues ∧
          d'.mergesetReds = d.mergesetReds ++ [c]) := by
  obtain ⟨hred, hblue⟩ := checkBlueCandidate_eq hlayered hexact hchains h hc
  unfold GhostdagManager.color
  by_cases hcluster : D.Cluster (c :: (d.mergesetBlues ++ blues))
  · rw [hblue hcluster]
    exact ⟨_, rfl, h.addBlue hlayered hexact hchains hc hcluster, rfl, .inl ⟨hcluster, rfl, rfl⟩⟩
  · rw [hred hcluster]
    exact ⟨_, rfl, h.addRed c, rfl, .inr ⟨hcluster, rfl, rfl⟩⟩

theorem foldlM_color (hlayered : D.Layered blocks) (hexact : D.Exact blocks)
    (hchains : D.Chains blocks) (candidates : List H) (d : GhostdagData H)
    (h : D.Choosing blocks d blues) (hcandidates : ∀ c ∈ candidates, D.Candidate blocks d blues c)
    (hordered : candidates.Pairwise fun b c => ¬ D.Le c b) :
    ∃ d', candidates.foldlM (D.manager blocks).color d = some d' ∧ D.Choosing blocks d' blues ∧
      d'.selectedParent = d.selectedParent ∧
      d'.mergesetBlues = (D.greedy blues d.mergesetBlues candidates).1 ∧
      d'.mergesetReds = d.mergesetReds ++ (D.greedy blues d.mergesetBlues candidates).2 := by
  induction candidates generalizing d with
  | nil => exact ⟨d, rfl, h, rfl, rfl, by simp [greedy]⟩
  | cons c candidates ih =>
    obtain ⟨hlater, hrest⟩ := pairwise_cons.mp hordered
    obtain ⟨d₁, hcolor, hchoosing, hparent, hcase⟩ :=
      color_eq hlayered hexact hchains h (hcandidates c mem_cons_self)
    have hcandidates' : ∀ x ∈ candidates, D.Candidate blocks d₁ blues x := by
      intro x hx
      obtain ⟨hstored, hafter, hxparent⟩ := hcandidates x (mem_cons_of_mem c hx)
      refine ⟨hstored, ?_, hparent ▸ hxparent⟩
      rcases hcase with ⟨-, hblues, -⟩ | ⟨-, hblues, -⟩
      · rw [hblues, append_assoc]
        intro b hb
        rcases mem_cons.mp (perm_middle.mem_iff.mp hb) with rfl | hb
        · exact hlater x hx
        · exact hafter b hb
      · rwa [hblues]
    obtain ⟨d', hfold, hchoosing', hparent', hblues', hreds'⟩ :=
      ih d₁ hchoosing hcandidates' hrest
    refine ⟨d', ?_, hchoosing', hparent'.trans hparent, ?_⟩
    · rw [foldlM_cons, hcolor]
      exact hfold
    rcases hcase with ⟨hcluster, hblues, hreds⟩ | ⟨hcluster, hblues, hreds⟩
    · rw [hblues', hreds', hblues, hreds, @greedy.eq_2, if_pos hcluster]
      exact ⟨rfl, rfl⟩
    · rw [hblues', hreds', hblues, hreds, @greedy.eq_2, if_neg hcluster, append_assoc]
      exact ⟨rfl, rfl⟩

end BlockDag

end CryptixAtomic.Ghostdag
