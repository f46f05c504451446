import CryptixAtomic.Ghostdag.Run

/-!
# The coloring theorem

For every block of a DAG that `ghostdag` built, the mergeset is the part of the past that the
selected parent does not have, the blue set obeys the bound `k`, the recorded anticone sizes
are exact, and a candidate is red exactly when it would break the bound. This rests on the
order of blue work, which a block of work zero breaks: `zeroWorkDag`.
-/
namespace CryptixAtomic.Ghostdag

open Foundation List

variable {H : Type} [LinearOrder H]

namespace BlockDag

variable {D : BlockDag H} {blocks : List H}

/-- `y` is in the past of `b`. -/
def Past (D : BlockDag H) (b y : H) : Prop := D.Le y b ∧ y ≠ b

/-- The candidate `c` of a mergeset is red exactly when it breaks the bound with
the blues chosen before it and the blue set `base` of the selected parent. -/
def RedIff (D : BlockDag H) (d : GhostdagData H) (mergeset base : List H) : Prop :=
  ∀ before c after, mergeset = before ++ c :: after →
    (c ∈ d.mergesetReds ↔ ¬ D.Cluster (c :: ((d.selectedParent ::
      before.filter (· ∈ d.mergesetBlues)) ++ base)))

/-- The coloring of block `b`, with blue set `blues`. -/
structure Coloring (D : BlockDag H) (blocks : List H) (b : H) (blues : List H) : Prop where
  chain : D.Blues b blues
  once : blues.Nodup
  mergeset : ∀ y, y ∈ (D.data b).mergesetBlues ++ (D.data b).mergesetReds ↔
    D.Past b y ∧ ¬ D.Past (D.data b).selectedParent y
  merged_once : ((D.data b).mergesetBlues ++ (D.data b).mergesetReds).Nodup
  bound : D.Cluster blues
  size : ∀ x ∈ blues, (D.manager blocks).blueAnticoneSize x (D.data b) =
    some (D.anticone blues x).length
  red : b ≠ D.genesis → ∃ mergeset base, D.Blues (D.data b).selectedParent base ∧
    (∀ y, y ∈ mergeset ↔ D.Merged (D.parents b) (D.data b).selectedParent y) ∧
    mergeset.Pairwise (fun a c => D.key a < D.key c) ∧ D.RedIff (D.data b) mergeset base
  score : (D.data b).blueScore = blues.length

omit [LinearOrder H] in
theorem mem_greedy_of_mem {base candidates chosen : List H} {x : H} (hx : x ∈ chosen) :
    x ∈ (D.greedy base chosen candidates).1 := by
  induction candidates generalizing chosen with
  | nil => exact hx
  | cons c candidates ih =>
    rw [greedy]
    split_ifs
    · exact ih (mem_append_left _ hx)
    · exact ih hx

omit [LinearOrder H] in
theorem mem_greedy_snd {base candidates chosen : List H} {x : H}
    (hx : x ∈ (D.greedy base chosen candidates).2) : x ∈ candidates := by
  induction candidates generalizing chosen with
  | nil => cases hx
  | cons c candidates ih =>
    rw [greedy] at hx
    split_ifs at hx
    · exact mem_cons_of_mem c (ih hx)
    · rcases mem_cons.mp hx with rfl | hx
      · exact mem_cons_self
      · exact mem_cons_of_mem c (ih hx)

theorem greedy_red_iff (base before : List H) (c : H) (after chosen : List H)
    (hnodup : (chosen ++ (before ++ c :: after)).Nodup) :
    c ∈ (D.greedy base chosen (before ++ c :: after)).2 ↔
      ¬ D.Cluster (c :: ((chosen ++ before.filter
        (· ∈ (D.greedy base chosen (before ++ c :: after)).1)) ++ base)) := by
  induction before generalizing chosen with
  | nil =>
    have hc : c ∉ after := (nodup_cons.mp (nodup_append.mp hnodup).2.1).1
    rw [nil_append, filter_nil, append_nil, greedy]
    split_ifs with hcluster
    · exact iff_of_false (fun hmem => hc (mem_greedy_snd hmem)) (not_not_intro hcluster)
    · exact iff_of_true mem_cons_self hcluster
  | cons x before ih =>
    rw [cons_append] at hnodup ⊢
    obtain ⟨_, hrest, hdisjoint⟩ := nodup_append.mp hnodup
    obtain ⟨hx, hrest⟩ := nodup_cons.mp hrest
    rw [greedy]
    split_ifs with hcluster
    · -- `x` is blue, and one of the blues chosen before the rest
      have hmem : x ∈ (D.greedy base (chosen ++ [x]) (before ++ c :: after)).1 :=
        mem_greedy_of_mem (mem_append_right _ mem_cons_self)
      have hassoc : (chosen ++ [x] ++ (before ++ c :: after)).Nodup := by
        rwa [append_assoc]
      have hfilter := filter_cons_of_pos (l := before)
        (p := (· ∈ (D.greedy base (chosen ++ [x]) (before ++ c :: after)).1))
        (decide_eq_true hmem)
      rw [ih (chosen ++ [x]) hassoc, hfilter, append_assoc chosen, singleton_append]
    · have hne : c ≠ x := fun heq => hx (heq ▸ mem_append_right _ mem_cons_self)
      have hnot : x ∉ (D.greedy base chosen (before ++ c :: after)).1 := by
        intro hmem
        rcases mem_greedy_fst hmem with hmem | hmem
        · exact hdisjoint x hmem x mem_cons_self rfl
        · exact hx hmem
      have hless : (chosen ++ (before ++ c :: after)).Nodup := by
        apply nodup_append.mpr
        refine ⟨(nodup_append.mp hnodup).1, hrest, ?_⟩
        intro a ha y hy
        exact hdisjoint a ha y (mem_cons_of_mem x hy)
      have hfilter := filter_cons_of_neg (l := before)
        (p := (· ∈ (D.greedy base chosen (before ++ c :: after)).1)) (by simpa using hnot)
      rw [hfilter, ← ih chosen hless]
      exact ⟨fun h => (mem_cons.mp h).resolve_left hne, mem_cons_of_mem x⟩

variable {ps mergeset blues : List H} {d : GhostdagData H}

theorem Colored.nodup
    (h : D.Colored blocks ps d mergeset blues) : (d.selectedParent :: mergeset).Nodup := by
  apply nodup_cons.mpr
  constructor
  · intro hmem
    exact ((h.members _).mp hmem).2 Relation.ReflTransGen.refl
  · apply h.sorted.imp
    intro a b hlt heq
    exact lt_irrefl _ (heq ▸ hlt)

theorem Colored.perm (h : D.Colored blocks ps d mergeset blues) :
    (d.mergesetBlues ++ d.mergesetReds).Perm (d.selectedParent :: mergeset) := by
  rw [h.blue, h.red]
  exact greedy_perm blues [d.selectedParent] mergeset

theorem Colored.redIff (h : D.Colored blocks ps d mergeset blues) : D.RedIff d mergeset blues := by
  intro before c after hsplit
  have hnodup : ([d.selectedParent] ++ (before ++ c :: after)).Nodup := hsplit ▸ h.nodup
  have hred := greedy_red_iff (D := D) blues before c after [d.selectedParent] hnodup
  rw [← hsplit, ← h.red, ← h.blue] at hred
  exact hred

theorem Valid.mem_mergeset_iff (h : D.Valid blocks) {b : H} (hb : b ∈ blocks)
    {mergeset blues : List H} (hcolored : D.Colored blocks (D.parents b) (D.data b) mergeset blues)
    (y : H) : y ∈ (D.data b).mergesetBlues ++ (D.data b).mergesetReds ↔
      D.Past b y ∧ ¬ D.Past (D.data b).selectedParent y := by
  rw [hcolored.perm.mem_iff, mem_cons, hcolored.members]
  constructor
  · rintro (rfl | ⟨⟨p, hp, hle⟩, hnot⟩)
    · exact ⟨h.lt_of_le_parent hb hcolored.parent_mem Relation.ReflTransGen.refl,
        fun hpast => hpast.2 rfl⟩
    · exact ⟨h.lt_of_le_parent hb hp hle, fun hpast => hnot hpast.1⟩
  · rintro ⟨⟨hle, hne⟩, hnot⟩
    by_cases heq : y = (D.data b).selectedParent
    · exact .inl heq
    · rcases le_iff.mp hle with hself | hbelow
      · exact absurd hself hne
      · exact .inr ⟨hbelow, fun hsp => hnot ⟨hsp, heq⟩⟩

theorem Valid.le_genesis_iff (h : D.Valid blocks) {y : H} :
    D.Le y D.genesis ↔ y = D.genesis := by
  rw [le_iff, h.parents]
  simp

theorem Valid.exists_coloring (h : D.Valid blocks) {b : H} (hb : b ∈ blocks) :
    ∃ blues, D.Coloring blocks b blues := by
  obtain ⟨blues, hblues⟩ := h.blueSet hb
  have hsize : ∀ x ∈ blues, (D.manager blocks).blueAnticoneSize x (D.data b) =
      some (D.anticone blues x).length := by
    intro x hx
    obtain ⟨hgenesis, hsize⟩ := hblues.sizes x hx
    have hlength : blues.length ≤ blocks.length :=
      length_le_of_stored hblues.nodup fun y hy => h.layered.mem_of_le (hblues.below y hy).1 hb
    exact anticoneSizeLoop_eq h.chains hsize (h.chains.parent b hb hgenesis) (blocks.length + 1)
      (by omega)
  refine ⟨blues, ?_⟩
  by_cases hgenesis : b = D.genesis
  · have hdata : D.data b = (D.manager []).genesisGhostdagData := hgenesis ▸ h.genesis
    constructor
    · exact hblues.chain
    · exact hblues.nodup
    · intro y
      have hpast : ¬ D.Past b y := by
        rintro ⟨hle, hne⟩
        rw [hgenesis] at hle hne
        exact hne (h.le_genesis_iff.mp hle)
      rw [hdata]
      exact iff_of_false not_mem_nil fun hy => hpast hy.1
    · rw [hdata]
      exact nodup_nil
    · exact hblues.cluster
    · exact hsize
    · intro hne
      exact absurd hgenesis hne
    · exact hblues.score
  · obtain ⟨mergeset, base, hcolored⟩ := h.colored b hb hgenesis
    constructor
    · exact hblues.chain
    · exact hblues.nodup
    · exact h.mem_mergeset_iff hb hcolored
    · exact hcolored.perm.nodup_iff.mpr hcolored.nodup
    · exact hblues.cluster
    · exact hsize
    · intro _
      exact ⟨mergeset, base, hcolored.choosing.chain, hcolored.members, hcolored.sorted,
        hcolored.redIff⟩
    · exact hblues.score

/-- Every block of a DAG that `ghostdag` built has its coloring, and no panic or
assertion stops the next call. -/
theorem Built.coloring (hbuilt : D.Built blocks) (hexact : D.Exact blocks)
    (hwork : ∀ b ∈ blocks, 0 < D.work b) (hfits : D.NoOverflow blocks) (hk : D.k + 1 < 2 ^ 16) :
    (∀ b ∈ blocks, ∃ blues, D.Coloring blocks b blues) ∧
      ∀ ps, D.Parents blocks ps → ∃ d, (D.manager blocks).ghostdag ps = some d := by
  have hvalid := hbuilt.valid hexact hwork hfits
  constructor
  · intro b hb
    exact hvalid.exists_coloring hb
  · intro ps hps
    obtain ⟨d, _, _, hd, _⟩ := ghostdag_spec hvalid hexact hps hk
    exact ⟨d, hd⟩

omit [LinearOrder H] in
theorem exact_of_recursion (rank : H → ℕ) (hrank : ∀ b, ∀ p ∈ D.parents b, rank p < rank b)
    (hreach : ∀ a b, D.reach a b = true ↔ a = b ∨ ∃ p ∈ D.parents b, D.reach a p = true) :
    D.Exact blocks := by
  have hall : ∀ n b, rank b = n → ∀ a, D.reach a b = true ↔ D.Le a b := by
    intro n
    induction n using Nat.strong_induction_on with
    | _ n ih =>
      rintro b rfl a
      rw [hreach, le_iff]
      apply or_congr Iff.rfl
      constructor
      · rintro ⟨p, hp, hap⟩
        exact ⟨p, hp, (ih (rank p) (hrank b p hp) p rfl a).mp hap⟩
      · rintro ⟨p, hp, hap⟩
        exact ⟨p, hp, (ih (rank p) (hrank b p hp) p rfl a).mpr hap⟩
  exact fun a _ b _ => hall (rank b) b rfl a

/-- Blocks 2 and 3 on genesis 1, and block 4 that merges them. -/
def diamondDag : BlockDag (Fin 5) where
  genesis := 1
  origin := 0
  k := 1
  parents := fun b => if b = 4 then [2, 3] else if b = 2 ∨ b = 3 then [1] else []
  data := fun b =>
    if b = 4 then ⟨3, 3, 3, [3, 2], [], (((∅ : FMap (Fin 5) ℕ).insert 3 0).insert 2 1).insert 3 1⟩
    else if b = 2 ∨ b = 3 then ⟨1, 1, 1, [1], [], (∅ : FMap (Fin 5) ℕ).insert 1 0⟩
    else ⟨0, 0, 0, [], [], ∅⟩
  work := fun _ => 1
  reach := fun a b => a = b || a = 1 && 1 < b || b = 4 && 1 < a

theorem diamondDag_exact (blocks : List (Fin 5)) : diamondDag.Exact blocks :=
  exact_of_recursion Fin.val (by decide) (by decide)

theorem Built.add_of_table {b : H} (h : D.Built blocks) (hexact : D.Exact blocks)
    (htable : b ∉ blocks ∧ b ≠ D.origin ∧ D.parents b ≠ [] ∧ (∀ p ∈ D.parents b, p ∈ blocks) ∧
      ∀ p ∈ D.parents b, ∀ q ∈ D.parents b, D.reach p q = true → p = q)
    (hdata : (D.manager blocks).ghostdag (D.parents b) = some (D.data b)) :
    D.Built (b :: blocks) := by
  obtain ⟨hfresh, horigin, hne, hstored, htable⟩ := htable
  refine .add h hfresh horigin ⟨hne, hstored, ?_⟩ hdata
  intro p hp q hq hle
  exact htable p hp q hq ((hexact p (hstored p hp) q (hstored q hq)).mpr hle)

theorem diamondDag_built : diamondDag.Built [4, 3, 2, 1] := by
  have h1 : diamondDag.Built [1] := Built.genesis rfl rfl (by decide)
  have h2 : diamondDag.Built [2, 1] := .add_of_table h1 (diamondDag_exact _) (by decide) rfl
  have h3 : diamondDag.Built [3, 2, 1] := .add_of_table h2 (diamondDag_exact _) (by decide) rfl
  exact .add_of_table h3 (diamondDag_exact _) (by decide) rfl

theorem diamondDag_noOverflow : diamondDag.NoOverflow [4, 3, 2, 1] := by
  unfold NoOverflow
  decide

theorem diamondDag_coloring :
    (∀ b ∈ [4, 3, 2, 1], ∃ blues, diamondDag.Coloring [4, 3, 2, 1] b blues) ∧
      ∀ ps, diamondDag.Parents [4, 3, 2, 1] ps →
        ∃ d, (diamondDag.manager [4, 3, 2, 1]).ghostdag ps = some d :=
  Built.coloring diamondDag_built (diamondDag_exact _) (by decide) diamondDag_noOverflow (by decide)

/-- Block 3 has work zero, so its child 2 has the same blue work and is taken first
when block 5 merges them with selected parent 4. -/
def zeroWorkDag : BlockDag (Fin 6) where
  genesis := 1
  origin := 0
  k := 2
  parents := fun b =>
    if b = 5 then [4, 2] else if b = 2 then [3] else if b = 3 ∨ b = 4 then [1] else []
  data := fun b =>
    if b = 5 then ⟨4, 3, 4, [4, 2, 3], [],
      (((((((∅ : FMap (Fin 6) ℕ).insert 4 0).insert 2 1).insert 4 1).insert 3 2).insert 2 2).insert
        4 2)⟩
    else if b = 2 then ⟨2, 1, 3, [3], [], (∅ : FMap (Fin 6) ℕ).insert 3 0⟩
    else if b = 3 ∨ b = 4 then ⟨1, 1, 1, [1], [], (∅ : FMap (Fin 6) ℕ).insert 1 0⟩
    else ⟨0, 0, 0, [], [], ∅⟩
  work := fun b => if b = 3 then 0 else 1
  reach := fun a b => a = b || a = 1 && 1 < b || a = 3 && b = 2 || b = 5 && 1 < a

theorem zeroWorkDag_exact (blocks : List (Fin 6)) : zeroWorkDag.Exact blocks :=
  exact_of_recursion (fun b => if b = 2 then 3 else if b = 3 then 2 else b.val) (by decide)
    (by decide)

theorem zeroWorkDag_built : zeroWorkDag.Built [5, 4, 2, 3, 1] := by
  have h1 : zeroWorkDag.Built [1] := Built.genesis rfl rfl (by decide)
  have h3 : zeroWorkDag.Built [3, 1] := .add_of_table h1 (zeroWorkDag_exact _) (by decide) rfl
  have h2 : zeroWorkDag.Built [2, 3, 1] := .add_of_table h3 (zeroWorkDag_exact _) (by decide) rfl
  have h4 : zeroWorkDag.Built [4, 2, 3, 1] := .add_of_table h2 (zeroWorkDag_exact _) (by decide) rfl
  exact .add_of_table h4 (zeroWorkDag_exact _) (by decide) rfl

theorem zeroWorkDag_blues : zeroWorkDag.Blues 5 [4, 2, 3, 1] := by
  have h4 : zeroWorkDag.Blues 4 [1] := Blues.step (by decide) Blues.genesis
  exact Blues.step (by decide) h4

theorem zeroWorkDag_anticone : (zeroWorkDag.anticone [4, 2, 3, 1] 3).length = 1 := by
  have htable : zeroWorkDag.anticone [4, 2, 3, 1] 3 =
      [4, 2, 3, 1].filter fun y => !zeroWorkDag.reach y 3 && !zeroWorkDag.reach 3 y := by
    apply filter_congr
    intro y hy
    have hall : y ∈ ([4, 2, 3, 1] : List (Fin 6)) := hy
    simp [← zeroWorkDag_exact [4, 2, 3, 1] y hall 3 (by decide),
      ← zeroWorkDag_exact [4, 2, 3, 1] 3 (by decide) y hall]
  rw [htable]
  rfl

/-- With a block of work zero a size is wrong, block 3 having only block 4 in its
anticone; and with `k = 65535` no block can be added at all. -/
theorem zeroWork_or_large_k_fails :
    (zeroWorkDag.Built [5, 4, 2, 3, 1] ∧ zeroWorkDag.Exact [5, 4, 2, 3, 1] ∧
      zeroWorkDag.Blues 5 [4, 2, 3, 1] ∧
      (zeroWorkDag.manager [5, 4, 2, 3, 1]).blueAnticoneSize 3 (zeroWorkDag.data 5) = some 2 ∧
      (zeroWorkDag.anticone [4, 2, 3, 1] 3).length = 1) ∧
    ({ diamondDag with k := 65535 }.manager [1]).ghostdag [1] = none :=
  ⟨⟨zeroWorkDag_built, zeroWorkDag_exact _, zeroWorkDag_blues, rfl, zeroWorkDag_anticone⟩, rfl⟩

end BlockDag

end CryptixAtomic.Ghostdag
