import CryptixAtomic.Ghostdag.Mergeset

/-!
# Coloring one candidate

The blue set of a block is the union of the blues of its selected chain. A candidate must have
at most `k` of them in its anticone, and none of these may have `k` blues in its own already.
The walk down the chain ends at the first chain block in the past of the candidate. By
`checkBlueCandidate_eq` this decides the bound, with exact sizes.
-/
namespace CryptixAtomic.Ghostdag

open Foundation GhostdagManager List

variable {H : Type} [LinearOrder H]

namespace BlockDag

variable (D : BlockDag H) {blocks : List H}

/-- The blue set of a block, listed along its selected chain. -/
inductive Blues : H → List H → Prop
  | genesis : Blues D.genesis []
  | step {b : H} {blues : List H} (hne : b ≠ D.genesis)
      (hparent : Blues (D.data b).selectedParent blues) :
      Blues b ((D.data b).mergesetBlues ++ blues)

/-- The size found for a blue `n` steps down the selected chain at most. -/
inductive SizeAt : ℕ → GhostdagData H → H → ℕ → Prop
  | here {n : ℕ} {d : GhostdagData H} {b : H} {size : ℕ}
      (hsize : d.bluesAnticoneSizes.lookup b = some size) : SizeAt n d b size
  | there {n : ℕ} {d : GhostdagData H} {b : H} {size : ℕ}
      (hnone : d.bluesAnticoneSizes.lookup b = none) (hgenesis : d.selectedParent ≠ D.genesis)
      (hparent : SizeAt n (D.data d.selectedParent) b size) : SizeAt (n + 1) d b size

open scoped Classical in
/-- The members of `set` in the anticone of `b`. -/
noncomputable def anticone (set : List H) (b : H) : List H :=
  set.filter fun y => ¬ D.Le y b ∧ ¬ D.Le b y

/-- No member has more than `k` others in its anticone. -/
def Cluster (set : List H) : Prop := ∀ b ∈ set, (D.anticone set b).length ≤ D.k

/-- The chain structure of the stored blocks. -/
structure Chains (blocks : List H) : Prop where
  parent : ∀ b ∈ blocks, b ≠ D.genesis → (D.data b).selectedParent ∈ blocks
  blues_ne : ∀ b ∈ blocks, b ≠ D.genesis → (D.data b).mergesetBlues ≠ []
  blues_le : ∀ b ∈ blocks, ∀ x ∈ (D.data b).mergesetBlues, D.Le x b
  parent_le : ∀ b ∈ blocks, b ≠ D.genesis → D.Le (D.data b).selectedParent b
  genesis : (D.data D.genesis).mergesetBlues = []
  origin : D.origin ∉ blocks

variable {D}

variable {b : H}

omit [LinearOrder H] in
theorem Blues.le (hchains : D.Chains blocks) {blues : List H} (h : D.Blues b blues)
    (hb : b ∈ blocks) : ∀ x ∈ blues, D.Le x b := by
  induction h with
  | genesis => simp
  | @step b blues hne _ ih =>
    intro x hx
    rcases mem_append.mp hx with hx | hx
    · exact hchains.blues_le b hb x hx
    · exact (ih (hchains.parent b hb hne) x hx).trans (hchains.parent_le b hb hne)

omit [LinearOrder H] in
theorem Blues.unique {blues blues' : List H} (h : D.Blues b blues)
    (h' : D.Blues b blues') : blues = blues' := by
  induction h generalizing blues' with
  | genesis =>
    cases h' with
    | genesis => rfl
    | step hne => exact absurd rfl hne
  | step hne _ ih =>
    cases h' with
    | genesis => exact absurd rfl hne
    | step _ hparent => rw [ih hparent]

theorem anticoneSizeLoop_eq (hchains : D.Chains blocks) {n : ℕ} {d : GhostdagData H}
    {size : ℕ} (h : D.SizeAt n d b size) (hsp : d.selectedParent ∈ blocks) (fuel : ℕ)
    (hfuel : n < fuel) :
    (D.manager blocks).anticoneSizeLoop b fuel d.bluesAnticoneSizes d.selectedParent =
      some size := by
  induction h generalizing fuel with
  | here hsize =>
    obtain ⟨fuel, rfl⟩ := Nat.exists_eq_succ_of_ne_zero (Nat.ne_zero_of_lt hfuel)
    simp [anticoneSizeLoop, hsize]
  | @there n d b size hnone hgenesis _ ih =>
    obtain ⟨fuel, rfl⟩ := Nat.exists_eq_succ_of_ne_zero (Nat.ne_zero_of_lt hfuel)
    have horigin : d.selectedParent ≠ D.origin := fun heq => hchains.origin (heq ▸ hsp)
    have hstore : (D.manager blocks).ghostdagStore d.selectedParent =
        some (D.data d.selectedParent) := if_pos hsp
    have hstop : ¬ (d.selectedParent = (D.manager blocks).genesisHash ∨
        d.selectedParent = (D.manager blocks).originHash) := not_or.mpr ⟨hgenesis, horigin⟩
    have hrest := ih (hchains.parent _ hsp hgenesis) fuel (Nat.lt_of_succ_lt_succ hfuel)
    simp [anticoneSizeLoop, hnone, hstop, hstore, hrest]

theorem SizeAt.mono {n n' : ℕ} {d : GhostdagData H} {size : ℕ} (h : D.SizeAt n d b size)
    (hle : n ≤ n') : D.SizeAt n' d b size := by
  induction h generalizing n' with
  | here hsize => exact SizeAt.here hsize
  | there hnone hgenesis _ ih =>
    obtain ⟨n', rfl⟩ := Nat.exists_eq_succ_of_ne_zero (Nat.ne_of_gt (Nat.zero_lt_of_lt hle))
    exact SizeAt.there hnone hgenesis (ih (Nat.le_of_succ_le_succ hle))

section Walk

variable {new : GhostdagData H} {c : H} {sizeOf : H → ℕ}

/-- The blues of a list that are not in the past of the candidate. -/
def unrelated (D : BlockDag H) (c : H) (blues : List H) : List H :=
  blues.filter fun b => !D.reach b c

/-- The candidate cannot become blue because of `others`, `count` of the blues in
its anticone being known already. -/
def Breaks (D : BlockDag H) (sizeOf : H → ℕ) (count : ℕ) (others : List H) : Prop :=
  D.k < count + others.length ∨ ∃ b ∈ others, sizeOf b = D.k

def recordSizes (sizeOf : H → ℕ) (others : List H) (sizes : FMap H ℕ) : FMap H ℕ :=
  others.foldl (fun sizes b => sizes.insert b (sizeOf b)) sizes

omit [LinearOrder H] in
theorem breaks_append {count : ℕ} {a b : List H} : D.Breaks sizeOf count (a ++ b) ↔
      D.Breaks sizeOf count a ∨ D.Breaks sizeOf (count + a.length) b := by
  unfold Breaks
  simp only [length_append, mem_append]
  constructor
  · rintro (h | ⟨x, hx | hx, hk⟩)
    · exact .inr (.inl (by omega))
    · exact .inl (.inr ⟨x, hx, hk⟩)
    · exact .inr (.inr ⟨x, hx, hk⟩)
  · rintro ((h | ⟨x, hx, hk⟩) | h | ⟨x, hx, hk⟩)
    · exact .inl (by omega)
    · exact .inr ⟨x, .inl hx, hk⟩
    · exact .inl (by omega)
    · exact .inr ⟨x, .inr hx, hk⟩

/-- Every blue that is compared with the candidate has an exact size within the
bound. -/
def SizesKnown (D : BlockDag H) (blocks : List H) (new : GhostdagData H) (c : H) (sizeOf : H → ℕ)
    (blues : List H) : Prop :=
  ∀ b ∈ D.unrelated c blues, (D.manager blocks).blueAnticoneSize b new = some (sizeOf b) ∧
    sizeOf b ≤ D.k

theorem scanBlues_eq (blues : List H) (sizes : FMap H ℕ) (count : ℕ) (hcount : count ≤ D.k)
    (hknown : D.SizesKnown blocks new c sizeOf blues) :
    (D.Breaks sizeOf count (D.unrelated c blues) → ∃ sizes' count',
      (D.manager blocks).scanBlues new c blues sizes count = some (.red, sizes', count')) ∧
    (¬ D.Breaks sizeOf count (D.unrelated c blues) →
      (D.manager blocks).scanBlues new c blues sizes count =
        some (.pending, recordSizes sizeOf (D.unrelated c blues) sizes,
          count + (D.unrelated c blues).length)) := by
  induction blues generalizing sizes count with
  | nil =>
    constructor
    · rintro (h | ⟨b, hb, -⟩)
      · simp only [unrelated, filter_nil, length_nil] at h
        omega
      · cases hb
    · intro _
      rfl
  | cons b blues ih =>
    cases hreach : D.reach b c with
    | true =>
      have hskip : D.unrelated c (b :: blues) = D.unrelated c blues := by
        simp [unrelated, hreach]
      have hscan : (D.manager blocks).scanBlues new c (b :: blues) sizes count =
          (D.manager blocks).scanBlues new c blues sizes count := if_pos hreach
      have hknown' : D.SizesKnown blocks new c sizeOf blues :=
        fun x hx => hknown x (hskip ▸ hx)
      rw [hskip, hscan]
      exact ih sizes count hcount hknown'
    | false =>
      have hkeep : D.unrelated c (b :: blues) = b :: D.unrelated c blues := by
        simp [unrelated, hreach]
      obtain ⟨hsize, hbound⟩ := hknown b (by rw [hkeep]; exact mem_cons_self)
      have hknown' : D.SizesKnown blocks new c sizeOf blues := by
        intro x hx
        exact hknown x (by rw [hkeep]; exact mem_cons_of_mem b hx)
      have hanswer : (D.manager blocks).isDagAncestorOf b c = false := hreach
      have hk : (D.manager blocks).k = D.k := rfl
      have hsplit : D.Breaks sizeOf count (b :: D.unrelated c blues) ↔
          (D.k < count + 1 ∨ sizeOf b = D.k) ∨
            D.Breaks sizeOf (count + 1) (D.unrelated c blues) := by
        have happend := @breaks_append H D sizeOf count [b] (D.unrelated c blues)
        simpa [Breaks] using happend
      have hscan : (D.manager blocks).scanBlues new c (b :: blues) sizes count =
          if D.k < count + 1 ∨ sizeOf b = D.k then
            some (.red, sizes.insert b (sizeOf b), count + 1)
          else (D.manager blocks).scanBlues new c blues (sizes.insert b (sizeOf b)) (count + 1) := by
        by_cases hfull : D.k < count + 1
        · simp [scanBlues, hanswer, hsize, hk, hfull]
        · simp [scanBlues, hanswer, hsize, hk, hfull, not_lt.mpr hbound]
      rw [hkeep, hsplit, hscan]
      split_ifs with hbreaks
      · exact ⟨fun _ => ⟨_, _, rfl⟩, fun h => absurd (.inl hbreaks) h⟩
      · obtain ⟨hred, hpending⟩ := ih (sizes.insert b (sizeOf b)) (count + 1)
          (not_lt.mp fun hfull => hbreaks (.inl hfull)) hknown'
        refine ⟨fun h => hred (h.resolve_left hbreaks), fun h => ?_⟩
        rw [hpending fun h' => h (.inr h')]
        simp only [recordSizes, foldl_cons, length_cons]
        congr 3
        omega

omit [LinearOrder H] in
theorem not_breaks_nil {count : ℕ} (hcount : count ≤ D.k) : ¬ D.Breaks sizeOf count [] := by
  rintro (h | ⟨b, hb, -⟩)
  · simp only [length_nil] at h
    omega
  · cases hb

omit [LinearOrder H] in
/-- A chain block in the past of the candidate ends the walk: nothing further down
is unrelated to the candidate. -/
theorem unrelated_eq_nil (hlayered : D.Layered blocks) (hexact : D.Exact blocks)
    (hchains : D.Chains blocks) {blues : List H} (h : D.Blues b blues) (hb : b ∈ blocks)
    (hc : c ∈ blocks) (hreach : D.reach b c = true) : D.unrelated c blues = [] := by
  apply filter_eq_nil_iff.mpr
  intro x hx
  have hxb := h.le hchains hb x hx
  have hxc : D.Le x c := hxb.trans ((hexact b hb c hc).mp hreach)
  have hreach' := (hexact x (hlayered.mem_of_le hxb hb) c hc).mpr hxc
  simp [hreach']

theorem candidateLoop_pending {fuel : ℕ} {hash : Option H} {data : GhostdagData H}
    {sizes sizes' : FMap H ℕ} {count count' : ℕ}
    (hhash : hash.any ((D.manager blocks).isDagAncestorOf · c) = false)
    (hscan : (D.manager blocks).scanBlues new c data.mergesetBlues sizes count =
      some (.pending, sizes', count')) (hsp : data.selectedParent ∈ blocks) :
    (D.manager blocks).candidateLoop new c (fuel + 1) hash data sizes count =
      (D.manager blocks).candidateLoop new c fuel (some data.selectedParent)
        (D.data data.selectedParent) sizes' count' := by
  have hstore : (D.manager blocks).ghostdagStore data.selectedParent =
      some (D.data data.selectedParent) := if_pos hsp
  simp [candidateLoop, checkBlueCandidateWithChainBlock, hhash, hscan, hstore]

theorem candidateLoop_red {fuel : ℕ} {hash : Option H} {data : GhostdagData H}
    {sizes sizes' : FMap H ℕ} {count count' : ℕ}
    (hhash : hash.any ((D.manager blocks).isDagAncestorOf · c) = false)
    (hscan : (D.manager blocks).scanBlues new c data.mergesetBlues sizes count =
      some (.red, sizes', count')) :
    (D.manager blocks).candidateLoop new c (fuel + 1) hash data sizes count = some .red := by
  simp [candidateLoop, checkBlueCandidateWithChainBlock, hhash, hscan]

theorem recordSizes_append (a b : List H) (sizes : FMap H ℕ) :
    recordSizes sizeOf (a ++ b) sizes = recordSizes sizeOf b (recordSizes sizeOf a sizes) := by
  rw [recordSizes, foldl_append]
  rfl

theorem candidateLoop_chain (hlayered : D.Layered blocks) (hexact : D.Exact blocks)
    (hchains : D.Chains blocks) {b : H} {blues : List H} (h : D.Blues b blues) (hb : b ∈ blocks)
    (hc : c ∈ blocks) (fuel : ℕ) (hfuel : blues.length < fuel) (sizes : FMap H ℕ) (count : ℕ)
    (hcount : count ≤ D.k) (hknown : D.SizesKnown blocks new c sizeOf blues) :
    (D.Breaks sizeOf count (D.unrelated c blues) →
      (D.manager blocks).candidateLoop new c fuel (some b) (D.data b) sizes count = some .red) ∧
    (¬ D.Breaks sizeOf count (D.unrelated c blues) →
      (D.manager blocks).candidateLoop new c fuel (some b) (D.data b) sizes count =
        some (.blue (count + (D.unrelated c blues).length)
          (recordSizes sizeOf (D.unrelated c blues) sizes))) := by
  induction h generalizing fuel sizes count with
  | genesis =>
    obtain ⟨fuel, rfl⟩ := Nat.exists_eq_succ_of_ne_zero (Nat.ne_zero_of_lt hfuel)
    have hreach := (hexact _ hb c hc).mpr (hlayered.genesis_le c hc)
    refine ⟨fun hbreaks => absurd hbreaks (not_breaks_nil hcount), fun _ => ?_⟩
    have hhash : (some D.genesis).any ((D.manager blocks).isDagAncestorOf · c) = true := hreach
    simp [candidateLoop, checkBlueCandidateWithChainBlock, hhash, unrelated, recordSizes]
  | @step b blues hne hparent ih =>
    obtain ⟨fuel, rfl⟩ := Nat.exists_eq_succ_of_ne_zero (Nat.ne_zero_of_lt hfuel)
    cases hreach : D.reach b c with
    | true =>
      have hnil := unrelated_eq_nil hlayered hexact hchains (Blues.step hne hparent) hb hc hreach
      have hhash : (some b).any ((D.manager blocks).isDagAncestorOf · c) = true := hreach
      rw [hnil]
      refine ⟨fun hbreaks => absurd hbreaks (not_breaks_nil hcount), fun _ => ?_⟩
      simp [candidateLoop, checkBlueCandidateWithChainBlock, hhash, recordSizes]
    | false =>
      have hhash : (some b).any ((D.manager blocks).isDagAncestorOf · c) = false := hreach
      have happend : D.unrelated c ((D.data b).mergesetBlues ++ blues) =
          D.unrelated c (D.data b).mergesetBlues ++ D.unrelated c blues := filter_append _ _
      have hknown₁ : D.SizesKnown blocks new c sizeOf (D.data b).mergesetBlues :=
        fun x hx => hknown x (by rw [happend]; exact mem_append_left _ hx)
      have hknown₂ : D.SizesKnown blocks new c sizeOf blues :=
        fun x hx => hknown x (by rw [happend]; exact mem_append_right _ hx)
      obtain ⟨hred, hpending⟩ := scanBlues_eq (D.data b).mergesetBlues sizes count hcount hknown₁
      rw [happend, breaks_append]
      by_cases hbreaks : D.Breaks sizeOf count (D.unrelated c (D.data b).mergesetBlues)
      · obtain ⟨sizes', count', hscan⟩ := hred hbreaks
        exact ⟨fun _ => candidateLoop_red hhash hscan, fun h => absurd (.inl hbreaks) h⟩
      · have hcount' : count + (D.unrelated c (D.data b).mergesetBlues).length ≤ D.k :=
          not_lt.mp fun hlt => hbreaks (.inl hlt)
        have hlength : blues.length < fuel := by
          have hne' := length_pos_of_ne_nil (hchains.blues_ne b hb hne)
          rw [length_append] at hfuel
          omega
        obtain ⟨hred', hblue'⟩ := ih (hchains.parent b hb hne) fuel hlength _ _ hcount' hknown₂
        rw [candidateLoop_pending hhash (hpending hbreaks) (hchains.parent b hb hne)]
        refine ⟨fun h => hred' (h.resolve_left hbreaks), fun h => ?_⟩
        rw [hblue' fun h' => h (.inr h'), recordSizes_append, length_append, Nat.add_assoc]

end Walk

/-- The data of the new block between two candidates: the blues chosen so far,
with the blue set `blues` of the selected parent, obey the bound, and the sizes
are exact. -/
structure Choosing (D : BlockDag H) (blocks : List H) (d : GhostdagData H) (blues : List H) :
    Prop where
  chain : D.Blues d.selectedParent blues
  parent : d.selectedParent ∈ blocks
  head : ∃ rest, d.mergesetBlues = d.selectedParent :: rest ∧
    ∀ a ∈ rest, ¬ D.Le a d.selectedParent ∧ ¬ D.Le d.selectedParent a
  nodup : (d.mergesetBlues ++ blues).Nodup
  stored : ∀ b ∈ d.mergesetBlues, b ∈ blocks
  sizes : ∀ b ∈ d.mergesetBlues ++ blues,
    D.SizeAt blues.length d b (D.anticone (d.mergesetBlues ++ blues) b).length
  cluster : D.Cluster (d.mergesetBlues ++ blues)

/-- A block that comes after the blues chosen so far. -/
structure Candidate (D : BlockDag H) (blocks : List H) (d : GhostdagData H) (blues : List H)
    (c : H) : Prop where
  stored : c ∈ blocks
  later : ∀ b ∈ d.mergesetBlues ++ blues, ¬ D.Le c b
  parent : ¬ D.Le d.selectedParent c

section Verdict

variable {d : GhostdagData H} {blues : List H} {c : H}

theorem Choosing.stored_all (hlayered : D.Layered blocks) (hchains : D.Chains blocks)
    (h : D.Choosing blocks d blues) : ∀ b ∈ d.mergesetBlues ++ blues, b ∈ blocks := by
  intro b hb
  rcases mem_append.mp hb with hb | hb
  · exact h.stored b hb
  · exact hlayered.mem_of_le (h.chain.le hchains h.parent b hb) h.parent

theorem length_le_of_stored {l : List H} (hnodup : l.Nodup) (hl : ∀ b ∈ l, b ∈ blocks) :
    l.length ≤ blocks.length := by
  rw [← toFinset_card_of_nodup hnodup]
  have hsub : l.toFinset ⊆ blocks.toFinset := by
    intro b hb
    exact mem_toFinset.mpr (hl b (mem_toFinset.mp hb))
  exact (Finset.card_le_card hsub).trans (toFinset_card_le blocks)

variable {set : List H}

omit [LinearOrder H] in
theorem anticone_eq_unrelated (hexact : D.Exact blocks)
    (hset : ∀ b ∈ set, b ∈ blocks) (hc : c ∈ blocks) (hlater : ∀ b ∈ set, ¬ D.Le c b) :
    D.anticone set c = D.unrelated c set := by
  apply filter_congr
  intro b hb
  have hreach := hexact b (hset b hb) c hc
  cases hb' : D.reach b c with
  | true => simp [hreach.mp hb']
  | false =>
    have hnot : ¬ D.Le b c := by
      rw [← hreach, hb']
      exact Bool.false_ne_true
    simp [hnot, hlater b hb]

omit [LinearOrder H] in
theorem anticone_cons_self (set : List H) (c : H) : D.anticone (c :: set) c = D.anticone set c := by
  have hself : D.Le c c := Relation.ReflTransGen.refl
  simp [anticone, hself]

omit [LinearOrder H] in
theorem length_anticone_cons_of_le (h : D.Le b c) :
    (D.anticone (c :: set) b).length = (D.anticone set b).length := by
  simp [anticone, h]

omit [LinearOrder H] in
theorem length_anticone_cons_of_not_le (h : ¬ D.Le b c)
    (h' : ¬ D.Le c b) : (D.anticone (c :: set) b).length = (D.anticone set b).length + 1 := by
  simp [anticone, h, h']

omit [LinearOrder H] in
theorem length_anticone_perm {set set' : List H} (h : set.Perm set') (b : H) :
    (D.anticone set b).length = (D.anticone set' b).length := (h.filter _).length_eq

omit [LinearOrder H] in
/-- One more blue breaks the bound exactly when the walk finds a reason. -/
theorem not_cluster_cons_iff (hexact : D.Exact blocks)
    (hset : ∀ b ∈ set, b ∈ blocks) (hc : c ∈ blocks) (hlater : ∀ b ∈ set, ¬ D.Le c b)
    (hcluster : D.Cluster set) :
    ¬ D.Cluster (c :: set) ↔
      D.Breaks (fun b => (D.anticone set b).length) 0 (D.unrelated c set) := by
  have hunrelated := anticone_eq_unrelated hexact hset hc hlater
  have hmem : ∀ b, b ∈ D.unrelated c set ↔ b ∈ set ∧ ¬ D.Le b c := by
    intro b
    rw [← hunrelated, anticone, mem_filter]
    simp only [decide_eq_true_iff]
    constructor
    · rintro ⟨hb, hnot, -⟩
      exact ⟨hb, hnot⟩
    · rintro ⟨hb, hnot⟩
      exact ⟨hb, hnot, hlater b hb⟩
  constructor
  · intro hnot
    unfold Cluster at hnot
    push Not at hnot
    obtain ⟨b, hb, hlt⟩ := hnot
    rcases mem_cons.mp hb with rfl | hb
    · rw [anticone_cons_self, hunrelated] at hlt
      exact .inl (by omega)
    · by_cases hle : D.Le b c
      · rw [length_anticone_cons_of_le hle] at hlt
        exact absurd (hcluster b hb) (not_le.mpr hlt)
      · rw [length_anticone_cons_of_not_le hle (hlater b hb)] at hlt
        have hbound := hcluster b hb
        exact .inr ⟨b, (hmem b).mpr ⟨hb, hle⟩, by dsimp only; omega⟩
  · rintro (hlt | ⟨b, hb, hk⟩) hall
    · have hself := hall c mem_cons_self
      rw [anticone_cons_self, hunrelated] at hself
      omega
    · obtain ⟨hb, hle⟩ := (hmem b).mp hb
      have hbound := hall b (mem_cons_of_mem c hb)
      rw [length_anticone_cons_of_not_le hle (hlater b hb)] at hbound
      dsimp only at hk
      omega

theorem checkBlueCandidate_eq (hlayered : D.Layered blocks) (hexact : D.Exact blocks)
    (hchains : D.Chains blocks) (h : D.Choosing blocks d blues)
    (hc : D.Candidate blocks d blues c) :
    (¬ D.Cluster (c :: (d.mergesetBlues ++ blues)) →
      (D.manager blocks).checkBlueCandidate d c = some .red) ∧
    (D.Cluster (c :: (d.mergesetBlues ++ blues)) → (D.manager blocks).checkBlueCandidate d c =
        some (.blue (D.anticone (d.mergesetBlues ++ blues) c).length
          (recordSizes (fun b => (D.anticone (d.mergesetBlues ++ blues) b).length)
            (D.unrelated c (d.mergesetBlues ++ blues)) ∅))) := by
  have hstored := h.stored_all hlayered hchains
  have hiff := not_cluster_cons_iff hexact hstored hc.stored hc.later h.cluster
  obtain ⟨rest, hhead, hrest⟩ := h.head
  by_cases hfull : d.mergesetBlues.length = (D.manager blocks).k + 1
  · -- the selected parent already has `k` of the chosen blues in its anticone
    have hk : D.k = rest.length := by
      rw [hhead, length_cons] at hfull
      exact (Nat.succ_injective hfull).symm
    have hmem : d.selectedParent ∈ d.mergesetBlues ++ blues := by
      rw [hhead]
      exact mem_cons_self
    have hsub : (D.anticone rest d.selectedParent).Sublist
        (D.anticone (d.mergesetBlues ++ blues) d.selectedParent) := by
      apply Sublist.filter
      rw [hhead]
      exact ((sublist_append_left rest blues).cons d.selectedParent)
    have hall : D.anticone rest d.selectedParent = rest := by
      apply filter_eq_self.mpr
      intro a ha
      simpa using hrest a ha
    have hlength := hsub.length_le
    rw [hall] at hlength
    have hbreak : ¬ D.Cluster (c :: (d.mergesetBlues ++ blues)) := by
      intro hcluster
      have hbound := hcluster d.selectedParent (mem_cons_of_mem c hmem)
      rw [length_anticone_cons_of_not_le hc.parent (hc.later _ hmem)] at hbound
      omega
    refine ⟨fun _ => ?_, fun hcluster => absurd hcluster hbreak⟩
    rw [checkBlueCandidate, if_pos hfull]
  · have hlength : blues.length ≤ blocks.length := by
      apply length_le_of_stored h.nodup.of_append_right
      exact fun b hb => hstored b (mem_append_right _ hb)
    have hsizes : ∀ l : List H, (∀ b ∈ l, b ∈ d.mergesetBlues ++ blues) →
        D.SizesKnown blocks d c (fun b => (D.anticone (d.mergesetBlues ++ blues) b).length) l := by
      intro l hl b hb
      have hb' := hl b (mem_filter.mp hb).1
      refine ⟨?_, h.cluster b hb'⟩
      exact anticoneSizeLoop_eq hchains (h.sizes b hb') h.parent _ (Nat.lt_succ_of_le hlength)
    have happend : D.unrelated c (d.mergesetBlues ++ blues) =
        D.unrelated c d.mergesetBlues ++ D.unrelated c blues := filter_append _ _
    rw [happend, breaks_append] at hiff
    have hloop : (D.manager blocks).checkBlueCandidate d c =
        (D.manager blocks).candidateLoop d c (blocks.length + 2) none d ∅ 0 := by
      rw [checkBlueCandidate, if_neg hfull]
      rfl
    obtain ⟨hred, hpending⟩ := scanBlues_eq d.mergesetBlues ∅ 0
      (Nat.zero_le _) (hsizes _ fun b hb => mem_append_left _ hb)
    have hhash : (none : Option H).any ((D.manager blocks).isDagAncestorOf · c) = false := rfl
    by_cases hfirst : D.Breaks (fun b => (D.anticone (d.mergesetBlues ++ blues) b).length) 0
        (D.unrelated c d.mergesetBlues)
    · obtain ⟨sizes', count', hscan⟩ := hred hfirst
      exact ⟨fun _ => hloop.trans (candidateLoop_red hhash hscan),
        fun hcluster => absurd hcluster (hiff.mpr (.inl hfirst))⟩
    · obtain ⟨hred', hblue'⟩ := candidateLoop_chain hlayered hexact hchains h.chain h.parent
          hc.stored (blocks.length + 1) (Nat.lt_succ_of_le hlength)
          (recordSizes (fun b => (D.anticone (d.mergesetBlues ++ blues) b).length)
          (D.unrelated c d.mergesetBlues) ∅) (0 + (D.unrelated c d.mergesetBlues).length)
          (not_lt.mp fun hlt => hfirst (.inl hlt)) (hsizes _ fun b hb => mem_append_right _ hb)
      rw [hloop, candidateLoop_pending hhash (hpending hfirst) h.parent]
      refine ⟨fun hbreak => hred' ((hiff.mp hbreak).resolve_left hfirst), fun hcluster => ?_⟩
      rw [hblue' fun hlast => hiff.mpr (.inr hlast) hcluster,
        anticone_eq_unrelated hexact hstored hc.stored hc.later, happend, recordSizes_append,
        length_append, Nat.zero_add]

end Verdict

end BlockDag

end CryptixAtomic.Ghostdag
