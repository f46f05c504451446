import CryptixAtomic.Ghostdag.BlueSet

/-!
# Growing a block DAG

`Valid` is what holds of a DAG after every added block: blue work grows along its edges, the
selected chains are well formed, and the data of every block is the coloring of its mergeset.
`ghostdag_spec` is one call of `ghostdag` on a valid DAG, `Valid.add` one more block, and
`Built.valid` the whole run. Works are positive, and no sum wraps around.
-/
namespace CryptixAtomic.Ghostdag

open Foundation List Relation

variable {H : Type} [LinearOrder H]

namespace BlockDag

variable {D : BlockDag H} {blocks : List H}

/-- The sums of blue work stay below `2 ^ 192`. -/
def NoOverflow (D : BlockDag H) (blocks : List H) : Prop := ∀ b ∈ blocks, b ≠ D.genesis →
    D.blueWork (D.data b).selectedParent + ((D.data b).mergesetBlues.map D.work).sum < 2 ^ 192

/-- `d` is the coloring of `mergeset`, the blocks that parents `ps` add to the past
of the selected parent, over the blue set `blues` of that parent. -/
structure Colored (D : BlockDag H) (blocks ps : List H) (d : GhostdagData H)
    (mergeset blues : List H) : Prop where
  parent_mem : d.selectedParent ∈ ps
  highest : ∀ p ∈ ps, D.key p ≤ D.key d.selectedParent
  members : ∀ y, y ∈ mergeset ↔ D.Merged ps d.selectedParent y
  sorted : mergeset.Pairwise fun a b => D.key a < D.key b
  blue : d.mergesetBlues = (D.greedy blues [d.selectedParent] mergeset).1
  red : d.mergesetReds = (D.greedy blues [d.selectedParent] mergeset).2
  choosing : D.Choosing blocks d blues
  score : d.blueScore = (d.mergesetBlues ++ blues).length
  work : d.blueWork = (D.blueWork d.selectedParent + (d.mergesetBlues.map D.work).sum) % 2 ^ 192

structure Valid (D : BlockDag H) (blocks : List H) : Prop where
  layered : D.Layered blocks
  chains : D.Chains blocks
  genesis : D.data D.genesis = (D.manager []).genesisGhostdagData
  parents : D.parents D.genesis = []
  colored : ∀ b ∈ blocks, b ≠ D.genesis →
    ∃ mergeset blues, D.Colored blocks (D.parents b) (D.data b) mergeset blues
  antichain : ∀ b ∈ blocks, ∀ p ∈ D.parents b, ∀ q ∈ D.parents b, D.Le p q → p = q

/-- What the data of a block says about its blue set. -/
structure BlueSet (D : BlockDag H) (b : H) (blues : List H) : Prop where
  chain : D.Blues b blues
  nodup : blues.Nodup
  cluster : D.Cluster blues
  below : ∀ x ∈ blues, D.Le x b ∧ x ≠ b
  score : (D.data b).blueScore = blues.length
  sizes : ∀ x ∈ blues, b ≠ D.genesis ∧
    D.SizeAt (blues.length - 1) (D.data b) x (D.anticone blues x).length

omit [LinearOrder H] in
theorem mem_greedy_fst {base candidates chosen : List H} {x : H}
    (hx : x ∈ (D.greedy base chosen candidates).1) : x ∈ chosen ∨ x ∈ candidates := by
  induction candidates generalizing chosen with
  | nil => exact .inl hx
  | cons c candidates ih =>
    rw [greedy] at hx
    split_ifs at hx
    · rcases ih hx with hx | hx
      · rcases mem_append.mp hx with hx | hx
        · exact .inl hx
        · exact .inr (mem_singleton.mp hx ▸ mem_cons_self)
      · exact .inr (mem_cons_of_mem c hx)
    · rcases ih hx with hx | hx
      · exact .inl hx
      · exact .inr (mem_cons_of_mem c hx)

omit [LinearOrder H] in
theorem greedy_perm (base chosen candidates : List H) :
    ((D.greedy base chosen candidates).1 ++ (D.greedy base chosen candidates).2).Perm
      (chosen ++ candidates) := by
  induction candidates generalizing chosen with
  | nil => exact Perm.refl _
  | cons c candidates ih =>
    rw [greedy]
    split_ifs
    · have h := ih (chosen ++ [c])
      rwa [append_assoc] at h
    · exact perm_middle.trans (((ih chosen).cons c).trans perm_middle.symm)

variable {d : GhostdagData H}

variable {mergeset : List H}

theorem Colored.blue_lt {ps blues : List H}
    (h : D.Colored blocks ps d mergeset blues) {x : H} (hx : x ∈ d.mergesetBlues) :
    ∃ p ∈ ps, D.Le x p := by
  rw [h.blue] at hx
  rcases mem_greedy_fst hx with hx | hx
  · rw [mem_singleton.mp hx]
    exact ⟨_, h.parent_mem, ReflTransGen.refl⟩
  · exact ((h.members x).mp hx).1

theorem Valid.lt_of_le_parent (h : D.Valid blocks) {b p x : H} (hb : b ∈ blocks)
    (hp : p ∈ D.parents b) (hx : D.Le x p) : D.Le x b ∧ x ≠ b := by
  refine ⟨hx.tail hp, ?_⟩
  rintro rfl
  have hgrows := h.layered.grows x hb p hp
  rcases h.layered.eq_or_lt hx (h.layered.closed x hb p hp) with rfl | hlt
  · omega
  · omega

theorem Valid.blueSet (h : D.Valid blocks) {b : H} (hb : b ∈ blocks) :
    ∃ blues, D.BlueSet b blues := by
  by_cases hgenesis : b = D.genesis
  · refine ⟨[], ?_⟩
    rw [hgenesis]
    constructor
    · exact Blues.genesis
    · exact nodup_nil
    · intro x hx
      cases hx
    · intro x hx
      cases hx
    · rw [h.genesis]
      rfl
    · intro x hx
      cases hx
  · obtain ⟨mergeset, blues, hcolored⟩ := h.colored b hb hgenesis
    have hchoosing := hcolored.choosing
    obtain ⟨rest, hhead, _⟩ := hchoosing.head
    refine ⟨(D.data b).mergesetBlues ++ blues, ?_⟩
    constructor
    · exact Blues.step hgenesis hchoosing.chain
    · exact hchoosing.nodup
    · exact hchoosing.cluster
    · intro x hx
      rcases mem_append.mp hx with hx | hx
      · obtain ⟨p, hp, hle⟩ := hcolored.blue_lt hx
        exact h.lt_of_le_parent hb hp hle
      · have hle := hchoosing.chain.le h.chains hchoosing.parent x hx
        exact h.lt_of_le_parent hb hcolored.parent_mem hle
    · exact hcolored.score
    · intro x hx
      refine ⟨hgenesis, (hchoosing.sizes x hx).mono ?_⟩
      rw [hhead]
      simp

theorem Layered.not_le_of_sorted (h : D.Layered blocks) (hstored : ∀ x ∈ mergeset, x ∈ blocks)
    (hsorted : mergeset.Pairwise fun a b => D.key a < D.key b) :
    mergeset.Pairwise fun a b => ¬ D.Le b a := by
  apply hsorted.imp_of_mem
  intro a b ha _ hlt hle
  rcases h.eq_or_lt hle (hstored a ha) with rfl | hwork
  · exact lt_irrefl _ hlt
  · exact absurd (Prod.Lex.toLex_lt_toLex.mpr (.inl hwork)) (lt_asymm hlt)

theorem BlueSet.start {sp : H} (hsp : sp ∈ blocks) {blues : List H} (hblues : D.BlueSet sp blues) :
    D.Choosing blocks (GhostdagData.newWithSelectedParent sp) blues := by
  have hstable : ∀ x ∈ blues, (D.anticone (sp :: blues) x).length = (D.anticone blues x).length :=
    fun x hx => length_anticone_cons_of_le (hblues.below x hx).1
  have hself : (D.anticone (sp :: blues) sp).length = 0 := by
    rw [anticone_cons_self, length_eq_zero_iff, anticone, filter_eq_nil_iff]
    intro x hx
    simp [(hblues.below x hx).1]
  constructor
  · exact hblues.chain
  · exact hsp
  · exact ⟨[], rfl, by simp⟩
  · exact nodup_cons.mpr ⟨fun hmem => (hblues.below sp hmem).2 rfl, hblues.nodup⟩
  · intro b hb
    rw [mem_singleton.mp hb]
    exact hsp
  · intro x hx
    change D.SizeAt _ _ x (D.anticone (sp :: blues) x).length
    rcases mem_cons.mp hx with rfl | hx
    · rw [hself]
      exact SizeAt.here (Finmap.lookup_insert _)
    · -- an older blue has its size further down the chain
      obtain ⟨hgenesis, hsize⟩ := hblues.sizes x hx
      have hpos : blues.length - 1 + 1 = blues.length :=
        Nat.succ_pred_eq_of_pos (length_pos_of_mem hx)
      have hnone : (GhostdagData.newWithSelectedParent sp).bluesAnticoneSizes.lookup x = none := by
        change ((∅ : FMap H ℕ).insert sp 0).lookup x = none
        rw [FMap.lookup_insert_ite, if_neg (hblues.below x hx).2]
        rfl
      rw [hstable x hx, ← hpos]
      exact SizeAt.there hnone hgenesis hsize
  · intro x hx
    change (D.anticone (sp :: blues) x).length ≤ D.k
    rcases mem_cons.mp hx with rfl | hx
    · rw [hself]
      exact Nat.zero_le _
    · rw [hstable x hx]
      exact hblues.cluster x hx

theorem mapM_workOf (horigin : D.origin ∉ blocks) {l : List H} (hl : ∀ b ∈ l, b ∈ blocks) :
    l.mapM (D.manager blocks).workOf = some (l.map D.work) := by
  apply mapM_eq_some_map
  intro b hb
  have hne : b ≠ D.origin := fun heq => horigin (heq ▸ hl b hb)
  simp [GhostdagManager.workOf, manager, hne, hl b hb]

/-- On a valid DAG `ghostdag` returns for all parents a new block may have, and
returns the coloring. -/
theorem ghostdag_spec (h : D.Valid blocks) (hexact : D.Exact blocks) {ps : List H}
    (hparents : D.Parents blocks ps) (hk : D.k + 1 < 2 ^ 16) :
    ∃ d mergeset blues, (D.manager blocks).ghostdag ps = some d ∧
      D.Colored blocks ps d mergeset blues := by
  obtain ⟨sp, hsp, hselected, hhighest⟩ :=
    findSelectedParent_eq (D := D) hparents.nonempty hparents.stored
  have hstored : sp ∈ blocks := hparents.stored sp hsp
  obtain ⟨mergeset, hmergeset, hmembers, hsorted⟩ :=
    orderedMergeset_eq h.layered hexact hparents hsp
  obtain ⟨blues, hblues⟩ := h.blueSet hstored
  have hmem : ∀ c ∈ mergeset, c ∈ blocks := by
    intro c hc
    obtain ⟨⟨p, hp, hle⟩, _⟩ := (hmembers c).mp hc
    exact h.layered.mem_of_le hle (hparents.stored p hp)
  have hordered := h.layered.not_le_of_sorted hmem hsorted
  have hcandidates : ∀ c ∈ mergeset,
      D.Candidate blocks (GhostdagData.newWithSelectedParent sp) blues c := by
    intro c hc
    obtain ⟨⟨p, hp, hle⟩, hnot⟩ := (hmembers c).mp hc
    constructor
    · exact hmem c hc
    · intro b hb hcb
      rcases mem_cons.mp hb with rfl | hb
      · exact hnot hcb
      · exact hnot (hcb.trans (hblues.below b hb).1)
    · -- a candidate above the selected parent would put it below another parent
      intro hspc
      have heq : sp = p := hparents.antichain sp hsp p hp (hspc.trans hle)
      exact hnot (heq ▸ hle)
  obtain ⟨d, hfold, hchoosing, hparent, hdblues, hdreds⟩ :=
    foldlM_color h.layered hexact h.chains mergeset _ (hblues.start hstored) hcandidates hordered
  have hparent : d.selectedParent = sp := hparent
  have hworks := mapM_workOf (D := D) h.chains.origin hchoosing.stored
  have hstore : (D.manager blocks).ghostdagStore sp = some (D.data sp) := if_pos hstored
  have hlt : ¬ 2 ^ 16 ≤ (D.manager blocks).k + 1 := Nat.not_le.mpr hk
  refine ⟨{ d with
    blueScore := (D.data sp).blueScore + d.mergesetBlues.length
    blueWork := ((D.data sp).blueWork + (d.mergesetBlues.map D.work).sum) % 2 ^ 192 },
    mergeset, blues, ?_, ?_⟩
  · rw [GhostdagManager.ghostdag, hselected]
    simp only [Option.bind_eq_bind, Option.bind_some, if_neg hlt, hmergeset, hfold, hstore, hworks]
  · constructor
    · exact hparent ▸ hsp
    · exact hparent ▸ hhighest
    · exact hparent ▸ hmembers
    · exact hsorted
    · exact hparent ▸ hdblues
    · exact hparent ▸ hdreds
    · exact ⟨hchoosing.chain, hchoosing.parent, hchoosing.head, hchoosing.nodup, hchoosing.stored,
        fun b hb => (hchoosing.sizes b hb).congr rfl rfl, hchoosing.cluster⟩
    · change (D.data sp).blueScore + d.mergesetBlues.length = (d.mergesetBlues ++ blues).length
      rw [hblues.score, length_append, Nat.add_comm]
    · exact hparent ▸ rfl

omit [LinearOrder H] in
theorem Exact.mono {blocks' : List H} (h : D.Exact blocks') (hsub : blocks ⊆ blocks') :
    D.Exact blocks := fun a ha b hb => h a (hsub ha) b (hsub hb)

theorem Choosing.mono {blues blocks' : List H}
    (h : D.Choosing blocks d blues) (hsub : blocks ⊆ blocks') : D.Choosing blocks' d blues where
  chain := h.chain
  parent := hsub h.parent
  head := h.head
  nodup := h.nodup
  stored := fun b hb => hsub (h.stored b hb)
  sizes := h.sizes
  cluster := h.cluster

theorem Colored.mono {ps blues blocks' : List H}
    (h : D.Colored blocks ps d mergeset blues) (hsub : blocks ⊆ blocks') :
    D.Colored blocks' ps d mergeset blues :=
  { h with choosing := h.choosing.mono hsub }

theorem Colored.blueWork_lt {ps blues : List H}
    (h : D.Colored blocks ps d mergeset blues) (hwork : ∀ b ∈ blocks, 0 < D.work b)
    (hfits : D.blueWork d.selectedParent + (d.mergesetBlues.map D.work).sum < 2 ^ 192)
    {p : H} (hp : p ∈ ps) : D.blueWork p < d.blueWork := by
  obtain ⟨rest, hhead, _⟩ := h.choosing.head
  have hle : D.blueWork p ≤ D.blueWork d.selectedParent := by
    rcases Prod.Lex.toLex_le_toLex.mp (h.highest p hp) with hlt | ⟨heq, _⟩
    · exact hlt.le
    · exact heq.le
  have hpos := hwork _ h.choosing.parent
  have hsum : D.work d.selectedParent ≤ (d.mergesetBlues.map D.work).sum := by
    rw [hhead, map_cons, sum_cons]
    exact Nat.le_add_right _ _
  rw [h.work, Nat.mod_eq_of_lt hfits]
  omega

theorem Valid.add (h : D.Valid blocks) {b : H} {mergeset blues : List H}
    (horigin : b ≠ D.origin) (hparents : D.Parents blocks (D.parents b))
    (hcolored : D.Colored blocks (D.parents b) (D.data b) mergeset blues)
    (hlt : ∀ p ∈ D.parents b, D.blueWork p < D.blueWork b) : D.Valid (b :: blocks) := by
  have hsub : blocks ⊆ b :: blocks := subset_cons_self b blocks
  obtain ⟨rest, hhead, _⟩ := hcolored.choosing.head
  have hsp := hcolored.parent_mem
  have hedge : ∀ {x p : H}, p ∈ D.parents b → D.Le x p → D.Le x b := fun hp hle => hle.tail hp
  constructor
  · -- blue work grows along every edge
    constructor
    · exact forall_mem_cons.mpr ⟨fun p hp => hsub (hparents.stored p hp),
        fun c hc p hp => hsub (h.layered.closed c hc p hp)⟩
    · exact hsub h.layered.genesis_mem
    · have hle := h.layered.genesis_le _ (hparents.stored _ hsp)
      exact forall_mem_cons.mpr ⟨hedge hsp hle, h.layered.genesis_le⟩
    · exact forall_mem_cons.mpr ⟨hlt, h.layered.grows⟩
  · -- the chains
    constructor
    · exact forall_mem_cons.mpr ⟨fun _ => hsub hcolored.choosing.parent,
        fun c hc hne => hsub (h.chains.parent c hc hne)⟩
    · refine forall_mem_cons.mpr ⟨fun _ => ?_, h.chains.blues_ne⟩
      rw [hhead]
      exact cons_ne_nil _ _
    · refine forall_mem_cons.mpr ⟨fun x hx => ?_, h.chains.blues_le⟩
      obtain ⟨p, hp, hle⟩ := hcolored.blue_lt hx
      exact hedge hp hle
    · exact forall_mem_cons.mpr ⟨fun _ => hedge hsp ReflTransGen.refl, h.chains.parent_le⟩
    · exact h.chains.genesis
    · exact not_mem_cons_of_ne_of_not_mem horigin.symm h.chains.origin
  · exact h.genesis
  · exact h.parents
  · refine forall_mem_cons.mpr ⟨fun _ => ⟨mergeset, blues, hcolored.mono hsub⟩, fun c hc hne => ?_⟩
    obtain ⟨mergeset', blues', hcolored'⟩ := h.colored c hc hne
    exact ⟨mergeset', blues', hcolored'.mono hsub⟩
  · exact forall_mem_cons.mpr ⟨hparents.antichain, h.antichain⟩

theorem valid_genesis (hdata : D.data D.genesis = (D.manager []).genesisGhostdagData)
    (hparents : D.parents D.genesis = []) (horigin : D.genesis ≠ D.origin) :
    D.Valid [D.genesis] := by
  have honly : ∀ {b : H}, b ∈ [D.genesis] → b = D.genesis := mem_singleton.mp
  constructor
  · constructor
    · intro b hb p hp
      rw [honly hb, hparents] at hp
      cases hp
    · exact mem_singleton_self _
    · intro b hb
      rw [honly hb]
      exact ReflTransGen.refl
    · intro b hb p hp
      rw [honly hb, hparents] at hp
      cases hp
  · constructor
    · intro b hb hne
      exact absurd (honly hb) hne
    · intro b hb hne
      exact absurd (honly hb) hne
    · intro b hb x hx
      rw [honly hb, hdata] at hx
      cases hx
    · intro b hb hne
      exact absurd (honly hb) hne
    · rw [hdata]
      rfl
    · intro hmem
      exact horigin (honly hmem).symm
  · exact hdata
  · exact hparents
  · intro b hb hne
    exact absurd (honly hb) hne
  · intro b hb p hp
    rw [honly hb, hparents] at hp
    cases hp

theorem lt_of_ghostdag_eq_some {ps : List H}
    (h : (D.manager blocks).ghostdag ps = some d) : D.k + 1 < 2 ^ 16 := by
  by_contra hk
  have hle : 2 ^ 16 ≤ (D.manager blocks).k + 1 := Nat.not_lt.mp hk
  rw [GhostdagManager.ghostdag] at h
  simp only [if_pos hle] at h
  cases hsp : (D.manager blocks).findSelectedParent ps with
  | none | some => rw [hsp] at h; cases h

theorem Built.valid (hbuilt : D.Built blocks) (hexact : D.Exact blocks)
    (hwork : ∀ b ∈ blocks, 0 < D.work b) (hfits : D.NoOverflow blocks) : D.Valid blocks := by
  induction hbuilt with
  | genesis hdata hparents horigin => exact valid_genesis hdata hparents horigin
  | @add blocks b hbuilt hfresh horigin hparents hdata ih =>
    have hsub : blocks ⊆ b :: blocks := subset_cons_self b blocks
    have hvalid := ih (hexact.mono hsub) (fun x hx => hwork x (hsub hx))
      (fun x hx => hfits x (hsub hx))
    obtain ⟨d, mergeset, blues, hd, hcolored⟩ :=
      ghostdag_spec hvalid (hexact.mono hsub) hparents (lt_of_ghostdag_eq_some hdata)
    obtain rfl : d = D.data b := Option.some.inj (hd.symm.trans hdata)
    have hgenesis : b ≠ D.genesis := fun heq => hfresh (heq ▸ hvalid.layered.genesis_mem)
    apply hvalid.add horigin hparents hcolored
    intro p hp
    exact hcolored.blueWork_lt (fun x hx => hwork x (hsub hx)) (hfits b mem_cons_self hgenesis) hp

end BlockDag

end CryptixAtomic.Ghostdag
