import CryptixAtomic.Foundation.ReadyOrder

/-!
# What the ready order is

As long as a member has all it depends on emitted, the one of lowest priority is emitted
next; the others follow by priority. With distinct priorities this describes one list only,
which the counting loop computes, and a member without a cycle behind it comes after all it
depends on.
-/
namespace Foundation

open List Relation Function

variable {α β P : Type} [LinearOrder P]

/-- `x` can be emitted after `l`. -/
def Free (members : Set α) (dep : α → α → Prop) (l : List α) (x : α) : Prop :=
  x ∈ members ∧ x ∉ l ∧ ∀ p, dep p x → p ∈ l

/-- Each entry has the lowest priority of those that could be emitted in its place. -/
inductive Emitted (members : Set α) (dep : α → α → Prop) (priority : α → P) : List α → Prop
  | nil : Emitted members dep priority []
  | snoc {l : List α} {x : α} (before : Emitted members dep priority l)
      (free : Free members dep l x)
      (least : ∀ y, Free members dep l y → priority x ≤ priority y) :
      Emitted members dep priority (l ++ [x])

structure IsReadyOrder (members : Set α) (dep : α → α → Prop) (priority : α → P)
    (l rest : List α) : Prop where
  emitted : Emitted members dep priority l
  exhausted : ∀ x, ¬ Free members dep l x
  nodup : rest.Nodup
  mem_rest : ∀ x, x ∈ rest ↔ x ∈ members ∧ x ∉ l
  sorted : rest.Pairwise fun a b => priority a ≤ priority b

variable {l : List α}

variable {rest : List α}

section Spec

variable {members : Set α} {dep : α → α → Prop} {priority : α → P}
variable {l : List α} {x : α}

theorem Emitted.free_of_eq (h : Emitted members dep priority l) {a b : List α}
    (heq : l = a ++ x :: b) : Free members dep a x := by
  induction h generalizing b with
  | nil => simp at heq
  | @snoc l y before free least ih =>
    rcases eq_nil_or_concat b with rfl | ⟨b, z, rfl⟩
    · obtain ⟨rfl, hxy⟩ := append_inj' heq rfl
      obtain rfl := singleton_inj.mp hxy
      exact free
    · rw [concat_eq_append, ← cons_append, ← append_assoc] at heq
      exact ih (append_inj' heq rfl).1

theorem Emitted.mem (h : Emitted members dep priority l) (hx : x ∈ l) :
    x ∈ members := by
  obtain ⟨a, b, heq⟩ := append_of_mem hx
  exact (h.free_of_eq heq).1

theorem Emitted.nodup (h : Emitted members dep priority l) : l.Nodup := by
  induction h with
  | nil => exact nodup_nil
  | snoc before free least ih => exact nodup_append_comm.mp (ih.cons free.2.1)

theorem Emitted.isPrefix (hinj : Set.InjOn priority members) {k : List α}
    (hl : Emitted members dep priority l) (hk : Emitted members dep priority k)
    (hlength : l.length ≤ k.length) : l <+: k := by
  induction hk generalizing l with
  | nil =>
    obtain rfl := length_eq_zero_iff.mp (Nat.le_zero.mp hlength)
    exact nil_prefix
  | @snoc k x before free least ih =>
    rw [length_append, length_singleton] at hlength
    rcases Nat.le_succ_iff.mp hlength with hlength | hlength
    · exact (ih hl hlength).trans (prefix_append k [x])
    · cases hl with
      | nil => exact nil_prefix
      | @snoc l y before' free' least' =>
        rw [length_append, length_singleton] at hlength
        obtain rfl := (ih before' (by omega)).eq_of_length (by omega)
        have hle := le_antisymm (least' x free) (least y free')
        rw [hinj free'.1 free.1 hle]

theorem Emitted.eq_of_exhausted (hinj : Set.InjOn priority members) {k : List α}
    (hl : Emitted members dep priority l) (hk : Emitted members dep priority k)
    (hexhausted : ∀ x, ¬ Free members dep l x) (hlength : l.length ≤ k.length) : l = k := by
  obtain ⟨t, rfl⟩ := hl.isPrefix hinj hk hlength
  cases t with
  | nil => rw [append_nil]
  | cons x => exact absurd (hk.free_of_eq rfl) (hexhausted x)

theorem IsReadyOrder.unique (hinj : Set.InjOn priority members) {k rest' : List α}
    (h : IsReadyOrder members dep priority l rest)
    (h' : IsReadyOrder members dep priority k rest') : l = k ∧ rest = rest' := by
  have hemitted : l = k := by
    rcases Nat.le_total l.length k.length with hlength | hlength
    · exact h.emitted.eq_of_exhausted hinj h'.emitted h.exhausted hlength
    · exact (h'.emitted.eq_of_exhausted hinj h.emitted h'.exhausted hlength).symm
  subst hemitted
  have hmem : ∀ x, x ∈ rest ↔ x ∈ rest' := fun x => (h.mem_rest x).trans (h'.mem_rest x).symm
  have hperm := (perm_ext_iff_of_nodup h.nodup h'.nodup).mpr hmem
  refine ⟨rfl, Perm.eq_of_pairwise ?_ h.sorted h'.sorted hperm⟩
  intro a b ha hb hab hba
  exact hinj ((h.mem_rest a).mp ha).1 ((h'.mem_rest b).mp hb).1 (le_antisymm hab hba)

/-- A member with no cycle behind it is emitted: a set of members that are all waiting
has one that waits for nothing in the set. -/
theorem IsReadyOrder.mem_emitted (h : IsReadyOrder members dep priority l rest)
    (hfinite : members.Finite) (hclosed : ∀ p x, dep p x → p ∈ members) (hx : x ∈ members)
    (hacyclic : ∀ y, TransGen dep y x → ¬ TransGen dep y y) : x ∈ l := by
  by_contra hwaits
  let waiting : Set α := {y | y ∈ members ∧ y ∉ l ∧ ReflTransGen dep y x}
  have : Finite waiting := (hfinite.subset fun y hy => hy.1).to_subtype
  let behind : waiting → waiting → Prop := fun y z => TransGen dep y.1 z.1
  have : IsTrans waiting behind := ⟨fun _ _ _ hyz hzw => hyz.trans hzw⟩
  have : Std.Irrefl behind := by
    constructor
    rintro ⟨y, _, _, hyx⟩ hyy
    rcases reflTransGen_iff_eq_or_transGen.mp hyx with rfl | hyx
    · exact hacyclic x hyy hyy
    · exact hacyclic y hyx hyy
  obtain ⟨⟨y, hy, hyl, hyx⟩, -, hleast⟩ := (Finite.wellFounded_of_trans_of_irrefl behind).has_min
    Set.univ ⟨⟨x, hx, hwaits, .refl⟩, trivial⟩
  -- what `y` waits for is waiting too
  have hparent : ∃ p, dep p y ∧ p ∉ l := by
    by_contra hnone
    push Not at hnone
    exact h.exhausted y ⟨hy, hyl, hnone⟩
  obtain ⟨p, hp, hpl⟩ := hparent
  exact hleast ⟨p, hclosed p y hp, hpl, hyx.head hp⟩ trivial (.single hp)

theorem IsReadyOrder.after_dependencies
    (h : IsReadyOrder members dep priority l rest) (hfinite : members.Finite)
    (hclosed : ∀ p x, dep p x → p ∈ members) (hx : x ∈ members)
    (hacyclic : ∀ y, TransGen dep y x → ¬ TransGen dep y y) :
    ∃ a b, l ++ rest = a ++ x :: b ∧ ∀ p, dep p x → p ∈ a := by
  obtain ⟨a, b, heq⟩ := append_of_mem (h.mem_emitted hfinite hclosed hx hacyclic)
  refine ⟨a, b ++ rest, by simp [heq], ?_⟩
  exact (h.emitted.free_of_eq heq).2.2

end Spec

section Relabel

variable {members : Set α} {dep : α → α → Prop} {priority : α → P} {f : α → β}
  {dep' : β → β → Prop} {priority' : β → P}

theorem free_map_iff (hinj : Set.InjOn f members) (hclosed : ∀ p x, dep p x → p ∈ members)
    (hdep : ∀ x ∈ members, ∀ q, dep' q (f x) ↔ ∃ p, dep p x ∧ q = f p)
    (hl : ∀ y ∈ l, y ∈ members) (z : β) :
    Free (f '' members) dep' (l.map f) z ↔ ∃ x, Free members dep l x ∧ z = f x := by
  have hmem : ∀ x ∈ members, f x ∈ l.map f ↔ x ∈ l := by
    intro x hx
    constructor
    · intro h
      obtain ⟨y, hy, heq⟩ := mem_map.mp h
      exact hinj (hl y hy) hx heq ▸ hy
    · exact mem_map_of_mem
  constructor
  · rintro ⟨⟨x, hx, rfl⟩, hnew, hdeps⟩
    refine ⟨x, ⟨hx, fun h => hnew ((hmem x hx).mpr h), ?_⟩, rfl⟩
    intro p hp
    exact (hmem p (hclosed p x hp)).mp (hdeps (f p) ((hdep x hx (f p)).mpr ⟨p, hp, rfl⟩))
  · rintro ⟨x, ⟨hx, hnew, hdeps⟩, rfl⟩
    refine ⟨⟨x, hx, rfl⟩, fun h => hnew ((hmem x hx).mp h), ?_⟩
    intro q hq
    obtain ⟨p, hp, rfl⟩ := (hdep x hx q).mp hq
    exact mem_map_of_mem (hdeps p hp)

theorem Emitted.map (hinj : Set.InjOn f members) (hclosed : ∀ p x, dep p x → p ∈ members)
    (hdep : ∀ x ∈ members, ∀ q, dep' q (f x) ↔ ∃ p, dep p x ∧ q = f p)
    (hpriority : ∀ x ∈ members, priority' (f x) = priority x) (h : Emitted members dep priority l) :
    Emitted (f '' members) dep' priority' (l.map f) := by
  induction h with
  | nil => exact .nil
  | @snoc l x before free least ih =>
    have hfree := free_map_iff hinj hclosed hdep (fun y hy => before.mem hy)
    rw [map_append, map_singleton]
    apply ih.snoc ((hfree (f x)).mpr ⟨x, free, rfl⟩)
    intro z hz
    obtain ⟨y, hy, rfl⟩ := (hfree z).mp hz
    rw [hpriority x free.1, hpriority y hy.1]
    exact least y hy

theorem IsReadyOrder.map (hinj : Set.InjOn f members) (hclosed : ∀ p x, dep p x → p ∈ members)
    (hdep : ∀ x ∈ members, ∀ q, dep' q (f x) ↔ ∃ p, dep p x ∧ q = f p)
    (hpriority : ∀ x ∈ members, priority' (f x) = priority x)
    (h : IsReadyOrder members dep priority l rest) :
    IsReadyOrder (f '' members) dep' priority' (l.map f) (rest.map f) where
  emitted := h.emitted.map hinj hclosed hdep hpriority
  exhausted := by
    intro z hz
    obtain ⟨x, hx, -⟩ := (free_map_iff hinj hclosed hdep (fun y hy => h.emitted.mem hy) z).mp hz
    exact h.exhausted x hx
  nodup := by
    apply h.nodup.map_on
    intro x hx y hy heq
    exact hinj ((h.mem_rest x).mp hx).1 ((h.mem_rest y).mp hy).1 heq
  mem_rest := by
    intro z
    constructor
    · intro hz
      obtain ⟨x, hx, rfl⟩ := mem_map.mp hz
      obtain ⟨hmem, hnew⟩ := (h.mem_rest x).mp hx
      refine ⟨⟨x, hmem, rfl⟩, fun hz => hnew ?_⟩
      obtain ⟨y, hy, heq⟩ := mem_map.mp hz
      exact hinj (h.emitted.mem hy) hmem heq ▸ hy
    · rintro ⟨⟨x, hmem, rfl⟩, hnew⟩
      apply mem_map_of_mem
      exact (h.mem_rest x).mpr ⟨hmem, fun hx => hnew (mem_map_of_mem hx)⟩
  sorted := by
    apply pairwise_map.mpr
    apply h.sorted.imp_of_mem
    intro x y hx hy hle
    rwa [hpriority x ((h.mem_rest x).mp hx).1, hpriority y ((h.mem_rest y).mp hy).1]

end Relabel

variable (children : List ℕ)

variable (r : (ℕ → ℕ) × List ℕ)

theorem foldl_release_counts (x : ℕ) :
    (children.foldl release r).1 x = r.1 x - children.count x := by
  induction children generalizing r with
  | nil => simp
  | cons child children ih =>
    rw [foldl_cons, ih, count_cons]
    by_cases heq : child = x
    · subst heq
      simp only [release, update_self, beq_self_eq_true, if_true]
      omega
    · simp [release, update_of_ne (Ne.symm heq), heq]

theorem foldl_release_length :
    (children.foldl release r).2.length ≤ r.2.length + children.length := by
  induction children generalizing r with
  | nil => simp
  | cons child children ih =>
    have hstep : (release r child).2.length ≤ r.2.length + 1 := by
      simp only [release]
      split_ifs <;> simp
    have hrest := ih (release r child)
    rw [foldl_cons, length_cons]
    omega

theorem subset_foldl_release : r.2 ⊆ (children.foldl release r).2 := by
  induction children generalizing r with
  | nil => exact fun x hx => hx
  | cons child children ih =>
    intro x hx
    apply ih (release r child)
    simp only [release]
    split_ifs
    · exact mem_append_left _ hx
    · exact hx

/-- A child is collected exactly when it is counted down to zero. -/
theorem mem_foldl_release_iff {children : List ℕ} {r : (ℕ → ℕ) × List ℕ} {x : ℕ} (hx : x ∉ r.2) :
    x ∈ (children.foldl release r).2 ↔ x ∈ children ∧ r.1 x ≤ children.count x := by
  induction children generalizing r with
  | nil => simp [hx]
  | cons child children ih =>
    rw [foldl_cons]
    by_cases heq : child = x
    · subst heq
      have hcounts : (release r child).1 child = r.1 child - 1 := by simp [release]
      by_cases hzero : r.1 child - 1 = 0
      · have hcollected : child ∈ (release r child).2 := by simp [release, hzero]
        have hlist := subset_foldl_release children _ hcollected
        simp only [hlist, mem_cons, true_or, count_cons_self, true_and, true_iff]
        omega
      · have hnew : child ∉ (release r child).2 := by simp [release, hzero, hx]
        rw [ih hnew, hcounts]
        simp only [mem_cons, true_or, true_and, count_cons_self]
        constructor
        · omega
        · intro hle
          exact ⟨count_pos_iff.mp (by omega), by omega⟩
    · have hnew : x ∉ (release r child).2 := by
        simp only [release]
        split_ifs
        · simp [hx, Ne.symm heq]
        · exact hx
      have hcounts : (release r child).1 x = r.1 x := by
        simp [release, update_of_ne (Ne.symm heq)]
      rw [ih hnew, hcounts, count_cons_of_ne heq]
      simp [Ne.symm heq]

section Loop

variable {priority : ℕ → P} {n : ℕ} {edges : List (ℕ × ℕ)}

def pendingEdges (edges : List (ℕ × ℕ)) (ordered : List ℕ) : List (ℕ × ℕ) :=
  edges.filter fun e => e.1 ∉ ordered

/-- What the rounds of the loop keep. Entries of `ready` may have been emitted already. -/
structure LoopState (priority : ℕ → P) (n : ℕ) (edges : List (ℕ × ℕ)) (counts : ℕ → ℕ)
    (ready ordered : List ℕ) : Prop where
  emitted : Emitted (Set.Iio n) (fun p c => (p, c) ∈ edges) priority ordered
  counts_eq : ∀ c, counts c = (pendingEdges edges ordered).countP fun e => e.2 = c
  ready_free : ∀ x ∈ ready, x < n ∧ ∀ p, (p, x) ∈ edges → p ∈ ordered
  free_ready : ∀ x, Free (Set.Iio n) (fun p c => (p, c) ∈ edges) ordered x → x ∈ ready

/-- A position without a pending edge has all its parents emitted. -/
theorem countP_pendingEdges_eq_zero_iff {ordered : List ℕ} {c : ℕ} :
    ((pendingEdges edges ordered).countP fun e => e.2 = c) = 0 ↔
      ∀ p, (p, c) ∈ edges → p ∈ ordered := by
  rw [countP_eq_zero]
  constructor
  · intro h p hp
    by_contra hnot
    exact h (p, c) (mem_filter.mpr ⟨hp, by simpa using hnot⟩) (by simp)
  · rintro h ⟨p, d⟩ he hd
    obtain ⟨he, hnot⟩ := mem_filter.mp he
    obtain rfl : d = c := of_decide_eq_true hd
    exact of_decide_eq_true hnot (h p he)

theorem countP_pendingEdges_snoc {ordered : List ℕ} {pos : ℕ} (hnew : pos ∉ ordered) (c : ℕ) :
    ((pendingEdges edges ordered).countP fun e => e.2 = c) =
      ((pendingEdges edges (ordered ++ [pos])).countP fun e => e.2 = c) +
        ((edges.filter fun e => e.1 = pos).map Prod.snd).count c := by
  rw [count_eq_countP, countP_map, pendingEdges, pendingEdges, countP_filter,
    countP_filter, countP_filter]
  induction edges with
  | nil => simp
  | cons e edges ih =>
    simp only [countP_cons, ih, comp_apply]
    by_cases hpos : e.1 = pos
    · simp [hpos, hnew]
      omega
    · simp [hpos]
      omega

theorem length_pendingEdges_snoc {ordered : List ℕ} {pos : ℕ} (hnew : pos ∉ ordered) :
    (pendingEdges edges ordered).length = (pendingEdges edges (ordered ++ [pos])).length +
      (edges.filter fun e => e.1 = pos).length := by
  rw [pendingEdges, pendingEdges, ← countP_eq_length_filter, ← countP_eq_length_filter,
    ← countP_eq_length_filter]
  induction edges with
  | nil => simp
  | cons e edges ih =>
    simp only [countP_cons, ih]
    by_cases hpos : e.1 = pos
    · simp [hpos, hnew]
      omega
    · simp [hpos]
      omega

theorem LoopState.skip {counts : ℕ → ℕ} {ready rest ordered : List ℕ} {pos : ℕ}
    (h : LoopState priority n edges counts ready ordered) (hperm : (pos :: rest).Perm ready)
    (hmem : pos ∈ ordered) : LoopState priority n edges counts rest ordered where
  emitted := h.emitted
  counts_eq := h.counts_eq
  ready_free := fun x hx => h.ready_free x (hperm.mem_iff.mp (mem_cons_of_mem pos hx))
  free_ready := by
    intro x hx
    rcases mem_cons.mp (hperm.mem_iff.mpr (h.free_ready x hx)) with rfl | hx'
    · exact absurd hmem hx.2.1
    · exact hx'

/-- The first entry of the sorted list is emitted, and its children counted down. -/
theorem LoopState.emit (hedges : ∀ e ∈ edges, e.2 < n) {counts : ℕ → ℕ}
    {ready rest ordered : List ℕ} {pos : ℕ}
    (h : LoopState priority n edges counts ready ordered) (hperm : (pos :: rest).Perm ready)
    (hsorted : ∀ x ∈ rest, priority pos ≤ priority x) (hnew : pos ∉ ordered) :
    LoopState priority n edges
      (((edges.filter fun e => e.1 = pos).map Prod.snd).foldl release (counts, [])).1
      (rest ++ (((edges.filter fun e => e.1 = pos).map Prod.snd).foldl release (counts, [])).2)
      (ordered ++ [pos]) := by
  obtain ⟨hpos, hparents⟩ := h.ready_free pos (hperm.mem_iff.mp mem_cons_self)
  have hcounts : ∀ c, (((edges.filter fun e => e.1 = pos).map Prod.snd).foldl release
      (counts, [])).1 c = (pendingEdges edges (ordered ++ [pos])).countP fun e => e.2 = c := by
    intro c
    rw [foldl_release_counts]
    change counts c - _ = _
    rw [h.counts_eq, countP_pendingEdges_snoc hnew c, Nat.add_sub_cancel]
  have hreleased : ∀ x, x ∈ (((edges.filter fun e => e.1 = pos).map Prod.snd).foldl release
      (counts, [])).2 ↔ (pos, x) ∈ edges ∧ ∀ p, (p, x) ∈ edges → p ∈ ordered ++ [pos] := by
    intro x
    rw [mem_foldl_release_iff not_mem_nil, ← countP_pendingEdges_eq_zero_iff]
    change _ ∧ counts x ≤ _ ↔ _
    rw [h.counts_eq, countP_pendingEdges_snoc hnew x]
    have hmem : x ∈ (edges.filter fun e => e.1 = pos).map Prod.snd ↔ (pos, x) ∈ edges := by
      simp [mem_map, mem_filter]
    rw [hmem]
    apply and_congr_right
    intro _
    omega
  constructor
  · apply h.emitted.snoc ⟨hpos, hnew, hparents⟩
    intro y hy
    rcases mem_cons.mp (hperm.mem_iff.mpr (h.free_ready y hy)) with rfl | hy
    · exact le_rfl
    · exact hsorted y hy
  · exact hcounts
  · intro x hx
    rcases mem_append.mp hx with hx | hx
    · obtain ⟨hlt, hfree⟩ := h.ready_free x (hperm.mem_iff.mp (mem_cons_of_mem pos hx))
      exact ⟨hlt, fun p hp => mem_append_left _ (hfree p hp)⟩
    · obtain ⟨hedge, hfree⟩ := (hreleased x).mp hx
      exact ⟨hedges _ hedge, hfree⟩
  · rintro x ⟨hlt, hnot, hfree⟩
    rw [mem_append, mem_singleton, not_or] at hnot
    by_cases hbefore : ∀ p, (p, x) ∈ edges → p ∈ ordered
    · -- it was ready before
      have hready := h.free_ready x ⟨hlt, hnot.1, hbefore⟩
      rcases mem_cons.mp (hperm.mem_iff.mpr hready) with heq | hx
      · exact absurd heq hnot.2
      · exact mem_append_left _ hx
    · push Not at hbefore
      obtain ⟨p, hedge, hwaits⟩ := hbefore
      have hp := (mem_append.mp (hfree p hedge)).resolve_left hwaits
      obtain rfl := mem_singleton.mp hp
      exact mem_append_right _ ((hreleased x).mpr ⟨hedge, hfree⟩)

/-- With enough fuel the loop ends when nothing is free any more. A round takes one entry
from `ready`, and adds at most one for every edge it settles. -/
theorem readyLoop_exhausts (hedges : ∀ e ∈ edges, e.2 < n) (fuel : ℕ) {counts : ℕ → ℕ}
    {ready ordered : List ℕ} (h : LoopState priority n edges counts ready ordered)
    (hfuel : ready.length + (pendingEdges edges ordered).length < fuel) :
    ∃ l, readyLoop priority (fun pos => (edges.filter fun e => e.1 = pos).map Prod.snd) fuel counts
        ready ordered = l ∧
      Emitted (Set.Iio n) (fun p c => (p, c) ∈ edges) priority l ∧
      ∀ x, ¬ Free (Set.Iio n) (fun p c => (p, c) ∈ edges) l x := by
  induction fuel generalizing counts ready ordered with
  | zero => omega
  | succ fuel ih =>
    have hperm := perm_insertionSort (fun a b => priority a ≤ priority b) ready
    have hpairwise := @List.pairwise_insertionSort _ (fun a b : ℕ => priority a ≤ priority b) _
      ⟨fun a b => le_total (priority a) (priority b)⟩ ⟨fun _ _ _ => le_trans⟩ ready
    rw [readyLoop]
    cases hsorted : ready.insertionSort fun a b => priority a ≤ priority b with
    | nil =>
      rw [hsorted] at hperm
      refine ⟨ordered, rfl, h.emitted, ?_⟩
      intro x hx
      exact absurd (hperm.mem_iff.mpr (h.free_ready x hx)) not_mem_nil
    | cons pos =>
      rw [hsorted] at hperm hpairwise
      have hlength := hperm.length_eq
      rw [length_cons] at hlength
      by_cases hmem : pos ∈ ordered
      · simp only [if_pos hmem]
        exact ih (h.skip hperm hmem) (by omega)
      · simp only [if_neg hmem]
        apply ih (h.emit hedges hperm (pairwise_cons.mp hpairwise).1 hmem)
        have hpending := @length_pendingEdges_snoc edges ordered pos hmem
        have hreleased := foldl_release_length
          ((edges.filter fun e => e.1 = pos).map Prod.snd) (counts, [])
        rw [length_map, length_nil] at hreleased
        rw [length_append]
        omega

theorem readyOrder_isReadyOrder (priority : ℕ → P) {n : ℕ} {edges : List (ℕ × ℕ)}
    (hedges : ∀ e ∈ edges, e.2 < n) :
    ∃ l rest, readyOrder priority n edges = l ++ rest ∧
      IsReadyOrder (Set.Iio n) (fun p c => (p, c) ∈ edges) priority l rest := by
  have hstart : LoopState priority n edges (fun pos => edges.countP fun e => e.2 = pos)
      ((List.range n).filter fun pos => (edges.countP fun e => e.2 = pos) = 0) [] := by
    have hpending : pendingEdges edges [] = edges := by simp [pendingEdges]
    have hzero : ∀ x, (edges.countP fun e => e.2 = x) = 0 ↔ ∀ p, (p, x) ∈ edges → p ∈ [] := by
      intro x
      have hiff := @countP_pendingEdges_eq_zero_iff edges [] x
      rwa [hpending] at hiff
    constructor
    · exact .nil
    · intro c
      rw [hpending]
    · intro x hx
      obtain ⟨hlt, hcount⟩ := mem_filter.mp hx
      exact ⟨mem_range.mp hlt, (hzero x).mp (of_decide_eq_true hcount)⟩
    · rintro x ⟨hlt, -, hfree⟩
      exact mem_filter.mpr ⟨mem_range.mpr hlt, decide_eq_true ((hzero x).mpr hfree)⟩
  have hfuel : ((List.range n).filter fun pos =>
      (edges.countP fun e => e.2 = pos) = 0).length + (pendingEdges edges []).length <
        n + edges.length + 1 := by
    have hready := length_filter_le
      (fun pos => decide ((edges.countP fun e => e.2 = pos) = 0)) (List.range n)
    have hpending := length_filter_le (fun e : ℕ × ℕ => decide (e.1 ∉ [])) edges
    rw [length_range] at hready
    rw [pendingEdges]
    omega
  obtain ⟨l, hloop, hemitted, hexhausted⟩ := readyLoop_exhausts hedges _ hstart hfuel
  have hrest : IsReadyOrder (Set.Iio n) (fun p c => (p, c) ∈ edges) priority l
      (((List.range n).filter fun pos => pos ∉ l).insertionSort
        fun a b => priority a ≤ priority b) := by
    have hperm := perm_insertionSort (fun a b => priority a ≤ priority b)
      ((List.range n).filter fun pos => pos ∉ l)
    refine ⟨hemitted, hexhausted, hperm.nodup_iff.mpr (nodup_range.filter _), ?_, ?_⟩
    · intro x
      rw [hperm.mem_iff, mem_filter, mem_range, decide_eq_true_eq]
      exact Iff.rfl
    · exact @List.pairwise_insertionSort _ (fun a b : ℕ => priority a ≤ priority b) _
        ⟨fun a b => le_total (priority a) (priority b)⟩ ⟨fun _ _ _ => le_trans⟩ _
  refine ⟨l, _, ?_, hrest⟩
  unfold readyOrder
  simp only [hloop]
  split_ifs with hlength
  · rfl
  · -- everything was emitted
    have hsub : l ⊆ List.range n := fun x hx => mem_range.mpr (hemitted.mem hx)
    have hall := (hemitted.nodup.subperm hsub).perm_of_length_le
      (by rw [length_range]; exact Nat.not_lt.mp hlength)
    have hnone : ((List.range n).filter fun pos => pos ∉ l) = [] := by
      apply filter_eq_nil_iff.mpr
      intro x hx
      simpa using hall.mem_iff.mpr hx
    rw [hnone, insertionSort_nil, append_nil]

end Loop

end Foundation
