import Mathlib.Tactic

/-!
# Ordering positions by readiness

The positions `0, …, n - 1` are emitted one after another, always the one of lowest
priority among those whose parents are all emitted. Parents are counted down when a
position is emitted. Positions on a cycle are never ready; they follow at the end, by
priority. Whatever the dependencies are, the result is a permutation of the positions.
-/
namespace Foundation

open List

variable {P : Type} [LinearOrder P]

/-- Count one parent of `child` as emitted, and collect the child when it was the last. -/
def release (r : (ℕ → ℕ) × List ℕ) (child : ℕ) : (ℕ → ℕ) × List ℕ :=
  let counts := Function.update r.1 child (r.1 child - 1)
  (counts, if counts child = 0 then r.2 ++ [child] else r.2)

/-- One round takes one entry from `ready`. -/
def readyLoop (priority : ℕ → P) (dependents : ℕ → List ℕ) :
    ℕ → (ℕ → ℕ) → List ℕ → List ℕ → List ℕ
  | 0, _, _, ordered => ordered
  | fuel + 1, counts, ready, ordered =>
    match ready.insertionSort fun a b => priority a ≤ priority b with
    | [] => ordered
    | pos :: rest =>
      if pos ∈ ordered then readyLoop priority dependents fuel counts rest ordered
      else
        let released := (dependents pos).foldl release (counts, [])
        readyLoop priority dependents fuel released.1 (rest ++ released.2) (ordered ++ [pos])

/-- An edge is a parent and a child. At most `n` entries are ready at the start, and
every edge makes at most one more. -/
def readyOrder (priority : ℕ → P) (n : ℕ) (edges : List (ℕ × ℕ)) : List ℕ :=
  let dependents := fun pos => (edges.filter fun e => e.1 = pos).map Prod.snd
  let counts := fun pos => edges.countP fun e => e.2 = pos
  let ready := (List.range n).filter fun pos => counts pos = 0
  let ordered := readyLoop priority dependents (n + edges.length + 1) counts ready []
  if ordered.length < n then
    ordered ++ ((List.range n).filter fun pos => pos ∉ ordered).insertionSort
      fun a b => priority a ≤ priority b
  else ordered

theorem mem_foldl_release {children : List ℕ} {r : (ℕ → ℕ) × List ℕ} {x : ℕ}
    (h : x ∈ (children.foldl release r).2) : x ∈ r.2 ∨ x ∈ children := by
  induction children generalizing r with
  | nil => exact .inl h
  | cons child children ih =>
    rcases ih h with h | h
    · rw [release] at h
      split_ifs at h
      · rcases mem_append.mp h with h | h
        · exact .inl h
        · exact .inr (mem_singleton.mp h ▸ mem_cons_self)
      · exact .inl h
    · exact .inr (mem_cons_of_mem child h)

theorem readyLoop_spec (priority : ℕ → P) {dependents : ℕ → List ℕ} {n : ℕ}
    (hrange : ∀ pos, ∀ child ∈ dependents pos, child < n) (fuel : ℕ) (counts : ℕ → ℕ)
    (ready ordered : List ℕ) (hready : ∀ pos ∈ ready, pos < n) (hnodup : ordered.Nodup)
    (hordered : ∀ pos ∈ ordered, pos < n) :
    (readyLoop priority dependents fuel counts ready ordered).Nodup ∧
      ∀ pos ∈ readyLoop priority dependents fuel counts ready ordered, pos < n := by
  induction fuel generalizing counts ready ordered with
  | zero => exact ⟨hnodup, hordered⟩
  | succ fuel ih =>
    have hperm := perm_insertionSort (fun a b => priority a ≤ priority b) ready
    rw [readyLoop]
    cases hsorted : ready.insertionSort fun a b => priority a ≤ priority b with
    | nil => exact ⟨hnodup, hordered⟩
    | cons pos rest =>
      rw [hsorted] at hperm
      have hpos : pos < n := hready pos (hperm.mem_iff.mp mem_cons_self)
      have hrest : ∀ x ∈ rest, x < n :=
        fun x hx => hready x (hperm.mem_iff.mp (mem_cons_of_mem pos hx))
      by_cases hmem : pos ∈ ordered
      · simp only [if_pos hmem]
        exact ih counts rest ordered hrest hnodup hordered
      · simp only [if_neg hmem]
        apply ih
        · intro x hx
          rcases mem_append.mp hx with hx | hx
          · exact hrest x hx
          · rcases mem_foldl_release hx with hx | hx
            · cases hx
            · exact hrange pos x hx
        · apply nodup_append.mpr
          refine ⟨hnodup, nodup_singleton pos, ?_⟩
          intro x hx y hy heq
          exact hmem (mem_singleton.mp hy ▸ heq ▸ hx)
        · intro x hx
          rcases mem_append.mp hx with hx | hx
          · exact hordered x hx
          · exact mem_singleton.mp hx ▸ hpos

theorem readyOrder_perm (priority : ℕ → P) (n : ℕ) (edges : List (ℕ × ℕ))
    (hedges : ∀ e ∈ edges, e.2 < n) : (readyOrder priority n edges).Perm (List.range n) := by
  have hrange : ∀ pos, ∀ child ∈ (edges.filter fun e => e.1 = pos).map Prod.snd, child < n := by
    intro pos child hchild
    obtain ⟨e, he, rfl⟩ := mem_map.mp hchild
    exact hedges e (mem_filter.mp he).1
  obtain ⟨hnodup, hordered⟩ := readyLoop_spec priority hrange (n + edges.length + 1)
    (fun pos => edges.countP fun e => e.2 = pos)
    ((List.range n).filter fun pos => (edges.countP fun e => e.2 = pos) = 0) []
    (fun pos hpos => mem_range.mp (mem_filter.mp hpos).1) nodup_nil (by simp)
  unfold readyOrder
  simp only
  generalize readyLoop priority _ _ _ _ _ = ordered at hnodup hordered ⊢
  have hsub : ordered ⊆ List.range n := fun x hx => mem_range.mpr (hordered x hx)
  split_ifs with hlength
  · -- the rest follows by priority
    have hsorted := perm_insertionSort (fun a b => priority a ≤ priority b)
      ((List.range n).filter fun pos => pos ∉ ordered)
    apply (hsorted.append_left ordered).trans
    apply (perm_ext_iff_of_nodup _ nodup_range).mpr
    · intro x
      simp only [mem_append, mem_filter, decide_eq_true_eq, mem_range]
      constructor
      · rintro (hx | hx)
        · exact hordered x hx
        · exact hx.1
      · intro hx
        by_cases hmem : x ∈ ordered
        · exact .inl hmem
        · exact .inr ⟨hx, hmem⟩
    · apply nodup_append.mpr
      refine ⟨hnodup, nodup_range.filter _, ?_⟩
      rintro x hx y hy rfl
      exact absurd hx (of_decide_eq_true (mem_filter.mp hy).2)
  · apply (hnodup.subperm hsub).perm_of_length_le
    rw [length_range]
    exact Nat.not_lt.mp hlength

end Foundation
