import Mathlib.Tactic

/-!
# Searching a finite graph with a queue

A search pops the head of a queue and appends those of its successors that were not found
before, to the queue and to the list of found elements. `SearchInvariant` is what holds
between two rounds; with an empty queue the found elements are closed under successors. One
unit of fuel per element is enough. `breadthFirst` is the search from one element, which is
in the result only on a cycle.
-/
namespace Foundation

open List Relation

theorem mapM_eq_some_map {α β : Type} {read : α → Option β} {value : α → β} {as : List α}
    (h : ∀ a ∈ as, read a = some (value a)) : as.mapM read = some (as.map value) := by
  induction as with
  | nil => rfl
  | cons a as ih =>
    rw [mapM_cons, h a mem_cons_self, ih fun b hb => h b (mem_cons_of_mem a hb)]
    rfl

section Search

variable {α : Type} {edge : α → α → Prop} {seed reached : α → Prop} {nodes : Finset α}

/-- The found elements are distinct, legitimate and inside a finite set, and the
successors of everything met so far are found already unless the element still
waits in the queue. The search starts from the elements of `seed`. -/
structure SearchInvariant (edge : α → α → Prop) (seed reached : α → Prop) (nodes : Finset α)
    (queue found : List α) : Prop where
  nodup : found.Nodup
  inside : ∀ b ∈ found, b ∈ nodes
  reachable : ∀ b ∈ found, reached b
  queued : ∀ a ∈ queue, seed a ∨ a ∈ found
  expanded : ∀ a, seed a ∨ a ∈ found → a ∈ queue ∨ ∀ b, edge a b → b ∈ found

theorem SearchInvariant.step {a : α} {queue found fresh : List α}
    (h : SearchInvariant edge seed reached nodes (a :: queue) found)
    (hclosed : ∀ x y, seed x ∨ reached x → edge x y → reached y ∧ y ∈ nodes)
    (hfresh : fresh.Nodup) (hnew : ∀ b ∈ fresh, b ∉ found) (hedge : ∀ b ∈ fresh, edge a b)
    (hcover : ∀ b, edge a b → b ∈ found ∨ b ∈ fresh) :
    SearchInvariant edge seed reached nodes (queue ++ fresh) (found ++ fresh) := by
  have hlegit : ∀ b ∈ fresh, reached b ∧ b ∈ nodes := by
    intro b hb
    apply hclosed a b _ (hedge b hb)
    rcases h.queued a mem_cons_self with ha | ha
    · exact .inl ha
    · exact .inr (h.reachable a ha)
  constructor
  · apply h.nodup.append hfresh
    intro b hb hb'
    exact hnew b hb' hb
  · intro b hb
    rcases mem_append.mp hb with hb | hb
    · exact h.inside b hb
    · exact (hlegit b hb).2
  · intro b hb
    rcases mem_append.mp hb with hb | hb
    · exact h.reachable b hb
    · exact (hlegit b hb).1
  · intro b hb
    rcases mem_append.mp hb with hb | hb
    · rcases h.queued b (mem_cons_of_mem a hb) with hb | hb
      · exact .inl hb
      · exact .inr (mem_append_left _ hb)
    · exact .inr (mem_append_right _ hb)
  · intro b hb
    by_cases hbfresh : b ∈ fresh
    · exact .inl (mem_append_right _ hbfresh)
    have hold : seed b ∨ b ∈ found := by
      rcases hb with hb | hb
      · exact .inl hb
      · exact .inr ((mem_append.mp hb).resolve_right hbfresh)
    rcases h.expanded b hold with hqueue | hnext
    · rcases mem_cons.mp hqueue with rfl | hqueue
      · exact .inr fun c hc => mem_append.mpr (hcover c hc)
      · exact .inl (mem_append_left _ hqueue)
    · exact .inr fun c hc => mem_append_left _ (hnext c hc)

theorem SearchInvariant.queue_eq_nil {queue found : List α}
    (h : SearchInvariant edge seed reached nodes queue found)
    (hfuel : queue.length + nodes.card ≤ found.length) : queue = [] := by
  classical
  have hcard : found.length ≤ nodes.card := by
    rw [← toFinset_card_of_nodup h.nodup]
    apply Finset.card_le_card
    intro b hb
    exact h.inside b (mem_toFinset.mp hb)
  exact length_eq_zero_iff.mp (by omega)

theorem SearchInvariant.closed {found : List α}
    (h : SearchInvariant edge seed reached nodes [] found) {a b : α} (ha : seed a ∨ a ∈ found)
    (hab : edge a b) : b ∈ found := by
  rcases h.expanded a ha with hqueue | hnext
  · exact absurd hqueue not_mem_nil
  · exact hnext b hab

end Search

section BreadthFirst

variable {α : Type} [DecidableEq α] (next : α → List α)

def breadthFirst : ℕ → List α → List α → List α
  | 0, _, found => found
  | _ + 1, [], found => found
  | fuel + 1, a :: queue, found =>
    let fresh := (next a).filter (· ∉ found)
    breadthFirst fuel (queue ++ fresh) (found ++ fresh)

variable {next} {start : α} {nodes : Finset α}

theorem breadthFirst_invariant (hnodup : ∀ a, (next a).Nodup)
    (hnodes : ∀ a, ∀ b ∈ next a, b ∈ nodes) (fuel : ℕ) {queue found : List α}
    (h : SearchInvariant (fun x y => y ∈ next x) (· = start)
      (TransGen (fun x y => y ∈ next x) start) nodes queue found)
    (hfuel : queue.length + nodes.card ≤ fuel + found.length) :
    SearchInvariant (fun x y => y ∈ next x) (· = start)
      (TransGen (fun x y => y ∈ next x) start) nodes []
      (breadthFirst next fuel queue found) := by
  induction fuel generalizing queue found with
  | zero =>
    have hqueue := h.queue_eq_nil (by omega)
    rw [hqueue] at h
    exact h
  | succ fuel ih =>
    cases queue with
    | nil => exact h
    | cons a =>
      rw [breadthFirst]
      apply ih
      · apply h.step
        · intro x y hx hxy
          refine ⟨?_, hnodes x y hxy⟩
          rcases hx with rfl | hx
          · exact TransGen.single hxy
          · exact hx.tail hxy
        · exact (hnodup a).filter _
        · intro b hb
          simpa using (mem_filter.mp hb).2
        · intro b hb
          exact (mem_filter.mp hb).1
        · intro b hb
          by_cases hfound : b ∈ found
          · exact .inl hfound
          · exact .inr (mem_filter.mpr ⟨hb, by simpa using hfound⟩)
      · simp only [length_append, length_cons] at hfuel ⊢
        omega

theorem breadthFirst_spec (hnodup : ∀ a, (next a).Nodup)
    (hnodes : ∀ a, ∀ b ∈ next a, b ∈ nodes) {fuel : ℕ} (hfuel : nodes.card < fuel) :
    (breadthFirst next fuel [start] []).Nodup ∧ ∀ b, b ∈ breadthFirst next fuel [start] [] ↔
        TransGen (fun x y => y ∈ next x) start b := by
  have hinit : SearchInvariant (fun x y => y ∈ next x) (· = start)
      (TransGen (fun x y => y ∈ next x) start) nodes [start] [] := by
    constructor
    · exact nodup_nil
    · simp
    · simp
    · intro a ha
      exact .inl (mem_singleton.mp ha)
    · intro a ha
      rcases ha with rfl | ha
      · exact .inl (mem_singleton.mpr rfl)
      · exact absurd ha not_mem_nil
  have hend := breadthFirst_invariant hnodup hnodes fuel hinit
    (by simp only [length_singleton, length_nil]; omega)
  refine ⟨hend.nodup, fun b => ⟨hend.reachable b, ?_⟩⟩
  intro hb
  induction hb with
  | single hedge => exact hend.closed (.inl rfl) hedge
  | tail _ hedge ih => exact hend.closed (.inr ih) hedge

end BreadthFirst

end Foundation
