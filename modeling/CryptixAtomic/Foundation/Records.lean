import Mathlib.Tactic

/-!
# Record values along a list

`records f level l` walks a list and keeps every element whose score exceeds the
best score seen so far, starting from `level`. A walk can be cut at any place:
what the second part keeps depends on the first part only through the score it
reached. The last facts are about the last element that passes a test which, once
failed, fails for good.
-/
namespace Foundation

open List

section Records

variable {α : Type} (f : α → ℕ)

def records (level : ℕ) : List α → List α
  | [] => []
  | x :: xs => if level < f x then x :: records (f x) xs else records level xs

/-- The score reached after a list. -/
def reached (level : ℕ) (l : List α) : ℕ := l.foldl (fun best x => max best (f x)) level

variable {f} {level : ℕ} {l : List α}

theorem records_append (level : ℕ) (a b : List α) :
    records f level (a ++ b) = records f level a ++ records f (reached f level a) b := by
  induction a generalizing level with
  | nil => rfl
  | cons x xs ih =>
    simp only [cons_append, records, reached, foldl_cons]
    split_ifs with h
    · rw [ih, max_eq_right h.le]
      rfl
    · rw [ih, max_eq_left (not_lt.mp h)]
      rfl

theorem records_sublist (level : ℕ) (l : List α) : (records f level l).Sublist l := by
  induction l generalizing level with
  | nil => exact Sublist.refl []
  | cons x xs ih =>
    rw [records]
    split_ifs
    · exact (ih (f x)).cons_cons x
    · exact (ih level).cons x

theorem lt_of_mem_records {x : α} (h : x ∈ records f level l) : level < f x := by
  induction l generalizing level with
  | nil => cases h
  | cons y ys ih =>
    rw [records] at h
    split_ifs at h with hy
    · rcases mem_cons.mp h with rfl | h
      · exact hy
      · exact hy.trans (ih h)
    · exact ih h

theorem records_split {pre post : List α} {x : α} (hnodup : (pre ++ x :: post).Nodup)
    (hx : x ∈ records f level (pre ++ x :: post)) :
    records f level (pre ++ x :: post) = records f level pre ++ x :: records f (f x) post := by
  have hpre : x ∉ pre := by
    intro hmem
    exact disjoint_of_nodup_append hnodup hmem mem_cons_self
  have hpost : x ∉ post := (nodup_cons.mp hnodup.of_append_right).1
  rw [records_append, records]
  split_ifs with h
  · rfl
  · -- otherwise `x` would have to be kept before or after its only occurrence
    rw [records_append, records, if_neg h] at hx
    rcases mem_append.mp hx with hx | hx
    · exact absurd ((records_sublist level pre).subset hx) hpre
    · exact absurd ((records_sublist _ post).subset hx) hpost

theorem reached_of_records_eq_nil (h : records f level l = []) : reached f level l = level := by
  induction l generalizing level with
  | nil => rfl
  | cons x xs ih =>
    rw [records] at h
    split_ifs at h with hx
    rw [reached, foldl_cons, max_eq_left (not_lt.mp hx)]
    exact ih h

variable {p : α → Bool}

/-- A test that stays failed once it failed. -/
def Fading (p : α → Bool) (l : List α) : Prop := l.Pairwise fun a b => p b = true → p a = true

theorem Fading.filter_eq_nil {x : α} {xs : List α} (h : Fading p (x :: xs)) (hx : p x = false) :
    xs.filter p = [] := by
  apply filter_eq_nil_iff.mpr
  intro y hy hpy
  have hpx := (pairwise_cons.mp h).1 y hy hpy
  rw [hx] at hpx
  cases hpx

theorem Fading.sublist {l' : List α} (h : Fading p l) (hsub : l'.Sublist l) : Fading p l' :=
  Pairwise.sublist hsub h

/-- Stopping the walk at the first failure keeps the records that pass. -/
theorem records_takeWhile (h : Fading p l) (level : ℕ) :
    records f level (l.takeWhile p) = (records f level l).filter p := by
  induction l generalizing level with
  | nil => rfl
  | cons x xs ih =>
    have hrest : Fading p xs := (pairwise_cons.mp h).2
    cases hx : p x with
    | true =>
      rw [takeWhile_cons, if_pos hx, records, records]
      split_ifs
      · rw [filter_cons, if_pos hx, ih hrest]
      · exact ih hrest level
    | false =>
      rw [takeWhile_cons, if_neg (by simp [hx])]
      have hsub : (records f level (x :: xs)).filter p = [] := by
        apply sublist_nil.mp
        have hall : ((x :: xs).filter p) = [] := by
          rw [filter_cons, if_neg (by simp [hx]), h.filter_eq_nil hx]
        rw [← hall]
        exact (records_sublist level (x :: xs)).filter p
      rw [hsub]
      rfl

def lastPassing (p : α → Bool) (default : α) (l : List α) : α :=
  (l.filter p).getLast?.getD default

theorem lastPassing_append_of_fading {a b : List α} {x default : α}
    (h : Fading p (a ++ x :: b)) (hx : p x = false) :
    lastPassing p default (a ++ x :: b) = lastPassing p default a := by
  have htail : (x :: b).filter p = [] := by
    have hfade : Fading p (x :: b) := h.sublist (sublist_append_right a (x :: b))
    rw [filter_cons, if_neg (by simp [hx]), hfade.filter_eq_nil hx]
  rw [lastPassing, lastPassing, filter_append, htail, append_nil]

theorem lastPassing_append_of_pass {a b : List α} {x default : α} (hx : p x = true) :
    lastPassing p default (a ++ x :: b) = lastPassing p x b := by
  rw [lastPassing, lastPassing, filter_append, filter_cons, if_pos hx,
    getLast?_append, getLast?_cons]
  rfl

theorem lastPassing_pass_or_default (p : α → Bool) (default : α) (l : List α) :
    (lastPassing p default l ∈ l ∧ p (lastPassing p default l) = true) ∨
      (lastPassing p default l = default ∧ ∀ x ∈ l, p x = false) := by
  unfold lastPassing
  cases hlast : (l.filter p).getLast? with
  | none =>
    apply Or.inr
    refine ⟨rfl, ?_⟩
    intro x hx
    have hnil := filter_eq_nil_iff.mp (getLast?_eq_none_iff.mp hlast) x hx
    simpa using hnil
  | some => exact .inl (mem_filter.mp (mem_of_getLast? hlast))

theorem lastPassing_append_of_none {a b : List α} {default : α} (hb : ∀ y ∈ b, p y = false) :
    lastPassing p default (a ++ b) = lastPassing p default a := by
  have htail : b.filter p = [] := by
    apply filter_eq_nil_iff.mpr
    intro y hy
    simp [hb y hy]
  rw [lastPassing, lastPassing, filter_append, htail, append_nil]

theorem lastPassing_of_none {default : α} (hl : ∀ y ∈ l, p y = false) :
    lastPassing p default l = default :=
  @lastPassing_append_of_none _ _ [] _ _ hl

end Records

end Foundation
