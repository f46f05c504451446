import Mathlib.Tactic

/-!
# Merging two sorted lists without common keys

`mergeDistinct` merges two lists by a key and fails when it meets two equal keys.
On strictly increasing lists without a common key it returns the strictly
increasing list of all elements.
-/
namespace Foundation

open List

variable {α κ : Type} [LinearOrder κ]

def mergeDistinct (key : α → κ) : List α → List α → Option (List α)
  | [], bs => some bs
  | a :: as, [] => some (a :: as)
  | a :: as, b :: bs =>
    if key a < key b then (mergeDistinct key as (b :: bs)).map (a :: ·)
    else if key b < key a then (mergeDistinct key (a :: as) bs).map (b :: ·)
    else none
  termination_by as bs => as.length + bs.length

theorem length_mergeDistinct {key : α → κ} {as bs l : List α}
    (h : mergeDistinct key as bs = some l) : l.length = as.length + bs.length := by
  fun_induction mergeDistinct key as bs generalizing l with
  | case5 => cases h
  | _ => grind [Option.map_eq_some_iff]

theorem mergeDistinct_eq (key : α → κ) (as bs : List α)
    (has : as.Pairwise fun x y => key x < key y) (hbs : bs.Pairwise fun x y => key x < key y)
    (hne : ∀ a ∈ as, ∀ b ∈ bs, key a ≠ key b) :
    ∃ l, mergeDistinct key as bs = some l ∧ l.Perm (as ++ bs) ∧
      l.Pairwise fun x y => key x < key y := by
  induction as, bs using mergeDistinct.induct key with
  | case1 bs => exact ⟨bs, by rw [mergeDistinct], Perm.refl _, hbs⟩
  | case2 a as => exact ⟨a :: as, by rw [mergeDistinct], by simp, has⟩
  | case3 a as b bs hlt ih =>
    obtain ⟨hfirst, hrest⟩ := pairwise_cons.mp has
    obtain ⟨hb, _⟩ := pairwise_cons.mp hbs
    obtain ⟨l, hl, hperm, hsorted⟩ :=
      ih hrest hbs fun x hx y hy => hne x (mem_cons_of_mem a hx) y hy
    refine ⟨a :: l, ?_, hperm.cons a, pairwise_cons.mpr ⟨?_, hsorted⟩⟩
    · rw [mergeDistinct, if_pos hlt, hl]
      rfl
    · intro x hx
      rcases mem_append.mp (hperm.mem_iff.mp hx) with hx | hx
      · exact hfirst x hx
      · rcases mem_cons.mp hx with rfl | hx
        · exact hlt
        · exact hlt.trans (hb x hx)
  | case4 a as b bs hnot hlt ih =>
    obtain ⟨ha, _⟩ := pairwise_cons.mp has
    obtain ⟨hfirst, hrest⟩ := pairwise_cons.mp hbs
    obtain ⟨l, hl, hperm, hsorted⟩ :=
      ih has hrest fun x hx y hy => hne x hx y (mem_cons_of_mem b hy)
    refine ⟨b :: l, ?_, (hperm.cons b).trans perm_middle.symm,
      pairwise_cons.mpr ⟨?_, hsorted⟩⟩
    · rw [mergeDistinct, if_neg hnot, if_pos hlt, hl]
      rfl
    · intro x hx
      rcases mem_append.mp (hperm.mem_iff.mp hx) with hx | hx
      · rcases mem_cons.mp hx with rfl | hx
        · exact hlt
        · exact hlt.trans (ha x hx)
      · exact hfirst x hx
  | case5 a as b bs hnot hnot' =>
    have heq : key a = key b := le_antisymm (not_lt.mp hnot') (not_lt.mp hnot)
    exact absurd heq (hne a mem_cons_self b mem_cons_self)

theorem mergeDistinct_map {β : Type} (key : β → κ) (f : α → β) (as bs : List α) :
    mergeDistinct key (as.map f) (bs.map f) =
      (mergeDistinct (fun x => key (f x)) as bs).map (List.map f) := by
  induction as, bs using mergeDistinct.induct fun x => key (f x) with
  | case1 | case2 => simp [mergeDistinct]
  | case3 a as b bs hlt ih =>
    rw [List.map_cons, List.map_cons, mergeDistinct, mergeDistinct, if_pos hlt, if_pos hlt,
      ← List.map_cons, ih, Option.map_map, Option.map_map]
    rfl
  | case4 a as b bs hnot hlt ih =>
    rw [List.map_cons, List.map_cons, mergeDistinct, mergeDistinct, if_neg hnot, if_neg hnot,
      if_pos hlt, if_pos hlt, ← List.map_cons, ih, Option.map_map, Option.map_map]
    rfl
  | case5 a as b bs hnot hnot' =>
    rw [List.map_cons, List.map_cons, mergeDistinct, mergeDistinct, if_neg hnot, if_neg hnot,
      if_neg hnot', if_neg hnot']
    rfl

theorem eq_of_sorted_of_mem_iff {key : α → κ} {as bs : List α}
    (has : as.Pairwise fun x y => key x < key y) (hbs : bs.Pairwise fun x y => key x < key y)
    (hmem : ∀ x, x ∈ as ↔ x ∈ bs) : as = bs := by
  have hnodup : ∀ {l : List α}, (l.Pairwise fun x y => key x < key y) → l.Nodup := by
    intro l hl
    apply hl.imp
    rintro x y hlt rfl
    exact lt_irrefl _ hlt
  have hperm : as.Perm bs := (perm_ext_iff_of_nodup (hnodup has) (hnodup hbs)).mpr hmem
  exact hperm.eq_of_pairwise (fun x y _ _ hxy hyx => absurd hyx (lt_asymm hxy)) has hbs

end Foundation
