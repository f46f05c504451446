import CryptixAtomic.Foundation.Overlay

/-!
# Writing an overlay to its base

An overlay as a list of writes: its removals, then its values. Written to a base they give
the map one sees through the overlay over that base.
-/
namespace Foundation

open List

variable {K V : Type} [DecidableEq K]

namespace FMap

variable (m : FMap K V)

def assignAll (rows : List (K × Option V)) : FMap K V :=
  rows.foldl (fun m r => m.assign r.1 r.2) m

theorem assignAll_append (a b : List (K × Option V)) :
    m.assignAll (a ++ b) = (m.assignAll a).assignAll b := foldl_append

theorem lookup_assignAll (rows : List (K × Option V)) :
    (fun k => (m.assignAll rows).lookup k) = updateAll (fun k => m.lookup k) rows := by
  induction rows generalizing m with
  | nil => rfl
  | cons r rows ih =>
    have hstep : (fun k => (m.assign r.1 r.2).lookup k) =
        Function.update (fun k => m.lookup k) r.1 r.2 := by
      funext k
      rw [lookup_assign, Function.update_apply]
    rw [assignAll, foldl_cons, updateAll, foldl_cons, ← hstep]
    exact ih (m.assign r.1 r.2)

end FMap

namespace Overlay

section Rows

variable [LinearOrder K] (o : Overlay K V)

def removals : List (K × Option V) := (FMap.sortKeys o.deleted).map fun k => (k, none)

def insertions : List (K × Option V) := o.live.iter.map fun e => (e.1, some e.2)

theorem mem_insertions {k : K} {v : Option V} :
    (k, v) ∈ o.insertions ↔ ∃ w, v = some w ∧ o.live.lookup k = some w := by
  simp only [insertions, mem_map, Prod.exists, Prod.mk.injEq, FMap.mem_iter]
  constructor
  · rintro ⟨k', w, hw, rfl, rfl⟩
    exact ⟨w, rfl, hw⟩
  · rintro ⟨w, rfl, hw⟩
    exact ⟨k, w, hw, rfl, rfl⟩

theorem mem_removals {k : K} {v : Option V} :
    (k, v) ∈ o.removals ↔ v = none ∧ k ∈ o.deleted := by
  simp only [removals, mem_map, FMap.mem_sortKeys, Prod.mk.injEq]
  constructor
  · rintro ⟨k', hk, rfl, rfl⟩
    exact ⟨rfl, hk⟩
  · rintro ⟨rfl, hk⟩
    exact ⟨k, hk, rfl, rfl⟩

theorem rows_pairwise : (o.removals ++ o.insertions).Pairwise fun a b => a.1 ≠ b.1 := by
  apply pairwise_append.mpr
  constructor
  · apply pairwise_map.mpr
    exact (FMap.sortKeys_sorted o.deleted).imp fun h => h.ne
  constructor
  · apply pairwise_map.mpr
    exact (FMap.iter_sorted o.live).imp fun h => h.ne
  · rintro ⟨k, v⟩ hremoval ⟨k', v'⟩ hinsertion hk
    obtain ⟨-, hdeleted⟩ := o.mem_removals.mp hremoval
    obtain ⟨w, -, hlive⟩ := o.mem_insertions.mp hinsertion
    obtain rfl : k = k' := hk
    rw [o.disjoint k hdeleted] at hlive
    cases hlive

theorem assignAll_removals_insertions :
    (m.assignAll o.removals).assignAll o.insertions = o.merged (some m) := by
  rw [← FMap.assignAll_append]
  apply Finmap.ext_lookup
  intro k
  have hlookup := congrFun (FMap.lookup_assignAll m (o.removals ++ o.insertions)) k
  rw [lookup_merged, read]
  apply hlookup.trans
  split_ifs with hdeleted
  · have hmem : (k, none) ∈ o.removals ++ o.insertions :=
      mem_append_left _ (o.mem_removals.mpr ⟨rfl, hdeleted⟩)
    exact updateAll_of_mem _ o.rows_pairwise hmem
  · cases hlive : o.live.lookup k with
    | some w =>
      have hmem : (k, some w) ∈ o.removals ++ o.insertions :=
        mem_append_right _ (o.mem_insertions.mpr ⟨w, rfl, hlive⟩)
      exact updateAll_of_mem _ o.rows_pairwise hmem
    | none =>
      apply updateAll_of_notMem
      rintro ⟨k', v⟩ hrow rfl
      rcases mem_append.mp hrow with hremoval | hinsertion
      · exact hdeleted (o.mem_removals.mp hremoval).2
      · obtain ⟨w, -, hw⟩ := o.mem_insertions.mp hinsertion
        rw [hlive] at hw
        cases hw

end Rows

theorem merged_empty_base (o : Overlay K V) : o.merged (some ∅) = o.live := by
  apply Finmap.ext_lookup
  intro k
  rw [lookup_merged, read]
  split_ifs with hdeleted
  · exact (o.disjoint k hdeleted).symm
  · simp

end Overlay
end Foundation
