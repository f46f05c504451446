import Mathlib.Data.Finmap
import Mathlib.Tactic

/-!
# Finite maps with optional writes, ordered traversal and totals

Hash maps are finite partial functions. `assign` writes or removes one key, `iter` is the
traversal in increasing key order, and `total` sums a weight over all entries. By
`total_assign` one write moves a total by the difference of two contributions.
-/
namespace Foundation

open List Finmap

/-- Finite partial maps, equal as soon as they agree on every key. -/
abbrev FMap (K V : Type) := Finmap fun _ : K => V

namespace FMap

section Assign

variable {K V : Type} [DecidableEq K]

/-- Write an optional value: `none` removes the key. -/
def assign (m : FMap K V) (k : K) : Option V → FMap K V
  | some v => m.insert k v
  | none => m.erase k

theorem lookup_insert_ite (m : FMap K V) (k k' : K) (v : V) :
    (m.insert k v).lookup k' = if k' = k then some v else m.lookup k' := by
  split_ifs with h
  · subst h; exact lookup_insert m
  · exact lookup_insert_of_ne m h

theorem lookup_erase_ite (m : FMap K V) (k k' : K) :
    (m.erase k).lookup k' = if k' = k then none else m.lookup k' := by
  split_ifs with h
  · subst h; exact lookup_erase k' m
  · exact lookup_erase_ne h

@[simp] theorem lookup_assign (m : FMap K V) (k k' : K) (o : Option V) :
    (m.assign k o).lookup k' = if k' = k then o else m.lookup k' := by
  cases o with
  | none => exact lookup_erase_ite m k k'
  | some v => exact lookup_insert_ite m k k' v

theorem eq_empty_iff (m : FMap K V) : m = ∅ ↔ ∀ k, m.lookup k = none := by
  constructor
  · rintro rfl k; exact lookup_empty k
  · intro h; exact ext_lookup fun k => by rw [h k, lookup_empty]

end Assign

section Total

variable {K V M : Type} [AddCommMonoid M]

variable (f : K → V → M)

/-- What one optional entry adds to a total. -/
def weight (k : K) (o : Option V) : M := o.elim 0 (f k)

@[simp] theorem weight_none (k : K) : weight f k none = 0 := rfl
@[simp] theorem weight_some (k : K) (v : V) : weight f k (some v) = f k v := rfl

variable [DecidableEq K]

/-- Sum of a weight over all entries. -/
def total (m : FMap K V) : M := ∑ k ∈ m.keys, weight f k (m.lookup k)

/-- Keys outside the map contribute nothing, so any larger index set will do. -/
theorem total_eq_sum (m : FMap K V) {s : Finset K} (hs : m.keys ⊆ s) :
    total f m = ∑ k ∈ s, weight f k (m.lookup k) := by
  apply Finset.sum_subset hs
  intro k _ hk
  rw [Finmap.mem_keys, ← Finmap.lookup_eq_none] at hk
  rw [hk, weight_none]

@[simp] theorem total_empty : total f (∅ : FMap K V) = 0 := by
  simp [total]

theorem keys_assign_subset (m : FMap K V) (k : K) (o : Option V) :
    (m.assign k o).keys ⊆ insert k m.keys := by
  intro x hx
  rw [Finmap.mem_keys, ← Finmap.lookup_isSome, lookup_assign] at hx
  rw [Finset.mem_insert]
  split_ifs at hx with h
  · exact .inl h
  · exact .inr (Finmap.mem_keys.mpr (Finmap.lookup_isSome.mp hx))

theorem total_assign (m : FMap K V) (k : K) (o : Option V) :
    total f (m.assign k o) + weight f k (m.lookup k) = total f m + weight f k o := by
  have hk : k ∈ insert k m.keys := Finset.mem_insert_self k m.keys
  rw [total_eq_sum f _ (keys_assign_subset m k o),
    total_eq_sum f m (Finset.subset_insert k m.keys),
    ← Finset.add_sum_erase _ _ hk, ← Finset.add_sum_erase _ _ hk]
  have hrest : ∑ x ∈ (insert k m.keys).erase k, weight f x ((m.assign k o).lookup x) =
      ∑ x ∈ (insert k m.keys).erase k, weight f x (m.lookup x) := by
    apply Finset.sum_congr rfl
    intro x hx
    rw [lookup_assign, if_neg (Finset.ne_of_mem_erase hx)]
  rw [hrest, lookup_assign, if_pos rfl]
  abel

def size (m : FMap K V) : ℕ := total (fun _ _ => 1) m

theorem size_assign_le (m : FMap K V) (k : K) (o : Option V) :
    size (m.assign k o) ≤ size m + 1 := by
  have h := total_assign (fun _ _ => 1 : K → V → ℕ) m k o
  have hone : weight (fun _ _ => 1 : K → V → ℕ) k o ≤ 1 := by cases o <;> simp
  unfold size
  omega

theorem weight_le_total (f : K → V → ℕ) (m : FMap K V) (k : K) :
    weight f k (m.lookup k) ≤ total f m := by
  rw [total_eq_sum f m (Finset.subset_insert k m.keys)]
  exact Finset.single_le_sum (f := fun x => weight f x (m.lookup x)) (fun _ _ => Nat.zero_le _)
    (Finset.mem_insert_self k m.keys)

end Total

section Traversal

variable {K V : Type} [LinearOrder K]

/-- The elements of a finite set in increasing order. Insertion sort keeps the
list computable by reduction. -/
def sortKeys (s : Finset K) : List K :=
  Quotient.liftOn s.val (insertionSort (· ≤ ·)) fun a b h =>
    Perm.eq_of_pairwise (fun _ _ _ _ => le_antisymm) (pairwise_insertionSort (· ≤ ·) a)
      (pairwise_insertionSort (· ≤ ·) b)
      ((perm_insertionSort _ a).trans (h.trans (perm_insertionSort _ b).symm))

theorem coe_sortKeys (s : Finset K) : (sortKeys s : Multiset K) = s.val := by
  obtain ⟨v, hv⟩ := s
  induction v using Quotient.inductionOn with
  | h l => exact Multiset.coe_eq_coe.mpr (perm_insertionSort _ l)

theorem mem_sortKeys {s : Finset K} {k : K} : k ∈ sortKeys s ↔ k ∈ s := by
  rw [← Multiset.mem_coe, coe_sortKeys, Finset.mem_val]

theorem sortKeys_sorted (s : Finset K) : (sortKeys s).Pairwise (· < ·) := by
  have hle : (sortKeys s).Pairwise (· ≤ ·) := by
    obtain ⟨v, hv⟩ := s
    induction v using Quotient.inductionOn with
    | h l => exact pairwise_insertionSort (· ≤ ·) l
  have hnd : (sortKeys s).Nodup := by
    rw [← Multiset.coe_nodup, coe_sortKeys]
    exact s.nodup
  exact hle.imp₂ (fun _ _ => lt_of_le_of_ne) hnd

/-- Traversal of all entries by increasing key. -/
def iter (m : FMap K V) : List (K × V) :=
  (sortKeys m.keys).filterMap fun k => (m.lookup k).map fun v => (k, v)

/-- Lookups may decide key equality in any way, not only through the order. -/
theorem mem_iter [dec : DecidableEq K] {m : FMap K V} {k : K} {v : V} :
    (k, v) ∈ iter m ↔ m.lookup k = some v := by
  obtain rfl : dec = LinearOrder.toDecidableEq := Subsingleton.elim _ _
  simp only [iter, List.mem_filterMap, mem_sortKeys, Finmap.mem_keys, Option.map_eq_some_iff,
    Prod.mk.injEq]
  constructor
  · rintro ⟨x, _, y, hy, rfl, rfl⟩; exact hy
  · intro h; exact ⟨k, mem_of_lookup_eq_some h, v, h, rfl, rfl⟩

theorem iter_sorted (m : FMap K V) : (iter m).Pairwise fun a b => a.1 < b.1 := by
  refine (sortKeys_sorted m.keys).filterMap _ ?_
  intro a a' haa' b hb b' hb'
  simp only [Option.map_eq_some_iff] at hb hb'
  obtain ⟨v, _, rfl⟩ := hb
  obtain ⟨v', _, rfl⟩ := hb'
  exact haa'

theorem iter_empty : iter (∅ : FMap K V) = [] := by
  apply eq_nil_iff_forall_not_mem.mpr
  rintro ⟨k, v⟩ h
  simp [mem_iter] at h

end Traversal

section TraversalTotal

variable {K V M : Type} [LinearOrder K]

theorem sum_iter [AddCommMonoid M] [dec : DecidableEq K] (f : K → V → M) (m : FMap K V) :
    ((iter m).map fun e => f e.1 e.2).sum = total f m := by
  obtain rfl : dec = LinearOrder.toDecidableEq := Subsingleton.elim _ _
  have hkeys : ((sortKeys m.keys).map fun k => weight f k (m.lookup k)).sum = total f m := by
    rw [total, Finset.sum_eq_multiset_sum, ← coe_sortKeys, Multiset.map_coe, Multiset.sum_coe]
  rw [← hkeys, iter]
  induction sortKeys m.keys with
  | nil => rfl
  | cons k ks ih =>
    cases hk : m.lookup k with
    | none | some => simp [hk, ih]

theorem length_iter [DecidableEq K] (m : FMap K V) : (iter m).length = size m := by
  have h := sum_iter (fun _ _ => 1 : K → V → ℕ) m
  simpa [size] using h

end TraversalTotal

end FMap
end Foundation
