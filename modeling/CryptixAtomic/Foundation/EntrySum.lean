import CryptixAtomic.Foundation.Bytes
import CryptixAtomic.Foundation.Checked
import CryptixAtomic.Foundation.FiniteMap

/-!
# Order-independent digests of finite maps

A map is summarised by the number of its entries and the exclusive or of their
digests. Both can be maintained one write at a time: removing an entry and adding
it again cancel. The count is a 64-bit word that saturates, so maintenance is
exact as long as the map has fewer than `2 ^ 64` entries.
-/
namespace Foundation

open Option FMap

/-- Entry count and exclusive or of the entry digests. -/
structure EntrySum (n : ℕ) where
  count : ℕ
  xor : Bytes n
  deriving DecidableEq

namespace EntrySum

variable {n : ℕ}

def empty : EntrySum n := ⟨0, Bytes.zeros n⟩

def remove (e : EntrySum n) : Option (Bytes n) → EntrySum n
  | none => e
  | some digest => { count := e.count - 1, xor := Bytes.xor e.xor digest }

def add (e : EntrySum n) : Option (Bytes n) → EntrySum n
  | none => e
  | some digest => { count := saturatingAdd 64 e.count 1, xor := Bytes.xor e.xor digest }

/-- Replace one entry digest by another; equal digests change nothing. -/
def applyEntry (e : EntrySum n) (oldHash newHash : Option (Bytes n)) : EntrySum n :=
  if oldHash = newHash then e else (e.remove oldHash).add newHash

section OfMap

variable {K V : Type} [DecidableEq K] (digest : K → V → Bytes n)

/-- The summary of a whole map. -/
def ofMap (m : FMap K V) : EntrySum n :=
  { count := min m.size (maxWord 64), xor := total digest m }

theorem applyEntry_ofMap (m : FMap K V) (k : K) (o : Option V) (hfit : m.size ≤ maxWord 64) :
    (ofMap digest m).applyEntry ((m.lookup k).map (digest k)) (o.map (digest k)) =
      ofMap digest (m.assign k o) := by
  have hsize := total_assign (fun _ _ => 1 : K → V → ℕ) m k o
  have hxor := total_assign digest m k o
  have hle := weight_le_total (fun _ _ => 1 : K → V → ℕ) m k
  change (m.assign k o).size + _ = m.size + _ at hsize
  change _ ≤ m.size at hle
  cases hold : m.lookup k with
  | none =>
    cases o with
    | none =>
      rw [hold] at hsize hxor
      simp_all [applyEntry, ofMap]
    | some =>
      rw [hold] at hsize hxor
      simp only [weight_none, weight_some, add_zero] at hsize hxor
      simp only [applyEntry, ofMap, map_none, map_some, remove, add, hsize, hxor,
        Bytes.xor_eq_add, saturatingAdd]
      rw [if_neg (by simp)]
      congr 1
      omega
  | some w =>
    rw [hold] at hsize hxor hle
    cases o with
    | none =>
      simp only [weight_none, weight_some, add_zero] at hsize hxor hle
      simp only [applyEntry, ofMap, map_none, map_some, remove, add, Bytes.xor_eq_add]
      rw [if_neg (by simp), ← hxor, add_assoc, Bytes.add_self, add_zero]
      congr 1
      omega
    | some v =>
      simp only [weight_some] at hsize hxor hle
      have hcount : (m.assign k (some v)).size = m.size := by omega
      by_cases heq : digest k w = digest k v
      · -- colliding digests leave the sum alone, and so does the write
        rw [heq] at hxor
        simp [applyEntry, ofMap, heq, hcount, add_right_cancel hxor]
      · simp only [applyEntry, ofMap, map_some, Option.some.injEq, heq, if_false, remove,
          add, Bytes.xor_eq_add, saturatingAdd, hcount]
        have hnew : total digest (m.assign k (some v)) =
            total digest m + digest k w + digest k v := by
          rw [add_right_comm, ← hxor, add_assoc, Bytes.add_self, add_zero]
        rw [hnew]
        congr 1
        omega

end OfMap

section Rebuild

variable {K V : Type} [LinearOrder K] (digest : K → V → Bytes n)

/-- Summarise a map by adding its entries one after another. -/
def rebuild (m : FMap K V) : EntrySum n :=
  m.iter.foldl (fun e entry => e.applyEntry none (some (digest entry.1 entry.2))) empty

omit [LinearOrder K] in
theorem foldl_add (l : List (K × V)) (e : EntrySum n) (he : e.count ≤ maxWord 64) :
    l.foldl (fun e entry => e.applyEntry none (some (digest entry.1 entry.2))) e =
      { count := min (e.count + (l.map fun _ => 1).sum) (maxWord 64)
        xor := e.xor + (l.map fun entry => digest entry.1 entry.2).sum } := by
  induction l generalizing e with
  | nil => simp [he]
  | cons entry l ih =>
    have hstep : e.applyEntry none (some (digest entry.1 entry.2)) =
        { count := saturatingAdd 64 e.count 1, xor := e.xor + digest entry.1 entry.2 } := by
      simp [applyEntry, remove, add, Bytes.xor_eq_add]
    rw [List.foldl_cons, hstep, ih _ (Nat.min_le_right _ _)]
    simp only [List.map_cons, List.sum_cons, saturatingAdd, add_assoc]
    congr 1
    omega

theorem rebuild_eq_ofMap [DecidableEq K] (m : FMap K V) : rebuild digest m = ofMap digest m := by
  have hsize := sum_iter (fun _ _ => 1 : K → V → ℕ) m
  have hxor := sum_iter digest m
  rw [rebuild, foldl_add digest _ _ (Nat.zero_le _), hsize, hxor]
  simp only [empty, ofMap, FMap.size, zero_add]
  exact congrArg _ (zero_add (total digest m))

end Rebuild

end EntrySum
end Foundation
