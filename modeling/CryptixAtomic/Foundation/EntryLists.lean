import CryptixAtomic.Foundation.FiniteMap

/-!
# Erasing and inserting lists of entries

Bulk writes to a finite map, with what they do to lookups and to totals. Keys of a
list are distinct where it matters, and inserted keys are new: a total then moves by the
sum over the list.
-/
namespace Foundation

open List Option Finmap

namespace FMap

variable {K V : Type} [DecidableEq K]

variable (m : FMap K V)

def eraseAll (keys : List K) : FMap K V := keys.foldl (fun m k => m.erase k) m

def insertAll (entries : List (K × V)) : FMap K V :=
  entries.foldl (fun m e => m.insert e.1 e.2) m

def without (keys : Finset K) : FMap K V :=
  Finmap.keysLookupEquiv.symm
    ⟨(m.keys \ keys, fun k => if k ∈ keys then none else m.lookup k), by
      intro k
      rw [Finset.mem_sdiff, Finmap.mem_keys, ← Finmap.lookup_isSome]
      by_cases hk : k ∈ keys <;> simp [hk]⟩

@[simp] theorem lookup_without (keys : Finset K) (k : K) :
    (m.without keys).lookup k = if k ∈ keys then none else m.lookup k := by
  rw [without, keysLookupEquiv_symm_apply_lookup]

@[simp] theorem eraseAll_nil : m.eraseAll [] = m := rfl

@[simp] theorem eraseAll_cons (k : K) (keys : List K) :
    m.eraseAll (k :: keys) = eraseAll (m.erase k) keys := rfl

@[simp] theorem insertAll_nil : m.insertAll [] = m := rfl

@[simp] theorem insertAll_cons (e : K × V) (entries : List (K × V)) :
    m.insertAll (e :: entries) = insertAll (m.insert e.1 e.2) entries := rfl

theorem lookup_eraseAll (keys : List K) (k : K) :
    (m.eraseAll keys).lookup k = if k ∈ keys then none else m.lookup k := by
  induction keys generalizing m with
  | nil => simp
  | cons key keys ih =>
    rw [eraseAll_cons, ih, lookup_erase_ite]
    by_cases hkeys : k ∈ keys
    · simp [hkeys]
    · by_cases hkey : k = key <;> simp [hkeys, hkey]

variable {entries : List (K × V)} {k : K} {v : V}

theorem lookup_insertAll_of_notMem (h : k ∉ entries.map Prod.fst) :
    (m.insertAll entries).lookup k = m.lookup k := by
  induction entries generalizing m with
  | nil => rfl
  | cons e entries ih =>
    rw [map_cons, mem_cons, not_or] at h
    rw [insertAll_cons, ih _ h.2, lookup_insert_ite, if_neg h.1]

theorem lookup_insertAll_of_mem (hkeys : (entries.map Prod.fst).Nodup) (h : (k, v) ∈ entries) :
    (m.insertAll entries).lookup k = some v := by
  induction entries generalizing m with
  | nil => cases h
  | cons e entries ih =>
    rw [map_cons, nodup_cons] at hkeys
    rw [insertAll_cons]
    rcases mem_cons.mp h with rfl | hrest
    · rw [lookup_insertAll_of_notMem _ hkeys.1, lookup_insert_ite, if_pos rfl]
    · exact ih _ hkeys.2 hrest

theorem lookup_insertAll_cases (hkeys : (entries.map Prod.fst).Nodup)
    (h : (m.insertAll entries).lookup k = some v) :
    (k, v) ∈ entries ∨ k ∉ entries.map Prod.fst ∧ m.lookup k = some v := by
  by_cases hmem : k ∈ entries.map Prod.fst
  · obtain ⟨⟨k', v'⟩, he, hk⟩ := mem_map.mp hmem
    cases hk
    rw [lookup_insertAll_of_mem m hkeys he] at h
    rw [← some.inj h]
    exact .inl he
  · rw [lookup_insertAll_of_notMem m hmem] at h
    exact .inr ⟨hmem, h⟩

/-- A key may be listed repeatedly, as long as its value is the same. -/
theorem lookup_insertAll_iff (hunique : ∀ a b, (k, a) ∈ entries → (k, b) ∈ entries → a = b) :
    (m.insertAll entries).lookup k = some v ↔
      (k, v) ∈ entries ∨ k ∉ entries.map Prod.fst ∧ m.lookup k = some v := by
  induction entries generalizing m with
  | nil => simp
  | cons e entries ih =>
    rw [insertAll_cons, ih _ fun a b ha hb => hunique a b (mem_cons_of_mem e ha)
      (mem_cons_of_mem e hb), lookup_insert_ite, map_cons, mem_cons, mem_cons,
      not_or]
    by_cases hk : k = e.1
    · rw [if_pos hk]
      have hhead : (k, e.2) ∈ e :: entries := by
        rw [hk]
        exact mem_cons_self
      constructor
      · rintro (hmem | ⟨-, hvalue⟩)
        · exact .inl (.inr hmem)
        · left
          left
          rw [hk, ← some.inj hvalue]
      · rintro ((heq | hmem) | ⟨⟨hne, -⟩, -⟩)
        · by_cases hrest : k ∈ entries.map Prod.fst
          · obtain ⟨⟨k', w⟩, hw, rfl⟩ := mem_map.mp hrest
            have hsame := hunique w e.2 (mem_cons_of_mem e hw) hhead
            left
            rw [show v = w from (congrArg Prod.snd heq).trans hsame.symm]
            exact hw
          · exact .inr ⟨hrest, by rw [← congrArg Prod.snd heq]⟩
        · exact .inl hmem
        · exact absurd hk hne
    · have hne : (k, v) ≠ e := fun heq => hk (congrArg Prod.fst heq)
      rw [if_neg hk]
      simp [hne, hk]

theorem lookup_insertAll_filter_iter [LinearOrder K] (m other : FMap K V) (test : K × V → Bool)
    (k : K) :
    (m.insertAll (other.iter.filter test)).lookup k =
      ((other.lookup k).filter fun v => test (k, v)).or (m.lookup k) := by
  have hkeys : ((other.iter.filter test).map Prod.fst).Nodup := by
    have hsorted : (other.iter.filter test).Pairwise fun a b => a.1 < b.1 :=
      other.iter_sorted.filter test
    exact pairwise_map.mpr (hsorted.imp fun h => ne_of_lt h)
  have hmem : ∀ v, (k, v) ∈ other.iter.filter test ↔
      other.lookup k = some v ∧ test (k, v) = true := by
    intro v
    rw [mem_filter, mem_iter]
  cases hfound : (other.lookup k).filter fun v => test (k, v) with
  | some v =>
    obtain ⟨hv, htest⟩ := filter_eq_some_iff.mp hfound
    rw [lookup_insertAll_of_mem m hkeys ((hmem v).mpr ⟨hv, htest⟩)]
    rfl
  | none =>
    rw [none_or]
    apply lookup_insertAll_of_notMem
    intro hk
    obtain ⟨⟨k', v⟩, he, rfl⟩ := mem_map.mp hk
    obtain ⟨hv, htest⟩ := (hmem v).mp he
    rw [hv] at hfound
    simp [htest] at hfound

section Total

variable {M : Type} [AddCommMonoid M]

variable (f : K → V → M)

variable (m : FMap K V)

theorem total_erase (k : K) : total f (m.erase k) + weight f k (m.lookup k) = total f m := by
  have h := total_assign f m k none
  rwa [weight_none, add_zero] at h

theorem total_insert {k : K} (v : V) (h : m.lookup k = none) :
    total f (m.insert k v) = total f m + f k v := by
  have hassign := total_assign f m k (some v)
  rwa [h, weight_none, add_zero] at hassign

theorem total_eraseAll {keys : List K} (hkeys : keys.Nodup) :
    total f (m.eraseAll keys) + (keys.map fun k => weight f k (m.lookup k)).sum = total f m := by
  induction keys generalizing m with
  | nil => simp
  | cons key keys ih =>
    rw [nodup_cons] at hkeys
    have hrest : (keys.map fun k => weight f k (m.lookup k)) =
        keys.map fun k => weight f k ((m.erase key).lookup k) := by
      apply map_congr_left
      intro k hk
      have hne : k ≠ key := fun h => hkeys.1 (h ▸ hk)
      rw [lookup_erase_ite, if_neg hne]
    rw [eraseAll_cons, map_cons, sum_cons, hrest, add_left_comm, ih _ hkeys.2, add_comm,
      total_erase]

theorem total_insertAll {entries : List (K × V)} (hkeys : (entries.map Prod.fst).Nodup)
    (hnew : ∀ e ∈ entries, m.lookup e.1 = none) :
    total f (m.insertAll entries) = total f m + (entries.map fun e => f e.1 e.2).sum := by
  induction entries generalizing m with
  | nil => simp
  | cons e entries ih =>
    rw [map_cons, nodup_cons] at hkeys
    have hnew' : ∀ e' ∈ entries, (m.insert e.1 e.2).lookup e'.1 = none := by
      intro e' he'
      have hne : e'.1 ≠ e.1 := fun h => hkeys.1 (h ▸ mem_map_of_mem he')
      rw [lookup_insert_ite, if_neg hne]
      exact hnew e' (mem_cons_of_mem _ he')
    rw [insertAll_cons, ih _ hkeys.2 hnew', map_cons, sum_cons,
      total_insert f m e.2 (hnew e mem_cons_self), add_assoc]

end Total

end FMap
end Foundation
