import CryptixAtomic.Foundation.FiniteMap

/-!
# Maps filled by merging

`upsert` writes a value under a key and merges it with a value that is there. With a merge
that does not care about order, the map that a list of writes gives does not either.
-/
namespace Foundation.FMap

open List

variable {K V X : Type} [DecidableEq K] {f : V → V → V}

def upsert (f : V → V → V) (m : FMap K V) (k : K) (v : V) : FMap K V :=
  m.insert k ((m.lookup k).elim v fun w => f w v)

theorem lookup_upsert (m : FMap K V) (k k' : K) (v : V) :
    (m.upsert f k v).lookup k' =
      if k' = k then some ((m.lookup k).elim v fun w => f w v) else m.lookup k' :=
  lookup_insert_ite m k k' _

theorem upsert_right_comm (hcomm : ∀ a b, f a b = f b a)
    (hright : ∀ a b c, f (f a b) c = f (f a c) b)
    (m : FMap K V) (k k' : K) (v v' : V) :
    (m.upsert f k v).upsert f k' v' = (m.upsert f k' v').upsert f k v := by
  apply Finmap.ext_lookup
  intro x
  simp only [lookup_upsert]
  by_cases hk : k = k'
  · subst hk
    by_cases hx : x = k
    · cases m.lookup k with
      | none => simp [hx, hcomm v v']
      | some w => simp [hx, hright w v v']
    · simp [hx]
  · by_cases hx : x = k
    · subst hx
      simp [hk]
    · simp [hx, Ne.symm hk]

def upsertAll (f : V → V → V) (key : X → K) (value : X → V) (l : List X) : FMap K V :=
  l.foldl (fun m x => m.upsert f (key x) (value x)) ∅

theorem upsertAll_concat (key : X → K) (value : X → V) (l : List X) (x : X) :
    upsertAll f key value (l ++ [x]) = (upsertAll f key value l).upsert f (key x) (value x) :=
  foldl_concat _ _ _ _

theorem upsertAll_perm (hcomm : ∀ a b, f a b = f b a)
    (hright : ∀ a b c, f (f a b) c = f (f a c) b) (key : X → K) (value : X → V) {l l' : List X}
    (h : l.Perm l') : upsertAll f key value l = upsertAll f key value l' :=
  h.foldl_eq' (fun _ _ _ _ _ => upsert_right_comm hcomm hright _ _ _ _ _) ∅

/-- A flag that a merge gathers from both sides is up if some write has it up. -/
theorem any_lookup_upsertAll {p : V → Bool} (hp : ∀ a b, p (f a b) = (p a || p b))
    (key : X → K) (value : X → V) (l : List X) (k : K) :
    ((upsertAll f key value l).lookup k).any p = l.any fun x => decide (k = key x) && p
    (value x) := by
  induction l using reverseRecOn with
  | nil => simp [upsertAll]
  | append_singleton l x ih =>
    rw [upsertAll_concat, lookup_upsert, any_append, ← ih]
    by_cases hk : k = key x
    · subst hk
      cases (upsertAll f key value l).lookup (key x) <;> simp [hp]
    · simp [hk]

theorem getD_lookup_upsertAll (key : X → K) (value : X → V) (l : List X) (k : K) :
    ((upsertAll (· ++ ·) key (fun x => [value x]) l).lookup k).getD [] =
      (l.filter fun x => decide (key x = k)).map value := by
  induction l using reverseRecOn with
  | nil => simp [upsertAll]
  | append_singleton l x ih =>
    rw [upsertAll_concat, lookup_upsert, filter_append, map_append, ← ih]
    by_cases hk : k = key x
    · subst hk
      cases (upsertAll (· ++ ·) key (fun x => [value x]) l).lookup (key x) <;> simp
    · simp [hk, Ne.symm hk]

end Foundation.FMap
