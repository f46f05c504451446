import CryptixAtomic.Foundation.FiniteMap

/-!
# Write overlays and tracked changes

An overlay holds the writes made over an optional base map: values written and keys removed
so far. By `read_write`, reading after one write changes exactly one key. A change tracker
remembers for every key its first and its latest value, and forgets the key once both agree.
`Tracks` says what such a tracker knows about the reads before and after.
-/
namespace Foundation

open List FMap Finmap

/-- Pending writes over a base map. No key is written and removed at once. -/
structure Overlay (K V : Type) [DecidableEq K] where
  live : FMap K V
  deleted : Finset K
  disjoint : ∀ k ∈ deleted, live.lookup k = none

namespace Overlay

variable {K V : Type} [DecidableEq K]

def empty : Overlay K V := ⟨∅, ∅, by simp⟩

def ofMap (m : FMap K V) : Overlay K V := ⟨m, ∅, by simp⟩

variable (o : Overlay K V)

variable (base : Option (FMap K V))

/-- A removed key reads as absent; otherwise the overlay hides the base. -/
def read (k : K) : Option V :=
  if k ∈ o.deleted then none else (o.live.lookup k).or (base.bind fun m => m.lookup k)

/-- Removals are only remembered when there is a base to hide. -/
def write (backed : Bool) (k : K) : Option V → Overlay K V
  | some v =>
    { live := o.live.insert k v
      deleted := o.deleted.erase k
      disjoint := by
        intro j hj
        rw [Finset.mem_erase] at hj
        rw [lookup_insert_of_ne _ hj.1]
        exact o.disjoint j hj.2 }
  | none =>
    { live := o.live.erase k
      deleted := if backed then insert k o.deleted else o.deleted
      disjoint := by
        intro j hj
        rw [lookup_erase_ite]
        split_ifs with hjk
        · rfl
        · apply o.disjoint
          split_ifs at hj
          · exact (Finset.mem_insert.mp hj).resolve_left hjk
          · exact hj }

@[simp] theorem live_write (backed : Bool) (k : K) (v : Option V) :
    (o.write backed k v).live = o.live.assign k v := by
  cases v <;> rfl

theorem read_write_backed {backed : Bool} {base : Option (FMap K V)}
    (hbacked : base.isSome = true → backed = true) (k j : K) (v : Option V) :
    (o.write backed k v).read base j = if j = k then v else o.read base j := by
  by_cases hj : j = k
  · subst hj
    rw [if_pos rfl]
    cases v with
    | some => simp [write, read]
    | none =>
      cases base with
      | some =>
        have hb : backed = true := hbacked rfl
        simp [write, read, hb]
      | none => simp [write, read]
  · rw [if_neg hj]
    cases v with
    | some => simp [write, read, hj, lookup_insert_of_ne]
    | none =>
      have hlive : (o.live.erase k).lookup j = o.live.lookup j := lookup_erase_ne hj
      cases backed with
      | true => simp [write, read, hj, hlive]
      | false => simp [write, read, hlive]

theorem read_write (k j : K) (v : Option V) :
    (o.write base.isSome k v).read base j = if j = k then v else o.read base j :=
  o.read_write_backed id k j v

@[simp] theorem read_empty (k : K) :
    (empty : Overlay K V).read base k = base.bind fun m => m.lookup k := by
  simp [read, empty]

theorem read_none_base (k : K) : o.read none k = o.live.lookup k := by
  unfold read
  split_ifs with hk
  · exact (o.disjoint k hk).symm
  · simp

theorem read_of_live {o : Overlay K V} {k : K} {v : V} (h : o.live.lookup k = some v)
    (base : Option (FMap K V)) : o.read base k = some v := by
  have hk : k ∉ o.deleted := fun hk => by simp [o.disjoint k hk] at h
  simp [read, hk, h]

def merged : FMap K V := keysLookupEquiv.symm
    ⟨((o.live.keys ∪ (base.getD ∅).keys).filter fun k => (o.read base k).isSome, o.read base), by
      intro k
      simp only [Finset.mem_filter, Finset.mem_union, Finmap.mem_keys, iff_and_self]
      intro h
      by_contra hk
      rw [not_or, ← Finmap.lookup_eq_none, ← Finmap.lookup_eq_none] at hk
      cases base with
      | none => simp [read, hk.1] at h
      | some m =>
        have hm : m.lookup k = none := hk.2
        simp [read, hk.1, hm] at h⟩

@[simp] theorem lookup_merged (k : K) : (o.merged base).lookup k = o.read base k := by
  rw [merged, keysLookupEquiv_symm_apply_lookup]

theorem merged_congr {o o' : Overlay K V} {base base' : Option (FMap K V)}
    (h : o.read base = o'.read base') : o.merged base = o'.merged base' := by
  apply ext_lookup
  intro k
  rw [lookup_merged, lookup_merged, h]

theorem merged_write (k : K) (v : Option V) :
    (o.write base.isSome k v).merged base = (o.merged base).assign k v := by
  apply ext_lookup
  intro j
  simp [read_write]

theorem merged_empty (m : FMap K V) : (empty : Overlay K V).merged (some m) = m := by
  apply ext_lookup
  intro k
  rw [lookup_merged, read_empty]
  rfl

theorem merged_none_base : o.merged none = o.live := by
  apply ext_lookup
  intro k
  rw [lookup_merged, read_none_base]

end Overlay

section Updates

variable {K α : Type} [DecidableEq K]

def updateAll (f : K → α) (rows : List (K × α)) : K → α :=
  rows.foldl (fun f row => Function.update f row.1 row.2) f

variable {rows : List (K × α)}

theorem updateAll_of_notMem (f : K → α) {k : K}
    (hk : ∀ row ∈ rows, row.1 ≠ k) : updateAll f rows k = f k := by
  induction rows generalizing f with
  | nil => rfl
  | cons row rows ih =>
    have hrow : row.1 ≠ k := hk row mem_cons_self
    change updateAll (Function.update f row.1 row.2) rows k = f k
    rw [ih _ fun r hr => hk r (mem_cons_of_mem _ hr)]
    exact Function.update_of_ne hrow.symm _ _

theorem updateAll_of_mem (f : K → α)
    (hnodup : rows.Pairwise fun a b => a.1 ≠ b.1) {row : K × α} (hrow : row ∈ rows) :
    updateAll f rows row.1 = row.2 := by
  induction rows generalizing f with
  | nil => simp at hrow
  | cons first rows ih =>
    obtain ⟨hfirst, hrest⟩ := pairwise_cons.mp hnodup
    change updateAll (Function.update f first.1 first.2) rows row.1 = row.2
    rcases mem_cons.mp hrow with rfl | hmem
    · rw [updateAll_of_notMem _ fun r hr => (hfirst r hr).symm]
      exact Function.update_self ..
    · exact ih _ hrest hmem

omit [DecidableEq K] in
/-- The rows that turn one function into another: no key twice, and all differences. -/
structure Replays (f g : K → α) (rows : List (K × α)) : Prop where
  nodup : rows.Pairwise fun a b => a.1 ≠ b.1
  value : ∀ row ∈ rows, row.2 = g row.1
  rest : ∀ k, (∀ row ∈ rows, row.1 ≠ k) → f k = g k

theorem Replays.updateAll_eq {f g : K → α} (h : Replays f g rows) : updateAll f rows = g := by
  funext k
  by_cases hk : ∃ row ∈ rows, row.1 = k
  · obtain ⟨row, hrow, rfl⟩ := hk
    rw [updateAll_of_mem f h.nodup hrow, h.value row hrow]
  · push Not at hk
    rw [updateAll_of_notMem f hk, h.rest k hk]

end Updates

/-- First and latest value of a key since tracking began. -/
structure DeltaValue (V : Type) where
  oldValue : Option V
  newValue : Option V
  deriving DecidableEq

structure Change (K V : Type) where
  key : K
  oldValue : Option V
  newValue : Option V
  deriving DecidableEq

/-- Which of its two values a change installs. -/
def Change.value {K V : Type} (c : Change K V) (forward : Bool) : Option V :=
  if forward then c.newValue else c.oldValue

def Change.row {K V : Type} (forward : Bool) (c : Change K V) : K × Option V :=
  (c.key, c.value forward)

section Tracking

variable {K V : Type} [DecidableEq K] [DecidableEq V]

/-- Merge one more write into the tracked changes. -/
def recordDelta (m : FMap K (DeltaValue V)) (k : K) (oldValue newValue : Option V) :
    FMap K (DeltaValue V) :=
  match m.lookup k with
  | some entry =>
    if oldValue = newValue then m
    else if entry.oldValue = newValue then m.erase k
    else m.insert k { entry with newValue }
  | none => if oldValue ≠ newValue then m.insert k { oldValue, newValue } else m

theorem recordDelta_eq (m : FMap K (DeltaValue V)) (k : K) (oldValue newValue : Option V) :
    recordDelta m k oldValue newValue = m ∨
      ∃ o, recordDelta m k oldValue newValue = m.assign k o := by
  unfold recordDelta
  split
  · split_ifs
    · exact .inl rfl
    · exact .inr ⟨none, rfl⟩
    · exact .inr ⟨some _, rfl⟩
  · split_ifs
    · exact .inr ⟨some _, rfl⟩
    · exact .inl rfl

theorem size_recordDelta_le (m : FMap K (DeltaValue V)) (k : K) (oldValue newValue : Option V) :
    (recordDelta m k oldValue newValue).size ≤ m.size + 1 := by
  rcases recordDelta_eq m k oldValue newValue with h | ⟨o, h⟩
  · rw [h]
    exact Nat.le_succ _
  · rw [h]
    exact size_assign_le m k o

/-- The tracker knows every key on which `f` and `g` differ, with both values. -/
def Tracks (m : FMap K (DeltaValue V)) (f g : K → Option V) : Prop :=
  ∀ k, (m.lookup k = none → f k = g k) ∧
    ∀ d, m.lookup k = some d → d.oldValue = f k ∧ d.newValue = g k ∧ f k ≠ g k

omit [DecidableEq V] in
theorem Tracks.empty (f : K → Option V) : Tracks (∅ : FMap K (DeltaValue V)) f f := by
  intro k
  simp

theorem Tracks.record {m : FMap K (DeltaValue V)} {f g g' : K → Option V} (h : Tracks m f g)
    (k : K) (new : Option V) (hk : g' k = new) (hrest : ∀ j, j ≠ k → g' j = g j) :
    Tracks (recordDelta m k (g k) new) f g' := by
  intro j
  obtain ⟨hnone, hsome⟩ := h j
  by_cases hj : j = k
  · subst hj
    rw [hk]
    unfold recordDelta
    cases hm : m.lookup j with
    | none =>
      have hfg := hnone hm
      by_cases hsame : g j = new
      · simp [hsame, hm, hfg]
      · simp [hsame, hfg]
    | some d =>
      obtain ⟨hold, hnew, hne⟩ := hsome d hm
      by_cases hsame : g j = new
      · simp only [hsame, if_true, hm]
        refine ⟨by simp, ?_⟩
        intro d' hd'
        cases hd'
        exact ⟨hold, hnew.trans hsame, hsame ▸ hne⟩
      · by_cases hback : d.oldValue = new
        · simp [hsame, hback, ← hold]
        · simp only [hsame, hback, if_false, lookup_insert_ite, if_true]
          refine ⟨by simp, ?_⟩
          intro d' hd'
          cases hd'
          exact ⟨hold, rfl, fun he => hback (hold.trans he)⟩
  · have hlook : (recordDelta m k (g k) new).lookup j = m.lookup j := by
      rcases recordDelta_eq m k (g k) new with h | ⟨o, h⟩
      · rw [h]
      · rw [h, lookup_assign, if_neg hj]
    rw [hlook, hrest j hj]
    exact ⟨hnone, hsome⟩

end Tracking

section Changes

variable {K V : Type} [LinearOrder K]

def changesOf (m : FMap K (DeltaValue V)) : List (Change K V) :=
  m.iter.map fun e => { key := e.1, oldValue := e.2.oldValue, newValue := e.2.newValue }

theorem length_changesOf [DecidableEq K] (m : FMap K (DeltaValue V)) :
    (changesOf m).length = m.size := by
  rw [changesOf, length_map, length_iter]

theorem changesOf_sorted (m : FMap K (DeltaValue V)) :
    (changesOf m).Pairwise fun a b => a.key < b.key :=
  pairwise_map.mpr (iter_sorted m)

variable [DecidableEq K]
variable {m : FMap K (DeltaValue V)} {f g : K → Option V}

theorem mem_changesOf {c : Change K V} :
    c ∈ changesOf m ↔ m.lookup c.key = some ⟨c.oldValue, c.newValue⟩ := by
  simp only [changesOf, mem_map, Prod.exists]
  constructor
  · rintro ⟨k, d, hd, rfl⟩
    exact mem_iter.mp hd
  · intro h
    exact ⟨c.key, _, mem_iter.mpr h, rfl⟩

theorem Tracks.change (h : Tracks m f g)
    {c : Change K V} (hc : c ∈ changesOf m) : c.oldValue = f c.key ∧ c.newValue = g c.key := by
  have hd := (h c.key).2 _ (mem_changesOf.mp hc)
  exact ⟨hd.1, hd.2.1⟩

theorem Tracks.unchanged (h : Tracks m f g)
    {k : K} (hk : ∀ c ∈ changesOf m, c.key ≠ k) : f k = g k := by
  apply (h k).1
  cases hm : m.lookup k with
  | none => rfl
  | some d => exact absurd rfl (hk ⟨k, d.oldValue, d.newValue⟩ (mem_changesOf.mpr hm))

omit [DecidableEq K] in
theorem changeRows_sorted (m : FMap K (DeltaValue V)) (forward : Bool) :
    ((changesOf m).map (Change.row forward)).Pairwise fun a b => a.1 < b.1 :=
  pairwise_map.mpr (changesOf_sorted m)

theorem Tracks.replays_forward
    (h : Tracks m f g) : Replays f g ((changesOf m).map (Change.row true)) where
  nodup := (changeRows_sorted m true).imp ne_of_lt
  value := by
    intro row hrow
    obtain ⟨c, hc, rfl⟩ := mem_map.mp hrow
    exact (h.change hc).2
  rest := by
    intro k hk
    exact h.unchanged fun c hc => hk _ (mem_map_of_mem hc)

theorem Tracks.replays_back
    (h : Tracks m f g) : Replays g f ((changesOf m).map (Change.row false)) where
  nodup := (changeRows_sorted m false).imp ne_of_lt
  value := by
    intro row hrow
    obtain ⟨c, hc, rfl⟩ := mem_map.mp hrow
    exact (h.change hc).1
  rest := by
    intro k hk
    exact (h.unchanged fun c hc => hk _ (mem_map_of_mem hc)).symm

end Changes

section NewKeys

variable {K V : Type}

/-- The keys that are present in `g` and absent from `f`. -/
def newKeys (f g : K → Option V) : Set K := {k | f k = none ∧ (g k).isSome = true}

@[simp] theorem newKeys_self (f : K → Option V) : newKeys f f = ∅ := by
  ext k
  simp only [newKeys, Set.mem_ofPred_eq, Set.mem_empty_iff_false, iff_false, not_and]
  intro hk
  simp [hk]

theorem newKeys_subset (f g h : K → Option V) : newKeys f h ⊆ newKeys f g ∪ newKeys g h := by
  rintro k ⟨hf, hh⟩
  cases hg : g k with
  | none => exact .inr ⟨hg, hh⟩
  | some => exact .inl ⟨hf, by simp [hg]⟩

theorem newKeys_update [DecidableEq K] (f : K → Option V) (k : K) (v : Option V) :
    newKeys f (Function.update f k v) = if f k = none ∧ v.isSome = true then {k} else ∅ := by
  ext j
  by_cases hj : j = k
  · subst hj
    by_cases hnew : f j = none ∧ v.isSome = true <;> simp [newKeys, hnew]
  · have hkeep : j ∉ newKeys f (Function.update f k v) := by
      rintro ⟨hnone, hsome⟩
      simp [hj, hnone] at hsome
    split_ifs <;> simp [hkeep, hj]

end NewKeys

end Foundation
