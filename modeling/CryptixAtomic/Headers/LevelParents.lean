import Mathlib.Tactic

/-!
# The parents of a header at every level

`calc_block_parents` computes the antichain of parents at every block level, and
`check_indirect_parents` compares a header with it: at every level the lengths are equal and
every parent is an expected one. A list that repeats a parent passes. By
`indirect_parents_exact_iff` this is the only way to differ.
-/
namespace CryptixAtomic.Headers

open List

variable {H : Type} [DecidableEq H]

structure Header (H : Type) where
  hash : H
  parentsByLevel : List (List H)

def Header.directParents (header : Header H) : List H := header.parentsByLevel.headD []

/-- The parents at every level, up to their order. -/
def Header.levels (header : Header H) : List (Multiset H) :=
  header.parentsByLevel.map Multiset.ofList

structure HeaderWithBlockLevel (H : Type) where
  header : Header H
  blockLevel : ℕ

/-- `originChildren` are the children of the origin in the relations store. -/
structure ParentsManager (H : Type) where
  maxBlockLevel : ℕ
  genesisHash : H
  headersStore : H → Option (HeaderWithBlockLevel H)
  hasReachabilityData : H → Bool
  isDagAncestorOf : H → H → Bool
  originChildren : List H

/-- The candidates of a level with their reference blocks, in the order of insertion. The order
in which a hash map lists them does not matter to the comparison of sets. -/
abbrev Candidates (H : Type) := List (H × List H)

def Candidates.insert (candidates : Candidates H) (parent : H) (references : List H) :
    Candidates H :=
  candidates.filter (·.1 ≠ parent) ++ [(parent, references)]

/-- An index set: every element at its first place. -/
def indexSet (l : List H) : List H := l.foldl (fun set x => if x ∈ set then set else set ++ [x]) []

namespace ParentsManager

variable (m : ParentsManager H)

def parentsAtLevel (header : Header H) (level : ℕ) : List H :=
  if header.parentsByLevel.isEmpty then [] else header.parentsByLevel.getD level [m.genesisHash]

/-- The blocks that stand for a candidate in reachability queries. -/
def referenceBlocks (level : ℕ) (parent : H) : Option (List H) :=
  if m.hasReachabilityData parent then some [parent]
  else do
    let headers ← m.originChildren.mapM m.headersStore
    some ((headers.filter fun h => parent ∈ m.parentsAtLevel h.header level).map (·.header.hash))

/-- One grandparent; the first ones, up to the marker, are all inserted. -/
def visit (level marker : ℕ) (candidates : Candidates H) (indexed : H × ℕ) :
    Option (Candidates H) := do
  let (parent, i) := indexed
  let references ← m.referenceBlocks level parent
  if i < marker then some (candidates.insert parent references)
  else if ¬ m.hasReachabilityData parent then some candidates
  else
    let retained := candidates.filter fun c => ¬ c.2.any (m.isDagAncestorOf · parent)
    if retained.length < candidates.length ∨
        ¬ retained.any (fun c => c.2.any (m.isDagAncestorOf parent ·)) then
      some (Candidates.insert retained parent references)
    else some retained

def levelParents (headers : List (HeaderWithBlockLevel H)) (level : ℕ) : Option (List H) := do
  let candidates : Candidates H := (headers.filter (level ≤ ·.blockLevel)).foldl
    (fun candidates h => candidates.insert h.header.hash [h.header.hash]) []
  let first := indexSet ((headers.take 1).flatMap (m.parentsAtLevel ·.header level))
  let marker := if candidates.isEmpty then first.length else 0
  let grandparents :=
    if candidates.isEmpty then indexSet (headers.flatMap (m.parentsAtLevel ·.header level))
    else indexSet ((headers.filter (·.blockLevel < level)).flatMap
      (m.parentsAtLevel ·.header level))
  if candidates.isEmpty ∧ marker = grandparents.length then some grandparents
  else
    let candidates ← grandparents.zipIdx.foldlM (m.visit level marker) candidates
    some (candidates.map (·.1))

def calcLevels (headers : List (HeaderWithBlockLevel H)) : List ℕ → Option (List (List H))
  | [] => some []
  | level :: levels => do
    let parents ← m.levelParents headers level
    if 0 < level ∧ parents = [m.genesisHash] then some []
    else do
      let rest ← calcLevels headers levels
      some (parents :: rest)

/-- The first direct parent in the future of the pruning point goes to the front. -/
def swapToFront {α : Type} (l : List α) (i : ℕ) : List α :=
  match l.head?, l[i]? with
  | some first, some x => (l.set i first).set 0 x
  | _, _ => l

def calcBlockParents (currentPruningPoint : H) (directParents : List H) :
    Option (List (List H)) := do
  let headers ← directParents.mapM m.headersStore
  let first ← directParents.findIdx? (m.isDagAncestorOf currentPruningPoint ·)
  m.calcLevels (swapToFront headers first) (List.range (m.maxBlockLevel + 1))

inductive RuleError (H : Type)
  | unexpectedIndirectParents (expected parents : List (List H))

def sameParents (expected parents : List H) : Bool :=
  parents.length = expected.length ∧ parents.all (· ∈ expected)

def checkIndirectParents (pruningPoint : H) (header : Header H) :
    Option (Except (RuleError H) Unit) := do
  let expected ← m.calcBlockParents pruningPoint header.directParents
  if header.parentsByLevel.length = expected.length ∧
      (expected.zip header.parentsByLevel).all (fun p => sameParents p.1 p.2) then some (.ok ())
  else some (.error (.unexpectedIndirectParents expected header.parentsByLevel))

theorem perm_of_sameParents {expected parents : List H} (hparents : parents.Nodup)
    (h : sameParents expected parents = true) : parents.Perm expected := by
  simp only [sameParents, all_eq_true, decide_eq_true_eq] at h
  exact (subperm_of_subset hparents h.2).perm_of_length_le h.1.ge

theorem indexSet_nodup (l : List H) : (indexSet l).Nodup := by
  unfold indexSet
  apply foldlRecOn l _ nodup_nil
  intro set hset x _
  split_ifs with hx
  · exact hset
  · exact hset.append (nodup_singleton x) (by simpa using hx)

/-- Every candidate is listed once. -/
def Distinct (candidates : Candidates H) : Prop := (candidates.map (·.1)).Nodup

omit [DecidableEq H] in
theorem Distinct.filter {candidates : Candidates H} (h : Distinct candidates)
    (p : H × List H → Bool) : Distinct (candidates.filter p) :=
  h.sublist (filter_sublist.map _)

theorem Distinct.insert {candidates : Candidates H} (h : Distinct candidates) (parent : H)
    (references : List H) : Distinct (candidates.insert parent references) := by
  rw [Distinct, Candidates.insert, map_append]
  apply (h.filter _).append (nodup_singleton _)
  simp [List.Disjoint]

variable {m}

theorem Distinct.visit {level marker : ℕ} {candidates next : Candidates H} {indexed : H × ℕ}
    (h : Distinct candidates) (hnext : m.visit level marker candidates indexed = some next) :
    Distinct next := by
  obtain ⟨references, -, hvisit⟩ := Option.bind_eq_some_iff.mp hnext
  split at hvisit
  · cases hvisit
    exact h.insert _ _
  · split at hvisit
    · cases hvisit
      exact h
    · dsimp only at hvisit
      split at hvisit
      · cases hvisit
        exact (h.filter _).insert _ _
      · cases hvisit
        exact h.filter _

theorem levelParents_nodup {headers : List (HeaderWithBlockLevel H)} {level : ℕ} {parents : List H}
    (h : m.levelParents headers level = some parents) : parents.Nodup := by
  have hfirst : Distinct ((headers.filter (level ≤ ·.blockLevel)).foldl
      (fun candidates h => candidates.insert h.header.hash [h.header.hash]) ([] : Candidates H)) :=
    foldlRecOn _ _ nodup_nil fun _ hcandidates h _ => hcandidates.insert _ _
  have hvisited : ∀ (level marker : ℕ) (indexed : List (H × ℕ)) (candidates next : Candidates H),
      Distinct candidates → indexed.foldlM (m.visit level marker) candidates = some next →
        Distinct next := by
    intro level marker indexed
    induction indexed with
    | nil =>
      rintro candidates _ hcandidates ⟨⟩
      exact hcandidates
    | cons x indexed ih =>
      intro candidates next hcandidates hnext
      obtain ⟨mid, hmid, hrest⟩ := Option.bind_eq_some_iff.mp hnext
      exact ih mid next (hcandidates.visit hmid) hrest
  unfold levelParents at h
  extract_lets candidates first marker grandparents at h
  split at h
  · rw [← Option.some.inj h]
    dsimp only [grandparents]
    split_ifs <;> exact indexSet_nodup _
  · obtain ⟨next, hnext, h⟩ := Option.bind_eq_some_iff.mp h
    cases h
    exact hvisited _ _ _ _ _ hfirst hnext

theorem calcLevels_nodup {headers : List (HeaderWithBlockLevel H)} {levels : List ℕ}
    {expected : List (List H)} (h : m.calcLevels headers levels = some expected) :
    ∀ parents ∈ expected, parents.Nodup := by
  induction levels generalizing expected with
  | nil =>
    cases h
    simp
  | cons level levels ih =>
    obtain ⟨parents, hparents, h⟩ := Option.bind_eq_some_iff.mp h
    split_ifs at h
    · cases h
      simp
    · obtain ⟨rest, hrest, h⟩ := Option.bind_eq_some_iff.mp h
      cases h
      exact forall_mem_cons.mpr ⟨levelParents_nodup hparents, ih hrest⟩

/-- The levels of an accepted header are the expected ones exactly where it repeats no parent. -/
theorem levels_of_checkIndirectParents {pruningPoint : H} {header : Header H}
    (h : m.checkIndirectParents pruningPoint header = some (.ok ())) :
    ∃ expected, m.calcBlockParents pruningPoint header.directParents = some expected ∧
      (header.levels = expected.map Multiset.ofList ↔ ∀ l ∈ header.parentsByLevel, l.Nodup) := by
  obtain ⟨expected, hexpected, hcheck⟩ := Option.bind_eq_some_iff.mp h
  split_ifs at hcheck with hsame
  · obtain ⟨hlength, hlevels⟩ := hsame
    refine ⟨expected, hexpected, fun heq l hl => ?_, fun hnodup => ?_⟩
    · have hmem : (l : Multiset H) ∈ header.levels := mem_map_of_mem hl
      rw [heq] at hmem
      obtain ⟨parents, hparents, hperm⟩ := mem_map.mp hmem
      obtain ⟨_, -, h⟩ := Option.bind_eq_some_iff.mp hexpected
      obtain ⟨_, -, h⟩ := Option.bind_eq_some_iff.mp h
      exact (Multiset.coe_eq_coe.mp hperm).nodup_iff.mp (calcLevels_nodup h parents hparents)
    · rw [Header.levels, ← map_snd_zip hlength.le, ← map_fst_zip hlength.ge, map_map,
        map_map, map_fst_zip hlength.ge]
      apply map_congr_left
      intro p hp
      have hparents := hnodup p.2 (of_mem_zip hp).2
      exact Multiset.coe_eq_coe.mpr (perm_of_sameParents hparents (all_eq_true.mp hlevels p hp))
  · cases hcheck

theorem indirect_parents_exact_iff (m : ParentsManager H) (pruningPoint : H) (header : Header H)
    (h : m.checkIndirectParents pruningPoint header = some (.ok ())) :
    (∃ expected, m.calcBlockParents pruningPoint header.directParents = some expected ∧
      (header.levels = expected.map Multiset.ofList ↔ ∀ l ∈ header.parentsByLevel, l.Nodup)) ∧
      ∀ other : Header H, m.checkIndirectParents pruningPoint other = some (.ok ()) →
        other.directParents = header.directParents → (∀ l ∈ header.parentsByLevel, l.Nodup) →
        (∀ l ∈ other.parentsByLevel, l.Nodup) → other.levels = header.levels := by
  obtain ⟨expected, hexpected, hlevels⟩ := levels_of_checkIndirectParents h
  constructor
  · exact ⟨expected, hexpected, hlevels⟩
  · intro other hother hdirect hnodup hnodup'
    obtain ⟨expected', hexpected', hlevels'⟩ := levels_of_checkIndirectParents hother
    rw [hdirect, hexpected] at hexpected'
    obtain rfl := Option.some.inj hexpected'
    rw [hlevels.mpr hnodup, hlevels'.mpr hnodup']

/-- Two direct parents, both at level 1. -/
def twoParents : ParentsManager ℕ where
  maxBlockLevel := 1
  genesisHash := 0
  headersStore hash := some ⟨⟨hash, [[0], [0]]⟩, 1⟩
  hasReachabilityData _ := true
  isDagAncestorOf a b := a == 0 || a == b
  originChildren := []

theorem repeated_parent_accepted : twoParents.calcBlockParents 0 [1, 2] = some [[1, 2], [1, 2]] ∧
      twoParents.checkIndirectParents 0 ⟨3, [[1, 2], [1, 1]]⟩ = some (.ok ()) :=
  ⟨rfl, rfl⟩

theorem reordered_parents_exact : ∃ expected, twoParents.calcBlockParents 0 [1, 2] = some expected ∧
      (Header.levels ⟨3, [[1, 2], [2, 1]]⟩ = expected.map Multiset.ofList ↔
        ∀ l ∈ [[1, 2], [2, 1]], l.Nodup) :=
  (indirect_parents_exact_iff twoParents 0 ⟨3, [[1, 2], [2, 1]]⟩ rfl).1

end ParentsManager
end CryptixAtomic.Headers
