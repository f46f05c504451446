import Mathlib.Data.String.Basic
import CryptixAtomic.Foundation.Upsert

/-!
# The snapshot quorum of the bootstrap

A node without state asks seeds, configured nodes and peers which snapshot they hold, and
accepts a snapshot that a seed and enough independent sources report, or, where the policy
allows it, one that most of the sources report that are not seeds. The maps of the source
are hash maps: what a run sees of their order is the parameter `order`.
-/
namespace CryptixAtomic.Bootstrap

open Foundation List FMap

inductive SourceKind
  | configured
  | seed
  | peer
  deriving DecidableEq

instance : ToString SourceKind where
  toString
    | .configured => "Configured"
    | .seed => "Seed"
    | .peer => "Peer"

def mergeSourceKind (existing incoming : SourceKind) : SourceKind :=
  if existing = .seed ∨ incoming = .seed then .seed
  else if existing = .configured ∨ incoming = .configured then .configured
  else .peer

structure SnapshotSupportEvidence (I S B : Type) where
  sourceIdentity : I
  sourceLabel : String
  snapshotId : S
  kind : SourceKind
  atDaaScore : ℕ
  atBlockHash : B

/-- What is read of an entry of `unique_support` besides its key. -/
structure Support (B : Type) where
  kind : SourceKind
  atDaaScore : ℕ
  atBlockHash : B

structure SnapshotCandidate (S B : Type) where
  snapshotId : S
  support : ℕ
  seedSupport : ℕ
  nonSeedSupport : ℕ
  bestDaa : ℕ
  bestBlockHash : B
  deriving DecidableEq

structure SnapshotQuorumDecision (S : Type) where
  snapshotId : S
  requiredVotes : ℕ
  policyDescription : String

structure SnapshotQuorumPolicy where
  allowPeerMajorityFallback : Bool
  requireSeedConfirmedIfAnySeed : Bool
  seedConfirmedMinNonSeedSources : ℕ
  peerMajorityMinSources : ℕ

def requiredSeedSources : ℕ := 1

variable {I S B : Type}

/-- The pair by which a later report of one source replaces an earlier one. -/
def Support.report (x : Support B) : ℕ ×ₗ B := toLex (x.atDaaScore, x.atBlockHash)

def mergeSupport [LinearOrder B] (existing source : Support B) : Support B :=
  let mergedKind := mergeSourceKind existing.kind source.kind
  if existing.report < source.report then { source with kind := mergedKind }
  else { existing with kind := mergedKind }

def SnapshotSupportEvidence.support (x : SnapshotSupportEvidence I S B) : Support B :=
  ⟨x.kind, x.atDaaScore, x.atBlockHash⟩

section Model

variable [ToString I] [ToString S] [ToString B]

def evidenceRow (source : SnapshotSupportEvidence I S B) : String :=
  s!"\x7blabel={source.sourceLabel}, identity={source.sourceIdentity}, kind={source.kind}, hash={source.snapshotId}, daa={source.atDaaScore}, block={source.atBlockHash}\x7d"

def snapshotEvidenceSummary (evidence : List (SnapshotSupportEvidence I S B)) : String :=
  let rows := String.intercalate ", " ((evidence.map evidenceRow).insertionSort (· ≤ ·))
  s!"[{rows}]"

variable [LinearOrder I] [LinearOrder S] [LinearOrder B] [Inhabited B]

/-- `lower` is `to_ascii_lowercase`. -/
def uniqueSupport (lower : S → S) (evidence : List (SnapshotSupportEvidence I S B)) :
    FMap (I ×ₗ S) (Support B) :=
  upsertAll mergeSupport (fun x => toLex (x.sourceIdentity, lower x.snapshotId)) (·.support) evidence

def uniqueIdentities (evidence : List (SnapshotSupportEvidence I S B)) : FMap I SourceKind :=
  upsertAll mergeSourceKind (·.sourceIdentity) (·.kind) evidence

def grouped (support : FMap (I ×ₗ S) (Support B)) : FMap S (List (Support B)) :=
  upsertAll (· ++ ·) (fun e => (ofLex e.1).2) (fun e => [e.2]) support.iter

def snapshotCandidate (snapshotId : S) (groupSources : List (Support B)) : SnapshotCandidate S B :=
  let support := groupSources.length
  let seedSupport := (groupSources.filter (·.kind = .seed)).length
  { snapshotId, support, seedSupport
    nonSeedSupport := support - seedSupport
    bestDaa := (groupSources.map (·.atDaaScore)).max?.getD 0
    bestBlockHash := (groupSources.map (·.atBlockHash)).max?.getD default }

/-- The candidates, in the order of the keys. -/
def snapshotCandidates (lower : S → S) (evidence : List (SnapshotSupportEvidence I S B)) :
    List (SnapshotCandidate S B) :=
  (grouped (uniqueSupport lower evidence)).iter.map fun e => snapshotCandidate e.1 e.2

namespace SnapshotCandidate

/-- What the candidates are sorted by, greatest first. -/
def standing (c : SnapshotCandidate S B) : ℕ ×ₗ ℕ ×ₗ ℕ ×ₗ ℕ ×ₗ B :=
  toLex (c.support, toLex (c.seedSupport, toLex (c.nonSeedSupport, toLex (c.bestDaa, c.bestBlockHash))))

/-- What the greatest candidate of the fallback is the greatest by. -/
def peerStanding (c : SnapshotCandidate S B) : ℕ ×ₗ ℕ ×ₗ ℕ ×ₗ B ×ₗ S :=
  toLex (c.nonSeedSupport, toLex (c.support, toLex (c.bestDaa, toLex (c.bestBlockHash, c.snapshotId))))

def confirmed (minNonSeed : ℕ) (c : SnapshotCandidate S B) : Bool :=
  decide (requiredSeedSources ≤ c.seedSupport) && decide (minNonSeed ≤ c.nonSeedSupport)

end SnapshotCandidate

def seedConfirmed (minNonSeed : ℕ) (candidates : List (SnapshotCandidate S B)) :
    Option (SnapshotCandidate S B) :=
  (candidates.insertionSort fun a b => b.standing ≤ a.standing).find? (·.confirmed minNonSeed)

/-- `max_by`, which keeps the last of several greatest elements. -/
def mostSupported : List (SnapshotCandidate S B) → Option (SnapshotCandidate S B)
  | [] => none
  | c :: candidates => some (candidates.foldl
      (fun best c => if best.peerStanding ≤ c.peerStanding then c else best) c)

def fallbackReason (seedQuorumFailure : Option String) : String :=
  if seedQuorumFailure.isSome then
    "seed-fallback peer-majority quorum (seed sources reachable but unusable)"
  else "peer-majority quorum (no reachable seed source)"

/-- The rest of `select_snapshot_quorum` when no snapshot is confirmed by a seed. -/
def selectByPeerMajority (policy : SnapshotQuorumPolicy) (evidenceSummary : String)
    (totalNonSeedSources : ℕ) (candidates : List (SnapshotCandidate S B))
    (seedQuorumFailure : Option String) : Except String (SnapshotQuorumDecision S) :=
  let failWith (fallbackErr : String) : Except String (SnapshotQuorumDecision S) :=
    .error (seedQuorumFailure.elim fallbackErr fun seedErr => s!"{seedErr}; {fallbackErr}")
  if policy.requireSeedConfirmedIfAnySeed && seedQuorumFailure.isSome then
    .error (seedQuorumFailure.getD "")
  else if !policy.allowPeerMajorityFallback then
    .error (seedQuorumFailure.getD "peer-majority bootstrap disabled by policy: fallback is disabled while no seed source is reachable")
  else
    let minSources := max policy.peerMajorityMinSources 1
    if totalNonSeedSources < minSources then
      failWith s!"peer-majority bootstrap unavailable: only {totalNonSeedSources} independent non-seed source(s) available (minimum required: {minSources}); evidence={evidenceSummary}"
    else
      let requiredVotes := max (totalNonSeedSources / 2 + 1) minSources
      match mostSupported candidates with
      | none => .error "peer-majority bootstrap unavailable: no snapshot candidates after non-seed grouping"
      | some selected =>
        if selected.nonSeedSupport < requiredVotes then
          failWith s!"peer-majority bootstrap quorum not reached for `{selected.snapshotId}` (required votes: {requiredVotes}, matching non-seed sources: {selected.nonSeedSupport}, total non-seed sources: {totalNonSeedSources}); evidence={evidenceSummary}"
        else
          let reason := fallbackReason seedQuorumFailure
          .ok
            { snapshotId := selected.snapshotId
              requiredVotes := requiredVotes
              policyDescription := s!"{reason} (minimum independent non-seed sources: {minSources}, matching non-seed sources: {selected.nonSeedSupport}/{totalNonSeedSources}, total support: {selected.support})" }

def selectSnapshotQuorum (lower : S → S)
    (order : List (SnapshotCandidate S B) → List (SnapshotCandidate S B))
    (evidence : List (SnapshotSupportEvidence I S B)) (policy : SnapshotQuorumPolicy) :
    Except String (SnapshotQuorumDecision S) :=
  let evidenceSummary := snapshotEvidenceSummary evidence
  let identities := (uniqueIdentities evidence).iter
  let totalSeedSources := (identities.filter (·.2 = .seed)).length
  let totalNonSeedSources := identities.length - totalSeedSources
  let candidates := order (snapshotCandidates lower evidence)
  let minNonSeed := max policy.seedConfirmedMinNonSeedSources 1
  if candidates.isEmpty then
    .error s!"no snapshot candidates available after grouping; evidence={evidenceSummary}"
  else if 0 < totalSeedSources then
    match seedConfirmed minNonSeed candidates with
    | some selected => .ok
        { snapshotId := selected.snapshotId
          requiredVotes := requiredSeedSources + minNonSeed
          policyDescription := s!"seed-confirmed quorum (required: >={requiredSeedSources} seed + >={minNonSeed} independent non-seeds; seed support: {selected.seedSupport}, non-seed support: {selected.nonSeedSupport}, total support: {selected.support})" }
    | none => selectByPeerMajority policy evidenceSummary totalNonSeedSources candidates
        (some s!"seed-confirmed bootstrap quorum not reached: found {totalSeedSources} reachable seed source(s) but no snapshot matched by >={requiredSeedSources} seed plus >={minNonSeed} independent non-seed sources")
  else selectByPeerMajority policy evidenceSummary totalNonSeedSources candidates none

end Model

section Meaning

variable [DecidableEq I] [DecidableEq S] (lower : S → S)
  (evidence : List (SnapshotSupportEvidence I S B))

/-- The sources that report the snapshot in a role that passes the test. -/
def reporters (test : SourceKind → Bool) (s : S) : Finset I :=
  ((evidence.filter fun x => decide (lower x.snapshotId = s) && test x.kind).map
    (·.sourceIdentity)).toFinset

def supporters (s : S) : Finset I :=
  reporters lower evidence (fun _ => true) s

def seedSupporters (s : S) : Finset I :=
  reporters lower evidence (· = .seed) s

/-- The sources that nobody reported as a seed. -/
def independent : Finset I :=
  ((evidence.map (·.sourceIdentity)).filter fun i =>
    evidence.all fun x => !(decide (i = x.sourceIdentity) && decide (x.kind = .seed))).toFinset

/-- A seed for one snapshot is a seed for every snapshot that it supports. -/
def OneRole : Prop :=
  ∀ x ∈ evidence, ∀ y ∈ evidence, x.sourceIdentity = y.sourceIdentity → x.kind = .seed →
    ∃ z ∈ evidence, z.sourceIdentity = y.sourceIdentity ∧ lower z.snapshotId = lower y.snapshotId ∧
      z.kind = .seed

/-- What an accepted snapshot needs. -/
def Backed (policy : SnapshotQuorumPolicy) (s : S) : Prop :=
  ((∃ x ∈ evidence, x.sourceIdentity ∈ supporters lower evidence s ∧ x.kind = .seed) ∧
      max policy.seedConfirmedMinNonSeedSources 1 ≤
        (supporters lower evidence s ∩ independent evidence).card) ∨
    (policy.allowPeerMajorityFallback = true ∧
      (independent evidence).card < 2 * (supporters lower evidence s ∩ independent evidence).card ∧
      max policy.peerMajorityMinSources 1 ≤
        (supporters lower evidence s ∩ independent evidence).card)

/-- At least one seed reports the snapshot, and enough sources that do not report it as seeds. -/
def Confirmed (minNonSeed : ℕ) (s : S) : Prop :=
  requiredSeedSources ≤ (seedSupporters lower evidence s).card ∧
    minNonSeed ≤ (supporters lower evidence s).card - (seedSupporters lower evidence s).card

variable [LinearOrder B] [Inhabited B]

/-- The last report of every source that supports the snapshot. -/
def latestReports (s : S) : List (SnapshotSupportEvidence I S B) :=
  evidence.filter fun x => lower x.snapshotId = s ∧ ∀ y ∈ evidence,
    y.sourceIdentity = x.sourceIdentity → lower y.snapshotId = s →
      y.support.report ≤ x.support.report

/-- How many sources support the snapshot, how many of them as seeds and as other sources, and
the greatest score and the greatest block hash among their last reports. -/
def evidenceStanding (s : S) : ℕ ×ₗ ℕ ×ₗ ℕ ×ₗ ℕ ×ₗ B :=
  let support := (supporters lower evidence s).card
  let seedSupport := (seedSupporters lower evidence s).card
  let latest := latestReports lower evidence s
  toLex (support, toLex (seedSupport, toLex (support - seedSupport,
    toLex ((latest.map (·.atDaaScore)).max?.getD 0,
      (latest.map (·.atBlockHash)).max?.getD default))))

/-- A confirmed snapshot that none stands above. -/
def Leads (minNonSeed : ℕ) (s : S) : Prop :=
  Confirmed lower evidence minNonSeed s ∧ ∀ x ∈ evidence,
    Confirmed lower evidence minNonSeed (lower x.snapshotId) →
      evidenceStanding lower evidence (lower x.snapshotId) ≤ evidenceStanding lower evidence s

/-- At most one snapshot leads. -/
def NoTie (minNonSeed : ℕ) : Prop :=
  ∀ x ∈ evidence, ∀ y ∈ evidence, Leads lower evidence minNonSeed (lower x.snapshotId) →
    Leads lower evidence minNonSeed (lower y.snapshotId) → lower x.snapshotId = lower y.snapshotId

end Meaning

theorem mergeSourceKind_comm (a b : SourceKind) : mergeSourceKind a b = mergeSourceKind b a := by
  cases a <;> cases b <;> rfl

theorem mergeSourceKind_right_comm (a b c : SourceKind) :
    mergeSourceKind (mergeSourceKind a b) c = mergeSourceKind (mergeSourceKind a c) b := by
  cases a <;> cases b <;> cases c <;> rfl

theorem mergeSourceKind_seed (a b : SourceKind) :
    decide (mergeSourceKind a b = .seed) = (decide (a = .seed) || decide (b = .seed)) := by
  cases a <;> cases b <;> rfl

theorem Support.ext_report {x y : Support B} (hkind : x.kind = y.kind)
    (hreport : x.report = y.report) :
    x = y := by
  cases x
  cases y
  simp only [Support.report, toLex_inj, Prod.mk.injEq] at hkind hreport
  simp [hkind, hreport]

section Merge

variable [LinearOrder B]

variable (x y : Support B)

theorem mergeSupport_kind : (mergeSupport x y).kind = mergeSourceKind x.kind y.kind := by
  unfold mergeSupport
  split_ifs <;> rfl

theorem mergeSupport_report : (mergeSupport x y).report = max x.report y.report := by
  unfold mergeSupport
  split_ifs with h
  · exact (max_eq_right h.le).symm
  · exact (max_eq_left (not_lt.mp h)).symm

theorem mergeSupport_comm : mergeSupport x y = mergeSupport y x := by
  apply Support.ext_report
  · simp only [mergeSupport_kind, mergeSourceKind_comm]
  · simp only [mergeSupport_report, max_comm]

theorem mergeSupport_right_comm (x y z : Support B) :
    mergeSupport (mergeSupport x y) z = mergeSupport (mergeSupport x z) y := by
  apply Support.ext_report
  · simp only [mergeSupport_kind, mergeSourceKind_right_comm x.kind y.kind]
  · simp only [mergeSupport_report, max_right_comm x.report y.report]

end Merge

theorem length_filter_iter {K V : Type} [LinearOrder K] [DecidableEq I] (m : FMap K V)
    (q : K × V → Bool)
    (source : K → I) (T : Finset I)
    (hinj : ∀ e ∈ m.iter, ∀ e' ∈ m.iter, q e = true → q e' = true → source e.1 = source e'.1 → e.1 = e'.1)
    (hmem : ∀ i, i ∈ T ↔ ∃ k v, m.lookup k = some v ∧ q (k, v) = true ∧ source k = i) :
    (m.iter.filter q).length = T.card := by
  have hnodup : ((m.iter.filter q).map fun e => source e.1).Nodup := by
    rw [Nodup, pairwise_map, pairwise_filter]
    apply (iter_sorted m).imp_of_mem
    intro e e' he he' hlt hq hq' heq
    exact hlt.ne (hinj e he e' he' hq hq' heq)
  rw [← length_map (fun e => source e.1), ← toFinset_card_of_nodup hnodup]
  congr 1
  ext i
  rw [mem_toFinset, hmem]
  simp [mem_iter, and_assoc]

theorem length_sub_filter {X : Type} (p : X → Bool) (l : List X) :
    l.length - (l.filter p).length = (l.filter fun x => !p x).length := by
  have hlen := length_eq_length_filter_add p (l := l)
  omega

theorem exists_lookup_iff {V : Type} (o : Option V) (p : V → Bool) :
    (∃ v, o = some v ∧ (!p v) = true) ↔ o.any (fun _ => true) = true ∧ ¬ o.any p = true := by
  cases o <;> simp

theorem max?_congr {X : Type} [LinearOrder X] {l l' : List X} (h : ∀ x, x ∈ l ↔ x ∈ l') :
    l.max? = l'.max? := by
  cases hmax : l'.max? with
  | none =>
    rw [max?_eq_none_iff] at hmax ⊢
    exact eq_nil_iff_forall_not_mem.mpr fun x hx => by simpa [hmax] using (h x).mp hx
  | some m =>
    rw [max?_eq_some_iff] at hmax ⊢
    exact ⟨(h m).mpr hmax.1, fun x hx => hmax.2 x ((h x).mp hx)⟩

section Counts

variable [LinearOrder I] {evidence : List (SnapshotSupportEvidence I S B)}

theorem uniqueIdentities_any (evidence : List (SnapshotSupportEvidence I S B))
    (p : SourceKind → Bool)
    (hp : ∀ a b, p (mergeSourceKind a b) = (p a || p b)) (i : I) :
    ((uniqueIdentities evidence).lookup i).any p = true ↔
      ∃ x ∈ evidence, i = x.sourceIdentity ∧ p x.kind = true := by
  rw [uniqueIdentities, any_lookup_upsertAll hp]
  simp

theorem mem_independent {i : I} : i ∈ independent evidence ↔
    (∃ x ∈ evidence, i = x.sourceIdentity) ∧
      ¬ ∃ x ∈ evidence, i = x.sourceIdentity ∧ x.kind = .seed := by
  simp [independent, @eq_comm _ i, imp_iff_not_or]

theorem independent_card : (uniqueIdentities evidence).iter.length -
    ((uniqueIdentities evidence).iter.filter (·.2 = .seed)).length =
    (independent evidence).card := by
  rw [length_sub_filter]
  apply length_filter_iter _ _ id
  · exact fun _ _ _ _ _ _ heq => heq
  · intro i
    have hany := uniqueIdentities_any evidence (fun _ => true) (fun _ _ => rfl) i
    have hseed := uniqueIdentities_any evidence (fun k => decide (k = .seed))
      mergeSourceKind_seed i
    simp only [and_true, decide_eq_true_eq] at hany hseed
    rw [mem_independent, ← hany, ← hseed, ← exists_lookup_iff]
    simp

variable [LinearOrder S] [LinearOrder B] {lower : S → S}

theorem uniqueSupport_any (lower : S → S) (evidence : List (SnapshotSupportEvidence I S B))
    (p : SourceKind → Bool) (hp : ∀ a b, p (mergeSourceKind a b) = (p a || p b)) (i : I) (s : S) :
    ((uniqueSupport lower evidence).lookup (toLex (i, s))).any (fun v => p v.kind) = true ↔
      ∃ x ∈ evidence, (i = x.sourceIdentity ∧ s = lower x.snapshotId) ∧ p x.kind = true := by
  rw [uniqueSupport, any_lookup_upsertAll fun a b => by rw [mergeSupport_kind, hp]]
  simp [SnapshotSupportEvidence.support]

omit [LinearOrder B] in
theorem mem_reporters {test : SourceKind → Bool} {i : I} {s : S} :
    i ∈ reporters lower evidence test s ↔
      ∃ x ∈ evidence, (i = x.sourceIdentity ∧ s = lower x.snapshotId) ∧ test x.kind = true := by
  simp only [reporters, mem_toFinset, mem_map, mem_filter, Bool.and_eq_true, decide_eq_true_eq]
  constructor
  · rintro ⟨x, ⟨hx, hs, htest⟩, hi⟩
    exact ⟨x, hx, ⟨hi.symm, hs.symm⟩, htest⟩
  · rintro ⟨x, hx, ⟨hi, hs⟩, htest⟩
    exact ⟨x, ⟨hx, hs.symm, htest⟩, hi.symm⟩

/-- The entries for a snapshot are as many as its reporters. -/
theorem length_entries (lower : S → S) (evidence : List (SnapshotSupportEvidence I S B))
    (test : SourceKind → Bool)
    (htest : ∀ a b, test (mergeSourceKind a b) = (test a || test b)) (s : S) :
    ((uniqueSupport lower evidence).iter.filter fun e =>
      decide ((ofLex e.1).2 = s) && test e.2.kind).length =
        (reporters lower evidence test s).card := by
  apply length_filter_iter _ _ fun k => (ofLex k).1
  · intro e _ e' _ hq hq' heq
    simp only [Bool.and_eq_true, decide_eq_true_eq] at hq hq'
    apply ofLex.injective
    exact Prod.ext heq (hq.1.trans hq'.1.symm)
  · intro i
    rw [mem_reporters, ← uniqueSupport_any lower evidence test htest, Option.any_eq_true]
    constructor
    · rintro ⟨v, hv, hkind⟩
      exact ⟨toLex (i, s), v, hv, by simpa using hkind, rfl⟩
    · rintro ⟨k, v, hv, hq, rfl⟩
      simp only [Bool.and_eq_true, decide_eq_true_eq] at hq
      obtain ⟨rfl, hkind⟩ := hq
      exact ⟨v, hv, hkind⟩

theorem le_report_entry_iff {k : I ×ₗ S} {v : Support B}
    (hv : (uniqueSupport lower evidence).lookup k = some v) (r : ℕ ×ₗ B) :
    r ≤ v.report ↔ ∃ x ∈ evidence, k = toLex (x.sourceIdentity, lower x.snapshotId) ∧
      r ≤ x.support.report := by
  have hany := any_lookup_upsertAll (f := mergeSupport) (p := fun v => decide (r ≤ v.report))
    (fun a b => by rw [mergeSupport_report, ← Bool.decide_or]; exact decide_eq_decide.mpr le_max_iff)
    (fun x : SnapshotSupportEvidence I S B => toLex (x.sourceIdentity, lower x.snapshotId))
    (·.support) evidence k
  rw [← uniqueSupport, hv] at hany
  simpa using Bool.eq_iff_iff.mp hany

theorem exists_entry (lower : S → S) {x : SnapshotSupportEvidence I S B} (hx : x ∈ evidence) :
    ∃ v, (uniqueSupport lower evidence).lookup (toLex (x.sourceIdentity, lower x.snapshotId)) =
      some v := by
  have hany := (uniqueSupport_any lower evidence (fun _ => true) (fun _ _ => rfl)
    x.sourceIdentity (lower x.snapshotId)).mpr ⟨x, hx, ⟨rfl, rfl⟩, rfl⟩
  obtain ⟨v, hv, -⟩ := Option.any_eq_true _ _ |>.mp hany
  exact ⟨v, hv⟩

/-- The entries for a snapshot carry the last reports of its supporters. -/
theorem report_entry_iff {s : S} {r : ℕ ×ₗ B} :
    (∃ e ∈ (uniqueSupport lower evidence).iter, (ofLex e.1).2 = s ∧ e.2.report = r) ↔
      ∃ x ∈ latestReports lower evidence s, x.support.report = r := by
  simp only [latestReports, mem_filter, decide_eq_true_eq]
  constructor
  · rintro ⟨⟨k, v⟩, he, rfl, rfl⟩
    have hle := le_report_entry_iff (mem_iter.mp he)
    obtain ⟨x, hx, rfl, hxv⟩ := (hle v.report).mp le_rfl
    have hvx := (hle x.support.report).mpr ⟨x, hx, rfl, le_rfl⟩
    have hlatest : ∀ y ∈ evidence, y.sourceIdentity = x.sourceIdentity →
        lower y.snapshotId = lower x.snapshotId → y.support.report ≤ x.support.report := by
      intro y hy hi hs
      exact ((hle y.support.report).mpr ⟨y, hy, by rw [hi, hs], le_rfl⟩).trans hxv
    exact ⟨x, ⟨hx, rfl, hlatest⟩, le_antisymm hvx hxv⟩
  · rintro ⟨x, ⟨hx, rfl, hlatest⟩, rfl⟩
    obtain ⟨v, hv⟩ := exists_entry lower hx
    have hle := le_report_entry_iff hv
    obtain ⟨y, hy, hkey, hyv⟩ := (hle v.report).mp le_rfl
    simp only [toLex_inj, Prod.mk.injEq] at hkey
    have hvx := hyv.trans (hlatest y hy hkey.1.symm hkey.2.symm)
    have hxv := (hle x.support.report).mpr ⟨x, hx, rfl, le_rfl⟩
    exact ⟨(_, v), mem_iter.mpr hv, rfl, le_antisymm hvx hxv⟩

theorem max?_reports (lower : S → S) (evidence : List (SnapshotSupportEvidence I S B)) {R : Type}
    [LinearOrder R] (field : ℕ ×ₗ B → R) (s : S) :
    ((((uniqueSupport lower evidence).iter.filter fun e => decide ((ofLex e.1).2 = s)).map
      (·.2)).map fun v => field v.report).max? =
        ((latestReports lower evidence s).map fun x => field x.support.report).max? := by
  apply max?_congr
  intro a
  simp only [map_map, mem_map, mem_filter, decide_eq_true_eq]
  constructor
  · rintro ⟨e, ⟨he, hs⟩, rfl⟩
    obtain ⟨x, hx, hr⟩ := report_entry_iff.mp ⟨e, he, hs, rfl⟩
    exact ⟨x, hx, congrArg field hr⟩
  · rintro ⟨x, hx, rfl⟩
    obtain ⟨e, he, hs, hr⟩ := report_entry_iff.mpr ⟨x, hx, rfl⟩
    exact ⟨e, ⟨he, hs⟩, congrArg field hr⟩

variable [Inhabited B] {c : SnapshotCandidate S B}

theorem candidate_eq (hc : c ∈ snapshotCandidates lower evidence) :
    c = snapshotCandidate c.snapshotId (((uniqueSupport lower evidence).iter.filter fun e =>
      decide ((ofLex e.1).2 = c.snapshotId)).map (·.2)) := by
  obtain ⟨⟨s, g⟩, he, rfl⟩ := mem_map.mp hc
  have hg := getD_lookup_upsertAll (fun e : (I ×ₗ S) × Support B => (ofLex e.1).2) (·.2)
    (uniqueSupport lower evidence).iter s
  rw [← grouped, mem_iter.mp he, Option.getD_some] at hg
  exact congrArg (snapshotCandidate s) hg

/-- The snapshots of the candidates are the reported ones. -/
theorem exists_candidate_iff (lower : S → S) {s : S} :
    (∃ c ∈ snapshotCandidates lower evidence, c.snapshotId = s) ↔
      ∃ x ∈ evidence, lower x.snapshotId = s := by
  have hgroup := any_lookup_upsertAll (p := fun _ => true) (f := (· ++ ·)) (fun _ _ => rfl)
    (fun e : (I ×ₗ S) × Support B => (ofLex e.1).2) (fun e => [e.2])
    (uniqueSupport lower evidence).iter s
  rw [← grouped, Bool.eq_iff_iff, Option.any_eq_true, any_eq_true] at hgroup
  constructor
  · rintro ⟨c, hc, rfl⟩
    obtain ⟨⟨s, g⟩, he, rfl⟩ := mem_map.mp hc
    obtain ⟨⟨k, v⟩, he, hs⟩ := hgroup.mp ⟨g, mem_iter.mp he, rfl⟩
    obtain ⟨x, hx, rfl, -⟩ := (le_report_entry_iff (mem_iter.mp he) v.report).mp le_rfl
    simp only [Bool.and_true, decide_eq_true_eq] at hs
    exact ⟨x, hx, hs.symm⟩
  · rintro ⟨x, hx, rfl⟩
    obtain ⟨v, hv⟩ := exists_entry lower hx
    obtain ⟨g, hg, -⟩ := hgroup.mpr ⟨_, mem_iter.mpr hv, by simp⟩
    exact ⟨_, mem_map_of_mem (mem_iter.mpr hg), rfl⟩

theorem candidate_support (hc : c ∈ snapshotCandidates lower evidence) :
    c.support = (supporters lower evidence c.snapshotId).card ∧
      c.seedSupport = (seedSupporters lower evidence c.snapshotId).card ∧
      c.nonSeedSupport = c.support - c.seedSupport := by
  rw [supporters, seedSupporters, ← length_entries _ _ _ fun _ _ => rfl,
    ← length_entries _ _ _ mergeSourceKind_seed]
  constructor
  · rw [candidate_eq hc]
    simp [snapshotCandidate]
  · constructor
    · rw [candidate_eq hc]
      simp only [snapshotCandidate, filter_map, length_map, filter_filter]
      simp [Bool.and_comm]
    · rw [candidate_eq hc]
      rfl

theorem standing_eq (hc : c ∈ snapshotCandidates lower evidence) :
    c.standing = evidenceStanding lower evidence c.snapshotId := by
  obtain ⟨hsupport, hseed, hnon⟩ := candidate_support hc
  have hdaa := congrArg (·.getD 0) (max?_reports lower evidence (fun r => (ofLex r).1) c.snapshotId)
  have hhash := congrArg (·.getD default)
    (max?_reports lower evidence (fun r => (ofLex r).2) c.snapshotId)
  replace hdaa := (congrArg SnapshotCandidate.bestDaa (candidate_eq hc)).trans hdaa
  replace hhash := (congrArg SnapshotCandidate.bestBlockHash (candidate_eq hc)).trans hhash
  rw [SnapshotCandidate.standing, hnon, hsupport, hseed, hdaa, hhash]
  rfl

theorem confirmed_iff (hc : c ∈ snapshotCandidates lower evidence) (n : ℕ) :
    c.confirmed n = true ↔ Confirmed lower evidence n c.snapshotId := by
  obtain ⟨hsupport, hseed, hnon⟩ := candidate_support hc
  rw [SnapshotCandidate.confirmed, hnon, hsupport, hseed, Confirmed, Bool.and_eq_true,
    decide_eq_true_eq, decide_eq_true_eq]

theorem leads_iff (hc : c ∈ snapshotCandidates lower evidence) (n : ℕ) :
    Leads lower evidence n c.snapshotId ↔ c.confirmed n = true ∧
      ∀ d ∈ snapshotCandidates lower evidence, d.confirmed n = true → d.standing ≤ c.standing := by
  rw [Leads, confirmed_iff hc]
  apply and_congr_right
  intro _
  constructor
  · intro h d hd hdn
    obtain ⟨x, hx, hs⟩ := (exists_candidate_iff lower).mp ⟨d, hd, rfl⟩
    rw [confirmed_iff hd, ← hs] at hdn
    rw [standing_eq hd, standing_eq hc, ← hs]
    exact h x hx hdn
  · intro h x hx hxn
    obtain ⟨d, hd, hs⟩ := (exists_candidate_iff lower).mpr ⟨x, hx, rfl⟩
    rw [← hs, ← confirmed_iff hd] at hxn
    rw [← hs, ← standing_eq hd, ← standing_eq hc]
    exact h d hd hxn

theorem nonSeedSupport_eq (hrole : OneRole lower evidence)
    (hc : c ∈ snapshotCandidates lower evidence) :
    c.nonSeedSupport = (supporters lower evidence c.snapshotId ∩ independent evidence).card := by
  obtain ⟨hsupport, hseed, hnon⟩ := candidate_support hc
  have hsub : seedSupporters lower evidence c.snapshotId ⊆ supporters lower evidence c.snapshotId := by
    intro i hi
    obtain ⟨x, hx, hkey, -⟩ := mem_reporters.mp hi
    exact mem_reporters.mpr ⟨x, hx, hkey, rfl⟩
  rw [hnon, hsupport, hseed, ← Finset.card_sdiff_of_subset hsub]
  congr 1
  ext i
  simp only [Finset.mem_sdiff, Finset.mem_inter, and_congr_right_iff, mem_independent]
  intro hi
  obtain ⟨y, hy, ⟨rfl, hs⟩, -⟩ := mem_reporters.mp hi
  rw [and_iff_right ⟨y, hy, rfl⟩, not_iff_not, seedSupporters, mem_reporters]
  constructor
  · rintro ⟨x, hx, ⟨hxi, -⟩, hkind⟩
    exact ⟨x, hx, hxi, of_decide_eq_true hkind⟩
  · rintro ⟨x, hx, hxi, hkind⟩
    obtain ⟨z, hz, hzi, hzs, hzkind⟩ := hrole x hx y hy hxi.symm hkind
    exact ⟨z, hz, ⟨hzi.symm, hs.trans hzs.symm⟩, decide_eq_true hzkind⟩

theorem seedSupport_pos (hc : c ∈ snapshotCandidates lower evidence) (hpos : 0 < c.seedSupport) :
    ∃ x ∈ evidence, x.sourceIdentity ∈ supporters lower evidence c.snapshotId ∧ x.kind = .seed := by
  rw [(candidate_support hc).2.1] at hpos
  obtain ⟨i, hi⟩ := Finset.card_pos.mp hpos
  obtain ⟨x, hx, ⟨rfl, hs⟩, hkind⟩ := mem_reporters.mp hi
  exact ⟨x, hx, mem_reporters.mpr ⟨x, hx, ⟨rfl, hs⟩, rfl⟩, of_decide_eq_true hkind⟩

end Counts

/-- The greatest element that satisfies `p`, by a key. -/
def Greatest {X K : Type} [LE K] (key : X → K) (p : X → Prop) (l : List X) : Option X → Prop
  | none => ∀ x ∈ l, ¬ p x
  | some c => (c ∈ l ∧ p c) ∧ ∀ d ∈ l, p d → key d ≤ key c

theorem Greatest.unique {X K : Type} [LE K] {key : X → K} {p : X → Prop} {l l' : List X}
    {o o' : Option X} (h : Greatest key p l o) (h' : Greatest key p l' o') (hperm : l'.Perm l)
    (hinj : ∀ x, Greatest key p l (some x) → ∀ y, Greatest key p l (some y) → x = y) : o = o' := by
  cases o with
  | none =>
    cases o' with
    | none => rfl
    | some c' => exact absurd h'.1.2 (h c' (hperm.subset h'.1.1))
  | some c =>
    have hc' := hperm.symm.subset h.1.1
    cases o' with
    | none => exact absurd h.1.2 (h' c hc')
    | some c' =>
      have hmax : ∀ d ∈ l, p d → key d ≤ key c' := fun d hd => h'.2 d (hperm.symm.subset hd)
      rw [hinj c h c' ⟨⟨hperm.subset h'.1.1, h'.1.2⟩, hmax⟩]

section Choice

variable [LinearOrder S] [LinearOrder B]

omit [LinearOrder S] in
theorem seedConfirmed_greatest (n : ℕ) (cs : List (SnapshotCandidate S B)) :
    Greatest SnapshotCandidate.standing (fun c => c.confirmed n = true) cs
    (seedConfirmed n cs) := by
  have htotal : Std.Total fun a b : SnapshotCandidate S B => b.standing ≤ a.standing :=
    ⟨fun a b => le_total b.standing a.standing⟩
  have htrans : IsTrans (SnapshotCandidate S B) fun a b => b.standing ≤ a.standing :=
    ⟨fun _ _ _ hab hbc => hbc.trans hab⟩
  have hsorted := pairwise_insertionSort (fun a b : SnapshotCandidate S B => b.standing ≤ a.standing) cs
  have hperm := perm_insertionSort (fun a b : SnapshotCandidate S B => b.standing ≤ a.standing) cs
  cases hfound : seedConfirmed n cs with
  | none =>
    intro c hc
    exact find?_eq_none.mp hfound c (hperm.symm.subset hc)
  | some =>
    obtain ⟨hc, before, after, hsplit, hbefore⟩ := find?_eq_some_iff_append.mp hfound
    rw [hsplit] at hsorted hperm
    apply And.intro ⟨hperm.subset (by simp), hc⟩
    intro d hd hdn
    rcases mem_append.mp (hperm.symm.subset hd) with hd | hd
    · have hnot := hbefore d hd
      simp [hdn] at hnot
    · rcases mem_cons.mp hd with rfl | hd
      · exact le_rfl
      · exact (pairwise_cons.mp (pairwise_append.mp hsorted).2.1).1 d hd

theorem mostSupported_greatest (cs : List (SnapshotCandidate S B)) :
    Greatest SnapshotCandidate.peerStanding (fun _ => True) cs (mostSupported cs) := by
  cases cs with
  | nil => exact fun _ hc => absurd hc not_mem_nil
  | cons c cs =>
    suffices h : ∀ (cs : List (SnapshotCandidate S B)) (c : SnapshotCandidate S B),
        (cs.foldl (fun best c => if best.peerStanding ≤ c.peerStanding then c else best) c ∈ c :: cs) ∧
        ∀ d ∈ c :: cs, d.peerStanding ≤
          (cs.foldl (fun best c => if best.peerStanding ≤ c.peerStanding then c else best) c).peerStanding from
      ⟨⟨(h cs c).1, trivial⟩, fun d hd _ => (h cs c).2 d hd⟩
    intro cs
    induction cs with
    | nil => simp
    | cons d cs ih =>
      intro c
      rw [foldl_cons]
      split_ifs with hle
      · obtain ⟨hmem, hmax⟩ := ih d
        exact ⟨mem_cons_of_mem c hmem, forall_mem_cons.mpr ⟨hle.trans (hmax d (by simp)), hmax⟩⟩
      · obtain ⟨hmem, hmax⟩ := ih c
        have hc := hmax c (by simp)
        simp only [forall_mem_cons] at hmax ⊢
        exact ⟨by simp at hmem ⊢; tauto, hc, (not_le.mp hle).le.trans hc, hmax.2⟩

omit [LinearOrder S] in
/-- A leading candidate that comes first is found first. -/
theorem seedConfirmed_cons {n : ℕ} {c : SnapshotCandidate S B} {cs : List (SnapshotCandidate S B)}
    (hc : c.confirmed n = true)
    (hmax : ∀ d ∈ cs, d.confirmed n = true → d.standing ≤ c.standing) :
    seedConfirmed n (c :: cs) = some c := by
  have hfind : ∀ cs : List (SnapshotCandidate S B),
      (∀ d ∈ cs, d.confirmed n = true → d.standing ≤ c.standing) →
        (cs.orderedInsert (fun a b => b.standing ≤ a.standing) c).find? (·.confirmed n) = some c := by
    intro cs
    induction cs with
    | nil => simp [hc]
    | cons d cs ih =>
      intro hmax
      rw [orderedInsert_cons]
      split_ifs with hle
      · simp [hc]
      · rw [find?_cons_of_neg fun hd => hle (hmax d mem_cons_self hd)]
        exact ih fun e he => hmax e (mem_cons_of_mem d he)
  apply hfind
  exact fun d hd => hmax d ((perm_insertionSort _ _).subset hd)

/-- The order that visits the candidate first. -/
def visitFirst (c : SnapshotCandidate S B) (cs : List (SnapshotCandidate S B)) :
    List (SnapshotCandidate S B) :=
  if c ∈ cs then c :: cs.erase c else cs

theorem visitFirst_perm (c : SnapshotCandidate S B) (cs : List (SnapshotCandidate S B)) :
    (visitFirst c cs).Perm cs := by
  unfold visitFirst
  split_ifs with hc
  · exact (perm_cons_erase hc).symm
  · rfl

end Choice

theorem snapshotEvidenceSummary_perm [ToString I] [ToString S] [ToString B]
    {evidence evidence' : List (SnapshotSupportEvidence I S B)} (h : evidence'.Perm evidence) :
    snapshotEvidenceSummary evidence' = snapshotEvidenceSummary evidence := by
  have hrows : (evidence'.map evidenceRow).insertionSort (· ≤ ·) =
      (evidence.map evidenceRow).insertionSort (· ≤ ·) := by
    apply Perm.eq_of_pairwise fun _ _ _ _ => le_antisymm
    · exact pairwise_insertionSort (· ≤ ·) _
    · exact pairwise_insertionSort (· ≤ ·) _
    · exact (perm_insertionSort _ _).trans ((h.map _).trans (perm_insertionSort _ _).symm)
  rw [snapshotEvidenceSummary, snapshotEvidenceSummary, hrows]

section Decision

variable [LinearOrder I] [LinearOrder S] [LinearOrder B] [Inhabited B] {lower : S → S}
  {evidence : List (SnapshotSupportEvidence I S B)} {policy : SnapshotQuorumPolicy}

theorem candidates_perm (lower : S → S) {evidence' : List (SnapshotSupportEvidence I S B)}
    (h : evidence'.Perm evidence) :
    snapshotCandidates lower evidence' = snapshotCandidates lower evidence := by
  rw [snapshotCandidates, snapshotCandidates, uniqueSupport, uniqueSupport,
    upsertAll_perm mergeSupport_comm mergeSupport_right_comm _ _ h]

theorem eq_of_snapshotId {c d : SnapshotCandidate S B} (hc : c ∈ snapshotCandidates lower evidence)
    (hd : d ∈ snapshotCandidates lower evidence) (h : c.snapshotId = d.snapshotId) : c = d := by
  rw [candidate_eq hc, candidate_eq hd, h]

theorem mostSupported_unique {cs : List (SnapshotCandidate S B)}
    (hcs : cs.Perm (snapshotCandidates lower evidence)) (c : SnapshotCandidate S B)
    (hc : Greatest SnapshotCandidate.peerStanding (fun _ => True) cs (some c))
    (d : SnapshotCandidate S B)
    (hd : Greatest SnapshotCandidate.peerStanding (fun _ => True) cs (some d)) : c = d := by
  have hstanding := le_antisymm (hd.2 c hc.1.1 trivial) (hc.2 d hd.1.1 trivial)
  apply eq_of_snapshotId (hcs.subset hc.1.1) (hcs.subset hd.1.1)
  simp only [SnapshotCandidate.peerStanding, toLex_inj, Prod.mk.injEq] at hstanding
  exact hstanding.2.2.2.2

theorem Greatest.leads {n : ℕ} {cs : List (SnapshotCandidate S B)} {c : SnapshotCandidate S B}
    (hcs : cs.Perm (snapshotCandidates lower evidence))
    (hc : Greatest SnapshotCandidate.standing (fun c => c.confirmed n = true) cs (some c)) :
    Leads lower evidence n c.snapshotId :=
  (leads_iff (hcs.subset hc.1.1) n).mpr ⟨hc.1.2, fun d hd => hc.2 d (hcs.symm.subset hd)⟩

theorem seedConfirmed_unique {n : ℕ} (htie : NoTie lower evidence n)
    {cs : List (SnapshotCandidate S B)} (hcs : cs.Perm (snapshotCandidates lower evidence))
    (c : SnapshotCandidate S B)
    (hc : Greatest SnapshotCandidate.standing (fun c => c.confirmed n = true) cs (some c))
    (d : SnapshotCandidate S B)
    (hd : Greatest SnapshotCandidate.standing (fun c => c.confirmed n = true) cs (some d)) :
    c = d := by
  obtain ⟨x, hx, hxc⟩ := (exists_candidate_iff lower).mp ⟨c, hcs.subset hc.1.1, rfl⟩
  obtain ⟨y, hy, hyd⟩ := (exists_candidate_iff lower).mp ⟨d, hcs.subset hd.1.1, rfl⟩
  have hst := htie x hx y hy (hxc ▸ hc.leads hcs) (hyd ▸ hd.leads hcs)
  exact eq_of_snapshotId (hcs.subset hc.1.1) (hcs.subset hd.1.1) (hxc ▸ hyd ▸ hst)

variable [ToString I] [ToString S] [ToString B]
  {order : List (SnapshotCandidate S B) → List (SnapshotCandidate S B)}

omit [ToString I] [ToString B] in
theorem backed_of_peerMajority (horder : ∀ l, (order l).Perm l) (hrole : OneRole lower evidence)
    {summary : String} {failure : Option String} {d : SnapshotQuorumDecision S}
    (h : selectByPeerMajority policy summary (independent evidence).card
      (order (snapshotCandidates lower evidence)) failure = .ok d) :
    Backed lower evidence policy d.snapshotId := by
  have hgreatest := mostSupported_greatest (order (snapshotCandidates lower evidence))
  simp only [selectByPeerMajority] at h
  split_ifs at h with _ hallow
  split at h
  · cases h
  · rename_i selected hselected
    rw [hselected] at hgreatest
    split_ifs at h with hvotes
    obtain rfl := Except.ok.inj h
    change Backed lower evidence policy selected.snapshotId
    rw [nonSeedSupport_eq hrole ((horder _).subset hgreatest.1.1), not_lt, max_le_iff] at hvotes
    exact .inr ⟨by simpa using hallow, by omega, hvotes.2⟩

theorem backed_of_ok (horder : ∀ l, (order l).Perm l) (hrole : OneRole lower evidence)
    {d : SnapshotQuorumDecision S} (h : selectSnapshotQuorum lower order evidence policy = .ok d) :
    Backed lower evidence policy d.snapshotId := by
  have hgreatest := seedConfirmed_greatest (max policy.seedConfirmedMinNonSeedSources 1)
    (order (snapshotCandidates lower evidence))
  simp only [selectSnapshotQuorum, independent_card] at h
  split_ifs at h
  · split at h
    · rename_i selected hselected
      rw [hselected] at hgreatest
      obtain ⟨hmem, hconfirmed⟩ := hgreatest.1
      replace hmem := (horder _).subset hmem
      rw [SnapshotCandidate.confirmed, nonSeedSupport_eq hrole hmem, Bool.and_eq_true,
        decide_eq_true_eq, decide_eq_true_eq] at hconfirmed
      cases h
      exact .inl ⟨seedSupport_pos hmem hconfirmed.1, hconfirmed.2⟩
    · exact backed_of_peerMajority horder hrole h
  · exact backed_of_peerMajority horder hrole h

/-- The outcome is a leading snapshot if the map yields that one first. -/
theorem select_visitFirst {c : SnapshotCandidate S B} (hc : c ∈ snapshotCandidates lower evidence)
    (hlead : Leads lower evidence (max policy.seedConfirmedMinNonSeedSources 1) c.snapshotId) :
    (selectSnapshotQuorum lower (visitFirst c) evidence policy).toOption.map (·.snapshotId) =
      some c.snapshotId := by
  obtain ⟨hconfirmed, hmax⟩ := (leads_iff hc _).mp hlead
  have hfirst := seedConfirmed_cons hconfirmed fun d (hd : d ∈ (snapshotCandidates lower evidence).erase c) =>
    hmax d (mem_of_mem_erase hd)
  have hseeds : 0 < ((uniqueIdentities evidence).iter.filter (·.2 = .seed)).length := by
    simp only [SnapshotCandidate.confirmed, Bool.and_eq_true, decide_eq_true_eq] at hconfirmed
    obtain ⟨x, hx, -, hkind⟩ := seedSupport_pos hc hconfirmed.1
    obtain ⟨k, hk, hseed⟩ := (Option.any_eq_true _ _).mp ((uniqueIdentities_any evidence
      (· = .seed) mergeSourceKind_seed x.sourceIdentity).mpr ⟨x, hx, rfl, decide_eq_true hkind⟩)
    exact length_pos_of_mem (mem_filter.mpr ⟨mem_iter.mpr hk, hseed⟩)
  simp only [selectSnapshotQuorum, visitFirst, if_pos hc, isEmpty_cons, if_pos hseeds, hfirst]
  rfl

/-- Where every source has one role, an accepted snapshot is backed. The outcome depends on no
order exactly where at most one snapshot leads. -/
theorem snapshot_quorum_backed (horder : ∀ l, (order l).Perm l) :
    (OneRole lower evidence → ∀ d, selectSnapshotQuorum lower order evidence policy = .ok d →
      Backed lower evidence policy d.snapshotId) ∧
    ((∀ evidence' order', evidence'.Perm evidence → (∀ l, (order' l).Perm l) →
      selectSnapshotQuorum lower order' evidence' policy =
        selectSnapshotQuorum lower order evidence policy) ↔
      NoTie lower evidence (max policy.seedConfirmedMinNonSeedSources 1)) := by
  apply And.intro fun hrole d hd => backed_of_ok horder hrole hd
  constructor
  · intro hsame x hx y hy hlx hly
    obtain ⟨c, hc, hcx⟩ := (exists_candidate_iff lower).mpr ⟨x, hx, rfl⟩
    obtain ⟨d, hd, hdy⟩ := (exists_candidate_iff lower).mpr ⟨y, hy, rfl⟩
    have hfirst := select_visitFirst hc (hcx ▸ hlx)
    have hsecond := select_visitFirst hd (hdy ▸ hly)
    rw [hsame evidence _ (.refl _) (visitFirst_perm c)] at hfirst
    rw [hsame evidence _ (.refl _) (visitFirst_perm d), hfirst] at hsecond
    rw [← hcx, ← hdy]
    exact Option.some.inj hsecond
  · intro htie evidence' order' hperm horder'
    have hcandidates := candidates_perm lower hperm
    have hidentities : uniqueIdentities evidence' = uniqueIdentities evidence :=
      upsertAll_perm mergeSourceKind_comm mergeSourceKind_right_comm _ _ hperm
    have horders : (order' (snapshotCandidates lower evidence)).Perm
        (order (snapshotCandidates lower evidence)) := (horder' _).trans (horder _).symm
    have hempty := horders.isEmpty_eq
    have hconfirmed := (seedConfirmed_greatest _ _).unique
      (seedConfirmed_greatest (max policy.seedConfirmedMinNonSeedSources 1) _) horders
      (seedConfirmed_unique htie (horder _))
    have hmost := (mostSupported_greatest _).unique (mostSupported_greatest _) horders
      (mostSupported_unique (horder _))
    simp only [selectSnapshotQuorum, selectByPeerMajority, snapshotEvidenceSummary_perm hperm,
      hcandidates, hidentities, hempty, hconfirmed, hmost]

end Decision

/-- A snapshot of a seed and two other sources, above two that a seed and a peer report alike. -/
def sampleEvidence : List (SnapshotSupportEvidence ℕ ℕ ℕ) :=
  [⟨1, "", 7, .seed, 5, 9⟩, ⟨2, "", 7, .peer, 5, 9⟩, ⟨3, "", 7, .configured, 4, 8⟩,
    ⟨4, "", 8, .seed, 5, 9⟩, ⟨5, "", 8, .peer, 5, 9⟩, ⟨6, "", 9, .seed, 5, 9⟩, ⟨7, "", 9, .peer, 5, 9⟩]

theorem sampleEvidence_backed :
    (selectSnapshotQuorum id id sampleEvidence ⟨false, true, 1, 3⟩).toOption.map (·.snapshotId) =
      some 7 ∧
    (∀ d, selectSnapshotQuorum id id sampleEvidence ⟨false, true, 1, 3⟩ = .ok d →
      Backed id sampleEvidence ⟨false, true, 1, 3⟩ d.snapshotId) ∧
    ∀ evidence' order', evidence'.Perm sampleEvidence → (∀ l, (order' l).Perm l) →
      selectSnapshotQuorum id order' evidence' ⟨false, true, 1, 3⟩ =
        selectSnapshotQuorum id id sampleEvidence ⟨false, true, 1, 3⟩ :=
  have h := snapshot_quorum_backed Perm.refl
  ⟨by decide +kernel, h.1 (by unfold OneRole; decide),
    h.2.mpr (by unfold NoTie Leads Confirmed; decide +kernel)⟩

/-- Source 1 is a seed for snapshot 8 and a peer for snapshot 7. -/
def twoRoles : List (SnapshotSupportEvidence ℕ ℕ ℕ) :=
  [⟨1, "", 8, .seed, 5, 9⟩, ⟨1, "", 7, .peer, 5, 9⟩, ⟨2, "", 7, .seed, 5, 9⟩]

/-- Two snapshots of one block, each reported by a seed and a peer. -/
def twoSnapshots : List (SnapshotSupportEvidence ℕ ℕ ℕ) :=
  [⟨1, "", 7, .seed, 5, 9⟩, ⟨2, "", 7, .peer, 5, 9⟩, ⟨3, "", 8, .seed, 5, 9⟩, ⟨4, "", 8, .peer, 5, 9⟩]

/-- A seed is counted as an independent source, and a tie is decided by the order of a map. -/
theorem snapshot_quorum_unbacked :
    ((selectSnapshotQuorum id id twoRoles ⟨false, true, 1, 1⟩).toOption.map (·.snapshotId) = some 7 ∧
      supporters id twoRoles 7 ∩ independent twoRoles = ∅) ∧
    (selectSnapshotQuorum id id twoSnapshots ⟨false, true, 1, 1⟩).toOption.map
    (·.snapshotId) = some 7 ∧
      (selectSnapshotQuorum id List.reverse twoSnapshots ⟨false, true, 1, 1⟩).toOption.map
        (·.snapshotId) = some 8 := by
  decide +kernel

end CryptixAtomic.Bootstrap
