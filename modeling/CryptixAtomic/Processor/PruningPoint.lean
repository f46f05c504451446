import CryptixAtomic.Foundation.Records

/-!
# The pruning point a header has to carry

Up a selected chain from genesis, a block is picked when its finality score exceeds that of
the last pick; the pruning point of a block is the last pick at least `pruningDepth` below
it. A node takes shortcuts, and `expectedHeaderPruningPoint_eq` states that the result only
depends on the chain. Sums of blue scores are natural numbers, and a panic is `none`.
-/
namespace CryptixAtomic.Pruning

open Foundation List Option

variable {H : Type}

/-- The parameters and the stores read. The answers of the reachability service
are `none` for a block without reachability data. -/
structure PruningPointManager (H : Type) where
  pruningDepth : ℕ
  finalityDepth : ℕ
  finalityDepth_pos : 0 < finalityDepth
  genesisHash : H
  isChainAncestorOf : H → H → Option Bool
  isDagAncestorOfResult : H → H → Option Bool
  getNextChainAncestor : H → H → Option H
  ghostdagBlueScore : H → Option ℕ
  headerBlueScore : H → Option ℕ
  headerPruningPoint : H → Option H
  pastPruningPoint : ℕ → Option H

structure CompactGhostdagData (H : Type) where
  selectedParent : H
  blueScore : ℕ

structure PruningPointInfo (H : Type) where
  pruningPoint : H
  candidate : H
  index : ℕ

namespace PruningPointManager

section Model

variable [DecidableEq H] (m : PruningPointManager H)

/-- The number of finality intervals passed since genesis. -/
def finalityScore (blueScore : ℕ) : ℕ := blueScore / m.finalityDepth

/-- The successor of `forward_chain_iterator(_, selected_parent, true)`. -/
def iteratorNext (data : CompactGhostdagData H) (current : H) : Option (Option H) :=
  if current = data.selectedParent then some none
  else (m.getNextChainAncestor data.selectedParent current).map some

/-- The loop over the forward chain iterator, which looks up the next chain block
before it hands out the current one. -/
def advance (data : CompactGhostdagData H) : ℕ → H → ℕ → List H → H → Option (List H × H)
  | 0, _, _, _, _ => none
  | fuel + 1, current, latestBlueScore, newPruningPoints, newCandidate => do
    let next ← m.iteratorNext data current
    let blueScore ← m.ghostdagBlueScore current
    -- the difference is taken in unsigned arithmetic
    if data.blueScore < blueScore then none
    else if data.blueScore - blueScore < m.pruningDepth then some (newPruningPoints, newCandidate)
    else
      let picked := m.finalityScore latestBlueScore < m.finalityScore blueScore
      let pruningPoints := if picked then newPruningPoints ++ [current] else newPruningPoints
      let latest := if picked then blueScore else latestBlueScore
      match next with
      | none => some (pruningPoints, current)
      | some next => advance data fuel next latest pruningPoints current

def lowHash (suggestedLowHash : Option H) (currentCandidate : H) : Option H :=
  match suggestedLowHash with
  | none => some currentCandidate
  | some suggested => do
    if ← m.isChainAncestorOf suggested currentCandidate then some currentCandidate
    else if ← m.isChainAncestorOf currentCandidate suggested then some suggested
    else none

def nextPruningPointsAndCandidate (data : CompactGhostdagData H) (suggestedLowHash : Option H)
    (currentCandidate currentPruningPoint : H) : Option (List H × H) := do
  let low ← m.lowHash suggestedLowHash currentCandidate
  let latestBlueScore ← m.ghostdagBlueScore currentPruningPoint
  if data.blueScore < latestBlueScore + m.pruningDepth then some ([], currentCandidate)
  else m.advance data (data.blueScore + 1) low latestBlueScore [] currentCandidate

def isPruningPointInPruningDepth (povBlueScore : ℕ) (pruningPoint : H) : Option Bool := do
  let blueScore ← m.headerBlueScore pruningPoint
  some (blueScore + m.pruningDepth ≤ povBlueScore)

/-- The past pruning points from `i` down, or genesis. -/
def searchPast (povBlueScore : ℕ) : ℕ → Option H
  | 0 => do
    let past ← m.pastPruningPoint 0
    if ← m.isPruningPointInPruningDepth povBlueScore past then some past else some m.genesisHash
  | i + 1 => do
    let past ← m.pastPruningPoint (i + 1)
    if ← m.isPruningPointInPruningDepth povBlueScore past then some past
    else searchPast povBlueScore i

/-- What the block itself, or else its parent's header, says. -/
def nextOrCurrent (data : CompactGhostdagData H) (info : PruningPointInfo H) : Option H := do
  let parentPoint ← m.headerPruningPoint data.selectedParent
  let parentPointBlueScore ← m.headerBlueScore parentPoint
  let inChain ← m.isChainAncestorOf info.pruningPoint data.selectedParent
  let minRequired := (m.finalityScore parentPointBlueScore + 1) * m.finalityDepth
  if inChain ∧ minRequired + m.pruningDepth ≤ data.blueScore then
    let suggested :=
      if m.isDagAncestorOfResult info.pruningPoint parentPoint = some true then some parentPoint
      else none
    let (newPruningPoints, _) ←
      m.nextPruningPointsAndCandidate data suggested info.candidate info.pruningPoint
    some (newPruningPoints.getLast?.getD info.pruningPoint)
  else some parentPoint

def expectedHeaderPruningPoint (data : CompactGhostdagData H) (info : PruningPointInfo H) :
    Option H := do
  if data.selectedParent = m.genesisHash then some m.genesisHash
  else
    let point ← m.nextOrCurrent data info
    if ← m.isPruningPointInPruningDepth data.blueScore point then some point
    else m.searchPast data.blueScore info.index

end Model

section Picks

variable (m : PruningPointManager H) (blueScore : H → ℕ)

def score (block : H) : ℕ := m.finalityScore (blueScore block)

def picks : List H → List H
  | [] => []
  | genesis :: chain => genesis :: records (m.score blueScore) (m.score blueScore genesis) chain

/-- A block at least `pruningDepth` below the score `povBlueScore`. -/
def deep (povBlueScore : ℕ) (block : H) : Bool := blueScore block + m.pruningDepth ≤ povBlueScore

/-- The pruning point of a block with blue score `povBlueScore` over `chain`. -/
def pruningPointOf (povBlueScore : ℕ) (chain : List H) : H :=
  lastPassing (m.deep blueScore povBlueScore) m.genesisHash (m.picks blueScore chain)

/-- A node whose stores agree with the selected chain of a block that is being
checked. `chain` runs from genesis to the selected parent. Blocks below the
pruning point may have been pruned, except for the headers of the past pruning
points. -/
structure NodeView (m : PruningPointManager H) (blueScore : H → ℕ) (chain : List H)
    (data : CompactGhostdagData H) (info : PruningPointInfo H) : Prop where
  genesis : chain.head? = some m.genesisHash
  selectedParent : chain.getLast? = some data.selectedParent
  increasing : chain.Pairwise fun a b => blueScore a < blueScore b
  below : ∀ x ∈ chain, blueScore x < data.blueScore
  isPick : info.pruningPoint ∈ m.picks blueScore chain
  index : (m.picks blueScore chain)[info.index]? = some info.pruningPoint
  past : ∀ i ≤ info.index, m.pastPruningPoint i = (m.picks blueScore chain)[i]?
  candidate_mem : info.candidate ∈ chain
  candidate_above : blueScore info.pruningPoint ≤ blueScore info.candidate
  candidate_last : ∀ x ∈ m.picks blueScore chain, blueScore x ≤ blueScore info.candidate →
    blueScore x ≤ blueScore info.pruningPoint
  ghostdag : ∀ x ∈ chain, blueScore info.pruningPoint ≤ blueScore x →
    m.ghostdagBlueScore x = some (blueScore x)
  headers : ∀ x ∈ m.picks blueScore chain, m.headerBlueScore x = some (blueScore x)
  chainAncestor : ∀ x ∈ chain, ∀ y ∈ chain, blueScore info.pruningPoint ≤ blueScore x →
    blueScore info.pruningPoint ≤ blueScore y →
    m.isChainAncestorOf x y = some (decide (blueScore x ≤ blueScore y))
  chainNext : ∀ pre x y post, chain = pre ++ x :: y :: post →
    blueScore info.pruningPoint ≤ blueScore x →
    m.getNextChainAncestor data.selectedParent x = some y
  dagAncestor : ∀ x ∈ chain, m.isDagAncestorOfResult info.pruningPoint x = some true ↔
    blueScore info.pruningPoint ≤ blueScore x

variable {m} {blueScore}

theorem picks_sublist (chain : List H) : (m.picks blueScore chain).Sublist chain := by
  cases chain with
  | nil => exact Sublist.refl []
  | cons g chain => exact (records_sublist _ chain).cons_cons g

theorem picks_split {pre post : List H} {x : H} (hnodup : (pre ++ x :: post).Nodup)
    (hx : x ∈ m.picks blueScore (pre ++ x :: post)) :
    m.picks blueScore (pre ++ x :: post) =
      m.picks blueScore pre ++ x :: records (m.score blueScore) (m.score blueScore x) post := by
  cases pre with
  | nil => rfl
  | cons g =>
    have hne : x ≠ g := by
      rintro rfl
      exact (nodup_cons.mp hnodup).1 (mem_append_right _ mem_cons_self)
    have hmem := (mem_cons.mp hx).resolve_left hne
    exact congrArg (g :: ·) (records_split (nodup_cons.mp hnodup).2 hmem)

theorem mem_picks_append {pre post : List H} {x : H} (hx : x ∈ m.picks blueScore pre) :
    x ∈ m.picks blueScore (pre ++ post) := by
  cases pre with
  | nil => cases hx
  | cons g pre =>
    rcases mem_cons.mp hx with rfl | hx
    · exact mem_cons_self
    · have hmem : x ∈ records (m.score blueScore) (m.score blueScore g) (pre ++ post) := by
        rw [records_append]
        exact mem_append_left _ hx
      exact mem_cons_of_mem g hmem

theorem minRequired_le {x y : H} (h : m.score blueScore x < m.score blueScore y) :
    (m.finalityScore (blueScore x) + 1) * m.finalityDepth ≤ blueScore y :=
  (Nat.le_div_iff_mul_le m.finalityDepth_pos).mp h

theorem fading_deep (povBlueScore : ℕ) {l : List H}
    (h : l.Pairwise fun a b => blueScore a < blueScore b) :
    Fading (m.deep blueScore povBlueScore) l := by
  apply h.imp
  intro a b hab hb
  have hb' : blueScore b + m.pruningDepth ≤ povBlueScore := of_decide_eq_true hb
  exact decide_eq_true (by omega)

end Picks

section Walk

variable [DecidableEq H] {m : PruningPointManager H} {blueScore : H → ℕ}
  {data : CompactGhostdagData H}

/-- The blocks the forward iterator hands out up to `target`. -/
def Walks (m : PruningPointManager H) (target : H) : List H → Prop
  | [] => False
  | [x] => x = target
  | x :: y :: rest => x ≠ target ∧ m.getNextChainAncestor target x = some y ∧
      Walks m target (y :: rest)

theorem advance_succ (fuel : ℕ) {current latest : H} (found : List H) (candidate : H)
    {next : Option H} (hnext : m.iteratorNext data current = some next)
    (hstored : m.ghostdagBlueScore current = some (blueScore current))
    (hbelow : blueScore current < data.blueScore) :
    m.advance data (fuel + 1) current (blueScore latest) found candidate =
      if m.deep blueScore data.blueScore current then
        let picked := m.score blueScore latest < m.score blueScore current
        let found' := if picked then found ++ [current] else found
        next.elim (some (found', current)) fun next =>
          m.advance data fuel next (blueScore (if picked then current else latest)) found' current
      else some (found, candidate) := by
  have hdepth : data.blueScore - blueScore current < m.pruningDepth ↔
      ¬ m.deep blueScore data.blueScore current = true := by
    rw [deep, decide_eq_true_iff]
    omega
  simp only [advance, hnext, hstored, bind_eq_bind, bind_some, not_lt.mpr hbelow.le,
    if_false, hdepth]
  by_cases hdeep : m.deep blueScore data.blueScore current = true
  · simp only [hdeep, not_true, if_false, if_true]
    by_cases hpicked : m.score blueScore latest < m.score blueScore current
    · have hlevel : m.finalityScore (blueScore latest) < m.finalityScore (blueScore current) :=
        hpicked
      simp only [if_pos hpicked, if_pos hlevel]
      cases next <;> rfl
    · have hlevel : ¬ m.finalityScore (blueScore latest) < m.finalityScore (blueScore current) :=
        hpicked
      simp only [if_neg hpicked, if_neg hlevel]
      cases next <;> rfl
  · simp [hdeep]

theorem advance_of_walks (l : List H) (fuel : ℕ) {current : H} (latest : H)
    (found : List H) (candidate : H) (hwalk : m.Walks data.selectedParent (current :: l))
    (hstored : ∀ x ∈ current :: l, m.ghostdagBlueScore x = some (blueScore x))
    (hbelow : ∀ x ∈ current :: l, blueScore x < data.blueScore) (hfuel : l.length < fuel) :
    ∃ candidate', m.advance data fuel current (blueScore latest) found candidate =
      some (found ++ records (m.score blueScore) (m.score blueScore latest)
        ((current :: l).takeWhile (m.deep blueScore data.blueScore)), candidate') := by
  induction l generalizing fuel current latest found candidate with
  | nil =>
    obtain ⟨fuel, rfl⟩ := Nat.exists_eq_add_of_lt hfuel
    have hcurrent : current = data.selectedParent := hwalk
    rw [advance_succ _ found candidate (if_pos hcurrent) (hstored current mem_cons_self)
      (hbelow current mem_cons_self)]
    by_cases hdeep : m.deep blueScore data.blueScore current = true
    · use current
      rw [if_pos hdeep, takeWhile_cons, if_pos hdeep, takeWhile_nil]
      by_cases hpicked : m.score blueScore latest < m.score blueScore current
      · simp [records, hpicked]
      · simp [records, hpicked]
    · use candidate
      rw [if_neg hdeep, takeWhile_cons, if_neg hdeep, records, append_nil]
  | cons next rest ih =>
    obtain ⟨fuel, rfl⟩ := Nat.exists_eq_succ_of_ne_zero (Nat.ne_zero_of_lt hfuel)
    obtain ⟨hne, hnext, hrest⟩ := hwalk
    have hlookup : m.iteratorNext data current = some (some next) := by
      rw [iteratorNext, if_neg hne, hnext]
      rfl
    rw [Nat.succ_eq_add_one, advance_succ _ found candidate hlookup
      (hstored current mem_cons_self) (hbelow current mem_cons_self)]
    by_cases hdeep : m.deep blueScore data.blueScore current = true
    · -- the block is passed: the rest of the walk starts from the level it leaves
      rw [if_pos hdeep]
      have hstored' := fun x hx => hstored x (mem_cons_of_mem current hx)
      have hbelow' := fun x hx => hbelow x (mem_cons_of_mem current hx)
      have hfuel' : rest.length < fuel := Nat.lt_of_succ_lt_succ hfuel
      by_cases hpicked : m.score blueScore latest < m.score blueScore current
      · obtain ⟨candidate', hrun⟩ :=
          ih fuel current (found ++ [current]) current hrest hstored' hbelow' hfuel'
        use candidate'
        simp only [if_pos hpicked, elim_some, hrun]
        rw [@List.takeWhile_cons _ _ current, if_pos hdeep, records, if_pos hpicked, append_assoc]
        rfl
      · obtain ⟨candidate', hrun⟩ := ih fuel latest found current hrest hstored' hbelow' hfuel'
        use candidate'
        simp only [if_neg hpicked, elim_some, hrun]
        rw [@List.takeWhile_cons _ _ current, if_pos hdeep, records, if_neg hpicked]
    · use candidate
      rw [if_neg hdeep, takeWhile_cons, if_neg hdeep, records, append_nil]

omit [DecidableEq H] in
theorem isPruningPointInPruningDepth_eq {povBlueScore : ℕ} {x : H}
    (hx : m.headerBlueScore x = some (blueScore x)) :
    m.isPruningPointInPruningDepth povBlueScore x = some (m.deep blueScore povBlueScore x) := by
  rw [isPruningPointInPruningDepth, hx]
  rfl

omit [DecidableEq H] in
theorem searchPast_eq {points : List H} {povBlueScore : ℕ} (i : ℕ) (hi : i < points.length)
    (hpast : ∀ j ≤ i, m.pastPruningPoint j = points[j]?)
    (hheaders : ∀ x ∈ points, m.headerBlueScore x = some (blueScore x)) :
    m.searchPast povBlueScore i =
      some (lastPassing (m.deep blueScore povBlueScore) m.genesisHash (points.take (i + 1))) := by
  have hentry : m.pastPruningPoint i = some points[i] := by
    rw [hpast i (le_refl i), getElem?_eq_getElem hi]
  have hdepth := @isPruningPointInPruningDepth_eq H m blueScore povBlueScore points[i]
    (hheaders _ (getElem_mem hi))
  rw [take_succ_eq_append_getElem hi]
  cases hdeep : m.deep blueScore povBlueScore points[i] with
  | true =>
    rw [lastPassing_append_of_pass hdeep]
    cases i <;> simp [searchPast, hentry, hdepth, hdeep, lastPassing]
  | false =>
    have hnone : ∀ y ∈ [points[i]], m.deep blueScore povBlueScore y = false := by
      intro y hy
      rw [mem_singleton.mp hy, hdeep]
    rw [lastPassing_append_of_none hnone]
    cases i with
    | zero => simp [searchPast, hentry, hdepth, hdeep, lastPassing]
    | succ i =>
      have hrest := @searchPast_eq points povBlueScore i (Nat.lt_of_succ_lt hi)
        (fun j hj => hpast j (Nat.le_succ_of_le hj)) hheaders
      simp [searchPast, hentry, hdepth, hdeep, hrest]

end Walk

theorem length_add_lt {blueScore : H → ℕ} {bound : ℕ} (x : H) (l : List H)
    (hincreasing : (x :: l).Pairwise fun a b => blueScore a < blueScore b)
    (hbound : ∀ y ∈ x :: l, blueScore y < bound) : l.length + blueScore x < bound := by
  induction l generalizing x with
  | nil => simpa using hbound x mem_cons_self
  | cons y l ih =>
    obtain ⟨hx, hrest⟩ := pairwise_cons.mp hincreasing
    have hy := ih y hrest fun z hz => hbound z (mem_cons_of_mem x hz)
    have hxy := hx y mem_cons_self
    rw [length_cons]
    omega

namespace NodeView

section Shortcuts

variable {m : PruningPointManager H} {blueScore : H → ℕ} {chain : List H}
  {data : CompactGhostdagData H} {info : PruningPointInfo H} {pre post : List H} {x : H}
  (h : m.NodeView blueScore chain data info)

include h

theorem nodup : chain.Nodup := by
  apply h.increasing.imp
  intro a b hlt heq
  rw [heq] at hlt
  exact Nat.lt_irrefl _ hlt

theorem mem_suffix {x y : H}
    (hsplit : chain = pre ++ x :: post) (hy : y ∈ chain) (hle : blueScore x ≤ blueScore y) :
    y ∈ x :: post := by
  rw [hsplit] at hy
  rcases mem_append.mp hy with hy | hy
  · have hincreasing := h.increasing
    rw [hsplit, pairwise_append] at hincreasing
    have hlt := hincreasing.2.2 y hy x mem_cons_self
    exact absurd hlt (not_lt.mpr hle)
  · exact hy

theorem walks (post : List H) {pre : List H}
    (hsplit : chain = pre ++ x :: post) (hle : blueScore info.pruningPoint ≤ blueScore x) :
    m.Walks data.selectedParent (x :: post) := by
  induction post generalizing pre x with
  | nil =>
    have hlast := h.selectedParent
    rw [hsplit, getLast?_append] at hlast
    exact some.inj hlast
  | cons y post ih =>
    have hincreasing := h.increasing
    rw [hsplit, pairwise_append] at hincreasing
    obtain ⟨hx, -⟩ := pairwise_cons.mp hincreasing.2.1
    have hxy := hx y mem_cons_self
    have hlast : data.selectedParent ∈ y :: post := by
      have hlast := h.selectedParent
      rw [hsplit, getLast?_append, getLast?_cons_cons] at hlast
      cases htail : (y :: post).getLast? with
      | none => simp at htail
      | some =>
        rw [htail] at hlast
        rw [← some.inj hlast]
        exact mem_of_getLast? htail
    refine ⟨?_, h.chainNext pre x y post hsplit hle, ?_⟩
    · intro heq
      have hlt := hx _ hlast
      rw [heq] at hlt
      exact Nat.lt_irrefl _ hlt
    · apply @ih y (pre ++ [x])
      · rw [hsplit, append_assoc]
        rfl
      · omega

theorem fading (povBlueScore : ℕ) :
    Fading (m.deep blueScore povBlueScore) (m.picks blueScore chain) :=
  (fading_deep povBlueScore h.increasing).sublist (picks_sublist chain)

theorem picks_eq (hsplit : chain = pre ++ x :: post) (hx : x ∈ m.picks blueScore chain) :
    m.picks blueScore chain =
      m.picks blueScore pre ++ x :: records (m.score blueScore) (m.score blueScore x) post := by
  have hnodup := h.nodup
  rw [hsplit] at hnodup hx ⊢
  exact picks_split hnodup hx

theorem pruningPointOf_eq (hsplit : chain = pre ++ x :: post) (hx : x ∈ m.picks blueScore chain)
    (hdeep : m.deep blueScore data.blueScore x = true) :
    m.pruningPointOf blueScore data.blueScore chain =
      lastPassing (m.deep blueScore data.blueScore) x
        (records (m.score blueScore) (m.score blueScore x) post) := by
  rw [pruningPointOf, h.picks_eq hsplit hx, lastPassing_append_of_pass hdeep]

theorem pruningPointOf_eq_self
    (hx : x ∈ m.picks blueScore chain) (hdeep : m.deep blueScore data.blueScore x = true)
    (hlast : ∀ y, m.score blueScore x < m.score blueScore y →
      m.deep blueScore data.blueScore y = false) :
    m.pruningPointOf blueScore data.blueScore chain = x := by
  obtain ⟨pre, post, hsplit⟩ := append_of_mem ((picks_sublist chain).subset hx)
  rw [h.pruningPointOf_eq hsplit hx hdeep]
  have hnone : ∀ y ∈ records (m.score blueScore) (m.score blueScore x) post,
      m.deep blueScore data.blueScore y = false := fun y hy => hlast y (lt_of_mem_records hy)
  rcases lastPassing_pass_or_default (m.deep blueScore data.blueScore) x
    (records (m.score blueScore) (m.score blueScore x) post) with ⟨hmem, hpass⟩ | ⟨heq, -⟩
  · rw [hnone _ hmem] at hpass
    cases hpass
  · exact heq

theorem take_index (hsplit : chain = pre ++ info.pruningPoint :: post) :
    (m.picks blueScore chain).take (info.index + 1) =
      m.picks blueScore pre ++ [info.pruningPoint] := by
  have heq := h.picks_eq hsplit h.isPick
  have hnodup : (m.picks blueScore chain).Nodup := h.nodup.sublist (picks_sublist chain)
  have hindex : info.index = (m.picks blueScore pre).length := by
    have hat : (m.picks blueScore chain)[(m.picks blueScore pre).length]? =
        some info.pruningPoint := by
      rw [heq, getElem?_append_right (le_refl _), Nat.sub_self]
      rfl
    obtain ⟨hlt, -⟩ := List.getElem?_eq_some_iff.mp h.index
    exact (List.getElem?_inj hlt hnodup).mp (h.index.trans hat.symm)
  rw [heq, hindex, List.take_append, List.take_of_length_le (Nat.le_succ _)]
  simp

/-- Starting at the candidate loses no pick: there is none between it and the
pruning point. -/
theorem candidate_records (hsplit : chain = pre ++ info.pruningPoint :: post) {pre' post' : List H}
    (hsplit' : info.pruningPoint :: post = pre' ++ info.candidate :: post') :
    records (m.score blueScore) (m.score blueScore info.pruningPoint) post =
      records (m.score blueScore) (m.score blueScore info.pruningPoint)
        (info.candidate :: post') := by
  have hself : records (m.score blueScore) (m.score blueScore info.pruningPoint) post =
      records (m.score blueScore) (m.score blueScore info.pruningPoint)
        (info.pruningPoint :: post) := by
    rw [records.eq_2 _ _ info.pruningPoint, if_neg (Nat.lt_irrefl _)]
  have hincreasing : (info.pruningPoint :: post).Pairwise fun a b => blueScore a < blueScore b := by
    have hall := h.increasing
    rw [hsplit, pairwise_append] at hall
    exact hall.2.1
  have hnil : records (m.score blueScore) (m.score blueScore info.pruningPoint) pre' = [] := by
    apply eq_nil_iff_forall_not_mem.mpr
    intro x hx
    have hpick : x ∈ m.picks blueScore chain := by
      rw [h.picks_eq hsplit h.isPick, hself, hsplit', records_append]
      exact mem_append_right _ (mem_cons_of_mem _ (mem_append_left _ hx))
    have hmem : x ∈ pre' := (records_sublist _ pre').subset hx
    rw [hsplit', pairwise_append] at hincreasing
    have hlt := hincreasing.2.2 x hmem info.candidate mem_cons_self
    have hle := h.candidate_last x hpick hlt.le
    have hscore : m.score blueScore x ≤ m.score blueScore info.pruningPoint :=
      Nat.div_le_div_right hle
    exact absurd (lt_of_mem_records hx) (not_lt.mpr hscore)
  rw [hself, hsplit', records_append, hnil, reached_of_records_eq_nil hnil, nil_append]

theorem score_lt
    (hx : x ∈ m.picks blueScore chain) (hlt : blueScore info.pruningPoint < blueScore x) :
    m.score blueScore info.pruningPoint < m.score blueScore x := by
  obtain ⟨pre, post, hsplit⟩ := append_of_mem ((picks_sublist chain).subset h.isPick)
  have hincreasing := h.increasing
  rw [hsplit, pairwise_append] at hincreasing
  rw [h.picks_eq hsplit h.isPick] at hx
  rcases mem_append.mp hx with hx | hx
  · have hbefore := hincreasing.2.2 x ((picks_sublist pre).subset hx) info.pruningPoint
      mem_cons_self
    omega
  · rcases mem_cons.mp hx with rfl | hx
    · exact absurd hlt (Nat.lt_irrefl _)
    · exact lt_of_mem_records hx

theorem genesis_mem_picks : m.genesisHash ∈ m.picks blueScore chain := by
  cases hchain : chain with
  | nil =>
    have hgenesis := h.genesis
    rw [hchain] at hgenesis
    cases hgenesis
  | cons =>
    have hgenesis := h.genesis
    rw [hchain] at hgenesis
    rw [← some.inj hgenesis]
    exact mem_cons_self

theorem genesis_le (hx : x ∈ chain) : blueScore m.genesisHash ≤ blueScore x := by
  have hgenesis := h.genesis
  have hincreasing := h.increasing
  cases chain with
  | nil => cases hx
  | cons =>
    rw [← some.inj hgenesis]
    rcases mem_cons.mp hx with rfl | hx
    · exact le_refl _
    · exact ((pairwise_cons.mp hincreasing).1 x hx).le

theorem selectedParent_mem : data.selectedParent ∈ chain := mem_of_getLast? h.selectedParent

theorem dropLast_append : chain = chain.dropLast ++ [data.selectedParent] :=
  (dropLast_append_getLast? _ h.selectedParent).symm

theorem le_selectedParent (hx : x ∈ chain) : blueScore x ≤ blueScore data.selectedParent := by
  have hincreasing := h.increasing
  rw [h.dropLast_append, pairwise_append] at hincreasing
  rw [h.dropLast_append] at hx
  rcases mem_append.mp hx with hx | hx
  · exact (hincreasing.2.2 x hx _ mem_cons_self).le
  · rw [mem_singleton.mp hx]

/-- The parent's pruning point is a pick of the chain, and still deep enough unless
it is genesis for want of a deep one. -/
theorem parentPoint : m.pruningPointOf blueScore (blueScore data.selectedParent) chain.dropLast ∈
        m.picks blueScore chain ∧
      (m.deep blueScore data.blueScore
          (m.pruningPointOf blueScore (blueScore data.selectedParent) chain.dropLast) = true ∨
        m.pruningPointOf blueScore (blueScore data.selectedParent) chain.dropLast =
          m.genesisHash) := by
  rcases lastPassing_pass_or_default (m.deep blueScore (blueScore data.selectedParent))
    m.genesisHash (m.picks blueScore chain.dropLast) with ⟨hmem, hpass⟩ | ⟨heq, -⟩
  · constructor
    · have hlonger := @mem_picks_append H m blueScore _ [data.selectedParent] _ hmem
      rw [← h.dropLast_append] at hlonger
      exact hlonger
    · apply Or.inl
      have hbelow := h.below _ h.selectedParent_mem
      have hdeep := of_decide_eq_true hpass
      exact decide_eq_true (by rw [pruningPointOf]; omega)
  · constructor
    · rw [pruningPointOf, heq]
      exact h.genesis_mem_picks
    · exact .inr heq

theorem pruningPointOf_deep (hdeep : m.deep blueScore data.blueScore info.pruningPoint = true) :
    m.deep blueScore data.blueScore (m.pruningPointOf blueScore data.blueScore chain) = true := by
  rcases lastPassing_pass_or_default (m.deep blueScore data.blueScore) m.genesisHash
    (m.picks blueScore chain) with ⟨-, hpass⟩ | ⟨-, hnone⟩
  · exact hpass
  · rw [hnone _ h.isPick] at hdeep
    cases hdeep

theorem pruningPointOf_mem (score : ℕ) :
    m.pruningPointOf blueScore score chain ∈ m.picks blueScore chain := by
  rcases lastPassing_pass_or_default (m.deep blueScore score) m.genesisHash
    (m.picks blueScore chain) with ⟨hmem, -⟩ | ⟨heq, -⟩
  · exact hmem
  · rw [pruningPointOf, heq]
    exact h.genesis_mem_picks

theorem lowHash_eq {x : H} (hmem : x ∈ chain)
    (hle : blueScore info.pruningPoint ≤ blueScore x) :
    m.lowHash (some x) info.candidate =
      some (if blueScore x ≤ blueScore info.candidate then info.candidate else x) := by
  have hdown := h.chainAncestor x hmem info.candidate h.candidate_mem hle h.candidate_above
  have hup := h.chainAncestor info.candidate h.candidate_mem x hmem h.candidate_above hle
  split_ifs with hbelow
  · simp [lowHash, hdown, hbelow]
  · simp [lowHash, hdown, hup, hbelow, (not_le.mp hbelow).le]

variable [DecidableEq H] {suggested : Option H}

theorem advance_eq
    (hsplit : chain = pre ++ x :: post) (hle : blueScore info.pruningPoint ≤ blueScore x)
    (candidate : H) :
    ∃ candidate', m.advance data (data.blueScore + 1) x (blueScore info.pruningPoint) [] candidate =
      some ((records (m.score blueScore) (m.score blueScore info.pruningPoint) (x :: post)).filter
        (m.deep blueScore data.blueScore), candidate') := by
  have hsuffix : (x :: post).Sublist chain := by
    rw [hsplit]
    exact sublist_append_right pre (x :: post)
  have hincreasing := h.increasing.sublist hsuffix
  have hbelow : ∀ y ∈ x :: post, blueScore y < data.blueScore :=
    fun y hy => h.below y (hsuffix.subset hy)
  have hstored : ∀ y ∈ x :: post, m.ghostdagBlueScore y = some (blueScore y) := by
    intro y hy
    apply h.ghostdag y (hsuffix.subset hy)
    rcases mem_cons.mp hy with rfl | hy
    · exact hle
    · have hlt := (pairwise_cons.mp hincreasing).1 y hy
      omega
  have hlength := length_add_lt x post hincreasing hbelow
  obtain ⟨candidate', hrun⟩ := advance_of_walks post (data.blueScore + 1) info.pruningPoint []
    candidate (h.walks post hsplit hle) hstored hbelow (by omega)
  use candidate'
  rw [hrun, nil_append, records_takeWhile (fading_deep data.blueScore hincreasing)]

theorem nextPruningPoints_of_low {low : H}
    (hlow : m.lowHash suggested info.candidate = some low) (hsplit : chain = pre ++ low :: post)
    (hle : blueScore info.pruningPoint ≤ blueScore low)
    (hdeep : m.deep blueScore data.blueScore info.pruningPoint = true) :
    ∃ found candidate', m.nextPruningPointsAndCandidate data suggested info.candidate
        info.pruningPoint = some (found, candidate') ∧
      found.getLast?.getD info.pruningPoint =
        lastPassing (m.deep blueScore data.blueScore) info.pruningPoint
          (records (m.score blueScore) (m.score blueScore info.pruningPoint) (low :: post)) := by
  have hbound : ¬ data.blueScore < blueScore info.pruningPoint + m.pruningDepth :=
    not_lt.mpr (of_decide_eq_true hdeep)
  have hscore := h.ghostdag info.pruningPoint ((picks_sublist chain).subset h.isPick) (le_refl _)
  obtain ⟨candidate', hrun⟩ := h.advance_eq hsplit hle info.candidate
  refine ⟨_, candidate', ?_, rfl⟩
  simp [nextPruningPointsAndCandidate, hlow, hscore, if_neg hbound, hrun]

theorem nextPruningPoints_eq (hsuggested : ∀ x ∈ suggested, x ∈ m.picks blueScore chain ∧
      blueScore info.pruningPoint ≤ blueScore x ∧
      (blueScore info.pruningPoint < blueScore x → m.deep blueScore data.blueScore x = true))
    (hdeep : m.deep blueScore data.blueScore info.pruningPoint = true) :
    ∃ found candidate', m.nextPruningPointsAndCandidate data suggested info.candidate
        info.pruningPoint = some (found, candidate') ∧
      found.getLast?.getD info.pruningPoint = m.pruningPointOf blueScore data.blueScore chain := by
  obtain ⟨low, pre, post, hlow, hsplit, hle, hrecords⟩ : ∃ low pre post,
      m.lowHash suggested info.candidate = some low ∧ chain = pre ++ low :: post ∧
      blueScore info.pruningPoint ≤ blueScore low ∧
      lastPassing (m.deep blueScore data.blueScore) info.pruningPoint
        (records (m.score blueScore) (m.score blueScore info.pruningPoint) (low :: post)) =
      m.pruningPointOf blueScore data.blueScore chain := by
    obtain ⟨pre, post, hsplit⟩ := append_of_mem ((picks_sublist chain).subset h.isPick)
    obtain ⟨mid, post', hmid⟩ := append_of_mem
      (h.mem_suffix hsplit h.candidate_mem h.candidate_above)
    have hsplit' : chain = (pre ++ mid) ++ info.candidate :: post' := by
      rw [hsplit, hmid, append_assoc]
    have hrecords := h.pruningPointOf_eq hsplit h.isPick hdeep
    rw [h.candidate_records hsplit hmid] at hrecords
    cases suggested with
    | none => exact ⟨_, _, _, rfl, hsplit', h.candidate_above, hrecords.symm⟩
    | some x =>
      obtain ⟨hpick, hle, hdeepx⟩ := hsuggested x rfl
      have hmem : x ∈ chain := (picks_sublist chain).subset hpick
      have hlow := h.lowHash_eq hmem hle
      split_ifs at hlow with hbelow
      · exact ⟨_, _, _, hlow, hsplit', h.candidate_above, hrecords.symm⟩
      · have habove : blueScore info.pruningPoint < blueScore x :=
          lt_of_le_of_lt h.candidate_above (not_le.mp hbelow)
        obtain ⟨pre, post, hsplit⟩ := append_of_mem hmem
        refine ⟨x, pre, post, hlow, hsplit, hle, ?_⟩
        rw [h.pruningPointOf_eq hsplit hpick (hdeepx habove), records,
          if_pos (h.score_lt hpick habove), ← nil_append (x :: _),
          lastPassing_append_of_pass (hdeepx habove)]
  obtain ⟨found, candidate', hrun, hlast⟩ := h.nextPruningPoints_of_low hlow hsplit hle hdeep
  exact ⟨found, candidate', hrun, hlast.trans hrecords⟩

/-- The first guess: right when it is deep enough, and otherwise the past pruning
points hold the answer. -/
theorem nextOrCurrent_eq (hparent : m.headerPruningPoint data.selectedParent =
      some (m.pruningPointOf blueScore (blueScore data.selectedParent) chain.dropLast)) :
    ∃ point, m.nextOrCurrent data info = some point ∧ point ∈ m.picks blueScore chain ∧
      (m.deep blueScore data.blueScore point = true →
        point = m.pruningPointOf blueScore data.blueScore chain) ∧
      (m.deep blueScore data.blueScore point = false →
        lastPassing (m.deep blueScore data.blueScore) m.genesisHash
          ((m.picks blueScore chain).take (info.index + 1)) =
            m.pruningPointOf blueScore data.blueScore chain) := by
  obtain ⟨point, hpoint⟩ : ∃ point, point =
      m.pruningPointOf blueScore (blueScore data.selectedParent) chain.dropLast := ⟨_, rfl⟩
  obtain ⟨hpick, hdeepOr⟩ := h.parentPoint
  rw [← hpoint] at hpick hdeepOr hparent
  have hmem : point ∈ chain := (picks_sublist chain).subset hpick
  have hppmem : info.pruningPoint ∈ chain := (picks_sublist chain).subset h.isPick
  have hle := h.le_selectedParent hppmem
  have hinChain : m.isChainAncestorOf info.pruningPoint data.selectedParent = some true := by
    rw [h.chainAncestor _ hppmem _ h.selectedParent_mem (le_refl _) hle, decide_eq_true hle]
  by_cases hreach : (m.finalityScore (blueScore point) + 1) * m.finalityDepth + m.pruningDepth ≤
      data.blueScore
  · -- a later pick may be deep enough: the search runs unless the node's own point is not
    obtain ⟨suggested, hsuggested⟩ : ∃ suggested : Option H, suggested =
        if m.isDagAncestorOfResult info.pruningPoint point = some true then some point else none :=
      ⟨_, rfl⟩
    have hnext : m.nextOrCurrent data info =
        (m.nextPruningPointsAndCandidate data suggested info.candidate info.pruningPoint).bind
          fun found => some (found.1.getLast?.getD info.pruningPoint) := by
      rw [hsuggested]
      simp [nextOrCurrent, hparent, h.headers point hpick, hinChain, hreach]
    have hguess : ∀ x ∈ suggested, x = point ∧ blueScore info.pruningPoint ≤ blueScore point := by
      intro x hx
      rw [hsuggested] at hx
      split_ifs at hx with hdag
      · exact ⟨(some.inj hx).symm, (h.dagAncestor point hmem).mp hdag⟩
      · cases hx
    cases hdeep : m.deep blueScore data.blueScore info.pruningPoint with
    | true =>
      have hallowed : ∀ x ∈ suggested, x ∈ m.picks blueScore chain ∧
          blueScore info.pruningPoint ≤ blueScore x ∧
          (blueScore info.pruningPoint < blueScore x →
            m.deep blueScore data.blueScore x = true) := by
        intro x hx
        obtain ⟨rfl, hle⟩ := hguess x hx
        refine ⟨hpick, hle, fun hlt => ?_⟩
        rcases hdeepOr with hdeep' | hgenesis
        · exact hdeep'
        · have hlow := h.genesis_le hppmem
          rw [hgenesis] at hlt
          omega
      obtain ⟨found, candidate', hrun, hlast⟩ := h.nextPruningPoints_eq hallowed hdeep
      refine ⟨_, ?_, h.pruningPointOf_mem data.blueScore, fun _ => rfl, ?_⟩
      · rw [hnext, hrun, bind_some, hlast]
      · intro hshallow
        rw [h.pruningPointOf_deep hdeep] at hshallow
        cases hshallow
    | false =>
      obtain ⟨low, hlow⟩ : ∃ low, m.lowHash suggested info.candidate = some low := by
        cases suggested with
        | none => exact ⟨_, rfl⟩
        | some x =>
          obtain ⟨rfl, hle⟩ := hguess x rfl
          exact ⟨_, h.lowHash_eq hmem hle⟩
      have hbound : data.blueScore < blueScore info.pruningPoint + m.pruningDepth :=
        not_le.mp (of_decide_eq_false hdeep)
      refine ⟨info.pruningPoint, ?_, h.isPick, ?_, ?_⟩
      · rw [hnext]
        simp [nextPruningPointsAndCandidate, hlow, h.ghostdag _ hppmem (le_refl _), hbound]
      · intro hdeep'
        rw [hdeep] at hdeep'
        cases hdeep'
      · intro _
        obtain ⟨pre, post, hsplit⟩ := append_of_mem hppmem
        have hfading := h.fading data.blueScore
        rw [h.picks_eq hsplit h.isPick] at hfading
        rw [h.take_index hsplit, pruningPointOf, h.picks_eq hsplit h.isPick,
          lastPassing_append_of_fading hfading hdeep, lastPassing_append_of_none]
        intro y hy
        rw [mem_singleton.mp hy, hdeep]
  · -- every later pick is too high, so the parent's point still is the last one
    have hlater : ∀ y, m.score blueScore point < m.score blueScore y →
        m.deep blueScore data.blueScore y = false := by
      intro y hy
      have hmin := minRequired_le hy
      exact decide_eq_false (by omega)
    refine ⟨point, ?_, hpick, fun hdeep => (h.pruningPointOf_eq_self hpick hdeep hlater).symm, ?_⟩
    · simp [nextOrCurrent, hparent, h.headers point hpick, hinChain, hreach]
    · intro hshallow
      have hgenesis : point = m.genesisHash := by
        rcases hdeepOr with hdeep | hgenesis
        · rw [hshallow] at hdeep
          cases hdeep
        · exact hgenesis
      have hnone : ∀ x ∈ m.picks blueScore chain, m.deep blueScore data.blueScore x = false := by
        intro x hx
        have hlow := h.genesis_le ((picks_sublist chain).subset hx)
        have hbound := of_decide_eq_false hshallow
        rw [hgenesis] at hbound
        exact decide_eq_false (by omega)
      rw [pruningPointOf, lastPassing_of_none hnone]
      exact lastPassing_of_none fun x hx => hnone x (mem_of_mem_take hx)

end Shortcuts

variable [DecidableEq H] {m : PruningPointManager H} {blueScore : H → ℕ} {chain : List H}
  {data : CompactGhostdagData H} {info : PruningPointInfo H}

/-- Whatever pick the node has as its pruning point and whatever candidate it has
reached, it expects the last pick that lies deep enough below the block. -/
theorem expectedHeaderPruningPoint_eq (h : m.NodeView blueScore chain data info)
    (hparent : data.selectedParent ≠ m.genesisHash → m.headerPruningPoint data.selectedParent =
        some (m.pruningPointOf blueScore (blueScore data.selectedParent) chain.dropLast)) :
    m.expectedHeaderPruningPoint data info =
      some (m.pruningPointOf blueScore data.blueScore chain) := by
  by_cases hgenesis : data.selectedParent = m.genesisHash
  · have hall : ∀ x ∈ m.picks blueScore chain, x = m.genesisHash := by
      intro x hx
      have hmem := (picks_sublist chain).subset hx
      have hle := h.le_selectedParent hmem
      rw [hgenesis] at hle
      obtain ⟨pre, post, hsplit⟩ :=
        append_of_mem ((picks_sublist chain).subset h.genesis_mem_picks)
      rcases mem_cons.mp (h.mem_suffix hsplit hmem (h.genesis_le hmem)) with heq | hpost
      · exact heq
      · have hincreasing := h.increasing
        rw [hsplit, pairwise_append] at hincreasing
        have hlt := (pairwise_cons.mp hincreasing.2.1).1 x hpost
        omega
    rw [hall _ (h.pruningPointOf_mem data.blueScore), expectedHeaderPruningPoint, if_pos hgenesis]
  · obtain ⟨point, hpoint, hpick, hdeep, hshallow⟩ := h.nextOrCurrent_eq (hparent hgenesis)
    have hdepth := @isPruningPointInPruningDepth_eq H m blueScore data.blueScore point
      (h.headers point hpick)
    obtain ⟨hindex, -⟩ := List.getElem?_eq_some_iff.mp h.index
    have hpast := @searchPast_eq H m blueScore (m.picks blueScore chain) data.blueScore info.index
      hindex h.past h.headers
    cases hcase : m.deep blueScore data.blueScore point with
    | true =>
      rw [← hdeep hcase]
      simp [expectedHeaderPruningPoint, hgenesis, hpoint, hdepth, hcase]
    | false =>
      simp [expectedHeaderPruningPoint, hgenesis, hpoint, hdepth, hcase, hpast, hshallow hcase]

end NodeView

/-- A node at genesis on a chain of five blocks, one blue score apart. -/
def sampleManager : PruningPointManager ℕ where
  pruningDepth := 2
  finalityDepth := 2
  finalityDepth_pos := by decide
  genesisHash := 0
  isChainAncestorOf := fun x y => some (decide (x ≤ y))
  isDagAncestorOfResult := fun x y => some (decide (x ≤ y))
  getNextChainAncestor := fun _ x => some (x + 1)
  ghostdagBlueScore := some
  headerBlueScore := some
  headerPruningPoint := fun _ => some 2
  pastPruningPoint := fun i => [0, 2, 4][i]?

theorem sampleManager_view : sampleManager.NodeView id (List.range 5) ⟨4, 5⟩ ⟨0, 1, 0⟩ where
  genesis := rfl
  selectedParent := rfl
  increasing := by decide
  below := by decide
  isPick := by decide
  index := rfl
  past := by
    intro i hi
    rw [Nat.le_zero.mp hi]
    rfl
  candidate_mem := by decide
  candidate_above := by decide
  candidate_last := by decide
  ghostdag := fun _ _ _ => rfl
  headers := fun _ _ => rfl
  chainAncestor := fun _ _ _ _ _ _ => rfl
  chainNext := by
    intro pre x y post hsplit _
    have hx : (List.range 5)[pre.length]? = some x := by rw [hsplit]; simp
    have hy : (List.range 5)[pre.length + 1]? = some y := by rw [hsplit]; simp
    rw [List.getElem?_eq_some_iff] at hx hy
    obtain ⟨_, hx⟩ := hx
    obtain ⟨_, hy⟩ := hy
    rw [getElem_range] at hx hy
    rw [← hx, ← hy]
    rfl
  dagAncestor := by
    intro x _
    simp [sampleManager]

theorem sampleManager_expected :
    sampleManager.expectedHeaderPruningPoint ⟨4, 5⟩ ⟨0, 1, 0⟩ = some 2 :=
  sampleManager_view.expectedHeaderPruningPoint_eq fun _ => by decide

end PruningPointManager

end CryptixAtomic.Pruning
