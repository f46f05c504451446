import CryptixAtomic.Processor.PruningPoint

/-!
# The chain block at a depth

The merge-depth root and the finality point of a block are the last blocks of its selected
chain that lie a depth below it. A node walks up from the value stored for the selected
parent, or from its pruning point. `block_at_depth_iff` says for which histories of pruning
points the stored value is never below the pruning point.
-/
namespace CryptixAtomic.Pruning

open Option

variable {H : Type}

/-- The parameters and the stores read, without an answer where data has been pruned. -/
structure BlockDepthManager (H : Type) where
  mergeDepth : ℕ
  finalityDepth : ℕ
  genesisHash : H
  origin : H
  mergeDepthRoot : H → Option H
  finalityPoint : H → Option H
  isChainAncestorOf : H → H → Option Bool
  getNextChainAncestor : H → H → Option H
  ghostdagBlueScore : H → Option ℕ

namespace BlockDepthManager

variable [DecidableEq H] (m : BlockDepthManager H) (data : CompactGhostdagData H) (depth : ℕ)

def stored (block : H) : Option H :=
  if depth = m.mergeDepth then m.mergeDepthRoot block else m.finalityPoint block

def walkStart (pruningPoint : H) : Option H := do
  let current ← m.stored depth data.selectedParent
  some (if current = m.origin then pruningPoint else current)

/-- The loop over the forward chain iterator, which looks up the next chain block before it
hands out `chainBlock`. -/
def walk (requiredBlueScore : ℕ) : ℕ → H → H → Option H
  | 0, _, _ => none
  | fuel + 1, chainBlock, current => do
    let next ← if chainBlock = data.selectedParent then some none
      else (m.getNextChainAncestor data.selectedParent chainBlock).map some
    let blueScore ← m.ghostdagBlueScore chainBlock
    if requiredBlueScore ≤ blueScore then some current
    else match next with
      | none => some chainBlock
      | some next => walk requiredBlueScore fuel next chainBlock

def calculateBlockAtDepth (pruningPoint : H) : Option H :=
  if depth ≠ m.mergeDepth ∧ depth ≠ m.finalityDepth then none
  else if data.blueScore < depth then some m.genesisHash
  else do
    let pruningPointBlueScore ← m.ghostdagBlueScore pruningPoint
    if data.blueScore < pruningPointBlueScore + depth then some m.origin
    else if ← m.isChainAncestorOf pruningPoint data.selectedParent then
      let current ← m.walkStart data depth pruningPoint
      m.walk data (data.blueScore - depth) (data.blueScore + 1) current current
    else some m.origin

end BlockDepthManager

/-- A selected chain of `n` blocks over genesis. Block `i` was processed by `node i`, when the
pruning point was block `pp i`. -/
structure Chronicle (H : Type) where
  n : ℕ
  block : ℕ → H
  score : ℕ → ℕ
  pp : ℕ → ℕ
  node : ℕ → BlockDepthManager H
  depth : ℕ
  origin : H

namespace Chronicle

variable (c : Chronicle H)

def data (i : ℕ) : CompactGhostdagData H := ⟨c.block i, c.score (i + 1)⟩

/-- The block above `i` has its block at depth at or above the pruning point. -/
structure Deep (i : ℕ) : Prop where
  depth_le : c.depth ≤ c.score (i + 1)
  below : c.score (c.pp (i + 1)) + c.depth ≤ c.score (i + 1)

/-- `j` is the last block from the pruning point up with a blue score of the block above `i`
minus the depth, or the pruning point. -/
structure AtDepth (i j : ℕ) : Prop where
  above : c.pp (i + 1) ≤ j
  le : j ≤ i
  low : j = c.pp (i + 1) ∨ c.score j < c.score (i + 1) - c.depth
  last : ∀ k, j < k → k ≤ i → c.score (i + 1) - c.depth ≤ c.score k

/-- While the pruning point moved on, the walk stayed ahead of it. -/
structure Ahead (i : ℕ) : Prop where
  genesis : c.score (i + 1) < c.depth → c.pp (i + 2) = 0
  moved : c.Deep i → c.pp (i + 2) = c.pp (i + 1) ∨ c.score (c.pp (i + 2)) + c.depth < c.score (i + 1)

/-- The nodes have the data of the chain from the pruning point up, and each one the value
that was computed for the block before. Genesis is stored with `origin`. -/
structure Valid [DecidableEq H] : Prop where
  injective : ∀ i ≤ c.n, ∀ j ≤ c.n, c.block i = c.block j → i = j
  notOrigin : ∀ i ≤ c.n, c.block i ≠ c.origin
  increasing : ∀ i < c.n, c.score i < c.score (i + 1)
  advance : ∀ i, i + 1 < c.n → c.pp (i + 1) ≤ c.pp (i + 2)
  onChain : ∀ i < c.n, c.pp (i + 1) ≤ i
  depths : ∀ i, c.depth = (c.node i).mergeDepth ∨ c.depth = (c.node i).finalityDepth
  genesisHash : ∀ i, (c.node i).genesisHash = c.block 0
  originHash : ∀ i, (c.node i).origin = c.origin
  scores : ∀ i < c.n, ∀ j ≤ i, c.pp (i + 1) ≤ j →
    (c.node (i + 1)).ghostdagBlueScore (c.block j) = some (c.score j)
  next : ∀ i < c.n, ∀ j < i, c.pp (i + 1) ≤ j →
    (c.node (i + 1)).getNextChainAncestor (c.block i) (c.block j) = some (c.block (j + 1))
  ancestor : ∀ i < c.n,
    (c.node (i + 1)).isChainAncestorOf (c.block (c.pp (i + 1))) (c.block i) = some true
  genesis : (c.node 1).stored c.depth (c.block 0) = some c.origin
  stored : ∀ i, i + 1 < c.n → (c.node (i + 2)).stored c.depth (c.block (i + 1)) =
    (c.node (i + 1)).calculateBlockAtDepth (c.data i) c.depth (c.block (c.pp (i + 1)))

variable [DecidableEq H] {c} {i j : ℕ}

def start (c : Chronicle H) (i : ℕ) : Option H :=
  (c.node (i + 1)).walkStart (c.data i) c.depth (c.block (c.pp (i + 1)))

def result (c : Chronicle H) (i : ℕ) : Option H :=
  (c.node (i + 1)).calculateBlockAtDepth (c.data i) c.depth (c.block (c.pp (i + 1)))

/-- The block above `i` has the value its own pruning point gives. -/
inductive Settled (c : Chronicle H) (i : ℕ) : Prop
  | genesis (low : c.score (i + 1) < c.depth) (value : c.result i = some (c.block 0))
  | origin (high : c.depth ≤ c.score (i + 1)) (shallow : ¬ c.Deep i)
      (value : c.result i = some c.origin)
  | found (deep : c.Deep i) (j : ℕ) (at_depth : c.AtDepth i j)
      (value : c.result i = some (c.block j))

namespace Valid

variable (h : c.Valid)

include h

theorem score_lt (hij : i < j) (hj : j ≤ c.n) : c.score i < c.score j := by
  induction j with
  | zero => omega
  | succ j ih =>
    have hstep := h.increasing j hj
    rcases Nat.lt_succ_iff_lt_or_eq.mp hij with hlt | rfl
    · exact (ih hlt (by omega)).trans hstep
    · exact hstep

theorem le_score (hi : i ≤ c.n) : i ≤ c.score i := by
  induction i with
  | zero => omega
  | succ i ih =>
    have hstep := h.increasing i hi
    have hle := ih (by omega)
    omega

/-- The walk from block `s`: it stays at `current` if `s` is too high already, and otherwise
ends at the last block that is not. -/
theorem walk_eq (hi : i < c.n) (bound fuel : ℕ) {s : ℕ} (current : H) (hpp : c.pp (i + 1) ≤ s)
    (hs : s ≤ i) (hfuel : i < s + fuel) :
    bound ≤ c.score s ∧
        (c.node (i + 1)).walk (c.data i) bound fuel (c.block s) current = some current ∨
      ∃ j, s ≤ j ∧ j ≤ i ∧ c.score j < bound ∧ (∀ k, j < k → k ≤ i → bound ≤ c.score k) ∧
        (c.node (i + 1)).walk (c.data i) bound fuel (c.block s) current = some (c.block j) := by
  induction fuel generalizing s current with
  | zero => omega
  | succ fuel ih =>
    have hscore := h.scores i hi s hs hpp
    rcases Nat.lt_or_eq_of_le hs with hlt | rfl
    · have hne : c.block s ≠ (c.data i).selectedParent := fun heq =>
        absurd (h.injective s (by omega) i hi.le heq) hlt.ne
      have hnext : (c.node (i + 1)).getNextChainAncestor (c.data i).selectedParent (c.block s) =
          some (c.block (s + 1)) := h.next i hi s hlt hpp
      by_cases hbound : bound ≤ c.score s
      · exact .inl ⟨hbound, by simp [BlockDepthManager.walk, hne, hnext, hscore, hbound]⟩
      · have hstep : (c.node (i + 1)).walk (c.data i) bound (fuel + 1) (c.block s) current =
            (c.node (i + 1)).walk (c.data i) bound fuel (c.block (s + 1)) (c.block s) := by
          simp [BlockDepthManager.walk, hne, hnext, hscore, hbound]
        rw [hstep]
        rcases ih (c.block s) (by omega) hlt (by omega) with ⟨hstop, hrun⟩ | ⟨j, hj, hrest⟩
        · refine .inr ⟨s, le_rfl, hs, not_le.mp hbound, fun k hk hki => ?_, hrun⟩
          rcases Nat.lt_or_eq_of_le (Nat.succ_le_of_lt hk) with hlt' | rfl
          · exact hstop.trans (h.score_lt hlt' (by omega)).le
          · exact hstop
        · exact .inr ⟨j, by omega, hrest⟩
    · have heq : c.block s = (c.data s).selectedParent := rfl
      by_cases hbound : bound ≤ c.score s
      · exact .inl ⟨hbound, by simp [BlockDepthManager.walk, ← heq, hscore, hbound]⟩
      · exact .inr ⟨s, le_rfl, le_rfl, not_le.mp hbound, fun k hk hki => by omega,
          by simp [BlockDepthManager.walk, ← heq, hscore, hbound]⟩

theorem result_eq (hi : i < c.n) : c.result i = if c.score (i + 1) < c.depth then some (c.block 0)
      else if c.score (i + 1) < c.score (c.pp (i + 1)) + c.depth then some c.origin
      else (c.start i).bind fun s => (c.node (i + 1)).walk (c.data i) (c.score (i + 1) - c.depth)
        (c.score (i + 1) + 1) s s := by
  have hdepth : ¬ (c.depth ≠ (c.node (i + 1)).mergeDepth ∧
      c.depth ≠ (c.node (i + 1)).finalityDepth) := by
    rintro ⟨hmerge, hfinality⟩
    exact (h.depths (i + 1)).elim hmerge hfinality
  have hpp := h.scores i hi _ (h.onChain i hi) le_rfl
  have hancestor : (c.node (i + 1)).isChainAncestorOf (c.block (c.pp (i + 1)))
      (c.data i).selectedParent = some true := h.ancestor i hi
  rw [result, BlockDepthManager.calculateBlockAtDepth, if_neg hdepth, h.genesisHash, hpp]
  simp only [hancestor, h.originHash, bind_eq_bind, bind_some, if_true]
  rfl

/-- A walk that starts at the pruning point or at a block above it that is low enough ends
where it should. -/
theorem found_of_start (hi : i < c.n) (hdeep : c.Deep i) {s : ℕ}
    (hstart : c.start i = some (c.block s))
    (hpp : c.pp (i + 1) ≤ s) (hs : s ≤ i)
    (hlow : s = c.pp (i + 1) ∨ c.score s < c.score (i + 1) - c.depth) :
    ∃ j, c.AtDepth i j ∧ c.result i = some (c.block j) := by
  have hi' : i + 1 ≤ c.score (i + 1) := h.le_score hi
  rw [h.result_eq hi, if_neg (not_lt.mpr hdeep.depth_le), if_neg (not_lt.mpr hdeep.below), hstart,
    bind_some]
  rcases h.walk_eq hi (c.score (i + 1) - c.depth) (c.score (i + 1) + 1) (c.block s) hpp hs (by omega)
    with ⟨hstop, hrun⟩ | ⟨j, hsj, hji, hj, hlast, hrun⟩
  · refine ⟨s, ⟨hpp, hs, hlow, fun k hk hki => ?_⟩, hrun⟩
    exact hstop.trans (h.score_lt hk (by omega)).le
  · exact ⟨j, ⟨hpp.trans hsj, hji, .inr hj, hlast⟩, hrun⟩

theorem start_of_stored {v : H} (hv : (c.node (i + 1)).stored c.depth (c.block i) = some v) :
    c.start i = some (if v = c.origin then c.block (c.pp (i + 1)) else v) := by
  have hread : (c.node (i + 1)).stored c.depth (c.data i).selectedParent = some v := hv
  simp [start, BlockDepthManager.walkStart, hread, h.originHash]

theorem start_succ (hi : i + 1 < c.n) (hsettled : c.Settled i) :
    ∃ s ≤ i + 1, c.start (i + 1) = some (c.block s) ∧ (c.pp (i + 2) ≤ s ↔ c.Ahead i) ∧
      (c.pp (i + 2) ≤ s → s = c.pp (i + 2) ∨ c.score s < c.score (i + 2) - c.depth) := by
  have hadvance := h.advance i hi
  have hincreasing : c.score (i + 1) < c.score (i + 2) := h.increasing (i + 1) hi
  have hpp : c.pp (i + 2) ≤ i + 1 := h.onChain (i + 1) hi
  have hread := fun v hv => @start_of_stored H c _ (i + 1) h v ((h.stored i hi).trans hv)
  cases hsettled with
  | genesis low value =>
    refine ⟨0, Nat.zero_le _, ?_, ⟨fun hle => ⟨fun _ => by omega, fun hdeep => ?_⟩, fun ha => ?_⟩,
      fun hle => .inl (by omega)⟩
    · rw [hread _ value, if_neg (h.notOrigin 0 (Nat.zero_le _))]
    · exact absurd hdeep.depth_le (not_le.mpr low)
    · exact (ha.genesis low).le
  | origin high shallow value =>
    refine ⟨c.pp (i + 2), hpp, ?_, ⟨fun _ => ⟨fun hlow => ?_, fun hdeep => ?_⟩, fun _ => le_rfl⟩,
      fun _ => .inl rfl⟩
    · rw [hread _ value, if_pos rfl]
    · exact absurd high (not_le.mpr hlow)
    · exact absurd hdeep shallow
  | found deep j at_depth value =>
    have hdepth := deep.depth_le
    have hji := at_depth.le
    refine ⟨j, by omega, ?_, ⟨fun hle => ⟨fun hlow => by omega, fun _ => ?_⟩, fun ha => ?_⟩,
      fun hle => ?_⟩
    · rw [hread _ value, if_neg (h.notOrigin j (by omega))]
    · rcases at_depth.low with rfl | hlow
      · exact .inl (by omega)
      · rcases Nat.lt_or_eq_of_le hle with hlt | rfl
        · have hscore := h.score_lt hlt (by omega)
          exact .inr (by omega)
        · exact .inr (by omega)
    · rcases ha.moved deep with heq | hlow
      · rw [heq]
        exact at_depth.above
      · -- the pruning point is low enough itself, so the last such block is not below it
        by_contra hlt
        have hlast := at_depth.last (c.pp (i + 2)) (not_le.mp hlt)
        by_cases hle : c.pp (i + 2) ≤ i
        · have hscore := hlast hle
          omega
        · have heq : c.pp (i + 2) = i + 1 := by omega
          rw [heq] at hlow
          omega
    · rcases at_depth.low with rfl | hlow
      · exact .inl (by omega)
      · exact .inr (by omega)

end Valid

/-- The walk of the block above `i` starts at the pruning point or at a chain block above it,
and it ends at the block at depth. -/
def Sound (c : Chronicle H) (i : ℕ) : Prop :=
  ∃ s, c.pp (i + 1) ≤ s ∧ s ≤ i ∧ c.start i = some (c.block s) ∧
    ∃ j, c.AtDepth i j ∧ c.result i = some (c.block j)

namespace Valid

variable (h : c.Valid)

include h

theorem settled_of_sound (hi : i < c.n) (hsound : c.Deep i → c.Sound i) : c.Settled i := by
  have hresult := h.result_eq hi
  by_cases hlow : c.score (i + 1) < c.depth
  · exact .genesis hlow (by rw [hresult, if_pos hlow])
  · by_cases hshallow : c.score (i + 1) < c.score (c.pp (i + 1)) + c.depth
    · refine .origin (not_lt.mp hlow) (fun hdeep => absurd hdeep.below (not_le.mpr hshallow)) ?_
      rw [hresult, if_neg hlow, if_pos hshallow]
    · have hdeep : c.Deep i := ⟨not_lt.mp hlow, not_lt.mp hshallow⟩
      obtain ⟨s, -, -, -, j, hj, hvalue⟩ := hsound hdeep
      exact .found hdeep j hj hvalue

/-- Genesis is stored with `origin`, so the first walk starts at the pruning point. -/
theorem sound_zero (hn : 0 < c.n) (hdeep : c.Deep 0) : c.Sound 0 := by
  have hpp := h.onChain 0 hn
  have hstart : c.start 0 = some (c.block (c.pp 1)) := by
    rw [h.start_of_stored h.genesis, if_pos rfl]
  exact ⟨_, le_rfl, hpp, hstart, h.found_of_start hn hdeep hstart le_rfl hpp (.inl rfl)⟩

theorem sound_succ_iff (hi : i + 1 < c.n) (hdeep : c.Deep (i + 1)) (hsettled : c.Settled i) :
    c.Sound (i + 1) ↔ c.Ahead i := by
  obtain ⟨s, hs, hstart, habove, hlow⟩ := h.start_succ hi hsettled
  rw [← habove]
  constructor
  · rintro ⟨t, hpp, ht, hstart', -⟩
    have heq := some.inj (hstart.symm.trans hstart')
    rwa [h.injective s (by omega) t (by omega) heq]
  · intro hpp
    exact ⟨s, hpp, hs, hstart, h.found_of_start hi hdeep hstart hpp hs (hlow hpp)⟩

/-- Every walk starts at the pruning point or above and ends at the block at depth, if and
only if the pruning point never moves past the value stored for a selected parent. -/
theorem block_at_depth_iff :
    (∀ i < c.n, c.Deep i → c.Sound i) ↔ ∀ i, i + 1 < c.n → c.Deep (i + 1) → c.Ahead i := by
  constructor
  · intro hsound i hi hdeep
    have hsettled := h.settled_of_sound (by omega) (hsound i (by omega))
    exact (h.sound_succ_iff hi hdeep hsettled).mp (hsound (i + 1) hi hdeep)
  · intro hahead i
    induction i with
    | zero => exact h.sound_zero
    | succ i ih =>
      intro hi hdeep
      have hsettled := h.settled_of_sound (by omega) (ih (by omega))
      exact (h.sound_succ_iff hi hdeep hsettled).mpr (hahead i hi hdeep)

end Valid

/-- Five blocks over genesis, one blue score apart. The last one arrives after blocks 0 and 1
have been pruned. -/
def overtaken (lastPp : ℕ) : Chronicle ℕ where
  n := 5
  block := id
  score := id
  pp i := if i = 5 then lastPp else 0
  depth := 2
  origin := 100
  node i :=
    { mergeDepth := 2
      finalityDepth := 2
      genesisHash := 0
      origin := 100
      mergeDepthRoot := fun b => some (if b = 0 then 100 else if b = 1 then 0 else b - 3)
      finalityPoint := fun _ => none
      isChainAncestorOf := fun a b => some (decide (a ≤ b))
      getNextChainAncestor := fun _ b => some (b + 1)
      ghostdagBlueScore := fun b => if i = 5 ∧ b < lastPp then none else some b }

theorem overtaken_valid (lastPp : Fin 3) : (overtaken lastPp).Valid where
  injective _ _ _ _ heq := heq
  notOrigin i hi heq := by
    have hi' : i ≤ 5 := hi
    have heq' : i = 100 := heq
    omega
  increasing i _ := Nat.lt_succ_self i
  advance i hi := by
    have hi' : i + 1 < 5 := hi
    simp only [overtaken]
    split_ifs <;> omega
  onChain i hi := by
    simp only [overtaken]
    split_ifs <;> omega
  depths _ := .inl rfl
  genesisHash _ := rfl
  originHash _ := rfl
  scores i hi j hj hpp := by
    simp only [overtaken, id_eq] at hpp ⊢
    split_ifs at hpp ⊢ <;> first | rfl | omega
  next _ _ _ _ _ := rfl
  ancestor i hi := by
    have hle : (overtaken lastPp).pp (i + 1) ≤ i := by
      simp only [overtaken]
      split_ifs <;> omega
    exact congrArg some (decide_eq_true hle)
  genesis := rfl
  stored i hi := by
    have hi' : i < 4 := Nat.lt_of_succ_lt_succ hi
    interval_cases i <;> fin_cases lastPp <;> decide +kernel

/-- A pruning point that moves to block 1 only stays below what is stored. -/
theorem moved_chain_sound : (overtaken 1).Valid ∧ (overtaken 1).pp 4 < (overtaken 1).pp 5 ∧
    ∀ i < (overtaken 1).n, (overtaken 1).Deep i → (overtaken 1).Sound i := by
  have hvalid : (overtaken 1).Valid := overtaken_valid 1
  refine ⟨hvalid, by decide, hvalid.block_at_depth_iff.mpr ?_⟩
  intro i hi _
  have hi' : i < 4 := Nat.lt_of_succ_lt_succ hi
  interval_cases i <;> exact ⟨by decide, fun _ => by decide⟩

/-- The pruning point moves to block 2, two below the selected parent, for which block 1 is
stored. The last walk starts at block 1, which is pruned. -/
theorem overtaken_starts_below : (overtaken 2).Valid ∧ (overtaken 2).Deep 4 ∧
    (overtaken 2).pp 5 = 2 ∧ (overtaken 2).start 4 = some 1 ∧ (overtaken 2).result 4 = none :=
  ⟨overtaken_valid 2, ⟨by decide, by decide⟩, rfl, by decide +kernel, by decide +kernel⟩

end Chronicle
end CryptixAtomic.Pruning
