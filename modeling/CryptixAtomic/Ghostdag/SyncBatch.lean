import CryptixAtomic.Foundation.Checked
import CryptixAtomic.Ghostdag.Order

/-!
# The batches of a sync

`antipast_hashes_between` lists the mergesets of the chain blocks from `low` up to `high` until
the next one would make the list longer than `max_blocks`, and then adds the last chain block
it reached. By `antipast_hashes_bounded_iff` the list exceeds the limit, by one, exactly if the
mergesets of some chain blocks above `low` fill it.
-/
namespace CryptixAtomic.Ghostdag

open Foundation List Option

variable {H : Type} [LinearOrder H]

def GhostdagData.mergesetSize (d : GhostdagData H) : ℕ :=
  d.mergesetBlues.length + d.mergesetReds.length

namespace GhostdagManager

variable (m : GhostdagManager H)

/-- The selected chain of a block, down to genesis. -/
def backwardChain : ℕ → H → List H
  | 0, _ => []
  | fuel + 1, block =>
    block :: match m.ghostdagStore block with
      | none => []
      | some d => if block = m.genesisHash then [] else backwardChain fuel d.selectedParent

def defaultBackwardChainIterator (block : H) : List H := m.backwardChain (m.blockCount + 1) block

/-- The chain blocks above `low`, up to `high`: the iterator without its first block. -/
def chainAbove (low high : H) : List H :=
  ((m.defaultBackwardChainIterator high).takeWhile (· ≠ low)).reverse

def findHighestCommonChainBlock (low high : H) : Option H :=
  (m.defaultBackwardChainIterator low).find? (· ∈ m.defaultBackwardChainIterator high)

/-- The blocks of a mergeset that are not in the past of `low`. -/
def newBlocks (low : H) (d : GhostdagData H) : Option (List H) := do
  let mergeset ← m.consensusOrderedMergeset d
  some (mergeset.filter fun hash => ¬ m.isDagAncestorOf hash low)

def collectBlocks (maxBlocks : ℕ) (low : H) : List H → List H × H → Option (List H × H)
  | [], s => some s
  | current :: chain, (blocks, reached) => do
    let d ← m.ghostdagStore current
    if blocks.length + d.mergesetSize > maxBlocks then some (blocks, reached)
    else do
      let new ← m.newBlocks low d
      collectBlocks maxBlocks low chain (blocks ++ new, current)

def antipastHashesBetween (mergesetSizeLimit : ℕ) (low high : H) (maxBlocks : Option ℕ) :
    Option (List H × H) := do
  let maxBlocks := maxBlocks.getD (2 ^ 64 - 1)
  guard (mergesetSizeLimit ≤ maxBlocks)
  let originalLow := low
  let low ← m.findHighestCommonChainBlock low high
  let lowData ← m.ghostdagStore low
  let highData ← m.ghostdagStore high
  guard (lowData.blueScore ≤ highData.blueScore)
  let (blocks, highestReached) ←
    m.collectBlocks maxBlocks originalLow (m.chainAbove low high) ([], low)
  some (if low ≠ highestReached then blocks ++ [highestReached] else blocks, highestReached)

/-- Going on from a list of `count` blocks, the chain blocks fit one after the other until the
list has `maxBlocks`. -/
def Fills (maxBlocks : ℕ) (low : H) : ℕ → List H → Prop
  | _, [] => False
  | count, block :: chain =>
    ∃ d new, m.ghostdagStore block = some d ∧ m.newBlocks low d = some new ∧
      count + d.mergesetSize ≤ maxBlocks ∧
      (count + new.length = maxBlocks ∨ Fills maxBlocks low (count + new.length) chain)

variable {m}

theorem length_newBlocks_le {low : H} {d : GhostdagData H} {new : List H}
    (h : m.newBlocks low d = some new) (hblues : d.mergesetBlues ≠ []) :
    new.length ≤ d.mergesetSize := by
  obtain ⟨mergeset, hmergeset, h⟩ := bind_eq_some_iff.mp h
  obtain ⟨sorted, hsorted, hmergeset⟩ := bind_eq_some_iff.mp hmergeset
  obtain ⟨blues, hb, hsorted⟩ := bind_eq_some_iff.mp hsorted
  obtain ⟨reds, hr, hsorted⟩ := bind_eq_some_iff.mp hsorted
  obtain rfl := some.inj h
  obtain rfl := some.inj hmergeset
  have hlength := length_mergeDistinct hsorted
  have hb := (mapM_eq_some_iff.mp hb).length_eq
  have hr := (mapM_eq_some_iff.mp hr).length_eq
  rw [length_drop] at hb
  have hpos := length_pos_of_ne_nil hblues
  refine (length_filter_le _ _).trans ?_
  simp only [length_cons, length_map, GhostdagData.mergesetSize]
  omega

theorem ne_of_mem_takeWhile {fuel : ℕ} {low high block : H} (hlow : low ∈ m.backwardChain fuel high)
    (h : block ∈ (m.backwardChain fuel high).takeWhile (· ≠ low)) :
    block ≠ low ∧ block ≠ m.genesisHash := by
  induction fuel generalizing high with
  | zero => simp [backwardChain] at h
  | succ fuel ih =>
    by_cases hne : high = low
    · simp [backwardChain, hne] at h
    · have hlow := (mem_cons.mp hlow).resolve_left (Ne.symm hne)
      rw [backwardChain, takeWhile_cons, if_pos (decide_eq_true hne)] at h
      cases hstore : m.ghostdagStore high with
      | none => simp [hstore] at hlow
      | some =>
        rw [hstore] at hlow h
        split_ifs at hlow h with hgenesis
        · cases hlow
        · rcases mem_cons.mp h with rfl | h
          · exact ⟨hne, hgenesis⟩
          · exact ih hlow h

theorem collectBlocks_spec {maxBlocks : ℕ} {low start reached reached' : H}
    {chain blocks blocks' : List H} (hchain : ∀ block ∈ chain, block ≠ start ∧
      ∀ d, m.ghostdagStore block = some d → d.mergesetBlues ≠ [])
    (hle : blocks.length ≤ maxBlocks)
    (h : m.collectBlocks maxBlocks low chain (blocks, reached) = some (blocks', reached')) :
    blocks'.length ≤ maxBlocks ∧ (reached' ≠ start ∧ blocks'.length = maxBlocks ↔
      reached ≠ start ∧ blocks.length = maxBlocks ∨ m.Fills maxBlocks low blocks.length chain) := by
  induction chain generalizing blocks reached with
  | nil =>
    obtain ⟨rfl, rfl⟩ := Prod.mk.inj (some.inj h)
    simp [Fills, hle]
  | cons current chain ih =>
    obtain ⟨⟨hne, hblues⟩, hchain⟩ := forall_mem_cons.mp hchain
    obtain ⟨d, hd, h⟩ := bind_eq_some_iff.mp h
    split_ifs at h with hfull
    · obtain ⟨rfl, rfl⟩ := Prod.mk.inj (some.inj h)
      simp [Fills, hd, hle]
      omega
    · obtain ⟨new, hnew, h⟩ := bind_eq_some_iff.mp h
      have hcount := length_newBlocks_le hnew (hblues d hd)
      have hpos : 0 < d.mergesetSize := Nat.add_pos_left (length_pos_of_ne_nil (hblues d hd)) _
      have hfit : blocks.length + d.mergesetSize ≤ maxBlocks := Nat.not_lt.mp hfull
      obtain ⟨hle', hiff⟩ := ih hchain (by simp; omega) h
      refine ⟨hle', hiff.trans ?_⟩
      -- before its mergeset is added the list is not full
      simp [Fills, hd, hnew, hne, hfit]
      omega

theorem antipast_hashes_bounded_iff (m : GhostdagManager H) (mergesetSizeLimit : ℕ) (low high : H)
    (maxBlocks : Option ℕ) (blocks : List H) (reached : H)
    (hblues : ∀ block d, m.ghostdagStore block = some d → block ≠ m.genesisHash →
      d.mergesetBlues ≠ [])
    (h : m.antipastHashesBetween mergesetSizeLimit low high maxBlocks = some (blocks, reached)) :
    blocks.length ≤ maxBlocks.getD (2 ^ 64 - 1) ↔ ∀ common ∈ m.findHighestCommonChainBlock low high,
        ¬ m.Fills (maxBlocks.getD (2 ^ 64 - 1)) low 0 (m.chainAbove common high) := by
  obtain ⟨_, _, h⟩ := bind_eq_some_iff.mp h
  obtain ⟨common, hcommon, h⟩ := bind_eq_some_iff.mp h
  obtain ⟨_, _, h⟩ := bind_eq_some_iff.mp h
  obtain ⟨_, _, h⟩ := bind_eq_some_iff.mp h
  obtain ⟨_, _, h⟩ := bind_eq_some_iff.mp h
  obtain ⟨⟨collected, highest⟩, hcollect, h⟩ := bind_eq_some_iff.mp h
  obtain ⟨rfl, rfl⟩ := Prod.mk.inj (some.inj h)
  have hmem : common ∈ m.defaultBackwardChainIterator high := by
    simpa using find?_some hcommon
  have hchain : ∀ block ∈ m.chainAbove common high, block ≠ common ∧
      ∀ d, m.ghostdagStore block = some d → d.mergesetBlues ≠ [] := by
    intro block hblock
    obtain ⟨hne, hgenesis⟩ := ne_of_mem_takeWhile hmem (mem_reverse.mp hblock)
    exact ⟨hne, fun d hd => hblues block d hd hgenesis⟩
  obtain ⟨hle, hiff⟩ := collectBlocks_spec hchain (Nat.zero_le _) hcollect
  simp only [ne_eq, not_true, false_and, false_or, length_nil] at hiff
  simp only [mem_def, hcommon, some.injEq, forall_eq', ← hiff]
  split_ifs with hne
  · rw [length_append, length_singleton]
    exact ⟨fun hlt hfull => Nat.ne_of_lt hlt hfull.2,
      fun hopen => hle.lt_of_ne fun hfull => hopen ⟨Ne.symm hne, hfull⟩⟩
  · exact iff_of_true hle fun hfull => hne (Ne.symm hfull.1)

/-- A chain on genesis, `1`. -/
def chainManager : GhostdagManager ℕ where
  genesisHash := 1
  originHash := 0
  k := 0
  ghostdagStore n := if n = 0 then none else some ⟨n, n, n - 1, [n - 1], [], ∅⟩
  relationsStore _ := none
  work _ := none
  isDagAncestorOf a b := a ≤ b
  blockCount := 4

theorem full_batch_exceeds :
    chainManager.antipastHashesBetween 2 1 4 (some 2) = some ([2, 3, 4], 4) := by
  decide +kernel

theorem larger_batch_bounded_iff :
    [2, 3, 4].length ≤ 3 ↔ ∀ common ∈ chainManager.findHighestCommonChainBlock 1 4,
      ¬ chainManager.Fills 3 1 0 (chainManager.chainAbove common 4) :=
  antipast_hashes_bounded_iff chainManager 2 1 4 (some 3) _ 4 (fun block d hd _ => by
      obtain ⟨-, rfl⟩ : _ ∧ _ = d := by simpa [chainManager] using hd
      exact cons_ne_nil _ _) (by decide +kernel)

end GhostdagManager
end CryptixAtomic.Ghostdag
