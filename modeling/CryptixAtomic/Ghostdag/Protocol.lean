import CryptixAtomic.Foundation.FiniteMap

/-!
# The GHOSTDAG protocol

The data of a block are its selected parent, the blocks it merges split into blues and reds,
and for the blues the size of their blue anticone as far as this block changed it.

Panics of the source (a missing store entry, an assertion, an overflow) are `none`.
The loops of the source have no bound; here they run on fuel that the number of
stored blocks gives. Blue work is a 192-bit number whose sums wrap around.
-/
namespace CryptixAtomic.Ghostdag

open Foundation

variable {H : Type} [LinearOrder H]

scoped instance instLawfulBEqHash : LawfulBEq H := inferInstance

structure GhostdagData (H : Type) where
  blueScore : ℕ
  blueWork : ℕ
  selectedParent : H
  mergesetBlues : List H
  mergesetReds : List H
  bluesAnticoneSizes : FMap H ℕ

/-- A block with its blue work, ordered by blue work and then by hash. -/
structure SortableBlock (H : Type) where
  hash : H
  blueWork : ℕ

def SortableBlock.key (b : SortableBlock H) : ℕ ×ₗ H := toLex (b.blueWork, b.hash)

namespace GhostdagData

def newWithSelectedParent (selectedParent : H) : GhostdagData H where
  blueScore := 0
  blueWork := 0
  selectedParent := selectedParent
  mergesetBlues := [selectedParent]
  mergesetReds := []
  bluesAnticoneSizes := (∅ : FMap H ℕ).insert selectedParent 0

/-- Add a blue block with its own blue anticone size, and count it in the sizes of
the blues it is in the anticone of. -/
def addBlue (d : GhostdagData H) (block : H) (blueAnticoneSize : ℕ) (sizes : FMap H ℕ) :
    GhostdagData H :=
  { d with
    mergesetBlues := d.mergesetBlues ++ [block]
    bluesAnticoneSizes := sizes.iter.foldl (fun all blue => all.insert blue.1 (blue.2 + 1))
      (d.bluesAnticoneSizes.insert block blueAnticoneSize) }

def addRed (d : GhostdagData H) (block : H) : GhostdagData H :=
  { d with mergesetReds := d.mergesetReds ++ [block] }

end GhostdagData

/-- `work` is `calc_work` of the bits in the header. -/
structure GhostdagManager (H : Type) where
  genesisHash : H
  originHash : H
  k : ℕ
  ghostdagStore : H → Option (GhostdagData H)
  relationsStore : H → Option (List H)
  work : H → Option ℕ
  isDagAncestorOf : H → H → Bool
  blockCount : ℕ

inductive ColoringState
  | blue
  | red
  | pending

inductive ColoringOutput (H : Type)
  | blue (blueAnticoneSize : ℕ) (sizes : FMap H ℕ)
  | red

namespace GhostdagManager

variable (m : GhostdagManager H)

def genesisGhostdagData : GhostdagData H := ⟨0, 0, m.originHash, [], [], ∅⟩

def sortable (block : H) : Option (SortableBlock H) :=
  (m.ghostdagStore block).map fun d => ⟨block, d.blueWork⟩

/-- The later one of the two if they are equal, as `Iterator::max` has it. -/
def laterMax (best block : SortableBlock H) : SortableBlock H :=
  if block.key < best.key then best else block

def findSelectedParent (parents : List H) : Option H := do
  match ← parents.mapM m.sortable with
  | [] => none
  | block :: blocks => some (blocks.foldl laterMax block).hash

def sortBlocks (blocks : List H) : Option (List H) := do
  let keyed ← blocks.mapM m.sortable
  some ((keyed.insertionSort fun a b => a.key ≤ b.key).map SortableBlock.hash)

/-- The queue, the mergeset and the blocks known to be in the past of the selected
parent. -/
structure MergesetState (H : Type) where
  queue : List H
  mergeset : List H
  past : List H

def visitParent (selectedParent : H) (s : MergesetState H) (parent : H) : MergesetState H :=
  if parent ∈ s.mergeset ∨ parent ∈ s.past then s
  else if m.isDagAncestorOf parent selectedParent then { s with past := s.past ++ [parent] }
  else { s with queue := s.queue ++ [parent], mergeset := s.mergeset ++ [parent] }

def mergesetLoop (selectedParent : H) : ℕ → MergesetState H → Option (List H)
  | 0, s => if s.queue = [] then some s.mergeset else none
  | fuel + 1, s =>
    match s.queue with
    | [] => some s.mergeset
    | current :: queue => do
      let parents ← m.relationsStore current
      mergesetLoop selectedParent fuel
        (parents.foldl (m.visitParent selectedParent) { s with queue := queue })

def unorderedMergesetWithoutSelectedParent (selectedParent : H) (parents : List H) :
    Option (List H) :=
  let queue := parents.filter (· ≠ selectedParent)
  m.mergesetLoop selectedParent (queue.length + m.blockCount) ⟨queue, queue.dedup, []⟩

def orderedMergesetWithoutSelectedParent (selectedParent : H) (parents : List H) :
    Option (List H) := do
  m.sortBlocks (← m.unorderedMergesetWithoutSelectedParent selectedParent parents)

/-- Walk down the selected chain to the first entry for `block`. -/
def anticoneSizeLoop (block : H) : ℕ → FMap H ℕ → H → Option ℕ
  | 0, _, _ => none
  | fuel + 1, sizes, selectedParent =>
    match sizes.lookup block with
    | some size => some size
    | none =>
      if selectedParent = m.genesisHash ∨ selectedParent = m.originHash then none
      else do
        let d ← m.ghostdagStore selectedParent
        anticoneSizeLoop block fuel d.bluesAnticoneSizes d.selectedParent

def blueAnticoneSize (block : H) (context : GhostdagData H) : Option ℕ :=
  m.anticoneSizeLoop block (m.blockCount + 1) context.bluesAnticoneSizes context.selectedParent

def scanBlues (newBlockData : GhostdagData H) (blueCandidate : H) :
    List H → FMap H ℕ → ℕ → Option (ColoringState × FMap H ℕ × ℕ)
  | [], sizes, size => some (.pending, sizes, size)
  | block :: blocks, sizes, size =>
    if m.isDagAncestorOf block blueCandidate then
      scanBlues newBlockData blueCandidate blocks sizes size
    else do
      let blockSize ← m.blueAnticoneSize block newBlockData
      if m.k < size + 1 then some (.red, sizes.insert block blockSize, size + 1)
      else if blockSize = m.k then some (.red, sizes.insert block blockSize, size + 1)
      -- the sanity check on the blue anticone of a blue block
      else if m.k < blockSize then none
      else scanBlues newBlockData blueCandidate blocks (sizes.insert block blockSize) (size + 1)

def checkBlueCandidateWithChainBlock (newBlockData : GhostdagData H) (hash : Option H)
    (data : GhostdagData H) (blueCandidate : H) (sizes : FMap H ℕ) (size : ℕ) :
    Option (ColoringState × FMap H ℕ × ℕ) :=
  if hash.any (m.isDagAncestorOf · blueCandidate) then some (.blue, sizes, size)
  else m.scanBlues newBlockData blueCandidate data.mergesetBlues sizes size

def candidateLoop (newBlockData : GhostdagData H) (blueCandidate : H) :
    ℕ → Option H → GhostdagData H → FMap H ℕ → ℕ → Option (ColoringOutput H)
  | 0, _, _, _, _ => none
  | fuel + 1, hash, data, sizes, size => do
    let (state, sizes, size) ←
      m.checkBlueCandidateWithChainBlock newBlockData hash data blueCandidate sizes size
    match state with
    | .blue => some (.blue size sizes)
    | .red => some .red
    | .pending =>
      let next ← m.ghostdagStore data.selectedParent
      candidateLoop newBlockData blueCandidate fuel (some data.selectedParent) next sizes size

def checkBlueCandidate (newBlockData : GhostdagData H) (blueCandidate : H) :
    Option (ColoringOutput H) :=
  if newBlockData.mergesetBlues.length = m.k + 1 then some .red
  else m.candidateLoop newBlockData blueCandidate (m.blockCount + 2) none newBlockData ∅ 0

def color (newBlockData : GhostdagData H) (blueCandidate : H) : Option (GhostdagData H) := do
  match ← m.checkBlueCandidate newBlockData blueCandidate with
  | .blue size sizes => some (newBlockData.addBlue blueCandidate size sizes)
  | .red => some (newBlockData.addRed blueCandidate)

def workOf (block : H) : Option ℕ := if block = m.originHash then some 0 else m.work block

/-- The data of a block with the given parents. `k + 1` is computed in 16 bits. -/
def ghostdag (parents : List H) : Option (GhostdagData H) := do
  let selectedParent ← m.findSelectedParent parents
  if 2 ^ 16 ≤ m.k + 1 then none
  else
    let mergeset ← m.orderedMergesetWithoutSelectedParent selectedParent parents
    let colored ← mergeset.foldlM m.color (GhostdagData.newWithSelectedParent selectedParent)
    let parentData ← m.ghostdagStore selectedParent
    let works ← colored.mergesetBlues.mapM m.workOf
    some { colored with
      blueScore := parentData.blueScore + colored.mergesetBlues.length
      blueWork := (parentData.blueWork + works.sum) % 2 ^ 192 }

end GhostdagManager

end CryptixAtomic.Ghostdag
