import CryptixAtomic.Chain.Transaction
import CryptixAtomic.Foundation.FiniteMap

/-!
# Body tips under disqualification

The virtual processor searches the next sink below the body tips. `Complete` says that a body
block that is not disqualified, and has only disqualified body children, is a tip.
Disqualifying one block keeps it exactly under `MarkOk`: parents come back only when the
block is itself a tip and no child of the parent is left, bodiless ones included.
-/
namespace CryptixAtomic.Processor

open Foundation List Option Relation FMap Finmap

inductive BlockStatus
  | invalid
  | utxoValid
  | utxoPendingVerification
  | disqualifiedFromChain
  | headerOnly
  deriving DecidableEq

def BlockStatus.hasBlockBody : BlockStatus → Bool
  | .utxoValid | .utxoPendingVerification | .disqualifiedFromChain => true
  | .invalid | .headerOnly => false

variable {H : Type} [DecidableEq H]

/-- The relations, status and body tips stores. Children are not stored a second
time: a block is a child of each of its parents. -/
structure BlockStores (H : Type) where
  parents : FMap H (List H)
  statuses : FMap H BlockStatus
  bodyTips : Finset H

namespace BlockStores

variable (s : BlockStores H)

variable (block : H)

def parentsOf : List H := (s.parents.lookup block).getD []

def isDisqualified : Bool := s.statuses.lookup block = some .disqualifiedFromChain

def hasBody : Bool := (s.statuses.lookup block).any BlockStatus.hasBlockBody

def getChildren (parent : H) : Option (Finset H) :=
  if parent ∈ s.parents then some (s.parents.keys.filter fun child => parent ∈ s.parentsOf child)
  else none

variable (added removed : Finset H)

/-- A set item is updated by removing first and adding afterwards. -/
def updateTips : BlockStores H :=
  { s with bodyTips := (s.bodyTips \ removed) ∪ added }

variable (status : BlockStatus)

def setStatus : BlockStores H :=
  { s with statuses := s.statuses.insert block status }

def allBodyChildrenDisqualified (parent pendingDisqualifiedChild : H) : Bool :=
  match s.getChildren parent with
  | none => false
  | some children => decide (∀ child ∈ children,
      child = pendingDisqualifiedChild ∨ s.isDisqualified child)

def disqualifiedTipReplacementParents : List H :=
  if block ∈ s.bodyTips then
    ((s.parentsOf block).filter fun parent => !s.isDisqualified parent).filter
      fun parent => s.allBodyChildrenDisqualified parent block
  else []

def markBlockDisqualified : BlockStores H :=
  (s.updateTips (s.disqualifiedTipReplacementParents block).toFinset {block}).setStatus block
    .disqualifiedFromChain

def sanitizeDisqualifiedBodyTips (fallbackTip : H) : BlockStores H :=
  let disqualifiedTips := s.bodyTips.filter fun tip => s.isDisqualified tip
  if disqualifiedTips = ∅ ∧ s.bodyTips ≠ ∅ then s
  else
    let replacementTips :=
      disqualifiedTips.biUnion fun tip => (s.disqualifiedTipReplacementParents tip).toFinset
    let fallback : Finset H :=
      if s.bodyTips = ∅ ∧ s.isDisqualified fallbackTip = false ∧ fallbackTip ∈ s.parents
      then {fallbackTip} else ∅
    s.updateTips (replacementTips ∪ fallback) disqualifiedTips

/-- A body is written: its block becomes a tip in place of its parents. -/
def commitBody : BlockStores H :=
  (s.updateTips {block} (s.parentsOf block).toFinset).setStatus block .utxoPendingVerification

def commitHeader (parents : List H) : BlockStores H :=
  { s with parents := s.parents.insert block parents }.setStatus block .headerOnly

end BlockStores

/-- How a chain block whose selected parent is valid fares in the upward walk:
its cached diffs are used, or it is recomputed and verified, or that fails. -/
inductive Verdict
  | cached
  | verified
  | failed
  deriving DecidableEq

structure WalkState (H : Type) where
  stores : BlockStores H
  diffPoint : H
  selectedParent : H

def walkStep (verdict : H → Verdict) (w : WalkState H) (current : H) : WalkState H :=
  if w.selectedParent ≠ w.diffPoint then
    -- the selected parent is disqualified: propagate
    { w with
      stores := if w.stores.isDisqualified current then w.stores
        else w.stores.markBlockDisqualified current
      selectedParent := current }
  else if w.stores.isDisqualified current then { w with selectedParent := current }
  else
    match verdict current with
    | .cached => { w with diffPoint := current, selectedParent := current }
    | .verified =>
      { stores := w.stores.setStatus current .utxoValid
        diffPoint := current
        selectedParent := current }
    | .failed =>
      { w with stores := w.stores.markBlockDisqualified current, selectedParent := current }

/-- The upward walk from the split point along the chain of `to`; nothing is
touched when `to` is already disqualified. -/
def walkUp (s : BlockStores H) (splitPoint : H) (chain : List H) (verdict : H → Verdict) :
    BlockStores H :=
  if s.isDisqualified (chain.getLastD splitPoint) then s
  else (chain.foldl (walkStep verdict) ⟨s, splitPoint, splitPoint⟩).stores

/-- What happens to the stores between two sink searches. -/
inductive BlockEvent (H : Type)
  | header (block : H) (parents : List H)
  | invalidBody (block : H)
  | body (block : H)
  | chainWalk (splitPoint : H) (chain : List H) (verdict : H → Verdict)
  | sanitize (fallbackTip : H)

/-- Consecutive blocks of a chain are a parent and its child. -/
def isChain (s : BlockStores H) : H → List H → Bool
  | _, [] => true
  | parent, current :: rest => parent ∈ s.parentsOf current && isChain s current rest

/-- One event, with the checks that come before it: a header is new and its
parents are known, a body follows its header and the bodies of its parents, and
a walk runs along bodies. -/
def applyEvent (s : BlockStores H) : BlockEvent H → Option (BlockStores H)
  | .header block parents =>
    if s.statuses.lookup block = none ∧ block ∉ s.parents ∧ ∀ p ∈ parents, p ∈ s.parents then
      some (s.commitHeader block parents)
    else none
  | .invalidBody block =>
    if s.statuses.lookup block = some .headerOnly then some (s.setStatus block .invalid) else none
  | .body block =>
    if s.statuses.lookup block = some .headerOnly ∧ ∀ p ∈ s.parentsOf block, s.hasBody p then
      some (s.commitBody block)
    else none
  | .chainWalk splitPoint chain verdict =>
    if (∀ block ∈ chain, s.hasBody block) ∧ isChain s splitPoint chain then
      some (walkUp s splitPoint chain verdict)
    else none
  | .sanitize fallbackTip => some (s.sanitizeDisqualifiedBodyTips fallbackTip)

/-- A run of events; `none` as soon as one of them is refused. -/
def runEvents (s : BlockStores H) : List (BlockEvent H) → Option (BlockStores H)
  | [] => some s
  | e :: es => (applyEvent s e).bind fun t => runEvents t es

/-- The stores after genesis, whose only recorded parent is the origin. -/
def genesisStores (origin genesis : H) : BlockStores H where
  parents := ((∅ : FMap H (List H)).insert origin []).insert genesis [origin]
  statuses := (∅ : FMap H BlockStatus).insert genesis .utxoValid
  bodyTips := {genesis}

namespace BlockStores

def Complete (s : BlockStores H) : Prop := ∀ b, s.hasBody b → s.isDisqualified b = false →
    (∀ c, b ∈ s.parentsOf c → s.hasBody c → s.isDisqualified c) → b ∈ s.bodyTips

/-- What disqualifying `block` needs: a body parent that it leaves without a
valid body child is a tip, or `block` is a tip and every other child of that parent is
disqualified, those without a body included. -/
def MarkOk (s : BlockStores H) (block : H) : Prop :=
  ∀ p ∈ s.parentsOf block, s.hasBody p → s.isDisqualified p = false →
    (∀ c, p ∈ s.parentsOf c → s.hasBody c → c = block ∨ s.isDisqualified c) →
    p ∈ s.bodyTips ∨ block ∈ s.bodyTips ∧ ∀ c, p ∈ s.parentsOf c → c = block ∨ s.isDisqualified c

/-- `t` is reached from `b` through children. -/
def InPast (s : BlockStores H) : H → H → Prop :=
  ReflTransGen fun parent child => parent ∈ s.parentsOf child

end BlockStores

def Marks (verdict : H → Verdict) (w : WalkState H) (current : H) : Prop :=
  w.stores.isDisqualified current = false ∧
    (w.selectedParent = w.diffPoint → verdict current = .failed)

/-- Every disqualification of the walk meets `MarkOk`. -/
def WalkOk (verdict : H → Verdict) : WalkState H → List H → Prop
  | _, [] => True
  | w, current :: rest =>
    (Marks verdict w current → w.stores.MarkOk current) ∧
      WalkOk verdict (walkStep verdict w current) rest

def EventOk (s : BlockStores H) : BlockEvent H → Prop
  | .chainWalk splitPoint chain verdict =>
    s.isDisqualified (chain.getLastD splitPoint) = false →
      WalkOk verdict ⟨s, splitPoint, splitPoint⟩ chain
  | _ => True

def EventsOk (s : BlockStores H) : List (BlockEvent H) → Prop
  | [] => True
  | e :: es => EventOk s e ∧ ∀ t, applyEvent s e = some t → EventsOk t es

namespace BlockStores

section Reads

variable (s : BlockStores H) (block : H)

@[simp] theorem isDisqualified_updateTips :
    (s.updateTips added removed).isDisqualified = s.isDisqualified := rfl

@[simp] theorem bodyTips_setStatus :
    (s.setStatus block status).bodyTips = s.bodyTips := rfl

theorem mem_updateTips (b : H) :
    b ∈ (s.updateTips added removed).bodyTips ↔ b ∈ s.bodyTips ∧ b ∉ removed ∨ b ∈ added := by
  simp [updateTips]

theorem isDisqualified_setStatus (b : H) :
    (s.setStatus block status).isDisqualified b =
      if b = block then decide (status = .disqualifiedFromChain) else s.isDisqualified b := by
  unfold isDisqualified setStatus
  rw [lookup_insert_ite]
  split_ifs <;> simp

theorem hasBody_setStatus (b : H) : (s.setStatus block status).hasBody b =
      if b = block then status.hasBlockBody else s.hasBody b := by
  unfold hasBody setStatus
  rw [lookup_insert_ite]
  split_ifs <;> rfl

theorem hasBody_eq_false {s : BlockStores H} {b : H}
    (h : s.statuses.lookup b = none ∨ s.statuses.lookup b = some .headerOnly) :
    s.hasBody b = false := by
  rcases h with h | h <;> simp [hasBody, h, BlockStatus.hasBlockBody]

end Reads

section Relations

/-- Parents are known, and some rank grows from parents to children. -/
structure Ranked (s : BlockStores H) : Prop where
  known : ∀ c, ∀ p ∈ s.parentsOf c, p ∈ s.parents
  rank : ∃ rank : H → ℕ, ∀ c, ∀ p ∈ s.parentsOf c, rank p < rank c

variable {s t : BlockStores H}

theorem mem_parents_of_child {p c : H} (h : p ∈ s.parentsOf c) : c ∈ s.parents := by
  by_contra hc
  rw [parentsOf, lookup_eq_none.mpr hc] at h
  exact not_mem_nil h

theorem Ranked.of_parents_eq (h : s.Ranked) (hparents : t.parents = s.parents) : t.Ranked := by
  have hof : t.parentsOf = s.parentsOf := by
    funext c
    rw [parentsOf, hparents, ← parentsOf]
  constructor
  · rw [hof, hparents]
    exact h.known
  · rw [hof]
    exact h.rank

theorem parentsOf_commitHeader (s : BlockStores H) (block : H) (parents : List H) (c : H) :
    (s.commitHeader block parents).parentsOf c =
      if c = block then parents else s.parentsOf c := by
  unfold commitHeader parentsOf
  simp only [setStatus]
  rw [lookup_insert_ite]
  split_ifs <;> rfl

theorem Ranked.commitHeader (h : s.Ranked) {block : H} {parents : List H}
    (hnew : block ∉ s.parents) (hknown : ∀ p ∈ parents, p ∈ s.parents) :
    (s.commitHeader block parents).Ranked := by
  have hmem : ∀ p, p ∈ s.parents → p ∈ (s.commitHeader block parents).parents := by
    intro p hp
    simp only [BlockStores.commitHeader, setStatus, mem_insert]
    exact .inr hp
  constructor
  · intro c p hp
    rw [parentsOf_commitHeader] at hp
    split_ifs at hp
    · exact hmem p (hknown p hp)
    · exact hmem p (h.known c p hp)
  · obtain ⟨rank, hrank⟩ := h.rank
    -- the new block has no child yet, so only its own rank has to be chosen
    refine ⟨fun b => if b = block then parents.toFinset.sup rank + 1 else rank b, ?_⟩
    intro c p hp
    rw [parentsOf_commitHeader] at hp
    have hpb : p ≠ block := by
      rintro rfl
      split_ifs at hp
      · exact hnew (hknown p hp)
      · exact hnew (h.known c p hp)
    simp only [if_neg hpb]
    split_ifs at hp ⊢ with hc
    · have hle : rank p ≤ parents.toFinset.sup rank := Finset.le_sup (List.mem_toFinset.mpr hp)
      omega
    · exact hrank c p hp

theorem Complete.exists_tip (hs : s.Complete) (hr : s.Ranked) {b : H} (hb : s.hasBody b)
    (hok : s.isDisqualified b = false) :
    ∃ t ∈ s.bodyTips, s.isDisqualified t = false ∧ s.InPast b t := by
  obtain ⟨rank, hrank⟩ := hr.rank
  -- ranks of known blocks are bounded, so climbing to valid children ends
  have hbound : ∀ c p, p ∈ s.parentsOf c → rank c ≤ s.parents.keys.sup rank := by
    intro c p hp
    exact Finset.le_sup (Finmap.mem_keys.mpr (mem_parents_of_child hp))
  induction hn : s.parents.keys.sup rank - rank b using Nat.strong_induction_on generalizing b with
  | _ n ih =>
    by_cases hchild : ∀ c, b ∈ s.parentsOf c → s.hasBody c → s.isDisqualified c
    · exact ⟨b, hs b hb hok hchild, hok, ReflTransGen.refl⟩
    · push Not at hchild
      obtain ⟨c, hbc, hc, hcok⟩ := hchild
      have hlt := hrank c b hbc
      have hle := hbound c b hbc
      obtain ⟨t, ht, htok, hpast⟩ :=
        ih (s.parents.keys.sup rank - rank c) (by omega) hc (by simpa using hcok) rfl
      exact ⟨t, ht, htok, ReflTransGen.head hbc hpast⟩

end Relations

section Marking

variable {s : BlockStores H} {block : H}

theorem isDisqualified_mark (s : BlockStores H) (block b : H) :
    (s.markBlockDisqualified block).isDisqualified b =
    (decide (b = block) || s.isDisqualified b) := by
  unfold markBlockDisqualified
  rw [isDisqualified_setStatus]
  split_ifs with h <;> simp [h]

theorem hasBody_mark (hbody : s.hasBody block) (b : H) :
    (s.markBlockDisqualified block).hasBody b = s.hasBody b := by
  unfold markBlockDisqualified
  rw [hasBody_setStatus]
  split_ifs with h
  · rw [h, hbody]
    rfl
  · rfl

theorem allBodyChildrenDisqualified_iff (hr : s.Ranked) {p : H} (hp : p ∈ s.parentsOf block) :
    s.allBodyChildrenDisqualified p block ↔
      ∀ c, p ∈ s.parentsOf c → c = block ∨ s.isDisqualified c := by
  rw [allBodyChildrenDisqualified, getChildren, if_pos (hr.known block p hp)]
  simp only [decide_eq_true_eq, Finset.mem_filter, Finmap.mem_keys]
  constructor
  · intro h c hc
    exact h c ⟨mem_parents_of_child hc, hc⟩
  · rintro h c ⟨-, hc⟩
    exact h c hc

theorem mem_replacementParents (hr : s.Ranked) (p : H) :
    p ∈ s.disqualifiedTipReplacementParents block ↔
      block ∈ s.bodyTips ∧ p ∈ s.parentsOf block ∧ s.isDisqualified p = false ∧
        ∀ c, p ∈ s.parentsOf c → c = block ∨ s.isDisqualified c := by
  unfold disqualifiedTipReplacementParents
  split_ifs with htip
  · simp only [mem_filter, Bool.not_eq_true', htip, true_and]
    constructor
    · rintro ⟨⟨hp, hok⟩, hall⟩
      exact ⟨hp, hok, (allBodyChildrenDisqualified_iff hr hp).mp hall⟩
    · rintro ⟨hp, hok, hall⟩
      exact ⟨⟨hp, hok⟩, (allBodyChildrenDisqualified_iff hr hp).mpr hall⟩
  · simp [htip]

theorem mem_tips_mark (p : H) : p ∈ (s.markBlockDisqualified block).bodyTips ↔
      p ∈ s.bodyTips ∧ p ≠ block ∨ p ∈ s.disqualifiedTipReplacementParents block := by
  rw [markBlockDisqualified, bodyTips_setStatus, mem_updateTips, List.mem_toFinset,
    Finset.mem_singleton]

theorem markOk_of_tip (htip : block ∈ s.bodyTips)
    (hall : ∀ c ∈ s.parents.keys, ∀ p ∈ s.parentsOf block, p ∈ s.parentsOf c →
      c = block ∨ s.isDisqualified c) : s.MarkOk block := by
  intro p hp _ _ _
  refine .inr ⟨htip, fun c hc => ?_⟩
  exact hall c (Finmap.mem_keys.mpr (mem_parents_of_child hc)) p hp hc

theorem Complete.mark_iff (hs : s.Complete) (hr : s.Ranked) (hbody : s.hasBody block) :
    (s.markBlockDisqualified block).Complete ↔ s.MarkOk block := by
  constructor
  · intro hmark p hp hpbody hpok hchildren
    have hne : p ≠ block := by
      rintro rfl
      obtain ⟨rank, hrank⟩ := hr.rank
      exact lt_irrefl _ (hrank p p hp)
    have htip := hmark p (by rw [hasBody_mark hbody, hpbody])
      (by rw [isDisqualified_mark, hpok, decide_eq_false hne]; rfl) (by
        intro c hc hcbody
        rw [hasBody_mark hbody] at hcbody
        rw [isDisqualified_mark, Bool.or_eq_true, decide_eq_true_eq]
        exact hchildren c hc hcbody)
    rw [mem_tips_mark, mem_replacementParents hr] at htip
    rcases htip with ⟨htip, -⟩ | ⟨htip, -, -, hall⟩
    · exact .inl htip
    · exact .inr ⟨htip, hall⟩
  · intro hok b hb hbok hchildren
    rw [hasBody_mark hbody] at hb
    rw [isDisqualified_mark, Bool.or_eq_false_iff, decide_eq_false_iff_not] at hbok
    have hchildren' : ∀ c, b ∈ s.parentsOf c → s.hasBody c → c = block ∨ s.isDisqualified c := by
      intro c hc hcbody
      have h := hchildren c hc (by rw [hasBody_mark hbody, hcbody])
      rwa [isDisqualified_mark, Bool.or_eq_true, decide_eq_true_eq] at h
    rw [mem_tips_mark, mem_replacementParents hr]
    by_cases hparent : b ∈ s.parentsOf block
    · rcases hok b hparent hb hbok.2 hchildren' with htip | ⟨htip, hall⟩
      · exact .inl ⟨htip, hbok.1⟩
      · exact .inr ⟨htip, hparent, hbok.2, hall⟩
    · -- a block that is no parent of the disqualified one keeps its body children
      refine .inl ⟨hs b hb hbok.2 ?_, hbok.1⟩
      intro c hc hcbody
      rcases hchildren' c hc hcbody with rfl | hdis
      · exact absurd hc hparent
      · exact hdis

end Marking

section Keeping

variable {s : BlockStores H} {block : H}

theorem Complete.setValid (hs : s.Complete) (hbody : s.hasBody block)
    (hok : s.isDisqualified block = false) : (s.setStatus block .utxoValid).Complete := by
  have hdis : (s.setStatus block .utxoValid).isDisqualified = s.isDisqualified := by
    funext b
    rw [isDisqualified_setStatus]
    split_ifs with h
    · rw [h, hok]
      rfl
    · rfl
  have hbodies : (s.setStatus block .utxoValid).hasBody = s.hasBody := by
    funext b
    rw [hasBody_setStatus]
    split_ifs with h
    · rw [h, hbody]
      rfl
    · rfl
  unfold Complete
  rw [hdis, hbodies]
  exact hs

theorem Complete.setBodiless (hs : s.Complete) {status : BlockStatus}
    (hbody : s.hasBody block = false) (hstatus : status.hasBlockBody = false) :
    (s.setStatus block status).Complete := by
  have hne : ∀ b, s.hasBody b → b ≠ block := by
    rintro b hb rfl
    rw [hbody] at hb
    exact Bool.false_ne_true hb
  have hkeep : ∀ b, b ≠ block →
      (s.setStatus block status).isDisqualified b = s.isDisqualified b := by
    intro b hb
    rw [isDisqualified_setStatus, if_neg hb]
  intro b hb hbok hchildren
  have hb' : s.hasBody b := by
    rw [hasBody_setStatus] at hb
    split_ifs at hb
    · rw [hstatus] at hb
      exact absurd hb Bool.false_ne_true
    · exact hb
  rw [hkeep b (hne b hb')] at hbok
  apply hs b hb' hbok
  intro c hc hcbody
  have h := hchildren c hc (by rw [hasBody_setStatus, if_neg (hne c hcbody), hcbody])
  rwa [hkeep c (hne c hcbody)] at h

theorem Complete.commitHeader (hs : s.Complete) (hnew : s.statuses.lookup block = none)
    (hunknown : block ∉ s.parents) (parents : List H) :
    (s.commitHeader block parents).Complete := by
  have hbody : s.hasBody block = false := hasBody_eq_false (.inl hnew)
  have hrel : Complete { s with parents := s.parents.insert block parents } := by
    intro b hb hbok hchildren
    apply hs b hb hbok
    intro c hc hcbody
    apply hchildren c _ hcbody
    have hne : c ≠ block := by
      rintro rfl
      exact hunknown (mem_parents_of_child hc)
    rwa [parentsOf, lookup_insert_ite, if_neg hne]
  exact hrel.setBodiless hbody rfl

theorem Complete.commitBody (hs : s.Complete)
    (hheader : s.statuses.lookup block = some .headerOnly) : (s.commitBody block).Complete := by
  have hbody : s.hasBody block = false := hasBody_eq_false (.inr hheader)
  intro b hb hbok hchildren
  rw [BlockStores.commitBody, bodyTips_setStatus, mem_updateTips, Finset.mem_singleton,
    List.mem_toFinset]
  by_cases hbb : b = block
  · exact .inr hbb
  unfold BlockStores.commitBody at hb hbok hchildren
  rw [hasBody_setStatus, if_neg hbb] at hb
  rw [isDisqualified_setStatus, if_neg hbb] at hbok
  refine .inl ⟨hs b hb hbok ?_, ?_⟩
  · intro c hc hcbody
    have hcb : c ≠ block := by
      rintro rfl
      rw [hbody] at hcbody
      exact Bool.false_ne_true hcbody
    have h := hchildren c hc (by rw [hasBody_setStatus, if_neg hcb]; exact hcbody)
    rwa [isDisqualified_setStatus, if_neg hcb] at h
  · -- the new body is a valid body child of each of its parents
    intro hparent
    have h := hchildren block hparent (by rw [hasBody_setStatus, if_pos rfl]; rfl)
    rw [isDisqualified_setStatus, if_pos rfl] at h
    exact absurd h (by decide)

theorem Complete.sanitize (hs : s.Complete) (fallbackTip : H) :
    (s.sanitizeDisqualifiedBodyTips fallbackTip).Complete := by
  unfold sanitizeDisqualifiedBodyTips
  simp only
  split_ifs
  all_goals first
    | exact hs
    | intro b hb hbok hchildren
      rw [mem_updateTips, Finset.mem_filter]
      refine .inl ⟨hs b hb hbok hchildren, ?_⟩
      rintro ⟨-, hdis⟩
      rw [isDisqualified_updateTips] at hbok
      rw [hbok] at hdis
      exact Bool.false_ne_true hdis

end Keeping

end BlockStores

section Runs

open BlockStores

variable {s : BlockStores H}

theorem walkStep_stores (verdict : H → Verdict) (w : WalkState H) (current : H) :
    (walkStep verdict w current).stores = w.stores ∨ w.stores.isDisqualified current = false ∧
        (walkStep verdict w current).stores = w.stores.setStatus current .utxoValid ∨
      Marks verdict w current ∧
        (walkStep verdict w current).stores = w.stores.markBlockDisqualified current := by
  unfold walkStep Marks
  by_cases hpoint : w.selectedParent = w.diffPoint
  · by_cases hdis : w.stores.isDisqualified current
    · simp [hpoint, hdis]
    · rw [Bool.not_eq_true] at hdis
      cases hv : verdict current <;> simp [hpoint, hdis]
  · by_cases hdis : w.stores.isDisqualified current
    · simp [hpoint, hdis]
    · rw [Bool.not_eq_true] at hdis
      simp [hpoint, hdis]

theorem walkStep_frame (verdict : H → Verdict) (w : WalkState H) {current : H}
    (hbody : w.stores.hasBody current) :
    (walkStep verdict w current).stores.parents = w.stores.parents ∧
      (walkStep verdict w current).stores.hasBody = w.stores.hasBody := by
  rcases walkStep_stores verdict w current with h | ⟨-, h⟩ | ⟨-, h⟩
  · rw [h]
    exact ⟨rfl, rfl⟩
  · rw [h]
    refine ⟨rfl, funext fun b => ?_⟩
    rw [hasBody_setStatus]
    split_ifs with hb
    · rw [hb, hbody]
      rfl
    · rfl
  · rw [h]
    exact ⟨rfl, funext (hasBody_mark hbody)⟩

/-- The rounds of a walk keep the tips complete when its disqualifications meet `MarkOk`. -/
theorem complete_walk (verdict : H → Verdict) (chain : List H) (w : WalkState H)
    (hr : w.stores.Ranked) (hbodies : ∀ b ∈ chain, w.stores.hasBody b) :
    (chain.foldl (walkStep verdict) w).stores.parents = w.stores.parents ∧
      (w.stores.Complete → WalkOk verdict w chain →
        (chain.foldl (walkStep verdict) w).stores.Complete) := by
  induction chain generalizing w with
  | nil => exact ⟨rfl, fun hs _ => hs⟩
  | cons current rest ih =>
    have hbody := hbodies current mem_cons_self
    obtain ⟨hparents, hkept⟩ := walkStep_frame verdict w hbody
    obtain ⟨hrest, hcomplete⟩ := ih (walkStep verdict w current) (hr.of_parents_eq hparents) (by
      intro b hb
      rw [hkept]
      exact hbodies b (mem_cons_of_mem current hb))
    refine ⟨hrest.trans hparents, fun hs hok => hcomplete ?_ hok.2⟩
    rcases walkStep_stores verdict w current with h | ⟨hvalid, h⟩ | ⟨hmarks, h⟩
    · rw [h]
      exact hs
    · rw [h]
      exact hs.setValid hbody hvalid
    · rw [h]
      exact (hs.mark_iff hr hbody).mpr (hok.1 hmarks)

theorem applyEvent_keeps {t : BlockStores H} {e : BlockEvent H} (hr : s.Ranked)
    (h : applyEvent s e = some t) : t.Ranked ∧ (s.Complete → EventOk s e → t.Complete) := by
  cases e with
  | header block parents =>
    simp only [applyEvent] at h
    split_ifs at h with hcheck
    obtain ⟨hnew, hunknown, hknown⟩ := hcheck
    rw [← some.inj h]
    exact ⟨hr.commitHeader hunknown hknown, fun hs _ => hs.commitHeader hnew hunknown parents⟩
  | invalidBody =>
    simp only [applyEvent] at h
    split_ifs at h with hheader
    rw [← some.inj h]
    exact ⟨hr.of_parents_eq rfl, fun hs _ => hs.setBodiless (hasBody_eq_false (.inr hheader)) rfl⟩
  | body =>
    simp only [applyEvent] at h
    split_ifs at h with hcheck
    rw [← some.inj h]
    exact ⟨hr.of_parents_eq rfl, fun hs _ => hs.commitBody hcheck.1⟩
  | chainWalk splitPoint chain verdict =>
    simp only [applyEvent] at h
    split_ifs at h with hcheck
    rw [← some.inj h, walkUp]
    split_ifs with hto
    · exact ⟨hr, fun hs _ => hs⟩
    · obtain ⟨hparents, hcomplete⟩ :=
        complete_walk verdict chain ⟨s, splitPoint, splitPoint⟩ hr hcheck.1
      exact ⟨hr.of_parents_eq hparents, fun hs hok => hcomplete hs (hok (by simpa using hto))⟩
  | sanitize fallbackTip =>
    rw [← some.inj h]
    refine ⟨hr.of_parents_eq ?_, fun hs _ => hs.sanitize fallbackTip⟩
    unfold sanitizeDisqualifiedBodyTips
    simp only
    split_ifs <;> rfl

theorem runEvents_keeps {t : BlockStores H} {events : List (BlockEvent H)} (hr : s.Ranked)
    (h : runEvents s events = some t) :
    t.Ranked ∧ (s.Complete → EventsOk s events → t.Complete) := by
  induction events generalizing s with
  | nil =>
    rw [← some.inj h]
    exact ⟨hr, fun hs _ => hs⟩
  | cons e es ih =>
    obtain ⟨m, hm, hrest⟩ := bind_eq_some_iff.mp h
    obtain ⟨hmr, hmc⟩ := applyEvent_keeps hr hm
    obtain ⟨htr, htc⟩ := ih hmr hrest
    exact ⟨htr, fun hs hok => htc (hmc hs hok.1) (hok.2 m hm)⟩

theorem ranked_genesisStores {origin genesis : H} (hne : origin ≠ genesis) :
    (genesisStores origin genesis).Ranked := by
  have hof : ∀ c, (genesisStores origin genesis).parentsOf c =
      if c = genesis then [origin] else [] := by
    intro c
    simp only [parentsOf, genesisStores, lookup_insert_ite]
    split_ifs <;> simp
  constructor
  · intro c p hp
    rw [hof] at hp
    split_ifs at hp
    · rw [mem_singleton.mp hp]
      simp [genesisStores]
    · exact absurd hp not_mem_nil
  · refine ⟨fun b => if b = genesis then 1 else 0, ?_⟩
    intro c p hp
    rw [hof] at hp
    split_ifs at hp with hc
    · simp only [mem_singleton.mp hp, if_neg hne, if_pos hc]
      exact Nat.zero_lt_one
    · exact absurd hp not_mem_nil

theorem complete_genesisStores (origin genesis : H) : (genesisStores origin genesis).Complete := by
  intro b hb _ _
  have hmem : b = genesis := by
    by_contra hne
    have hnone : (genesisStores origin genesis).statuses.lookup b = none := by
      rw [genesisStores, lookup_insert_ite, if_neg hne, lookup_empty]
    rw [hasBody_eq_false (.inl hnone)] at hb
    exact Bool.false_ne_true hb
  rw [hmem]
  exact Finset.mem_singleton_self genesis

/-- After every run from genesis whose disqualifications all meet `MarkOk`, the
body tips are complete and every valid body block lies below a valid tip. The
condition is exact: from complete tips, a disqualification keeps them complete
if and only if it meets `MarkOk`. -/
theorem body_tips_complete_iff_markOk (origin genesis : H) (hne : origin ≠ genesis)
    (events : List (BlockEvent H)) (s : BlockStores H)
    (hrun : runEvents (genesisStores origin genesis) events = some s) :
    (EventsOk (genesisStores origin genesis) events →
      s.Complete ∧ ∀ b, s.hasBody b → s.isDisqualified b = false →
        ∃ t ∈ s.bodyTips, s.isDisqualified t = false ∧ s.InPast b t) ∧
    ∀ block, s.Complete → s.hasBody block →
      ((s.markBlockDisqualified block).Complete ↔ s.MarkOk block) := by
  obtain ⟨hr, hcomplete⟩ := runEvents_keeps (ranked_genesisStores hne) hrun
  refine ⟨fun hok => ?_, fun block hs hbody => hs.mark_iff hr hbody⟩
  have hs := hcomplete (complete_genesisStores origin genesis) hok
  exact ⟨hs, fun b hb hvalid => hs.exists_tip hr hb hvalid⟩

end Runs

section Samples

def sampleHash (tag : UInt8) : Bytes32 := ⟨tag :: List.replicate 31 0, by simp⟩

/-- Genesis `1`, a side tip `2` and a chain `3`, `4`, `5`; the walk to `5` accepts
`3` and rejects `4`. -/
def sampleEvents : List (BlockEvent Bytes32) :=
  [.header (sampleHash 2) [sampleHash 1], .body (sampleHash 2),
    .header (sampleHash 3) [sampleHash 1], .body (sampleHash 3),
    .header (sampleHash 4) [sampleHash 3], .body (sampleHash 4),
    .header (sampleHash 5) [sampleHash 4], .body (sampleHash 5),
    .chainWalk (sampleHash 1) [sampleHash 3, sampleHash 4, sampleHash 5]
      fun block => if block = sampleHash 4 then .failed else .verified]

def sampleStores : Option (BlockStores Bytes32) :=
  runEvents (genesisStores (sampleHash 0) (sampleHash 1)) sampleEvents

/-- A valid body block outside the tips, all of whose children are disqualified. -/
def isLost (s : BlockStores Bytes32) (block : Bytes32) : Bool :=
  s.hasBody block && !s.isDisqualified block && block ∉ s.bodyTips &&
    decide (∀ c ∈ s.parents.keys, block ∈ s.parentsOf c → s.isDisqualified c)

theorem not_complete_of_isLost {s : BlockStores Bytes32} {block : Bytes32}
    (h : isLost s block) : ¬ s.Complete := by
  simp only [isLost, Bool.and_eq_true, Bool.not_eq_true', decide_eq_true_eq] at h
  obtain ⟨⟨⟨hbody, hvalid⟩, htip⟩, hchildren⟩ := h
  intro hs
  apply htip
  apply hs block hbody hvalid
  intro c hc _
  exact hchildren c (Finmap.mem_keys.mpr (BlockStores.mem_parents_of_child hc)) hc

/-- The walk disqualifies `4`, which is no tip, and then `5`, whose only parent is
disqualified: the valid block `3` never comes back. -/
theorem body_tips_lose_valid_block : ∃ s, sampleStores = some s ∧
    isLost s (sampleHash 3) ∧ s.bodyTips = {sampleHash 2} ∧ ¬ s.Complete := by
  have hfacts : (sampleStores.map fun s =>
      (isLost s (sampleHash 3), decide (s.bodyTips = {sampleHash 2}))) = some (true, true) := by
    decide +kernel
  obtain ⟨s, hs, hs'⟩ := map_eq_some_iff.mp hfacts
  obtain ⟨hlost, htips⟩ := Prod.mk.inj hs'
  exact ⟨s, hs, hlost, of_decide_eq_true htips, not_complete_of_isLost hlost⟩

/-- A tip alone above genesis is disqualified: genesis comes back. -/
def tipEvents : List (BlockEvent Bytes32) :=
  [.header (sampleHash 2) [sampleHash 1], .body (sampleHash 2),
    .chainWalk (sampleHash 1) [sampleHash 2] fun _ => .failed]

theorem eventsOk_tipEvents : EventsOk (genesisStores (sampleHash 0) (sampleHash 1)) tipEvents := by
  refine ⟨trivial, fun t ht => ?_⟩
  rw [applyEvent, if_pos (by decide +kernel)] at ht
  obtain rfl := some.inj ht
  refine ⟨trivial, fun t ht => ?_⟩
  rw [applyEvent, if_pos (by decide +kernel)] at ht
  obtain rfl := some.inj ht
  refine ⟨fun _ => ⟨fun _ => ?_, trivial⟩, fun _ _ => trivial⟩
  apply BlockStores.markOk_of_tip
  · decide +kernel
  · decide +kernel

theorem disqualified_tip_restores_genesis : sampleHash 0 ≠ sampleHash 1 ∧
    ∃ s, runEvents (genesisStores (sampleHash 0) (sampleHash 1)) tipEvents = some s ∧
      s.bodyTips = {sampleHash 1} ∧ s.Complete := by
  have hne : sampleHash 0 ≠ sampleHash 1 := by decide
  have htips : (runEvents (genesisStores (sampleHash 0) (sampleHash 1)) tipEvents).map
      BlockStores.bodyTips = some {sampleHash 1} := by
    decide +kernel
  obtain ⟨s, hs, hs'⟩ := map_eq_some_iff.mp htips
  have h := body_tips_complete_iff_markOk (sampleHash 0) (sampleHash 1) hne tipEvents s hs
  exact ⟨hne, s, hs, hs', (h.1 eventsOk_tipEvents).1⟩

end Samples

end CryptixAtomic.Processor
