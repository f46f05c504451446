import CryptixAtomic.Processor.Anchors

/-!
# Rebuilding anchor counts from a UTXO set

Below the activation of payloads a node may rebuild the token state from the UTXO set by
counting the live outputs that no coinbase made. Processing keeps the same counts only as
long as no transaction spends a coinbase output of an owner that keeps another anchor: the
spent output was never counted, yet it is taken off.
-/
namespace CryptixAtomic.Processor

open Foundation Transition List Finmap

section Rebuild

variable (blake2b : Blake2b)

def addAtomicAnchorCountWithPolicy (includeCoinbase : Bool) (s : AtomicConsensusState)
    (entry : UtxoEntry) : Except String AtomicConsensusState :=
  if entry.isCoinbase ∧ includeCoinbase = false then .ok s
  else match atomicOwnerIdFromScript blake2b entry.scriptPublicKey with
    | none => .ok s
    | some ownerId => do
      let ownerHex := hex32 ownerId
      let count ← okOr (checkedAdd 64 (s.anchorCount ownerId) 1)
        s!"atomic anchor count overflow for owner `{ownerHex}`"
      return s.setAnchorCount blake2b ownerId count

/-- The loop over the iterator, whose items may be read errors. -/
def addAnchors (context : String) (includeCoinbase : Bool) : AtomicConsensusState →
    List (Except String (TransactionOutpoint × UtxoEntry)) → Except String AtomicConsensusState
  | s, [] => .ok s
  | _, .error err :: _ => .error s!"failed iterating {context}: {err}"
  | s, .ok (_, entry) :: rest => do
    let s ← addAtomicAnchorCountWithPolicy blake2b includeCoinbase s entry
    addAnchors context includeCoinbase s rest

variable (utxos : List (Except String (TransactionOutpoint × UtxoEntry)))

def atomicAnchorStateFromUtxoIteratorInner (context : String) (includeCoinbase : Bool) :
    Except String AtomicConsensusState := do
  let s ← addAnchors blake2b context includeCoinbase .default utxos
  s.validateNormalized blake2b
  return s

def atomicAnchorStateFromUtxoIterator (context : String) : Except String AtomicConsensusState :=
  atomicAnchorStateFromUtxoIteratorInner blake2b utxos context false

end Rebuild

/-- The entries of a set in some order, each once. -/
def Enumerates (entries : List (TransactionOutpoint × UtxoEntry)) (utxo : UtxoCollection) : Prop :=
  (entries.map Prod.fst).Nodup ∧ utxo = FMap.insertAll ∅ entries

/-- An output with the script of the owner that no coinbase made. -/
def isOrdinaryAnchorOf (blake2b : Blake2b) (ownerId : Bytes32) (e : UtxoEntry) : Bool :=
  !e.isCoinbase && isAnchorOf blake2b ownerId e

def isRewardAnchorOf (blake2b : Blake2b) (ownerId : Bytes32) (e : UtxoEntry) : Bool :=
  e.isCoinbase && isAnchorOf blake2b ownerId e

variable {entries : List (TransactionOutpoint × UtxoEntry)}

theorem Enumerates.liveOutputs_eq
    {utxo : UtxoCollection} (h : Enumerates entries utxo) (test : UtxoEntry → Bool) :
    liveOutputs test utxo = entries.countP fun e => test e.2 := by
  have hinsert := FMap.total_insertAll (fun _ e => if test e then 1 else 0) (∅ : UtxoCollection)
    h.1 (fun e _ => Finmap.lookup_empty _)
  rw [liveOutputs, h.2, hinsert, FMap.total_empty, Nat.zero_add, sum_map_ite_eq_countP
    (fun e : TransactionOutpoint × UtxoEntry => test e.2)]

/-- A state in memory that holds nothing but anchor counts, and those in normal form. -/
structure PlainState (s : AtomicConsensusState) : Prop where
  memory : s.currentStore = none
  root : s.storedRoot = .default
  nonces : s.nonceOption = fun _ => none
  assets : s.assetOption = fun _ => none
  balances : s.balanceOption = fun _ => none
  vaults : s.vaultOption = fun _ => none
  anchors : ∀ ownerId, s.anchorCountOption ownerId =
    AtomicConsensusState.nonZero (s.anchorCount ownerId)
  fits : ∀ ownerId, s.anchorCount ownerId ≤ maxWord 64

namespace PlainState

open AtomicConsensusState

variable {blake2b : Blake2b} {s t : AtomicConsensusState}

theorem default : PlainState .default where
  memory := rfl
  root := rfl
  nonces := rfl
  assets := rfl
  balances := rfl
  vaults := rfl
  anchors _ := rfl
  fits _ := Nat.zero_le _

theorem beginDeltaTracking (h : PlainState s) : PlainState s.beginDeltaTracking :=
  ⟨h.memory, h.root, h.nonces, h.assets, h.balances, h.vaults, h.anchors, h.fits⟩

theorem content_eq (h : PlainState s) (h' : PlainState t)
    (hcounts : ∀ ownerId, s.anchorCount ownerId = t.anchorCount ownerId) :
    s.content = t.content := by
  apply Content.ext
  · exact h.nonces.trans h'.nonces.symm
  · exact Indexed.ext (h.assets.trans h'.assets.symm) (h.vaults.trans h'.vaults.symm)
  · exact h.balances.trans h'.balances.symm
  · funext ownerId
    change s.anchorCountOption ownerId = t.anchorCountOption ownerId
    rw [h.anchors, h'.anchors, hcounts]

theorem sameState (h : PlainState s) (h' : PlainState t)
    (hcounts : ∀ ownerId, s.anchorCount ownerId = t.anchorCount ownerId) :
    SameState blake2b s t := by
  have hmaintained : ∀ u, PlainState u → u.RootMaintained blake2b := by
    intro u hu hstore
    rw [hu.memory] at hstore
    cases hstore
  exact .of_content blake2b (h.memory.trans h'.memory.symm) (hmaintained s h) (hmaintained t h')
    (fun _ => h.root.trans h'.root.symm) (h.content_eq h' hcounts)

theorem anchorCount_setAnchorCount (s : AtomicConsensusState) (owner ownerId : Bytes32)
    (count : ℕ) :
    (s.setAnchorCount blake2b owner count).anchorCount ownerId =
      if ownerId = owner then count else s.anchorCount ownerId := by
  split_ifs with heq
  · subst heq
    have hread := anchorCountOption_put blake2b (s.recorded (.anchor ownerId (nonZero count)))
      (.anchor ownerId (nonZero count))
    have hset : (s.setAnchorCount blake2b ownerId count).anchorCountOption ownerId =
        nonZero count := by
      refine (congrFun hread ownerId).trans ?_
      rw [content_recorded]
      exact Function.update_self ..
    rw [anchorCount, hset, nonZero]
    split_ifs with hzero
    · rfl
    · exact (not_not.mp hzero).symm
  · exact Transition.anchorCount_setAnchorCount_of_ne blake2b s _ heq

theorem setAnchorCount (h : PlainState s) (owner : Bytes32) {count : ℕ}
    (hcount : count ≤ maxWord 64) : PlainState (s.setAnchorCount blake2b owner count) := by
  have honly := @Transition.anchorsOnly_setAnchorCount blake2b s owner count
  have hbacked : s.isDiskBacked = false := by simp [isDiskBacked, h.memory]
  constructor
  · rw [← h.memory]
    unfold AtomicConsensusState.setAnchorCount
    split_ifs <;> rfl
  · rw [← h.root]
    unfold AtomicConsensusState.setAnchorCount setAnchorCountValueWithoutDelta
    split_ifs <;> simp [isDiskBacked, h.memory]
  · exact honly.nonces.trans h.nonces
  · exact honly.assets.trans h.assets
  · exact honly.balances.trans h.balances
  · exact honly.vaults.trans h.vaults
  · intro ownerId
    have hread : (s.setAnchorCount blake2b owner count).anchorCountOption =
        Function.update s.anchorCountOption owner (nonZero count) := by
      refine (anchorCountOption_put blake2b (s.recorded (.anchor owner (nonZero count)))
        (.anchor owner (nonZero count))).trans ?_
      rw [content_recorded]
      rfl
    rw [anchorCount_setAnchorCount, hread, Function.update_apply]
    split_ifs with heq
    · rfl
    · exact h.anchors ownerId
  · intro ownerId
    rw [anchorCount_setAnchorCount]
    split_ifs with heq
    · exact hcount
    · exact h.fits ownerId

theorem normalized (h : PlainState s) : s.Normalized blake2b := by
  have hassets : ∀ assetId, s.assets.live.lookup assetId = none := by
    intro assetId
    rw [← assetOption_in_memory h.memory, h.assets]
  constructor
  · intro key nonce hnonce
    rw [← nonceOption_in_memory h.memory, h.nonces] at hnonce
    cases hnonce
  · intro ownerId count hcount
    rw [← anchorCountOption_in_memory h.memory, h.anchors, nonZero] at hcount
    split_ifs at hcount with hzero
    rwa [← Option.some.inj hcount]
  · intro key amount hamount
    rw [← balanceOption_in_memory h.memory, h.balances] at hamount
    cases hamount
  · intro assetId asset hasset
    rw [hassets] at hasset
    cases hasset
  · intro assetId asset hasset
    rw [hassets] at hasset
    cases hasset
  · intro outpoint assetId
    rw [← vaultOption_in_memory h.memory, h.vaults]
    simp [hassets]

theorem foldl_setAnchorCount (h : PlainState s) (ptx : PopulatedTransaction)
    (owners : List Bytes32) :
    PlainState (owners.foldl (fun s ownerId => s.setAnchorCount blake2b ownerId
      (newAnchorCount blake2b ptx ownerId (s.anchorCount ownerId))) s) := by
  induction owners generalizing s with
  | nil => exact h
  | cons owner owners ih => exact ih (h.setAnchorCount owner (Nat.min_le_right _ _))

end PlainState

section Rebuilt

variable {blake2b : Blake2b} {s t : AtomicConsensusState}

theorem addAtomicAnchorCount_eq_ok (h : PlainState s) {entry : UtxoEntry}
    (hadd : addAtomicAnchorCountWithPolicy blake2b false s entry = .ok t) :
    PlainState t ∧ ∀ ownerId, t.anchorCount ownerId =
      s.anchorCount ownerId + if isOrdinaryAnchorOf blake2b ownerId entry then 1 else 0 := by
  unfold addAtomicAnchorCountWithPolicy at hadd
  split_ifs at hadd with hreward
  · cases hadd
    exact ⟨h, fun ownerId => by simp [isOrdinaryAnchorOf, hreward.1]⟩
  · have hordinary : entry.isCoinbase = false := by simpa using hreward
    split at hadd
    · rename_i hscript
      cases hadd
      exact ⟨h, fun ownerId => by simp [isOrdinaryAnchorOf, isAnchorOf, hscript]⟩
    · rename_i owner hscript
      simp only [except_bind_eq_ok, okOr_eq_ok, checkedAdd_eq_some, except_pure_eq_ok] at hadd
      obtain ⟨_, ⟨hfits, rfl⟩, rfl⟩ := hadd
      refine ⟨h.setAnchorCount owner (Nat.le_sub_one_of_lt hfits), ?_⟩
      intro ownerId
      rw [PlainState.anchorCount_setAnchorCount]
      by_cases heq : ownerId = owner
      · simp [isOrdinaryAnchorOf, isAnchorOf, hordinary, hscript, heq]
      · simp [isOrdinaryAnchorOf, isAnchorOf, hordinary, hscript, heq, Ne.symm heq]

theorem exists_addAtomicAnchorCount {entry : UtxoEntry} (hfits : ∀ ownerId, s.anchorCount ownerId +
      (if isOrdinaryAnchorOf blake2b ownerId entry then 1 else 0) ≤ maxWord 64) :
    ∃ t, addAtomicAnchorCountWithPolicy blake2b false s entry = .ok t := by
  unfold addAtomicAnchorCountWithPolicy
  split_ifs with hreward
  · exact ⟨s, rfl⟩
  · have hordinary : entry.isCoinbase = false := by simpa using hreward
    cases hscript : atomicOwnerIdFromScript blake2b entry.scriptPublicKey with
    | none => exact ⟨s, rfl⟩
    | some owner =>
      have hroom := hfits owner
      rw [if_pos (by simp [isOrdinaryAnchorOf, isAnchorOf, hordinary, hscript]), maxWord] at hroom
      have hlt : s.anchorCount owner + 1 < 2 ^ 64 := by omega
      simp only [checkedAdd, if_pos hlt]
      exact ⟨_, rfl⟩

theorem addAnchors_eq_ok {context : String}
    (h : PlainState s) (hadd : addAnchors blake2b context false s (entries.map .ok) = .ok t) :
    PlainState t ∧ ∀ ownerId, t.anchorCount ownerId =
      s.anchorCount ownerId + entries.countP fun e => isOrdinaryAnchorOf blake2b ownerId e.2 := by
  induction entries generalizing s with
  | nil =>
    cases hadd
    exact ⟨h, fun _ => rfl⟩
  | cons e entries ih =>
    simp only [map_cons, addAnchors, except_bind_eq_ok] at hadd
    obtain ⟨m, hfirst, hrest⟩ := hadd
    obtain ⟨hm, hcount⟩ := addAtomicAnchorCount_eq_ok h hfirst
    obtain ⟨ht, hcounts⟩ := ih hm hrest
    refine ⟨ht, ?_⟩
    intro ownerId
    rw [hcounts, hcount, countP_cons]
    omega

theorem exists_addAnchors {context : String} {entries : List (TransactionOutpoint × UtxoEntry)}
    (h : PlainState s) (hfits : ∀ ownerId, s.anchorCount ownerId +
      entries.countP (fun e => isOrdinaryAnchorOf blake2b ownerId e.2) ≤ maxWord 64) :
    ∃ t, addAnchors blake2b context false s (entries.map .ok) = .ok t := by
  induction entries generalizing s with
  | nil => exact ⟨s, rfl⟩
  | cons e entries ih =>
    have hsplit : ∀ ownerId, s.anchorCount ownerId +
        ((if isOrdinaryAnchorOf blake2b ownerId e.2 then 1 else 0) +
          entries.countP fun e => isOrdinaryAnchorOf blake2b ownerId e.2) ≤ maxWord 64 := by
      intro ownerId
      have hall := hfits ownerId
      rw [countP_cons] at hall
      omega
    obtain ⟨m, hm⟩ := @exists_addAtomicAnchorCount blake2b s e.2 (by
      intro ownerId
      have hall := hsplit ownerId
      omega)
    obtain ⟨hplain, hcount⟩ := addAtomicAnchorCount_eq_ok h hm
    obtain ⟨t, ht⟩ := ih hplain (by
      intro ownerId
      have hall := hsplit ownerId
      rw [hcount]
      omega)
    refine ⟨t, ?_⟩
    rw [map_cons, addAnchors, hm]
    exact ht

/-- However the set is enumerated, rebuilding gives the state: the same counts, and the
same hash. -/
def Rebuilt (blake2b : Blake2b) (k : JointState) : Prop :=
  ∀ entries context, Enumerates entries k.utxo →
    ∃ s, atomicAnchorStateFromUtxoIterator blake2b (entries.map .ok) context = .ok s ∧
      s.anchorCountOption = k.atomic.anchorCountOption ∧
      AtomicConsensusState.SameState blake2b s k.atomic

theorem enumerates_iter (utxo : UtxoCollection) : Enumerates utxo.iter utxo := by
  have hnodup : (utxo.iter.map Prod.fst).Nodup :=
    (pairwise_map.mpr utxo.iter_sorted).imp ne_of_lt
  refine ⟨hnodup, ext_lookup fun o => ?_⟩
  cases ho : utxo.lookup o with
  | some e => rw [FMap.lookup_insertAll_of_mem _ hnodup (FMap.mem_iter.mpr ho)]
  | none =>
    rw [FMap.lookup_insertAll_of_notMem, Finmap.lookup_empty]
    intro hmem
    obtain ⟨e, he, rfl⟩ := mem_map.mp hmem
    cases ho.symm.trans (FMap.mem_iter.mp he)

/-- Rebuilding is right exactly when the counts are those of the live outputs that no
coinbase made. -/
theorem rebuilt_iff {k : JointState} (h : PlainState k.atomic) : Rebuilt blake2b k ↔ ∀ ownerId,
      liveOutputs (isOrdinaryAnchorOf blake2b ownerId) k.utxo = k.atomic.anchorCount ownerId := by
  constructor
  · intro hrebuilt ownerId
    have henum := enumerates_iter k.utxo
    obtain ⟨s, hs, hcounts, -⟩ := hrebuilt _ "" henum
    simp only [atomicAnchorStateFromUtxoIterator, atomicAnchorStateFromUtxoIteratorInner,
      except_bind_eq_ok, except_pure_eq_ok] at hs
    obtain ⟨_, hadd, -, -, rfl⟩ := hs
    have hcount := (addAnchors_eq_ok PlainState.default hadd).2 ownerId
    rw [henum.liveOutputs_eq, AtomicConsensusState.anchorCount, ← hcounts]
    exact ((Nat.zero_add _).symm.trans hcount.symm)
  · intro hcounts entries context henum
    obtain ⟨s, hs⟩ := @exists_addAnchors blake2b .default context entries PlainState.default (by
      intro ownerId
      have hcount := hcounts ownerId
      rw [henum.liveOutputs_eq] at hcount
      rw [hcount]
      exact (Nat.zero_add _).le.trans (h.fits ownerId))
    obtain ⟨hplain, hcount⟩ := addAnchors_eq_ok PlainState.default hs
    have hsame : ∀ ownerId, s.anchorCount ownerId = k.atomic.anchorCount ownerId := by
      intro ownerId
      rw [hcount, ← hcounts, henum.liveOutputs_eq]
      exact Nat.zero_add _
    have hstate := @PlainState.sameState blake2b _ _ hplain h hsame
    refine ⟨s, ?_, congrArg Content.anchor hstate.content, hstate⟩
    rw [atomicAnchorStateFromUtxoIterator, atomicAnchorStateFromUtxoIteratorInner, hs]
    simp only [except_bind_eq_ok, except_pure_eq_ok]
    exact ⟨s, rfl, (), (AtomicConsensusState.validateNormalized_eq_ok blake2b).mpr hplain.normalized,
      rfl⟩

end Rebuilt

section Steps

variable {blake2b : Blake2b} {params : AtomicParams}

/-- The condition on a transaction: it spends a coinbase output of an owner only together
with all other outputs of that owner, and no count leaves 64 bits. -/
def SpendsRewardsLast (blake2b : Blake2b) (k : JointState) (x : TxContext) : Prop := ∀ ownerId,
    (spentOutputs (isRewardAnchorOf blake2b ownerId) x.ptx = 0 ∨
      liveOutputs (isOrdinaryAnchorOf blake2b ownerId) k.utxo =
        spentOutputs (isOrdinaryAnchorOf blake2b ownerId) x.ptx) ∧
    liveOutputs (isOrdinaryAnchorOf blake2b ownerId) k.utxo -
      spentOutputs (isOrdinaryAnchorOf blake2b ownerId) x.ptx +
        (createdOwners blake2b x.ptx).count ownerId ≤ maxWord 64

theorem spentOutputs_split (ownerId : Bytes32) (ptx : PopulatedTransaction) :
    spentOutputs (isOrdinaryAnchorOf blake2b ownerId) ptx +
      spentOutputs (isRewardAnchorOf blake2b ownerId) ptx =
        spentOutputs (isAnchorOf blake2b ownerId) ptx := by
  simp only [spentOutputs]
  induction ptx.populatedInputs with
  | nil => rfl
  | cons p rest ih =>
    simp only [countP_cons]
    cases hcoinbase : p.2.isCoinbase <;>
      simp only [isOrdinaryAnchorOf, isRewardAnchorOf, hcoinbase, Bool.not_false, Bool.not_true,
        Bool.true_and, Bool.false_and, Bool.false_eq_true, if_false] at ih ⊢ <;> omega

variable {x : TxContext}

theorem PlainState.accepts {s t : AtomicConsensusState} (h : PlainState s)
    (hbelow : params.isPayloadHfActive x.povDaaScore = false)
    (haccepts : Accepts blake2b params s x t) : PlainState t := by
  obtain ⟨calls, hcalls, hrun⟩ := transition_spec blake2b params x.ptx x.povDaaScore x.ctx haccepts
  cases hcalls with
  | plain =>
    rw [run_anchorCalls blake2b x.ptx fun _ => rfl] at hrun
    cases hrun
    exact h.foldl_setAnchorCount x.ptx _
  | token payload =>
    rw [payloadOf, if_pos (Or.inl hbelow)] at payload
    cases payload

theorem PlainState.step {j k : JointState} {e : JointEvent} (h : PlainState j.atomic)
    (hbelow : ∀ x, e = .accepted x → params.isPayloadHfActive x.povDaaScore = false)
    (hstep : JointStep blake2b params j e k) : PlainState k.atomic := by
  cases hstep with
  | newBlock => exact h.beginDeltaTracking
  | coinbase => exact h
  | accepted plain unspent distinct fresh accepts => exact h.accepts (hbelow _ rfl) accepts

theorem PlainState.anchorCount_accepts {s t : AtomicConsensusState}
    (h : PlainState s) (haccepts : Accepts blake2b params s x t) (ownerId : Bytes32) :
    t.anchorCount ownerId = newAnchorCount blake2b x.ptx ownerId (s.anchorCount ownerId) := by
  rw [anchorCount_of_accepts haccepts]
  split_ifs with howner
  · rfl
  · rw [anchorOwners, Finset.mem_sort, mem_toFinset, mem_append, not_or] at howner
    rw [newAnchorCount, count_eq_zero_of_not_mem howner.1,
      count_eq_zero_of_not_mem howner.2, saturatingAdd, Nat.sub_zero, Nat.add_zero,
      min_eq_left (h.fits ownerId)]

theorem counts_accepted_iff {j k : JointState} (h : PlainState j.atomic)
    (hcounts : ∀ ownerId, liveOutputs (isOrdinaryAnchorOf blake2b ownerId) j.utxo =
      j.atomic.anchorCount ownerId) (hstep : JointStep blake2b params j (.accepted x) k) :
    (∀ ownerId, liveOutputs (isOrdinaryAnchorOf blake2b ownerId) k.utxo =
      k.atomic.anchorCount ownerId) ↔ SpendsRewardsLast blake2b j x := by
  cases hstep with
  | @accepted _ t plain unspent distinct fresh accepts =>
    refine forall_congr' fun ownerId => ?_
    have hlive := liveOutputs_apply (isOrdinaryAnchorOf blake2b ownerId) x.povDaaScore unspent
      distinct fresh
    have hspent := spentOutputs_le (isOrdinaryAnchorOf blake2b ownerId) unspent distinct
    have hsplit := @spentOutputs_split blake2b ownerId x.ptx
    have hcreated : createdOutputs (isOrdinaryAnchorOf blake2b ownerId) x.ptx.tx x.povDaaScore =
        (createdOwners blake2b x.ptx).count ownerId := by
      rw [count_createdOwners blake2b ownerId x.povDaaScore, createdOutputs, createdOutputs, plain]
      rfl
    change liveOutputs (isOrdinaryAnchorOf blake2b ownerId)
      (j.utxo.applyTransaction x.ptx.tx x.povDaaScore) = t.anchorCount ownerId ↔ _
    rw [h.anchorCount_accepts accepts, newAnchorCount, saturatingAdd, count_spentOwners,
      ← hsplit, ← hcounts]
    rw [hcreated] at hlive
    omega

theorem counts_unchanged {j k : JointState} {e : JointEvent} (he : ∀ x, e ≠ .accepted x)
    (hstep : JointStep blake2b params j e k) :
    (∀ ownerId, liveOutputs (isOrdinaryAnchorOf blake2b ownerId) k.utxo =
      k.atomic.anchorCount ownerId) ↔
    ∀ ownerId, liveOutputs (isOrdinaryAnchorOf blake2b ownerId) j.utxo =
      j.atomic.anchorCount ownerId := by
  cases hstep with
  | newBlock => rfl
  | @coinbase tx daaScore reward noInputs fresh =>
    refine forall_congr' fun ownerId => ?_
    have hnone : createdOutputs (isOrdinaryAnchorOf blake2b ownerId) tx daaScore = 0 := by
      rw [createdOutputs, countP_eq_zero]
      intro output _
      simp [isOrdinaryAnchorOf, reward]
    rw [liveOutputs_coinbase _ _ noInputs fresh, hnone, Nat.add_zero]
  | accepted => exact absurd rfl (he _)

variable {j l : JointState} {events : List JointEvent}

theorem PlainState.run (h : PlainState j.atomic)
    (hbelow : ∀ x, .accepted x ∈ events → params.isPayloadHfActive x.povDaaScore = false)
    (hrun : JointRun blake2b params j events l) : PlainState l.atomic := by
  induction hrun with
  | nil => exact h
  | cons step rest ih =>
    apply ih
    · apply h.step _ step
      rintro x rfl
      exact hbelow x mem_cons_self
    · intro x hx
      exact hbelow x (mem_cons_of_mem _ hx)

theorem counts_of_run (h : PlainState j.atomic)
    (hcounts : ∀ ownerId, liveOutputs (isOrdinaryAnchorOf blake2b ownerId) j.utxo =
      j.atomic.anchorCount ownerId)
    (hbelow : ∀ x, .accepted x ∈ events → params.isPayloadHfActive x.povDaaScore = false)
    (hok : ∀ before x after k, events = before ++ .accepted x :: after →
      JointRun blake2b params j before k → SpendsRewardsLast blake2b k x)
    (hrun : JointRun blake2b params j events l) (ownerId : Bytes32) :
    liveOutputs (isOrdinaryAnchorOf blake2b ownerId) l.utxo = l.atomic.anchorCount ownerId := by
  induction hrun with
  | nil => exact hcounts ownerId
  | @cons j m l e events step rest ih =>
    have hm : PlainState m.atomic := by
      apply h.step _ step
      rintro x rfl
      exact hbelow x mem_cons_self
    apply ih hm
    · cases e with
      | newBlock | coinbase => exact (counts_unchanged (by simp) step).mpr hcounts
      | accepted x =>
        exact (counts_accepted_iff h hcounts step).mpr (hok [] x events j rfl (.nil j))
    · intro x hx
      exact hbelow x (mem_cons_of_mem _ hx)
    · intro before x after k heq hbefore
      exact hok (e :: before) x after k (by rw [heq]; rfl) (.cons step hbefore)

variable {v : ValidatorParams}

/-- Along every chain below the activation, rebuilding gives the state at every point
exactly when every accepted transaction spends coinbase outputs of an owner last. -/
theorem anchors_rebuilt_iff {chain : List ChainBlock} (hchain : ChainOk [] chain)
    (hbelow : ∀ c ∈ chain, params.isPayloadHfActive c.povDaaScore = false) :
    ∃ l events, advanceAll blake2b params v ⟨∅, .default⟩ chain = .ok l ∧
      ChainRun blake2b params v ⟨∅, .default⟩ chain l events ∧
      ((∀ before after k, events = before ++ after →
          JointRun blake2b params ⟨∅, .default⟩ before k → Rebuilt blake2b k) ↔
        ∀ before x after k, events = before ++ .accepted x :: after →
          JointRun blake2b params ⟨∅, .default⟩ before k → SpendsRewardsLast blake2b k x) := by
  obtain ⟨l, events, -, hrun, -, -⟩ :=
    @exists_chainRun blake2b params v _ [] chain Bound.genesis History.empty hchain
  have hscores : ∀ x, .accepted x ∈ events → params.isPayloadHfActive x.povDaaScore = false := by
    intro x hx
    obtain ⟨c, hc, heq⟩ := hrun.povDaaScore hx
    rw [heq]
    exact hbelow c hc
  refine ⟨l, events, hrun.advanceAll, hrun, ?_, ?_⟩
  · rintro hrebuilt before x after k rfl hbefore
    obtain ⟨k₁, k', hfirst, hstep, -⟩ := hrun.jointRun.split
    obtain rfl := hfirst.unique hbefore
    have hplain : PlainState k₁.atomic := by
      apply PlainState.default.run _ hbefore
      intro x' hx'
      exact hscores x' (mem_append_left _ hx')
    have hplain' : PlainState k'.atomic := by
      apply hplain.step _ hstep
      intro x' hx'
      cases hx'
      exact hscores x (mem_append_right _ mem_cons_self)
    have hk := (rebuilt_iff hplain).mp (hrebuilt before _ k₁ rfl hbefore)
    have hafter : JointRun blake2b params ⟨∅, .default⟩ (before ++ [.accepted x]) k' :=
      hbefore.append (.cons hstep (.nil k'))
    have hk' := (rebuilt_iff hplain').mp (hrebuilt (before ++ [.accepted x]) after k' (by simp)
      hafter)
    exact (counts_accepted_iff hplain hk hstep).mp hk'
  · rintro hok before after k rfl hbefore
    have hearlier : ∀ x, .accepted x ∈ before → params.isPayloadHfActive x.povDaaScore = false := by
      intro x hx
      exact hscores x (mem_append_left _ hx)
    refine (rebuilt_iff (PlainState.default.run hearlier hbefore)).mpr ?_
    apply counts_of_run PlainState.default _ hearlier _ hbefore
    · intro ownerId
      rfl
    · rintro before' x after' k' rfl hbefore'
      exact hok before' x (after' ++ after) k' (by simp) hbefore'

end Steps

section Samples

open AtomicConsensusState

def preActivationParams : AtomicParams := { sampleParams with payloadHfActivationDaaScore := 100 }

/-- A key gets two rewards and turns the first into an ordinary output. -/
def rewardChain : List ChainBlock :=
  [⟨sampleBlock 200 [⟨1000000000, keyScript⟩, ⟨1000000000, keyScript⟩] [], [], 1⟩,
    ⟨sampleBlock 201 [] [nativeTx (sampleId 8) ⟨sampleId 200, 0⟩ keyScript], [], 2⟩]

/-- Then it gives the second reward away. -/
def givenRewardChain : List ChainBlock := rewardChain ++
    [⟨sampleBlock 202 [] [nativeTx (sampleId 9) ⟨sampleId 200, 1⟩ ⟨0, [0x51]⟩], [], 3⟩]

theorem givenRewardChain_ok : ChainOk [] givenRewardChain := by decide +kernel

theorem rewardChain_ok : ChainOk [] rewardChain := by decide +kernel

/-- As long as the second reward is kept. -/
theorem rewardChain_rebuilt_iff :
    ∃ l events, advanceAll zeroHash preActivationParams sampleValidator ⟨∅, .default⟩
        rewardChain = .ok l ∧ l.atomic.anchorCount zero32 = 1 ∧
      ((∀ before after k, events = before ++ after →
          JointRun zeroHash preActivationParams ⟨∅, .default⟩ before k → Rebuilt zeroHash k) ↔
        ∀ before x after k, events = before ++ .accepted x :: after →
          JointRun zeroHash preActivationParams ⟨∅, .default⟩ before k →
          SpendsRewardsLast zeroHash k x) := by
  obtain ⟨l, events, hl, -, hiff⟩ := @anchors_rebuilt_iff zeroHash preActivationParams
    sampleValidator rewardChain rewardChain_ok (by decide +kernel)
  obtain ⟨l', hl', hcount⟩ : ∃ l', advanceAll zeroHash preActivationParams sampleValidator
      ⟨∅, .default⟩ rewardChain = .ok l' ∧ decide (l'.atomic.anchorCount zero32 = 1) = true :=
    exists_ok_of_any (by decide +kernel)
  rw [hl] at hl'
  cases hl'
  exact ⟨l, events, hl, of_decide_eq_true hcount, hiff⟩

/-- What is unspent after the second reward is given away. -/
def givenRewardEntries : List (TransactionOutpoint × UtxoEntry) :=
  [(⟨sampleId 8, 0⟩, ⟨1000, keyScript, 2, false⟩), (⟨sampleId 9, 0⟩, ⟨1000, ⟨0, [0x51]⟩, 3, false⟩)]

/-- The ordinary output of the key is still there, but processing has taken it off the
count. -/
theorem givenReward_not_rebuilt : ChainOk [] givenRewardChain ∧
      (∀ c ∈ givenRewardChain, preActivationParams.isPayloadHfActive c.povDaaScore = false) ∧
      ∃ l s, advanceAll zeroHash preActivationParams sampleValidator ⟨∅, .default⟩
          givenRewardChain = .ok l ∧
        Enumerates givenRewardEntries l.utxo ∧
        atomicAnchorStateFromUtxoIterator zeroHash (givenRewardEntries.map .ok)
          "virtual UTXO set" = .ok s ∧
        s.anchorCount zero32 = 1 ∧ l.atomic.anchorCount zero32 = 0 := by
  obtain ⟨l, hl, htest⟩ : ∃ l, advanceAll zeroHash preActivationParams sampleValidator
      ⟨∅, .default⟩ givenRewardChain = .ok l ∧
      decide (l.utxo = FMap.insertAll ∅ givenRewardEntries ∧
        l.atomic.anchorCount zero32 = 0) = true :=
    exists_ok_of_any (by decide +kernel)
  obtain ⟨s, hs, hcount⟩ : ∃ s, atomicAnchorStateFromUtxoIterator zeroHash
      (givenRewardEntries.map .ok) "virtual UTXO set" = .ok s ∧
      decide (s.anchorCount zero32 = 1) = true :=
    exists_ok_of_any (by decide +kernel)
  obtain ⟨hutxo, hzero⟩ := of_decide_eq_true htest
  exact ⟨givenRewardChain_ok, by decide +kernel, l, s, hl, ⟨by decide +kernel, hutxo⟩, hs,
    of_decide_eq_true hcount, hzero⟩

end Samples

end CryptixAtomic.Processor
