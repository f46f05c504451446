import CryptixAtomic.Mempool.Pools
import CryptixAtomic.Processor.AtomicOrder
import CryptixAtomic.Processor.Template
import Mathlib.Data.List.ReduceOption

/-!
# Validation of a batch for the mempool

The transactions of a batch are validated one by one against the virtual state. Those that
repeat an id or an outpoint are turned down, and the others are applied to a copy of the token
state: the token transactions in their order, then the rest by id. The checks in isolation,
the mass calculator and the feerate threshold are parameters.
-/
namespace CryptixAtomic.Processor

open Foundation Transition List Option Function

/-- A transaction on its way into the mempool. The mass is part of the witness. -/
structure CandidateTransaction extends Mempool.MutableTransaction where
  witness : TxWitness
  calculatedFee : Option ℕ
  calculatedComputeMass : Option ℕ
  deriving DecidableEq

structure MempoolRules extends ValidatorParams where
  validateTxInIsolation : BlockTransaction → ℕ → Except TxRuleError Unit
  utxoFreeTxValidation : BlockTransaction → ℕ → ℕ → Except TxRuleError Unit
  calcTxOverallMass : PopulatedTransaction → TxWitness → Option ℕ → Option ℕ
  /-- The threshold, if the id has one, with the fee and the mass it is compared to. -/
  checkFeerateThreshold : Bytes32 → ℕ → ℕ → Except TxRuleError Unit

def CandidateTransaction.asVerifiable (mtx : CandidateTransaction) : Option PopulatedTransaction :=
  if h : mtx.entries.all (·.isSome) = true then
    some ⟨mtx.tx, mtx.entries.reduceOption, by
      rw [mtx.aligned]
      exact (reduceOption_length_eq_iff.mpr (all_eq_true.mp h)).symm⟩
  else none

/-- An entry that is there already is kept. -/
def populateMempoolTransactionInUtxoContext (view : UtxoView) (mtx : CandidateTransaction) :
    CandidateTransaction :=
  { mtx with
    entries := List.zipWith (fun (input : TransactionInput) entry =>
      entry.or (view input.previousOutpoint)) mtx.tx.inputs mtx.entries
    aligned := by rw [length_zipWith, ← mtx.aligned, Nat.min_self] }

section Single

variable (blake2b : Blake2b) (params : AtomicParams) (rules : MempoolRules) (vs : VirtualState)
  (view : UtxoView)

/-- The checks of a populated transaction with its mass just set; the threshold comes
before the scripts. -/
def validateWithThreshold (ptx : PopulatedTransaction) (witness : TxWitness)
    (threshold : ℕ → Except TxRuleError Unit) : Except TxRuleError ℕ := do
  checkTransactionCoinbaseMaturity rules.toValidatorParams ptx vs.daaScore
  checkAtomicPayloadContext blake2b params ptx vs.daaScore
  let totalIn ← checkTransactionInputAmounts ptx
  let totalOut ← checkTransactionOutputValues ptx totalIn
  checkSequenceLock ptx witness vs.daaScore
  threshold (totalIn - totalOut)
  rules.checkSigOpCounts ptx witness
  rules.checkScripts ptx witness
  return totalIn - totalOut

def validateMempoolTransactionInUtxoContext (mtx : CandidateTransaction) :
    CandidateTransaction × Except TxRuleError Unit :=
  let mtx := populateMempoolTransactionInUtxoContext view mtx
  match mtx.asVerifiable with
  | none => (mtx, .error .missingTxOutpoints)
  | some ptx =>
    match rules.calcTxOverallMass ptx mtx.witness mtx.calculatedComputeMass with
    | none => (mtx, .error .massIncomputable)
    | some mass =>
      let mtx := { mtx with witness := { mtx.witness with mass } }
      match validateWithThreshold blake2b params rules vs ptx mtx.witness
          (rules.checkFeerateThreshold mtx.id · mass) with
      | .error e => (mtx, .error e)
      | .ok fee => ({ mtx with calculatedFee := some fee }, .ok ())

def validateMempoolTransactionWithoutAtomic (mtx : CandidateTransaction) :
    CandidateTransaction × Except TxRuleError Unit :=
  match rules.validateTxInIsolation ⟨mtx.tx, mtx.witness⟩ vs.daaScore with
  | .error e => (mtx, .error e)
  | .ok _ =>
    match rules.utxoFreeTxValidation ⟨mtx.tx, mtx.witness⟩ vs.daaScore vs.pastMedianTime with
    | .error e => (mtx, .error e)
    | .ok _ => validateMempoolTransactionInUtxoContext blake2b params rules vs view mtx

/-- The order key. All entries of a validated transaction are there. -/
def extractMempoolAtomicOrderKey (mtx : CandidateTransaction) :
    Except TxRuleError (Option AtomicTxOrderInfo) :=
  if params.isPayloadHfActive vs.daaScore = false ∨ mtx.tx.isPayload = false ∨
      mtx.tx.payload = [] then
    .ok none
  else match parseAtomicPayload mtx.tx.payload with
    | .error message => .error (.invalidAtomicPayload message)
    | .ok none => .ok none
    | .ok (some parsed) =>
      let authInputIndex := parsed.authInputIndex
      match mtx.entries[authInputIndex]?.join with
      | none => .error (.invalidAtomicPayload
          s!"auth_input_index `{authInputIndex}` has no populated UTXO entry in contextual validation")
      | some entry =>
        match atomicOwnerIdFromScript blake2b entry.scriptPublicKey with
        | none => .error (.invalidAtomicPayload
            "auth input script public key is not a supported CAT owner authorization scheme (expected PubKey, PubKeyECDSA, or ScriptHash)")
        | some ownerId =>
          .ok (some (atomicOrderInfoForOp ownerId parsed.nonce mtx.tx.id parsed.op))

/-- One transaction's turn at the token state. -/
def turn (mtx : CandidateTransaction) (state : AtomicConsensusState × AtomicBlockStateGrowth) :
    (AtomicConsensusState × AtomicBlockStateGrowth) × Except TxRuleError Unit :=
  match mtx.asVerifiable with
  -- not reached, all entries are there
  | none => (state, .error .missingTxOutpoints)
  | some ptx =>
    match (validateAndApplyAtomicStateTransitionWithGrowth blake2b params ptx vs.daaScore
        vs.creationContext).run state with
    | .error e state => (state, .error (.invalidAtomicPayload e))
    | .ok _ state => (state, .ok ())

end Single

def duplicateInBatch : TxRuleError :=
  .invalidAtomicPayload "duplicate transaction in mempool validation batch"

def notReady : TxRuleError := .invalidAtomicPayload "Atomic state is not ready for mempool validation"

/-- The results after the look for repeated ids and outpoints. -/
def rejectConflicts : List (CandidateTransaction × Except TxRuleError Unit) → List Bytes32 →
    List TransactionOutpoint → List (Except TxRuleError Unit)
  | [], _, _ => []
  | (_, .error e) :: rest, seen, spent => .error e :: rejectConflicts rest seen spent
  | (mtx, .ok _) :: rest, seen, spent =>
    if mtx.id ∈ seen then .error duplicateInBatch :: rejectConflicts rest seen spent
    else if mtx.tx.inputs.any fun input => input.previousOutpoint ∈ spent then
      .error .missingTxOutpoints :: rejectConflicts rest (mtx.id :: seen) spent
    else .ok () :: rejectConflicts rest (mtx.id :: seen) (mtx.tx.spentOutpoints ++ spent)

/-- A transaction with what was found out about it before its turn. -/
abbrev Judged := CandidateTransaction × Except TxRuleError (Option AtomicTxOrderInfo)

def Judged.atomicKey? (j : Judged) : Option AtomicTxOrderInfo :=
  match j.2 with
  | .ok key => key
  | .error _ => none

def Judged.plainId? (j : Judged) : Option Bytes32 :=
  match j.2 with
  | .ok none => some j.1.id
  | _ => none

def orderedAtomicItems (judged : List Judged) : List (ℕ × AtomicTxOrderInfo) :=
  judged.zipIdx.filterMap fun p => p.1.atomicKey?.map fun info => (p.2, info)

def nonAtomicItems (judged : List Judged) : List (Bytes32 × ℕ) :=
  judged.zipIdx.filterMap fun p => p.1.plainId?.map fun id => (id, p.2)

def orderedNonAtomicIndices (judged : List Judged) : List ℕ :=
  ((nonAtomicItems judged).insertionSort fun a b => toLex a ≤ toLex b).map Prod.snd

variable (s : AtomicConsensusState)

/-- The indices of the transactions that have a turn. -/
def validationOrder (judged : List Judged) : List ℕ :=
  orderAtomicIndices (orderedAtomicItems judged) s ++ orderedNonAtomicIndices judged

structure BatchLoop where
  state : AtomicConsensusState × AtomicBlockStateGrowth
  results : List (Except TxRuleError Unit)

section Batch

variable (blake2b : Blake2b) (params : AtomicParams) (rules : MempoolRules) (vs : VirtualState)
  (view : UtxoView)

def applyAt (mtxs : List CandidateTransaction) (l : BatchLoop) (idx : ℕ) : BatchLoop :=
  match l.results[idx]?, mtxs[idx]? with
  | some (.ok _), some mtx =>
    let (state, verdict) := turn blake2b params vs mtx l.state
    ⟨state, l.results.set idx verdict⟩
  | _, _ => l

def judgeBatch (txs : List CandidateTransaction) : List Judged :=
  let validated := txs.map (validateMempoolTransactionWithoutAtomic blake2b params rules vs view)
  List.zipWith (fun v r => (v.1, r.bind fun _ => extractMempoolAtomicOrderKey blake2b params vs v.1))
    validated (rejectConflicts validated [] [])

def validateMempoolTransactionsInParallel (ready : Bool) (txs : List CandidateTransaction) :
    List CandidateTransaction × List (Except TxRuleError Unit) :=
  if ready = false then (txs, txs.map fun _ => .error notReady)
  else
    let judged := judgeBatch blake2b params rules vs view txs
    let mtxs := judged.map Prod.fst
    let start : BatchLoop := ⟨(vs.atomicState, .default), judged.map fun j => j.2.map fun _ => ()⟩
    (mtxs, ((validationOrder vs.atomicState judged).foldl
      (applyAt blake2b params vs mtxs) start).results)

end Batch

section Judged

variable {blake2b : Blake2b} {params : AtomicParams} {rules : MempoolRules} {vs : VirtualState}
  {view : UtxoView}

theorem validateMempoolTransactionWithoutAtomic_tx (mtx : CandidateTransaction) :
    (validateMempoolTransactionWithoutAtomic blake2b params rules vs view mtx).1.tx = mtx.tx := by
  unfold validateMempoolTransactionWithoutAtomic validateMempoolTransactionInUtxoContext
  split
  · rfl
  · split
    · rfl
    · simp only
      split
      · rfl
      · split
        · rfl
        · split
          · rfl
          · rfl

theorem rejectConflicts_of_disjoint
    {validated : List (CandidateTransaction × Except TxRuleError Unit)}
    {seen : List Bytes32} {spent : List TransactionOutpoint}
    (hids : (validated.map (·.1.id)).Nodup) (hseen : ∀ v ∈ validated, v.1.id ∉ seen)
    (hdisjoint : validated.Pairwise fun a b =>
      a.1.tx.spentOutpoints.Disjoint b.1.tx.spentOutpoints)
    (hspent : ∀ v ∈ validated, v.1.tx.spentOutpoints.Disjoint spent) :
    rejectConflicts validated seen spent = validated.map Prod.snd := by
  induction validated generalizing seen spent with
  | nil => rfl
  | cons v rest ih =>
    obtain ⟨mtx, result⟩ := v
    rw [map_cons, nodup_cons] at hids
    rw [pairwise_cons] at hdisjoint
    rw [forall_mem_cons] at hseen hspent
    cases result with
    | error =>
      rw [rejectConflicts, ih hids.2 hseen.2 hdisjoint.2 hspent.2]
      rfl
    | ok =>
      have hfree : ¬ (mtx.tx.inputs.any fun input => input.previousOutpoint ∈ spent) = true := by
        rw [List.any_eq_true]
        rintro ⟨input, hinput, hmem⟩
        exact hspent.1 (List.mem_map_of_mem hinput) (of_decide_eq_true hmem)
      rw [rejectConflicts, if_neg hseen.1, if_neg hfree, ih hids.2 _ hdisjoint.2]
      · rfl
      · intro v hv
        rw [disjoint_append_right]
        exact ⟨(hdisjoint.1 v hv).symm, hspent.2 v hv⟩
      · intro v hv hmem
        rcases mem_cons.mp hmem with heq | hmem
        · exact hids.1 (heq ▸ List.mem_map_of_mem hv)
        · exact hseen.2 v hv hmem

variable (blake2b params rules vs view) in
/-- What is found out about a transaction on its own. -/
def judge (mtx : CandidateTransaction) : Judged :=
  let v := validateMempoolTransactionWithoutAtomic blake2b params rules vs view mtx
  (v.1, v.2.bind fun _ => extractMempoolAtomicOrderKey blake2b params vs v.1)

theorem judge_id (mtx : CandidateTransaction) :
    (judge blake2b params rules vs view mtx).1.id = mtx.id :=
  congrArg Transaction.id (validateMempoolTransactionWithoutAtomic_tx mtx)

theorem judgeBatch_of_disjoint {txs : List CandidateTransaction} (hids : (txs.map (·.id)).Nodup)
    (hdisjoint : txs.Pairwise fun a b => a.tx.spentOutpoints.Disjoint b.tx.spentOutpoints) :
    judgeBatch blake2b params rules vs view txs = txs.map (judge blake2b params rules vs view) := by
  have htx := @validateMempoolTransactionWithoutAtomic_tx blake2b params rules vs view
  unfold judgeBatch
  simp only
  rw [rejectConflicts_of_disjoint]
  · rw [zipWith_map_right, zipWith_self, List.map_map]
    rfl
  · rw [List.map_map]
    simpa only [comp_def, Mempool.MutableTransaction.id, htx] using hids
  · simp
  · apply pairwise_map.mpr
    simpa only [htx] using hdisjoint
  · simp

variable {info : AtomicTxOrderInfo}

variable {mtx : CandidateTransaction}

theorem extractMempoolAtomicOrderKey_txid
    (h : extractMempoolAtomicOrderKey blake2b params vs mtx = .ok (some info)) :
    info.priority.txidBytes = mtx.tx.id := by
  unfold extractMempoolAtomicOrderKey at h
  split at h
  · cases h
  · cases hparse : parseAtomicPayload mtx.tx.payload with
    | error =>
      rw [hparse] at h
      cases h
    | ok parsed? =>
      rw [hparse] at h
      cases parsed? with
      | none => cases h
      | some =>
        simp only at h
        split at h
        · cases h
        · split at h
          · cases h
          · obtain rfl := some.inj (Except.ok.inj h)
            rfl

theorem atomicKey?_eq_some {j : Judged} (h : j.atomicKey? = some info) : j.2 = .ok (some info) := by
  unfold Judged.atomicKey? at h
  split at h
  · rename_i key hkey
    rw [hkey, h]
  · cases h

theorem atomicKey?_txid (h : (judge blake2b params rules vs view mtx).atomicKey? = some info) :
    info.priority.txidBytes = mtx.id := by
  have hkey := atomicKey?_eq_some h
  simp only [judge] at hkey
  rw [Mempool.MutableTransaction.id,
    ← validateMempoolTransactionWithoutAtomic_tx mtx]
  cases hresult : (validateMempoolTransactionWithoutAtomic blake2b params rules vs view mtx).2 with
  | error =>
    rw [hresult] at hkey
    cases hkey
  | ok =>
    rw [hresult] at hkey
    exact extractMempoolAtomicOrderKey_txid hkey

end Judged

section Turns

variable {α β : Type}

theorem filterMap_zipIdx_sublist (f : α → Option β) (l : List α) (start : ℕ) :
    ((l.zipIdx start).filterMap fun p => (f p.1).map fun _ => p.2).Sublist
      (range' start l.length) := by
  induction l generalizing start with
  | nil => exact Sublist.refl _
  | cons a l ih =>
    rw [zipIdx_cons, length_cons, range'_succ, filterMap_cons]
    cases f a with
    | none => exact (ih (start + 1)).cons start
    | some => exact (ih (start + 1)).cons_cons start

theorem mem_filterMap_zipIdx (f : α → Option β) (l : List α) (i : ℕ) :
    i ∈ (l.zipIdx.filterMap fun p => (f p.1).map fun _ => p.2) ↔
      ∃ a b, l[i]? = some a ∧ f a = some b := by
  simp only [mem_filterMap, Prod.exists, mem_zipIdx_iff_getElem?, map_eq_some_iff]
  constructor
  · rintro ⟨a, j, ha, b, hb, rfl⟩
    exact ⟨a, b, ha, hb⟩
  · rintro ⟨a, b, ha, hb⟩
    exact ⟨a, i, ha, b, hb, rfl⟩

variable {judged : List Judged}

theorem orderedAtomicItems_fst : (orderedAtomicItems judged).map Prod.fst =
      judged.zipIdx.filterMap fun p => p.1.atomicKey?.map fun _ => p.2 := by
  rw [orderedAtomicItems, map_filterMap]
  simp [comp_def]

theorem nonAtomicItems_snd : (nonAtomicItems judged).map Prod.snd =
      judged.zipIdx.filterMap fun p => p.1.plainId?.map fun _ => p.2 := by
  rw [nonAtomicItems, map_filterMap]
  simp

theorem validationOrder_perm (judged : List Judged) :
    (validationOrder s judged).Perm
      ((judged.zipIdx.filterMap fun p => p.1.atomicKey?.map fun _ => p.2) ++
        judged.zipIdx.filterMap fun p => p.1.plainId?.map fun _ => p.2) := by
  apply Perm.append
  · rw [← orderedAtomicItems_fst]
    exact orderAtomicIndices_perm _ s
  · rw [← nonAtomicItems_snd]
    exact (perm_insertionSort _ _).map Prod.snd

theorem mem_validationOrder {s : AtomicConsensusState} {i : ℕ} :
    i ∈ validationOrder s judged ↔ ∃ mtx key, judged[i]? = some (mtx, .ok key) := by
  rw [(validationOrder_perm s judged).mem_iff, mem_append, mem_filterMap_zipIdx,
    mem_filterMap_zipIdx]
  constructor
  · rintro (⟨⟨mtx, result⟩, info, hget, hinfo⟩ | ⟨⟨mtx, result⟩, id, hget, hid⟩)
    · cases result with
      | error => cases hinfo
      | ok key => exact ⟨mtx, key, hget⟩
    · cases result with
      | error => cases hid
      | ok key => exact ⟨mtx, key, hget⟩
  · rintro ⟨mtx, key, hget⟩
    cases key with
    | none => exact .inr ⟨(mtx, .ok none), mtx.id, hget, rfl⟩
    | some info => exact .inl ⟨(mtx, .ok (some info)), info, hget, rfl⟩

theorem validationOrder_nodup (judged : List Judged) : (validationOrder s judged).Nodup := by
  rw [(validationOrder_perm s judged).nodup_iff]
  apply nodup_append.mpr
  have hnodup : (range' 0 judged.length).Nodup := nodup_range'
  refine ⟨hnodup.sublist (filterMap_zipIdx_sublist _ judged 0),
    hnodup.sublist (filterMap_zipIdx_sublist _ judged 0), ?_⟩
  rintro i hi _ hj rfl
  obtain ⟨j, info, hget, hinfo⟩ := (mem_filterMap_zipIdx _ _ _).mp hi
  obtain ⟨j', id, hget', hid⟩ := (mem_filterMap_zipIdx _ _ _).mp hj
  obtain rfl : j = j' := some.inj (hget.symm.trans hget')
  unfold Judged.atomicKey? at hinfo
  unfold Judged.plainId? at hid
  split at hid
  · rename_i hnone
    rw [hnone] at hinfo
    cases hinfo
  · cases hid

variable (blake2b : Blake2b) (params : AtomicParams) (vs : VirtualState)

def verdicts : List CandidateTransaction → AtomicConsensusState × AtomicBlockStateGrowth →
    List (Except TxRuleError Unit)
  | [], _ => []
  | mtx :: rest, state =>
    let t := turn blake2b params vs mtx state
    t.2 :: verdicts rest t.1

variable {blake2b params vs}

/-- The loop over the indices gives each one the verdict of its turn and leaves the
other results alone. -/
theorem foldl_applyAt {mtxs : List CandidateTransaction} {seq : List ℕ} (hnodup : seq.Nodup)
    {l : BatchLoop} (hok : ∀ i ∈ seq, l.results[i]? = some (.ok ()) ∧ ∃ mtx, mtxs[i]? = some mtx) :
    (∀ j ∉ seq, (seq.foldl (applyAt blake2b params vs mtxs) l).results[j]? = l.results[j]?) ∧
      ∀ k i : ℕ, seq[k]? = some i → (seq.foldl (applyAt blake2b params vs mtxs) l).results[i]? =
        (verdicts blake2b params vs (seq.filterMap (mtxs[·]?)) l.state)[k]? := by
  induction seq generalizing l with
  | nil => simp
  | cons i seq ih =>
    rw [nodup_cons] at hnodup
    rw [forall_mem_cons] at hok
    obtain ⟨⟨hresult, mtx, hmtx⟩, hok⟩ := hok
    have hstep : applyAt blake2b params vs mtxs l i = ⟨(turn blake2b params vs mtx l.state).1,
          l.results.set i (turn blake2b params vs mtx l.state).2⟩ := by
      simp only [applyAt, hresult, hmtx]
    have hlt : i < l.results.length := (List.getElem?_eq_some_iff.mp hresult).1
    have hother : ∀ j, j ≠ i → (applyAt blake2b params vs mtxs l i).results[j]? =
        l.results[j]? := by
      intro j hj
      rw [hstep]
      exact getElem?_set_ne (Ne.symm hj)
    obtain ⟨hleft, hverdicts⟩ := @ih hnodup.2 (applyAt blake2b params vs mtxs l i) (by
      intro j hj
      rw [hother j (fun h => hnodup.1 (h ▸ hj))]
      exact hok j hj)
    constructor
    · intro j hj
      rw [mem_cons, not_or] at hj
      rw [foldl_cons, hleft j hj.2, hother j hj.1]
    · intro k j hk
      rw [foldl_cons, filterMap_cons, hmtx]
      cases k with
      | zero =>
        obtain rfl : i = j := some.inj hk
        rw [hleft i hnodup.1, hstep]
        simp [verdicts, getElem?_set_self hlt]
      | succ k =>
        rw [getElem?_cons_succ] at hk
        rw [hverdicts k j hk, hstep]
        simp [verdicts]

end Turns

section Listing

variable {α β γ : Type}

theorem filterMap_zipIdx_eq {F : α → Option β} {G : α × ℕ → Option β} {l : List α}
    (h : ∀ p, l[p.2]? = some p.1 → G p = F p.1) : l.zipIdx.filterMap G = l.filterMap F := by
  have hfst : (l.zipIdx.filterMap fun p => F p.1) = l.filterMap F := by
    rw [← comp_def F Prod.fst, ← filterMap_map, zipIdx_map_fst]
  rw [← hfst]
  apply filterMap_congr
  rintro ⟨a, i⟩ hp
  exact h (a, i) (mem_zipIdx_iff_getElem?.mp hp)

theorem filterMap_sublist_map (f : α → Option β) (g : α → γ) (l : List α) :
    (l.filterMap fun a => (f a).map fun _ => g a).Sublist (l.map g) := by
  induction l with
  | nil => exact Sublist.refl _
  | cons a l ih =>
    rw [filterMap_cons, map_cons]
    cases f a with
    | none => exact ih.cons _
    | some => exact ih.cons_cons _

variable {judged judged' : List Judged} {s : AtomicConsensusState}

def txAt (judged : List Judged) (i : ℕ) : Option CandidateTransaction := judged[i]?.map Prod.fst

theorem orderedAtomicItems_labelled (judged : List Judged) :
    (orderedAtomicItems judged).map (fun item => (txAt judged item.1, item.2)) =
      judged.filterMap fun j => j.atomicKey?.map fun info => (some j.1, info) := by
  rw [orderedAtomicItems, map_filterMap]
  apply filterMap_zipIdx_eq
  intro p hp
  rw [Option.map_map]
  apply Option.map_congr
  intro info _
  simp [txAt, hp]

theorem nonAtomicItems_labelled (judged : List Judged) :
    (nonAtomicItems judged).map (fun item => (item.1, txAt judged item.2)) =
      judged.filterMap fun j => j.plainId?.map fun id => (id, some j.1) := by
  rw [nonAtomicItems, map_filterMap]
  apply filterMap_zipIdx_eq
  intro p hp
  rw [Option.map_map]
  apply Option.map_congr
  intro id _
  simp [txAt, hp]

theorem orderedAtomicItems_nodup (hids : (judged.map (·.1.id)).Nodup)
    (htxid : ∀ j ∈ judged, ∀ info, j.atomicKey? = some info → info.priority.txidBytes = j.1.id) :
    ((orderedAtomicItems judged).map (·.2.priority.txidBytes)).Nodup := by
  have hlist : (orderedAtomicItems judged).map (·.2.priority.txidBytes) =
      judged.filterMap fun j => j.atomicKey?.map fun _ => j.1.id := by
    rw [orderedAtomicItems, map_filterMap]
    apply filterMap_zipIdx_eq
    intro p hp
    rw [Option.map_map]
    apply Option.map_congr
    intro info hinfo
    exact htxid p.1 (List.mem_of_getElem? hp) info hinfo
  rw [hlist]
  exact hids.sublist (filterMap_sublist_map _ _ _)

theorem plainId?_eq_some {j : Judged} {id : Bytes32} (h : j.plainId? = some id) : id = j.1.id := by
  unfold Judged.plainId? at h
  split at h
  · exact (some.inj h).symm
  · cases h

theorem orderedNonAtomicIndices_map_eq (hperm : judged'.Perm judged)
    (hids : (judged.map (·.1.id)).Nodup) :
    (orderedNonAtomicIndices judged').map (txAt judged') =
      (orderedNonAtomicIndices judged).map (txAt judged) := by
  have hsorted : ∀ js : List Judged,
      (((nonAtomicItems js).insertionSort fun a b => toLex a ≤ toLex b).map
        fun item => (item.1, txAt js item.2)).Pairwise fun a b => a.1 ≤ b.1 := by
    intro js
    apply pairwise_map.mpr
    have hlex := @List.pairwise_insertionSort _ (fun a b : Bytes32 × ℕ => toLex a ≤ toLex b) _
      ⟨fun a b => le_total (toLex a) (toLex b)⟩ ⟨fun _ _ _ => le_trans⟩ (nonAtomicItems js)
    apply hlex.imp
    intro a b hab
    exact (Prod.Lex.le_iff.mp hab).elim le_of_lt fun h => le_of_eq h.1
  have hlabelled : ∀ js : List Judged,
      (((nonAtomicItems js).insertionSort fun a b => toLex a ≤ toLex b).map
        fun item => (item.1, txAt js item.2)).Perm
          (js.filterMap fun j => j.plainId?.map fun id => (id, some j.1)) := by
    intro js
    rw [← nonAtomicItems_labelled]
    exact (perm_insertionSort _ _).map _
  have heq := Perm.eq_of_pairwise ?_ (hsorted judged') (hsorted judged)
    ((hlabelled judged').trans ((hperm.filterMap _).trans (hlabelled judged).symm))
  · have hsnd := congrArg (List.map Prod.snd) heq
    simpa [orderedNonAtomicIndices, List.map_map, comp_def] using hsnd
  · -- two entries of one id are the same transaction
    intro a b ha hb hab hba
    have ha := (hperm.filterMap _).mem_iff.mp ((hlabelled judged').mem_iff.mp ha)
    have hb := (hlabelled judged).mem_iff.mp hb
    obtain ⟨j, hj, hja⟩ := mem_filterMap.mp ha
    obtain ⟨k, hk, hkb⟩ := mem_filterMap.mp hb
    obtain ⟨id, hid, rfl⟩ := map_eq_some_iff.mp hja
    obtain ⟨id', hid', rfl⟩ := map_eq_some_iff.mp hkb
    obtain rfl : id = id' := le_antisymm hab hba
    have hsame := (plainId?_eq_some hid).symm.trans (plainId?_eq_some hid')
    rw [inj_on_of_nodup_map hids hj hk hsame]

theorem validationOrder_map_eq (hperm : judged'.Perm judged) (hids : (judged.map (·.1.id)).Nodup)
    (htxid : ∀ j ∈ judged, ∀ info, j.atomicKey? = some info → info.priority.txidBytes = j.1.id) :
    (validationOrder s judged').map (txAt judged') = (validationOrder s judged).map
    (txAt judged) := by
  rw [validationOrder, validationOrder, map_append, map_append,
    orderedNonAtomicIndices_map_eq hperm hids]
  congr 1
  apply orderAtomicIndices_map_eq _ (orderedAtomicItems_nodup hids htxid)
  rw [orderedAtomicItems_labelled, orderedAtomicItems_labelled]
  exact hperm.filterMap _

end Listing

section Independence

variable {blake2b : Blake2b} {params : AtomicParams} {rules : MempoolRules} {vs : VirtualState}
  {view : UtxoView}

theorem length_rejectConflicts (validated : List (CandidateTransaction × Except TxRuleError Unit))
    (seen : List Bytes32) (spent : List TransactionOutpoint) :
    (rejectConflicts validated seen spent).length = validated.length := by
  induction validated generalizing seen spent with
  | nil => rfl
  | cons v rest ih =>
    obtain ⟨mtx, result⟩ := v
    cases result with
    | error => simp [rejectConflicts, ih]
    | ok =>
      rw [rejectConflicts]
      split_ifs <;> simp [ih]

theorem length_judgeBatch (txs : List CandidateTransaction) :
    (judgeBatch blake2b params rules vs view txs).length = txs.length := by
  simp [judgeBatch, length_rejectConflicts]

theorem length_applyAt (mtxs : List CandidateTransaction) (l : BatchLoop) (idx : ℕ) :
    (applyAt blake2b params vs mtxs l idx).results.length = l.results.length := by
  unfold applyAt
  split
  · rw [length_set]
  · rfl

theorem length_results (ready : Bool) (txs : List CandidateTransaction) :
    (validateMempoolTransactionsInParallel blake2b params rules vs view ready txs).2.length =
      txs.length := by
  have hfold : ∀ (mtxs : List CandidateTransaction) (seq : List ℕ) (l : BatchLoop),
      (seq.foldl (applyAt blake2b params vs mtxs) l).results.length = l.results.length := by
    intro mtxs seq
    induction seq with
    | nil => exact fun l => rfl
    | cons i seq ih => exact fun l => (ih _).trans (length_applyAt mtxs l i)
  unfold validateMempoolTransactionsInParallel
  split_ifs
  · rw [List.length_map]
  · rw [hfold, List.length_map, length_judgeBatch]

theorem results_of_disjoint {txs : List CandidateTransaction} (hids : (txs.map (·.id)).Nodup)
    (hdisjoint : txs.Pairwise fun a b => a.tx.spentOutpoints.Disjoint b.tx.spentOutpoints) :
    let judged := txs.map (judge blake2b params rules vs view)
    let order := validationOrder vs.atomicState judged
    let results := (validateMempoolTransactionsInParallel blake2b params rules vs view true txs).2
    (∀ j ∉ order, results[j]? = judged[j]?.map fun p => p.2.map fun _ => ()) ∧
      ∀ k i : ℕ, order[k]? = some i → results[i]? =
        (verdicts blake2b params vs (order.filterMap (txAt judged))
          (vs.atomicState, .default))[k]? := by
  intro judged order results
  have hresults : results = (order.foldl (applyAt blake2b params vs (judged.map Prod.fst))
      ⟨(vs.atomicState, .default), judged.map fun j => j.2.map fun _ => ()⟩).results := by
    simp only [results, validateMempoolTransactionsInParallel, if_neg (show ¬ true = false by simp),
      judgeBatch_of_disjoint hids hdisjoint]
    rfl
  have htxAt : (fun i => (judged.map Prod.fst)[i]?) = txAt judged := by
    funext i
    rw [getElem?_map, txAt]
  obtain ⟨hleft, hverdicts⟩ := @foldl_applyAt blake2b params vs (judged.map Prod.fst) order
    (validationOrder_nodup _ _) ⟨(vs.atomicState, .default), judged.map fun j => j.2.map fun _ => ()⟩
    (by
      intro i hi
      obtain ⟨mtx, key, hget⟩ := mem_validationOrder.mp hi
      constructor
      · rw [getElem?_map, hget]
        rfl
      · exact ⟨mtx, by rw [getElem?_map, hget]; rfl⟩)
  rw [← hresults] at hleft hverdicts
  rw [htxAt] at hverdicts
  constructor
  · intro j hj
    rw [hleft j hj, getElem?_map]
  · exact hverdicts

theorem length_verdicts (seq : List CandidateTransaction)
    (state : AtomicConsensusState × AtomicBlockStateGrowth) :
    (verdicts blake2b params vs seq state).length = seq.length := by
  induction seq generalizing state with
  | nil => rfl
  | cons mtx seq ih => simp [verdicts, ih]

theorem length_filterMap_txAt (judged : List Judged) :
    ((validationOrder s judged).filterMap (txAt judged)).length =
    (validationOrder s judged).length := by
  apply filterMap_length_eq_length.mpr
  intro i hi
  obtain ⟨mtx, key, hget⟩ := mem_validationOrder.mp hi
  rw [txAt, hget]
  rfl

variable {txs : List CandidateTransaction} {mtx : CandidateTransaction}

theorem getElem?_judged {i : ℕ} (h : txs[i]? = some mtx) :
    (txs.map (judge blake2b params rules vs view))[i]? =
      some (judge blake2b params rules vs view mtx) := by
  rw [getElem?_map, h]
  rfl

theorem mem_validationOrder_iff {judged : List Judged} {i : ℕ} {p : Judged}
    (h : judged[i]? = some p) : i ∈ validationOrder s judged ↔ ∃ key, p.2 = .ok key := by
  rw [mem_validationOrder, h]
  constructor
  · rintro ⟨c, key, hkey⟩
    exact ⟨key, by rw [some.inj hkey]⟩
  · rintro ⟨key, hkey⟩
    exact ⟨p.1, key, by rw [← hkey]⟩

theorem judge_ok_of_results (hids : (txs.map (·.id)).Nodup)
    (hdisjoint : txs.Pairwise fun a b => a.tx.spentOutpoints.Disjoint b.tx.spentOutpoints)
    (hok : ∀ r ∈ (validateMempoolTransactionsInParallel blake2b params rules vs view true txs).2,
      r = .ok ()) (hmtx : mtx ∈ txs) :
    ∃ key, (judge blake2b params rules vs view mtx).2 = .ok key := by
  obtain ⟨i, hi⟩ := List.mem_iff_getElem?.mp hmtx
  have hget := @getElem?_judged blake2b params rules vs view txs mtx i hi
  by_contra hfailed
  have hresult := (results_of_disjoint hids hdisjoint).1 i
    (mt (mem_validationOrder_iff _ hget).mp hfailed)
  rw [hget, map_some] at hresult
  cases hjudge : (judge blake2b params rules vs view mtx).2 with
  | ok key => exact hfailed ⟨key, hjudge⟩
  | error =>
    rw [hjudge] at hresult
    cases hok _ (List.mem_of_getElem? hresult)

variable (blake2b params rules vs view) in
/-- The token transitions of a batch, taken in its own order, all apply to the token
state of the virtual state. -/
def BatchApplies (txs : List CandidateTransaction) : Prop :=
  let judged := txs.map (judge blake2b params rules vs view)
  ∀ v ∈ verdicts blake2b params vs ((validationOrder vs.atomicState judged).filterMap (txAt judged))
    (vs.atomicState, .default), v = .ok ()

theorem results_ok_iff (hids : (txs.map (·.id)).Nodup)
    (hdisjoint : txs.Pairwise fun a b => a.tx.spentOutpoints.Disjoint b.tx.spentOutpoints)
    (hjudge : ∀ mtx ∈ txs, ∃ key, (judge blake2b params rules vs view mtx).2 = .ok key) :
    (∀ r ∈ (validateMempoolTransactionsInParallel blake2b params rules vs view true txs).2,
      r = .ok ()) ↔ BatchApplies blake2b params rules vs view txs := by
  have hverdicts := (@results_of_disjoint blake2b params rules vs view txs hids hdisjoint).2
  have hlength := length_filterMap_txAt vs.atomicState (txs.map (judge blake2b params rules vs view))
  constructor
  · intro hok v hv
    obtain ⟨k, hk⟩ := List.mem_iff_getElem?.mp hv
    have hlt := (List.getElem?_eq_some_iff.mp hk).1
    rw [length_verdicts, hlength] at hlt
    have hresult := hverdicts k _ (List.getElem?_eq_getElem hlt)
    rw [hk] at hresult
    exact hok v (List.mem_of_getElem? hresult)
  · intro happlies r hr
    obtain ⟨i, hi⟩ := List.mem_iff_getElem?.mp hr
    have hlt := (List.getElem?_eq_some_iff.mp hi).1
    rw [length_results] at hlt
    have hmem := (mem_validationOrder_iff vs.atomicState
      (getElem?_judged (List.getElem?_eq_getElem hlt))).mpr (hjudge txs[i] (List.getElem_mem hlt))
    obtain ⟨k, hk⟩ := List.mem_iff_getElem?.mp hmem
    rw [hverdicts k i hk] at hi
    exact happlies r (List.mem_of_getElem? hi)

theorem judge_ok_spec {key : Option AtomicTxOrderInfo}
    (h : (judge blake2b params rules vs view mtx).2 = .ok key) :
    (judge blake2b params rules vs view mtx).1.calculatedFee.isSome = true ∧
      ∃ ptx, rules.calcTxOverallMass ptx mtx.witness mtx.calculatedComputeMass =
        some (judge blake2b params rules vs view mtx).1.witness.mass := by
  have hok : (validateMempoolTransactionWithoutAtomic blake2b params rules vs view mtx).2 = .ok () := by
    simp only [judge] at h
    cases hresult : (validateMempoolTransactionWithoutAtomic blake2b params rules vs view mtx).2 with
    | ok => rfl
    | error =>
      rw [hresult] at h
      cases h
  change (validateMempoolTransactionWithoutAtomic blake2b params rules vs view
    mtx).1.calculatedFee.isSome = true ∧ ∃ ptx, _ = some
      (validateMempoolTransactionWithoutAtomic blake2b params rules vs view mtx).1.witness.mass
  unfold validateMempoolTransactionWithoutAtomic validateMempoolTransactionInUtxoContext at hok ⊢
  split at hok
  · cases hok
  · split at hok
    · cases hok
    · simp only at hok ⊢
      split at hok
      · cases hok
      · rename_i ptx hptx
        split at hok
        · cases hok
        · rename_i mass hmass
          split at hok
          · cases hok
          · exact ⟨rfl, ptx, hmass⟩

variable (blake2b params rules vs view) in
theorem judged_spec (hids : (txs.map (·.id)).Nodup) :
    ((txs.map (judge blake2b params rules vs view)).map (·.1.id)).Nodup ∧
      ∀ p ∈ txs.map (judge blake2b params rules vs view), ∀ info, p.atomicKey? = some info →
        info.priority.txidBytes = p.1.id := by
  constructor
  · rw [List.map_map]
    simpa only [comp_def, judge_id] using hids
  · intro p hp info hinfo
    obtain ⟨mtx, -, rfl⟩ := mem_map.mp hp
    rw [judge_id]
    exact atomicKey?_txid hinfo

theorem verdict_eq_of_perm {txs txs' : List CandidateTransaction} (hperm : txs'.Perm txs)
    (hids : (txs.map (·.id)).Nodup)
    (hdisjoint : txs.Pairwise fun a b => a.tx.spentOutpoints.Disjoint b.tx.spentOutpoints)
    (ready : Bool) {i j : ℕ} (hi : txs[i]? = some mtx) (hj : txs'[j]? = some mtx) :
    (validateMempoolTransactionsInParallel blake2b params rules vs view ready txs').2[j]? =
      (validateMempoolTransactionsInParallel blake2b params rules vs view ready txs).2[i]? := by
  cases ready with
  | false =>
    simp only [validateMempoolTransactionsInParallel, if_true, getElem?_map, hi, hj]
  | true =>
    have hids' : (txs'.map (·.id)).Nodup := (hperm.map _).nodup_iff.mpr hids
    have hdisjoint' := hperm.symm.pairwise hdisjoint (fun h => h.symm)
    obtain ⟨hleft, hverdicts⟩ := results_of_disjoint hids hdisjoint
    obtain ⟨hleft', hverdicts'⟩ :=
      @results_of_disjoint blake2b params rules vs view txs' hids' hdisjoint'
    obtain ⟨hjudged, htxid⟩ := judged_spec blake2b params rules vs view hids
    have hget := @getElem?_judged blake2b params rules vs view txs mtx i hi
    have hget' := @getElem?_judged blake2b params rules vs view txs' mtx j hj
    have hjudged' := (judged_spec blake2b params rules vs view hids').1
    have horder := @validationOrder_map_eq _ _ vs.atomicState
      (hperm.map (judge blake2b params rules vs view)) hjudged htxid
    generalize txs.map (judge blake2b params rules vs view) = judged at *
    generalize txs'.map (judge blake2b params rules vs view) = judged' at *
    by_cases hturn : ∃ key, (judge blake2b params rules vs view mtx).2 = .ok key
    · -- its turn is the `k`-th in both orders
      obtain ⟨k, hk⟩ := List.mem_iff_getElem?.mp
        ((mem_validationOrder_iff vs.atomicState hget).mpr hturn)
      have hk' : (validationOrder vs.atomicState judged')[k]? = some j := by
        have hat := congrArg (·[k]?) horder
        simp only [getElem?_map, hk, map_some] at hat
        obtain ⟨j', hj', htx⟩ := map_eq_some_iff.mp hat
        rw [hj']
        congr 1
        rw [txAt, txAt, hget, map_some, map_eq_some_iff] at htx
        obtain ⟨p, hp, heq⟩ := htx
        have hid : (judged'.map (·.1.id))[j']? = (judged'.map (·.1.id))[j]? := by
          rw [getElem?_map, getElem?_map, hp, hget', map_some, map_some, heq]
        exact (getElem?_inj (by
          rw [List.length_map]
          exact (List.getElem?_eq_some_iff.mp hp).1) hjudged').mp hid
      have hseq : (validationOrder vs.atomicState judged').filterMap (txAt judged') =
          (validationOrder vs.atomicState judged).filterMap (txAt judged) := by
        have hid := congrArg (List.filterMap id) horder
        simpa only [filterMap_map, comp_def, id] using hid
      rw [hverdicts' k j hk', hverdicts k i hk, hseq]
    · rw [hleft' j (mt (mem_validationOrder_iff _ hget').mp hturn),
        hleft i (mt (mem_validationOrder_iff _ hget).mp hturn), hget, hget']

end Independence

/-- The order of a batch of token transactions: a permutation of the given indices, the
same sequence of transactions however the batch is listed, and every item after what it
depends on unless there is a cycle behind it. So the verdicts on a batch without repeated
ids and outpoints do not depend on the listing either. -/
theorem atomic_ordering (blake2b : Blake2b) (params : AtomicParams) (rules : MempoolRules)
    (vs : VirtualState) (view : UtxoView) (ready : Bool) :
    (∀ (items : List (ℕ × AtomicTxOrderInfo)) (s : AtomicConsensusState),
      (orderAtomicIndices items s).Perm (items.map Prod.fst) ∧
      (∃ order, order.Perm (List.range items.length) ∧
        orderAtomicIndices items s = order.filterMap (fun pos => items[pos]?.map Prod.fst) ∧
        DependenciesFirst items s order) ∧
      ∀ (T : Type) (tx tx' : ℕ → T) (items' : List (ℕ × AtomicTxOrderInfo)),
        (items.map (·.2.priority.txidBytes)).Nodup →
        (items'.map fun item => (tx' item.1, item.2)).Perm
          (items.map fun item => (tx item.1, item.2)) →
        (orderAtomicIndices items' s).map tx' = (orderAtomicIndices items s).map tx) ∧
    (∀ txs, (validateMempoolTransactionsInParallel blake2b params rules vs view ready
      txs).2.length = txs.length) ∧
    ∀ txs txs' : List CandidateTransaction, (txs.map (·.id)).Nodup →
      (txs.Pairwise fun a b => a.tx.spentOutpoints.Disjoint b.tx.spentOutpoints) →
      txs'.Perm txs → ∀ (i j : ℕ) (mtx : CandidateTransaction), txs[i]? = some mtx →
        txs'[j]? = some mtx →
        (validateMempoolTransactionsInParallel blake2b params rules vs view ready txs').2[j]? =
          (validateMempoolTransactionsInParallel blake2b params rules vs view ready txs).2[i]? := by
  refine ⟨?_, length_results ready, ?_⟩
  · intro items s
    refine ⟨orderAtomicIndices_perm items s, orderAtomicIndices_dependenciesFirst items s, ?_⟩
    intro T tx tx' items' hnodup hperm
    exact orderAtomicIndices_map_eq hperm hnodup
  · intro txs txs' hids hdisjoint hperm i j mtx hi hj
    exact verdict_eq_of_perm hperm hids hdisjoint ready hi hj

section Samples

open AtomicConsensusState

def sampleRules : MempoolRules := { sampleValidator with
    validateTxInIsolation := fun _ _ => .ok ()
    utxoFreeTxValidation := fun _ _ _ => .ok ()
    calcTxOverallMass := fun _ _ mass => mass
    checkFeerateThreshold := fun _ _ _ => .ok () }

/-- A transaction of compute mass 1000 without entries. -/
def candidate (btx : BlockTransaction) : CandidateTransaction where
  tx := btx.tx
  entries := btx.tx.inputs.map fun _ => none
  aligned := (List.length_map _).symm
  witness := btx.witness
  calculatedFee := none
  calculatedComputeMass := some 1000

/-- The results of a batch for a virtual state at score 3. -/
def sampleVerdicts (txs : List CandidateTransaction) : List (Except TxRuleError Unit) :=
  (validateMempoolTransactionsInParallel zeroHash sampleParams sampleRules ⟨3, 0, .default⟩
    rewardState.utxo.lookup true txs).2

/-- Two creations of one owner, the one with nonce two first. -/
def creationBatch : List CandidateTransaction :=
  [candidate (unlockedTx { createAssetTx (sampleId 8) ⟨sampleId 200, 0⟩ keyScript with
      payload := (createAssetTx (sampleId 8) ⟨sampleId 200, 0⟩ keyScript).payload.set 8 2 }),
    candidate (unlockedTx (createAssetTx (sampleId 9) ⟨sampleId 200, 1⟩ keyScript))]

/-- The second creation is accepted in both listings. -/
theorem creationBatch_verdict : sampleVerdicts creationBatch = [.ok (), .ok ()] ∧
      (sampleVerdicts creationBatch.reverse)[1]? = (sampleVerdicts creationBatch)[0]? := by
  constructor
  · decide +kernel
  · apply (atomic_ordering zeroHash sampleParams sampleRules ⟨3, 0, .default⟩
      rewardState.utxo.lookup true).2.2 creationBatch creationBatch.reverse (by decide +kernel)
      _ (reverse_perm _) 0 1 _ rfl rfl
    simp [creationBatch, candidate, unlockedTx, createAssetTx, Transaction.spentOutpoints]

end Samples

end CryptixAtomic.Processor
