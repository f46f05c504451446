import CryptixAtomic.Chain.MuHash
import CryptixAtomic.Processor.MergesetRuns

/-!
# Anchor counts and the UTXO set

An anchor of an owner is an unspent output with the owner's script. The token state does not
count coinbase outputs when they are made, but takes them off when they are spent. So the
count never exceeds the number of anchors, which is enough for the rule that an operation must
not take its owner's last anchor.
-/
namespace CryptixAtomic.Processor

open Foundation Transition

variable (test : UtxoEntry → Bool)

/-- The number of unspent outputs that pass a test. -/
def liveOutputs (utxo : UtxoCollection) : ℕ :=
  utxo.total fun _ e => if test e then 1 else 0

def isAnchorOf (blake2b : Blake2b) (ownerId : Bytes32) (e : UtxoEntry) : Bool :=
  atomicOwnerIdFromScript blake2b e.scriptPublicKey = some ownerId

section Counting

theorem sum_map_ite_eq_countP {α : Type} (test : α → Bool) (l : List α) :
    (l.map fun a => if test a then 1 else 0).sum = l.countP test := by
  induction l with
  | nil => rfl
  | cons a l ih =>
    rw [List.map_cons, List.sum_cons, ih, List.countP_cons]
    omega

theorem exists_of_liveOutputs_pos {test : UtxoEntry → Bool} {utxo : UtxoCollection}
    (h : 0 < liveOutputs test utxo) : ∃ o e, utxo.lookup o = some e ∧ test e = true := by
  obtain ⟨o, -, ho⟩ := Finset.exists_ne_zero_of_sum_ne_zero (Nat.pos_iff_ne_zero.mp h)
  cases he : utxo.lookup o with
  | none =>
    rw [he] at ho
    exact absurd rfl ho
  | some e =>
    rw [he, FMap.weight_some] at ho
    refine ⟨o, e, he, ?_⟩
    by_contra hfalse
    exact ho (if_neg hfalse)

/-- The outputs of a transaction that pass a test, as the entries they become. -/
def createdOutputs (tx : Transaction) (daaScore : ℕ) : ℕ :=
  tx.outputs.countP fun output =>
    test ⟨output.value, output.scriptPublicKey, daaScore, tx.isCoinbase⟩

def spentOutputs (ptx : PopulatedTransaction) : ℕ :=
  ptx.populatedInputs.countP fun p => test p.2

theorem sum_createdEntries (tx : Transaction) (daaScore : ℕ) :
    ((tx.createdEntries daaScore).map fun e => if test e.2 then 1 else 0).sum =
      createdOutputs test tx daaScore := by
  have houtputs : tx.outputs.zipIdx.map Prod.fst = tx.outputs := List.zipIdx_map_fst ..
  rw [sum_map_ite_eq_countP (fun e : TransactionOutpoint × UtxoEntry => test e.2),
    Transaction.createdEntries, List.countP_map, createdOutputs]
  conv_rhs => rw [← houtputs, List.countP_map]
  rfl

variable {utxo : UtxoCollection} {ptx : PopulatedTransaction}

theorem spentOutputs_le (hunspent : ptx.UnspentIn utxo)
    (hdistinct : ptx.tx.spentOutpoints.Nodup) : spentOutputs test ptx ≤ liveOutputs test utxo := by
  rw [spentOutputs, ← sum_map_ite_eq_countP, liveOutputs, ← FMap.total_eraseAll _ utxo hdistinct,
    sum_spentOutpoints _ hunspent]
  exact Nat.le_add_left _ _

theorem liveOutputs_apply (daaScore : ℕ) (hunspent : ptx.UnspentIn utxo)
    (hdistinct : ptx.tx.spentOutpoints.Nodup)
    (hfresh : ∀ i, utxo.lookup (ptx.tx.outpoint i) = none) :
    liveOutputs test (utxo.applyTransaction ptx.tx daaScore) + spentOutputs test ptx =
      liveOutputs test utxo + createdOutputs test ptx.tx daaScore := by
  rw [← sum_createdEntries, spentOutputs, ← sum_map_ite_eq_countP]
  exact total_applyTransaction _ daaScore hunspent hdistinct hfresh

theorem liveOutputs_coinbase {tx : Transaction} (daaScore : ℕ) (hinputs : tx.inputs = [])
    (hfresh : ∀ i, utxo.lookup (tx.outpoint i) = none) :
    liveOutputs test (utxo.applyTransaction tx daaScore) =
      liveOutputs test utxo + createdOutputs test tx daaScore := by
  rw [← sum_createdEntries]
  exact total_coinbase _ daaScore hinputs hfresh

variable (blake2b : Blake2b) (ownerId : Bytes32)

theorem count_spentOwners :
    (spentOwners blake2b ptx).count ownerId = spentOutputs (isAnchorOf blake2b ownerId) ptx := by
  rw [spentOwners, List.count, List.countP_filterMap, spentOutputs]
  congr 1
  funext p
  rw [isAnchorOf]
  cases atomicOwnerIdFromScript blake2b p.2.scriptPublicKey with
  | none => simp
  | some =>
    simp [beq_eq_decide]

theorem count_createdOwners (daaScore : ℕ) :
    (createdOwners blake2b ptx).count ownerId =
      createdOutputs (isAnchorOf blake2b ownerId) ptx.tx daaScore := by
  rw [createdOwners, List.count, List.countP_filterMap, createdOutputs]
  congr 1
  funext output
  rw [isAnchorOf]
  cases atomicOwnerIdFromScript blake2b output.scriptPublicKey with
  | none => simp
  | some =>
    simp [beq_eq_decide]

end Counting

section Counts

variable {blake2b : Blake2b} {params : AtomicParams}

theorem anchorCount_of_accepts {s t : AtomicConsensusState} {x : TxContext}
    (h : Accepts blake2b params s x t) (ownerId : Bytes32) :
    t.anchorCount ownerId = if ownerId ∈ anchorOwners blake2b x.ptx then
      newAnchorCount blake2b x.ptx ownerId (s.anchorCount ownerId) else s.anchorCount ownerId := by
  have hanchors : t.anchorCountOption = anchorAfter blake2b x.ptx s.anchorCountOption := by
    cases h.reads with
    | plain payload collected noVaultOutput nonces assets balances anchors
    | token payload collected admitted spec nonces assets balances anchors => exact anchors
  rw [AtomicConsensusState.anchorCount, hanchors, anchorAfter]
  split_ifs with howner
  · rw [AtomicConsensusState.nonZero]
    split_ifs with hzero
    · rfl
    · rw [not_not] at hzero
      rw [Option.getD_none, ← hzero]
      rfl
  · rfl

/-- Every owner has at least as many unspent outputs as the state counts. -/
def AnchorsCovered (blake2b : Blake2b) (j : JointState) : Prop :=
  ∀ ownerId, j.atomic.anchorCount ownerId ≤ liveOutputs (isAnchorOf blake2b ownerId) j.utxo

theorem AnchorsCovered.step {j k : JointState} {e : JointEvent} (h : AnchorsCovered blake2b j)
    (hstep : JointStep blake2b params j e k) : AnchorsCovered blake2b k := by
  intro ownerId
  have hj := h ownerId
  cases hstep with
  | newBlock => exact hj
  | coinbase reward noInputs fresh =>
    rw [liveOutputs_coinbase _ _ noInputs fresh]
    exact hj.trans (Nat.le_add_right _ _)
  | @accepted x t plain unspent distinct fresh accepts =>
    have hlive := liveOutputs_apply (isAnchorOf blake2b ownerId) x.povDaaScore unspent distinct
      fresh
    rw [← count_spentOwners, ← count_createdOwners] at hlive
    have hspent := spentOutputs_le (isAnchorOf blake2b ownerId) unspent distinct
    rw [← count_spentOwners] at hspent
    change t.anchorCount ownerId ≤ liveOutputs (isAnchorOf blake2b ownerId)
      (j.utxo.applyTransaction x.ptx.tx x.povDaaScore)
    rw [anchorCount_of_accepts accepts ownerId]
    split_ifs with howner
    · rw [newAnchorCount, saturatingAdd]
      omega
    · -- neither spent nor created
      rw [anchorOwners, Finset.mem_sort, List.mem_toFinset, List.mem_append, not_or] at howner
      rw [List.count_eq_zero_of_not_mem howner.1, List.count_eq_zero_of_not_mem howner.2] at hlive
      omega

theorem AnchorsCovered.replaced {j k : JointState} {x : TxContext} (h : AnchorsCovered blake2b j)
    (hstep : JointStep blake2b params j (.accepted x) k) {parsed : ParsedAtomicPayload}
    {ownerId : Bytes32} (hpayload : authorizedPayload blake2b params x = some (parsed, ownerId)) :
    ∃ o e, k.utxo.lookup o = some e ∧
      atomicOwnerIdFromScript blake2b e.scriptPublicKey = some ownerId := by
  cases hstep with
  | @accepted _ t plain unspent distinct fresh accepts =>
    obtain ⟨calls, hcalls, -⟩ :=
      transition_spec blake2b params x.ptx x.povDaaScore x.ctx accepts
    cases hcalls with
    | plain payload =>
      rw [authorizedPayload, payload] at hpayload
      cases hpayload
    | @token spent parsed' a effect payload collected admitted spec =>
      rw [authorizedPayload, payload] at hpayload
      simp only [admitted.owner, Option.some.injEq, Prod.mk.injEq] at hpayload
      obtain ⟨rfl, rfl⟩ := hpayload
      have hanchor := admitted.anchor
      rw [validateReplacementAnchor, failIf_eq_ok, not_not] at hanchor
      have hlive := liveOutputs_apply (isAnchorOf blake2b a.ownerId) x.povDaaScore unspent distinct
        fresh
      rw [← count_spentOwners, ← count_createdOwners] at hlive
      have hpos : 0 < liveOutputs (isAnchorOf blake2b a.ownerId)
          (j.utxo.applyTransaction x.ptx.tx x.povDaaScore) := by
        rcases hanchor with hkept | hcreated
        · have hj := h a.ownerId
          omega
        · have hcount := List.count_pos_iff.mpr hcreated
          have hspent := spentOutputs_le (isAnchorOf blake2b a.ownerId) unspent distinct
          rw [← count_spentOwners] at hspent
          omega
      obtain ⟨o, e, he, htest⟩ := exists_of_liveOutputs_pos hpos
      exact ⟨o, e, he, by simpa [isAnchorOf] using htest⟩

theorem AnchorsCovered.genesis : AnchorsCovered blake2b ⟨∅, .default⟩ := fun _ => Nat.zero_le _

variable {v : ValidatorParams}

/-- Along every chain from genesis, the owner an accepted operation acts for has an unspent
output right after it. -/
theorem operation_leaves_an_anchor {chain : List ChainBlock} (hchain : ChainOk [] chain) :
    ∃ l events, advanceAll blake2b params v ⟨∅, .default⟩ chain = .ok l ∧
      ChainRun blake2b params v ⟨∅, .default⟩ chain l events ∧
      ∀ before x after parsed ownerId, events = before ++ .accepted x :: after →
        authorizedPayload blake2b params x = some (parsed, ownerId) →
        ∃ k k', JointRun blake2b params ⟨∅, .default⟩ before k ∧
          JointStep blake2b params k (.accepted x) k' ∧ JointRun blake2b params k' after l ∧
          ∃ o e, k'.utxo.lookup o = some e ∧
            atomicOwnerIdFromScript blake2b e.scriptPublicKey = some ownerId := by
  obtain ⟨l, events, -, hrun, -, -⟩ :=
    @exists_chainRun blake2b params v _ [] chain Bound.genesis History.empty hchain
  refine ⟨l, events, hrun.advanceAll, hrun, ?_⟩
  rintro before x after parsed ownerId rfl hpayload
  obtain ⟨k, k', hbefore, hstep, hafter⟩ := hrun.jointRun.split
  have hcovered : AnchorsCovered blake2b k :=
    hbefore.induct (fun _ _ _ step hj => hj.step step) AnchorsCovered.genesis
  exact ⟨k, k', hbefore, hstep, hafter, hcovered.replaced hstep hpayload⟩

open AtomicConsensusState in
/-- The chain that creates a pool, where the creator spends a reward. -/
theorem poolChain_leaves_an_anchor :
    ∃ l events, advanceAll zeroHash sampleParams sampleValidator ⟨∅, .default⟩ poolChain = .ok l ∧
      ChainRun zeroHash sampleParams sampleValidator ⟨∅, .default⟩ poolChain l events ∧
      (l.atomic.pool (sampleId 7)).isSome = true ∧
      ∀ before x after parsed ownerId, events = before ++ .accepted x :: after →
        authorizedPayload zeroHash sampleParams x = some (parsed, ownerId) →
        ∃ k k', JointRun zeroHash sampleParams ⟨∅, .default⟩ before k ∧
          JointStep zeroHash sampleParams k (.accepted x) k' ∧
          JointRun zeroHash sampleParams k' after l ∧
          ∃ o e, k'.utxo.lookup o = some e ∧
            atomicOwnerIdFromScript zeroHash e.scriptPublicKey = some ownerId := by
  obtain ⟨l, events, hl, hrun, hanchors⟩ :=
    operation_leaves_an_anchor poolChain_ok
  have hpool : ((advanceAll zeroHash sampleParams sampleValidator ⟨∅, .default⟩
      poolChain).toOption.bind fun l => l.atomic.pool (sampleId 7)).isSome = true := by
    decide +kernel
  rw [hl] at hpool
  exact ⟨l, events, hl, hrun, hpool, hanchors⟩

end Counts

end CryptixAtomic.Processor
