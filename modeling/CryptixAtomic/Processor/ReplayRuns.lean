import CryptixAtomic.Processor.MergesetRuns
import CryptixAtomic.Processor.Replay
import CryptixAtomic.State.History

/-!
# Replay compared with processing

Transaction by transaction, replay finds the entries that processing saw and makes the
transition that processing made; the outputs it has collected are the added entries of the
running difference. It can only fail at the growth counters, and `replay_reproduces_iff` says
when it does: the estimates of a whole mergeset have to fit the limits of one block.
-/
namespace CryptixAtomic.Processor

open Foundation Transition BlockTrace AtomicBlockStateGrowth List

section Growth

/-- Estimates admitted one after another by one set of counters. -/
def GrowthAdmitted (limits : AtomicStateGrowthLimits) :
    AtomicBlockStateGrowth → List AtomicStateGrowth → Prop
  | _, [] => True
  | growth, delta :: rest =>
    growth.ensureCanAdd delta limits = .ok () ∧ GrowthAdmitted limits (growth.commit delta) rest

def commitAll (growth : AtomicBlockStateGrowth) (deltas : List AtomicStateGrowth) :
    AtomicBlockStateGrowth := deltas.foldl commit growth

theorem growthAdmitted_append (limits : AtomicStateGrowthLimits)
    (growth : AtomicBlockStateGrowth) (ds es : List AtomicStateGrowth) :
    GrowthAdmitted limits growth (ds ++ es) ↔
      GrowthAdmitted limits growth ds ∧ GrowthAdmitted limits (commitAll growth ds) es := by
  induction ds generalizing growth with
  | nil => simp [GrowthAdmitted, commitAll]
  | cons d ds ih =>
    simp only [cons_append, GrowthAdmitted, ih, and_assoc]
    rfl

/-- The sum of the estimates stays within every limit, as far as 64 bits can tell. -/
structure GrowthFits (limits : AtomicStateGrowthLimits) (used : AtomicStateGrowth)
    (deltas : List AtomicStateGrowth) : Prop where
  assets : saturatingAdd 64 used.newAssets (deltas.map (·.newAssets)).sum ≤ limits.maxNewAssets
  balanceKeys : saturatingAdd 64 used.newBalanceKeys (deltas.map (·.newBalanceKeys)).sum ≤
    limits.maxNewBalanceKeys
  nonceKeys : saturatingAdd 64 used.newNonceKeys (deltas.map (·.newNonceKeys)).sum ≤
    limits.maxNewNonceKeys
  pools : saturatingAdd 64 used.newPools (deltas.map (·.newPools)).sum ≤ limits.maxNewPools
  anchorOwnerKeys : saturatingAdd 64 used.newAnchorOwnerKeys
    (deltas.map (·.newAnchorOwnerKeys)).sum ≤ limits.maxNewAnchorOwnerKeys

theorem saturatingAdd_add (used delta rest limit : ℕ) :
    saturatingAdd 64 used (delta + rest) ≤ limit ↔ saturatingAdd 64 used delta ≤ limit ∧
        saturatingAdd 64 (saturatingAdd 64 used delta) rest ≤ limit := by
  simp only [saturatingAdd]
  omega

variable {limits : AtomicStateGrowthLimits} {growth : AtomicBlockStateGrowth}

variable {deltas : List AtomicStateGrowth} {delta : AtomicStateGrowth}

theorem growthFits_cons : GrowthFits limits growth.used (delta :: deltas) ↔
      growth.ensureCanAdd delta limits = .ok () ∧
        GrowthFits limits (growth.commit delta).used deltas := by
  simp only [ensureCanAdd, except_bind_eq_ok, ensureLimit_eq_ok, exists_const]
  constructor
  · rintro ⟨ha, hb, hn, hp, ho⟩
    simp only [map_cons, sum_cons, saturatingAdd_add] at ha hb hn hp ho
    exact ⟨⟨ha.1, hb.1, hn.1, hp.1, ho.1⟩, ⟨ha.2, hb.2, hn.2, hp.2, ho.2⟩⟩
  · rintro ⟨⟨ha, hb, hn, hp, ho⟩, ⟨ha', hb', hn', hp', ho'⟩⟩
    constructor <;> simp [saturatingAdd_add]
    · exact ⟨ha, ha'⟩
    · exact ⟨hb, hb'⟩
    · exact ⟨hn, hn'⟩
    · exact ⟨hp, hp'⟩
    · exact ⟨ho, ho'⟩

theorem growthFits_commit (h : growth.ensureCanAdd delta limits = .ok ()) :
    GrowthFits limits (growth.commit delta).used [] := by
  have hzero : ∀ {total limit : ℕ}, total ≤ limit → saturatingAdd 64 total 0 ≤ limit :=
    fun h => (Nat.min_le_left _ _).trans h
  simp only [ensureCanAdd, except_bind_eq_ok, ensureLimit_eq_ok, exists_const] at h
  obtain ⟨ha, hb, hn, hp, ho⟩ := h
  exact ⟨hzero ha, hzero hb, hzero hn, hzero hp, hzero ho⟩

/-- Counters admit estimates one by one exactly when they admit the sum. -/
theorem growthAdmitted_iff (h : GrowthFits limits growth.used []) :
    GrowthAdmitted limits growth deltas ↔ GrowthFits limits growth.used deltas := by
  induction deltas generalizing growth with
  | nil => exact iff_of_true trivial h
  | cons delta deltas ih =>
    rw [GrowthAdmitted, growthFits_cons]
    exact and_congr_right fun hroom => ih (growthFits_commit hroom)

theorem growthFits_default (limits : AtomicStateGrowthLimits) : GrowthFits limits default.used [] :=
  ⟨Nat.zero_le _, Nat.zero_le _, Nat.zero_le _, Nat.zero_le _, Nat.zero_le _⟩

end Growth

section Entries

variable {message : TransactionOutpoint → String} {removed : UtxoCollection}

/-- The entries of a transaction are found and taken off, if each is among the outputs
of the replay or, failing that, among the removed entries. -/
theorem collectEntries_eq {inputs : List TransactionInput} {entries : List UtxoEntry}
    {added : UtxoCollection} (hlen : inputs.length = entries.length)
    (hnodup : (inputs.map (·.previousOutpoint)).Nodup)
    (hfound : ∀ p ∈ inputs.zip entries, added.lookup p.1.previousOutpoint = some p.2 ∨
      added.lookup p.1.previousOutpoint = none ∧ removed.lookup p.1.previousOutpoint = some p.2) :
    collectEntries message removed added inputs =
      .ok (entries, added.eraseAll (inputs.map (·.previousOutpoint))) := by
  induction inputs generalizing entries added with
  | nil =>
    obtain rfl := length_eq_zero_iff.mp hlen.symm
    rfl
  | cons input inputs ih =>
    cases entries with
    | nil => cases hlen
    | cons entry entries =>
      rw [map_cons, nodup_cons] at hnodup
      rw [zip_cons_cons, forall_mem_cons] at hfound
      have htake : takeEntry removed added input.previousOutpoint =
          some (entry, added.erase input.previousOutpoint) := by
        rcases hfound.1 with hadded | ⟨hnone, hremoved⟩
        · simp only [takeEntry, hadded]
        · -- erasing a key that is not there changes nothing
          have hsame : added.erase input.previousOutpoint = added := by
            apply Finmap.ext_lookup
            intro o
            rw [FMap.lookup_erase_ite]
            split_ifs with ho
            · rw [ho, hnone]
            · rfl
          simp [takeEntry, hnone, hremoved, hsame]
      have hrest := @ih entries (added.erase input.previousOutpoint) (Nat.succ.inj hlen) hnodup.2 (by
        intro p hp
        have hne : p.1.previousOutpoint ≠ input.previousOutpoint := by
          intro heq
          apply hnodup.1
          rw [← heq]
          exact mem_map_of_mem (of_mem_zip hp).1
        rw [FMap.lookup_erase_ite, if_neg hne]
        exact hfound.2 p hp)
      simp only [collectEntries, htake, hrest]
      rfl

end Entries

section Transactions

variable {blake2b : Blake2b} {params : AtomicParams} {blockHash : Bytes32} {povDaaScore : ℕ}
  {removed : UtxoCollection} {ctx : AtomicCreationContext} {loop loop' : ReplayLoop}

theorem replayTx_coinbase {tx : Transaction} (hcoinbase : tx.isCoinbase = true)
    (hinputs : tx.inputs = []) :
    replayTx blake2b params blockHash povDaaScore removed ctx loop tx = .ok { loop with
        replayAddedUtxos := loop.replayAddedUtxos.applyTransaction tx povDaaScore } := by
  have hcollect : ∀ message, collectEntries message removed loop.replayAddedUtxos tx.inputs =
      .ok ([], loop.replayAddedUtxos) := by
    intro message
    rw [hinputs]
    rfl
  unfold replayTx
  simp only
  split
  · rename_i err herr
    rw [hcollect] at herr
    cases herr
  · rename_i entries added hadded
    rw [hcollect] at hadded
    cases hadded
    rw [if_pos hcoinbase, UtxoCollection.applyTransaction, Transaction.spentOutpoints, hinputs]
    rfl

/-- Replaying an accepted transaction succeeds when the counters of the replay admit it,
and leaves the state processing left. -/
theorem replayTx_eq_ok {ptx : PopulatedTransaction} (hplain : ptx.tx.isCoinbase = false)
    (hnodup : ptx.tx.spentOutpoints.Nodup) (hfound : ∀ p ∈ ptx.populatedInputs,
      loop.replayAddedUtxos.lookup p.1.previousOutpoint = some p.2 ∨
      loop.replayAddedUtxos.lookup p.1.previousOutpoint = none ∧
        removed.lookup p.1.previousOutpoint = some p.2)
    {delta : AtomicStateGrowth} {t : AtomicConsensusState}
    (hestimate : estimateAtomicStateGrowthForTx blake2b params ptx povDaaScore loop.atomicState =
      .ok delta)
    (haccepts : Accepts blake2b params loop.atomicState ⟨ptx, povDaaScore, ctx⟩ t) :
    replayTx blake2b params blockHash povDaaScore removed ctx loop ptx.tx = .ok loop' ↔
      loop.growth.ensureCanAdd delta params.atomicStateGrowthLimits = .ok () ∧
        loop' = ⟨t, loop.growth.commit delta,
          loop.replayAddedUtxos.applyTransaction ptx.tx povDaaScore,
          loop.replayedTransactions + 1⟩ := by
  have hcollect : ∀ message, collectEntries message removed loop.replayAddedUtxos ptx.tx.inputs =
      .ok (ptx.entries, loop.replayAddedUtxos.eraseAll ptx.tx.spentOutpoints) :=
    fun message => collectEntries_eq ptx.aligned hnodup hfound
  unfold replayTx
  simp only
  split
  · rename_i err herr
    rw [hcollect] at herr
    cases herr
  · rename_i entries added hadded
    have hpair := hadded
    rw [hcollect] at hpair
    cases hpair
    rw [if_neg (by rw [hplain]; exact Bool.false_ne_true)]
    have hok := fun (m : AtomicConsensusState) (growth' : AtomicBlockStateGrowth) =>
      @withGrowth_eq_ok blake2b params loop.atomicState m loop.growth growth'
        ⟨ptx, povDaaScore, ctx⟩ ()
    cases hrun : (validateAndApplyAtomicStateTransitionWithGrowth blake2b params ptx povDaaScore
        ctx).run (loop.atomicState, loop.growth) with
    | error =>
      refine iff_of_false (by simp) ?_
      rintro ⟨hroom, -⟩
      have hcontra := (hok t _).mpr ⟨delta, hestimate, hroom, haccepts, rfl⟩
      rw [hrun] at hcontra
      cases hcontra
    | ok u out =>
      obtain ⟨m, growth'⟩ := out
      obtain ⟨delta', hdelta', hroom, haccepts', rfl⟩ := (hok m growth').mp hrun
      obtain rfl := Except.ok.inj (hestimate.symm.trans hdelta')
      rw [Accepts, haccepts'] at haccepts
      cases haccepts
      simp only [hroom, true_and, Except.ok.injEq, eq_comm (a := loop')]
      rfl

end Transactions

/-- Transactions accepted one after another, each with the growth estimated at its turn. -/
inductive Estimated (blake2b : Blake2b) (params : AtomicParams) :
    AtomicConsensusState → List TxContext → List AtomicStateGrowth → AtomicConsensusState → Prop
  | nil (s : AtomicConsensusState) : Estimated blake2b params s [] [] s
  | cons {s m t : AtomicConsensusState} {x : TxContext} {xs : List TxContext}
      {delta : AtomicStateGrowth} {deltas : List AtomicStateGrowth}
      (estimate : estimateAtomicStateGrowthForTx blake2b params x.ptx x.povDaaScore s = .ok delta)
      (accepts : Accepts blake2b params s x m)
      (rest : Estimated blake2b params m xs deltas t) :
      Estimated blake2b params s (x :: xs) (delta :: deltas) t

theorem Estimated.append {blake2b : Blake2b} {params : AtomicParams} {s m t : AtomicConsensusState}
    {xs ys : List TxContext} {ds es : List AtomicStateGrowth}
    (h : Estimated blake2b params s xs ds m) (h' : Estimated blake2b params m ys es t) :
    Estimated blake2b params s (xs ++ ys) (ds ++ es) t := by
  induction h with
  | nil => exact h'
  | cons estimate accepts rest ih => exact .cons estimate accepts (ih h')

/-- The accepted transactions of a merged block, as transition contexts. -/
def BlockTrace.contexts (povDaaScore : ℕ) (entry : BlockTrace) : List TxContext :=
  entry.accepted.map fun p => ⟨p.1.ptx, povDaaScore, entry.block.ctx⟩

variable (entry : BlockTrace)

def BlockTrace.acceptance : MergesetBlockAcceptanceData :=
  let accepted := entry.accepted.map fun p => ⟨p.1.ptx.tx.id, p.2⟩
  ⟨entry.block.ctx.sourceBlockHash,
    if entry.isSelectedParent then ⟨entry.block.coinbase.id, 0⟩ :: accepted else accepted⟩

variable {removed : UtxoCollection}

section Blocks

variable {blake2b : Blake2b} {params : AtomicParams} {base : UtxoView} {povDaaScore : ℕ}
  {ctx : AtomicCreationContext} {utxo utxo' : UtxoCollection} {b b' : BlockLoop}
  {accepted : List (ValidatedTransaction × ℕ)} {blockHash : Bytes32}

theorem BlockRun.acceptedTransactions
    (h : BlockRun blake2b params base povDaaScore ctx utxo b accepted utxo' b') :
    b'.acceptedTransactions =
      b.acceptedTransactions ++ accepted.map fun p => ⟨p.1.ptx.tx.id, p.2⟩ := by
  induction h with
  | nil => simp
  | cons step rest ih => rw [ih, step.entries, append_assoc, map_cons]; rfl

variable {o : TransactionOutpoint}

theorem BlockRun.remove_kept
    (h : BlockRun blake2b params base povDaaScore ctx utxo b accepted utxo' b') {e : UtxoEntry}
    (ho : b.diff.remove.lookup o = some e) :
    b'.diff.remove.lookup o = some e := by
  induction h with
  | nil => exact ho
  | cons step rest ih => exact ih (step.advanced.kept o e ho)

theorem TxAccepted.found {p : ValidatedTransaction × ℕ}
    (h : TxAccepted blake2b params base povDaaScore ctx utxo b p b')
    (hshows : b.diff.Shows base utxo)
    (hremoved : ∀ o e, b'.diff.remove.lookup o = some e → removed.lookup o = some e) :
    ∀ q ∈ p.1.ptx.populatedInputs, b.diff.add.lookup q.1.previousOutpoint = some q.2 ∨
      b.diff.add.lookup q.1.previousOutpoint = none ∧
        removed.lookup q.1.previousOutpoint = some q.2 := by
  intro q hq
  cases hadd : b.diff.add.lookup q.1.previousOutpoint with
  | some =>
    have hread := h.unspent q hq
    rw [hshows, UtxoDiff.compose_of_added hadd] at hread
    exact .inl hread
  | none => exact .inr ⟨rfl, hremoved _ _ (h.advanced.taken q hq hadd)⟩

theorem BlockRun.replay (h : BlockRun blake2b params base povDaaScore ctx utxo b accepted utxo' b')
    (hshows : b.diff.Shows base utxo) :
    ∃ deltas, Estimated blake2b params b.atomicState
        (accepted.map fun p => ⟨p.1.ptx, povDaaScore, ctx⟩) deltas b'.atomicState ∧
      ∀ (blockHash : Bytes32) (txs : List Transaction) (removed : UtxoCollection),
        (∀ p ∈ accepted, txs[p.2]? = some p.1.ptx.tx) →
        (∀ o e, b'.diff.remove.lookup o = some e → removed.lookup o = some e) →
        ∀ growth replayed loop', replayAcceptedTxs blake2b params blockHash povDaaScore removed
            ctx txs ⟨b.atomicState, growth, b.diff.add, replayed⟩
            (accepted.map fun p => ⟨p.1.ptx.tx.id, p.2⟩) = .ok loop' ↔
          GrowthAdmitted params.atomicStateGrowthLimits growth deltas ∧
            loop' = ⟨b'.atomicState, commitAll growth deltas, b'.diff.add,
              replayed + accepted.length⟩ := by
  induction h with
  | nil =>
    refine ⟨[], .nil _, ?_⟩
    intro blockHash txs removed _ _ growth replayed loop'
    simp [replayAcceptedTxs, GrowthAdmitted, commitAll, eq_comm]
  | @cons utxo utxo' b m b' p ps step rest ih =>
    obtain ⟨deltas, hestimated, hreplay⟩ := ih step.advanced.shows
    obtain ⟨delta, hestimate, -⟩ := estimate_exact step.accepts
    refine ⟨delta :: deltas, .cons hestimate step.accepts hestimated, ?_⟩
    intro blockHash txs removed hindices hremoved growth replayed loop'
    rw [forall_mem_cons] at hindices
    have hfound := step.found hshows fun o e ho => hremoved o e (rest.remove_kept ho)
    have htx := fun loop'' => @replayTx_eq_ok blake2b params blockHash povDaaScore removed ctx
      ⟨b.atomicState, growth, b.diff.add, replayed⟩ loop'' p.1.ptx step.plain step.distinct hfound
      delta m.atomicState hestimate step.accepts
    have hnext := hreplay blockHash txs removed hindices.2 hremoved
    simp only [map_cons, replayAcceptedTxs, replayAcceptedTx, hindices.1, except_bind_eq_ok,
      okOr_eq_ok, failIf_eq_ok, Option.some.injEq, exists_eq_left', ne_eq, not_true_eq_false,
      not_false_eq_true, exists_const, true_and, htx]
    rw [GrowthAdmitted]
    constructor
    · rintro ⟨_, ⟨hroom, rfl⟩, hrest⟩
      rw [← step.advanced.add, hnext] at hrest
      refine ⟨⟨hroom, hrest.1⟩, ?_⟩
      rw [hrest.2, length_cons, Nat.add_assoc, Nat.add_comm 1]
      rfl
    · rintro ⟨⟨hroom, hadmitted⟩, rfl⟩
      refine ⟨_, ⟨hroom, rfl⟩, ?_⟩
      rw [← step.advanced.add, hnext]
      refine ⟨hadmitted, ?_⟩
      rw [length_cons, Nat.add_assoc, Nat.add_comm 1]
      rfl

variable {m m' : UtxoProcessingContext} {trace : List BlockTrace}

theorem MergeRun.mergesetAcceptanceData
    (h : MergeRun blake2b params base povDaaScore utxo m trace utxo' m') :
    m'.mergesetAcceptanceData = m.mergesetAcceptanceData ++ trace.map acceptance := by
  induction h with
  | nil => simp
  | @cons utxo mid utxo' m m' b entry rest run indices tail ih =>
    have haccepted := run.acceptedTransactions
    rw [ih, map_cons]
    simp [UtxoProcessingContext.closeBlock, haccepted, acceptance, UtxoProcessingContext.openBlock]

theorem MergeRun.remove_kept (h : MergeRun blake2b params base povDaaScore utxo m trace utxo' m')
    {e : UtxoEntry} (ho : m.mergesetDiff.remove.lookup o = some e) :
    m'.mergesetDiff.remove.lookup o = some e := by
  induction h with
  | nil => exact ho
  | cons run indices tail ih =>
    apply ih
    exact run.remove_kept ho

theorem BlockRun.shows (h : BlockRun blake2b params base povDaaScore ctx utxo b accepted utxo' b')
    (hshows : b.diff.Shows base utxo) : b'.diff.Shows base utxo' := by
  induction h with
  | nil => exact hshows
  | cons step rest ih => exact ih step.advanced.shows

end Blocks

variable {diff : UtxoDiff} {c : ChainBlock}

section Mergesets

variable {blake2b : Blake2b} {params : AtomicParams} {base : UtxoView} {povDaaScore : ℕ}
  {utxo utxo' : UtxoCollection} {m m' : UtxoProcessingContext} {trace : List BlockTrace}

theorem transactions_getElem? (block : MergedBlock) (i : ℕ) :
    block.transactions[i]? = block.tx? i := by
  cases i with
  | zero => rfl
  | succ => simp [MergedBlock.transactions, MergedBlock.tx?]

theorem replayAcceptedBlock_eq {stores : BlockDataStores} {blockHash : Bytes32}
    {block : MergedBlock} (hstored : BlockStored stores block)
    (loop : ReplayLoop) (accepted : List AcceptedTxEntry) :
    replayAcceptedBlock blake2b params stores blockHash povDaaScore removed loop
        ⟨block.ctx.sourceBlockHash, accepted⟩ =
      replayAcceptedTxs blake2b params blockHash povDaaScore removed block.ctx block.transactions
        loop accepted := by
  simp only [replayAcceptedBlock, hstored.header, hstored.transactions]
  rfl

theorem replayAcceptedTxs_coinbase {blockHash : Bytes32}
    {block : MergedBlock} (reward : block.coinbase.isCoinbase = true)
    (noInputs : block.coinbase.inputs = []) (loop : ReplayLoop) (accepted : List AcceptedTxEntry) :
    replayAcceptedTxs blake2b params blockHash povDaaScore removed block.ctx block.transactions loop
        (⟨block.coinbase.id, 0⟩ :: accepted) =
      replayAcceptedTxs blake2b params blockHash povDaaScore removed block.ctx block.transactions
        { loop with replayAddedUtxos :=
            loop.replayAddedUtxos.applyTransaction block.coinbase povDaaScore } accepted := by
  have hfirst : replayAcceptedTx blake2b params blockHash povDaaScore removed block.ctx
      block.transactions loop ⟨block.coinbase.id, 0⟩ =
      .ok { loop with replayAddedUtxos :=
        loop.replayAddedUtxos.applyTransaction block.coinbase povDaaScore } := by
    simp only [replayAcceptedTx, except_bind_eq_ok, okOr_eq_ok, failIf_eq_ok]
    exact ⟨block.coinbase, rfl, (), by simp, replayTx_coinbase reward noInputs⟩
  rw [replayAcceptedTxs, hfirst]
  rfl

theorem MergeRun.replay (h : MergeRun blake2b params base povDaaScore utxo m trace utxo' m')
    (hshows : m.mergesetDiff.Shows base utxo)
    (hothers : ∀ entry ∈ trace, entry.isSelectedParent = false) :
    ∃ deltas, Estimated blake2b params m.atomicState (trace.flatMap (·.contexts povDaaScore))
        deltas m'.atomicState ∧
      ∀ (stores : BlockDataStores) (blockHash : Bytes32) (removed : UtxoCollection),
        (∀ entry ∈ trace, BlockStored stores entry.block) →
        (∀ o e, m'.mergesetDiff.remove.lookup o = some e → removed.lookup o = some e) →
        ∀ growth replayed loop', replayAcceptedBlocks blake2b params stores blockHash povDaaScore
            removed ⟨m.atomicState, growth, m.mergesetDiff.add, replayed⟩
            (trace.map acceptance) = .ok loop' ↔
          GrowthAdmitted params.atomicStateGrowthLimits growth deltas ∧
            loop' = ⟨m'.atomicState, commitAll growth deltas, m'.mergesetDiff.add,
              replayed + (acceptedOf trace).length⟩ := by
  induction h with
  | nil =>
    refine ⟨[], .nil _, ?_⟩
    intro stores blockHash removed _ _ growth replayed loop'
    simp [replayAcceptedBlocks, GrowthAdmitted, commitAll, acceptedOf, eq_comm]
  | @cons utxo mid utxo' m m' b entry rest run indices tail ih =>
    rw [forall_mem_cons] at hothers
    obtain ⟨deltas, hestimated, hreplay⟩ := ih (run.shows hshows) hothers.2
    obtain ⟨first, hfirst, hblock⟩ := run.replay hshows
    refine ⟨first ++ deltas, hfirst.append hestimated, ?_⟩
    intro stores blockHash removed hstored hremoved growth replayed loop'
    rw [forall_mem_cons] at hstored
    have hone := hblock blockHash entry.block.transactions removed (by
      intro p hp
      rw [transactions_getElem?]
      exact (indices p hp).2) (fun o e ho => hremoved o e (tail.remove_kept ho)) growth replayed
    have hrest := hreplay stores blockHash removed hstored.2 hremoved
    have hacceptance : entry.acceptance = ⟨entry.block.ctx.sourceBlockHash,
        entry.accepted.map fun p => ⟨p.1.ptx.tx.id, p.2⟩⟩ := by
      simp [acceptance, hothers.1]
    have hcommit : commitAll growth (first ++ deltas) = commitAll (commitAll growth first) deltas :=
      foldl_append
    have hlength : (acceptedOf (entry :: rest)).length =
        entry.accepted.length + (acceptedOf rest).length := by
      simp [acceptedOf]
    rw [map_cons, replayAcceptedBlocks, hacceptance, replayAcceptedBlock_eq hstored.1,
      growthAdmitted_append, hcommit, hlength, ← Nat.add_assoc]
    simp only [except_bind_eq_ok]
    constructor
    · rintro ⟨_, hloop, hlast⟩
      obtain ⟨hadmitted, rfl⟩ := (hone _).mp hloop
      obtain ⟨hadmitted', heq⟩ := (hrest _ _ loop').mp hlast
      exact ⟨⟨hadmitted, hadmitted'⟩, heq⟩
    · rintro ⟨⟨hadmitted, hadmitted'⟩, heq⟩
      exact ⟨_, (hone _).mpr ⟨hadmitted, rfl⟩, (hrest _ _ loop').mpr ⟨hadmitted', heq⟩⟩

variable {j : JointState}

theorem Processed.parts (h : Processed blake2b params j c diff trace utxo m) :
    ∃ entry rest, trace = entry :: rest ∧ entry.block = c.selectedParent ∧
      entry.isSelectedParent = true ∧ rest.map block = c.others ∧
      ∀ e ∈ rest, e.isSelectedParent = false := by
  have hblocks := h.blocks
  have hflags := h.flags
  cases trace with
  | nil => cases hblocks
  | cons entry rest =>
    rw [map_cons, ChainBlock.blocks, List.cons.injEq] at hblocks
    rw [map_cons, List.cons.injEq] at hflags
    refine ⟨entry, rest, rfl, hblocks.1, hflags.1, hblocks.2, ?_⟩
    intro e he
    have hmem : e.isSelectedParent ∈ rest.map isSelectedParent := mem_map_of_mem he
    rw [hflags.2, mem_map] at hmem
    obtain ⟨_, -, hflag⟩ := hmem
    exact hflag.symm

/-- Replay of a chain block succeeds when one set of counters admits all its accepted
transactions, and then ends in the state of the block. -/
theorem Processed.replay (h : Processed blake2b params j c diff trace utxo m)
    (hstart : UtxoDiff.empty.addTransaction [] c.selectedParent.coinbase c.povDaaScore = .ok diff) :
    ∃ deltas, Estimated blake2b params j.atomic.beginDeltaTracking
        (trace.flatMap (·.contexts c.povDaaScore)) deltas m.atomicState ∧
      ∀ (stores : BlockDataStores) (blockHash : Bytes32), Committed stores blockHash c m →
        ∀ r, replayAtomicAcceptanceForBlock blake2b params stores blockHash c.povDaaScore
            j.atomic.beginDeltaTracking = .ok r ↔
          GrowthFits params.atomicStateGrowthLimits default.used deltas ∧
            r = (m.atomicState, (acceptedOf trace).length) := by
  obtain ⟨diff', hdiff', -, hshows, hadd⟩ := addCoinbase_ok c.povDaaScore h.noInputs h.fresh
  obtain rfl := Except.ok.inj (hstart.symm.trans hdiff')
  have hacceptance := h.run.mergesetAcceptanceData
  obtain ⟨entry, rest, rfl, hparentBlock, hflag, hotherBlocks, hothers⟩ := h.parts
  obtain ⟨-, -, reward, noInputs, -, -, run, -, -⟩ := h
  cases run with
  | @cons _ mid _ _ _ b _ _ run indices tail =>
    obtain ⟨first, hfirst, hblock⟩ := run.replay hshows
    obtain ⟨deltas, hestimated, hreplay⟩ := tail.replay (run.shows hshows) hothers
    refine ⟨first ++ deltas, hfirst.append hestimated, ?_⟩
    intro stores blockHash hcommitted r
    have hparent : BlockStored stores entry.block := by
      rw [hparentBlock]
      exact hcommitted.merged _ mem_cons_self
    have hstored : ∀ e ∈ rest, BlockStored stores e.block := by
      intro e he
      apply hcommitted.merged
      rw [ChainBlock.blocks, ← hotherBlocks]
      exact mem_cons_of_mem _ (mem_map_of_mem he)
    have hone := hblock blockHash entry.block.transactions m.mergesetDiff.remove (by
      intro p hp
      rw [transactions_getElem?]
      exact (indices p hp).2) (fun o e ho => tail.remove_kept ho) .default 0
    have hrest := hreplay stores blockHash m.mergesetDiff.remove hstored fun _ _ ho => ho
    have hcoinbase : entry.acceptance = ⟨entry.block.ctx.sourceBlockHash,
        ⟨entry.block.coinbase.id, 0⟩ :: entry.accepted.map fun p => ⟨p.1.ptx.tx.id, p.2⟩⟩ := by
      simp [acceptance, hflag]
    have hlength : (acceptedOf (entry :: rest)).length =
        entry.accepted.length + (acceptedOf rest).length := by
      simp [acceptedOf]
    rw [← hparentBlock] at reward noInputs hadd
    rw [← growthAdmitted_iff (growthFits_default _), growthAdmitted_append, hlength]
    simp only [replayAtomicAcceptanceForBlock, hcommitted.acceptanceData, hcommitted.utxoDiff,
      hacceptance]
    change ((replayAcceptedBlocks blake2b params stores blockHash c.povDaaScore
      m.mergesetDiff.remove _ (entry.acceptance :: rest.map acceptance)) >>= _) = _ ↔ _
    rw [replayAcceptedBlocks, hcoinbase, replayAcceptedBlock_eq hparent,
      replayAcceptedTxs_coinbase reward noInputs, ← hadd]
    simp only [except_bind_eq_ok, except_pure_eq_ok]
    constructor
    · rintro ⟨loop, ⟨_, hloop, hlast⟩, rfl⟩
      obtain ⟨hadmitted, rfl⟩ := (hone _).mp hloop
      obtain ⟨hadmitted', rfl⟩ := (hrest _ _ loop).mp hlast
      exact ⟨⟨hadmitted, hadmitted'⟩, by rw [Nat.zero_add]⟩
    · rintro ⟨⟨hadmitted, hadmitted'⟩, rfl⟩
      refine ⟨_, ⟨_, (hone _).mpr ⟨hadmitted, rfl⟩, (hrest _ _ _).mpr ⟨hadmitted', rfl⟩⟩, ?_⟩
      rw [Nat.zero_add]

/-- What acceptance data lists of a block: its accepted transactions with their indices. -/
def BlockTrace.listed : List (Transaction × ℕ) :=
  let accepted := entry.accepted.map fun p => (p.1.ptx.tx, p.2)
  if entry.isSelectedParent then (entry.block.coinbase, 0) :: accepted else accepted

theorem BlockTrace.acceptance_eq : entry.acceptance =
    ⟨entry.block.ctx.sourceBlockHash, entry.listed.map fun p => ⟨p.1.id, p.2⟩⟩ := by
  simp only [acceptance, listed]
  split <;> simp

theorem Processed.listed (h : Processed blake2b params j c diff trace utxo m) :
    (trace.flatMap listed).map Prod.fst = c.selectedParent.coinbase :: acceptedOf trace := by
  obtain ⟨entry, rest, rfl, hblock, hflag, -, hothers⟩ := h.parts
  have hrest : (rest.flatMap listed).map Prod.fst = acceptedOf rest := by
    rw [map_flatMap, acceptedOf]
    apply flatMap_congr
    intro e he
    simp [listed, hothers e he]
  rw [flatMap_cons, map_append, hrest, ← hblock]
  simp [listed, hflag, acceptedOf]

theorem Processed.acceptedIds (h : Processed blake2b params j c diff trace utxo m) :
    (m.mergesetAcceptanceData.flatMap (·.acceptedTransactions)).map (·.transactionId) =
      c.selectedParent.coinbase.id ::
        (trace.flatMap (·.contexts c.povDaaScore)).map (·.ptx.tx.id) := by
  have hlisted := congrArg (List.map (·.id)) h.listed
  rw [h.run.mergesetAcceptanceData]
  simpa [map_flatMap, flatMap_map, acceptance_eq, Function.comp_def,
    acceptedOf, contexts, startContext] using hlisted

end Mergesets

/-- A processed chain block: the result of processing, its accepted transactions and
the growth estimated for each. -/
structure ProcessedBlock where
  chainBlock : ChainBlock
  result : UtxoProcessingContext
  contexts : List TxContext
  growth : List AtomicStateGrowth

/-- What is persisted of the token state of a block. -/
def ProcessedBlock.record (blake2b : Blake2b) (p : ProcessedBlock) :
    AtomicConsensusStateDelta × Bytes32 :=
  (p.result.atomicState.takeDelta.1, p.result.atomicState.canonicalHash blake2b)

/-- A chain of blocks, each processed on the states its selected parent left. -/
inductive ProcessedChain (blake2b : Blake2b) (params : AtomicParams) (v : ValidatorParams) :
    JointState → List ProcessedBlock → JointState → Prop
  | nil (j : JointState) : ProcessedChain blake2b params v j [] j
  | cons {j l : JointState} {p : ProcessedBlock} {rest : List ProcessedBlock}
      (computed : calculateUtxoState blake2b params v j.utxo.lookup j.atomic p.chainBlock =
        .ok p.result)
      (accepted : (p.result.mergesetAcceptanceData.flatMap (·.acceptedTransactions)).map
        (·.transactionId) = p.chainBlock.selectedParent.coinbase.id :: p.contexts.map (·.ptx.tx.id))
      (estimated : Estimated blake2b params j.atomic.beginDeltaTracking p.contexts p.growth
        p.result.atomicState)
      (tail : ProcessedChain blake2b params v
        ⟨p.result.mergesetDiff.applyTo j.utxo, p.result.atomicState⟩ rest l) :
      ProcessedChain blake2b params v j (p :: rest) l

/-- The block at an index of the selected chain was committed. -/
def CommittedAt (stores : BlockDataStores) (index : ℕ) (p : ProcessedBlock) : Prop :=
  ∃ blockHash, stores.selectedChain index = .ok blockHash ∧
    Committed stores blockHash p.chainBlock p.result

/-- One set of counters admits all accepted transactions of the block. -/
def ProcessedBlock.Fits (params : AtomicParams) (p : ProcessedBlock) : Prop :=
  GrowthFits params.atomicStateGrowthLimits default.used p.growth

/-- Replaying the block alone, from the state `k` before it, gives its state exactly when
it fits. -/
def ProcessedBlock.ReplaysIff (blake2b : Blake2b) (params : AtomicParams) (k : JointState)
    (p : ProcessedBlock) : Prop :=
  ∀ (stores : BlockDataStores) (blockHash : Bytes32),
    Committed stores blockHash p.chainBlock p.result →
    (replayAtomicAcceptanceForBlock blake2b params stores blockHash p.chainBlock.povDaaScore
        k.atomic.beginDeltaTracking = .ok (p.result.atomicState, p.contexts.length) ↔
      p.Fits params) ∧
    ∀ r, replayAtomicAcceptanceForBlock blake2b params stores blockHash p.chainBlock.povDaaScore
        k.atomic.beginDeltaTracking = .ok r → r = (p.result.atomicState, p.contexts.length)

section Chains

variable {blake2b : Blake2b} {params : AtomicParams} {v : ValidatorParams} {j l : JointState}
  {chain : List ChainBlock} {events : List JointEvent}

/-- Replaying a whole chain gives every record of it exactly when every block fits. -/
def ReplaysChainIff (blake2b : Blake2b) (params : AtomicParams) (s : AtomicConsensusState)
    (blocks : List ProcessedBlock) (t : AtomicConsensusState) : Prop :=
  ∀ (stores : BlockDataStores) (indices : List ℕ), Forall₂ (CommittedAt stores) indices blocks →
    ((∃ r, replayChain blake2b params stores s indices =
        .ok (blocks.map (ProcessedBlock.record blake2b), r) ∧
        r.beginDeltaTracking = t.beginDeltaTracking) ↔ ∀ p ∈ blocks, p.Fits params)

theorem ReplaysChainIff.cons {k : JointState} {s t : AtomicConsensusState} {p : ProcessedBlock}
    {blocks : List ProcessedBlock} (hs : s.beginDeltaTracking = k.atomic.beginDeltaTracking)
    (hone : p.ReplaysIff blake2b params k)
    (hrest : ReplaysChainIff blake2b params p.result.atomicState.takeDelta.2 blocks t) :
    ReplaysChainIff blake2b params s (p :: blocks) t := by
  intro stores indices hcommitted
  cases hcommitted with
  | @cons index _ indices _ hat htail =>
    obtain ⟨blockHash, hindex, hcommitted⟩ := hat
    obtain ⟨timestamp, hheader⟩ := hcommitted.header
    obtain ⟨hfits, hunique⟩ := hone stores blockHash hcommitted
    have hchain := hrest stores indices htail
    rw [forall_mem_cons, ← hfits, ← hchain]
    simp only [replayChain, except_bind_eq_ok, mapError_eq_ok, hindex, Except.ok.injEq,
      exists_eq_left', hheader, hs, except_pure_eq_ok]
    constructor
    · rintro ⟨r, ⟨replayed, hreplayed, rebuilt, hrebuilt, heq⟩, hr⟩
      obtain rfl := hunique replayed hreplayed
      obtain ⟨hrecords, rfl⟩ := Prod.mk.inj heq
      refine ⟨hreplayed, rebuilt.2, ?_, hr⟩
      rw [map_cons, List.cons.injEq] at hrecords
      rw [hrebuilt, ← hrecords.2]
    · rintro ⟨hreplayed, r, hrebuilt, hr⟩
      exact ⟨r, ⟨_, hreplayed, _, hrebuilt, rfl⟩, hr⟩

theorem Processed.replaysIff {trace : List BlockTrace}
    {utxo : UtxoCollection} {m : UtxoProcessingContext}
    (h : Processed blake2b params j c diff trace utxo m)
    (hstart : UtxoDiff.empty.addTransaction [] c.selectedParent.coinbase c.povDaaScore = .ok diff)
    (ids : List Bytes32) :
    ∃ deltas, Estimated blake2b params j.atomic.beginDeltaTracking
        (trace.flatMap (·.contexts c.povDaaScore)) deltas m.atomicState ∧
      ProcessedBlock.ReplaysIff blake2b params j
        ⟨c, { m with acceptedTxIds := ids }, trace.flatMap (·.contexts c.povDaaScore), deltas⟩ := by
  obtain ⟨deltas, hestimated, hreplay⟩ := h.replay hstart
  have hlength : (trace.flatMap (·.contexts c.povDaaScore)).length = (acceptedOf trace).length := by
    simp [acceptedOf, contexts]
  refine ⟨deltas, hestimated, ?_⟩
  intro stores blockHash hcommitted
  have hiff := hreplay stores blockHash ⟨hcommitted.header, hcommitted.acceptanceData,
    hcommitted.utxoDiff, hcommitted.merged⟩
  rw [← hlength] at hiff
  constructor
  · rw [hiff]
    exact and_iff_left rfl
  · intro r hr
    exact ((hiff r).mp hr).2

theorem ChainRun.replay (h : ChainRun blake2b params v j chain l events) :
    ∃ blocks, blocks.map ProcessedBlock.chainBlock = chain ∧
      ProcessedChain blake2b params v j blocks l ∧
      (∀ before p after, blocks = before ++ p :: after →
        ∃ k, ProcessedChain blake2b params v j before k ∧ p.ReplaysIff blake2b params k) ∧
      ∀ s, s.beginDeltaTracking = j.atomic.beginDeltaTracking →
        ReplaysChainIff blake2b params s blocks l.atomic := by
  induction h with
  | nil j =>
    refine ⟨[], rfl, .nil j, ?_, ?_⟩
    · intro before p after heq
      cases before <;> cases heq
    · intro s hs stores indices hcommitted
      cases hcommitted
      exact iff_of_true ⟨s, rfl, hs⟩ (by simp)
  | @cons j l c chain m diff trace utxo events computed start processed rest ih =>
    obtain ⟨blocks, hblocks, hchain, hone, hall⟩ := ih
    obtain ⟨deltas, hestimated, hreplays⟩ :=
      processed.replaysIff start (m.acceptedTxIds.mergeSort (· ≤ ·))
    let p : ProcessedBlock := ⟨c, { m with acceptedTxIds := m.acceptedTxIds.mergeSort (· ≤ ·) },
      trace.flatMap (·.contexts c.povDaaScore), deltas⟩
    have hfirst : ∀ {tail : List ProcessedBlock} {k : JointState},
        ProcessedChain blake2b params v ⟨utxo, m.atomicState⟩ tail k →
        ProcessedChain blake2b params v j (p :: tail) k := by
      intro tail k htail
      rw [← processed.applyTo_eq] at htail
      exact .cons computed processed.acceptedIds hestimated htail
    refine ⟨p :: blocks, ?_, hfirst hchain, ?_, ?_⟩
    · rw [map_cons, hblocks]
    · intro before q after heq
      cases before with
      | nil =>
        cases heq
        exact ⟨j, .nil j, hreplays⟩
      | cons q' before =>
        rw [cons_append, List.cons.injEq] at heq
        obtain ⟨rfl, heq⟩ := heq
        obtain ⟨k, hbefore, hk⟩ := hone before q after heq
        exact ⟨k, hfirst hbefore, hk⟩
    · intro s hs
      exact ReplaysChainIff.cons hs hreplays (hall _ rfl)

/-- Replay from the stored data of processed blocks reproduces every state, delta and
root exactly when the estimated growth of each mergeset fits the limits of one block. -/
theorem replay_reproduces_iff {past : List Transaction} (hbound : Bound j)
    (hhistory : History past j.utxo) (hchain : ChainOk past chain) :
    ∃ blocks l, blocks.map ProcessedBlock.chainBlock = chain ∧
      ProcessedChain blake2b params v j blocks l ∧
      (∀ before p after, blocks = before ++ p :: after →
        ∃ k, ProcessedChain blake2b params v j before k ∧ p.ReplaysIff blake2b params k) ∧
      ReplaysChainIff blake2b params j.atomic blocks l.atomic := by
  obtain ⟨l, events, -, hrun, -, -⟩ :=
    exists_chainRun hbound hhistory hchain
  obtain ⟨blocks, hblocks, hprocessed, hone, hall⟩ := hrun.replay
  exact ⟨blocks, l, hblocks, hprocessed, hone, hall j.atomic rfl⟩

end Chains

section Samples

open AtomicConsensusState

/-- Limits under which a block may bring one new anchor owner. -/
def oneOwnerParams : AtomicParams :=
  { sampleParams with atomicStateGrowthLimits := ⟨100, 100, 100, 100, 1⟩ }

def otherKeyScript : ScriptPublicKey := ⟨0, 0x20 :: (List.replicate 32 6 ++ [0xac])⟩

/-- Two rewards that belong to nobody. -/
def openRewards : ChainBlock :=
  ⟨sampleBlock 200 [⟨1000000000, ⟨0, [0x51]⟩⟩, ⟨1000000000, ⟨0, [0x51]⟩⟩] [], [], 1⟩

/-- Two merged blocks, each with a payment to a new owner. -/
def twoOwners : ChainBlock :=
  ⟨sampleBlock 201 [] [nativeTx (sampleId 8) ⟨sampleId 200, 0⟩ keyScript],
    [sampleBlock 202 [] [nativeTx (sampleId 9) ⟨sampleId 200, 1⟩ otherKeyScript]], 2⟩

theorem twoOwners_ok : ChainOk [] [openRewards, twoOwners] := by decide +kernel

/-- Stores that hold one committed block and what it merged. -/
def storesOf (blockHash : Bytes32) (c : ChainBlock) (m : UtxoProcessingContext) :
    BlockDataStores where
  selectedChain _ := .ok blockHash
  headers hash :=
    if hash = blockHash then .ok ⟨c.povDaaScore, 0⟩
    else match c.blocks.find? fun block => block.ctx.sourceBlockHash = hash with
      | some block => .ok ⟨block.ctx.sourceBlockDaaScore, block.ctx.sourceBlockTime⟩
      | none => .error "key not found"
  acceptanceData hash :=
    if hash = blockHash then .ok m.mergesetAcceptanceData else .error "key not found"
  utxoDiffs hash := if hash = blockHash then .ok m.mergesetDiff else .error "key not found"
  blockTransactions hash :=
    match c.blocks.find? fun block => block.ctx.sourceBlockHash = hash with
    | some block => .ok block.transactions
    | none => .error "key not found"

theorem twoOwners_committed (m : UtxoProcessingContext) :
    Committed (storesOf (sampleId 210) twoOwners m) (sampleId 210) twoOwners m := by
  constructor
  · exact ⟨0, rfl⟩
  · simp [storesOf]
  · simp [storesOf]
  · intro block hblock
    simp only [ChainBlock.blocks, twoOwners, mem_cons, not_mem_nil, or_false] at hblock
    rcases hblock with rfl | rfl <;> constructor <;> rfl

/-- A chain whose merged blocks fit together or not. -/
theorem twoOwners_replay_iff :
    ∃ blocks l, blocks.map ProcessedBlock.chainBlock = [openRewards, twoOwners] ∧
      ProcessedChain sumHash oneOwnerParams sampleValidator ⟨∅, .default⟩ blocks l ∧
      (∀ before p after, blocks = before ++ p :: after →
        ∃ k, ProcessedChain sumHash oneOwnerParams sampleValidator ⟨∅, .default⟩ before k ∧
          p.ReplaysIff sumHash oneOwnerParams k) ∧
      ReplaysChainIff sumHash oneOwnerParams .default blocks l.atomic :=
  replay_reproduces_iff Bound.genesis History.empty twoOwners_ok

/-- Both payments were accepted, and the replay refuses the second. -/
theorem twoOwners_not_replayed :
    ∃ j m, advanceAll sumHash oneOwnerParams sampleValidator ⟨∅, .default⟩ [openRewards] = .ok j ∧
      calculateUtxoState sumHash oneOwnerParams sampleValidator j.utxo.lookup j.atomic twoOwners =
        .ok m ∧
      Committed (storesOf (sampleId 210) twoOwners m) (sampleId 210) twoOwners m ∧
      (m.mergesetAcceptanceData.flatMap (·.acceptedTransactions)).map (·.transactionId) =
        [sampleId 201, sampleId 8, sampleId 9] ∧
      (replayAtomicAcceptanceForBlock sumHash oneOwnerParams
        (storesOf (sampleId 210) twoOwners m) (sampleId 210) twoOwners.povDaaScore
        j.atomic.beginDeltaTracking).toOption.isNone = true := by
  obtain ⟨j, hj, htest⟩ : ∃ j, advanceAll sumHash oneOwnerParams sampleValidator ⟨∅, .default⟩
      [openRewards] = .ok j ∧ (calculateUtxoState sumHash oneOwnerParams sampleValidator
        j.utxo.lookup j.atomic twoOwners).toOption.any (fun m =>
          decide ((m.mergesetAcceptanceData.flatMap (·.acceptedTransactions)).map
            (·.transactionId) = [sampleId 201, sampleId 8, sampleId 9]) &&
          (replayAtomicAcceptanceForBlock sumHash oneOwnerParams
            (storesOf (sampleId 210) twoOwners m) (sampleId 210) twoOwners.povDaaScore
            j.atomic.beginDeltaTracking).toOption.isNone) = true :=
    exists_ok_of_any (by decide +kernel)
  obtain ⟨m, hm, hboth⟩ := exists_ok_of_any htest
  rw [Bool.and_eq_true] at hboth
  exact ⟨j, m, hj, hm, twoOwners_committed m, of_decide_eq_true hboth.1, hboth.2⟩

end Samples

end CryptixAtomic.Processor
