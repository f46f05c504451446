import CryptixAtomic.Processor.Coinbase
import CryptixAtomic.Processor.MergesetRuns

/-!
# Every transaction is accepted once

The same transaction may sit in many merged blocks, and two blocks may carry conflicting
ones. Along a chain no id is accepted twice and no output is spent twice: an accepted
transaction has an unspent input, which it spends for good, and the coinbases of chain
blocks differ in the blue score their payloads begin with.
-/
namespace CryptixAtomic.Processor

open Foundation Transition JointEvent List

/-- No transaction of the list occurs twice, and no two of them spend the same output. -/
structure Singly (txs : List Transaction) : Prop where
  ids : (txs.map (·.id)).Nodup
  spent : (txs.flatMap (·.spentOutpoints)).Nodup

theorem Singly.nil : Singly [] := ⟨nodup_nil, nodup_nil⟩

theorem Singly.perm {txs txs' : List Transaction} (h : Singly txs) (hperm : txs.Perm txs') :
    Singly txs' :=
  ⟨(hperm.map _).nodup_iff.mp h.ids, (hperm.flatMap_right _).nodup_iff.mp h.spent⟩

theorem Singly.cons {past : List Transaction} {utxo : UtxoCollection} {tx : Transaction}
    (h : Singly past) (hhistory : History past utxo) (hnew : ∀ tx' ∈ past, tx'.id ≠ tx.id)
    (hdistinct : tx.spentOutpoints.Nodup)
    (hunspent : ∀ o ∈ tx.spentOutpoints, ∃ e, utxo.lookup o = some e) : Singly (tx :: past) := by
  constructor
  · rw [map_cons, nodup_cons]
    refine ⟨?_, h.ids⟩
    intro hmem
    obtain ⟨tx', htx', hid⟩ := mem_map.mp hmem
    exact hnew tx' htx' hid
  · rw [flatMap_cons]
    apply hdistinct.append h.spent
    intro o ho hmem
    obtain ⟨tx', htx', ho'⟩ := mem_flatMap.mp hmem
    obtain ⟨e, he⟩ := hunspent o ho
    rw [hhistory.gone tx' htx' o ho'] at he
    cases he

def JointEvent.tx? : JointEvent → Option Transaction
  | .newBlock => none
  | .coinbase tx _ => some tx
  | .accepted x => some x.ptx.tx

def eventTxs (events : List JointEvent) : List Transaction := events.filterMap tx?

variable {tx : Transaction}

section Runs

variable {blake2b : Blake2b} {params : AtomicParams} {j l : JointState}
  {events : List JointEvent} {past : List Transaction}

theorem eventTxs_append (events events' : List JointEvent) :
    eventTxs (events ++ events') = eventTxs events ++ eventTxs events' :=
  filterMap_append

/-- What is promised of the transactions of a run: ids have no collision, accepted
transactions have inputs and coinbases have distinct blue scores. -/
structure RunOk (past : List Transaction) (events : List JointEvent) : Prop where
  ids : UniqueIds (past ++ eventTxs events)
  inputs : ∀ x, accepted x ∈ events → x.ptx.tx.inputs ≠ []
  scores : (((past ++ eventTxs events).filter (·.isCoinbase)).map coinbaseBlueScore).Nodup

theorem RunOk.next {e : JointEvent} {tx : Transaction} (h : RunOk past (e :: events))
    (htx : e.tx? = some tx) : RunOk (tx :: past) events := by
  have hperm : (past ++ eventTxs (e :: events)).Perm (tx :: past ++ eventTxs events) := by
    rw [eventTxs, filterMap_cons_some htx]
    exact perm_middle
  constructor
  · intro a ha b hb hid
    exact h.ids a (hperm.mem_iff.mpr ha) b (hperm.mem_iff.mpr hb) hid
  · intro x hx
    exact h.inputs x (mem_cons_of_mem e hx)
  · exact (((hperm.filter _).map _).nodup_iff).mp h.scores

theorem RunOk.skip (h : RunOk past (.newBlock :: events)) : RunOk past events :=
  ⟨h.ids, fun x hx => h.inputs x (mem_cons_of_mem _ hx), h.scores⟩

theorem RunOk.coinbase_new {daaScore : ℕ}
    (h : RunOk past (.coinbase tx daaScore :: events)) (hreward : tx.isCoinbase = true) :
    ∀ tx' ∈ past, tx'.id ≠ tx.id := by
  intro tx' htx' hid
  obtain rfl : tx' = tx := h.ids tx' (mem_append_left _ htx') tx
    (mem_append_right _ (by simp [eventTxs, tx?])) hid
  have hscores := h.scores
  rw [filter_append, map_append] at hscores
  have hdisjoint := disjoint_of_nodup_append hscores
  apply hdisjoint (mem_map_of_mem (mem_filter.mpr ⟨htx', hreward⟩))
  apply mem_map_of_mem
  rw [mem_filter]
  exact ⟨by simp [eventTxs, tx?], hreward⟩

theorem JointRun.singly (hrun : JointRun blake2b params j events l)
    (hhistory : History past j.utxo) (hone : Singly past) (hok : RunOk past events) :
    Singly (past ++ eventTxs events) := by
  induction hrun generalizing past with
  | nil => simpa [eventTxs] using hone
  | @cons j k l e es step rest ih =>
    cases step with
    | newBlock => exact ih hhistory hone hok.skip
    | @coinbase tx daaScore reward noInputs fresh =>
      have hnew := hok.coinbase_new reward
      have hspent : tx.spentOutpoints = [] := by simp [Transaction.spentOutpoints, noInputs]
      have hhistory' := hhistory.apply hnew (by rw [hspent]; simp) daaScore
      have hone' := hone.cons hhistory hnew (by rw [hspent]; simp) (by rw [hspent]; simp)
      apply (ih hhistory' hone' (hok.next rfl)).perm
      exact perm_middle.symm
    | @accepted x t plain unspent distinct fresh accepts =>
      have hunspent : ∀ o ∈ x.ptx.tx.spentOutpoints, ∃ e, j.utxo.lookup o = some e := by
        intro o ho
        obtain ⟨p, hp, rfl⟩ := exists_populated ho
        exact ⟨p.2, unspent p hp⟩
      have hnew : ∀ tx' ∈ past, tx'.id ≠ x.ptx.tx.id := by
        apply hhistory.new_id ?_ (hok.inputs x mem_cons_self) hunspent
        intro tx' htx' hid
        exact hok.ids tx' (mem_append_left _ htx') _
          (mem_append_right _ (by simp [eventTxs, tx?])) hid
      have hhistory' := hhistory.apply hnew hunspent x.povDaaScore
      have hone' := hone.cons hhistory hnew distinct hunspent
      apply (ih hhistory' hone' (hok.next rfl)).perm
      exact perm_middle.symm

end Runs

section Contexts

variable {blake2b : Blake2b} {params : AtomicParams} {base : UtxoView} {povDaaScore : ℕ}
  {utxo utxo' : UtxoCollection}

theorem BlockRun.recorded {ctx : AtomicCreationContext} {b b' : BlockLoop}
    {accepted : List (ValidatedTransaction × ℕ)}
    (h : BlockRun blake2b params base povDaaScore ctx utxo b accepted utxo' b') :
    b'.acceptedTxIds = b.acceptedTxIds ++ accepted.map (·.1.ptx.tx.id) ∧ b'.acceptedSpentOutpoints =
        b.acceptedSpentOutpoints ++ accepted.flatMap (·.1.ptx.tx.spentOutpoints) := by
  induction h with
  | nil => simp
  | cons step rest ih =>
    rw [ih.1, ih.2, step.acceptedTxIds, step.spentOutpoints]
    simp

variable {trace : List BlockTrace}

theorem MergeRun.recorded {m m' : UtxoProcessingContext}
    (h : MergeRun blake2b params base povDaaScore utxo m trace utxo' m') :
    m'.acceptedTxIds = m.acceptedTxIds ++ (acceptedOf trace).map (·.id) ∧
      m'.acceptedSpentOutpoints =
        m.acceptedSpentOutpoints ++ (acceptedOf trace).flatMap (·.spentOutpoints) := by
  induction h with
  | nil => simp [acceptedOf]
  | @cons utxo mid utxo' m m' b entry rest run indices tail ih =>
    have hids : (m.closeBlock entry.isSelectedParent entry.block b).acceptedTxIds =
        b.acceptedTxIds := rfl
    have hspent : (m.closeBlock entry.isSelectedParent entry.block b).acceptedSpentOutpoints =
        b.acceptedSpentOutpoints := rfl
    rw [ih.1, ih.2, hids, hspent, run.recorded.1, run.recorded.2]
    simp [acceptedOf, UtxoProcessingContext.openBlock, flatMap_map]

theorem eventTxs_events (c : ChainBlock) (trace : List BlockTrace) :
    eventTxs (c.events trace) = c.selectedParent.coinbase :: acceptedOf trace := by
  have htrace : eventTxs (trace.flatMap (·.events c.povDaaScore)) = acceptedOf trace := by
    induction trace with
    | nil => rfl
    | cons entry trace ih =>
      rw [flatMap_cons, eventTxs_append, ih]
      have hentry : eventTxs (entry.events c.povDaaScore) =
          entry.accepted.map fun p => p.1.ptx.tx := by
        rw [eventTxs, BlockTrace.events, filterMap_map]
        exact congrFun filterMap_eq_map _
      rw [hentry]
      rfl
  rw [← htrace]
  rfl

theorem MergeRun.accepted_mem {m m' : UtxoProcessingContext}
    (h : MergeRun blake2b params base povDaaScore utxo m trace utxo' m')
    (htx : tx ∈ acceptedOf trace) :
    ∃ block ∈ trace.map BlockTrace.block, ∃ btx ∈ block.txs, btx.tx = tx := by
  induction h with
  | nil => simp [acceptedOf] at htx
  | @cons utxo mid utxo' m m' b entry rest run indices tail ih =>
    rw [acceptedOf, flatMap_cons, mem_append, mem_map] at htx
    rcases htx with ⟨p, hp, rfl⟩ | htx
    · obtain ⟨hne, hget⟩ := indices p hp
      obtain ⟨i, hi⟩ := Nat.exists_eq_succ_of_ne_zero hne
      rw [hi, Nat.succ_eq_add_one, MergedBlock.tx?, Option.map_eq_some_iff] at hget
      obtain ⟨btx, hbtx, heq⟩ := hget
      exact ⟨entry.block, by simp, btx, mem_of_getElem? hbtx, heq⟩
    · obtain ⟨block, hblock, hmem⟩ := ih htx
      exact ⟨block, mem_cons_of_mem _ hblock, hmem⟩

end Contexts

section Chains

variable (blake2b : Blake2b) (params : AtomicParams) (v : ValidatorParams)

/-- The contexts of a chain of blocks, each the selected parent of the next. -/
def processChain : JointState → List ChainBlock →
    Except UtxoAlgebraError (List UtxoProcessingContext)
  | _, [] => .ok []
  | j, c :: rest => do
    let m ← calculateUtxoState blake2b params v j.utxo.lookup j.atomic c
    let ms ← processChain ⟨m.mergesetDiff.applyTo j.utxo, m.atomicState⟩ rest
    return m :: ms

/-- A chain that passed body validation. Blue scores are those of the headers, given by
block hash; they grow along the chain. The genesis block is not validated, but its payload
states its score too. -/
structure BodyValidated (manager : CoinbaseManager) (blueScoreOf : Bytes32 → ℕ)
    (genesis : MergedBlock) (chain : List ChainBlock) : Prop where
  isolated : ∀ c ∈ chain, ∀ block ∈ c.blocks, block.Isolated
  ids : UniqueIds (chainTransactions chain)
  genesisScore : ∃ data, manager.deserializeCoinbasePayload genesis.coinbase.payload = .ok data ∧
    data.blueScore = blueScoreOf genesis.ctx.sourceBlockHash
  checked : ∀ c ∈ chain, ∀ block ∈ c.blocks, block = genesis ∨
    manager.checkCoinbaseBlueScoreAndSubsidy block.coinbase
      (blueScoreOf block.ctx.sourceBlockHash) block.ctx.sourceBlockDaaScore = .ok ()
  growing : (chain.map fun c => blueScoreOf c.selectedParent.ctx.sourceBlockHash).Pairwise (· < ·)

end Chains

section Chains

variable {blake2b : Blake2b} {params : AtomicParams} {v : ValidatorParams} {j l : JointState}
  {chain : List ChainBlock} {events : List JointEvent}

variable {blueScoreOf : Bytes32 → ℕ} {manager : CoinbaseManager}

theorem BodyValidated.blueScore
    {genesis : MergedBlock} (h : BodyValidated manager blueScoreOf genesis chain)
    {c : ChainBlock} (hc : c ∈ chain) :
    Reader.fromLeBytes (coinbaseBlueScore c.selectedParent.coinbase) =
      blueScoreOf c.selectedParent.ctx.sourceBlockHash := by
  rcases h.checked c hc c.selectedParent mem_cons_self with heq | hcheck
  · obtain ⟨data, hdata, hscore⟩ := h.genesisScore
    rw [heq, ← hscore, deserialize_blueScore hdata]
    rfl
  · obtain ⟨data, hdata, hscore, -⟩ := checkCoinbase_eq_ok.mp hcheck
    rw [← hscore, deserialize_blueScore hdata]
    rfl

theorem BodyValidated.chainOk
    {genesis : MergedBlock} (h : BodyValidated manager blueScoreOf genesis chain) :
    ChainOk [] chain := by
  refine ⟨h.isolated, h.ids, ?_, by simp⟩
  have hscores : (chain.map fun c => coinbaseBlueScore c.selectedParent.coinbase).map
      Reader.fromLeBytes = chain.map fun c => blueScoreOf c.selectedParent.ctx.sourceBlockHash := by
    rw [map_map]
    exact map_congr_left fun c hc => h.blueScore hc
  apply Nodup.of_map Reader.fromLeBytes
  rw [hscores]
  exact h.growing.imp (fun hlt => hlt.ne)

theorem ChainRun.processChain (h : ChainRun blake2b params v j chain l events) :
    ∃ ms, processChain blake2b params v j chain = .ok ms ∧
      (ms.flatMap (·.acceptedTxIds)).Perm ((eventTxs events).map (·.id)) ∧
      ms.flatMap (·.acceptedSpentOutpoints) = (eventTxs events).flatMap (·.spentOutpoints) := by
  induction h with
  | nil => exact ⟨[], rfl, by simp [eventTxs], rfl⟩
  | @cons j l c chain m diff trace utxo events computed start processed rest ih =>
    obtain ⟨ms, hms, hids, hspent⟩ := ih
    obtain ⟨hids', hspent'⟩ := processed.run.recorded
    have hnone : c.selectedParent.coinbase.spentOutpoints = [] := by
      simp [Transaction.spentOutpoints, processed.noInputs]
    refine ⟨{ m with acceptedTxIds := m.acceptedTxIds.mergeSort (· ≤ ·) } :: ms, ?_, ?_, ?_⟩
    · rw [Processor.processChain, computed]
      change (Processor.processChain blake2b params v ⟨m.mergesetDiff.applyTo j.utxo,
        m.atomicState⟩ chain >>= _) = _
      rw [processed.applyTo_eq, hms]
      rfl
    · rw [flatMap_cons, eventTxs_append, eventTxs_events, map_append]
      apply Perm.append _ hids
      apply (mergeSort_perm _ _).trans
      rw [hids']
      simp [startContext]
    · rw [flatMap_cons, eventTxs_append, eventTxs_events, flatMap_append, hspent, hspent']
      simp [startContext, hnone]

theorem ChainRun.coinbases (h : ChainRun blake2b params v j chain l events)
    (hplain : ∀ c ∈ chain, ∀ block ∈ c.blocks, block.Isolated) :
    (eventTxs events).filter (·.isCoinbase) = chain.map fun c => c.selectedParent.coinbase := by
  induction h with
  | nil => rfl
  | @cons j l c chain m diff trace utxo events computed start processed rest ih =>
    rw [forall_mem_cons] at hplain
    have haccepted : (acceptedOf trace).filter (·.isCoinbase) = [] := by
      rw [filter_eq_nil_iff]
      intro tx htx
      obtain ⟨block, hblock, btx, hbtx, rfl⟩ := processed.run.accepted_mem htx
      rw [processed.blocks] at hblock
      rw [(hplain.1 block hblock).plain btx hbtx]
      simp
    rw [eventTxs_append, filter_append, ih hplain.2, eventTxs_events,
      filter_cons_of_pos processed.reward, haccepted]
    rfl

theorem ChainRun.mem_chainTransactions (h : ChainRun blake2b params v j chain l events)
    (htx : tx ∈ eventTxs events) : tx ∈ chainTransactions chain := by
  induction h with
  | nil => cases htx
  | @cons j l c chain m diff trace utxo events computed start processed rest ih =>
    rw [chainTransactions, flatMap_cons, mem_append]
    rw [eventTxs_append, eventTxs_events, mem_append, mem_cons] at htx
    rcases htx with (rfl | htx) | htx
    · left
      exact mem_flatMap.mpr ⟨c.selectedParent, mem_cons_self, mem_cons_self⟩
    · left
      obtain ⟨block, hblock, btx, hbtx, rfl⟩ := processed.run.accepted_mem htx
      rw [processed.blocks] at hblock
      exact mem_flatMap.mpr ⟨block, hblock, mem_cons_of_mem _ (mem_map_of_mem hbtx)⟩
    · right
      exact ih htx

theorem ChainRun.inputs (h : ChainRun blake2b params v j chain l events)
    (hplain : ∀ c ∈ chain, ∀ block ∈ c.blocks, block.Isolated) {x : TxContext}
    (hx : accepted x ∈ events) : x.ptx.tx.inputs ≠ [] := by
  induction h with
  | nil => cases hx
  | @cons j l c chain m diff trace utxo events computed start processed rest ih =>
    rw [forall_mem_cons] at hplain
    rcases mem_append.mp hx with hx | hx
    · have htx : x.ptx.tx ∈ acceptedOf trace := by
        simp only [ChainBlock.events, mem_cons, reduceCtorEq, false_or, mem_flatMap,
          BlockTrace.events, mem_map, accepted.injEq] at hx
        obtain ⟨entry, hentry, p, hp, rfl⟩ := hx
        exact mem_flatMap.mpr ⟨entry, hentry, mem_map_of_mem hp⟩
      obtain ⟨block, hblock, btx, hbtx, heq⟩ := processed.run.accepted_mem htx
      rw [processed.blocks] at hblock
      rw [← heq]
      exact (hplain.1 block hblock).inputs btx hbtx
    · exact ih hplain.2 hx

theorem ChainRun.runOk (h : ChainRun blake2b params v j chain l events) (hok : ChainOk [] chain) :
    RunOk [] events := by
  constructor
  · intro tx htx tx' htx' hid
    exact hok.ids tx (h.mem_chainTransactions htx) tx' (h.mem_chainTransactions htx') hid
  · intro x hx
    exact h.inputs hok.isolated hx
  · rw [nil_append, h.coinbases hok.isolated, map_map]
    exact hok.blueScores

/-- Along a validated chain from genesis, processing never panics, and it accepts every id
once and spends every output once, while that output is unspent. -/
theorem chain_accepts_once {manager : CoinbaseManager} {blueScoreOf : Bytes32 → ℕ}
    {genesis : MergedBlock} (hchain : BodyValidated manager blueScoreOf genesis chain) :
    ∃ ms events l, processChain blake2b params v ⟨∅, .default⟩ chain = .ok ms ∧
      advanceAll blake2b params v ⟨∅, .default⟩ chain = .ok l ∧
      JointRun blake2b params ⟨∅, .default⟩ events l ∧
      (ms.flatMap (·.acceptedTxIds)).Perm ((eventTxs events).map (·.id)) ∧
      ms.flatMap (·.acceptedSpentOutpoints) = (eventTxs events).flatMap (·.spentOutpoints) ∧
      (ms.flatMap (·.acceptedTxIds)).Nodup ∧ (ms.flatMap (·.acceptedSpentOutpoints)).Nodup ∧
      ∀ before x after, events = before ++ .accepted x :: after →
        ∃ k, JointRun blake2b params ⟨∅, .default⟩ before k ∧
          ∀ p ∈ x.ptx.populatedInputs, k.utxo.lookup p.1.previousOutpoint = some p.2 := by
  have hok := hchain.chainOk
  obtain ⟨l, events, -, hrun, -, -⟩ :=
    @exists_chainRun blake2b params v _ [] chain Bound.genesis History.empty hok
  obtain ⟨ms, hms, hids, hspent⟩ := hrun.processChain
  have hsingly := hrun.jointRun.singly History.empty .nil (hrun.runOk hok)
  refine ⟨ms, events, l, hms, hrun.advanceAll, hrun.jointRun, hids, hspent, ?_, ?_, ?_⟩
  · exact hids.nodup_iff.mpr hsingly.ids
  · rw [hspent]
    exact hsingly.spent
  · intro before x after hsplit
    have hsteps := hrun.jointRun
    rw [hsplit] at hsteps
    obtain ⟨k, k', hbefore, hstep, -⟩ := hsteps.split
    cases hstep with
    | accepted plain unspent => exact ⟨k, hbefore, unspent⟩

end Chains

section Samples

open AtomicConsensusState

def sampleManager : CoinbaseManager := ⟨150, 204, 86400, 167300000000, 2629800, subsidyByMonthTable⟩

/-- The block `n` of a miner who is paid to a key, at the given score. -/
def minedBlock (n : UInt8) (score subsidy : ℕ) (rewards : List TransactionOutput)
    (txs : List Transaction) : MergedBlock :=
  ⟨⟨sampleId n, score, 0⟩, ⟨sampleId n, [], rewards, subnetworkIdCoinbase,
    toLeBytes 8 score ++ toLeBytes 8 subsidy ++ [0, 0, 34] ++ keyScript.script⟩, txs.map unlockedTx⟩

def minedGenesis : MergedBlock := minedBlock 200 0 100000000 [] []

/-- The reward of genesis is paid to a key, which spends it two blocks later. -/
def minedChain : List ChainBlock := [⟨minedGenesis, [], 1⟩,
    ⟨minedBlock 201 1 167300000000 [⟨100000000, keyScript⟩] [], [], 2⟩,
    ⟨minedBlock 202 2 167300000000 [⟨167300000000, keyScript⟩]
      [nativeTx (sampleId 7) ⟨sampleId 201, 0⟩ keyScript], [], 3⟩]

def minedScores (hash : Bytes32) : ℕ :=
  if hash = sampleId 201 then 1 else if hash = sampleId 202 then 2 else 0

theorem minedChain_validated : BodyValidated sampleManager minedScores minedGenesis minedChain := by
  constructor
  · decide +kernel
  · unfold UniqueIds
    decide +kernel
  · obtain ⟨data, hdata, hscore⟩ := @exists_ok_of_any _ _
      (sampleManager.deserializeCoinbasePayload minedGenesis.coinbase.payload)
      (fun data => data.blueScore = 0) (by decide +kernel)
    exact ⟨data, hdata, of_decide_eq_true hscore⟩
  · intro c hc block hblock
    simp only [minedChain, mem_cons, not_mem_nil, or_false] at hc
    rcases hc with rfl | rfl | rfl <;>
      simp only [ChainBlock.blocks, mem_cons, not_mem_nil, or_false] at hblock <;>
      subst hblock
    · exact Or.inl rfl
    · right
      decide +kernel
    · right
      decide +kernel
  · decide +kernel

/-- The reward of the genesis block is spent once. -/
theorem minedChain_accepts_once :
    ∃ ms, processChain zeroHash sampleParams sampleValidator ⟨∅, .default⟩ minedChain = .ok ms ∧
      ms.flatMap (·.acceptedSpentOutpoints) = [⟨sampleId 201, 0⟩] ∧
      (ms.flatMap (·.acceptedTxIds)).Nodup := by
  obtain ⟨ms, -, -, hms, -, -, -, -, hids, -⟩ := chain_accepts_once minedChain_validated
  have hspent : (processChain zeroHash sampleParams sampleValidator ⟨∅, .default⟩
      minedChain).toOption.map (·.flatMap (·.acceptedSpentOutpoints)) =
        some [⟨sampleId 201, 0⟩] := by
    decide +kernel
  rw [hms] at hspent
  exact ⟨ms, hms, Option.some.inj hspent, hids⟩

end Samples

end CryptixAtomic.Processor
