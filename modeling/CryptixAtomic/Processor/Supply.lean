import CryptixAtomic.Chain.MuHash
import CryptixAtomic.Processor.SingleAcceptance

/-!
# The native supply

Coins enter the UTXO set through the coinbases of selected parents only. What such a
coinbase pays was fixed one chain block earlier: the subsidies of the blocks merged there
and the fees accepted there, each block paid at most once. An accepted transaction takes
exactly its fee out of the set, token operations included.
-/
namespace CryptixAtomic.Processor

open Foundation Transition BlockRewardData CoinbaseManager List Option FMap

def nativeSupply (utxo : UtxoCollection) : ℕ := FMap.total (fun _ e => e.amount) utxo

def outputTotal (tx : Transaction) : ℕ := (tx.outputs.map (·.value)).sum

def inputTotal (ptx : PopulatedTransaction) : ℕ := (ptx.entries.map (·.amount)).sum

def acceptedFees (m : UtxoProcessingContext) : ℕ := (m.mergesetFees.map Prod.snd).sum

section Fees

variable {blake2b : Blake2b} {params : AtomicParams} {v : ValidatorParams}

theorem sumInputAmounts_eq_ok {entries : List UtxoEntry} {total result : ℕ}
    (h : sumInputAmounts entries total = .ok result) :
    result = total + (entries.map (·.amount)).sum := by
  induction entries generalizing total with
  | nil =>
    rw [sumInputAmounts, Except.ok.injEq] at h
    simp [h]
  | cons entry entries ih =>
    rw [sumInputAmounts] at h
    split at h
    · cases h
    · rename_i newTotal hadd
      rw [checkedAdd_eq_some] at hadd
      split_ifs at h
      rw [ih h, ← hadd.2, map_cons, sum_cons, add_assoc]

variable {flags : TxValidationFlags}

theorem validatePopulated_fee {ptx : PopulatedTransaction} {witness : TxWitness}
    {povDaaScore fee : ℕ}
    (h : validatePopulatedTransactionAndGetFee blake2b params v ptx witness povDaaScore flags =
      .ok fee) : outputTotal ptx.tx + fee = inputTotal ptx := by
  simp only [validatePopulatedTransactionAndGetFee, except_bind_eq_ok] at h
  obtain ⟨_, -, _, -, totalIn, hin, totalOut, hout, hrest⟩ := h
  -- the remaining checks return nothing
  have hfee : totalIn - totalOut = fee := by
    split_ifs at hrest <;> cases flags <;>
      simp only [except_bind_eq_ok, except_pure_eq_ok] at hrest <;> tauto
  rw [checkTransactionOutputValues] at hout
  split_ifs at hout with hlt
  rw [Except.ok.injEq] at hout
  have htotal := sumInputAmounts_eq_ok hin
  rw [inputTotal, outputTotal]
  omega

theorem fee_of_mem_validated {txs : List BlockTransaction} {view : UtxoView} {povDaaScore : ℕ}
    {p : ValidatedTransaction × ℕ}
    (h : p ∈ validateTransactionsInParallel blake2b params v txs view povDaaScore flags) :
    outputTotal p.1.ptx.tx + p.1.calculatedFee = inputTotal p.1.ptx := by
  obtain ⟨⟨btx, i⟩, -, hvalid⟩ := mem_filterMap.mp h
  obtain ⟨validated, hok, rfl⟩ := map_eq_some_iff.mp hvalid
  rw [validateTransactionInUtxoContext] at hok
  split at hok
  · cases hok
  · rename_i ptx hptx
    cases hfee : validatePopulatedTransactionAndGetFee blake2b params v ptx btx.witness povDaaScore
        flags with
    | error =>
      rw [hfee] at hok
      cases hok
    | ok =>
      rw [hfee] at hok
      cases hok
      exact validatePopulated_fee hfee

end Fees

variable {m : UtxoProcessingContext}

section Accounting

variable {blake2b : Blake2b} {params : AtomicParams} {v : ValidatorParams} {base : UtxoView}
  {povDaaScore : ℕ} {utxo utxo' : UtxoCollection}

theorem sum_createdEntries_amount (tx : Transaction) (daaScore : ℕ) :
    ((tx.createdEntries daaScore).map fun e => e.2.amount).sum = outputTotal tx := by
  rw [Transaction.createdEntries, List.map_map, outputTotal]
  conv_rhs => rw [← List.zipIdx_map_fst 0 tx.outputs, List.map_map]
  rfl

theorem sum_populatedInputs_amount (ptx : PopulatedTransaction) :
    (ptx.populatedInputs.map fun p => p.2.amount).sum = inputTotal ptx := by
  have hsnd : ptx.populatedInputs.map Prod.snd = ptx.entries :=
    List.map_snd_zip (le_of_eq ptx.aligned.symm)
  rw [inputTotal, ← hsnd, List.map_map]
  rfl

theorem nativeSupply_apply {ptx : PopulatedTransaction} (daaScore : ℕ)
    (hunspent : ptx.UnspentIn utxo) (hdistinct : ptx.tx.spentOutpoints.Nodup)
    (hfresh : ∀ i, utxo.lookup (ptx.tx.outpoint i) = none) :
    nativeSupply (utxo.applyTransaction ptx.tx daaScore) + inputTotal ptx =
      nativeSupply utxo + outputTotal ptx.tx := by
  rw [← sum_createdEntries_amount ptx.tx daaScore, ← sum_populatedInputs_amount ptx]
  exact total_applyTransaction (fun _ e => e.amount) daaScore hunspent hdistinct hfresh

theorem nativeSupply_coinbase {tx : Transaction} (daaScore : ℕ) (hinputs : tx.inputs = [])
    (hfresh : ∀ i, utxo.lookup (tx.outpoint i) = none) :
    nativeSupply (utxo.applyTransaction tx daaScore) = nativeSupply utxo + outputTotal tx := by
  rw [← sum_createdEntries_amount tx daaScore]
  exact total_coinbase _ daaScore hinputs hfresh

theorem BlockRun.nativeSupply {ctx : AtomicCreationContext} {b b' : BlockLoop}
    {accepted : List (ValidatedTransaction × ℕ)}
    (h : BlockRun blake2b params base povDaaScore ctx utxo b accepted utxo' b')
    (hfees : ∀ p ∈ accepted, outputTotal p.1.ptx.tx + p.1.calculatedFee = inputTotal p.1.ptx) :
    nativeSupply utxo' + b'.blockFee = nativeSupply utxo + b.blockFee := by
  induction h with
  | nil => rfl
  | cons step rest ih =>
    rw [forall_mem_cons] at hfees
    have hmoved := nativeSupply_apply povDaaScore step.unspent step.distinct step.fresh
    have hrest := ih hfees.2
    rw [step.fee] at hrest
    omega

theorem MergeRun.nativeSupply {m' : UtxoProcessingContext} {trace : List BlockTrace}
    (h : MergeRun blake2b params base povDaaScore utxo m trace utxo' m')
    (hvalid : Validated blake2b params v povDaaScore trace) :
    nativeSupply utxo' + acceptedFees m' = nativeSupply utxo + acceptedFees m := by
  induction h with
  | nil => rfl
  | @cons utxo mid utxo' m m' b entry rest run indices tail ih =>
    have hblock := run.nativeSupply fun p hp => by
      obtain ⟨view, flags, hmem⟩ := hvalid entry mem_cons_self p hp
      exact fee_of_mem_validated hmem
    have hrest := ih fun e he => hvalid e (mem_cons_of_mem entry he)
    have hclosed : acceptedFees (m.closeBlock entry.isSelectedParent entry.block b) =
        acceptedFees m + b.blockFee := by
      simp [acceptedFees, UtxoProcessingContext.closeBlock]
    have hopen : m.openBlock.blockFee = 0 := rfl
    omega

end Accounting

section Rewards

variable {manager : CoinbaseManager}

theorem sum_rewards_le (rewards : FMap Bytes32 BlockRewardData) {hashes : List Bytes32}
    (hdistinct : hashes.Nodup) {data : List BlockRewardData}
    (hdata : hashes.mapM rewards.lookup = some data) :
    (data.map reward).sum ≤ FMap.total (fun _ (r : BlockRewardData) => r.reward) rewards := by
  have hsum : ∀ {hashes : List Bytes32} {data : List BlockRewardData},
      hashes.mapM rewards.lookup = some data → (data.map reward).sum =
        (hashes.map fun h => weight (fun _ (r : BlockRewardData) => r.reward) h
          (rewards.lookup h)).sum := by
    intro hashes
    induction hashes with
    | nil =>
      intro data h
      cases h
      rfl
    | cons hash hashes ih =>
      intro data h
      rw [List.mapM_cons] at h
      simp only [Option.bind_eq_bind, Option.bind_eq_some_iff, Option.pure_def,
        Option.some.injEq] at h
      obtain ⟨r, hr, rest, hrest, rfl⟩ := h
      simp [ih hrest, hr]
  have htotal := FMap.total_eraseAll (fun _ (r : BlockRewardData) => r.reward) rewards hdistinct
  rw [hsum hdata]
  omega

theorem sum_filter_pos (data : List BlockRewardData) :
    ((data.filter (·.reward > 0)).map reward).sum = (data.map reward).sum := by
  induction data with
  | nil => rfl
  | cons r data ih =>
    by_cases hpos : r.reward > 0
    · simp [hpos, ih]
    · have hzero : r.reward = 0 := by omega
      simp [hzero, ih]

theorem expectedCoinbase_le {daaScore : ℕ} {minerData : MinerData} {colours : MergesetColours}
    {rewards : FMap Bytes32 BlockRewardData} {nonDaa : Finset Bytes32}
    {template : CoinbaseTransactionTemplate}
    (hdistinct : (colours.mergesetBlues ++ colours.mergesetReds).Nodup)
    (h : manager.expectedCoinbaseTransaction daaScore minerData colours rewards nonDaa =
      some (.ok template)) :
    (template.tx.outputs.map (·.value)).sum ≤
      FMap.total (fun _ (r : BlockRewardData) => r.reward) rewards := by
  simp only [expectedCoinbaseTransaction, Option.bind_eq_bind,
    Option.bind_eq_some_iff, Option.pure_def, Option.some.injEq, except_bind_eq_ok,
    except_pure_eq_ok] at h
  obtain ⟨blues, hblues, reds, hreds, payload, -, rfl⟩ := h
  have hall : ((colours.mergesetBlues ++ colours.mergesetReds).filter (· ∉ nonDaa)).mapM
      rewards.lookup = some (blues ++ reds) := by
    rw [rewardsOf] at hblues hreds
    rw [filter_append, mapM_append, hblues, hreds]
    rfl
  have hle := sum_rewards_le rewards (hdistinct.filter _) hall
  rw [map_append, sum_append] at hle
  have hblue : ((blues.filter (·.reward > 0)).map fun r => r.reward).sum =
      (blues.map reward).sum := sum_filter_pos blues
  simp only [map_append, List.map_map, sum_append, Function.comp_def]
  split_ifs with hpos
  · simp only [map_cons, map_nil, sum_cons, sum_nil]
    omega
  · simp only [map_nil, sum_nil]
    omega

theorem mergesetRewards_le {blocks : List MergedBlock} {fees : List (Bytes32 × ℕ)}
    {rewards result : FMap Bytes32 BlockRewardData} (hsubsidy : ∀ block ∈ blocks, ∀ data,
      manager.deserializeCoinbasePayload block.coinbase.payload = .ok data →
      data.subsidy ≤ manager.calcBlockSubsidy block.ctx.sourceBlockDaaScore)
    (h : manager.mergesetRewards blocks fees rewards = some result) :
    FMap.total (fun _ (r : BlockRewardData) => r.reward) result ≤
      FMap.total (fun _ (r : BlockRewardData) => r.reward) rewards +
        (blocks.map fun block => manager.calcBlockSubsidy block.ctx.sourceBlockDaaScore).sum +
        (fees.map Prod.snd).sum := by
  induction blocks generalizing fees rewards with
  | nil =>
    rw [mergesetRewards, Option.some.injEq] at h
    · rw [h]
      omega
    · simp
  | cons block blocks ih =>
    rw [forall_mem_cons] at hsubsidy
    cases fees with
    | nil =>
      rw [mergesetRewards, Option.some.injEq] at h
      · rw [h]
        omega
      · simp
    | cons fee =>
      rw [mergesetRewards] at h
      simp only [Option.bind_eq_bind, Option.bind_eq_some_iff] at h
      obtain ⟨reward, hreward, hrest⟩ := h
      obtain ⟨data, hdata, rfl⟩ := map_eq_some_iff.mp hreward
      have hone : data.subsidy ≤ manager.calcBlockSubsidy block.ctx.sourceBlockDaaScore := by
        cases hread : manager.deserializeCoinbasePayload block.coinbase.payload with
        | error =>
          rw [hread] at hdata
          cases hdata
        | ok =>
          rw [hread] at hdata
          cases hdata
          exact hsubsidy.1 data hread
      have hle := ih hsubsidy.2 hrest
      have hinsert := total_assign (fun _ (r : BlockRewardData) => r.reward) rewards
        block.ctx.sourceBlockHash
        (some ⟨data.subsidy, fee.2, data.minerData.scriptPublicKey⟩)
      simp only [weight_some, FMap.assign, reward] at hinsert
      simp only [map_cons, sum_cons]
      simp only [reward] at hle ⊢
      omega

end Rewards

/-- A chain block: its mergeset with the colours, and the merged blocks outside the
difficulty window. -/
structure RewardingBlock where
  hash : Bytes32
  mergeset : ChainBlock
  colours : MergesetColours
  nonDaa : Finset Bytes32

namespace RewardingBlock

variable (manager : CoinbaseManager) (l : RewardingBlock)

def selectedParent : MergedBlock := l.mergeset.selectedParent

def merged : List Bytes32 := l.mergeset.blocks.map (·.ctx.sourceBlockHash)

/-- The blocks that the coinbase of this block pays. -/
def rewarded : List Bytes32 :=
  (l.colours.mergesetBlues ++ l.colours.mergesetReds).filter (· ∉ l.nonDaa)

def subsidies : ℕ :=
  (l.mergeset.blocks.map fun block => manager.calcBlockSubsidy block.ctx.sourceBlockDaaScore).sum

/-- The mergeset is what the past of the block has beyond the past of its selected parent,
and every merged block has one colour. -/
structure MergesOnce (past : Bytes32 → Finset Bytes32) : Prop where
  distinct : l.merged.Nodup
  mem : ∀ hash, hash ∈ l.merged ↔
    hash ∈ past l.hash ∧ hash ∉ past l.selectedParent.ctx.sourceBlockHash
  grows : past l.selectedParent.ctx.sourceBlockHash ⊆ past l.hash
  coloured : (l.colours.mergesetBlues ++ l.colours.mergesetReds).Perm l.merged

/-- The block `l`, with the context `m` computed for it, passed the check of its coinbase, and
is the selected parent of `child`. The hash has no collision between the two
transactions that are compared. -/
structure CoinbaseVerified (txHash : TransactionContent → Bytes32) (m : UtxoProcessingContext)
    (child : RewardingBlock) : Prop where
  parent : child.selectedParent.ctx.sourceBlockHash = l.hash
  verified : ∃ rewards, manager.mergesetRewards l.mergeset.blocks m.mergesetFees ∅ = some rewards ∧
    manager.verifyCoinbaseTransaction txHash child.selectedParent.coinbase
      child.selectedParent.ctx.sourceBlockDaaScore l.colours rewards l.nonDaa = some (.ok ()) ∧
    ∀ data template,
      manager.deserializeCoinbasePayload child.selectedParent.coinbase.payload = .ok data →
      manager.expectedCoinbaseTransaction child.selectedParent.ctx.sourceBlockDaaScore
        data.minerData l.colours rewards l.nonDaa = some (.ok template) →
      txHash (.of child.selectedParent.coinbase) = txHash template.tx →
      TransactionContent.of child.selectedParent.coinbase = template.tx

end RewardingBlock

/-- A chain from genesis whose blocks passed the coinbase checks. -/
structure RewardedChain (manager : CoinbaseManager) (txHash : TransactionContent → Bytes32)
    (blueScoreOf : Bytes32 → ℕ) (genesis : MergedBlock) (past : Bytes32 → Finset Bytes32)
    (links : List RewardingBlock) (ms : List UtxoProcessingContext) : Prop where
  validated : BodyValidated manager blueScoreOf genesis (links.map (·.mergeset))
  genesisSubsidy : ∀ data, manager.deserializeCoinbasePayload genesis.coinbase.payload = .ok data →
    data.subsidy ≤ manager.calcBlockSubsidy genesis.ctx.sourceBlockDaaScore
  first : ∀ l ∈ links.head?, l.selectedParent = genesis
  merges : ∀ l ∈ links, l.MergesOnce past
  rewards : ∀ q ∈ (links.zip ms).zip links.tail, q.1.1.CoinbaseVerified manager txHash q.1.2 q.2

variable {txHash : TransactionContent → Bytes32}

section Chains

variable {blake2b : Blake2b} {params : AtomicParams} {v : ValidatorParams}
  {manager : CoinbaseManager}

theorem RewardingBlock.CoinbaseVerified.outputTotal_le {l child : RewardingBlock}
    (h : l.CoinbaseVerified manager txHash m child)
    (hdistinct : (l.colours.mergesetBlues ++ l.colours.mergesetReds).Nodup)
    (hsubsidy : ∀ block ∈ l.mergeset.blocks, ∀ data,
      manager.deserializeCoinbasePayload block.coinbase.payload = .ok data →
      data.subsidy ≤ manager.calcBlockSubsidy block.ctx.sourceBlockDaaScore) :
    outputTotal child.selectedParent.coinbase ≤ l.subsidies manager + acceptedFees m := by
  obtain ⟨rewards, hrewards, hverified, hcollision⟩ := h.verified
  simp only [verifyCoinbaseTransaction, Option.bind_eq_bind,
    Option.bind_eq_some_iff, Option.pure_def, Option.some.injEq, failIf_eq_ok, ne_eq,
    not_not] at hverified
  obtain ⟨data, hdata, expected, hexpected, template, htemplate, hhash⟩ := hverified
  cases expected with
  | error => cases htemplate
  | ok =>
    cases htemplate
    have hread : manager.deserializeCoinbasePayload child.selectedParent.coinbase.payload =
        .ok data := by
      cases hpayload : manager.deserializeCoinbasePayload child.selectedParent.coinbase.payload with
      | error =>
        rw [hpayload] at hdata
        cases hdata
      | ok =>
        rw [hpayload] at hdata
        cases hdata
        rfl
    have hsame := hcollision _ _ hread hexpected hhash
    have hpaid := expectedCoinbase_le hdistinct hexpected
    have howed := mergesetRewards_le hsubsidy hrewards
    rw [total_empty, zero_add] at howed
    rw [← hsame] at hpaid
    exact hpaid.trans howed

variable {ms : List UtxoProcessingContext} {past : Bytes32 → Finset Bytes32}
  {links : List RewardingBlock}

theorem length_processChain {j : JointState} {chain : List ChainBlock}
    (h : processChain blake2b params v j chain = .ok ms) :
    ms.length = chain.length := by
  induction chain generalizing j ms with
  | nil =>
    cases h
    rfl
  | cons c chain ih =>
    rw [processChain, except_bind_eq_ok] at h
    obtain ⟨m, -, h⟩ := h
    rw [except_bind_eq_ok] at h
    obtain ⟨ms', hms', hcons⟩ := h
    rw [except_pure_eq_ok] at hcons
    rw [← hcons, length_cons, length_cons, ih hms']

/-- Processing a chain moves coins as follows: `bound` covers the coins at the start and what
the first coinbase pays, and each later coinbase is covered by the mergeset before it. -/
theorem supply_run {links : List RewardingBlock} {ms : List UtxoProcessingContext}
    {j : JointState} {past : List Transaction} {bound : ℕ} (hbound : Bound j)
    (hhistory : History past j.utxo) (hchain : ChainOk past (links.map (·.mergeset)))
    (hms : processChain blake2b params v j (links.map (·.mergeset)) = .ok ms)
    (hpaid : ∀ q ∈ (links.zip ms).zip links.tail,
      outputTotal q.2.selectedParent.coinbase ≤ q.1.1.subsidies manager + acceptedFees q.1.2)
    (hstart : ∀ l ∈ links.head?,
      nativeSupply j.utxo + outputTotal l.selectedParent.coinbase ≤ bound) :
    ∃ k events, advanceAll blake2b params v j (links.map (·.mergeset)) = .ok k ∧
      JointRun blake2b params j events k ∧
      (∀ x, JointEvent.accepted x ∈ events → outputTotal x.ptx.tx ≤ inputTotal x.ptx) ∧
      ∀ m ∈ ms.getLast?, nativeSupply k.utxo + acceptedFees m ≤
        bound + (links.dropLast.map (·.subsidies manager)).sum := by
  induction links generalizing j past ms bound with
  | nil =>
    cases hms
    exact ⟨j, [], rfl, .nil j, by simp, by simp⟩
  | cons l links ih =>
    rw [map_cons] at hchain hms
    obtain ⟨m, diff, trace, utxo, hcomputed, hdiff, hprocessed, hbound', hhistory', hrest,
      hvalid, -⟩ := calculateUtxoState_run blake2b params v hbound hhistory hchain
    have hutxo : m.mergesetDiff.applyTo j.utxo = utxo :=
      (hprocessed.sound.from_shows hprocessed.shows).applyTo_eq
    rw [processChain, hcomputed] at hms
    change (processChain blake2b params v ⟨m.mergesetDiff.applyTo j.utxo, m.atomicState⟩
      (links.map (·.mergeset)) >>= _) = _ at hms
    rw [hutxo, except_bind_eq_ok] at hms
    obtain ⟨ms', hms', hcons⟩ := hms
    rw [except_pure_eq_ok] at hcons
    subst hcons
    -- the coins of this chain block
    have hsupply : nativeSupply utxo + acceptedFees m =
        nativeSupply j.utxo + outputTotal l.selectedParent.coinbase := by
      have hrun := hprocessed.run.nativeSupply hvalid
      rw [nativeSupply_coinbase _ hprocessed.noInputs hprocessed.fresh] at hrun
      exact hrun
    have hfirst := hstart l rfl
    have hbalanced : ∀ x, JointEvent.accepted x ∈ l.mergeset.events trace →
        outputTotal x.ptx.tx ≤ inputTotal x.ptx := by
      intro x hx
      simp only [ChainBlock.events, List.mem_cons, reduceCtorEq, false_or, List.mem_flatMap,
        BlockTrace.events, List.mem_map, JointEvent.accepted.injEq] at hx
      obtain ⟨entry, hentry, p, hp, rfl⟩ := hx
      obtain ⟨view, flags, hmem⟩ := hvalid entry hentry p hp
      exact Nat.le.intro (fee_of_mem_validated hmem)
    have hsame : acceptedFees { m with acceptedTxIds := m.acceptedTxIds.mergeSort (· ≤ ·) } =
        acceptedFees m := rfl
    have hnext : ∀ l' ∈ links.head?, nativeSupply utxo + outputTotal l'.selectedParent.coinbase ≤
        bound + l.subsidies manager := by
      intro l' hl'
      cases links with
      | nil => cases hl'
      | cons l'' rest =>
        cases hl'
        have hcovered := hpaid ((l, _), l') mem_cons_self
        simp only [hsame] at hcovered
        omega
    obtain ⟨k, events, hadvance, hrun, hevents, hlast⟩ := @ih ms' ⟨utxo, m.atomicState⟩ _
      (bound + l.subsidies manager) hbound' hhistory' hrest hms' (by
        intro q hq
        apply hpaid q
        cases links with
        | nil => simp at hq
        | cons =>
          cases ms' with
          | nil => simp at hq
          | cons =>
            rw [tail_cons, zip_cons_cons, zip_cons_cons]
            exact mem_cons_of_mem _ hq) hnext
    refine ⟨k, l.mergeset.events trace ++ events, ?_, hprocessed.jointRun.append hrun, ?_, ?_⟩
    · rw [map_cons, advanceAll, advance, hcomputed]
      change advanceAll blake2b params v ⟨m.mergesetDiff.applyTo j.utxo, m.atomicState⟩ _ = _
      rw [hutxo]
      exact hadvance
    · exact fun x hx => (mem_append.mp hx).elim (hbalanced x) (hevents x)
    · intro m' hm'
      cases links with
      | nil =>
        cases hms'
        cases hadvance
        rw [getLast?_singleton, mem_some_iff] at hm'
        subst hm'
        simp only [dropLast_singleton, map_nil, sum_nil, hsame]
        omega
      | cons =>
        have hne : ms' ≠ [] := by
          rintro rfl
          have hlength := length_processChain hms'
          simp at hlength
        rw [getLast?_cons_of_ne_nil hne] at hm'
        have hle := hlast m' hm'
        rw [dropLast_cons_cons, map_cons, sum_cons]
        omega

theorem links_ordered (hlength : ms.length = links.length)
    (hmerges : ∀ l ∈ links, l.MergesOnce past) (hlinked : ∀ q ∈ (links.zip ms).zip links.tail,
      q.2.selectedParent.ctx.sourceBlockHash = q.1.1.hash) :
    links.Pairwise fun l l' => past l.hash ⊆ past l'.selectedParent.ctx.sourceBlockHash := by
  induction links generalizing ms with
  | nil => exact .nil
  | cons l links ih =>
    obtain ⟨m, ms, rfl⟩ := exists_cons_of_length_eq_add_one hlength
    rw [forall_mem_cons] at hmerges
    cases links with
    | nil => exact pairwise_singleton _ l
    | cons l' rest =>
      obtain ⟨m', ms, rfl⟩ :=
        exists_cons_of_length_eq_add_one (by simpa using hlength : ms.length = rest.length + 1)
      rw [tail_cons, zip_cons_cons, zip_cons_cons, forall_mem_cons] at hlinked
      have hrest := @ih (m' :: ms) (by simpa using hlength) hmerges.2 hlinked.2
      rw [pairwise_cons]
      refine ⟨?_, hrest⟩
      intro l'' hl''
      have hhead : past l.hash ⊆ past l'.selectedParent.ctx.sourceBlockHash := by
        rw [hlinked.1]
      rcases List.mem_cons.mp hl'' with rfl | hl''
      · exact hhead
      · have hgrows := (hmerges.2 l' mem_cons_self).grows
        exact (hhead.trans hgrows).trans ((pairwise_cons.mp hrest).1 l'' hl'')

theorem nodup_merged (hlength : ms.length = links.length) (hmerges : ∀ l ∈ links, l.MergesOnce past)
    (hlinked : ∀ q ∈ (links.zip ms).zip links.tail,
      q.2.selectedParent.ctx.sourceBlockHash = q.1.1.hash) :
    (links.flatMap (·.merged)).Nodup := by
  rw [nodup_flatMap]
  refine ⟨fun l hl => (hmerges l hl).distinct, ?_⟩
  apply (links_ordered hlength hmerges hlinked).imp_of_mem
  intro l l' hl hl' hsub hash hmem hmem'
  have hold := ((hmerges l hl).mem hash).mp hmem
  have hnew := ((hmerges l' hl').mem hash).mp hmem'
  exact hnew.2 (hsub hold.1)

theorem nodup_rewarded
    (hmerges : ∀ l ∈ links, l.MergesOnce past) (hmerged : (links.flatMap (·.merged)).Nodup) :
    (links.flatMap (·.rewarded)).Nodup := by
  rw [nodup_flatMap] at hmerged ⊢
  have hsub : ∀ l ∈ links, ∀ hash ∈ l.rewarded, hash ∈ l.merged := by
    intro l hl hash hmem
    exact (hmerges l hl).coloured.mem_iff.mp (mem_filter.mp hmem).1
  constructor
  · intro l hl
    exact ((hmerges l hl).coloured.nodup_iff.mpr (hmerges l hl).distinct).filter _
  · apply hmerged.2.imp_of_mem
    intro l l' hl hl' hdisjoint hash hmem hmem'
    exact hdisjoint (hsub l hl hash hmem) (hsub l' hl' hash hmem')

/-- After every chain from genesis whose blocks passed the coinbase checks, the coins of the
UTXO set and the accepted fees that no coinbase has paid out yet are covered by the genesis
outputs and the subsidies of the blocks merged up to the selected parent; every block is
merged and paid at most once, and no accepted transaction creates coins. -/
theorem native_supply_bounded {txHash : TransactionContent → Bytes32} {blueScoreOf : Bytes32 → ℕ}
    {genesis : MergedBlock} {past : Bytes32 → Finset Bytes32} {links : List RewardingBlock}
    {ms : List UtxoProcessingContext}
    (hms : processChain blake2b params v ⟨∅, .default⟩ (links.map (·.mergeset)) = .ok ms)
    (h : RewardedChain manager txHash blueScoreOf genesis past links ms) :
    ∃ k events, advanceAll blake2b params v ⟨∅, .default⟩ (links.map (·.mergeset)) = .ok k ∧
      JointRun blake2b params ⟨∅, .default⟩ events k ∧
      (∀ x, JointEvent.accepted x ∈ events → outputTotal x.ptx.tx ≤ inputTotal x.ptx) ∧
      (∀ m ∈ ms.getLast?, nativeSupply k.utxo + acceptedFees m ≤
        outputTotal genesis.coinbase + (links.dropLast.map (·.subsidies manager)).sum) ∧
      (links.flatMap (·.merged)).Nodup ∧ (links.flatMap (·.rewarded)).Nodup := by
  have hlength : ms.length = links.length := by
    rw [length_processChain hms, length_map]
  have hmerged := nodup_merged hlength h.merges fun q hq => (h.rewards q hq).parent
  have hsubsidy : ∀ l ∈ links, ∀ block ∈ l.mergeset.blocks, ∀ data,
      manager.deserializeCoinbasePayload block.coinbase.payload = .ok data →
      data.subsidy ≤ manager.calcBlockSubsidy block.ctx.sourceBlockDaaScore := by
    intro l hl block hblock data hdata
    rcases h.validated.checked l.mergeset (mem_map_of_mem hl) block hblock with rfl | hcheck
    · exact h.genesisSubsidy data hdata
    · obtain ⟨data', hdata', -, heq⟩ := checkCoinbase_eq_ok.mp hcheck
      rw [hdata, Except.ok.injEq] at hdata'
      rw [hdata', heq]
  have hpaid : ∀ q ∈ (links.zip ms).zip links.tail,
      outputTotal q.2.selectedParent.coinbase ≤ q.1.1.subsidies manager + acceptedFees q.1.2 := by
    intro q hq
    have hl : q.1.1 ∈ links := (of_mem_zip (of_mem_zip hq).1).1
    have hmerges := h.merges _ hl
    exact (h.rewards q hq).outputTotal_le (hmerges.coloured.nodup_iff.mpr hmerges.distinct)
      (hsubsidy _ hl)
  have hstart : ∀ l ∈ links.head?, nativeSupply (∅ : UtxoCollection) +
      outputTotal l.selectedParent.coinbase ≤ outputTotal genesis.coinbase := by
    intro l hl
    rw [h.first l hl, nativeSupply, total_empty, zero_add]
  obtain ⟨k, events, hadvance, hrun, hbalanced, hbounded⟩ := @supply_run blake2b params v manager
    links ms ⟨∅, .default⟩ [] (outputTotal genesis.coinbase) Bound.genesis History.empty
    h.validated.chainOk hms hpaid hstart
  exact ⟨k, events, hadvance, hrun, hbalanced, hbounded, hmerged, nodup_rewarded h.merges hmerged⟩

end Chains

section Samples

open AtomicConsensusState

/-- The mined chain: every block merges its selected parent only. -/
def minedLinks : List RewardingBlock :=
  [⟨sampleId 201, ⟨minedGenesis, [], 1⟩, ⟨[sampleId 200], [], 1⟩, ∅⟩,
    ⟨sampleId 202, ⟨minedBlock 201 1 167300000000 [⟨100000000, keyScript⟩] [], [], 2⟩,
      ⟨[sampleId 201], [], 2⟩, ∅⟩,
    ⟨sampleId 203, ⟨minedBlock 202 2 167300000000 [⟨167300000000, keyScript⟩]
      [nativeTx (sampleId 7) ⟨sampleId 201, 0⟩ keyScript], [], 3⟩, ⟨[sampleId 202], [], 3⟩, ∅⟩]

def minedPast (hash : Bytes32) : Finset Bytes32 :=
  if hash = sampleId 201 then {sampleId 200}
  else if hash = sampleId 202 then {sampleId 200, sampleId 201}
  else if hash = sampleId 203 then {sampleId 200, sampleId 201, sampleId 202} else ∅

theorem minedLinks_mergesOnce : ∀ l ∈ minedLinks, l.MergesOnce minedPast := by
  have hmem : ∀ l ∈ minedLinks, l.merged.toFinset =
      minedPast l.hash \ minedPast l.selectedParent.ctx.sourceBlockHash := by decide +kernel
  have hdistinct : ∀ l ∈ minedLinks, l.merged.Nodup := by decide +kernel
  have hgrows : ∀ l ∈ minedLinks,
      minedPast l.selectedParent.ctx.sourceBlockHash ⊆ minedPast l.hash := by decide +kernel
  have hcoloured : ∀ l ∈ minedLinks,
      (l.colours.mergesetBlues ++ l.colours.mergesetReds).Perm l.merged := by decide +kernel
  intro l hl
  refine ⟨hdistinct l hl, ?_, hgrows l hl, hcoloured l hl⟩
  intro hash
  rw [← List.mem_toFinset, hmem l hl, Finset.mem_sdiff]

/-- The coinbase that the check expects, if it can be computed. -/
def expectedFor (l : RewardingBlock) (fees : List (Bytes32 × ℕ)) (child : RewardingBlock) :
    Option CoinbaseTransactionTemplate := do
  let rewards ← sampleManager.mergesetRewards l.mergeset.blocks fees ∅
  let data ← (sampleManager.deserializeCoinbasePayload child.selectedParent.coinbase.payload).toOption
  let expected ← sampleManager.expectedCoinbaseTransaction
    child.selectedParent.ctx.sourceBlockDaaScore data.minerData l.colours rewards l.nonDaa
  expected.toOption

theorem coinbaseVerified_of_expected {l child : RewardingBlock}
    (hparent : child.selectedParent.ctx.sourceBlockHash = l.hash)
    (h : (expectedFor l m.mergesetFees child).map (·.tx) =
      some (.of child.selectedParent.coinbase)) :
    l.CoinbaseVerified sampleManager txHash m child := by
  obtain ⟨template, htemplate, htx⟩ := map_eq_some_iff.mp h
  simp only [expectedFor, Option.bind_eq_bind, Option.bind_eq_some_iff] at htemplate
  obtain ⟨rewards, hrewards, data, hdata, expected, hexpected, hok⟩ := htemplate
  refine ⟨hparent, rewards, hrewards, ?_, ?_⟩
  · simp [verifyCoinbaseTransaction, hdata, hexpected, hok, htx, failIf]
  · intro data' template' hdata' hexpected' _
    rw [hdata'] at hdata
    cases hdata
    rw [hexpected', Option.some.injEq] at hexpected
    rw [← hexpected] at hok
    cases hok
    exact htx.symm

/-- The supply after the mined chain, whose last block has accepted a fee. -/
theorem minedLinks_supply_bounded :
    ∃ (ms : List UtxoProcessingContext) (m : UtxoProcessingContext) (k : JointState),
      processChain zeroHash sampleParams sampleValidator ⟨∅, .default⟩
        (minedLinks.map (·.mergeset)) = .ok ms ∧ m ∈ ms.getLast? ∧ acceptedFees m = 99999000 ∧
      advanceAll zeroHash sampleParams sampleValidator ⟨∅, .default⟩ (minedLinks.map (·.mergeset)) =
        .ok k ∧ nativeSupply k.utxo + acceptedFees m ≤ 334600000000 := by
  obtain ⟨l, events, -, hrun, -⟩ := @exists_chainRun zeroHash sampleParams sampleValidator
    ⟨∅, .default⟩ [] minedChain Bound.genesis History.empty minedChain_validated.chainOk
  obtain ⟨ms, hms, -⟩ := hrun.processChain
  have hfees : (processChain zeroHash sampleParams sampleValidator ⟨∅, .default⟩
      minedChain).toOption.map (·.map (·.mergesetFees)) =
        some [[(sampleId 200, 0)], [(sampleId 201, 0)], [(sampleId 202, 99999000)]] := by
    decide +kernel
  rw [hms] at hfees
  have hlist := some.inj hfees
  obtain ⟨m₁, ms₁, rfl, h₁, hlist⟩ := map_eq_cons_iff.mp hlist
  obtain ⟨m₂, ms₂, rfl, h₂, hlist⟩ := map_eq_cons_iff.mp hlist
  obtain ⟨m₃, ms₃, rfl, h₃, hlist⟩ := map_eq_cons_iff.mp hlist
  obtain rfl := map_eq_nil_iff.mp hlist
  have hrewarded : RewardedChain sampleManager (fun _ => zero32) minedScores minedGenesis minedPast
      minedLinks [m₁, m₂, m₃] := by
    constructor
    · exact minedChain_validated
    · intro data hdata
      have hsubsidy : (sampleManager.deserializeCoinbasePayload
          minedGenesis.coinbase.payload).toOption.all (fun data => data.subsidy ≤
            sampleManager.calcBlockSubsidy minedGenesis.ctx.sourceBlockDaaScore) = true := by
        decide +kernel
      rw [hdata] at hsubsidy
      exact of_decide_eq_true hsubsidy
    · intro l hl
      obtain rfl := some.inj hl
      rfl
    · exact minedLinks_mergesOnce
    · intro q hq
      simp only [minedLinks, zip_cons_cons, tail_cons, zip_nil_right,
        List.mem_cons, not_mem_nil, or_false] at hq
      rcases hq with rfl | rfl
      · apply coinbaseVerified_of_expected rfl
        rw [h₁]
        dsimp only
        decide +kernel
      · apply coinbaseVerified_of_expected rfl
        rw [h₂]
        dsimp only
        decide +kernel
  obtain ⟨k, -, hk, -, -, hbounded, -⟩ := native_supply_bounded hms hrewarded
  have hle := hbounded m₃ rfl
  have hcovered : outputTotal minedGenesis.coinbase +
      (minedLinks.dropLast.map (·.subsidies sampleManager)).sum = 334600000000 := by decide +kernel
  rw [hcovered] at hle
  refine ⟨[m₁, m₂, m₃], m₃, k, hms, rfl, ?_, hk, hle⟩
  rw [acceptedFees, h₃]
  rfl

end Samples

end CryptixAtomic.Processor
