import CryptixAtomic.Processor.Mergeset
import CryptixAtomic.Transition.Backing

/-!
# Mergeset processing as a run of joint steps

Transaction ids are hashes, so a transaction can be accepted once only: its inputs are
spent for good. `History` carries this argument along a chain. With it, the
transactions that processing skips leave no trace, additions to the difference never fail, and what
remains is a run of joint steps.
-/
namespace CryptixAtomic.Processor

open Foundation Transition UtxoDiff List

/-- The set `utxo` was left by the transactions `past`, of which none is accepted twice. -/
structure History (past : List Transaction) (utxo : UtxoCollection) : Prop where
  known : ∀ o e, utxo.lookup o = some e → ∃ tx ∈ past, tx.id = o.transactionId
  spentKnown : ∀ tx ∈ past, ∀ o ∈ tx.spentOutpoints, ∃ tx' ∈ past, tx'.id = o.transactionId
  gone : ∀ tx ∈ past, ∀ o ∈ tx.spentOutpoints, utxo.lookup o = none

namespace History

variable {past : List Transaction} {utxo : UtxoCollection} {tx : Transaction}

theorem empty : History [] ∅ := by
  constructor <;> simp

theorem fresh (h : History past utxo) (hnew : ∀ tx' ∈ past, tx'.id ≠ tx.id) (i : ℕ) :
    utxo.lookup (tx.outpoint i) = none := by
  cases hlookup : utxo.lookup (tx.outpoint i) with
  | none => rfl
  | some e =>
    obtain ⟨tx', htx', hid⟩ := h.known _ e hlookup
    exact absurd hid (hnew tx' htx')

theorem new_id (h : History past utxo) (hids : ∀ tx' ∈ past, tx'.id = tx.id → tx' = tx)
    (hinputs : tx.inputs ≠ []) (hunspent : ∀ o ∈ tx.spentOutpoints, ∃ e, utxo.lookup o = some e) :
    ∀ tx' ∈ past, tx'.id ≠ tx.id := by
  intro tx' htx' hid
  obtain rfl := hids tx' htx' hid
  obtain ⟨input, hinput⟩ := exists_mem_of_ne_nil _ hinputs
  have hspent : input.previousOutpoint ∈ tx'.spentOutpoints := mem_map_of_mem hinput
  obtain ⟨e, he⟩ := hunspent _ hspent
  rw [h.gone tx' htx' _ hspent] at he
  cases he

theorem apply (h : History past utxo) (hnew : ∀ tx' ∈ past, tx'.id ≠ tx.id)
    (hunspent : ∀ o ∈ tx.spentOutpoints, ∃ e, utxo.lookup o = some e) (daaScore : ℕ) :
    History (tx :: past) (utxo.applyTransaction tx daaScore) := by
  have hspent : ∀ tx' ∈ tx :: past, ∀ o ∈ tx'.spentOutpoints,
      ∃ tx'' ∈ past, tx''.id = o.transactionId := by
    intro tx' htx' o ho
    rcases mem_cons.mp htx' with rfl | htx'
    · obtain ⟨e, he⟩ := hunspent o ho
      exact h.known o e he
    · exact h.spentKnown tx' htx' o ho
  constructor
  · intro o e he
    rcases lookup_apply_cases he with ⟨i, output, -, rfl, -⟩ | ⟨-, hold⟩
    · exact ⟨tx, mem_cons_self, rfl⟩
    · obtain ⟨tx', htx', hid⟩ := h.known o e hold
      exact ⟨tx', mem_cons_of_mem tx htx', hid⟩
  · intro tx' htx' o ho
    obtain ⟨tx'', htx'', hid⟩ := hspent tx' htx' o ho
    exact ⟨tx'', mem_cons_of_mem tx htx'', hid⟩
  · intro tx' htx' o ho
    cases hlookup : (utxo.applyTransaction tx daaScore).lookup o with
    | none => rfl
    | some =>
      rcases lookup_apply_cases hlookup with ⟨i, output, -, rfl, -⟩ | ⟨hkept, hold⟩
      · -- a spent outpoint is that of an older transaction
        obtain ⟨tx'', htx'', hid⟩ := hspent tx' htx' _ ho
        exact absurd hid (hnew tx'' htx'')
      · rcases mem_cons.mp htx' with rfl | htx'
        · exact absurd ho hkept
        · rw [h.gone tx' htx' o ho] at hold
          cases hold

end History

/-- The invariant of the loops: `utxo` is the set reached so far. -/
structure LoopInv (base : UtxoView) (past : List Transaction) (utxo : UtxoCollection)
    (diff : UtxoDiff) (atomic : AtomicConsensusState) : Prop where
  sound : diff.Over base
  shows : diff.Shows base utxo
  history : History past utxo
  baseKnown : ∀ o e, base o = some e → ∃ tx ∈ past, tx.id = o.transactionId
  bound : Bound ⟨utxo, atomic⟩

/-- The entries of the set the block began with are left except for those spent in it. -/
def BlockLoop.Keeps (b : BlockLoop) (start utxo : UtxoCollection) : Prop :=
  ∀ o e, start.lookup o = some e → o ∉ b.acceptedSpentOutpoints → utxo.lookup o = some e

/-- What the loop over a block knows of a validated transaction. -/
structure Candidate (past : List Transaction) (start : UtxoCollection)
    (p : ValidatedTransaction × ℕ) : Prop where
  plain : p.1.ptx.tx.isCoinbase = false
  inputs : p.1.ptx.tx.inputs ≠ []
  distinct : p.1.ptx.tx.spentOutpoints.Nodup
  populated : p.1.ptx.UnspentIn start
  ids : ∀ tx ∈ past, tx.id = p.1.ptx.tx.id → tx = p.1.ptx.tx

theorem Candidate.mono {past all : List Transaction} {start : UtxoCollection}
    {p : ValidatedTransaction × ℕ} (h : Candidate all start p) (hpast : ∀ tx ∈ past, tx ∈ all) :
    Candidate past start p :=
  { h with ids := fun tx htx => h.ids tx (hpast tx htx) }

section Steps

variable (blake2b : Blake2b) (params : AtomicParams) (base : UtxoView) (povDaaScore : ℕ)
  (ctx : AtomicCreationContext)

structure TxAccepted (utxo : UtxoCollection) (b : BlockLoop) (p : ValidatedTransaction × ℕ)
    (b' : BlockLoop) : Prop where
  plain : p.1.ptx.tx.isCoinbase = false
  unspent : p.1.ptx.UnspentIn utxo
  distinct : p.1.ptx.tx.spentOutpoints.Nodup
  fresh : ∀ i, utxo.lookup (p.1.ptx.tx.outpoint i) = none
  run : (validateAndApplyAtomicStateTransitionWithGrowth blake2b params p.1.ptx povDaaScore
    ctx).run (b.atomicState, b.growth) = .ok () (b'.atomicState, b'.growth)
  advanced : b.diff.Advanced base utxo p.1.ptx povDaaScore b'.diff
  acceptedTxIds : b'.acceptedTxIds = b.acceptedTxIds ++ [p.1.ptx.tx.id]
  spentOutpoints : b'.acceptedSpentOutpoints = b.acceptedSpentOutpoints ++ p.1.ptx.tx.spentOutpoints
  fee : b'.blockFee = b.blockFee + p.1.calculatedFee
  entries : b'.acceptedTransactions = b.acceptedTransactions ++ [⟨p.1.ptx.tx.id, p.2⟩]

/-- The accepted transactions of a block, one after another. -/
inductive BlockRun : UtxoCollection → BlockLoop → List (ValidatedTransaction × ℕ) →
    UtxoCollection → BlockLoop → Prop
  | nil (utxo : UtxoCollection) (b : BlockLoop) : BlockRun utxo b [] utxo b
  | cons {utxo utxo' : UtxoCollection} {b m b' : BlockLoop} {p : ValidatedTransaction × ℕ}
      {ps : List (ValidatedTransaction × ℕ)}
      (step : TxAccepted blake2b params base povDaaScore ctx utxo b p m)
      (rest : BlockRun (utxo.applyTransaction p.1.ptx.tx povDaaScore) m ps utxo' b') :
      BlockRun utxo b (p :: ps) utxo' b'

end Steps

section Loops

variable {blake2b : Blake2b} {params : AtomicParams} {base : UtxoView} {povDaaScore : ℕ}
  {ctx : AtomicCreationContext} {past : List Transaction} {start utxo : UtxoCollection}
  {b : BlockLoop} {p : ValidatedTransaction × ℕ}

/-- A transaction that spends nothing spent since the block began has unspent inputs, a new id
and new outpoints. -/
theorem LoopInv.unspent (h : LoopInv base past utxo b.diff b.atomicState)
    (hkept : b.Keeps start utxo) (hp : Candidate past start p)
    (hspent : ∀ o ∈ p.1.ptx.tx.spentOutpoints, o ∉ b.acceptedSpentOutpoints) :
    p.1.ptx.UnspentIn utxo ∧ (∀ tx ∈ past, tx.id ≠ p.1.ptx.tx.id) ∧
      ∀ i, utxo.lookup (p.1.ptx.tx.outpoint i) = none := by
  have hunspent : p.1.ptx.UnspentIn utxo :=
    fun q hq => hkept _ _ (hp.populated q hq) (hspent _ (mem_spentOutpoints hq))
  have hnew : ∀ tx ∈ past, tx.id ≠ p.1.ptx.tx.id := by
    apply h.history.new_id hp.ids hp.inputs
    intro o ho
    obtain ⟨q, hq, rfl⟩ := exists_populated ho
    exact ⟨q.2, hunspent q hq⟩
  exact ⟨hunspent, hnew, h.history.fresh hnew⟩

theorem processTx_cases (h : LoopInv base past utxo b.diff b.atomicState)
    (hkept : b.Keeps start utxo) (hp : Candidate past start p) :
    processTx blake2b params povDaaScore ctx b p = .ok b ∨
      ∃ b', processTx blake2b params povDaaScore ctx b p = .ok b' ∧
        TxAccepted blake2b params base povDaaScore ctx utxo b p b' ∧
        ∀ tx ∈ past, tx.id ≠ p.1.ptx.tx.id := by
  unfold processTx
  simp only
  split_ifs with hdup hspent
  · exact .inl rfl
  · exact .inl rfl
  obtain ⟨hunspent, hnew, hfresh⟩ := h.unspent hkept hp (by simpa [Transaction.spentOutpoints]
    using hspent)
  cases hrun : (validateAndApplyAtomicStateTransitionWithGrowth blake2b params p.1.ptx povDaaScore
      ctx).run (b.atomicState, b.growth) with
  | error e out =>
    obtain ⟨atomicState, growth⟩ := out
    have hsame := withGrowth_error blake2b params p.1.ptx povDaaScore ctx
      (fun i _ => h.bound.unlisted (hfresh i)) hrun
    left
    simp only [hsame.1, hsame.2]
  | ok u out =>
    obtain ⟨atomicState, growth⟩ := out
    have hbase : ∀ i, base (p.1.ptx.tx.outpoint i) = none := by
      intro i
      cases hread : base (p.1.ptx.tx.outpoint i) with
      | none => rfl
      | some e =>
        obtain ⟨tx, htx, hid⟩ := h.baseKnown _ e hread
        exact absurd hid (hnew tx htx)
    obtain ⟨diff, hdiff, hadvanced⟩ := addTransaction_ok povDaaScore h.sound h.shows
      hunspent hp.distinct hbase hfresh
    right
    refine ⟨b.accept p diff atomicState growth, ?_, ?_, hnew⟩
    · simp only [hdiff]
      rfl
    · exact
        { plain := hp.plain
          unspent := hunspent
          distinct := hp.distinct
          fresh := hfresh
          run := hrun
          advanced := hadvanced
          acceptedTxIds := rfl
          spentOutpoints := rfl
          fee := rfl
          entries := rfl }

/-- A loop over a state of the same content, in memory or over a store, takes the same step. -/
theorem processTx_alike (h : LoopInv base past utxo b.diff b.atomicState)
    (hkept : b.Keeps start utxo) (hp : Candidate past start p) {b' : BlockLoop}
    (hb' : processTx blake2b params povDaaScore ctx b p = .ok b') {s : AtomicConsensusState}
    (hs : s.content = b.atomicState.content) :
    ∃ t, processTx blake2b params povDaaScore ctx { b with atomicState := s } p =
        .ok { b' with atomicState := t } ∧ t.content = b'.atomicState.content := by
  unfold processTx at hb' ⊢
  simp only at hb' ⊢
  split_ifs at hb' ⊢ with hdup hspent
  · cases hb'
    exact ⟨s, rfl, hs⟩
  · cases hb'
    exact ⟨s, rfl, hs⟩
  obtain ⟨-, -, hfresh⟩ := h.unspent hkept hp (by simpa [Transaction.spentOutpoints] using hspent)
  have hunlisted : ∀ i, b.atomicState.content.ledger.index (p.1.ptx.tx.outpoint i) = none :=
    fun i => h.bound.unlisted (hfresh i)
  cases hrun : (validateAndApplyAtomicStateTransitionWithGrowth blake2b params p.1.ptx povDaaScore
      ctx).run (b.atomicState, b.growth) with
  | ok u out =>
    obtain ⟨atomicState, growth⟩ := out
    obtain ⟨t, ht, hsame⟩ := @withGrowth_of_content blake2b params _ s _ ⟨p.1.ptx, povDaaScore, ctx⟩
      _ _ hs.symm h.bound.valid h.bound.coherent hunlisted hrun
    rw [hrun] at hb'
    simp only [except_bind_eq_ok, except_pure_eq_ok] at hb'
    obtain ⟨diff, hdiff, rfl⟩ := hb'
    refine ⟨t, ?_, hsame.symm⟩
    simp only [ht, hdiff]
    rfl
  | error e out =>
    obtain ⟨atomicState, growth⟩ := out
    obtain ⟨rfl, rfl⟩ := withGrowth_error blake2b params p.1.ptx povDaaScore ctx
      (fun i _ => hunlisted i) hrun
    rw [hrun] at hb'
    cases hb'
    refine ⟨s, ?_, hs⟩
    rw [← hs] at hunlisted
    cases hrun' : (validateAndApplyAtomicStateTransitionWithGrowth blake2b params p.1.ptx
        povDaaScore ctx).run (s, b.growth) with
    | ok u out =>
      -- then it would succeed in the loop itself
      obtain ⟨t, ht, -⟩ := @withGrowth_of_content blake2b params _ b.atomicState _
        ⟨p.1.ptx, povDaaScore, ctx⟩ _ _ hs (hs ▸ h.bound.valid) (hs ▸ h.bound.coherent) hunlisted hrun'
      cases hrun.symm.trans ht
    | error e' out =>
      obtain ⟨atomicState', growth'⟩ := out
      obtain ⟨rfl, rfl⟩ := withGrowth_error blake2b params p.1.ptx povDaaScore ctx
        (fun i _ => hunlisted i) hrun'
      rfl

variable {A : Type} {b' : BlockLoop}

variable (observe : A → ValidatedTransaction × ℕ → A)

/-- An observer learns of the transaction exactly if it is accepted. -/
theorem processTxWith_eq (a : A) :
    processTxWith blake2b params observe povDaaScore ctx b a p =
      (processTx blake2b params povDaaScore ctx b p).map fun b' =>
        (b', if b'.acceptedTxIds = b.acceptedTxIds then a else observe a p) := by
  unfold processTxWith processTx
  simp only
  split_ifs
  · simp [Except.map]
  · simp [Except.map]
  cases (validateAndApplyAtomicStateTransitionWithGrowth blake2b params p.1.ptx povDaaScore
      ctx).run (b.atomicState, b.growth) with
  | error => simp [Except.map]
  | ok u out =>
    cases b.diff.addTransaction p.1.ptx.populatedInputs p.1.ptx.tx povDaaScore with
    | error => rfl
    | ok diff =>
      have hlonger : (b.accept p diff out.1 out.2).acceptedTxIds ≠ b.acceptedTxIds := by
        simp [BlockLoop.accept]
      exact congrArg (fun x => Except.ok (b.accept p diff out.1 out.2, x)) (if_neg hlonger).symm

theorem processTxWith_skip (a : A) (h : processTx blake2b params povDaaScore ctx b p = .ok b) :
    processTxWith blake2b params observe povDaaScore ctx b a p = .ok (b, a) := by
  rw [processTxWith_eq, h]
  simp [Except.map]

theorem processTxWith_accept (a : A) (h : processTx blake2b params povDaaScore ctx b p = .ok b')
    (hstep : TxAccepted blake2b params base povDaaScore ctx utxo b p b') :
    processTxWith blake2b params observe povDaaScore ctx b a p = .ok (b', observe a p) := by
  have hlonger : b'.acceptedTxIds ≠ b.acceptedTxIds := by
    rw [hstep.acceptedTxIds]
    simp
  rw [processTxWith_eq, h]
  simp [Except.map, hlonger]

theorem TxAccepted.accepts (h : TxAccepted blake2b params base povDaaScore ctx utxo b p b') :
    Accepts blake2b params b.atomicState ⟨p.1.ptx, povDaaScore, ctx⟩ b'.atomicState := by
  obtain ⟨_, -, -, haccepts, -⟩ :=
    (@withGrowth_eq_ok blake2b params _ _ _ _ ⟨p.1.ptx, povDaaScore, ctx⟩ ()).mp h.run
  exact haccepts

theorem TxAccepted.jointStep (h : TxAccepted blake2b params base povDaaScore ctx utxo b p b') :
    JointStep blake2b params ⟨utxo, b.atomicState⟩ (.accepted ⟨p.1.ptx, povDaaScore, ctx⟩)
      ⟨utxo.applyTransaction p.1.ptx.tx povDaaScore, b'.atomicState⟩ :=
  JointStep.accepted h.plain h.unspent h.distinct h.fresh h.accepts

theorem LoopInv.accepted {b' : BlockLoop} (h : LoopInv base past utxo b.diff b.atomicState)
    (hstep : TxAccepted blake2b params base povDaaScore ctx utxo b p b')
    (hnew : ∀ tx ∈ past, tx.id ≠ p.1.ptx.tx.id) :
    LoopInv base (p.1.ptx.tx :: past) (utxo.applyTransaction p.1.ptx.tx povDaaScore) b'.diff
      b'.atomicState := by
  constructor
  · exact hstep.advanced.sound
  · exact hstep.advanced.shows
  · apply h.history.apply hnew
    intro o ho
    obtain ⟨q, hq, rfl⟩ := exists_populated ho
    exact ⟨q.2, hstep.unspent q hq⟩
  · intro o e he
    obtain ⟨tx, htx, hid⟩ := h.baseKnown o e he
    exact ⟨tx, mem_cons_of_mem _ htx, hid⟩
  · exact h.bound.step hstep.jointStep

def UniqueIds (all : List Transaction) : Prop := ∀ tx ∈ all, ∀ tx' ∈ all, tx.id = tx'.id → tx = tx'

theorem TxAccepted.kept {m : BlockLoop}
    (h : TxAccepted blake2b params base povDaaScore ctx utxo b p m)
    (hkept : b.Keeps start utxo) :
    m.Keeps start (utxo.applyTransaction p.1.ptx.tx povDaaScore) := by
  intro o e he ho
  rw [h.spentOutpoints, mem_append, not_or] at ho
  exact lookup_apply_of_kept h.fresh (hkept o e he ho.1) ho.2

/-- The loop over the transactions of a block never fails, and amounts to accepting some
of them in order, which is also what an observer sees. Only the content of the state matters. -/
theorem processTxs_run {ps : List (ValidatedTransaction × ℕ)} {all : List Transaction}
    (h : LoopInv base past utxo b.diff b.atomicState) (hpast : ∀ tx ∈ past, tx ∈ all)
    (hkept : b.Keeps start utxo) (hps : ∀ p ∈ ps, p.1.ptx.tx ∈ all ∧ Candidate all start p) :
    ∃ b' accepted utxo', processTxs blake2b params povDaaScore ctx b ps = .ok b' ∧
      (∀ (A : Type) (observe : A → ValidatedTransaction × ℕ → A) (a : A),
        processTxsWith blake2b params observe povDaaScore ctx b a ps =
          .ok (b', accepted.foldl observe a)) ∧
      (∀ s, s.content = b.atomicState.content → ∃ t, processTxs blake2b params povDaaScore ctx
          { b with atomicState := s } ps = .ok { b' with atomicState := t } ∧
        t.content = b'.atomicState.content) ∧
      accepted.Sublist ps ∧
      BlockRun blake2b params base povDaaScore ctx utxo b accepted utxo' b' ∧
      LoopInv base ((accepted.map fun p => p.1.ptx.tx).reverse ++ past) utxo' b'.diff
        b'.atomicState := by
  induction ps generalizing b past utxo with
  | nil => exact ⟨b, [], utxo, rfl, fun _ _ _ => rfl, fun s hs => ⟨s, rfl, hs⟩, Sublist.refl _,
      .nil utxo b, h⟩
  | cons p ps ih =>
    rw [forall_mem_cons] at hps
    obtain ⟨⟨hmem, hp⟩, hps⟩ := hps
    have hlater : ∀ {m b' : BlockLoop}, processTx blake2b params povDaaScore ctx b p = .ok m →
        (∀ s, s.content = m.atomicState.content → ∃ t, processTxs blake2b params povDaaScore ctx
          { m with atomicState := s } ps = .ok { b' with atomicState := t } ∧
            t.content = b'.atomicState.content) →
        ∀ s, s.content = b.atomicState.content → ∃ t, processTxs blake2b params povDaaScore ctx
          { b with atomicState := s } (p :: ps) = .ok { b' with atomicState := t } ∧
            t.content = b'.atomicState.content := by
      intro m b' hm hrest s hs
      obtain ⟨t, ht, hsame⟩ := processTx_alike h hkept (hp.mono hpast) hm hs
      rw [processTxs, ht]
      exact hrest t hsame
    rcases processTx_cases h hkept (hp.mono hpast) with hskip | ⟨m, hm, hstep, hnew⟩
    · obtain ⟨b', accepted, utxo', hrun, hwith, halike, hsub, hblock, hinv⟩ := ih h hpast hkept hps
      refine ⟨b', accepted, utxo', ?_, ?_, hlater hskip halike, hsub.cons p, hblock, hinv⟩
      · rw [processTxs, hskip]
        exact hrun
      · intro A observe a
        rw [processTxsWith, processTxWith_skip observe a hskip]
        exact hwith A observe a
    · obtain ⟨b', accepted, utxo', hrun, hwith, halike, hsub, hblock, hinv⟩ :=
        ih (h.accepted hstep hnew) (forall_mem_cons.mpr ⟨hmem, hpast⟩) (hstep.kept hkept) hps
      refine ⟨b', p :: accepted, utxo', ?_, ?_, hlater hm halike, hsub.cons_cons p,
        .cons hstep hblock, ?_⟩
      · rw [processTxs, hm]
        exact hrun
      · intro A observe a
        rw [processTxsWith, processTxWith_accept observe a hm hstep]
        exact hwith A observe (observe a p)
      · simpa using hinv

end Loops

/-- A merged block with the transactions that were accepted from it. -/
structure BlockTrace where
  block : MergedBlock
  isSelectedParent : Bool
  accepted : List (ValidatedTransaction × ℕ)

/-- The transactions accepted from a mergeset, in order, the coinbase apart. -/
def acceptedOf (trace : List BlockTrace) : List Transaction :=
  trace.flatMap fun entry => entry.accepted.map fun p => p.1.ptx.tx

/-- The same transactions as they were validated. -/
def validatedOf (trace : List BlockTrace) : List (ValidatedTransaction × ℕ) :=
  trace.flatMap (·.accepted)

theorem validatedOf_cons (entry : BlockTrace) (trace : List BlockTrace) :
    validatedOf (entry :: trace) = entry.accepted ++ validatedOf trace :=
  flatMap_cons

/-- Every accepted transaction was validated in some view at the score of the chain block. -/
def Validated (blake2b : Blake2b) (params : AtomicParams) (v : ValidatorParams) (povDaaScore : ℕ)
    (trace : List BlockTrace) : Prop :=
  ∀ entry ∈ trace, ∀ p ∈ entry.accepted, ∃ view flags,
    p ∈ validateTransactionsInParallel blake2b params v entry.block.txs view povDaaScore flags

theorem Validated.cons {blake2b : Blake2b} {params : AtomicParams} {v : ValidatorParams}
    {povDaaScore : ℕ} {entry : BlockTrace} {trace : List BlockTrace}
    (h : Validated blake2b params v povDaaScore [entry])
    (h' : Validated blake2b params v povDaaScore trace) :
    Validated blake2b params v povDaaScore (entry :: trace) :=
  forall_mem_cons.mpr ⟨h entry mem_cons_self, h'⟩

section Blocks

variable (blake2b : Blake2b) (params : AtomicParams) (base : UtxoView) (povDaaScore : ℕ)

/-- The blocks of a mergeset, each reduced to its accepted transactions. -/
inductive MergeRun : UtxoCollection → UtxoProcessingContext → List BlockTrace →
    UtxoCollection → UtxoProcessingContext → Prop
  | nil (utxo : UtxoCollection) (m : UtxoProcessingContext) : MergeRun utxo m [] utxo m
  | cons {utxo mid utxo' : UtxoCollection} {m m' : UtxoProcessingContext} {b : BlockLoop}
      {entry : BlockTrace} {rest : List BlockTrace}
      (run : BlockRun blake2b params base povDaaScore entry.block.ctx utxo m.openBlock
        entry.accepted mid b)
      (indices : ∀ p ∈ entry.accepted, p.2 ≠ 0 ∧ entry.block.tx? p.2 = some p.1.ptx.tx)
      (tail : MergeRun mid (m.closeBlock entry.isSelectedParent entry.block b) rest utxo' m') :
      MergeRun utxo m (entry :: rest) utxo' m'

end Blocks

variable {trace : List BlockTrace}

section Blocks

variable {blake2b : Blake2b} {params : AtomicParams} {v : ValidatorParams} {base : UtxoView}
  {povDaaScore : ℕ} {past all : List Transaction} {utxo : UtxoCollection}
  {m : UtxoProcessingContext}

theorem forall_mem_acceptedOf_cons {P : Transaction → Prop} {entry : BlockTrace} :
    (∀ tx ∈ acceptedOf (entry :: trace), P tx) ↔
      (∀ p ∈ entry.accepted, P p.1.ptx.tx) ∧ ∀ tx ∈ acceptedOf trace, P tx := by
  rw [acceptedOf, flatMap_cons, forall_mem_append, forall_mem_map]
  rfl

theorem mem_of_accepted {accepted : List (ValidatedTransaction × ℕ)}
    (hpast : ∀ tx ∈ past, tx ∈ all)
    (haccepted : ∀ p ∈ accepted, p.1.ptx.tx ∈ all ∧ p.1.ptx.tx.isCoinbase = false) :
    ∀ tx ∈ (accepted.map fun p => p.1.ptx.tx).reverse ++ past, tx ∈ all := by
  simp only [forall_mem_append, mem_reverse, forall_mem_map]
  exact ⟨fun p hp => (haccepted p hp).1, hpast⟩

theorem MergedBlock.Isolated.candidates {block : MergedBlock} (h : block.Isolated)
    (hids : UniqueIds all) (hmem : ∀ btx ∈ block.txs, btx.tx ∈ all) {view : UtxoView}
    (hview : ∀ o e, view o = some e → utxo.lookup o = some e) {flags : TxValidationFlags} :
    ∀ p ∈ validateTransactionsInParallel blake2b params v block.txs view povDaaScore flags,
      p.1.ptx.tx ∈ all ∧ Candidate all utxo p := by
  intro p hp
  obtain ⟨btx, -, hget, htx, hentries⟩ := mem_validateTransactionsInParallel hp
  have hbtx := mem_of_getElem? hget
  have hall := hmem btx hbtx
  rw [← htx] at hall
  refine ⟨hall, ?_, ?_, ?_, fun q hq => hview _ _ (hentries q hq),
    fun tx htx => hids tx htx _ hall⟩ <;> rw [htx]
  exacts [h.plain btx hbtx, h.inputs btx hbtx, h.distinct btx hbtx]

theorem processBlock_run (hids : UniqueIds all)
    (h : LoopInv base past utxo m.mergesetDiff m.atomicState) (hpast : ∀ tx ∈ past, tx ∈ all)
    {block : MergedBlock} (hblock : block.Isolated) (hmem : ∀ btx ∈ block.txs, btx.tx ∈ all)
    (isSelectedParent : Bool) :
    ∃ b accepted utxo', processBlock blake2b params v base povDaaScore isSelectedParent m block =
        .ok (m.closeBlock isSelectedParent block b) ∧
      (∀ (A : Type) (observe : A → ValidatedTransaction × ℕ → A) (a : A),
        processBlockWith blake2b params v observe base povDaaScore isSelectedParent m a block =
          .ok (m.closeBlock isSelectedParent block b, accepted.foldl observe a)) ∧
      (∀ s, s.content = m.atomicState.content → ∃ t, processBlock blake2b params v base povDaaScore
          isSelectedParent { m with atomicState := s } block =
            .ok { m.closeBlock isSelectedParent block b with atomicState := t } ∧
        t.content = b.atomicState.content) ∧
      Validated blake2b params v povDaaScore [⟨block, isSelectedParent, accepted⟩] ∧
      BlockRun blake2b params base povDaaScore block.ctx utxo m.openBlock accepted utxo' b ∧
      (∀ p ∈ accepted, p.2 ≠ 0 ∧ block.tx? p.2 = some p.1.ptx.tx) ∧
      (∀ p ∈ accepted, p.1.ptx.tx ∈ all ∧ p.1.ptx.tx.isCoinbase = false) ∧
      LoopInv base ((accepted.map fun p => p.1.ptx.tx).reverse ++ past) utxo' b.diff
        b.atomicState := by
  have hps := @MergedBlock.Isolated.candidates blake2b params v povDaaScore all utxo block hblock hids
    hmem (m.mergesetDiff.compose base) (fun o e he => by rwa [h.shows]) (mergeFlags isSelectedParent)
  obtain ⟨b, accepted, utxo', hrun, hwith, halike, hsub, hblockRun, hinv⟩ :=
    @processTxs_run blake2b params base povDaaScore block.ctx past utxo utxo m.openBlock _ all
      h hpast (fun _ _ he _ => he) hps
  refine ⟨b, accepted, utxo', ?_, ?_, ?_, ?_, hblockRun, ?_, ?_, hinv⟩
  · rw [processBlock, hrun]
    rfl
  · intro A observe a
    rw [processBlockWith, hwith A observe a]
    rfl
  · intro s hs
    obtain ⟨t, ht, hsame⟩ := halike s hs
    refine ⟨t, ?_, hsame⟩
    rw [processBlock]
    change (processTxs blake2b params povDaaScore block.ctx { m.openBlock with atomicState := s }
      _ >>= _) = _
    rw [ht]
    rfl
  · intro entry hentry p hp
    obtain rfl := mem_singleton.mp hentry
    exact ⟨_, _, hsub.subset hp⟩
  · intro p hp
    obtain ⟨btx, hone, hget, htx, -⟩ := mem_validateTransactionsInParallel (hsub.subset hp)
    obtain ⟨i, hi⟩ : ∃ i, p.2 = i + 1 := ⟨p.2 - 1, by omega⟩
    rw [hi, Nat.add_sub_cancel] at hget
    rw [hi, MergedBlock.tx?, htx]
    simp [hget]
  · intro p hp
    obtain ⟨hall, hcandidate⟩ := hps p (hsub.subset hp)
    exact ⟨hall, hcandidate.plain⟩

theorem processBlocks_run {blocks : List MergedBlock} (hids : UniqueIds all)
    (h : LoopInv base past utxo m.mergesetDiff m.atomicState) (hpast : ∀ tx ∈ past, tx ∈ all)
    (hblocks : ∀ block ∈ blocks, block.Isolated)
    (hmem : ∀ block ∈ blocks, ∀ btx ∈ block.txs, btx.tx ∈ all) :
    ∃ m' trace utxo', processBlocks blake2b params v base povDaaScore m blocks = .ok m' ∧
      (∀ (A : Type) (observe : A → ValidatedTransaction × ℕ → A) (a : A),
        processBlocksWith blake2b params v observe base povDaaScore m a blocks =
          .ok (m', (validatedOf trace).foldl observe a)) ∧
      (∀ s, s.content = m.atomicState.content → ∃ t, processBlocks blake2b params v base povDaaScore
          { m with atomicState := s } blocks = .ok { m' with atomicState := t } ∧
        t.content = m'.atomicState.content) ∧
      Validated blake2b params v povDaaScore trace ∧
      MergeRun blake2b params base povDaaScore utxo m trace utxo' m' ∧
      trace.map BlockTrace.block = blocks ∧ (∀ entry ∈ trace, entry.isSelectedParent = false) ∧
      (∀ tx ∈ acceptedOf trace, tx ∈ all ∧ tx.isCoinbase = false) ∧
      LoopInv base ((acceptedOf trace).reverse ++ past) utxo' m'.mergesetDiff m'.atomicState := by
  induction blocks generalizing m past utxo with
  | nil =>
    exact ⟨m, [], utxo, rfl, fun _ _ _ => rfl, fun s hs => ⟨s, rfl, hs⟩, by simp [Validated],
      .nil utxo m, rfl, by simp, by simp [acceptedOf], h⟩
  | cons block blocks ih =>
    rw [forall_mem_cons] at hblocks hmem
    obtain ⟨b, accepted, mid, hblock, hwith, halike, hvalid, hrun, hindices, haccepted, hinv⟩ :=
      processBlock_run hids h hpast hblocks.1 hmem.1 false
    obtain ⟨m', trace, utxo', hrest, hwith', halike', hvalid', hmerge, htrace, hflags, hall, hinv'⟩ :=
      @ih _ _ (m.closeBlock false block b) hinv (mem_of_accepted hpast haccepted) hblocks.2 hmem.2
    refine ⟨m', ⟨block, false, accepted⟩ :: trace, utxo', ?_, ?_, ?_, ?_,
      .cons hrun hindices hmerge, ?_, ?_, ?_, ?_⟩
    · rw [processBlocks, hblock]
      exact hrest
    · intro A observe a
      rw [processBlocksWith, hwith A observe a, validatedOf_cons, foldl_append]
      exact hwith' A observe _
    · intro s hs
      obtain ⟨t, ht, hsame⟩ := halike s hs
      rw [processBlocks, ht]
      exact halike' t hsame
    · exact hvalid.cons hvalid'
    · rw [map_cons, htrace]
    · rw [forall_mem_cons]
      exact ⟨rfl, hflags⟩
    · exact forall_mem_acceptedOf_cons.mpr ⟨haccepted, hall⟩
    · simpa [acceptedOf] using hinv'

/-- The joint events of the accepted transactions of one block. -/
def BlockTrace.events (povDaaScore : ℕ) (entry : BlockTrace) : List JointEvent :=
  entry.accepted.map fun p => .accepted ⟨p.1.ptx, povDaaScore, entry.block.ctx⟩

variable {utxo' : UtxoCollection}

theorem BlockRun.jointRun {ctx : AtomicCreationContext}
    {b b' : BlockLoop} {accepted : List (ValidatedTransaction × ℕ)}
    (h : BlockRun blake2b params base povDaaScore ctx utxo b accepted utxo' b') :
    JointRun blake2b params ⟨utxo, b.atomicState⟩
      (accepted.map fun p => .accepted ⟨p.1.ptx, povDaaScore, ctx⟩) ⟨utxo', b'.atomicState⟩ := by
  induction h with
  | nil => exact .nil _
  | cons step rest ih => exact .cons step.jointStep ih

theorem MergeRun.jointRun {m' : UtxoProcessingContext}
    (h : MergeRun blake2b params base povDaaScore utxo m trace utxo' m') :
    JointRun blake2b params ⟨utxo, m.atomicState⟩ (trace.flatMap (·.events povDaaScore))
      ⟨utxo', m'.atomicState⟩ := by
  induction h with
  | nil => exact .nil _
  | cons run indices tail ih => exact run.jointRun.append ih

end Blocks

/-- A mergeset as processing accepts it: the coinbase of the selected parent, then the
accepted transactions of each block. -/
structure Processed (blake2b : Blake2b) (params : AtomicParams) (j : JointState) (c : ChainBlock)
    (diff : UtxoDiff) (trace : List BlockTrace) (utxo : UtxoCollection)
    (m : UtxoProcessingContext) : Prop where
  blocks : trace.map BlockTrace.block = c.blocks
  flags : trace.map BlockTrace.isSelectedParent = true :: c.others.map fun _ => false
  reward : c.selectedParent.coinbase.isCoinbase = true
  noInputs : c.selectedParent.coinbase.inputs = []
  fresh : ∀ i, j.utxo.lookup (c.selectedParent.coinbase.outpoint i) = none
  start : diff.Over j.utxo.lookup
  run : MergeRun blake2b params j.utxo.lookup c.povDaaScore
    (j.utxo.applyTransaction c.selectedParent.coinbase c.povDaaScore)
    (startContext diff c.selectedParent.coinbase.id j.atomic) trace utxo m
  shows : m.mergesetDiff.Shows j.utxo.lookup utxo
  sound : m.mergesetDiff.Over j.utxo.lookup

section Chains

variable {blake2b : Blake2b} {params : AtomicParams} {v : ValidatorParams} {j : JointState}
  {past all : List Transaction}

def ChainBlock.events (c : ChainBlock) (trace : List BlockTrace) : List JointEvent :=
  .newBlock :: .coinbase c.selectedParent.coinbase c.povDaaScore ::
    trace.flatMap (·.events c.povDaaScore)

variable {c : ChainBlock} {chain : List ChainBlock} {l : JointState} {events : List JointEvent}

variable {utxo : UtxoCollection} {m : UtxoProcessingContext}

theorem Processed.jointRun {diff : UtxoDiff} (h : Processed blake2b params j c diff trace utxo m) :
    JointRun blake2b params j (c.events trace) ⟨utxo, m.atomicState⟩ :=
  .cons (.newBlock j) (.cons (JointStep.coinbase h.reward h.noInputs h.fresh) h.run.jointRun)

theorem Processed.applyTo_eq {diff : UtxoDiff}
    (h : Processed blake2b params j c diff trace utxo m) :
    m.mergesetDiff.applyTo j.utxo = utxo := by
  apply Finmap.ext_lookup
  intro o
  rw [lookup_applyTo m.mergesetDiff j.utxo o, h.shows]

theorem addCoinbase_ok {tx : Transaction} (daaScore : ℕ)
    (hinputs : tx.inputs = []) (hfresh : ∀ i, utxo.lookup (tx.outpoint i) = none) :
    ∃ diff, empty.addTransaction [] tx daaScore = .ok diff ∧ diff.Over utxo.lookup ∧
      diff.Shows utxo.lookup (utxo.applyTransaction tx daaScore) ∧
      diff.add = UtxoCollection.applyTransaction ∅ tx daaScore := by
  -- the coinbase, as a transaction without inputs
  let cb : PopulatedTransaction := ⟨tx, [], by rw [hinputs]; rfl⟩
  have hpopulated : cb.populatedInputs = [] := zip_nil_right
  have hunspent : cb.UnspentIn utxo := by simp [PopulatedTransaction.UnspentIn, hpopulated]
  have hspent : cb.tx.spentOutpoints = [] := by
    rw [Transaction.spentOutpoints, show cb.tx.inputs = [] from hinputs]
    rfl
  obtain ⟨diff, hdiff, hadvanced⟩ := UtxoDiff.addTransaction_ok daaScore (over_empty _)
      (by intro o; rw [compose_empty]) hunspent (by rw [hspent]; simp) hfresh hfresh
  rw [hpopulated] at hdiff
  exact ⟨diff, hdiff, hadvanced.sound, hadvanced.shows, hadvanced.add⟩

theorem exists_start (blake2b : Blake2b) (params : AtomicParams) (hbound : Bound j)
    (hhistory : History past j.utxo) (hparent : c.selectedParent.Isolated)
    (hcoinbase : ∀ tx ∈ past, tx.id ≠ c.selectedParent.coinbase.id) :
    ∃ diff, empty.addTransaction [] c.selectedParent.coinbase c.povDaaScore = .ok diff ∧
      LoopInv j.utxo.lookup (c.selectedParent.coinbase :: past)
        (j.utxo.applyTransaction c.selectedParent.coinbase c.povDaaScore) diff
        j.atomic.beginDeltaTracking := by
  have hfresh := hhistory.fresh hcoinbase
  have hspent : c.selectedParent.coinbase.spentOutpoints = [] := by
    simp [Transaction.spentOutpoints, hparent.noInputs]
  obtain ⟨diff, hdiff, hsound, hshows, -⟩ := addCoinbase_ok c.povDaaScore hparent.noInputs hfresh
  refine ⟨diff, hdiff, hsound, hshows, ?_, ?_, ?_⟩
  · apply hhistory.apply hcoinbase
    rw [hspent]
    simp
  · intro o e he
    obtain ⟨tx, htx, hid⟩ := hhistory.known o e he
    exact ⟨tx, mem_cons_of_mem _ htx, hid⟩
  · exact (hbound.step (@JointStep.newBlock blake2b params j)).step
      (@JointStep.coinbase blake2b params _ _ _ hparent.coinbase hparent.noInputs hfresh)

/-- A chain of mergesets processed from `j`, with what was accepted from each. -/
inductive ChainRun (blake2b : Blake2b) (params : AtomicParams) (v : ValidatorParams) :
    JointState → List ChainBlock → JointState → List JointEvent → Prop
  | nil (j : JointState) : ChainRun blake2b params v j [] j []
  | cons {j l : JointState} {c : ChainBlock} {chain : List ChainBlock}
      {m : UtxoProcessingContext} {diff : UtxoDiff} {trace : List BlockTrace}
      {utxo : UtxoCollection} {events : List JointEvent}
      (computed : calculateUtxoState blake2b params v j.utxo.lookup j.atomic c =
        .ok { m with acceptedTxIds := m.acceptedTxIds.mergeSort (· ≤ ·) })
      (start : empty.addTransaction [] c.selectedParent.coinbase c.povDaaScore = .ok diff)
      (processed : Processed blake2b params j c diff trace utxo m)
      (rest : ChainRun blake2b params v ⟨utxo, m.atomicState⟩ chain l events) :
      ChainRun blake2b params v j (c :: chain) l (c.events trace ++ events)

theorem ChainRun.jointRun
    (h : ChainRun blake2b params v j chain l events) : JointRun blake2b params j events l := by
  induction h with
  | nil j => exact .nil j
  | cons computed start processed rest ih => exact processed.jointRun.append ih

theorem ChainRun.povDaaScore (h : ChainRun blake2b params v j chain l events) {x : TxContext}
    (hx : JointEvent.accepted x ∈ events) : ∃ c ∈ chain, x.povDaaScore = c.povDaaScore := by
  induction h with
  | nil => cases hx
  | @cons j l c chain m diff trace utxo events computed start processed rest ih =>
    rcases mem_append.mp hx with hx | hx
    · refine ⟨c, mem_cons_self, ?_⟩
      simp only [ChainBlock.events, mem_cons, reduceCtorEq, false_or, mem_flatMap,
        BlockTrace.events, mem_map, JointEvent.accepted.injEq] at hx
      obtain ⟨entry, -, p, -, rfl⟩ := hx
      rfl
    · obtain ⟨c', hc', heq⟩ := ih hx
      exact ⟨c', mem_cons_of_mem c hc', heq⟩

theorem ChainRun.advanceAll (h : ChainRun blake2b params v j chain l events) :
    advanceAll blake2b params v j chain = .ok l := by
  induction h with
  | nil => rfl
  | @cons j l c chain m diff trace utxo events computed start processed rest ih =>
    rw [Processor.advanceAll, advance, computed]
    change Processor.advanceAll blake2b params v ⟨m.mergesetDiff.applyTo j.utxo, m.atomicState⟩
      chain = .ok l
    rw [processed.applyTo_eq]
    exact ih

variable {past : List Transaction}

theorem ChainOk.coinbase_new
    (h : ChainOk past (c :: chain)) : ∀ tx ∈ past, tx.id ≠ c.selectedParent.coinbase.id := by
  intro tx htx hid
  have hmem : c.selectedParent.coinbase ∈ past ++ chainTransactions (c :: chain) := by
    simp [chainTransactions, ChainBlock.blocks, MergedBlock.transactions]
  have heq := h.ids tx (mem_append_left _ htx) _ hmem hid
  have hreward := (h.isolated c mem_cons_self c.selectedParent mem_cons_self).coinbase
  rw [← heq] at hreward
  exact h.pastScores tx htx hreward c mem_cons_self (by rw [heq])

theorem ChainOk.mem_chain (_ : ChainOk past (c :: chain)) {block : MergedBlock}
    (hblock : block ∈ c.blocks) {tx : Transaction}
    (htx : tx ∈ block.transactions) : tx ∈ past ++ chainTransactions (c :: chain) := by
  apply mem_append_right
  rw [chainTransactions, flatMap_cons]
  exact mem_append_left _ (mem_flatMap.mpr ⟨block, hblock, htx⟩)

theorem ChainOk.tail {past : List Transaction} {c : ChainBlock} {chain : List ChainBlock}
    (h : ChainOk past (c :: chain)) {accepted : List Transaction}
    (haccepted : ∀ tx ∈ accepted, tx ∈ past ++ chainTransactions (c :: chain) ∧
      tx.isCoinbase = false) :
    ChainOk (accepted.reverse ++ c.selectedParent.coinbase :: past) chain := by
  have hsub : ∀ tx ∈ (accepted.reverse ++ c.selectedParent.coinbase :: past) ++
      chainTransactions chain, tx ∈ past ++ chainTransactions (c :: chain) := by
    intro tx htx
    simp only [mem_append, mem_reverse, mem_cons] at htx
    rcases htx with (htx | rfl | htx) | htx
    · exact (haccepted tx htx).1
    · simp [chainTransactions, ChainBlock.blocks, MergedBlock.transactions]
    · exact mem_append_left _ htx
    · rw [chainTransactions, flatMap_cons]
      exact mem_append_right _ (mem_append_right _ htx)
  have hscores := h.blueScores
  rw [map_cons, nodup_cons] at hscores
  constructor
  · intro c' hc'
    exact h.isolated c' (mem_cons_of_mem c hc')
  · intro tx htx tx' htx' hid
    exact h.ids tx (hsub tx htx) tx' (hsub tx' htx') hid
  · exact hscores.2
  · intro tx htx hcoinbase c' hc'
    simp only [mem_append, mem_reverse, mem_cons] at htx
    rcases htx with htx | rfl | htx
    · rw [(haccepted tx htx).2] at hcoinbase
      cases hcoinbase
    · intro heq
      apply hscores.1
      rw [heq]
      exact mem_map_of_mem hc'
    · exact h.pastScores tx htx hcoinbase c' (mem_cons_of_mem c hc')

/-- Processing the next mergeset of a chain never fails, and amounts to a run of joint steps. -/
theorem calculateUtxoState_run (blake2b : Blake2b) (params : AtomicParams) (v : ValidatorParams)
    (hbound : Bound j) (hhistory : History past j.utxo) (hchain : ChainOk past (c :: chain)) :
    ∃ m diff trace utxo,
      calculateUtxoState blake2b params v j.utxo.lookup j.atomic c =
        .ok { m with acceptedTxIds := m.acceptedTxIds.mergeSort (· ≤ ·) } ∧
      empty.addTransaction [] c.selectedParent.coinbase c.povDaaScore = .ok diff ∧
      Processed blake2b params j c diff trace utxo m ∧
      Bound ⟨utxo, m.atomicState⟩ ∧
      History ((acceptedOf trace).reverse ++ c.selectedParent.coinbase :: past) utxo ∧
      ChainOk ((acceptedOf trace).reverse ++ c.selectedParent.coinbase :: past) chain ∧
      Validated blake2b params v c.povDaaScore trace ∧
      (∀ (A : Type) (observe : A → ValidatedTransaction × ℕ → A) (a : A),
        calculateUtxoStateWith blake2b params v observe j.utxo.lookup j.atomic c a =
          .ok ({ m with acceptedTxIds := m.acceptedTxIds.mergeSort (· ≤ ·) },
            (validatedOf trace).foldl observe a)) ∧
      ∀ s, s.content = j.atomic.content → ∃ m',
        calculateUtxoState blake2b params v j.utxo.lookup s c = .ok m' ∧
          m'.mergesetDiff = m.mergesetDiff ∧ m'.atomicState.content = m.atomicState.content := by
  have hblocks := hchain.isolated c mem_cons_self
  have hparent := hblocks c.selectedParent mem_cons_self
  obtain ⟨diff, hdiff, hinv⟩ :=
    exists_start blake2b params hbound hhistory hparent hchain.coinbase_new
  have htxs : ∀ block ∈ c.blocks, ∀ btx ∈ block.txs, btx.tx ∈ _ := fun block hblock btx hbtx =>
    hchain.mem_chain hblock (mem_cons_of_mem _ (mem_map_of_mem hbtx))
  have hpast : ∀ tx ∈ c.selectedParent.coinbase :: past, tx ∈ _ := forall_mem_cons.mpr
    ⟨hchain.mem_chain mem_cons_self mem_cons_self, fun tx htx => mem_append_left _ htx⟩
  obtain ⟨b, accepted, mid, hblock, hwith, halike, hvalid, hrun, hindices, haccepted, hinv'⟩ :=
    @processBlock_run blake2b params v j.utxo.lookup c.povDaaScore _ _ _
      (startContext diff c.selectedParent.coinbase.id j.atomic) hchain.ids hinv hpast
      c.selectedParent hparent (htxs _ mem_cons_self) true
  obtain ⟨m, trace, utxo, hrest, hwith', halike', hvalid', hmerge, htrace, hflags, hall, hfinal⟩ :=
    @processBlocks_run blake2b params v j.utxo.lookup c.povDaaScore _ _ mid
      ((startContext diff c.selectedParent.coinbase.id j.atomic).closeBlock true c.selectedParent b)
      c.others hchain.ids hinv' (mem_of_accepted hpast haccepted)
      (fun block hb => hblocks block (mem_cons_of_mem _ hb))
      (fun block hb => htxs block (mem_cons_of_mem _ hb))
  refine ⟨m, diff, ⟨c.selectedParent, true, accepted⟩ :: trace, utxo, ?_, hdiff, ?_, ?_, ?_, ?_,
    hvalid.cons hvalid', ?_, ?_⟩
  · rw [calculateUtxoState, hdiff]
    change (processBlock blake2b params v j.utxo.lookup c.povDaaScore true
      (startContext diff c.selectedParent.coinbase.id j.atomic) c.selectedParent >>= _) = _
    rw [hblock]
    change (processBlocks blake2b params v j.utxo.lookup c.povDaaScore _ c.others >>= _) = _
    rw [hrest]
    rfl
  · exact
      { blocks := by rw [map_cons, htrace]; rfl
        flags := by
          have hfalse : trace.map BlockTrace.isSelectedParent = c.others.map fun _ => false := by
            rw [← htrace, map_map]
            exact map_congr_left hflags
          rw [map_cons, hfalse]
        reward := hparent.coinbase
        noInputs := hparent.noInputs
        fresh := hhistory.fresh hchain.coinbase_new
        start := hinv.sound
        run := .cons hrun hindices hmerge
        shows := hfinal.shows
        sound := hfinal.sound }
  · exact hfinal.bound
  · have hhist := hfinal.history
    simpa [acceptedOf] using hhist
  · exact hchain.tail (forall_mem_acceptedOf_cons.mpr ⟨haccepted, hall⟩)
  · intro A observe a
    rw [calculateUtxoStateWith, hdiff]
    change (processBlockWith blake2b params v observe j.utxo.lookup c.povDaaScore true
      (startContext diff c.selectedParent.coinbase.id j.atomic) a c.selectedParent >>= _) = _
    rw [hwith A observe a]
    change (processBlocksWith blake2b params v observe j.utxo.lookup c.povDaaScore _ _
      c.others >>= _) = _
    rw [hwith' A observe _, validatedOf_cons, foldl_append]
    rfl
  · intro s hs
    obtain ⟨t, ht, hsame⟩ := halike s.beginDeltaTracking hs
    obtain ⟨t', ht', hsame'⟩ := halike' t hsame
    refine ⟨{ m with
      acceptedTxIds := m.acceptedTxIds.mergeSort (· ≤ ·), atomicState := t' }, ?_, rfl, hsame'⟩
    rw [calculateUtxoState, hdiff]
    change (processBlock blake2b params v j.utxo.lookup c.povDaaScore true
      { startContext diff c.selectedParent.coinbase.id j.atomic with
        atomicState := s.beginDeltaTracking } c.selectedParent >>= _) = _
    rw [ht]
    change (processBlocks blake2b params v j.utxo.lookup c.povDaaScore _ c.others >>= _) = _
    rw [ht']
    rfl

/-- Every chain that keeps the promises of the pipeline can be processed, and then what
follows it keeps them too. -/
theorem exists_chainRun_append {chain rest : List ChainBlock} (hbound : Bound j)
    (hhistory : History past j.utxo) (hchain : ChainOk past (chain ++ rest)) :
    ∃ l events past', ChainRun blake2b params v j chain l events ∧ Bound l ∧
      History past' l.utxo ∧ ChainOk past' rest := by
  induction chain generalizing j past with
  | nil => exact ⟨j, [], past, .nil j, hbound, hhistory, hchain⟩
  | cons c chain ih =>
    rw [cons_append] at hchain
    obtain ⟨m, diff, trace, utxo, hcomputed, hstart, hprocessed, hbound', hhistory', hrest, -⟩ :=
      calculateUtxoState_run blake2b params v hbound hhistory hchain
    obtain ⟨l, events, past', hrun, hfinal⟩ := ih hbound' hhistory' hrest
    exact ⟨l, _, past', .cons hcomputed hstart hprocessed hrun, hfinal⟩

theorem exists_chainRun {chain : List ChainBlock} (hbound : Bound j)
    (hhistory : History past j.utxo) (hchain : ChainOk past chain) :
    ∃ l events past', ChainRun blake2b params v j chain l events ∧ Bound l ∧
      History past' l.utxo := by
  rw [← append_nil chain] at hchain
  obtain ⟨l, events, past', hrun, hfinal, hhistory', -⟩ :=
    @exists_chainRun_append blake2b params v j past chain [] hbound hhistory hchain
  exact ⟨l, events, past', hrun, hfinal, hhistory'⟩

end Chains

end CryptixAtomic.Processor
