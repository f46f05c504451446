import CryptixAtomic.Chain.Utxo
import CryptixAtomic.Transition.Apply

/-!
# Contextual validation of transactions

Before the token rules see a transaction its inputs are looked up in a UTXO view and
checked at the score of the block that accepts it: maturity of coinbase outputs, amounts,
the mass commitment, sequence locks and scripts. The mass calculator and the script engine
are parameters: they read the populated transaction and its witness and nothing else.
-/
namespace CryptixAtomic.Processor

open Foundation Transition Option

inductive TxRuleError
  | missingTxOutpoints
  | immatureCoinbaseSpend (index : ℕ) (outpoint : TransactionOutpoint)
      (blockDaaScore povDaaScore maturity : ℕ)
  | invalidAtomicPayload (message : String)
  | inputAmountOverflow
  | inputAmountTooHigh
  | spendTooHigh (totalOut totalIn : ℕ)
  | massIncomputable
  | wrongMass (calculated committed : ℕ)
  | sequenceLockConditionsAreNotMet
  | wrongSigOpCount (index committed calculated : ℕ)
  | signatureEmpty (message : String)
  | signatureInvalid (message : String)
  deriving DecidableEq

inductive TxValidationFlags
  | full
  | skipScriptChecks
  | skipMassCheck
  deriving DecidableEq

/-- The parts of a transaction that only contextual validation reads. -/
structure TxWitness where
  sequences : List ℕ
  signatureScripts : List (List UInt8)
  sigOpCounts : List ℕ
  mass : ℕ
  deriving DecidableEq

structure BlockTransaction where
  tx : Transaction
  witness : TxWitness
  deriving DecidableEq

structure ValidatorParams where
  coinbaseMaturity : ℕ
  storageMassActivationDaaScore : ℕ
  checkMassCommitment : PopulatedTransaction → TxWitness → Except TxRuleError Unit
  checkSigOpCounts : PopulatedTransaction → TxWitness → Except TxRuleError Unit
  checkScripts : PopulatedTransaction → TxWitness → Except TxRuleError Unit

def sequenceLockTimeMask : ℕ := 0xffffffff
def sequenceLockTimeDisabled : ℕ := 2 ^ 63

def asI64 (x : ℕ) : ℤ := if x < 2 ^ 63 then x else (x : ℤ) - 2 ^ 64

section Checks

variable (blake2b : Blake2b) (params : AtomicParams) (v : ValidatorParams)
  (ptx : PopulatedTransaction) (witness : TxWitness) (povDaaScore : ℕ)

def isImmature (entry : UtxoEntry) : Bool :=
  entry.isCoinbase && entry.blockDaaScore + v.coinbaseMaturity > povDaaScore

def checkTransactionCoinbaseMaturity : Except TxRuleError Unit :=
  match ptx.populatedInputs.zipIdx.find? fun p => isImmature v povDaaScore p.1.2 with
  | some ((input, entry), index) => .error (.immatureCoinbaseSpend index input.previousOutpoint
      entry.blockDaaScore povDaaScore v.coinbaseMaturity)
  | none => .ok ()

def checkAtomicPayloadContext : Except TxRuleError Unit :=
  if params.isPayloadHfActive povDaaScore = false ∨ ptx.tx.isPayload = false ∨
      ptx.tx.payload = [] then .ok ()
  else match parseAtomicPayload ptx.tx.payload with
    | .error message => .error (.invalidAtomicPayload message)
    | .ok none => .ok ()
    | .ok (some parsed) =>
      let authInputIndex := parsed.authInputIndex
      match ptx.populatedInputs[authInputIndex]? with
      | none => .error (.invalidAtomicPayload
          s!"auth_input_index `{authInputIndex}` has no populated UTXO entry in contextual validation")
      | some (_, authEntry) =>
        if (atomicOwnerIdFromScript blake2b authEntry.scriptPublicKey).isNone then
          .error (.invalidAtomicPayload "auth input script public key is not a supported CAT owner authorization scheme (expected PubKey, PubKeyECDSA, or ScriptHash)")
        else .ok ()

def sumInputAmounts : List UtxoEntry → ℕ → Except TxRuleError ℕ
  | [], total => .ok total
  | entry :: rest, total =>
    match checkedAdd 64 total entry.amount with
    | none => .error .inputAmountOverflow
    | some newTotal =>
      if newTotal > maxSompi then .error .inputAmountTooHigh else sumInputAmounts rest newTotal

def checkTransactionInputAmounts : Except TxRuleError ℕ := sumInputAmounts ptx.entries 0

def checkTransactionOutputValues (totalIn : ℕ) : Except TxRuleError ℕ :=
  let totalOut := (ptx.tx.outputs.map (·.value)).sum
  if totalIn < totalOut then .error (.spendTooHigh totalOut totalIn) else .ok totalOut

/-- The lock of one input: disabled by its top bit, otherwise relative to the score of
the entry. A sum beyond the signed range, where the source panics, counts as locked. -/
def isLocked (sequence : ℕ) (entry : UtxoEntry) : Bool :=
  sequence &&& sequenceLockTimeDisabled ≠ sequenceLockTimeDisabled ∧
    asI64 entry.blockDaaScore + (sequence &&& sequenceLockTimeMask : ℕ) - 1 ≥ asI64 povDaaScore

def checkSequenceLock : Except TxRuleError Unit :=
  if (witness.sequences.zip ptx.entries).any fun p => isLocked povDaaScore p.1 p.2 then
    .error .sequenceLockConditionsAreNotMet
  else .ok ()

/-- All checks, in order; the result is the fee. -/
def validatePopulatedTransactionAndGetFee (flags : TxValidationFlags) : Except TxRuleError ℕ := do
  checkTransactionCoinbaseMaturity v ptx povDaaScore
  checkAtomicPayloadContext blake2b params ptx povDaaScore
  let totalIn ← checkTransactionInputAmounts ptx
  let totalOut ← checkTransactionOutputValues ptx totalIn
  let fee := totalIn - totalOut
  if flags ≠ .skipMassCheck ∧ povDaaScore > v.storageMassActivationDaaScore then
    v.checkMassCommitment ptx witness
  checkSequenceLock ptx witness povDaaScore
  match flags with
  | .full | .skipMassCheck =>
    v.checkSigOpCounts ptx witness
    v.checkScripts ptx witness
  | .skipScriptChecks => .ok ()
  return fee

end Checks

def lookupEntries (view : UtxoView) : List TransactionInput → Option (List UtxoEntry)
  | [] => some []
  | input :: rest =>
    match view input.previousOutpoint, lookupEntries view rest with
    | some entry, some entries => some (entry :: entries)
    | _, _ => none

theorem lookupEntries_eq_some {view : UtxoView} {inputs : List TransactionInput}
    {entries : List UtxoEntry} (h : lookupEntries view inputs = some entries) :
    inputs.length = entries.length ∧
      ∀ p ∈ inputs.zip entries, view p.1.previousOutpoint = some p.2 := by
  induction inputs generalizing entries with
  | nil =>
    obtain rfl := some.inj h
    simp
  | cons input inputs ih =>
    rw [lookupEntries] at h
    split at h
    · rename_i entry rest hentry hrest
      obtain rfl := some.inj h
      obtain ⟨hlen, hall⟩ := ih hrest
      refine ⟨by simp [hlen], ?_⟩
      intro p hp
      rw [List.zip_cons_cons, List.mem_cons] at hp
      rcases hp with rfl | hp
      · exact hentry
      · exact hall p hp
    · cases h

def populate (view : UtxoView) (tx : Transaction) : Option PopulatedTransaction :=
  match h : lookupEntries view tx.inputs with
  | none => none
  | some entries => some ⟨tx, entries, (lookupEntries_eq_some h).1⟩

theorem populate_eq_some {view : UtxoView} {tx : Transaction} {ptx : PopulatedTransaction}
    (h : populate view tx = some ptx) :
    ptx.tx = tx ∧ ∀ p ∈ ptx.populatedInputs, view p.1.previousOutpoint = some p.2 := by
  unfold populate at h
  split at h
  · cases h
  · rename_i entries hentries
    obtain rfl := some.inj h
    exact ⟨rfl, (lookupEntries_eq_some hentries).2⟩

structure ValidatedTransaction where
  ptx : PopulatedTransaction
  calculatedFee : ℕ

section Context

variable (blake2b : Blake2b) (params : AtomicParams) (v : ValidatorParams)

def validateTransactionInUtxoContext (view : UtxoView) (povDaaScore : ℕ)
    (flags : TxValidationFlags) (btx : BlockTransaction) :
    Except TxRuleError ValidatedTransaction :=
  match populate view btx.tx with
  | none => .error .missingTxOutpoints
  | some ptx =>
    (validatePopulatedTransactionAndGetFee blake2b params v ptx btx.witness povDaaScore flags).map
      fun fee => ⟨ptx, fee⟩

/-- The transactions of a block that are valid in a UTXO view, with their indices; the
coinbase has index zero and is left out. -/
def validateTransactionsInParallel (txs : List BlockTransaction) (view : UtxoView)
    (povDaaScore : ℕ) (flags : TxValidationFlags) : List (ValidatedTransaction × ℕ) :=
  (txs.zipIdx 1).filterMap fun p =>
    (validateTransactionInUtxoContext blake2b params v view povDaaScore flags p.1).toOption.map
      fun validated => (validated, p.2)

end Context

section Context

variable {blake2b : Blake2b} {params : AtomicParams} {v : ValidatorParams} {view : UtxoView}
  {povDaaScore : ℕ} {flags : TxValidationFlags}

theorem validateTransactionInUtxoContext_eq_ok {btx : BlockTransaction}
    {validated : ValidatedTransaction}
    (h : validateTransactionInUtxoContext blake2b params v view povDaaScore flags btx =
      .ok validated) :
    validated.ptx.tx = btx.tx ∧
      ∀ p ∈ validated.ptx.populatedInputs, view p.1.previousOutpoint = some p.2 := by
  unfold validateTransactionInUtxoContext at h
  split at h
  · cases h
  · rename_i ptx hptx
    cases hfee : validatePopulatedTransactionAndGetFee blake2b params v ptx btx.witness
        povDaaScore flags with
    | error =>
      rw [hfee] at h
      cases h
    | ok =>
      rw [hfee] at h
      cases h
      exact populate_eq_some hptx

theorem mem_validateTransactionsInParallel {txs : List BlockTransaction}
    {p : ValidatedTransaction × ℕ}
    (h : p ∈ validateTransactionsInParallel blake2b params v txs view povDaaScore flags) :
    ∃ btx, 1 ≤ p.2 ∧ txs[p.2 - 1]? = some btx ∧ p.1.ptx.tx = btx.tx ∧
      ∀ q ∈ p.1.ptx.populatedInputs, view q.1.previousOutpoint = some q.2 := by
  obtain ⟨⟨btx, i⟩, hmem, hvalid⟩ := List.mem_filterMap.mp h
  obtain ⟨validated, hok, rfl⟩ := map_eq_some_iff.mp hvalid
  rw [List.mem_zipIdx_iff_le_and_getElem?_sub] at hmem
  cases hcase : validateTransactionInUtxoContext blake2b params v view povDaaScore flags btx with
  | error =>
    rw [hcase] at hok
    cases hok
  | ok =>
    rw [hcase] at hok
    cases hok
    exact ⟨btx, hmem.1, hmem.2, validateTransactionInUtxoContext_eq_ok hcase⟩

end Context

end CryptixAtomic.Processor
