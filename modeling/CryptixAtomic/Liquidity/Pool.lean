import CryptixAtomic.Liquidity.Trades

/-!
# Vault transitions, payouts and pool invariants

The parts of the liquidity operations that the consensus rules and the index share
up to their error values: which vault output a transaction moves the pool to, where
a payout goes, and what a pool satisfies after every operation.
-/
namespace CryptixAtomic

open Foundation List

section VaultTransition

structure VaultTransition where
  inputValue : ℕ
  outputIndex : ℕ
  outputValue : ℕ
  deriving DecidableEq

/-- The errors of one copy of the search for vault inputs and outputs. -/
structure VaultErrors (ε : Type) where
  inputCount : ε
  mismatch : TransactionOutpoint → TransactionOutpoint → ε
  outputCount : ε
  indexOverflow : ε

variable {ε : Type} (err : VaultErrors ε)

/-- The loop over the outputs of a creation: the index is converted before the count is
checked. -/
def findCreatedVaultOutput : List TransactionOutput → ℕ → Option (ℕ × ℕ) → Except ε (Option (ℕ × ℕ))
  | [], _, found => .ok found
  | output :: rest, index, found =>
    if isVaultScript output.scriptPublicKey then do
      let outIndex ← okOr (tryNarrow 32 index) err.indexOverflow
      failIf found.isSome err.outputCount
      findCreatedVaultOutput rest (index + 1) (some (outIndex, output.value))
    else findCreatedVaultOutput rest (index + 1) found

/-- The loop over the outputs of a trade: the count is checked first. -/
def findVaultOutput : List TransactionOutput → ℕ → Option (ℕ × ℕ) → Except ε (Option (ℕ × ℕ))
  | [], _, found => .ok found
  | output :: rest, index, found =>
    if isVaultScript output.scriptPublicKey then do
      failIf found.isSome err.outputCount
      let outIndex ← okOr (tryNarrow 32 index) err.indexOverflow
      findVaultOutput rest (index + 1) (some (outIndex, output.value))
    else findVaultOutput rest (index + 1) found

def findVaultInput (expected : TransactionOutpoint) :
    List (TransactionInput × UtxoEntry) → Option ℕ → Except ε (Option ℕ)
  | [], inputValue => .ok inputValue
  | (input, entry) :: rest, inputValue =>
    if isVaultScript entry.scriptPublicKey then do
      failIf inputValue.isSome err.inputCount
      failIf (input.previousOutpoint ≠ expected) (err.mismatch expected input.previousOutpoint)
      findVaultInput expected rest (some entry.amount)
    else findVaultInput expected rest inputValue

def resolveLiquidityVaultTransition (inputs : List (TransactionInput × UtxoEntry))
    (outputs : List TransactionOutput) (expectedVaultOutpoint : TransactionOutpoint) :
    Except ε VaultTransition := do
  let inputValue ← findVaultInput err expectedVaultOutpoint inputs none
  let inputValue ← okOr inputValue err.inputCount
  let output ← findVaultOutput err outputs 0 none
  let (outputIndex, outputValue) ← okOr output err.outputCount
  return { inputValue, outputIndex, outputValue }

end VaultTransition

section Payout

/-- The errors of one copy of the payout check. -/
structure PayoutErrors (ε : Type) where
  range : ℕ → ε
  value : ℕ → ℕ → ℕ → ε
  scriptClass : ScriptClass → ℕ → ε
  noOwner : ε
  owner : ε

def validatePayoutOutput {ε : Type} (err : PayoutErrors ε) (blake2b : Blake2b)
    (outputs : List TransactionOutput) (outputIndex expectedValue : ℕ)
    (expectedOwnerId : Option Bytes32) : Except ε Unit := do
  let output ← okOr outputs[outputIndex]? (err.range outputIndex)
  failIf (output.value ≠ expectedValue) (err.value outputIndex expectedValue output.value)
  let cls := ScriptClass.fromScript output.scriptPublicKey
  failIf (¬(cls = .pubKey ∨ cls = .pubKeyECDSA ∨ cls = .scriptHash))
    (err.scriptClass cls outputIndex)
  match expectedOwnerId with
  | none => return ()
  | some ownerId =>
    let outputOwnerId ← okOr (atomicOwnerIdFromScript blake2b output.scriptPublicKey) err.noOwner
    failIf (outputOwnerId ≠ ownerId) err.owner

def buildFeeRecipientState {ε : Type} (err : ε) (blake2b : Blake2b) :
    List RecipientAddress → Except ε (List AtomicLiquidityFeeRecipientState)
  | [] => .ok []
  | recipient :: rest => do
    let ownerId ← okOr (atomicOwnerIdFromAddressComponents blake2b recipient.addressVersion
      recipient.addressPayload) err
    let out ← buildFeeRecipientState err blake2b rest
    return { ownerId, addressVersion := recipient.addressVersion,
             addressPayload := recipient.addressPayload, unclaimedSompi := 0 } :: out

end Payout

/-- The reserves and fees of a pool: what trades change. -/
structure PoolFunds where
  realCpayReservesSompi : ℕ
  realTokenReserves : ℕ
  virtualCpayReservesSompi : ℕ
  virtualTokenReserves : ℕ
  unclaimedFeeTotalSompi : ℕ
  feeRecipients : List AtomicLiquidityFeeRecipientState
  deriving DecidableEq

namespace AtomicLiquidityPoolState

variable (pool : AtomicLiquidityPoolState)

def funds : PoolFunds :=
  ⟨pool.realCpayReservesSompi, pool.realTokenReserves, pool.virtualCpayReservesSompi,
    pool.virtualTokenReserves, pool.unclaimedFeeTotalSompi, pool.feeRecipients⟩

def withFunds (f : PoolFunds) : AtomicLiquidityPoolState :=
  { pool with
    realCpayReservesSompi := f.realCpayReservesSompi
    realTokenReserves := f.realTokenReserves
    virtualCpayReservesSompi := f.virtualCpayReservesSompi
    virtualTokenReserves := f.virtualTokenReserves
    unclaimedFeeTotalSompi := f.unclaimedFeeTotalSompi
    feeRecipients := f.feeRecipients }

def sellLocked : Bool :=
  pool.unlockTargetSompi > 0 && !pool.unlocked

/-- The pool at its new vault, one operation later. -/
def moved (txId : Bytes32) (vault : VaultTransition) (poolNonce : ℕ) : AtomicLiquidityPoolState :=
  { pool with
    vaultOutpoint := ⟨txId, vault.outputIndex⟩
    vaultValueSompi := vault.outputValue
    poolNonce }

/-- A lock opens for good once the real reserve reaches its target. -/
def unlockAtTarget : AtomicLiquidityPoolState :=
  if pool.unlockTargetSompi > 0 ∧ pool.realCpayReservesSompi ≥ pool.unlockTargetSompi then
    { pool with unlocked := true }
  else pool

end AtomicLiquidityPoolState

/-- What both copies check of a pool after every operation. -/
structure LiquidityInvariants (asset : AtomicAssetState) (pool : AtomicLiquidityPoolState) :
    Prop where
  curve : CurveParams pool.curveMode pool.individualVirtualCpayReservesSompi
    pool.individualVirtualTokenMultiplierBps
  target : pool.unlockTargetSompi ≤ maxSompi
  disabledLock : pool.unlockTargetSompi = 0 → pool.unlocked = true
  locked : 0 < pool.unlockTargetSompi → pool.unlocked = false →
    pool.realCpayReservesSompi < pool.unlockTargetSompi
  realCpay : minCpayReserveSompi ≤ pool.realCpayReservesSompi
  realToken : minRealTokenReserve ≤ pool.realTokenReserves
  virtualCpay : pool.virtualCpayReservesSompi ≠ 0
  virtualToken : pool.virtualTokenReserves ≠ 0
  vaultFits : pool.realCpayReservesSompi + pool.unclaimedFeeTotalSompi < 2 ^ 64
  vaultValue : pool.vaultValueSompi = pool.realCpayReservesSompi + pool.unclaimedFeeTotalSompi
  supplyFits : asset.totalSupply + pool.realTokenReserves < 2 ^ 128
  supply : asset.totalSupply + pool.realTokenReserves = asset.maxSupply

section Specs

variable {ε : Type} {err : VaultErrors ε}

structure IsOnlyVaultOutput (outputs : List TransactionOutput) (index value : ℕ) : Prop where
  found : ∃ output, outputs[index]? = some output ∧ isVaultScript output.scriptPublicKey = true ∧
    output.value = value
  only : ∀ j output, outputs[j]? = some output → isVaultScript output.scriptPublicKey = true →
    j = index

variable {outputs : List TransactionOutput}

theorem findVaultOutput_of_found {k : ℕ} {found : ℕ × ℕ}
    {r : Option (ℕ × ℕ)} (h : findVaultOutput err outputs k (some found) = .ok r) :
    r = some found ∧ ∀ output ∈ outputs, isVaultScript output.scriptPublicKey = false := by
  induction outputs generalizing k with
  | nil => simp_all [findVaultOutput]
  | cons output rest ih =>
    unfold findVaultOutput at h
    split_ifs at h with hvault
    · simp [failIf] at h
    · obtain ⟨hr, hrest⟩ := ih h
      refine ⟨hr, ?_⟩
      simpa [hvault] using hrest

/-- The loop finds the only vault output, counting from where it starts. -/
theorem findVaultOutput_spec {k i v : ℕ}
    (h : findVaultOutput err outputs k none = .ok (some (i, v))) :
    ∃ j, i = k + j ∧ i < 2 ^ 32 ∧ IsOnlyVaultOutput outputs j v := by
  induction outputs generalizing k with
  | nil => simp [findVaultOutput] at h
  | cons output rest ih =>
    unfold findVaultOutput at h
    split_ifs at h with hvault
    · simp only [except_bind_eq_ok, failIf_eq_ok, okOr_eq_ok, tryNarrow_eq_some, exists_const] at h
      obtain ⟨-, _, ⟨hfits, rfl⟩, h⟩ := h
      obtain ⟨hfound, hrest⟩ := findVaultOutput_of_found h
      obtain ⟨rfl, rfl⟩ := Prod.mk.inj (Option.some.inj hfound)
      refine ⟨0, rfl, hfits, ⟨output, rfl, hvault, rfl⟩, ?_⟩
      intro j o ho hv
      cases j with
      | zero => rfl
      | succ => exact absurd hv (by simp [hrest o (mem_of_getElem? ho)])
    · obtain ⟨j, rfl, hfits, ⟨o, ho, hv⟩, honly⟩ := ih h
      refine ⟨j + 1, by omega, hfits, ⟨o, ho, hv⟩, ?_⟩
      intro m o' ho' hv'
      cases m with
      | zero =>
        obtain rfl : output = o' := Option.some.inj ho'
        exact absurd hv' hvault
      | succ m => exact congrArg (· + 1) (honly m o' ho' hv')

/-- The only spent entry with a vault script is the expected one. -/
structure IsOnlyVaultInput (inputs : List (TransactionInput × UtxoEntry))
    (expected : TransactionOutpoint) : Prop where
  found : ∃ p ∈ inputs, isVaultScript p.2.scriptPublicKey = true ∧ p.1.previousOutpoint = expected
  only : ∀ p ∈ inputs, isVaultScript p.2.scriptPublicKey = true → p.1.previousOutpoint = expected

variable {inputs : List (TransactionInput × UtxoEntry)} {expected : TransactionOutpoint}

theorem findVaultInput_spec {before : Option ℕ} {v : ℕ}
    (h : findVaultInput err expected inputs before = .ok (some v)) :
    (before = none → ∃ p ∈ inputs, isVaultScript p.2.scriptPublicKey = true ∧
      p.1.previousOutpoint = expected) ∧
    ∀ p ∈ inputs, isVaultScript p.2.scriptPublicKey = true → p.1.previousOutpoint = expected := by
  induction inputs generalizing before with
  | nil => simp_all [findVaultInput]
  | cons p rest ih =>
    obtain ⟨input, entry⟩ := p
    unfold findVaultInput at h
    split_ifs at h with hvault
    · simp only [except_bind_eq_ok, failIf_eq_ok, not_not, exists_const] at h
      obtain ⟨-, hat, h⟩ := h
      obtain ⟨-, honly⟩ := ih h
      refine ⟨fun _ => ⟨_, mem_cons_self, hvault, hat⟩, ?_⟩
      rw [forall_mem_cons]
      exact ⟨fun _ => hat, honly⟩
    · obtain ⟨hfound, honly⟩ := ih h
      constructor
      · intro hnone
        obtain ⟨p, hp, hv⟩ := hfound hnone
        exact ⟨p, mem_cons_of_mem _ hp, hv⟩
      · rw [forall_mem_cons]
        exact ⟨fun hv => absurd hv hvault, honly⟩

theorem resolveLiquidityVaultTransition_spec {vault : VaultTransition}
    (h : resolveLiquidityVaultTransition err inputs outputs expected = .ok vault) :
    IsOnlyVaultInput inputs expected ∧
      IsOnlyVaultOutput outputs vault.outputIndex vault.outputValue ∧
      vault.outputIndex < 2 ^ 32 := by
  simp only [resolveLiquidityVaultTransition, except_bind_eq_ok, okOr_eq_ok] at h
  obtain ⟨_, hin, value, rfl, _, hout, ⟨index, out⟩, rfl, h⟩ := h
  obtain rfl := Except.ok.inj h
  obtain ⟨j, rfl, hfits, houtput⟩ := findVaultOutput_spec hout
  rw [zero_add] at *
  obtain ⟨hfound, honly⟩ := findVaultInput_spec hin
  exact ⟨⟨hfound rfl, honly⟩, houtput, hfits⟩

end Specs

section Agreement

variable {ε ε' : Type} (err : VaultErrors ε) (err' : VaultErrors ε')

theorem sameOk_findCreatedVaultOutput (outputs : List TransactionOutput) (k : ℕ)
    (found : Option (ℕ × ℕ)) :
    SameOk (findCreatedVaultOutput err outputs k found) (findVaultOutput err' outputs k found) := by
  induction outputs generalizing k found with
  | nil => exact SameOk.pure found
  | cons output rest ih =>
    unfold findCreatedVaultOutput findVaultOutput
    apply SameOk.ite _ (ih (k + 1) found)
    intro r
    simp only [except_bind_eq_ok, failIf_eq_ok, okOr_eq_ok, tryNarrow_eq_some, exists_const,
      ih _ _ r]
    constructor
    · rintro ⟨i, hi, hnone, h⟩
      exact ⟨hnone, i, hi, h⟩
    · rintro ⟨hnone, i, hi, h⟩
      exact ⟨i, hi, hnone, h⟩

variable {err} {outputs : List TransactionOutput} {i v : ℕ}

theorem isOnlyVaultOutput_of_created
    (h : findCreatedVaultOutput err outputs 0 none = .ok (some (i, v))) :
    IsOnlyVaultOutput outputs i v := by
  obtain ⟨j, rfl, -, honly⟩ :=
    findVaultOutput_spec ((sameOk_findCreatedVaultOutput err err outputs 0 none _).mp h)
  rwa [zero_add]

theorem IsOnlyVaultOutput.lt (h : IsOnlyVaultOutput outputs i v) : i < outputs.length := by
  obtain ⟨output, houtput, -⟩ := h.found
  exact (List.getElem?_eq_some_iff.mp houtput).1

end Agreement
end CryptixAtomic
