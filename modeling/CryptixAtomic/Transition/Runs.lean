import CryptixAtomic.Transition.Frame

/-!
# Sequences of accepted transactions

Consensus accepts transactions one after another, each at a score and in a block of its
own. `Accepted` is such a sequence; rejected transactions leave no trace and do not
occur in it. Nonces are counted along it: the operations that use one key carry
consecutive nonces.
-/
namespace CryptixAtomic

open Foundation List

namespace Transition

/-- A transaction as block processing presents it to the token rules. -/
structure TxContext where
  ptx : PopulatedTransaction
  povDaaScore : ℕ
  ctx : AtomicCreationContext

section Runs

variable (blake2b : Blake2b) (params : AtomicParams)

/-- The transaction is accepted in `s` and leaves `t`. -/
def Accepts (s : AtomicConsensusState) (x : TxContext) (t : AtomicConsensusState) : Prop :=
  (validateAndApplyAtomicStateTransition blake2b params x.ptx x.povDaaScore x.ctx).run s = .ok () t

/-- Transactions accepted one after another, from `s` to `t`. -/
inductive Accepted : AtomicConsensusState → List TxContext → AtomicConsensusState → Prop
  | nil (s : AtomicConsensusState) : Accepted s [] s
  | cons {s m t : AtomicConsensusState} {x : TxContext} {xs : List TxContext}
      (step : Accepts blake2b params s x m) (rest : Accepted m xs t) : Accepted s (x :: xs) t

/-- The token payload of a transaction and the owner it acts for. -/
def authorizedPayload (x : TxContext) : Option (ParsedAtomicPayload × Bytes32) :=
  match payloadOf params x.ptx x.povDaaScore with
  | .ok (some parsed) =>
    match resolveAtomicOwnerFromPopulatedTx blake2b x.ptx parsed.authInputIndex with
    | .ok ownerId => some (parsed, ownerId)
    | .error _ => none
  | _ => none

/-- The nonce a transaction uses up, with its key. -/
def usedNonce (x : TxContext) : Option (AtomicNonceKey × ℕ) :=
  (authorizedPayload blake2b params x).map fun p => (p.1.op.nonceKey p.2, p.1.nonce)

def noncesOf (key : AtomicNonceKey) (xs : List TxContext) : List ℕ :=
  ((xs.filterMap (usedNonce blake2b params)).filter (·.1 = key)).map (·.2)

end Runs

section Runs

variable {blake2b : Blake2b} {params : AtomicParams}

theorem Accepts.reads {s t : AtomicConsensusState} {x : TxContext}
    (h : Accepts blake2b params s x t) :
    StepReads blake2b params x.ptx x.povDaaScore x.ctx s t :=
  transition_reads blake2b params x.ptx x.povDaaScore x.ctx h

theorem Accepted.induct {P : AtomicConsensusState → Prop} {s t : AtomicConsensusState}
    {xs : List TxContext} (h : Accepted blake2b params s xs t)
    (hstep : ∀ s x t, Accepts blake2b params s x t → P s → P t) (hs : P s) : P t := by
  induction h with
  | nil => exact hs
  | cons step rest ih => exact ih (hstep _ _ _ step hs)

end Runs

section Nonces

variable {blake2b : Blake2b} {params : AtomicParams}
variable {x : TxContext} {s t : AtomicConsensusState} {xs : List TxContext}

theorem authorizedPayload_of_token {parsed : ParsedAtomicPayload}
    {ownerId : Bytes32} (hpayload : payloadOf params x.ptx x.povDaaScore = .ok (some parsed))
    (howner : resolveAtomicOwnerFromPopulatedTx blake2b x.ptx parsed.authInputIndex =
      .ok ownerId) : authorizedPayload blake2b params x = some (parsed, ownerId) := by
  simp only [authorizedPayload, hpayload, howner]

theorem authorizedPayload_of_plain (hpayload : payloadOf params x.ptx x.povDaaScore = .ok none) :
    authorizedPayload blake2b params x = none := by
  simp only [authorizedPayload, hpayload]

/-- An accepted transaction uses no nonce and moves none, or it uses the next nonce of
its key and moves that key on by one. -/
theorem accepts_nonce (h : Accepts blake2b params s x t) :
    usedNonce blake2b params x = none ∧ t.nextNonce = s.nextNonce ∨
      ∃ key, usedNonce blake2b params x = some (key, s.nextNonce key) ∧
        t.nextNonce = Function.update s.nextNonce key (s.nextNonce key + 1) := by
  cases h.reads with
  | plain payload collected noVaultOutput nonces =>
    refine .inl ⟨by simp [usedNonce, authorizedPayload_of_plain payload], ?_⟩
    funext key
    simp only [AtomicConsensusState.nextNonce, nonces]
  | @token spent parsed a effect payload collected admitted spec nonces =>
    refine .inr ⟨a.nonceKey, ?_, ?_⟩
    · rw [usedNonce, authorizedPayload_of_token payload admitted.owner, ← admitted.nonce,
        admitted.key]
      rfl
    · funext key
      rw [← admitted.nonce, ← admitted.next]
      by_cases hkey : key = a.nonceKey
      · simp [AtomicConsensusState.nextNonce, nonces, hkey]
      · simp [AtomicConsensusState.nextNonce, nonces, hkey]

/-- The nonces of a key run on from the next one, without gaps. -/
theorem Accepted.nonces (h : Accepted blake2b params s xs t) (key : AtomicNonceKey) :
    noncesOf blake2b params key xs =
        range' (s.nextNonce key) (noncesOf blake2b params key xs).length ∧
      t.nextNonce key = s.nextNonce key + (noncesOf blake2b params key xs).length := by
  induction h with
  | nil => simp [noncesOf]
  | @cons s m t x xs step rest ih =>
    rcases accepts_nonce step with ⟨hnone, hsame⟩ | ⟨used, hused, hnext⟩
    · have hskip : noncesOf blake2b params key (x :: xs) = noncesOf blake2b params key xs := by
        simp [noncesOf, hnone]
      rw [hskip, ← hsame]
      exact ih
    · by_cases hkey : used = key
      · subst hkey
        have htake : noncesOf blake2b params used (x :: xs) =
            s.nextNonce used :: noncesOf blake2b params used xs := by
          simp [noncesOf, hused]
        have hm : m.nextNonce used = s.nextNonce used + 1 := by simp [hnext]
        rw [hm] at ih
        rw [htake, length_cons, range'_succ, ← ih.1]
        exact ⟨rfl, by omega⟩
      · have hskip : noncesOf blake2b params key (x :: xs) = noncesOf blake2b params key xs := by
          simp [noncesOf, hused, hkey]
        have hm : m.nextNonce key = s.nextNonce key := by simp [hnext, Ne.symm hkey]
        rw [hskip, ← hm]
        exact ih

theorem Accepted.le_of_mem_usedNonce
    (h : Accepted blake2b params s xs t) {key : AtomicNonceKey} {nonce : ℕ}
    (hmem : (key, nonce) ∈ xs.filterMap (usedNonce blake2b params)) : s.nextNonce key ≤ nonce := by
  have hin : nonce ∈ noncesOf blake2b params key xs := by
    simp only [noncesOf, mem_map, mem_filter]
    exact ⟨(key, nonce), ⟨hmem, by simp⟩, rfl⟩
  rw [(h.nonces key).1, mem_range'_1] at hin
  exact hin.1

theorem Accepted.nodup_usedNonce
    (h : Accepted blake2b params s xs t) : (xs.filterMap (usedNonce blake2b params)).Nodup := by
  induction h with
  | nil => simp
  | @cons s m t x xs step rest ih =>
    rcases accepts_nonce step with ⟨hnone, -⟩ | ⟨used, hused, hnext⟩
    · rwa [filterMap_cons_none hnone]
    · rw [filterMap_cons_some hused, nodup_cons]
      refine ⟨fun hmem => ?_, ih⟩
      have hle := rest.le_of_mem_usedNonce hmem
      rw [hnext, Function.update_self] at hle
      omega

end Nonces

end Transition
end CryptixAtomic
