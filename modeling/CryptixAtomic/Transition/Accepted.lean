import CryptixAtomic.Transition.Effects

/-!
# What an accepted transaction does

An accepted transaction is a run of setter calls: those of its operation, its nonce,
and the anchor counts of the owners it touches. `transition_spec` says which calls,
and with which checks passed; everything later about accepted transactions follows
from it.
-/
namespace CryptixAtomic

open Foundation AtomicConsensusState StateCall List

namespace StateCall

theorem runAll_append (blake2b : Blake2b) {s t : AtomicConsensusState} {u : Unit}
    (as bs : List StateCall) :
    (runAll blake2b (as ++ bs)).run s = .ok u t ↔
      ∃ m, (runAll blake2b as).run s = .ok () m ∧ (runAll blake2b bs).run m = .ok u t := by
  induction as generalizing s with
  | nil => simp [runAll]
  | cons a as ih =>
    simp only [cons_append, runAll, run_bind_eq_ok, ih]
    constructor
    · rintro ⟨v, m, ha, n, has, hbs⟩
      exact ⟨n, ⟨v, m, ha, has⟩, hbs⟩
    · rintro ⟨n, ⟨v, m, ha, has⟩, hbs⟩
      exact ⟨v, m, ha, n, has, hbs⟩

end StateCall

namespace Transition

section Anchors

variable (blake2b : Blake2b) (ptx : PopulatedTransaction)

/-- The anchor counts a transaction leaves, one per owner it touches. -/
def anchorCalls (s : AtomicConsensusState) : List StateCall :=
  (anchorOwners blake2b ptx).map fun ownerId =>
    .setAnchorCount ownerId (newAnchorCount blake2b ptx ownerId (s.anchorCount ownerId))

theorem nodup_anchorOwners : (anchorOwners blake2b ptx).Nodup := Finset.sort_nodup ..

theorem anchorCount_setAnchorCount_of_ne (s : AtomicConsensusState) {ownerId other : Bytes32}
    (count : ℕ) (h : other ≠ ownerId) :
    (s.setAnchorCount blake2b ownerId count).anchorCount other = s.anchorCount other := by
  have hrun : (runAll blake2b [.setAnchorCount ownerId count]).run s =
      .ok () (s.setAnchorCount blake2b ownerId count) := rfl
  have hread := congrFun (sameReads_of_runAll blake2b hrun).anchor other
  have hkeep : (s.setAnchorCount blake2b ownerId count).anchorCountOption other =
      s.anchorCountOption other := by
    simpa [content, Content.putAll, Content.put, write, h] using hread
  simp only [anchorCount, hkeep]

/-- The owners are distinct, so that each count may be read before any is written. -/
theorem run_anchorCalls {s t : AtomicConsensusState}
    (h : ∀ ownerId, t.anchorCount ownerId = s.anchorCount ownerId) :
    (runAll blake2b (anchorCalls blake2b ptx s)).run t =
      .ok () (applyAnchorDeltasToAtomicState blake2b ptx t) := by
  have hlist : ∀ (owners : List Bytes32) (t : AtomicConsensusState), owners.Nodup →
      (∀ ownerId ∈ owners, t.anchorCount ownerId = s.anchorCount ownerId) →
      (runAll blake2b (owners.map fun ownerId => .setAnchorCount ownerId
        (newAnchorCount blake2b ptx ownerId (s.anchorCount ownerId)))).run t =
      .ok () (owners.foldl (fun s ownerId => s.setAnchorCount blake2b ownerId
        (newAnchorCount blake2b ptx ownerId (s.anchorCount ownerId))) t) := by
    intro owners
    induction owners with
    | nil =>
      intro t _ _
      rfl
    | cons ownerId owners ih =>
      intro t hnodup hsame
      rw [nodup_cons] at hnodup
      have hrest := ih (t.setAnchorCount blake2b ownerId
        (newAnchorCount blake2b ptx ownerId (s.anchorCount ownerId))) hnodup.2 (by
          intro other hother
          have hne : other ≠ ownerId := fun he => hnodup.1 (he ▸ hother)
          rw [anchorCount_setAnchorCount_of_ne blake2b t _ hne]
          exact hsame other (mem_cons_of_mem _ hother))
      rw [foldl_cons, hsame ownerId mem_cons_self]
      exact hrest
  exact hlist _ t (nodup_anchorOwners blake2b ptx) fun ownerId _ => h ownerId

end Anchors

section Steps

variable (blake2b : Blake2b) (params : AtomicParams) (ptx : PopulatedTransaction)
  (povDaaScore : ℕ) (ctx : AtomicCreationContext)

/-- The checks an admitted payload has passed. -/
structure Admission.Valid (a : Admission) (s : AtomicConsensusState)
    (spent : List (Bytes32 × TransactionOutpoint)) (parsed : ParsedAtomicPayload) : Prop where
  owner : resolveAtomicOwnerFromPopulatedTx blake2b ptx parsed.authInputIndex = .ok a.ownerId
  key : a.nonceKey = parsed.op.nonceKey a.ownerId
  nonce : parsed.nonce = s.nextNonce a.nonceKey
  next : a.nextNonce = parsed.nonce + 1
  nextFits : a.nextNonce < 2 ^ 64
  vaultInput : spent ≠ [] → parsed.op.spendsLiquidityVault = true
  vaultOutput : 0 < liquidityVaultOutputCount ptx.tx → parsed.op.allowsLiquidityVaultOutput = true
  anchor : validateReplacementAnchor blake2b ptx s a.ownerId = .ok ()

theorem admitPayload_spec {s : AtomicConsensusState} {spent : List (Bytes32 × TransactionOutpoint)}
    {parsed : ParsedAtomicPayload} {a : Admission}
    (h : admitPayload blake2b s ptx spent parsed = .ok a) :
    a.Valid blake2b ptx s spent parsed := by
  simp only [admitPayload, except_bind_eq_ok, failIf_eq_ok, okOr_eq_ok, checkedAdd_eq_some,
    except_pure_eq_ok, exists_const, not_not, not_and, Bool.not_eq_false, gt_iff_lt] at h
  obtain ⟨ownerId, howner, hnonce, _, ⟨hfits, rfl⟩, hinput, houtput, -, _, hanchor, rfl⟩ := h
  exact
    { owner := howner
      key := rfl
      nonce := hnonce
      next := by rw [hnonce]
      nextFits := hfits
      vaultInput := hinput
      vaultOutput := houtput
      anchor := hanchor }

/-- The setter calls of an accepted transaction, with the checks it passed. -/
inductive StepCalls (s : AtomicConsensusState) : List StateCall → Prop
  | plain (payload : payloadOf params ptx povDaaScore = .ok none)
      (collected : collectSpentLiquidityVaultInputs s ptx.populatedInputs = .ok [])
      (noVaultOutput : liquidityVaultOutputCount ptx.tx = 0) :
      StepCalls s (anchorCalls blake2b ptx s)
  | token {spent : List (Bytes32 × TransactionOutpoint)} {parsed : ParsedAtomicPayload}
      {a : Admission} {effect : OpEffect}
      (payload : payloadOf params ptx povDaaScore = .ok (some parsed))
      (collected : collectSpentLiquidityVaultInputs s ptx.populatedInputs = .ok spent)
      (admitted : a.Valid blake2b ptx s spent parsed)
      (spec : OpSpec blake2b s.view ptx a.ownerId ctx parsed.op effect) :
      StepCalls s (effect.calls ++ .setNextNonce a.nonceKey a.nextNonce :: anchorCalls blake2b ptx s)

theorem anchorCount_of_run_effect {s m : AtomicConsensusState} {effect : OpEffect}
    {key : AtomicNonceKey} {nonce : ℕ}
    (h : (runAll blake2b (effect.calls ++ [.setNextNonce key nonce])).run s = .ok () m)
    (ownerId : Bytes32) : m.anchorCount ownerId = s.anchorCount ownerId := by
  have hkeep : ∀ (calls : List StateCall) (c : Content),
      (∀ call ∈ calls, ∀ d : Content, (d.put call.write).anchor = d.anchor) →
      (c.putAll (calls.map write)).anchor = c.anchor := by
    intro calls
    induction calls with
    | nil =>
      intro c _
      rfl
    | cons call calls ih =>
      intro c hall
      exact (ih _ fun d hd => hall d (mem_cons_of_mem _ hd)).trans (hall call mem_cons_self c)
  have hsame : m.anchorCountOption = s.anchorCountOption := by
    refine (sameReads_of_runAll blake2b h).anchor.trans (hkeep _ _ ?_)
    intro call hcall d
    simp only [OpEffect.calls, mem_append, mem_map, mem_singleton] at hcall
    rcases hcall with (⟨write, -, rfl⟩ | ⟨write, -, rfl⟩) | rfl <;> rfl
  simp only [anchorCount, hsame]

/-- The calls of a token transaction, run in a state with the anchor counts of `s`. -/
theorem run_tokenCalls {s u m : AtomicConsensusState} {effect : OpEffect} (a : Admission)
    (hcounts : ∀ ownerId, u.anchorCount ownerId = s.anchorCount ownerId)
    (hrun : (runAll blake2b effect.calls).run u = .ok () m) :
    (runAll blake2b (effect.calls ++ .setNextNonce a.nonceKey a.nextNonce ::
        anchorCalls blake2b ptx s)).run u =
      .ok () (applyAnchorDeltasToAtomicState blake2b ptx
        (m.setNextNonce blake2b a.nonceKey a.nextNonce)) := by
  have hnonce : (runAll blake2b (effect.calls ++ [.setNextNonce a.nonceKey a.nextNonce])).run u =
      .ok () (m.setNextNonce blake2b a.nonceKey a.nextNonce) :=
    (runAll_append blake2b _ _).mpr ⟨m, hrun, rfl⟩
  have hanchors := run_anchorCalls blake2b ptx fun ownerId =>
    (anchorCount_of_run_effect blake2b hnonce ownerId).trans (hcounts ownerId)
  rw [← singleton_append, ← append_assoc]
  exact (runAll_append blake2b _ _).mpr ⟨_, hnonce, hanchors⟩

theorem transition_spec {s t : AtomicConsensusState} {u : Unit}
    (h : (validateAndApplyAtomicStateTransition blake2b params ptx povDaaScore ctx).run s =
      .ok u t) :
    ∃ calls, StepCalls blake2b params ptx povDaaScore ctx s calls ∧
      (runAll blake2b calls).run s = .ok () t := by
  simp only [validateAndApplyAtomicStateTransition, run_bind_eq_ok, run_get,
    EStateM.Result.ok.injEq, run_pureCheck_eq_ok] at h
  obtain ⟨_, _, ⟨rfl, rfl⟩, spent, _, ⟨hspent, rfl⟩, payload, _, ⟨hpayload, rfl⟩, h⟩ := h
  cases payload with
  | none =>
    simp only [run_bind_eq_ok, run_pureCheck_eq_ok, checkPlain, failIf_eq_ok, run_modify,
      EStateM.Result.ok.injEq, not_or, not_not, not_lt, Nat.le_zero, gt_iff_lt] at h
    obtain ⟨_, _, ⟨⟨rfl, hvault⟩, rfl⟩, -, rfl⟩ := h
    exact ⟨_, .plain hpayload hspent hvault, run_anchorCalls blake2b ptx fun _ => rfl⟩
  | some =>
    simp only [run_bind_eq_ok, run_pureCheck_eq_ok, applyAtomicOpToState, run_get, run_modify,
      EStateM.Result.ok.injEq] at h
    obtain ⟨a, _, ⟨hallowed, rfl⟩, _, m, ⟨_, _, ⟨rfl, rfl⟩, effect, _, ⟨heffect, rfl⟩, hrun⟩, _, _,
      ⟨-, rfl⟩, -, rfl⟩ := h
    exact ⟨_, .token hpayload hspent (admitPayload_spec blake2b ptx hallowed)
      (opEffect_spec heffect), run_tokenCalls blake2b ptx a (fun _ => rfl) hrun⟩

end Steps

end Transition
end CryptixAtomic
