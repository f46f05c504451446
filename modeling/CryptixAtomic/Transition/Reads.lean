import CryptixAtomic.Transition.Accepted

/-!
# What reads see after an accepted transaction

`StepReads` lists the checks an accepted transaction has passed together with every
read of the state it leaves. It is the only fact about a single transaction that the
results about runs use.
-/
namespace CryptixAtomic

open Foundation AtomicConsensusState StateCall

namespace OpEffect

variable (e : OpEffect)

def assetAfter (f : Bytes32 → Option AtomicAssetState) : Bytes32 → Option AtomicAssetState :=
  match e.asset with
  | none => f
  | some write => Function.update f write.1 (some write.2)

variable (f : AtomicBalanceKey → Option ℕ)

def balanceAfter : AtomicBalanceKey → Option ℕ :=
  e.balances.foldl (fun f write => Function.update f write.1 (nonZero write.2)) f

/-- The balances after an operation, with absent ones as zero. -/
def amountAfter (f : AtomicBalanceKey → ℕ) : AtomicBalanceKey → ℕ :=
  e.balances.foldl (fun f write => Function.update f write.1 write.2) f

@[simp] theorem getD_nonZero (amount : ℕ) : (nonZero amount).getD 0 = amount := by
  unfold nonZero
  split_ifs with h
  · rfl
  · exact (not_not.mp h).symm

theorem balanceAfter_getD (key : AtomicBalanceKey) :
    (e.balanceAfter f key).getD 0 = e.amountAfter (fun k => (f k).getD 0) key := by
  unfold balanceAfter amountAfter
  induction e.balances generalizing f with
  | nil => rfl
  | cons write rest ih =>
    have hstep : (fun k => (Function.update f write.1 (nonZero write.2) k).getD 0) =
        Function.update (fun k => (f k).getD 0) write.1 write.2 := by
      funext k
      by_cases hk : k = write.1 <;> simp [hk]
    rw [List.foldl_cons, List.foldl_cons, ih, hstep]

theorem putAll_calls (c : Content) : (c.putAll (e.calls.map StateCall.write)).SameReads { c with
        ledger := { c.ledger with table := e.assetAfter c.ledger.table }
        balance := e.balanceAfter c.balance } := by
  have hbalances : ∀ (ws : List (AtomicBalanceKey × ℕ)) (d : Content),
      d.putAll ((ws.map fun write => StateCall.setBalance write.1 write.2).map StateCall.write) =
        { d with balance := ws.foldl (fun f write =>
            Function.update f write.1 (nonZero write.2)) d.balance } := by
    intro ws
    induction ws with
    | nil =>
      intro d
      rfl
    | cons write ws ih =>
      intro d
      exact ih _
  have hsplit : c.putAll (e.calls.map StateCall.write) =
      (c.putAll (e.asset.toList.map fun write => Write.asset write.1 (some write.2))).putAll
        ((e.balances.map fun write => StateCall.setBalance write.1 write.2).map
          StateCall.write) := by
    simp [calls, Content.putAll, StateCall.write, Function.comp_def]
  rw [hsplit, hbalances]
  cases hasset : e.asset with
  | none => exact ⟨rfl, by simp [assetAfter, hasset, Content.putAll], rfl, rfl⟩
  | some =>
    exact ⟨rfl, by simp [assetAfter, hasset, Content.putAll, Content.put, Indexed.write], rfl, rfl⟩

end OpEffect

namespace Transition

section Reads

variable (blake2b : Blake2b) (params : AtomicParams) (ptx : PopulatedTransaction)
  (povDaaScore : ℕ) (ctx : AtomicCreationContext)

def anchorAfter (f : Bytes32 → Option ℕ) (ownerId : Bytes32) : Option ℕ :=
  if ownerId ∈ anchorOwners blake2b ptx then
    nonZero (newAnchorCount blake2b ptx ownerId ((f ownerId).getD 0))
  else f ownerId

theorem putAll_setAnchorCounts (count : Bytes32 → ℕ) (owners : List Bytes32) (c : Content) :
    c.putAll ((owners.map fun ownerId => setAnchorCount ownerId (count ownerId)).map write) =
      { c with
        anchor := fun ownerId =>
          if ownerId ∈ owners then nonZero (count ownerId)
          else c.anchor ownerId } := by
  induction owners generalizing c with
  | nil => simp [Content.putAll]
  | cons owner owners ih =>
    refine (ih (c.put (.anchor owner (nonZero (count owner))))).trans ?_
    simp only [Content.put]
    congr 1
    funext ownerId
    by_cases hmem : ownerId ∈ owners
    · simp [hmem]
    · by_cases howner : ownerId = owner <;> simp [hmem, howner]

theorem putAll_anchorCalls (s : AtomicConsensusState) (c : Content)
    (hc : c.anchor = s.anchorCountOption) :
    c.putAll ((anchorCalls blake2b ptx s).map write) =
      { c with anchor := anchorAfter blake2b ptx s.anchorCountOption } := by
  rw [anchorCalls, putAll_setAnchorCounts, hc]
  rfl

/-- The reads of the state `t` after an accepted transaction in state `s`. -/
inductive StepReads (s t : AtomicConsensusState) : Prop
  | plain (payload : payloadOf params ptx povDaaScore = .ok none)
      (collected : collectSpentLiquidityVaultInputs s ptx.populatedInputs = .ok [])
      (noVaultOutput : liquidityVaultOutputCount ptx.tx = 0)
      (nonces : t.nonceOption = s.nonceOption)
      (assets : t.assetOption = s.assetOption)
      (balances : t.balanceOption = s.balanceOption)
      (anchors : t.anchorCountOption = anchorAfter blake2b ptx s.anchorCountOption)
  | token {spent : List (Bytes32 × TransactionOutpoint)} {parsed : ParsedAtomicPayload}
      {a : Admission} {effect : OpEffect}
      (payload : payloadOf params ptx povDaaScore = .ok (some parsed))
      (collected : collectSpentLiquidityVaultInputs s ptx.populatedInputs = .ok spent)
      (admitted : a.Valid blake2b ptx s spent parsed)
      (spec : OpSpec blake2b s.view ptx a.ownerId ctx parsed.op effect)
      (nonces : t.nonceOption = Function.update s.nonceOption a.nonceKey (some a.nextNonce))
      (assets : t.assetOption = effect.assetAfter s.assetOption)
      (balances : t.balanceOption = effect.balanceAfter s.balanceOption)
      (anchors : t.anchorCountOption = anchorAfter blake2b ptx s.anchorCountOption)

theorem transition_reads {s t : AtomicConsensusState} {u : Unit}
    (h : (validateAndApplyAtomicStateTransition blake2b params ptx povDaaScore ctx).run s =
      .ok u t) : StepReads blake2b params ptx povDaaScore ctx s t := by
  obtain ⟨calls, hcalls, hrun⟩ := transition_spec blake2b params ptx povDaaScore ctx h
  have hreads := sameReads_of_runAll blake2b hrun
  cases hcalls with
  | plain payload collected noVaultOutput =>
    rw [putAll_anchorCalls blake2b ptx s s.content rfl] at hreads
    exact .plain payload collected noVaultOutput hreads.nonce hreads.table hreads.balance
      hreads.anchor
  | @token spent parsed a effect payload collected admitted spec =>
    have hsplit : s.content.putAll ((effect.calls ++
        .setNextNonce a.nonceKey a.nextNonce :: anchorCalls blake2b ptx s).map write) =
        ((s.content.putAll (effect.calls.map write)).put
          (.nonce a.nonceKey (some a.nextNonce))).putAll
            ((anchorCalls blake2b ptx s).map write) := by
      simp [Content.putAll, write]
    rw [hsplit] at hreads
    have heffect := (effect.putAll_calls s.content).put (.nonce a.nonceKey (some a.nextNonce))
    have hall := hreads.trans (heffect.putAll ((anchorCalls blake2b ptx s).map write))
    rw [putAll_anchorCalls blake2b ptx s _ rfl] at hall
    exact .token payload collected admitted spec hall.nonce hall.table hall.balance hall.anchor

end Reads

end Transition
end CryptixAtomic
