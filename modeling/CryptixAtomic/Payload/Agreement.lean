import CryptixAtomic.Payload.Index
import CryptixAtomic.Payload.Mempool

/-!
# Agreement of the three payload parsers

The consensus and the index parser accept the same byte strings and yield the
same contents; the mempool parser accepts whatever consensus accepts and keeps
the matching slots. Each statement below is about one pair of parsers and follows
their common structure.
-/
namespace CryptixAtomic
namespace PayloadAgreement

open Foundation Reader Agree Reader

variable (e : String)

theorem takeU8 : Agree Eq (ConsensusPayload.takeU8 e) IndexPayload.takeU8 := by
  intro bytes cursor
  by_cases h : cursor + 1 ≤ bytes.length
  · have hget : bytes[cursor]? = some bytes[cursor] := List.getElem?_eq_getElem h
    exact .inr ⟨bytes[cursor], bytes[cursor], cursor + 1,
      by simp [ConsensusPayload.takeU8, Reader.byte, hget], dif_pos h, rfl⟩
  · have hget : bytes[cursor]? = none := List.getElem?_eq_none (by omega)
    exact .inl ⟨e, .badLength, by simp [ConsensusPayload.takeU8, Reader.byte, hget], dif_neg h⟩

theorem takeU16Le : Agree Eq (ConsensusPayload.takeU16Le e) IndexPayload.takeU16Le :=
  uintLe 2 _ _

theorem takeU64Le : Agree Eq (ConsensusPayload.takeU64Le e) IndexPayload.takeU64Le :=
  uintLe 8 _ _

theorem takeU128Le : Agree Eq (ConsensusPayload.takeU128Le e) IndexPayload.takeU128Le :=
  uintLe 16 _ _

theorem take32 : Agree Eq (ConsensusPayload.take32 e) IndexPayload.take32 :=
  exactly 32 _ _

theorem takeVec (len : ℕ) (e : String) :
    Agree Eq (ConsensusPayload.takeVec len e) (IndexPayload.takeVec len) :=
  (Agree.exactly len _ _).bindEq fun _ => .pure rfl

theorem check_failIf {c : Prop} [Decidable c] (e' : NoopReason) :
    Agree Eq (check (failIf c e)) (check (failIf c e')) := by
  by_cases h : c <;> exact check (by simp [failIf, h, Except.toOption])

theorem check_of_iff {x : Except String Unit} {y : Except NoopReason Unit}
    (h : x = .ok () ↔ y = .ok ()) : Agree Eq (check x) (check y) := by
  apply Agree.check
  cases x <;> cases y <;> simp_all [Except.toOption]

theorem curveMode (mode : UInt8) :
    Agree Eq (check (validateLiquidityCurveMode ConsensusPayload.curveErrors mode))
      (check (validateLiquidityCurveMode IndexPayload.curveErrors mode)) :=
  check_of_iff (by simp)

theorem curveParameters (mode : UInt8) (c m : ℕ) : Agree Eq
      (check (validateLiquidityCurveParameters ConsensusPayload.curveErrors mode c m))
      (check (validateLiquidityCurveParameters IndexPayload.curveErrors mode c m)) :=
  check_of_iff (by simp)

theorem parseSupplyMode :
    Agree Eq ConsensusPayload.parseSupplyMode IndexPayload.parseSupplyMode := by
  refine (takeU8 _).bindEq fun raw => ?_
  split_ifs
  · exact .pure rfl
  · exact .pure rfl
  · exact .fail _ _

theorem parseAssetTexts :
    Agree Eq ConsensusPayload.parseAssetTexts IndexPayload.parseAssetTexts := by
  refine (takeU8 _).bindEq fun nameLen => ?_
  refine (takeU8 _).bindEq fun symbolLen => ?_
  refine (takeU16Le _).bindEq fun metadataLen => ?_
  refine .rejectIf_bind fun _ => ?_
  refine (takeVec _ _).bindEq fun name => ?_
  refine (takeVec _ _).bindEq fun symbol => ?_
  refine (takeVec _ _).bindEq fun metadata => ?_
  exact .rejectIf_bind fun _ => .pure rfl

theorem parseCreateAssetCommon :
    Agree Eq ConsensusPayload.parseCreateAssetCommon IndexPayload.parseCreateAssetCommon := by
  refine (takeU8 _).bindEq fun tokenVersion => ?_
  refine (check_failIf _ _).bindEq fun _ => ?_
  refine (takeU8 _).bindEq fun decimals => ?_
  refine .rejectIf_bind fun _ => ?_
  refine parseSupplyMode.bindEq fun supplyMode => ?_
  refine (takeU128Le _).bindEq fun maxSupply => ?_
  refine (take32 _).bindEq fun mintAuthority => ?_
  refine parseAssetTexts.bindEq fun texts => ?_
  refine .rejectIf_bind fun _ => ?_
  exact .rejectIf_bind fun _ => .pure rfl

theorem parsePlatformTag :
    Agree Eq ConsensusPayload.parsePlatformTag IndexPayload.parsePlatformTag := by
  refine (takeU8 _).bindEq fun len => ?_
  refine .rejectIf_bind fun _ => ?_
  refine (takeVec _ _).bindEq fun tag => ?_
  exact .rejectIf_bind fun _ => .pure rfl

theorem parseOptionalPlatformTagTail : Agree Eq ConsensusPayload.parseOptionalPlatformTagTail
      IndexPayload.parseOptionalPlatformTagTail := by
  refine atEnd.bindEq fun done => ?_
  cases done
  · exact parsePlatformTag
  · exact .pure rfl

theorem parseOptionalCurve :
    Agree Eq ConsensusPayload.parseOptionalCurve IndexPayload.parseOptionalCurve := by
  refine atEnd.bindEq fun done => ?_
  cases done
  · refine (takeU8 _).bindEq fun mode => ?_
    refine (curveMode mode).bindEq fun _ => ?_
    split_ifs
    · refine (takeU64Le _).bindEq fun fixedCpay => ?_
      refine (takeU16Le _).bindEq fun multiplier => ?_
      exact (curveParameters _ _ _).bindEq fun _ => .pure rfl
    · exact (curveParameters _ _ _).bindEq fun _ => .pure rfl
  · exact .pure rfl

/-- Consensus rejects a target above the maximum; the index accepts zero or a
target up to it. -/
theorem unlockTarget (target : ℕ) : Agree Eq (Reader.rejectIf (target > maxSompi) e)
      (Reader.check (IndexPayload.validateLiquidityUnlockTarget target)) := by
  have hiff : ¬(target = 0 ∨ target ≤ maxSompi) ↔ target > maxSompi := by omega
  by_cases h : target > maxSompi
  · refine .of_rejects (.rejectIf h) fun _ _ => ⟨.badLiquidityUnlockTarget, ?_⟩
    simp only [Reader.check, IndexPayload.validateLiquidityUnlockTarget, failIf, if_pos (hiff.mpr h)]
    rfl
  · intro _ cursor
    refine .inr ⟨(), (), cursor, ?_, ?_, rfl⟩
    · simp only [Reader.rejectIf, if_neg h]
      rfl
    · simp only [Reader.check, IndexPayload.validateLiquidityUnlockTarget, failIf,
        if_neg (mt hiff.mp h)]
      rfl

theorem parseOptionalLiquidityCreateTail :
    Agree Eq ConsensusPayload.parseOptionalLiquidityCreateTail
      IndexPayload.parseOptionalLiquidityCreateTail := by
  refine atEnd.bindEq fun done => ?_
  cases done
  · refine parsePlatformTag.bindEq fun tag => ?_
    refine (takeU64Le _).bindEq fun target => ?_
    refine (unlockTarget _ target).bindEq fun _ => ?_
    exact parseOptionalCurve.bindEq fun _ => .pure rfl
  · exact .pure rfl

theorem parseRecipientAddress :
    Agree Eq ConsensusPayload.parseRecipientAddress IndexPayload.parseRecipientAddress := by
  refine (takeU8 _).bindEq fun version => ?_
  refine bindEq ?_ fun len => (takeVec _ _).bindEq fun payload => .pure rfl
  split_ifs
  · exact .pure rfl
  · exact .pure rfl
  · exact .pure rfl
  · exact .fail _ _

theorem parseFeeRecipients :
    Agree Eq ConsensusPayload.parseFeeRecipients IndexPayload.parseFeeRecipients := by
  refine (takeU16Le _).bindEq fun feeBps => ?_
  refine .rejectIf_bind fun _ => ?_
  refine (takeU8 _).bindEq fun count => ?_
  refine .rejectIf_bind fun _ => ?_
  refine .rejectIf_bind fun _ => ?_
  refine .rejectIf_bind fun _ => ?_
  refine (times parseRecipientAddress _).bindEq fun recipients => ?_
  refine bindEq (check_of_iff ?_) fun _ => .pure rfl
  split <;> simp

/-- A consensus operation and an index operation of one kind with equal contents. -/
def SameOp (code : TokenOpCode) (a : AtomicPayloadOp) (b : TokenOp) : Prop :=
  a.toTokenOp = b ∧ a.code = code

theorem createAsset : Agree (SameOp .createAsset) ConsensusPayload.parseCreateAsset
      (IndexPayload.parseOp .createAsset) := by
  refine .map_right (parseCreateAssetCommon.bindEq fun common => ?_)
  exact parseOptionalPlatformTagTail.bindEq fun tag => .pure ⟨rfl, rfl⟩

theorem transfer :
    Agree (SameOp .transfer) ConsensusPayload.parseTransfer (IndexPayload.parseOp .transfer) := by
  refine .map_right ((take32 _).bindEq fun assetId => ?_)
  refine (take32 _).bindEq fun toOwnerId => ?_
  refine (takeU128Le _).bindEq fun amount => ?_
  exact .rejectIf_bind fun _ => .pure ⟨rfl, rfl⟩

theorem mint : Agree (SameOp .mint) ConsensusPayload.parseMint (IndexPayload.parseOp .mint) := by
  refine .map_right ((take32 _).bindEq fun assetId => ?_)
  refine (take32 _).bindEq fun toOwnerId => ?_
  refine (takeU128Le _).bindEq fun amount => ?_
  exact .rejectIf_bind fun _ => .pure ⟨rfl, rfl⟩

theorem burn : Agree (SameOp .burn) ConsensusPayload.parseBurn (IndexPayload.parseOp .burn) := by
  refine .map_right ((take32 _).bindEq fun assetId => ?_)
  refine (takeU128Le _).bindEq fun amount => ?_
  exact .rejectIf_bind fun _ => .pure ⟨rfl, rfl⟩

theorem createAssetWithMint :
    Agree (SameOp .createAssetWithMint) ConsensusPayload.parseCreateAssetWithMint
      (IndexPayload.parseOp .createAssetWithMint) := by
  refine .map_right (parseCreateAssetCommon.bindEq fun common => ?_)
  refine (takeU128Le _).bindEq fun amount => ?_
  refine (take32 _).bindEq fun owner => ?_
  refine .rejectIf_bind fun _ => ?_
  refine .rejectIf_bind fun _ => ?_
  exact parseOptionalPlatformTagTail.bindEq fun tag => .pure ⟨rfl, rfl⟩

theorem createLiquidityAsset :
    Agree (SameOp .createLiquidityAsset) ConsensusPayload.parseCreateLiquidityAsset
      (IndexPayload.parseOp .createLiquidityAsset) := by
  refine .map_right ((takeU8 _).bindEq fun tokenVersion => ?_)
  refine (check_failIf _ _).bindEq fun _ => ?_
  refine (takeU8 _).bindEq fun curveVersion => ?_
  refine (check_failIf _ _).bindEq fun _ => ?_
  refine (takeU8 _).bindEq fun decimals => ?_
  refine .rejectIf_bind fun _ => ?_
  refine (takeU128Le _).bindEq fun maxSupply => ?_
  refine .rejectIf_bind fun _ => ?_
  refine parseAssetTexts.bindEq fun texts => ?_
  refine (takeU64Le _).bindEq fun seed => ?_
  refine .rejectIf_bind fun _ => ?_
  refine parseFeeRecipients.bindEq fun fees => ?_
  refine (takeU64Le _).bindEq fun launchBuy => ?_
  refine (takeU128Le _).bindEq fun launchMin => ?_
  refine .rejectIf_bind fun _ => ?_
  refine .rejectIf_bind fun _ => ?_
  exact parseOptionalLiquidityCreateTail.bindEq fun tail => .pure ⟨rfl, rfl⟩

section Trades

theorem buyLiquidityExactIn :
    Agree (SameOp .buyLiquidityExactIn) ConsensusPayload.parseBuyLiquidityExactIn
      (IndexPayload.parseOp .buyLiquidityExactIn) := by
  refine .map_right ((take32 _).bindEq fun assetId => ?_)
  refine (takeU64Le _).bindEq fun poolNonce => ?_
  by_cases h : poolNonce = 0
  · refine .of_rejects (.bind_left (.rejectIf h)) ?_
    exact .bind_right fun _ => .bind_right fun _ => .bind_left (.rejectIf h)
  · rw [rejectIf_bind_of_not h]
    refine (takeU64Le _).bindEq fun cpayIn => ?_
    refine (takeU128Le _).bindEq fun minOut => ?_
    rw [rejectIf_bind_of_not h]
    refine .rejectIf_bind fun _ => ?_
    exact .rejectIf_bind fun _ => .pure ⟨rfl, rfl⟩

theorem sellLiquidityExactIn :
    Agree (SameOp .sellLiquidityExactIn) ConsensusPayload.parseSellLiquidityExactIn
      (IndexPayload.parseOp .sellLiquidityExactIn) := by
  refine .map_right ((take32 _).bindEq fun assetId => ?_)
  refine (takeU64Le _).bindEq fun poolNonce => ?_
  by_cases h : poolNonce = 0
  · refine .of_rejects (.bind_left (.rejectIf h)) ?_
    exact .bind_right fun _ => .bind_right fun _ => .bind_right fun _ =>
      .bind_left (.rejectIf h)
  · rw [rejectIf_bind_of_not h]
    refine (takeU128Le _).bindEq fun tokenIn => ?_
    refine (takeU64Le _).bindEq fun minOut => ?_
    refine (takeU16Le _).bindEq fun receiveIndex => ?_
    rw [rejectIf_bind_of_not h]
    refine .rejectIf_bind fun _ => ?_
    exact .rejectIf_bind fun _ => .pure ⟨rfl, rfl⟩

theorem claimLiquidityFees :
    Agree (SameOp .claimLiquidityFees) ConsensusPayload.parseClaimLiquidityFees
      (IndexPayload.parseOp .claimLiquidityFees) := by
  refine .map_right ((take32 _).bindEq fun assetId => ?_)
  refine (takeU64Le _).bindEq fun poolNonce => ?_
  by_cases h : poolNonce = 0
  · refine .of_rejects (.bind_left (.rejectIf h)) ?_
    exact .bind_right fun _ => .bind_right fun _ => .bind_right fun _ =>
      .bind_left (.rejectIf h)
  · rw [rejectIf_bind_of_not h]
    refine (takeU8 _).bindEq fun recipientIndex => ?_
    refine (takeU64Le _).bindEq fun amount => ?_
    refine (takeU16Le _).bindEq fun receiveIndex => ?_
    rw [rejectIf_bind_of_not h]
    exact .rejectIf_bind fun _ => .pure ⟨rfl, rfl⟩

end Trades

variable {raw : UInt8}

theorem parseOp (h : ¬raw > 8) : ∃ code, IndexPayload.opCode raw = .ok code ∧
      Agree (SameOp code) (ConsensusPayload.parseOp raw) (IndexPayload.parseOp code) := by
  unfold ConsensusPayload.parseOp IndexPayload.opCode
  split_ifs with h0 h1 h2 h3 h4 h5 h6 h7 h8
  · exact ⟨_, rfl, createAsset⟩
  · exact ⟨_, rfl, transfer⟩
  · exact ⟨_, rfl, mint⟩
  · exact ⟨_, rfl, burn⟩
  · exact ⟨_, rfl, createAssetWithMint⟩
  · exact ⟨_, rfl, createLiquidityAsset⟩
  · exact ⟨_, rfl, buyLiquidityExactIn⟩
  · exact ⟨_, rfl, sellLiquidityExactIn⟩
  · exact ⟨_, rfl, claimLiquidityFees⟩
  · simp only [gt_iff_lt, UInt8.lt_iff_toNat_lt, ← UInt8.toNat_inj] at *
    simp at *
    omega

theorem opCode_rejects (h : raw > 8) : IndexPayload.opCode raw = .error .badOp := by
  have hne : ∀ k : UInt8, k ≤ 8 → raw ≠ k := fun k hk he => absurd h (not_lt.mpr (he ▸ hk))
  simp [IndexPayload.opCode, hne 0 (by decide), hne 1 (by decide), hne 2 (by decide), hne 3
      (by decide), hne 4 (by decide), hne 5 (by decide), hne 6 (by decide), hne 7 (by decide), hne 8
      (by decide)]

theorem parsePayload : Agree (fun p q => p.toToken = q) ConsensusPayload.parsePayloadBody
      IndexPayload.parseAtomicTokenPayloadStrict := by
  refine (takeVec _ _).bindEq fun magic => ?_
  refine .rejectIf_bind fun _ => ?_
  refine (takeU8 _).bindEq fun version => ?_
  refine .rejectIf_bind fun _ => ?_
  refine (takeU8 _).bindEq fun raw => ?_
  by_cases hraw : raw > 8
  · refine .of_rejects (.bind_left (.rejectIf hraw)) (.bind_left fun _ _ => ⟨.badOp, ?_⟩)
    rw [Reader.check, opCode_rejects hraw]
    rfl
  · obtain ⟨code, hcode, hop⟩ := parseOp hraw
    rw [rejectIf_bind_of_not hraw, hcode, check_ok_bind]
    refine (takeU8 _).bindEq fun flags => ?_
    refine .rejectIf_bind fun _ => ?_
    refine (takeU16Le _).bindEq fun authInputIndex => ?_
    refine (takeU64Le _).bindEq fun nonce => ?_
    refine .rejectIf_bind fun _ => ?_
    refine hop.bind fun a b hab => ?_
    refine atEnd.bindEq fun done => ?_
    refine .rejectIf_bind fun _ => .pure ?_
    simp only [ParsedAtomicPayload.toToken, hab.1, hab.2]

section Mempool

/-- A scope and slot are the ones the operation asks for. -/
def ScopeOf (op : AtomicPayloadOp) (r : ParsedAtomicNonceScope × Option (Bytes32 × ℕ)) : Prop :=
  r = (op.mempoolScope, op.poolSlot?)

theorem scope_of_creation (hraw : ¬raw > 8) (h : raw = 0 ∨ raw = 4 ∨ raw = 5) :
    Yields (fun op => ScopeOf op (.owner, none)) (ConsensusPayload.parseOp raw) := by
  obtain ⟨code, hcode, hop⟩ := parseOp hraw
  refine hop.yields fun op _ hsame => ?_
  have hkind : op.code = .createAsset ∨ op.code = .createAssetWithMint ∨
      op.code = .createLiquidityAsset := by
    rw [hsame.2]
    rcases h with rfl | rfl | rfl <;> cases hcode <;> simp
  cases op <;> simp_all [AtomicPayloadOp.code, ScopeOf, AtomicPayloadOp.mempoolScope,
    AtomicPayloadOp.assetId?, AtomicPayloadOp.poolSlot?]

theorem transfer_scope : Refines ScopeOf ConsensusPayload.parseTransfer
    (MempoolPayload.parseScope 1) := by
  refine .bindEq (exactly 32 _ _) fun assetId => .pure_right ?_
  exact .bind_right fun _ => .bind_right fun _ => .bind_right fun _ => .pure rfl

theorem mint_scope : Refines ScopeOf ConsensusPayload.parseMint (MempoolPayload.parseScope 2) := by
  refine .bindEq (exactly 32 _ _) fun assetId => .pure_right ?_
  exact .bind_right fun _ => .bind_right fun _ => .bind_right fun _ => .pure rfl

theorem burn_scope : Refines ScopeOf ConsensusPayload.parseBurn (MempoolPayload.parseScope 3) := by
  refine .bindEq (exactly 32 _ _) fun assetId => .pure_right ?_
  exact .bind_right fun _ => .bind_right fun _ => .pure rfl

theorem buy_scope : Refines ScopeOf ConsensusPayload.parseBuyLiquidityExactIn
    (MempoolPayload.parseScope 6) := by
  refine .bindEq (exactly 32 _ _) fun assetId => ?_
  refine .bindEq (uintLe 8 _ _) fun poolNonce => ?_
  refine .rejectIf_bind fun _ => .pure_right ?_
  exact .bind_right fun _ => .bind_right fun _ => .bind_right fun _ => .bind_right fun _ =>
    .pure rfl

theorem sell_scope : Refines ScopeOf ConsensusPayload.parseSellLiquidityExactIn
    (MempoolPayload.parseScope 7) := by
  refine .bindEq (exactly 32 _ _) fun assetId => ?_
  refine .bindEq (uintLe 8 _ _) fun poolNonce => ?_
  refine .rejectIf_bind fun _ => .pure_right ?_
  exact .bind_right fun _ => .bind_right fun _ => .bind_right fun _ => .bind_right fun _ =>
    .bind_right fun _ => .pure rfl

theorem claim_scope : Refines ScopeOf ConsensusPayload.parseClaimLiquidityFees
    (MempoolPayload.parseScope 8) := by
  refine .bindEq (exactly 32 _ _) fun assetId => ?_
  refine .bindEq (uintLe 8 _ _) fun poolNonce => ?_
  refine .rejectIf_bind fun _ => .pure_right ?_
  exact .bind_right fun _ => .bind_right fun _ => .bind_right fun _ => .bind_right fun _ =>
    .pure rfl

theorem parseScope (hraw : ¬raw > 8) :
    Refines ScopeOf (ConsensusPayload.parseOp raw) (MempoolPayload.parseScope raw) := by
  by_cases hc : raw = 0 ∨ raw = 4 ∨ raw = 5
  · rw [MempoolPayload.parseScope, if_pos hc]
    exact .pure_right (scope_of_creation hraw hc)
  · have hrest : raw = 1 ∨ raw = 2 ∨ raw = 3 ∨ raw = 6 ∨ raw = 7 ∨ raw = 8 := by
      simp only [gt_iff_lt, UInt8.lt_iff_toNat_lt, ← UInt8.toNat_inj] at *
      simp at *
      omega
    rcases hrest with rfl | rfl | rfl | rfl | rfl | rfl
    · exact transfer_scope
    · exact mint_scope
    · exact burn_scope
    · exact buy_scope
    · exact sell_scope
    · exact claim_scope

theorem mempoolPayload : Refines (fun p m => p.toMempool = m) ConsensusPayload.parsePayloadBody
      (ConsensusPayload.takeVec catMagic.length "truncated CAT magic" >>=
        fun _ => MempoolPayload.parsePayloadBody) := by
  refine .bindEq ((Agree.exactly _ _ _).bindEq fun _ => .pure rfl) fun magic => ?_
  refine .rejectIf_left fun _ => ?_
  refine .bindEq (Agree.byte _ _) fun version => ?_
  refine .rejectIf_bind fun _ => ?_
  refine .bindEq (Agree.byte _ _) fun raw => ?_
  refine .rejectIf_bind fun hraw => ?_
  refine .bindEq (Agree.byte _ _) fun flags => ?_
  refine .rejectIf_bind fun _ => ?_
  refine .bindEq (Agree.uintLe 2 _ _) fun authInputIndex => ?_
  refine .bindEq (Agree.uintLe 8 _ _) fun nonce => ?_
  refine .rejectIf_bind fun _ => ?_
  refine (parseScope hraw).bind_return fun op r hscope => ⟨_, rfl, ?_⟩
  refine .bind_right fun _ => .bind_right fun _ => .pure ?_
  rw [ScopeOf] at hscope
  simp only [ParsedAtomicPayload.toMempool, hscope]

end Mempool

end PayloadAgreement

open Foundation

/-- How the outcomes of the two full parsers relate: neither sees a token payload,
both reject it, or both accept the same header and operation. -/
inductive SameOutcome :
    Except String (Option ParsedAtomicPayload) → Option (Except NoopReason ParsedTokenPayload) →
      Prop
  | notToken : SameOutcome (.ok none) none
  | rejected (e : String) (reason : NoopReason) : SameOutcome (.error e) (some (.error reason))
  | accepted (p : ParsedAtomicPayload) : SameOutcome (.ok (some p)) (some (.ok p.toToken))

theorem sameOutcome_parse (payload : List UInt8) :
    SameOutcome (parseAtomicPayload payload) (parseAtomicTokenPayload payload) := by
  have hthree : catMagic.length = 3 := rfl
  rw [parseAtomicPayload, parseAtomicTokenPayload, hthree]
  by_cases hlen : payload.length < 3
  · rw [if_pos (.inl hlen), if_pos hlen]
    exact .notToken
  by_cases hmagic : payload.take 3 ≠ catMagic
  · rw [if_pos (.inr hmagic), if_neg hlen, if_pos hmagic]
    exact .notToken
  rw [if_neg (not_or.mpr ⟨hlen, hmagic⟩), if_neg hlen, if_neg hmagic]
  rcases PayloadAgreement.parsePayload payload 0 with
    ⟨e, reason, hc, hi⟩ | ⟨p, t, next, hc, hi, rfl⟩
  · rw [hc, hi]
    exact .rejected e reason
  · rw [hc, hi]
    exact .accepted p

variable {p : ParsedAtomicPayload}

theorem parseAtomicPayload_eq_some {payload : List UInt8}
    (h : parseAtomicPayload payload = .ok (some p)) :
    catMagic.length ≤ payload.length ∧ payload.take catMagic.length = catMagic ∧
      ∃ next, ConsensusPayload.parsePayloadBody payload 0 = .ok (p, next) := by
  by_cases hcat : payload.length < catMagic.length ∨ payload.take catMagic.length ≠ catMagic
  · rw [parseAtomicPayload, if_pos hcat] at h
    cases h
  rw [parseAtomicPayload, if_neg hcat] at h
  rw [not_or, not_lt, not_not] at hcat
  cases hb : ConsensusPayload.parsePayloadBody payload 0 with
  | error => rw [hb] at h; cases h
  | ok r =>
    rw [hb] at h
    cases h
    exact ⟨hcat.1, hcat.2, r.2, rfl⟩

theorem parseAtomicMempoolPayload_of_consensus {payload : List UInt8}
    (h : parseAtomicPayload payload = .ok (some p)) :
    parseAtomicMempoolPayload payload = .ok (some p.toMempool) := by
  obtain ⟨hlen, hmagic, next, hbody⟩ := parseAtomicPayload_eq_some h
  obtain ⟨m, next', hm, rfl⟩ := PayloadAgreement.mempoolPayload payload 0 p next hbody
  obtain ⟨magic, start, htake, hrest⟩ := Reader.bind_eq_ok hm
  -- reading the magic leaves the cursor where the mempool parser starts
  have hstart : start = catMagic.length := by
    obtain ⟨bytes, mid, hexact, hpure⟩ := Reader.bind_eq_ok htake
    rw [Reader.exactly, dif_pos (by simpa using hlen)] at hexact
    cases hexact
    cases hpure
    simp
  subst hstart
  have hlead : catMagic.isPrefixOf payload = true := by
    rw [List.isPrefixOf_iff_prefix, ← hmagic]
    exact List.take_prefix _ _
  rw [parseAtomicMempoolPayload, if_pos hlead, hrest]
  rfl

/-- The consensus and index parsers have the same outcome on every byte string, and
the mempool parser extracts the matching slots from every string consensus accepts. -/
theorem payload_parsers_agree (payload : List UInt8) :
    SameOutcome (parseAtomicPayload payload) (parseAtomicTokenPayload payload) ∧
      ∀ p, parseAtomicPayload payload = .ok (some p) →
        parseAtomicMempoolPayload payload = .ok (some p.toMempool) :=
  ⟨sameOutcome_parse payload, fun _ h => parseAtomicMempoolPayload_of_consensus h⟩

/-- A burn of one unit, authorised by input 0 under nonce 1. -/
def burnPayload : List UInt8 :=
  catMagic ++ [catVersion, 3, 0, 0, 0] ++ toLeBytes 8 1 ++ (Bytes.fill 32 7).val ++ toLeBytes 16 1

def burnParsed : ParsedAtomicPayload := ⟨0, 1, .burn { assetId := Bytes.fill 32 7, amount := 1 }⟩

theorem burnPayload_parsers_agree : parseAtomicPayload burnPayload = .ok (some burnParsed) ∧
      parseAtomicMempoolPayload burnPayload =
        .ok (some ⟨0, 1, .asset (Bytes.fill 32 7), none⟩) := by
  have hparse : parseAtomicPayload burnPayload = .ok (some burnParsed) := by rfl
  exact ⟨hparse, (payload_parsers_agree burnPayload).2 burnParsed hparse⟩

end CryptixAtomic
