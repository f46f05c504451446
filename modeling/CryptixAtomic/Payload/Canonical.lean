import CryptixAtomic.Payload.Consensus

/-!
# What the consensus parser guarantees

Limits on texts, versions and amounts are enforced when a payload is read and nowhere
later. `Canonical` collects them, so that results about the state can rely on every
operation it is given.
-/
namespace CryptixAtomic

open Foundation

/-- Name, symbol and metadata within their limits. -/
structure TextsCanonical (name symbol metadata : List UInt8) : Prop where
  utf8 : isUtf8 name = true ∧ isUtf8 symbol = true
  nameLen : name.length ≤ maxNameLen
  symbolLen : symbol.length ≤ maxSymbolLen
  metadataLen : metadata.length ≤ maxMetadataLen

structure TagCanonical (tag : List UInt8) : Prop where
  length : tag.length ≤ maxPlatformTagLen
  utf8 : isUtf8 tag = true

structure CreateAssetFields.Canonical (f : CreateAssetFields) : Prop where
  version : supportedVersion currentTokenVersion maxTokenVersion f.tokenVersion = true
  decimals : f.decimals ≤ maxDecimals
  texts : TextsCanonical f.name f.symbol f.metadata
  capped : f.supplyMode = .capped → f.maxSupply ≠ 0
  uncapped : f.supplyMode = .uncapped → f.maxSupply = 0

/-- A fee goes with one or two recipients in strictly rising order. -/
structure FeesCanonical (feeBps : ℕ) (recipients : List RecipientAddress) : Prop where
  rate : feeBps = 0 ∧ recipients = [] ∨
    (minLiquidityFeeBps ≤ feeBps ∧ feeBps ≤ maxLiquidityFeeBps) ∧
      recipients ≠ [] ∧ recipients.length ≤ maxLiquidityRecipients
  sorted : recipients.Pairwise fun a b => recipientOrderKey a < recipientOrderKey b

structure CreateLiquidityAssetOp.Canonical (op : CreateLiquidityAssetOp) : Prop where
  version : supportedVersion currentTokenVersion maxTokenVersion op.tokenVersion = true
  curveVersion :
    supportedVersion currentLiquidityCurveVersion maxLiquidityCurveVersion op.curveVersion = true
  texts : TextsCanonical op.name op.symbol op.metadata
  tag : TagCanonical op.platformTag
  fees : FeesCanonical op.feeBps op.recipients

/-- The limits on an operation that only the parser enforces. -/
def AtomicPayloadOp.Canonical : AtomicPayloadOp → Prop
  | createAsset op => op.toCreateAssetFields.Canonical ∧ TagCanonical op.platformTag
  | createAssetWithMint op => op.toCreateAssetFields.Canonical ∧ TagCanonical op.platformTag
  | createLiquidityAsset op => op.Canonical
  | transfer op => 0 < op.amount
  | mint op => 0 < op.amount
  | burn op => 0 < op.amount
  | buyLiquidityExactIn op => 0 < op.cpayInSompi
  | sellLiquidityExactIn op => 0 < op.tokenIn
  | claimLiquidityFees op => 0 < op.claimAmountSompi

namespace ConsensusPayload

open Reader

theorem yields_takeVec (len : ℕ) (e : String) : Yields (fun l => l.length = len)
    (takeVec len e) := by
  refine .bind_right fun bytes => ?_
  exact .pure bytes.property

theorem yields_parseAssetTexts :
    Yields (fun t => TextsCanonical t.1 t.2.1 t.2.2) parseAssetTexts := by
  refine .bind_right fun nameLen => ?_
  refine .bind_right fun symbolLen => ?_
  refine .bind_right fun metadataLen => ?_
  refine .rejectIf fun hlen => ?_
  refine (yields_takeVec _ _).bind fun name hname => ?_
  refine (yields_takeVec _ _).bind fun symbol hsymbol => ?_
  refine (yields_takeVec _ _).bind fun metadata hmetadata => ?_
  refine .rejectIf fun hutf8 => ?_
  simp only [not_or, not_lt, gt_iff_lt, Bool.not_eq_false] at hlen hutf8
  refine .pure ?_
  exact ⟨hutf8, hname.trans_le hlen.1, hsymbol.trans_le hlen.2.1, hmetadata.trans_le hlen.2.2⟩

theorem yields_parseCreateAssetCommon :
    Yields CreateAssetFields.Canonical parseCreateAssetCommon := by
  refine .bind_right fun tokenVersion => ?_
  refine .check fun _ hversion => ?_
  refine .bind_right fun decimals => ?_
  refine .rejectIf fun hdecimals => ?_
  refine .bind_right fun supplyMode => ?_
  refine .bind_right fun maxSupply => ?_
  refine .bind_right fun mintAuthority => ?_
  refine yields_parseAssetTexts.bind ?_
  rintro ⟨name, symbol, metadata⟩ htexts
  refine .rejectIf fun hcapped => ?_
  refine .rejectIf fun huncapped => ?_
  refine .pure ?_
  simp only [validateTokenVersion, failIf_eq_ok, not_not] at hversion
  exact
    { version := hversion
      decimals := not_lt.mp hdecimals
      texts := htexts
      capped := fun hmode hzero => hcapped ⟨hmode, hzero⟩
      uncapped := fun hmode => by_contra fun hne => huncapped ⟨hmode, hne⟩ }

theorem yields_parsePlatformTag : Yields TagCanonical parsePlatformTag := by
  refine .bind_right fun len => ?_
  refine .rejectIf fun hlen => ?_
  refine (yields_takeVec _ _).bind fun tag htag => ?_
  refine .rejectIf fun hutf8 => ?_
  refine .pure ?_
  exact ⟨by omega, by simpa using hutf8⟩

theorem tagCanonical_nil : TagCanonical [] := ⟨by decide, by decide⟩

theorem yields_parseOptionalPlatformTagTail : Yields TagCanonical parseOptionalPlatformTagTail := by
  refine .bind_right fun done => ?_
  refine .ite ?_ ?_
  · intro _
    exact .pure tagCanonical_nil
  · intro _
    exact yields_parsePlatformTag

theorem yields_parseOptionalLiquidityCreateTail :
    Yields (fun t => TagCanonical t.platformTag) parseOptionalLiquidityCreateTail := by
  refine .bind_right fun done => ?_
  refine .ite ?_ ?_
  · intro _
    exact .pure tagCanonical_nil
  · intro _
    refine yields_parsePlatformTag.bind fun tag htag => ?_
    refine .bind_right fun target => ?_
    refine .rejectIf fun _ => ?_
    refine .bind_right fun _ => ?_
    exact .pure htag

theorem yields_parseFeeRecipients : Yields (fun r => FeesCanonical r.1 r.2) parseFeeRecipients := by
  refine .bind_right fun feeBps => ?_
  refine .rejectIf fun hrate => ?_
  refine .bind_right fun count => ?_
  refine .rejectIf fun hmost => ?_
  refine .rejectIf fun hnone => ?_
  refine .rejectIf fun hsome => ?_
  have htimes : Yields (fun _ => True) parseRecipientAddress := fun _ _ _ _ _ => trivial
  refine (htimes.times _).bind ?_
  rintro recipients ⟨hlen, -⟩
  refine .check fun _ hsorted => ?_
  refine .pure ?_
  simp only [maxLiquidityRecipients] at hmost hsome
  have hempty : count.toNat = 0 ↔ recipients = [] := by rw [← hlen, List.length_eq_zero_iff]
  constructor
  · by_cases hzero : feeBps = 0
    · left
      refine ⟨hzero, hempty.mp ?_⟩
      by_contra hne
      exact hnone ⟨hzero, hne⟩
    · right
      have hpos : 1 ≤ count.toNat ∧ count.toNat ≤ 2 := by
        by_contra hne
        exact hsome ⟨Nat.pos_of_ne_zero hzero, hne⟩
      refine ⟨(not_not.mp hrate).resolve_left hzero, ?_, ?_⟩
      · rw [ne_eq, ← hempty]
        omega
      · rw [hlen, maxLiquidityRecipients]
        omega
  · match recipients, hlen, hsorted with
    | [], _, _ => simp
    | [r], _, _ => simp
    | [first, second], _, hsorted =>
      simp only [except_bind_eq_ok, failIf_eq_ok, exists_const, not_lt, gt_iff_lt] at hsorted
      have hkeys : recipientOrderKey first ≠ recipientOrderKey second := by
        intro heq
        apply hsorted.1
        obtain ⟨v, p⟩ := first
        obtain ⟨v', p'⟩ := second
        simpa [recipientOrderKey] using heq
      simpa using lt_of_le_of_ne hsorted.2 hkeys
    | _ :: _ :: _ :: _, hlen, _ =>
      simp only [List.length_cons] at hlen
      omega

theorem yields_parseCreateLiquidityAsset :
    Yields AtomicPayloadOp.Canonical parseCreateLiquidityAsset := by
  refine .bind_right fun tokenVersion => ?_
  refine .check fun _ hversion => ?_
  refine .bind_right fun curveVersion => ?_
  refine .check fun _ hcurve => ?_
  refine .bind_right fun decimals => ?_
  refine .rejectIf fun _ => ?_
  refine .bind_right fun maxSupply => ?_
  refine .rejectIf fun _ => ?_
  refine yields_parseAssetTexts.bind ?_
  rintro ⟨name, symbol, metadata⟩ htexts
  refine .bind_right fun seed => ?_
  refine .rejectIf fun _ => ?_
  refine yields_parseFeeRecipients.bind ?_
  rintro ⟨feeBps, recipients⟩ hfees
  refine .bind_right fun launchBuy => ?_
  refine .bind_right fun launchOut => ?_
  refine .rejectIf fun _ => ?_
  refine .rejectIf fun _ => ?_
  refine yields_parseOptionalLiquidityCreateTail.bind fun tail htag => ?_
  refine .pure ?_
  simp only [validateTokenVersion, validateLiquidityCurveVersion, failIf_eq_ok, not_not]
    at hversion hcurve
  exact
    { version := hversion
      curveVersion := hcurve
      texts := htexts
      tag := htag
      fees := hfees }

theorem yields_parseCreateAsset : Yields AtomicPayloadOp.Canonical parseCreateAsset := by
  refine yields_parseCreateAssetCommon.bind fun common hcommon => ?_
  refine yields_parseOptionalPlatformTagTail.bind fun tag htag => ?_
  exact .pure ⟨hcommon, htag⟩

theorem yields_parseCreateAssetWithMint :
    Yields AtomicPayloadOp.Canonical parseCreateAssetWithMint := by
  refine yields_parseCreateAssetCommon.bind fun common hcommon => ?_
  refine .bind_right fun amount => ?_
  refine .bind_right fun receiver => ?_
  refine .rejectIf fun _ => ?_
  refine .rejectIf fun _ => ?_
  refine yields_parseOptionalPlatformTagTail.bind fun tag htag => ?_
  exact .pure ⟨hcommon, htag⟩

theorem yields_parseTransfer : Yields AtomicPayloadOp.Canonical parseTransfer := by
  refine .bind_right fun assetId => ?_
  refine .bind_right fun receiver => ?_
  refine .bind_right fun amount => ?_
  refine .rejectIf fun hpos => ?_
  exact .pure (Nat.pos_of_ne_zero hpos)

theorem yields_parseMint : Yields AtomicPayloadOp.Canonical parseMint := by
  refine .bind_right fun assetId => ?_
  refine .bind_right fun receiver => ?_
  refine .bind_right fun amount => ?_
  refine .rejectIf fun hpos => ?_
  exact .pure (Nat.pos_of_ne_zero hpos)

theorem yields_parseBurn : Yields AtomicPayloadOp.Canonical parseBurn := by
  refine .bind_right fun assetId => ?_
  refine .bind_right fun amount => ?_
  refine .rejectIf fun hpos => ?_
  exact .pure (Nat.pos_of_ne_zero hpos)

theorem yields_parseBuyLiquidityExactIn :
    Yields AtomicPayloadOp.Canonical parseBuyLiquidityExactIn := by
  refine .bind_right fun assetId => ?_
  refine .bind_right fun nonce => ?_
  refine .rejectIf fun _ => ?_
  refine .bind_right fun cpayIn => ?_
  refine .bind_right fun minOut => ?_
  refine .rejectIf fun hpos => ?_
  refine .rejectIf fun _ => ?_
  exact .pure (Nat.pos_of_ne_zero hpos)

theorem yields_parseSellLiquidityExactIn :
    Yields AtomicPayloadOp.Canonical parseSellLiquidityExactIn := by
  refine .bind_right fun assetId => ?_
  refine .bind_right fun nonce => ?_
  refine .rejectIf fun _ => ?_
  refine .bind_right fun tokenIn => ?_
  refine .bind_right fun minOut => ?_
  refine .bind_right fun index => ?_
  refine .rejectIf fun hpos => ?_
  refine .rejectIf fun _ => ?_
  exact .pure (Nat.pos_of_ne_zero hpos)

theorem yields_parseClaimLiquidityFees :
    Yields AtomicPayloadOp.Canonical parseClaimLiquidityFees := by
  refine .bind_right fun assetId => ?_
  refine .bind_right fun nonce => ?_
  refine .rejectIf fun _ => ?_
  refine .bind_right fun recipient => ?_
  refine .bind_right fun amount => ?_
  refine .bind_right fun index => ?_
  refine .rejectIf fun hpos => ?_
  exact .pure (Nat.pos_of_ne_zero hpos)

theorem yields_parseOp (raw : UInt8) : Yields AtomicPayloadOp.Canonical (parseOp raw) := by
  unfold parseOp
  split_ifs
  · exact yields_parseCreateAsset
  · exact yields_parseTransfer
  · exact yields_parseMint
  · exact yields_parseBurn
  · exact yields_parseCreateAssetWithMint
  · exact yields_parseCreateLiquidityAsset
  · exact yields_parseBuyLiquidityExactIn
  · exact yields_parseSellLiquidityExactIn
  · exact yields_parseClaimLiquidityFees

theorem yields_parsePayloadBody :
    Yields (fun parsed => parsed.op.Canonical ∧ 0 < parsed.nonce) parsePayloadBody := by
  refine .bind_right fun magic => ?_
  refine .rejectIf fun _ => ?_
  refine .bind_right fun version => ?_
  refine .rejectIf fun _ => ?_
  refine .bind_right fun raw => ?_
  refine .rejectIf fun _ => ?_
  refine .bind_right fun flags => ?_
  refine .rejectIf fun _ => ?_
  refine .bind_right fun authInputIndex => ?_
  refine .bind_right fun nonce => ?_
  refine .rejectIf fun hnonce => ?_
  refine (yields_parseOp raw).bind fun op hop => ?_
  refine .bind_right fun done => ?_
  refine .rejectIf fun _ => ?_
  exact .pure ⟨hop, Nat.pos_of_ne_zero hnonce⟩

end ConsensusPayload

theorem canonical_of_parseAtomicPayload {payload : List UInt8} {parsed : ParsedAtomicPayload}
    (h : parseAtomicPayload payload = .ok (some parsed)) :
    parsed.op.Canonical ∧ 0 < parsed.nonce := by
  unfold parseAtomicPayload at h
  split_ifs at h
  · cases h
  · cases hbody : ConsensusPayload.parsePayloadBody payload 0 with
    | error =>
      rw [hbody] at h
      cases h
    | ok r =>
      rw [hbody] at h
      cases h
      exact ConsensusPayload.yields_parsePayloadBody payload 0 r.1 r.2 hbody

end CryptixAtomic
