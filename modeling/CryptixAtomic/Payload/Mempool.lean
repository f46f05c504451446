import CryptixAtomic.Payload.Consensus

/-!
# The reduced mempool payload parser

The mempool only needs the nonce and pool slots a transaction competes for, so it
reads the header and at most an asset id and a pool nonce.
-/
namespace CryptixAtomic

open Foundation Reader

inductive ParsedAtomicNonceScope
  | owner
  | asset (assetId : Bytes32)
  deriving DecidableEq

structure ParsedAtomicMempoolPayload where
  authInputIndex : ℕ
  nonce : ℕ
  nonceScope : ParsedAtomicNonceScope
  poolSlot : Option (Bytes32 × ℕ)
  deriving DecidableEq

namespace MempoolPayload

abbrev Parser := Reader String

variable (e : String)

def takeU8 : Parser UInt8 := byte e
def takeU16Le : Parser ℕ := uintLe 2 e
def takeU64Le : Parser ℕ := uintLe 8 e
def take32 : Parser Bytes32 := exactly 32 e

/-- Nonce scope and pool slot by op byte; the remaining fields are not read. -/
def parseScope (op : UInt8) : Parser (ParsedAtomicNonceScope × Option (Bytes32 × ℕ)) :=
  if op = 0 ∨ op = 4 ∨ op = 5 then pure (.owner, none)
  else if 1 ≤ op ∧ op ≤ 3 then do
    let assetId ← take32 "truncated CAT asset_id"
    return (.asset assetId, none)
  else do
    let assetId ← take32 "truncated CAT asset_id"
    let poolNonce ← takeU64Le "truncated CAT expected_pool_nonce"
    rejectIf (poolNonce = 0) "liquidity expected_pool_nonce must be >= 1"
    return (.asset assetId, some (assetId, poolNonce))

/-- The part after the magic, which the caller has already matched. -/
def parsePayloadBody : Parser ParsedAtomicMempoolPayload := do
  let version ← takeU8 "truncated CAT version"
  rejectIf (version ≠ catVersion) s!"unsupported CAT version `{version}`"
  let op ← takeU8 "truncated CAT op"
  rejectIf (op > 8) s!"unsupported CAT op `{op}`"
  let flags ← takeU8 "truncated CAT flags"
  rejectIf (flags ≠ 0) s!"invalid CAT flags `{flags}`"
  let authInputIndex ← takeU16Le "truncated CAT auth_input_index"
  let nonce ← takeU64Le "truncated CAT nonce"
  rejectIf (nonce = 0) "nonce must be >= 1"
  let (nonceScope, poolSlot) ← parseScope op
  return { authInputIndex, nonce, nonceScope, poolSlot }

end MempoolPayload

def parseAtomicMempoolPayload (payload : List UInt8) :
    Except String (Option ParsedAtomicMempoolPayload) :=
  if catMagic.isPrefixOf payload then
    (MempoolPayload.parsePayloadBody payload catMagic.length).map fun r => some r.1
  else .ok none

/-- Operations on an existing asset count nonces per asset, creations per owner. -/
def AtomicPayloadOp.mempoolScope (op : AtomicPayloadOp) : ParsedAtomicNonceScope :=
  match op.assetId? with
  | some assetId => .asset assetId
  | none => .owner

/-- What the mempool keeps of a fully parsed payload. -/
def ParsedAtomicPayload.toMempool (p : ParsedAtomicPayload) : ParsedAtomicMempoolPayload :=
  { authInputIndex := p.authInputIndex
    nonce := p.nonce
    nonceScope := p.op.mempoolScope
    poolSlot := p.op.poolSlot? }

end CryptixAtomic
