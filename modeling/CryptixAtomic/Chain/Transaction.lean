import CryptixAtomic.Foundation.Bytes
import CryptixAtomic.Foundation.Checked

/-!
# Transactions, scripts and owner identities

Only the parts of a transaction that the token layer reads are kept: the id, the
spent outpoints, the outputs, the subnetwork and the payload. The id is a field:
it is the hash of the whole transaction and nothing here recomputes it.

An owner is identified by the Blake2b digest of its canonical public key. The
digest function is a parameter of every definition that uses it.
-/
namespace CryptixAtomic

open Foundation

/-- Hashes, transaction ids, asset ids and owner ids. -/
abbrev Bytes32 := Bytes 32

instance instLawfulBEqBytes32 : LawfulBEq Bytes32 := inferInstance

/-- The all-zero array `[0u8; 32]`. -/
def zero32 : Bytes32 := Bytes.zeros 32

/-- The 256-bit Blake2b digest of the concatenated hasher updates. -/
abbrev Blake2b := List UInt8 → Bytes32

def hex32 (id : Bytes32) : String := hexString id.val

structure TransactionOutpoint where
  transactionId : Bytes32
  index : ℕ
  deriving DecidableEq

instance : ToString TransactionOutpoint where
  toString o := s!"({hex32 o.transactionId}, {o.index})"

structure ScriptPublicKey where
  version : ℕ
  script : List UInt8
  deriving DecidableEq

structure TransactionInput where
  previousOutpoint : TransactionOutpoint
  deriving DecidableEq

structure TransactionOutput where
  value : ℕ
  scriptPublicKey : ScriptPublicKey
  deriving DecidableEq

/-- A subnetwork id is its first byte followed by zeros. -/
def subnetworkFromByte (b : UInt8) : Bytes 20 := ⟨b :: List.replicate 19 0, by simp⟩

def subnetworkIdCoinbase : Bytes 20 := subnetworkFromByte 1
def subnetworkIdPayload : Bytes 20 := subnetworkFromByte 3

structure Transaction where
  id : Bytes32
  inputs : List TransactionInput
  outputs : List TransactionOutput
  subnetworkId : Bytes 20
  payload : List UInt8
  deriving DecidableEq

namespace Transaction

variable (tx : Transaction)

def isCoinbase : Bool := tx.subnetworkId = subnetworkIdCoinbase
def isPayload : Bool := tx.subnetworkId = subnetworkIdPayload

/-- The outpoint of the transaction's own output `i`. -/
def outpoint (i : ℕ) : TransactionOutpoint := ⟨tx.id, i⟩

end Transaction

structure UtxoEntry where
  amount : ℕ
  scriptPublicKey : ScriptPublicKey
  blockDaaScore : ℕ
  isCoinbase : Bool
  deriving DecidableEq

/-- A transaction with one UTXO entry for every input. -/
structure PopulatedTransaction where
  tx : Transaction
  entries : List UtxoEntry
  aligned : tx.inputs.length = entries.length
  deriving DecidableEq

def PopulatedTransaction.populatedInputs (ptx : PopulatedTransaction) :
    List (TransactionInput × UtxoEntry) := ptx.tx.inputs.zip ptx.entries

inductive ScriptClass
  | nonStandard
  | pubKey
  | pubKeyECDSA
  | scriptHash
  | liquidityVault
  deriving DecidableEq

namespace ScriptClass

def opData4 : UInt8 := 0x04
def opData32 : UInt8 := 0x20
def opData33 : UInt8 := 0x21
def opTrue : UInt8 := 0x51
def opDrop : UInt8 := 0x75
def opEqual : UInt8 := 0x87
def opBlake2b : UInt8 := 0xaa
def opCheckSigECDSA : UInt8 := 0xab
def opCheckSig : UInt8 := 0xac

def maxScriptPublicKeyVersion : ℕ := 0

variable (script : List UInt8)

def isPayToPubkey : Bool :=
  script.length = 34 && script[0]? == some opData32 && script[33]? == some opCheckSig

def isPayToPubkeyEcdsa : Bool :=
  script.length = 35 && script[0]? == some opData33 && script[34]? == some opCheckSigECDSA

def isPayToScriptHash : Bool :=
  script.length = 35 && script[0]? == some opBlake2b && script[1]? == some opData32 &&
    script[34]? == some opEqual

/-- `OP_DATA_4 'C' 'L' 'V' '1' OP_DROP OP_TRUE`. -/
def isLiquidityVault : Bool :=
  script = [opData4, 0x43, 0x4C, 0x56, 0x31, opDrop, opTrue]

def fromScript (spk : ScriptPublicKey) : ScriptClass :=
  if spk.version = maxScriptPublicKeyVersion then
    if isPayToPubkey spk.script then .pubKey
    else if isPayToPubkeyEcdsa spk.script then .pubKeyECDSA
    else if isPayToScriptHash spk.script then .scriptHash
    else if isLiquidityVault spk.script then .liquidityVault
    else .nonStandard
  else .nonStandard

instance : ToString ScriptClass where
  toString
    | nonStandard => "nonstandard"
    | pubKey => "pubkey"
    | pubKeyECDSA => "pubkeyecdsa"
    | scriptHash => "scripthash"
    | liquidityVault => "liquidityvault"

end ScriptClass

/-- Whether an output or a spent entry carries the reserved vault script. -/
def isVaultScript (spk : ScriptPublicKey) : Bool :=
  ScriptClass.fromScript spk = .liquidityVault

section Owner

variable (blake2b : Blake2b)

/-- The ASCII bytes of `CAT_OWNER_V2`. -/
def ownerDomain : List UInt8 := [67, 65, 84, 95, 79, 87, 78, 69, 82, 95, 86, 50]

def ownerAuthSchemePubkey : UInt8 := 0
def ownerAuthSchemePubkeyEcdsa : UInt8 := 1
def ownerAuthSchemeScriptHash : UInt8 := 2

/-- Digest of an authorization scheme and a canonical public key. -/
def ownerIdOfKey (scheme : UInt8) (key : List UInt8) : Bytes32 :=
  blake2b (ownerDomain ++ [scheme] ++ toLeBytes 2 key.length ++ key)

def canonicalAtomicOwnerIdentity (spk : ScriptPublicKey) : Option (UInt8 × List UInt8) :=
  match ScriptClass.fromScript spk with
  | .pubKey => if spk.script.length = 34 then
      some (ownerAuthSchemePubkey, (spk.script.drop 1).take 32) else none
  | .pubKeyECDSA => if spk.script.length = 35 then
      some (ownerAuthSchemePubkeyEcdsa, (spk.script.drop 1).take 33) else none
  | .scriptHash => if spk.script.length = 35 then
      some (ownerAuthSchemeScriptHash, (spk.script.drop 2).take 32) else none
  | _ => none

def atomicOwnerIdFromScript (spk : ScriptPublicKey) : Option Bytes32 :=
  (canonicalAtomicOwnerIdentity spk).map fun identity => ownerIdOfKey blake2b identity.1 identity.2

def atomicOwnerIdFromAddressComponents (addressVersion : UInt8) (addressPayload : List UInt8) :
    Option Bytes32 :=
  if addressVersion = 0 ∧ addressPayload.length = 32 then
    some (ownerIdOfKey blake2b ownerAuthSchemePubkey addressPayload)
  else if addressVersion = 1 ∧ addressPayload.length = 33 then
    some (ownerIdOfKey blake2b ownerAuthSchemePubkeyEcdsa addressPayload)
  else if addressVersion = 8 ∧ addressPayload.length = 32 then
    some (ownerIdOfKey blake2b ownerAuthSchemeScriptHash addressPayload)
  else none

end Owner
end CryptixAtomic
