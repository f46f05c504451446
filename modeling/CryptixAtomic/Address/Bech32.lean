import CryptixAtomic.Foundation.Checked
import CryptixAtomic.Foundation.Reader
import CryptixAtomic.Foundation.Regroup

/-!
# Addresses

An address is written as the name of its network, a colon, and the letters of its version
and payload in groups of five bits, followed by a checksum of forty bits. Text is given by
its UTF-8 bytes. Index writes, the access to the first byte and the assertion on the
length of the payload are the places where the code can panic; a panic is `none`.
-/
namespace CryptixAtomic.Addresses

open Foundation

def utf8 (text : String) : List UInt8 := text.toUTF8.data.toList

inductive AddressError
  | invalidPrefix (text : List UInt8)
  | missingPrefix
  | invalidVersion (version : UInt8)
  | decodingError (char : UInt8)
  | badChecksumSize
  | badChecksum
  | badPayload
  deriving DecidableEq

inductive Prefix
  | mainnet
  | testnet
  | simnet
  | devnet
  deriving DecidableEq

namespace Prefix

def asStr : Prefix → List UInt8
  | mainnet => utf8 "cryptix"
  | testnet => utf8 "cryptixtest"
  | simnet => utf8 "cryptixsim"
  | devnet => utf8 "cryptixdev"

def tryFrom (text : List UInt8) : Except AddressError Prefix :=
  if text = utf8 "cryptix" then .ok mainnet
  else if text = utf8 "cryptixtest" then .ok testnet
  else if text = utf8 "cryptixsim" then .ok simnet
  else if text = utf8 "cryptixdev" then .ok devnet
  else .error (.invalidPrefix text)

/-- The low five bits of each letter. -/
def fivebit (p : Prefix) : List UInt8 := p.asStr.map (· &&& 0x1f)

end Prefix

inductive Version
  | pubKey
  | pubKeyECDSA
  | scriptHash
  deriving DecidableEq

namespace Version

def byte : Version → UInt8
  | pubKey => 0
  | pubKeyECDSA => 1
  | scriptHash => 8

def publicKeyLen : Version → ℕ
  | pubKey => 32
  | pubKeyECDSA => 33
  | scriptHash => 32

def tryFrom (value : UInt8) : Except AddressError Version :=
  if value = 0 then .ok pubKey
  else if value = 1 then .ok pubKeyECDSA
  else if value = 8 then .ok scriptHash
  else .error (.invalidVersion value)

end Version

/-- The fields are public, so that nothing ties the payload to the version. -/
structure Address where
  addressPrefix : Prefix
  version : Version
  payload : List UInt8
  deriving DecidableEq

/-- The length is asserted. -/
def Address.new (p : Prefix) (version : Version) (payload : List UInt8) : Option Address :=
  if payload.length = version.publicKeyLen then some ⟨p, version, payload⟩ else none

def charset : List UInt8 := utf8 "qpzry9x8gf2tvdw0s3jn54khce6mua7l"

def revCharset : List UInt8 :=
  [100, 100, 100, 100, 100, 100, 100, 100, 100, 100, 100, 100, 100, 100, 100, 100, 100, 100, 100,
    100, 100, 100, 100, 100, 100, 100, 100, 100, 100, 100, 100, 100, 100, 100, 100, 100, 100, 100,
    100, 100, 100, 100, 100, 100, 100, 100, 100, 100, 15, 100, 10, 17, 21, 20, 26, 30, 7, 5, 100,
    100, 100, 100, 100, 100, 100, 100, 100, 100, 100, 100, 100, 100, 100, 100, 100, 100, 100, 100,
    100, 100, 100, 100, 100, 100, 100, 100, 100, 100, 100, 100, 100, 100, 100, 100, 100, 100, 100,
    29, 100, 24, 13, 25, 9, 8, 23, 100, 18, 22, 31, 27, 19, 100, 1, 0, 3, 16, 11, 28, 12, 14, 6, 4,
    2]

/-- The symbol of a letter. The table marks the others with 100. -/
def symbolOf (letter : UInt8) : Except AddressError UInt8 :=
  let i := revCharset.getD letter.toNat 100
  if i = 100 then .error (.decodingError letter) else .ok i

/-- The letter of a symbol. Outside the table the index panics. -/
def letterOf (symbol : UInt8) : Option UInt8 := charset[symbol.toNat]?

def polymodStep (c : ℕ) (d : UInt8) : ℕ :=
  let c0 := c >>> 35
  let c := ((c &&& 0x07ffffffff) <<< 5) ^^^ d.toNat
  let c := if c0.testBit 0 then c ^^^ 0x98f2bc8e61 else c
  let c := if c0.testBit 1 then c ^^^ 0x79b76d99e2 else c
  let c := if c0.testBit 2 then c ^^^ 0xf33e5fb3c4 else c
  let c := if c0.testBit 3 then c ^^^ 0xae2eabe2a8 else c
  if c0.testBit 4 then c ^^^ 0x1e4f43e470 else c

def polymod (values : List UInt8) : ℕ := values.foldl polymodStep 1 ^^^ 1

def checksum (payload fivebitPrefix : List UInt8) : ℕ :=
  polymod (fivebitPrefix ++ [0] ++ payload ++ List.replicate 8 0)

/-- Bits that do not fill a byte are ignored. -/
def conv5to8 (payload : List UInt8) : Option (List UInt8) :=
  (regroup 16 5 8 (payload.length * 5 / 8) payload).map (·.cells)

/-- The address in symbols without their checksum. The first byte is read by its index. -/
def fromSymbols (p : Prefix) (payloadU5 : List UInt8) : Option (Except AddressError Address) := do
  let payloadU8 ← conv5to8 payloadU5
  let first ← payloadU8[0]?
  match Version.tryFrom first with
  | .error e => return .error e
  | .ok version => (Address.new p version payloadU8.tail).map .ok

/-- The letters behind the colon. -/
def decodePayload (p : Prefix) (address : List UInt8) : Option (Except AddressError Address) :=
  match address.mapM symbolOf with
  | .error e => some (.error e)
  | .ok addressU5 =>
    if address.length < 8 then some (.error .badPayload)
    else
      let payloadU5 := addressU5.take (address.length - 8)
      (conv5to8 (addressU5.drop (address.length - 8))).bind fun checksumU8 =>
        if 3 + checksumU8.length ≠ 8 then some (.error .badChecksumSize)
        else if checksum payloadU5 p.fivebit ≠ fromBeBytes checksumU8 then
          some (.error .badChecksum)
        else fromSymbols p payloadU5

/-- What stands before and behind the first colon. -/
def splitOnce : List UInt8 → Option (List UInt8 × List UInt8)
  | [] => none
  | c :: rest => if c = 58 then some ([], rest) else (splitOnce rest).map fun s => (c :: s.1, s.2)

def tryFromBytes (value : List UInt8) : Option (Except AddressError Address) :=
  match splitOnce value with
  | none => some (.error .missingPrefix)
  | some (text, payload) =>
    match Prefix.tryFrom text with
    | .error e => some (.error e)
    | .ok p => decodePayload p payload

def tryFrom (value : String) : Option (Except AddressError Address) := tryFromBytes (utf8 value)

inductive BorshError
  | unexpectedVariantTag (tag : UInt8)
  | unexpectedEnd
  deriving DecidableEq

def Prefix.tag : Prefix → UInt8
  | mainnet => 0
  | testnet => 1
  | simnet => 2
  | devnet => 3

def Prefix.ofTag (tag : UInt8) : Option Prefix :=
  if tag = 0 then some mainnet
  else if tag = 1 then some testnet
  else if tag = 2 then some simnet
  else if tag = 3 then some devnet
  else none

def Version.ofTag (tag : UInt8) : Option Version :=
  if tag = 0 then some pubKey
  else if tag = 1 then some pubKeyECDSA
  else if tag = 8 then some scriptHash
  else none

def deserializeEnum {α : Type} (ofTag : UInt8 → Option α) : Reader BorshError α := do
  let tag ← Reader.byte .unexpectedEnd
  Reader.check (okOr (ofTag tag) (.unexpectedVariantTag tag))

def deserializeVec : Reader BorshError (List UInt8) := do
  let len ← Reader.uintLe 4 .unexpectedEnd
  let bytes ← Reader.exactly len .unexpectedEnd
  return bytes.val

/-- Prefix, version and payload in the order in which they are read. -/
def deserializeFields : Reader BorshError (Prefix × Version × List UInt8) := do
  let p ← deserializeEnum Prefix.ofTag
  let version ← deserializeEnum Version.ofTag
  let payload ← deserializeVec
  return (p, version, payload)

def deserialize (bytes : List UInt8) : Option (Except BorshError Address) :=
  match deserializeFields bytes 0 with
  | .error e => some (.error e)
  | .ok ((p, version, payload), _) => (Address.new p version payload).map .ok

def Address.serialize (a : Address) : List UInt8 :=
  a.addressPrefix.tag :: a.version.byte :: toLeBytes 4 a.payload.length ++ a.payload

end CryptixAtomic.Addresses
