import CryptixAtomic.Chain.UtxoAlgebra
import CryptixAtomic.Foundation.Reader

/-!
# The UTXO index

Every entry of the virtual UTXO set lies in the database under the bucket of its script
followed by its outpoint, and a query reads all keys that start with a bucket. A resync reads
the virtual UTXO set in chunks; then each virtual change brings a difference. An outpoint that
it both adds and removes is left alone, and the supply is only ever raised.
-/
namespace CryptixAtomic.UtxoIndex

open Foundation

structure CompactUtxoEntry where
  amount : ℕ
  blockDaaScore : ℕ
  isCoinbase : Bool
  deriving DecidableEq

def compact (entry : UtxoEntry) : CompactUtxoEntry :=
  ⟨entry.amount, entry.blockDaaScore, entry.isCoinbase⟩

instance : LinearOrder ScriptPublicKey :=
  LinearOrder.lift' (fun s => toLex (s.version, s.script)) (by
    rintro ⟨v, s⟩ ⟨v', s'⟩ h
    simpa using h)

abbrev CompactUtxoCollection := FMap TransactionOutpoint CompactUtxoEntry
abbrev UtxoSetByScriptPublicKey := FMap ScriptPublicKey CompactUtxoCollection

def insertIntoNested (m : UtxoSetByScriptPublicKey) (script : ScriptPublicKey)
    (outpoint : TransactionOutpoint) (entry : CompactUtxoEntry) : UtxoSetByScriptPublicKey :=
  m.insert script (((m.lookup script).getD ∅).insert outpoint entry)

def scriptPublicKeyBucket (s : ScriptPublicKey) : List UInt8 :=
  toLeBytes 2 s.version ++ toLeBytes 8 s.script.length ++ s.script

def transactionOutpointKey (o : TransactionOutpoint) : List UInt8 :=
  o.transactionId.val ++ toLeBytes 4 o.index

def utxoEntryFullAccessKey (s : ScriptPublicKey) (o : TransactionOutpoint) : List UInt8 :=
  scriptPublicKeyBucket s ++ transactionOutpointKey o

/-- Keys have 36 bytes. The conversion of any other string panics. -/
def outpointOfKey (key : List UInt8) : Option TransactionOutpoint :=
  if h : key.length = 36 then
    some ⟨⟨key.take 32, by simp [h]⟩, Reader.fromLeBytes (key.drop 32)⟩
  else none

/-- The changes of the index. The supply change is signed. -/
structure UtxoIndexChanges where
  added : UtxoSetByScriptPublicKey
  removed : UtxoSetByScriptPublicKey
  supplyChange : ℤ

namespace UtxoIndexChanges

def new : UtxoIndexChanges := ⟨∅, ∅, 0⟩

variable (c : UtxoIndexChanges)

variable (p : TransactionOutpoint × UtxoEntry)

def addUtxo : UtxoIndexChanges :=
  { c with
    supplyChange := c.supplyChange + p.2.amount
    added := insertIntoNested c.added p.2.scriptPublicKey p.1 (compact p.2) }

def removeUtxo : UtxoIndexChanges :=
  { c with
    supplyChange := c.supplyChange - p.2.amount
    removed := insertIntoNested c.removed p.2.scriptPublicKey p.1 (compact p.2) }

/-- An added outpoint that is also removed is discarded on both sides. -/
def addOrCancel (c : UtxoIndexChanges × UtxoCollection) (p : TransactionOutpoint × UtxoEntry) :
    UtxoIndexChanges × UtxoCollection :=
  if p.1 ∈ c.2 then (c.1, c.2.erase p.1) else (c.1.addUtxo p, c.2)

def updateUtxoDiff (d : UtxoDiff) : UtxoIndexChanges :=
  let (c, toRemove) := d.add.iter.foldl addOrCancel (c, d.remove)
  toRemove.iter.foldl removeUtxo c

def addUtxosFromVector (utxos : List (TransactionOutpoint × UtxoEntry)) : UtxoIndexChanges :=
  utxos.foldl addUtxo c

end UtxoIndexChanges

inductive StoreError
  | keyNotFound
  deriving DecidableEq

structure Store where
  utxosByScriptPublicKey : FMap (List UInt8) CompactUtxoEntry
  circulatingSupply : Option ℕ
  tips : Option (Finset Bytes32)

/-- The entries of a nested collection under their keys. -/
def keyedEntries (m : UtxoSetByScriptPublicKey) : List (List UInt8 × CompactUtxoEntry) :=
  m.iter.flatMap fun p => p.2.iter.map fun q => (utxoEntryFullAccessKey p.1 q.1, q.2)

namespace Store

variable (s : Store)

def updateUtxoState (toAdd toRemove : UtxoSetByScriptPublicKey) : Store :=
  { s with
    utxosByScriptPublicKey :=
      (s.utxosByScriptPublicKey.eraseAll ((keyedEntries toRemove).map Prod.fst)).insertAll
        (keyedEntries toAdd) }

def updateCirculatingSupply (toAdd : ℕ) : Except StoreError Store :=
  match s.circulatingSupply with
  | none => .error .keyNotFound
  | some supply => .ok { s with circulatingSupply := some (supply + toAdd) }

def deleteAll (_ : Store) : Store := ⟨∅, none, none⟩

/-- The entries whose keys start with a bucket, with the rest of their keys. -/
def seek (bucket : List UInt8) : List (List UInt8 × CompactUtxoEntry) :=
  (s.utxosByScriptPublicKey.iter.filter fun p => bucket.isPrefixOf p.1).map fun p =>
    (p.1.drop bucket.length, p.2)

/-- The entries of a script. A key that is no outpoint panics. -/
def getUtxosByScriptPublicKey (script : ScriptPublicKey) :
    Option CompactUtxoCollection := do
  let entries ← (s.seek (scriptPublicKeyBucket script)).mapM fun p =>
    (outpointOfKey p.1).map fun o => (o, p.2)
  return (∅ : CompactUtxoCollection).insertAll entries

/-- The supply is forced to be monotonic. -/
def update (d : UtxoDiff) (tips : Finset Bytes32) : Except StoreError Store := do
  let changes := UtxoIndexChanges.new.updateUtxoDiff d
  let s := s.updateUtxoState changes.added changes.removed
  let s ← if changes.supplyChange > 0 then s.updateCirculatingSupply changes.supplyChange.toNat
    else .ok s
  return { s with tips := some tips }

def resyncChunkSize : ℕ := 2048

/-- A chunk of the virtual UTXO set in the order of its database. -/
def getVirtualUtxos (listing : List (TransactionOutpoint × UtxoEntry))
    (fromOutpoint : Option TransactionOutpoint) (chunkSize : ℕ) (skipFirst : Bool) :
    List (TransactionOutpoint × UtxoEntry) :=
  let l := match fromOutpoint with
    | none => listing
    | some o => listing.dropWhile fun p => p.1 ≠ o
  (if skipFirst then l.tail else l).take chunkSize

/-- The loop over the chunks, and the supply they add up to. -/
def resyncLoop (listing : List (TransactionOutpoint × UtxoEntry)) :
    ℕ → List (TransactionOutpoint × UtxoEntry) → Store × ℕ → Store × ℕ
  | 0, _, r => r
  | fuel + 1, batch, (s, supply) =>
    match batch.getLast? with
    | none => (s, supply)
    | some last =>
      let changes := UtxoIndexChanges.new.addUtxosFromVector batch
      let supply := supply + changes.supplyChange.toNat
      let s := s.updateUtxoState changes.added changes.removed
      if batch.length < resyncChunkSize then (s, supply)
      else resyncLoop listing fuel (getVirtualUtxos listing (some last.1) resyncChunkSize true)
        (s, supply)

/-- Every chunk has an entry, so that the length of the listing is fuel enough. -/
def resync (listing : List (TransactionOutpoint × UtxoEntry)) (consensusTips : Finset Bytes32) :
    Store :=
  let (s, supply) := resyncLoop listing (listing.length + 1)
    (getVirtualUtxos listing none resyncChunkSize false) (s.deleteAll, 0)
  { s with circulatingSupply := some supply, tips := some consensusTips }

def updateAll : Store → List (UtxoDiff × Finset Bytes32) → Except StoreError Store
  | s, [] => .ok s
  | s, (d, tips) :: rest => do
    let s ← s.update d tips
    s.updateAll rest

end Store

end CryptixAtomic.UtxoIndex
