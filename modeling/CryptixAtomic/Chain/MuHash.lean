import CryptixAtomic.Chain.UtxoAlgebra

/-!
# The multiset hash of a UTXO set

MuHash lives in a commutative group: an element adds its image and a removed element
subtracts it, so a hash depends only on the elements added minus those removed. The group
and the image of an element are parameters. An element is the byte string that
`writeUtxo` makes of an outpoint and its entry, which determines both.
-/
namespace CryptixAtomic

open Foundation List FMap

/-- The bytes hashed for an unspent output. -/
def writeUtxo (entry : UtxoEntry) (outpoint : TransactionOutpoint) : List UInt8 :=
  outpoint.transactionId.val ++ (toLeBytes 4 outpoint.index ++
    (toLeBytes 8 entry.blockDaaScore ++ (toLeBytes 8 entry.amount ++
      ((if entry.isCoinbase then 1 else 0) :: (toLeBytes 2 entry.scriptPublicKey.version ++
        (toLeBytes 8 entry.scriptPublicKey.script.length ++ entry.scriptPublicKey.script))))))

/-- The widths of the fields: `u32`, `u64`, `u64`, `u16` and `usize`. -/
structure UtxoFits (outpoint : TransactionOutpoint) (entry : UtxoEntry) : Prop where
  index : outpoint.index < 2 ^ 32
  blockDaaScore : entry.blockDaaScore < 2 ^ 64
  amount : entry.amount < 2 ^ 64
  version : entry.scriptPublicKey.version < 2 ^ 16
  script : entry.scriptPublicKey.script.length < 2 ^ 64

theorem toLeBytes_append_inj {n v w : ℕ} {s t : List UInt8} (hv : v < 256 ^ n) (hw : w < 256 ^ n)
    (h : toLeBytes n v ++ s = toLeBytes n w ++ t) : v = w ∧ s = t := by
  have hlength : (toLeBytes n v).length = (toLeBytes n w).length := by
    rw [length_toLeBytes, length_toLeBytes]
  obtain ⟨hbytes, hrest⟩ := append_inj h hlength
  exact ⟨toLeBytes_inj hv hw hbytes, hrest⟩

theorem writeUtxo_inj {o o' : TransactionOutpoint} {e e' : UtxoEntry} (h : UtxoFits o e)
    (h' : UtxoFits o' e') (heq : writeUtxo e o = writeUtxo e' o') : o = o' ∧ e = e' := by
  obtain ⟨⟨id, index⟩, ⟨amount, ⟨version, script⟩, score, coinbase⟩⟩ := o, e
  obtain ⟨⟨id', index'⟩, ⟨amount', ⟨version', script'⟩, score', coinbase'⟩⟩ := o', e'
  obtain ⟨hindex, hscore, hamount, hversion, hscript⟩ := h
  obtain ⟨hindex', hscore', hamount', hversion', hscript'⟩ := h'
  simp only at hindex hscore hamount hversion hscript hindex' hscore' hamount' hversion' hscript'
  simp only [writeUtxo] at heq
  obtain ⟨hid, hrest⟩ := append_inj heq (id.property.trans id'.property.symm)
  obtain ⟨hi, hrest⟩ := toLeBytes_append_inj (by omega) (by omega) hrest
  obtain ⟨hs, hrest⟩ := toLeBytes_append_inj (by omega) (by omega) hrest
  obtain ⟨ha, hrest⟩ := toLeBytes_append_inj (by omega) (by omega) hrest
  obtain ⟨hflag, hrest⟩ := List.cons.inj hrest
  obtain ⟨hv, hrest⟩ := toLeBytes_append_inj (by omega) (by omega) hrest
  obtain ⟨-, hscripts⟩ := toLeBytes_append_inj (by omega) (by omega) hrest
  have hcoinbase : coinbase = coinbase' := by
    cases coinbase <;> cases coinbase' <;> first | rfl | simp at hflag
  rw [Subtype.ext hid, hi, hs, ha, hv, hscripts, hcoinbase]
  exact ⟨rfl, rfl⟩

def utxoElements (utxo : UtxoCollection) : List (List UInt8) :=
  (FMap.iter utxo).map fun e => writeUtxo e.2 e.1

theorem utxoElements_inj {utxo utxo' : UtxoCollection}
    (h : ∀ o e, utxo.lookup o = some e → UtxoFits o e)
    (h' : ∀ o e, utxo'.lookup o = some e → UtxoFits o e)
    (heq : (utxoElements utxo).Perm (utxoElements utxo')) : utxo = utxo' := by
  have hsub : ∀ {s t : UtxoCollection}, (∀ o e, s.lookup o = some e → UtxoFits o e) →
      (∀ o e, t.lookup o = some e → UtxoFits o e) → (utxoElements s).Perm (utxoElements t) →
      ∀ o e, s.lookup o = some e → t.lookup o = some e := by
    intro s t hs ht hperm o e he
    have hmem : writeUtxo e o ∈ utxoElements s :=
      mem_map.mpr ⟨(o, e), mem_iter.mpr he, rfl⟩
    obtain ⟨⟨o', e'⟩, he', hbytes⟩ := mem_map.mp (hperm.mem_iff.mp hmem)
    rw [mem_iter] at he'
    obtain ⟨rfl, rfl⟩ := writeUtxo_inj (ht o' e' he') (hs o e he) hbytes
    exact he'
  apply Finmap.ext_lookup
  intro o
  cases he : utxo.lookup o with
  | some e => exact (hsub h h' heq o e he).symm
  | none =>
    cases he' : utxo'.lookup o with
    | none => rfl
    | some e =>
      rw [hsub h' h heq.symm o e he'] at he
      cases he

section Totals

variable {M : Type} [AddCommMonoid M] (f : TransactionOutpoint → UtxoEntry → M)
  {utxo : UtxoCollection} {ptx : PopulatedTransaction}

theorem sum_spentOutpoints (hunspent : ptx.UnspentIn utxo) :
    (ptx.tx.spentOutpoints.map fun o => weight f o (utxo.lookup o)).sum =
      (ptx.populatedInputs.map fun p => f p.1.previousOutpoint p.2).sum := by
  have hfst : ptx.populatedInputs.map Prod.fst = ptx.tx.inputs :=
    map_fst_zip (le_of_eq ptx.aligned)
  rw [Transaction.spentOutpoints, ← hfst, map_map, map_map]
  apply congrArg List.sum
  apply map_congr_left
  intro p hp
  simp [hunspent p hp]

theorem total_applyTransaction (daaScore : ℕ) (hunspent : ptx.UnspentIn utxo)
    (hdistinct : ptx.tx.spentOutpoints.Nodup)
    (hfresh : ∀ i, utxo.lookup (ptx.tx.outpoint i) = none) :
    total f (utxo.applyTransaction ptx.tx daaScore) +
        (ptx.populatedInputs.map fun p => f p.1.previousOutpoint p.2).sum =
      total f utxo + ((ptx.tx.createdEntries daaScore).map fun e => f e.1 e.2).sum := by
  have hnew : ∀ e ∈ ptx.tx.createdEntries daaScore,
      (utxo.eraseAll ptx.tx.spentOutpoints).lookup e.1 = none := by
    intro e he
    obtain ⟨i, hi⟩ := ptx.tx.createdEntries_outpoint daaScore he
    rw [lookup_eraseAll, hi, hfresh i, ite_self]
  rw [UtxoCollection.applyTransaction, total_insertAll f _ (ptx.tx.nodup_createdEntries daaScore)
    hnew, add_right_comm, ← sum_spentOutpoints f hunspent, total_eraseAll f utxo hdistinct]

theorem total_coinbase {tx : Transaction} (daaScore : ℕ) (hinputs : tx.inputs = [])
    (hfresh : ∀ i, utxo.lookup (tx.outpoint i) = none) :
    total f (utxo.applyTransaction tx daaScore) =
      total f utxo + ((tx.createdEntries daaScore).map fun e => f e.1 e.2).sum := by
  have h := @total_applyTransaction M _ f utxo ⟨tx, [], by rw [hinputs]; rfl⟩ daaScore
    (by simp [PopulatedTransaction.UnspentIn, PopulatedTransaction.populatedInputs])
    (by simp [Transaction.spentOutpoints, hinputs]) hfresh
  simpa [PopulatedTransaction.populatedInputs] using h

end Totals

namespace MuHash

variable {G : Type} [AddCommGroup G] (element : List UInt8 → G)

def addUtxo (hash : G) (outpoint : TransactionOutpoint) (entry : UtxoEntry) : G :=
  hash + element (writeUtxo entry outpoint)

def removeUtxo (hash : G) (outpoint : TransactionOutpoint) (entry : UtxoEntry) : G :=
  hash - element (writeUtxo entry outpoint)

def addTransaction (hash : G) (populatedInputs : List (TransactionInput × UtxoEntry))
    (tx : Transaction) (blockDaaScore : ℕ) : G :=
  (tx.createdEntries blockDaaScore).foldl (fun hash e => addUtxo element hash e.1 e.2)
    (populatedInputs.foldl (fun hash p => removeUtxo element hash p.1.previousOutpoint p.2) hash)

/-- The hash built by adding the entries of a set one by one. -/
def ofUtxoSet (utxo : UtxoCollection) : G :=
  (FMap.iter utxo).foldl (fun hash e => addUtxo element hash e.1 e.2) 0

theorem foldl_addUtxo (entries : List (TransactionOutpoint × UtxoEntry)) (hash : G) :
    entries.foldl (fun hash e => addUtxo element hash e.1 e.2) hash =
      hash + (entries.map fun e => element (writeUtxo e.2 e.1)).sum := by
  induction entries generalizing hash with
  | nil => simp
  | cons e entries ih => rw [foldl_cons, ih, addUtxo, map_cons, sum_cons, add_assoc]

theorem foldl_removeUtxo (inputs : List (TransactionInput × UtxoEntry)) (hash : G) :
    inputs.foldl (fun hash p => removeUtxo element hash p.1.previousOutpoint p.2) hash =
      hash - (inputs.map fun p => element (writeUtxo p.2 p.1.previousOutpoint)).sum := by
  induction inputs generalizing hash with
  | nil => simp
  | cons p inputs ih =>
    rw [foldl_cons, ih, removeUtxo, map_cons, sum_cons, sub_sub]

theorem ofUtxoSet_eq (utxo : UtxoCollection) :
    ofUtxoSet element utxo = total (fun o e => element (writeUtxo e o)) utxo := by
  rw [ofUtxoSet, foldl_addUtxo, zero_add, ← sum_iter]

theorem addTransaction_ofUtxoSet {utxo : UtxoCollection} {ptx : PopulatedTransaction} (daaScore : ℕ)
    (hunspent : ptx.UnspentIn utxo) (hdistinct : ptx.tx.spentOutpoints.Nodup)
    (hfresh : ∀ i, utxo.lookup (ptx.tx.outpoint i) = none) :
    addTransaction element (ofUtxoSet element utxo) ptx.populatedInputs ptx.tx daaScore =
      ofUtxoSet element (utxo.applyTransaction ptx.tx daaScore) := by
  have htotal := total_applyTransaction (fun o e => element (writeUtxo e o)) daaScore hunspent
    hdistinct hfresh
  rw [addTransaction, foldl_removeUtxo, foldl_addUtxo, ofUtxoSet_eq, ofUtxoSet_eq,
    sub_add_eq_add_sub, ← htotal, add_sub_cancel_right]

end MuHash

end CryptixAtomic
