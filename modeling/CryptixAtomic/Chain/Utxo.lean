import CryptixAtomic.Chain.Transaction
import CryptixAtomic.Foundation.EntryLists

/-!
# Unspent outputs and their differences

Block processing does not touch the UTXO set of the selected parent: it collects a difference
of added and removed entries and reads through it. `Over` is the invariant of such a
difference and `Shows` says which set it stands for. By `addTransaction_ok` a transaction with
distinct unspent inputs and new outpoints is always added.
-/
namespace CryptixAtomic

open Foundation List FMap Finmap

abbrev UtxoCollection := FMap TransactionOutpoint UtxoEntry

/-- A read-only UTXO set. -/
abbrev UtxoView := TransactionOutpoint → Option UtxoEntry

def containsWithDaaScore (c : UtxoCollection) (outpoint : TransactionOutpoint) (daaScore : ℕ) :
    Bool :=
  (c.lookup outpoint).any fun entry => entry.blockDaaScore = daaScore

inductive UtxoAlgebraError
  | doubleAddCall (outpoint : TransactionOutpoint)
  | doubleRemoveCall (outpoint : TransactionOutpoint)
  | duplicateAddPoint (outpoint : TransactionOutpoint)
  | duplicateRemovePoint (outpoint : TransactionOutpoint)
  | diffIntersectionPoint (outpoint : TransactionOutpoint) (message : String)
  | general (message : String)
  deriving DecidableEq

def Transaction.spentOutpoints (tx : Transaction) : List TransactionOutpoint :=
  tx.inputs.map (·.previousOutpoint)

def Transaction.createdEntries (tx : Transaction) (blockDaaScore : ℕ) :
    List (TransactionOutpoint × UtxoEntry) :=
  tx.outputs.zipIdx.map fun p =>
    (tx.outpoint p.2, ⟨p.1.value, p.1.scriptPublicKey, blockDaaScore, tx.isCoinbase⟩)

structure UtxoDiff where
  add : UtxoCollection
  remove : UtxoCollection
  deriving DecidableEq

namespace UtxoDiff

def empty : UtxoDiff := ⟨∅, ∅⟩

/-- Added entries first, then removed ones are gone, then the base. -/
def compose (d : UtxoDiff) (base : UtxoView) : UtxoView := fun outpoint =>
  match d.add.lookup outpoint with
  | some entry => some entry
  | none => if outpoint ∈ d.remove then none else base outpoint

def removeEntry (d : UtxoDiff) (outpoint : TransactionOutpoint) (entry : UtxoEntry) :
    Except UtxoAlgebraError UtxoDiff :=
  if containsWithDaaScore d.add outpoint entry.blockDaaScore then
    .ok { d with add := d.add.erase outpoint }
  else if outpoint ∉ d.remove then .ok { d with remove := d.remove.insert outpoint entry }
  else .error (.doubleRemoveCall outpoint)

def addEntry (d : UtxoDiff) (outpoint : TransactionOutpoint) (entry : UtxoEntry) :
    Except UtxoAlgebraError UtxoDiff :=
  if containsWithDaaScore d.remove outpoint entry.blockDaaScore then
    .ok { d with remove := d.remove.erase outpoint }
  else if outpoint ∉ d.add then .ok { d with add := d.add.insert outpoint entry }
  else .error (.doubleAddCall outpoint)

def removeEntries (d : UtxoDiff) :
    List (TransactionInput × UtxoEntry) → Except UtxoAlgebraError UtxoDiff
  | [] => .ok d
  | (input, entry) :: rest => do
    let d ← d.removeEntry input.previousOutpoint entry
    d.removeEntries rest

def addEntries (d : UtxoDiff) :
    List (TransactionOutpoint × UtxoEntry) → Except UtxoAlgebraError UtxoDiff
  | [] => .ok d
  | (outpoint, entry) :: rest => do
    let d ← d.addEntry outpoint entry
    d.addEntries rest

def addTransaction (d : UtxoDiff) (populatedInputs : List (TransactionInput × UtxoEntry))
    (tx : Transaction) (blockDaaScore : ℕ) : Except UtxoAlgebraError UtxoDiff := do
  let d ← d.removeEntries populatedInputs
  d.addEntries (tx.createdEntries blockDaaScore)

/-- Writing a difference to the set it was made for. -/
def applyTo (d : UtxoDiff) (base : UtxoCollection) : UtxoCollection :=
  d.add ∪ base.without d.remove.keys

end UtxoDiff

/-- Every input of the transaction is unspent in the set, with the entry it was populated with. -/
def PopulatedTransaction.UnspentIn (ptx : PopulatedTransaction) (utxo : UtxoCollection) : Prop :=
  ∀ p ∈ ptx.populatedInputs, utxo.lookup p.1.previousOutpoint = some p.2

def UtxoCollection.applyTransaction (utxo : UtxoCollection) (tx : Transaction)
    (blockDaaScore : ℕ) : UtxoCollection :=
  (utxo.eraseAll tx.spentOutpoints).insertAll (tx.createdEntries blockDaaScore)

section Created

variable (tx : Transaction) (blockDaaScore : ℕ)

variable {e : TransactionOutpoint × UtxoEntry}

theorem Transaction.mem_createdEntries :
    e ∈ tx.createdEntries blockDaaScore ↔ ∃ i output, tx.outputs[i]? = some output ∧
      e =
    (tx.outpoint i, ⟨output.value, output.scriptPublicKey, blockDaaScore, tx.isCoinbase⟩) := by
  simp only [createdEntries, mem_map, Prod.exists, mem_zipIdx_iff_getElem?]
  constructor
  · rintro ⟨output, i, h, rfl⟩
    exact ⟨i, output, h, rfl⟩
  · rintro ⟨i, output, h, rfl⟩
    exact ⟨output, i, h, rfl⟩

theorem Transaction.createdEntries_outpoint
    (h : e ∈ tx.createdEntries blockDaaScore) : ∃ i, e.1 = tx.outpoint i := by
  obtain ⟨i, output, -, rfl⟩ := (tx.mem_createdEntries blockDaaScore).mp h
  exact ⟨i, rfl⟩

theorem Transaction.nodup_createdEntries :
    ((tx.createdEntries blockDaaScore).map Prod.fst).Nodup := by
  have hmap : (tx.createdEntries blockDaaScore).map Prod.fst =
      (range' 0 tx.outputs.length).map tx.outpoint := by
    rw [← zipIdx_map_snd 0 tx.outputs, createdEntries, map_map, map_map]
    rfl
  rw [hmap]
  apply Nodup.map
  · intro i j h
    exact congrArg TransactionOutpoint.index h
  · exact nodup_range'

end Created

namespace UtxoDiff

/-- A difference made for the set `base`: it adds what `base` has not and removes
entries of `base`. -/
structure Over (d : UtxoDiff) (base : UtxoView) : Prop where
  added : ∀ o e, d.add.lookup o = some e → base o = none
  removed : ∀ o e, d.remove.lookup o = some e → base o = some e

/-- `utxo` is `base` seen through the difference. -/
def Shows (d : UtxoDiff) (base : UtxoView) (utxo : UtxoCollection) : Prop :=
  ∀ o, utxo.lookup o = d.compose base o

theorem over_empty (base : UtxoView) : empty.Over base := by
  constructor <;> simp [empty]

@[simp] theorem compose_empty (base : UtxoView) : empty.compose base = base := by
  funext o
  simp [compose, empty, notMem_empty]

theorem lookup_applyTo (d : UtxoDiff) (base : UtxoCollection) :
    d.Shows base.lookup (d.applyTo base) := by
  intro o
  unfold applyTo compose
  cases hadd : d.add.lookup o with
  | some => rw [Finmap.lookup_union_left (Finmap.mem_of_lookup_eq_some hadd), hadd]
  | none =>
    rw [Finmap.lookup_union_right (Finmap.lookup_eq_none.mp hadd), FMap.lookup_without]
    simp only [Finmap.mem_keys]

section Steps

variable {d : UtxoDiff} {base : UtxoView} {utxo : UtxoCollection}
variable {o : TransactionOutpoint}

theorem compose_of_added {e : UtxoEntry} (h : d.add.lookup o = some e) :
    d.compose base o = some e := by
  simp [compose, h]

theorem compose_of_not_added (h : d.add.lookup o = none) :
    d.compose base o = if o ∈ d.remove then none else base o := by
  simp [compose, h]

/-- The result of removing one entry that is unspent. -/
structure Removed (d : UtxoDiff) (base : UtxoView) (o : TransactionOutpoint) (e : UtxoEntry)
    (d' : UtxoDiff) : Prop where
  sound : d'.Over base
  add : d'.add = d.add.erase o
  compose : ∀ x, d'.compose base x = if x = o then none else d.compose base x
  kept : ∀ x v, d.remove.lookup x = some v → d'.remove.lookup x = some v
  taken : d.add.lookup o = none → d'.remove.lookup o = some e

theorem removeEntry_ok (hd : d.Over base) {e : UtxoEntry} (he : d.compose base o = some e) :
    ∃ d', d.removeEntry o e = .ok d' ∧ d.Removed base o e d' := by
  cases hadd : d.add.lookup o with
  | some v =>
    rw [compose_of_added hadd] at he
    obtain rfl := Option.some.inj he
    refine ⟨{ d with add := d.add.erase o }, ?_, ?_⟩
    · simp [removeEntry, containsWithDaaScore, hadd]
    have hnone := hd.added o v hadd
    constructor
    · constructor
      · intro x w hx
        rw [lookup_erase_ite] at hx
        split_ifs at hx
        exact hd.added x w hx
      · exact hd.removed
    · rfl
    · intro x
      simp only [compose, lookup_erase_ite]
      split_ifs with hx hremove <;> first | rfl | simp_all
    · exact fun _ _ h => h
    · intro h
      rw [hadd] at h
      cases h
  | none =>
    rw [compose_of_not_added hadd] at he
    split_ifs at he with hremove
    refine ⟨{ d with remove := d.remove.insert o e }, ?_, ?_⟩
    · simp [removeEntry, containsWithDaaScore, hadd, hremove]
    constructor
    · constructor
      · exact hd.added
      · intro x w hx
        rw [lookup_insert_ite] at hx
        split_ifs at hx with hxo
        · rw [hxo, he, hx]
        · exact hd.removed x w hx
    · refine ext_lookup fun x => ?_
      rw [lookup_erase_ite]
      split_ifs with hx
      · rw [hx, hadd]
      · rfl
    · intro x
      simp only [compose, mem_insert]
      by_cases hx : x = o
      · subst hx
        simp [hadd]
      · simp [hx]
    · intro x v hx
      have hne : x ≠ o := by
        rintro rfl
        exact hremove (Finmap.mem_of_lookup_eq_some hx)
      rw [lookup_insert_ite, if_neg hne, hx]
    · intro _
      rw [lookup_insert_ite, if_pos rfl]

theorem addEntry_ok (hd : d.Over base) (e : UtxoEntry)
    (hbase : base o = none) (hadd : d.add.lookup o = none) :
    d.addEntry o e = .ok { d with add := d.add.insert o e } ∧
      Over { d with add := d.add.insert o e } base ∧
      ∀ x, compose { d with add := d.add.insert o e } base x =
        if x = o then some e else d.compose base x := by
  have hremove : d.remove.lookup o = none := by
    cases hr : d.remove.lookup o with
    | none => rfl
    | some v =>
      have h := hd.removed o v hr
      rw [hbase] at h
      cases h
  refine ⟨?_, ⟨?_, hd.removed⟩, ?_⟩
  · simp [addEntry, containsWithDaaScore, hremove, Finmap.lookup_eq_none.mp hadd]
  · intro x v hx
    rw [lookup_insert_ite] at hx
    split_ifs at hx with hxo
    · rw [hxo, hbase]
    · exact hd.added x v hx
  · intro x
    simp only [compose, lookup_insert_ite]
    split_ifs <;> rfl

theorem removeEntries_ok {inputs : List (TransactionInput × UtxoEntry)} (hd : d.Over base)
    (hshows : d.Shows base utxo)
    (hunspent : ∀ p ∈ inputs, utxo.lookup p.1.previousOutpoint = some p.2)
    (hnodup : (inputs.map fun p => p.1.previousOutpoint).Nodup) :
    ∃ d', d.removeEntries inputs = .ok d' ∧ d'.Over base ∧
      d'.Shows base (utxo.eraseAll (inputs.map fun p => p.1.previousOutpoint)) ∧
      d'.add = d.add.eraseAll (inputs.map fun p => p.1.previousOutpoint) ∧
      (∀ x v, d.remove.lookup x = some v → d'.remove.lookup x = some v) ∧
      ∀ p ∈ inputs, d.add.lookup p.1.previousOutpoint = none →
        d'.remove.lookup p.1.previousOutpoint = some p.2 := by
  induction inputs generalizing d utxo with
  | nil => exact ⟨d, rfl, hd, hshows, rfl, fun _ _ h => h, by simp⟩
  | cons p inputs ih =>
    rw [map_cons, nodup_cons] at hnodup
    have hp := hunspent p mem_cons_self
    rw [hshows] at hp
    obtain ⟨m, hm, hremoved⟩ := removeEntry_ok hd hp
    have hne : ∀ q ∈ inputs, q.1.previousOutpoint ≠ p.1.previousOutpoint := by
      intro q hq heq
      exact hnodup.1 (heq ▸ mem_map_of_mem hq)
    have hmshows : m.Shows base (utxo.erase p.1.previousOutpoint) := by
      intro x
      rw [lookup_erase_ite, hremoved.compose, hshows x]
    obtain ⟨d', hd', hover, hshows', hadd, hkept, htaken⟩ := ih hremoved.sound hmshows (by
      intro q hq
      rw [lookup_erase_ite, if_neg (hne q hq)]
      exact hunspent q (mem_cons_of_mem p hq)) hnodup.2
    refine ⟨d', ?_, hover, hshows', ?_, ?_, ?_⟩
    · simp only [removeEntries, hm]
      exact hd'
    · rw [hadd, hremoved.add]
      rfl
    · intro x v hx
      exact hkept x v (hremoved.kept x v hx)
    · intro q hq hnone
      rcases mem_cons.mp hq with rfl | hq
      · exact hkept _ _ (hremoved.taken hnone)
      · apply htaken q hq
        rw [hremoved.add, lookup_erase_ite, if_neg (hne q hq), hnone]

theorem addEntries_ok {entries : List (TransactionOutpoint × UtxoEntry)} (hd : d.Over base)
    (hshows : d.Shows base utxo) (hbase : ∀ e ∈ entries, base e.1 = none)
    (hadd : ∀ e ∈ entries, d.add.lookup e.1 = none) (hnodup : (entries.map Prod.fst).Nodup) :
    ∃ d', d.addEntries entries = .ok d' ∧ d'.Over base ∧
      d'.Shows base (utxo.insertAll entries) ∧ d'.add = d.add.insertAll entries ∧
      d'.remove = d.remove := by
  induction entries generalizing d utxo with
  | nil => exact ⟨d, rfl, hd, hshows, rfl, rfl⟩
  | cons e entries ih =>
    rw [map_cons, nodup_cons] at hnodup
    obtain ⟨hm, hover, hcompose⟩ := addEntry_ok hd e.2 (hbase e mem_cons_self)
      (hadd e mem_cons_self)
    have hmshows : Shows { d with add := d.add.insert e.1 e.2 } base (utxo.insert e.1 e.2) := by
      intro x
      rw [lookup_insert_ite, hcompose, hshows x]
    obtain ⟨d', hd', hover', hshows', hadd', hremove'⟩ := ih hover hmshows
      (fun q hq => hbase q (mem_cons_of_mem e hq)) (by
        intro q hq
        have hne : q.1 ≠ e.1 := fun h => hnodup.1 (h ▸ mem_map_of_mem hq)
        rw [lookup_insert_ite, if_neg hne]
        exact hadd q (mem_cons_of_mem e hq)) hnodup.2
    refine ⟨d', ?_, hover', hshows', hadd', hremove'⟩
    simp only [addEntries, hm]
    exact hd'

/-- What adding a transaction does to a difference and the set it stands for. -/
structure Advanced (d : UtxoDiff) (base : UtxoView) (utxo : UtxoCollection)
    (ptx : PopulatedTransaction) (blockDaaScore : ℕ) (d' : UtxoDiff) : Prop where
  sound : d'.Over base
  shows : d'.Shows base (utxo.applyTransaction ptx.tx blockDaaScore)
  add : d'.add = UtxoCollection.applyTransaction d.add ptx.tx blockDaaScore
  kept : ∀ x v, d.remove.lookup x = some v → d'.remove.lookup x = some v
  taken : ∀ p ∈ ptx.populatedInputs, d.add.lookup p.1.previousOutpoint = none →
    d'.remove.lookup p.1.previousOutpoint = some p.2

/-- Over distinct unspent inputs and new outpoints, adding a transaction succeeds and does
to the set what the transaction does. -/
theorem addTransaction_ok {ptx : PopulatedTransaction} (blockDaaScore : ℕ) (hd : d.Over base)
    (hshows : d.Shows base utxo)
    (hunspent : ptx.UnspentIn utxo)
    (hnodup : ptx.tx.spentOutpoints.Nodup) (hbase : ∀ i, base (ptx.tx.outpoint i) = none)
    (hnew : ∀ i, utxo.lookup (ptx.tx.outpoint i) = none) :
    ∃ d', d.addTransaction ptx.populatedInputs ptx.tx blockDaaScore = .ok d' ∧
      d.Advanced base utxo ptx blockDaaScore d' := by
  have hinputs : (ptx.populatedInputs.map fun p => p.1.previousOutpoint) =
      ptx.tx.spentOutpoints := by
    have hfst : ptx.populatedInputs.map Prod.fst = ptx.tx.inputs :=
      map_fst_zip (le_of_eq ptx.aligned)
    rw [Transaction.spentOutpoints, ← hfst, map_map]
    rfl
  obtain ⟨m, hm, hsound, hmshows, hmadd, hkept, htaken⟩ :=
    removeEntries_ok hd hshows hunspent (hinputs ▸ hnodup)
  rw [hinputs] at hmshows hmadd
  have hadd : ∀ e ∈ ptx.tx.createdEntries blockDaaScore, m.add.lookup e.1 = none := by
    intro e he
    obtain ⟨i, hi⟩ := ptx.tx.createdEntries_outpoint blockDaaScore he
    have hold : d.add.lookup (ptx.tx.outpoint i) = none := by
      cases h : d.add.lookup (ptx.tx.outpoint i) with
      | none => rfl
      | some =>
        have hread := hnew i
        rw [hshows, compose_of_added h] at hread
        cases hread
    rw [hmadd, hi, lookup_eraseAll, hold, ite_self]
  obtain ⟨d', hd', hsound', hshows', hadd', hremove'⟩ := addEntries_ok hsound hmshows (by
    intro e he
    obtain ⟨i, hi⟩ := ptx.tx.createdEntries_outpoint blockDaaScore he
    rw [hi]
    exact hbase i) hadd (ptx.tx.nodup_createdEntries blockDaaScore)
  refine ⟨d', ?_, ?_⟩
  · simp only [addTransaction, hm]
    exact hd'
  · constructor
    · exact hsound'
    · exact hshows'
    · rw [hadd', hmadd]
      rfl
    · intro x v hx
      rw [hremove']
      exact hkept x v hx
    · intro p hp hnone
      rw [hremove']
      exact htaken p hp hnone

end Steps

end UtxoDiff
end CryptixAtomic
