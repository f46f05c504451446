import CryptixAtomic.UtxoIndex.Store

/-!
# The index mirrors the virtual UTXO set

`Mirrors` says that the database holds the entries of a UTXO set and nothing else. A resync
makes it so, and a virtual change that replaces no entry keeps it so: an outpoint that is
added and removed at once is skipped by the index. A bucket carries the length of its script,
which keeps scripts apart.
-/
namespace CryptixAtomic.UtxoIndex

open Foundation UtxoIndexChanges Store List Option FMap Finmap

/-- A version and a length that fit their machine types. -/
structure ScriptFits (s : ScriptPublicKey) : Prop where
  version : s.version < 2 ^ 16
  script : s.script.length < 2 ^ 64

structure Fits (s : ScriptPublicKey) (o : TransactionOutpoint) : Prop extends ScriptFits s where
  index : o.index < 2 ^ 32

theorem bucket_prefix {s s' : ScriptPublicKey} {rest : List UInt8} (h : ScriptFits s)
    (h' : ScriptFits s')
    (hlead : scriptPublicKeyBucket s <+: scriptPublicKeyBucket s' ++ rest) : s = s' := by
  obtain ⟨tail, heq⟩ := hlead
  simp only [scriptPublicKeyBucket, append_assoc] at heq
  obtain ⟨hversion, heq⟩ := append_inj heq (by rw [length_toLeBytes, length_toLeBytes])
  obtain ⟨hlength, heq⟩ := append_inj heq (by rw [length_toLeBytes, length_toLeBytes])
  have hsame := toLeBytes_inj (by simpa using h.script) (by simpa using h'.script) hlength
  obtain ⟨hscript, -⟩ := append_inj heq hsame
  have hnumber := toLeBytes_inj (by simpa using h.version) (by simpa using h'.version) hversion
  cases s
  cases s'
  simp only [ScriptPublicKey.mk.injEq]
  exact ⟨hnumber, hscript⟩

variable {o : TransactionOutpoint}

theorem outpointOfKey_key (h : o.index < 2 ^ 32) :
    outpointOfKey (transactionOutpointKey o) = some o := by
  have hlength : (transactionOutpointKey o).length = 36 := by
    simp [transactionOutpointKey, length_toLeBytes, o.transactionId.property]
  have htake : (transactionOutpointKey o).take 32 = o.transactionId.val :=
    take_left' o.transactionId.property
  have hdrop : (transactionOutpointKey o).drop 32 = toLeBytes 4 o.index :=
    drop_left' o.transactionId.property
  have hindex : Reader.fromLeBytes (toLeBytes 4 o.index) = o.index := by
    rw [Reader.fromLeBytes_toLeBytes]
    exact Nat.mod_eq_of_lt (by simpa using h)
  simp only [outpointOfKey, dif_pos hlength, htake, hdrop, hindex]

theorem fullAccessKey_inj {s s' : ScriptPublicKey} {o' : TransactionOutpoint} (h : Fits s o)
    (h' : Fits s' o') (heq : utxoEntryFullAccessKey s o = utxoEntryFullAccessKey s' o') :
    s = s' ∧ o = o' := by
  have hscript : s = s' := bucket_prefix h.toScriptFits h'.toScriptFits
    ⟨transactionOutpointKey o, heq⟩
  rw [utxoEntryFullAccessKey, utxoEntryFullAccessKey, hscript] at heq
  have houtpoint := congrArg outpointOfKey (append_cancel_left heq)
  rw [outpointOfKey_key h.index, outpointOfKey_key h'.index] at houtpoint
  exact ⟨hscript, some.inj houtpoint⟩

variable (m : UtxoSetByScriptPublicKey)

def nestedLookup (s : ScriptPublicKey) (o : TransactionOutpoint) : Option CompactUtxoEntry :=
  (m.lookup s).bind fun c => c.lookup o

theorem nestedLookup_insert (s s' : ScriptPublicKey) (o o' : TransactionOutpoint)
    (v : CompactUtxoEntry) :
    nestedLookup (insertIntoNested m s o v) s' o' =
      if s' = s ∧ o' = o then some v else nestedLookup m s' o' := by
  unfold nestedLookup insertIntoNested
  rw [lookup_insert_ite]
  by_cases hs : s' = s
  · rw [if_pos hs, bind_some, lookup_insert_ite]
    by_cases ho : o' = o
    · rw [if_pos ho, if_pos ⟨hs, ho⟩]
    · rw [if_neg ho, if_neg fun h => ho h.2, hs]
      cases m.lookup s <;> rfl
  · rw [if_neg hs, if_neg fun h => hs h.1]

variable {key : List UInt8} {v : CompactUtxoEntry} {l : List (TransactionOutpoint × UtxoEntry)}

theorem mem_keyedEntries {m : UtxoSetByScriptPublicKey} : (key, v) ∈ keyedEntries m ↔
      ∃ s o, nestedLookup m s o = some v ∧ key = utxoEntryFullAccessKey s o := by
  simp only [keyedEntries, List.mem_flatMap, List.mem_map, Prod.exists, FMap.mem_iter,
    Prod.mk.injEq, nestedLookup, Option.bind_eq_some_iff]
  constructor
  · rintro ⟨s, c, hc, o, v', hv, rfl, rfl⟩
    exact ⟨s, o, ⟨c, hc, hv⟩, rfl⟩
  · rintro ⟨s, o, ⟨c, hc, hv⟩, rfl⟩
    exact ⟨s, c, hc, o, v, hv, rfl, rfl⟩

def nest (l : List (TransactionOutpoint × UtxoEntry)) : UtxoSetByScriptPublicKey :=
  l.foldl (fun m p => insertIntoNested m p.2.scriptPublicKey p.1 (compact p.2)) m

theorem nestedLookup_nest (hkeys : (l.map Prod.fst).Nodup) {s : ScriptPublicKey} :
    nestedLookup (nest ∅ l) s o = some v ↔
      ∃ e, (o, e) ∈ l ∧ e.scriptPublicKey = s ∧ v = compact e := by
  induction l using reverseRecOn with
  | nil => simp [nest, nestedLookup]
  | append_singleton l p ih =>
    rw [map_append, nodup_append] at hkeys
    have hstep : nest ∅ (l ++ [p]) =
        insertIntoNested (nest ∅ l) p.2.scriptPublicKey p.1 (compact p.2) := by
      simp [nest]
    rw [hstep, nestedLookup_insert]
    split_ifs with h
    · obtain ⟨rfl, rfl⟩ := h
      constructor
      · intro hv
        exact ⟨p.2, by simp, rfl, (some.inj hv).symm⟩
      · rintro ⟨e, hmem, -, rfl⟩
        rcases mem_append.mp hmem with hmem | hmem
        · exact absurd rfl (hkeys.2.2 _ (mem_map_of_mem hmem) _ (by simp))
        · rw [← List.mem_singleton.mp hmem]
    · rw [ih hkeys.1]
      constructor
      · rintro ⟨e, hmem, hs, hv⟩
        exact ⟨e, mem_append_left _ hmem, hs, hv⟩
      · rintro ⟨e, hmem, hs, hv⟩
        rcases mem_append.mp hmem with hmem | hmem
        · exact ⟨e, hmem, hs, hv⟩
        · have hp := List.mem_singleton.mp hmem
          rw [← hp] at h
          exact absurd ⟨hs.symm, rfl⟩ h

def keyOf (p : TransactionOutpoint × UtxoEntry) : List UInt8 :=
  utxoEntryFullAccessKey p.2.scriptPublicKey p.1

theorem mem_keyedEntries_nest (hkeys : (l.map Prod.fst).Nodup) :
    (key, v) ∈ keyedEntries (nest ∅ l) ↔ ∃ p ∈ l, key = keyOf p ∧ v = compact p.2 := by
  simp only [mem_keyedEntries, nestedLookup_nest hkeys]
  constructor
  · rintro ⟨s, o, ⟨e, hmem, rfl, rfl⟩, rfl⟩
    exact ⟨(o, e), hmem, rfl, rfl⟩
  · rintro ⟨⟨o, e⟩, hmem, rfl, rfl⟩
    exact ⟨e.scriptPublicKey, o, ⟨e, hmem, rfl, rfl⟩, rfl⟩

theorem mem_keys_nest (hkeys : (l.map Prod.fst).Nodup) :
    key ∈ (keyedEntries (nest ∅ l)).map Prod.fst ↔ ∃ p ∈ l, key = keyOf p := by
  constructor
  · intro h
    obtain ⟨⟨key, v⟩, hmem, rfl⟩ := List.mem_map.mp h
    obtain ⟨p, hp, hkey, -⟩ := (mem_keyedEntries_nest hkeys).mp hmem
    exact ⟨p, hp, hkey⟩
  · rintro ⟨p, hp, rfl⟩
    exact mem_map_of_mem ((mem_keyedEntries_nest hkeys).mpr ⟨p, hp, rfl, rfl⟩)

section Changes

variable (l : List (TransactionOutpoint × UtxoEntry)) (c : UtxoIndexChanges)

theorem foldl_addUtxo : l.foldl addUtxo c =
      ⟨nest c.added l, c.removed, c.supplyChange + (l.map fun p => (p.2.amount : ℤ)).sum⟩ := by
  induction l generalizing c with
  | nil => simp [nest]
  | cons p l ih =>
    rw [foldl_cons, ih]
    simp [addUtxo, nest, add_assoc]

theorem foldl_removeUtxo : l.foldl removeUtxo c =
      ⟨c.added, nest c.removed l, c.supplyChange - (l.map fun p => (p.2.amount : ℤ)).sum⟩ := by
  induction l generalizing c with
  | nil => simp [nest]
  | cons p l ih =>
    rw [foldl_cons, ih]
    simp [removeUtxo, nest, sub_sub]

theorem sum_amounts :
    (l.map fun p => (p.2.amount : ℤ)).sum = ((l.map fun p => p.2.amount).sum : ℕ) := by
  induction l with
  | nil => rfl
  | cons p l ih => simp [ih]

theorem foldl_addOrCancel {toRemove : UtxoCollection} (h : ∀ p ∈ l, p.1 ∉ toRemove) :
    l.foldl addOrCancel (c, toRemove) = (l.foldl addUtxo c, toRemove) := by
  induction l generalizing c with
  | nil => rfl
  | cons p l ih =>
    rw [foldl_cons, foldl_cons, addOrCancel,
      if_neg (h p mem_cons_self), ih _ fun q hq => h q (mem_cons_of_mem p hq)]

end Changes

theorem updateUtxoDiff_eq {d : UtxoDiff} (h : ∀ o ∈ d.add, o ∉ d.remove) :
    new.updateUtxoDiff d = ⟨nest ∅ d.add.iter, nest ∅ d.remove.iter,
      (d.add.iter.map fun p => (p.2.amount : ℤ)).sum -
        (d.remove.iter.map fun p => (p.2.amount : ℤ)).sum⟩ := by
  have hdisjoint : ∀ p ∈ d.add.iter, p.1 ∉ d.remove := by
    intro p hp
    exact h p.1 (mem_of_lookup_eq_some (FMap.mem_iter.mp hp))
  unfold updateUtxoDiff
  rw [foldl_addOrCancel _ _ hdisjoint]
  simp only [foldl_addUtxo, foldl_removeUtxo]
  simp [new]

/-- The database holds the entries of a UTXO set under their keys, and nothing else. -/
def Mirrors (db : FMap (List UInt8) CompactUtxoEntry) (u : UtxoCollection) : Prop :=
  ∀ key v, db.lookup key = some v ↔ ∃ o e, u.lookup o = some e ∧ key = keyOf (o, e) ∧ v = compact e

def Fitting (u : UtxoCollection) : Prop := ∀ o e, u.lookup o = some e → Fits e.scriptPublicKey o

/-- A step from one UTXO set to another: what is gone and what is new. -/
structure Step (u u' : UtxoCollection) (added removed : List (TransactionOutpoint × UtxoEntry)) :
    Prop where
  addedKeys : (added.map Prod.fst).Nodup
  removedKeys : (removed.map Prod.fst).Nodup
  isNew : ∀ p ∈ added, u.lookup p.1 = none ∧ u'.lookup p.1 = some p.2
  isGone : ∀ p ∈ removed, u.lookup p.1 = some p.2 ∧ u'.lookup p.1 = none
  kept : ∀ o, o ∉ added.map Prod.fst → o ∉ removed.map Prod.fst → u'.lookup o = u.lookup o

variable {e : UtxoEntry}

section Step

variable {u u' : UtxoCollection} {added removed : List (TransactionOutpoint × UtxoEntry)}

theorem Step.lookup_of_not_added (h : Step u u' added removed) (he : u'.lookup o = some e)
    (ho : o ∉ added.map Prod.fst) :
    u.lookup o = some e := by
  have hgone : o ∉ removed.map Prod.fst := by
    intro hmem
    obtain ⟨p, hp, rfl⟩ := List.mem_map.mp hmem
    rw [(h.isGone p hp).2] at he
    cases he
  rw [← h.kept o ho hgone, he]

theorem Step.mirrors {db : FMap (List UInt8) CompactUtxoEntry} (h : Step u u' added removed)
    (hu : Fitting u) (hu' : Fitting u') (hdb : Mirrors db u) :
    Mirrors ((db.eraseAll ((keyedEntries (nest ∅ removed)).map Prod.fst)).insertAll
      (keyedEntries (nest ∅ added))) u' := by
  have hfits : ∀ p ∈ added, Fits p.2.scriptPublicKey p.1 := fun p hp => hu' _ _ (h.isNew p hp).2
  intro key v
  rw [lookup_insertAll_iff]
  · rw [mem_keyedEntries_nest h.addedKeys, mem_keys_nest h.addedKeys, lookup_eraseAll]
    constructor
    · rintro (⟨p, hp, rfl, rfl⟩ | ⟨hnew, hold⟩)
      · exact ⟨p.1, p.2, (h.isNew p hp).2, rfl, rfl⟩
      · split_ifs at hold with hgone
        obtain ⟨o, e, he, rfl, rfl⟩ := (hdb key v).mp hold
        refine ⟨o, e, ?_, rfl, rfl⟩
        rw [h.kept o, he]
        · intro hmem
          obtain ⟨p, hp, rfl⟩ := List.mem_map.mp hmem
          rw [(h.isNew p hp).1] at he
          cases he
        · intro hmem
          obtain ⟨p, hp, rfl⟩ := List.mem_map.mp hmem
          rw [(h.isGone p hp).1] at he
          exact hgone ((mem_keys_nest h.removedKeys).mpr ⟨p, hp, by rw [← some.inj he]⟩)
    · rintro ⟨o, e, he, rfl, rfl⟩
      by_cases hmem : o ∈ added.map Prod.fst
      · obtain ⟨p, hp, rfl⟩ := List.mem_map.mp hmem
        obtain rfl := some.inj ((h.isNew p hp).2.symm.trans he)
        exact .inl ⟨p, hp, rfl, rfl⟩
      · have hold := h.lookup_of_not_added he hmem
        right
        constructor
        · rintro ⟨p, hp, hkey⟩
          obtain ⟨-, rfl⟩ := fullAccessKey_inj (hu' o e he) (hfits p hp) hkey
          exact hmem (mem_map_of_mem hp)
        · rw [if_neg]
          · exact (hdb _ _).mpr ⟨o, e, hold, rfl, rfl⟩
          · intro hmem
            obtain ⟨p, hp, hkey⟩ := (mem_keys_nest h.removedKeys).mp hmem
            have hgone := h.isGone p hp
            obtain ⟨-, rfl⟩ := fullAccessKey_inj (hu' o e he) (hu _ _ hgone.1) hkey
            rw [hgone.2] at he
            cases he
  · intro a b ha hb
    obtain ⟨p, hp, hkey, rfl⟩ := (mem_keyedEntries_nest h.addedKeys).mp ha
    obtain ⟨q, hq, hkey', rfl⟩ := (mem_keyedEntries_nest h.addedKeys).mp hb
    obtain ⟨-, hsame⟩ := fullAccessKey_inj (hfits p hp) (hfits q hq) (hkey.symm.trans hkey')
    have hentry := (h.isNew p hp).2
    rw [hsame, (h.isNew q hq).2] at hentry
    rw [some.inj hentry]

theorem Step.eq (h : Step u u' added removed) :
    u' = (u.eraseAll (removed.map Prod.fst)).insertAll added := by
  apply ext_lookup
  intro o
  by_cases hmem : o ∈ added.map Prod.fst
  · obtain ⟨p, hp, rfl⟩ := List.mem_map.mp hmem
    rw [(h.isNew p hp).2, lookup_insertAll_of_mem _ h.addedKeys hp]
  · rw [lookup_insertAll_of_notMem _ hmem, lookup_eraseAll]
    split_ifs with hgone
    · obtain ⟨p, hp, rfl⟩ := List.mem_map.mp hgone
      exact (h.isGone p hp).2
    · exact h.kept o hmem hgone

def totalAmount (u : UtxoCollection) : ℕ := total (fun _ e => e.amount) u

theorem Step.totalAmount (h : Step u u' added removed) :
    totalAmount u' + (removed.map fun p => p.2.amount).sum =
      totalAmount u + (added.map fun p => p.2.amount).sum := by
  have herase := total_eraseAll (fun _ e => e.amount) u h.removedKeys
  have hinsert := total_insertAll (fun _ (e : UtxoEntry) => e.amount)
    (u.eraseAll (removed.map Prod.fst)) h.addedKeys (by
      intro p hp
      rw [lookup_eraseAll, (h.isNew p hp).1, ite_self])
  have hweights : ((removed.map Prod.fst).map fun o =>
      FMap.weight (fun _ e => e.amount) o (u.lookup o)) = removed.map fun p => p.2.amount := by
    rw [List.map_map]
    apply List.map_congr_left
    intro p hp
    simp [(h.isGone p hp).1]
  rw [← h.eq] at hinsert
  rw [hweights] at herase
  unfold UtxoIndex.totalAmount
  omega

end Step

/-- No outpoint keeps its place with another entry. -/
def Keeps (u u' : UtxoCollection) : Prop :=
  ∀ o e e', u.lookup o = some e → u'.lookup o = some e' → e = e'

theorem nodup_iter {K V : Type} [LinearOrder K] (m : FMap K V) : (m.iter.map Prod.fst).Nodup :=
  pairwise_map.mpr (m.iter_sorted.imp fun h => ne_of_lt h)

section Update

variable {u u' : UtxoCollection} {d : UtxoDiff}

theorem added_of_from (h : d.From u.lookup u'.lookup) (hkeeps : Keeps u u')
    (he : d.add.lookup o = some e) :
    u.lookup o = none ∧ u'.lookup o = some e := by
  rw [h.add] at he
  split_ifs at he with heq
  refine ⟨?_, he⟩
  cases hold : u.lookup o with
  | none => rfl
  | some old =>
    rw [hkeeps o old e hold he] at hold
    exact absurd (hold.trans he.symm) heq

theorem removed_of_from (h : d.From u.lookup u'.lookup) (hkeeps : Keeps u u')
    (he : d.remove.lookup o = some e) :
    u.lookup o = some e ∧ u'.lookup o = none := by
  rw [h.remove] at he
  split_ifs at he with heq
  refine ⟨he, ?_⟩
  cases hnew : u'.lookup o with
  | none => rfl
  | some new =>
    rw [← hkeeps o e new he hnew] at hnew
    exact absurd (he.trans hnew.symm) heq

theorem step_of_from (h : d.From u.lookup u'.lookup) (hkeeps : Keeps u u') :
    Step u u' d.add.iter d.remove.iter := by
  constructor
  · exact nodup_iter d.add
  · exact nodup_iter d.remove
  · exact fun p hp => added_of_from h hkeeps (FMap.mem_iter.mp hp)
  · exact fun p hp => removed_of_from h hkeeps (FMap.mem_iter.mp hp)
  · intro o hadd hremove
    by_contra hne
    have hdiffer : ¬u.lookup o = u'.lookup o := fun heq => hne heq.symm
    cases hnew : u'.lookup o with
    | some =>
      have hlookup := h.add o
      rw [if_neg hdiffer, hnew] at hlookup
      exact hadd (mem_map_of_mem (FMap.mem_iter.mpr hlookup))
    | none =>
      cases hold : u.lookup o with
      | none => exact hdiffer (hold.trans hnew.symm)
      | some =>
        have hlookup := h.remove o
        rw [if_neg hdiffer, hold] at hlookup
        exact hremove (mem_map_of_mem (FMap.mem_iter.mpr hlookup))

theorem update_spec {s : Store} {supply : ℕ} (tips : Finset Bytes32)
    (h : d.From u.lookup u'.lookup) (hkeeps : Keeps u u') (hu : Fitting u) (hu' : Fitting u')
    (hs : Mirrors s.utxosByScriptPublicKey u) (hsupply : s.circulatingSupply = some supply) :
    ∃ s', s.update d tips = .ok s' ∧ Mirrors s'.utxosByScriptPublicKey u' ∧
      s'.circulatingSupply = some (supply + (totalAmount u' - totalAmount u)) := by
  have hstep := step_of_from h hkeeps
  have hdisjoint : ∀ o ∈ d.add, o ∉ d.remove := by
    intro o hadd hremove
    obtain ⟨e, he⟩ := mem_iff.mp hadd
    obtain ⟨e', he'⟩ := mem_iff.mp hremove
    have hnone := (added_of_from h hkeeps he).1
    rw [(removed_of_from h hkeeps he').1] at hnone
    cases hnone
  have htotal := hstep.totalAmount
  let next := s.updateUtxoState (nest ∅ d.add.iter) (nest ∅ d.remove.iter)
  have hmirrors : Mirrors next.utxosByScriptPublicKey u' := hstep.mirrors hu hu' hs
  have hnext : next.circulatingSupply = some supply := hsupply
  unfold update
  simp only [updateUtxoDiff_eq hdisjoint, sum_amounts]
  split_ifs with hraised
  · refine ⟨{ next with
      circulatingSupply := some (supply + (totalAmount u' - totalAmount u))
      tips := some tips }, ?_, hmirrors, rfl⟩
    have hchange : (((d.add.iter.map fun p => p.2.amount).sum : ℕ) -
        ((d.remove.iter.map fun p => p.2.amount).sum : ℕ) : ℤ).toNat =
          totalAmount u' - totalAmount u := by
      omega
    rw [hchange]
    change (next.updateCirculatingSupply _ >>= fun s : Store => _) = _
    simp only [updateCirculatingSupply, hnext]
    rfl
  · refine ⟨{ next with tips := some tips }, rfl, hmirrors, ?_⟩
    have hsame : totalAmount u' - totalAmount u = 0 := by omega
    rw [hsame, Nat.add_zero]
    exact hnext

end Update

/-- The virtual UTXO set in the order of its database. -/
structure Lists (listing : List (TransactionOutpoint × UtxoEntry)) (u : UtxoCollection) : Prop where
  keys : (listing.map Prod.fst).Nodup
  entries : ∀ o e, (o, e) ∈ listing ↔ u.lookup o = some e

section Resync

variable {listing : List (TransactionOutpoint × UtxoEntry)} {u : UtxoCollection}

theorem lookup_insertAll_empty {l : List (TransactionOutpoint × UtxoEntry)}
    (hkeys : (l.map Prod.fst).Nodup) :
    ((∅ : UtxoCollection).insertAll l).lookup o = some e ↔ (o, e) ∈ l := by
  constructor
  · intro h
    rcases lookup_insertAll_cases _ hkeys h with h | ⟨-, h⟩
    · exact h
    · cases h
  · exact lookup_insertAll_of_mem _ hkeys

theorem Lists.insertAll (h : Lists listing u) : (∅ : UtxoCollection).insertAll listing = u := by
  apply ext_lookup
  intro o
  apply Option.ext
  intro e
  rw [lookup_insertAll_empty h.keys, h.entries]

theorem step_of_chunk {done chunk : List (TransactionOutpoint × UtxoEntry)}
    (hkeys : ((done ++ chunk).map Prod.fst).Nodup) :
    Step ((∅ : UtxoCollection).insertAll done) ((∅ : UtxoCollection).insertAll (done ++ chunk))
      chunk [] := by
  have hsplit := hkeys
  rw [map_append, nodup_append] at hsplit
  have hlookup : ∀ o, o ∉ chunk.map Prod.fst →
      ((∅ : UtxoCollection).insertAll (done ++ chunk)).lookup o =
        ((∅ : UtxoCollection).insertAll done).lookup o := by
    intro o ho
    apply Option.ext
    intro e
    rw [lookup_insertAll_empty hkeys, lookup_insertAll_empty hsplit.1, mem_append]
    constructor
    · rintro (h | h)
      · exact h
      · exact absurd (mem_map_of_mem h) ho
    · exact .inl
  constructor
  · exact hsplit.2.1
  · exact nodup_nil
  · intro p hp
    constructor
    · apply lookup_insertAll_of_notMem
      exact fun hmem => hsplit.2.2 _ hmem _ (mem_map_of_mem hp) rfl
    · exact lookup_insertAll_of_mem _ hkeys (mem_append_right _ hp)
  · intro p hp
    cases hp
  · exact fun o ho _ => hlookup o ho

theorem getVirtualUtxos_some {done rest : List (TransactionOutpoint × UtxoEntry)}
    {last : TransactionOutpoint × UtxoEntry}
    (hkeys : ((done ++ last :: rest).map Prod.fst).Nodup) (n : ℕ) :
    getVirtualUtxos (done ++ last :: rest) (some last.1) n true = rest.take n := by
  rw [map_append, nodup_append] at hkeys
  have hdrop : (done ++ last :: rest).dropWhile (fun p => p.1 ≠ last.1) = last :: rest := by
    rw [dropWhile_append_of_pos, dropWhile_cons_of_neg (by simp)]
    intro p hp
    simpa using hkeys.2.2 p.1 (mem_map_of_mem hp) last.1 (by simp)
  simp only [getVirtualUtxos]
  rw [hdrop]
  rfl

theorem resyncLoop_spec (hlisting : Lists listing u) (hu : Fitting u) (fuel : ℕ)
    {done rest : List (TransactionOutpoint × UtxoEntry)} (hdone : listing = done ++ rest)
    (hfuel : rest.length < fuel) {s : Store} {supply : ℕ}
    (hs : Mirrors s.utxosByScriptPublicKey ((∅ : UtxoCollection).insertAll done))
    (hsupply : supply = totalAmount ((∅ : UtxoCollection).insertAll done)) :
    ∃ s' supply', resyncLoop listing fuel (rest.take resyncChunkSize) (s, supply) =
        (s', supply') ∧ Mirrors s'.utxosByScriptPublicKey u ∧ supply' = totalAmount u := by
  have hfits : ∀ {l rest : List (TransactionOutpoint × UtxoEntry)}, listing = l ++ rest →
      Fitting ((∅ : UtxoCollection).insertAll l) := by
    intro l rest heq o e he
    have hkeys := hlisting.keys
    rw [heq, map_append, nodup_append] at hkeys
    have hmem := (lookup_insertAll_empty hkeys.1).mp he
    exact hu o e ((hlisting.entries o e).mp (heq ▸ mem_append_left _ hmem))
  induction fuel generalizing done rest s supply with
  | zero => omega
  | succ fuel ih =>
    have hpos : 0 < resyncChunkSize := by decide
    rw [resyncLoop]
    cases hlast : (rest.take resyncChunkSize).getLast? with
    | none =>
      have hempty : rest = [] := by
        have hnil := getLast?_eq_none_iff.mp hlast
        exact (take_eq_nil_iff.mp hnil).resolve_left hpos.ne'
      rw [hempty, append_nil] at hdone
      rw [← hdone, hlisting.insertAll] at hs hsupply
      exact ⟨s, supply, rfl, hs, hsupply⟩
    | some last =>
      obtain ⟨init, hchunk⟩ := getLast?_eq_some_iff.mp hlast
      have hwhole : listing = (done ++ rest.take resyncChunkSize) ++ rest.drop resyncChunkSize := by
        rw [append_assoc, take_append_drop, hdone]
      have hkeys : ((done ++ rest.take resyncChunkSize).map Prod.fst).Nodup := by
        have hall := hlisting.keys
        rw [hwhole, map_append, nodup_append] at hall
        exact hall.1
      have hstep := step_of_chunk hkeys
      have hmirrors := hstep.mirrors (hfits hdone) (hfits hwhole) hs
      have htotal := hstep.totalAmount
      simp only [addUtxosFromVector, foldl_addUtxo, sum_amounts, new, zero_add, Int.toNat_natCast]
      have hsupply' : supply + ((rest.take resyncChunkSize).map fun p => p.2.amount).sum =
          totalAmount ((∅ : UtxoCollection).insertAll (done ++ rest.take resyncChunkSize)) := by
        rw [hsupply, ← htotal]
        simp
      split_ifs with hshort
      · have hdrop : rest.drop resyncChunkSize = [] := by
          rw [length_take] at hshort
          exact drop_eq_nil_of_le (by omega)
        rw [hdrop, append_nil] at hwhole
        rw [← hwhole, hlisting.insertAll] at hmirrors hsupply'
        exact ⟨_, _, rfl, hmirrors, hsupply'⟩
      · have hnext : getVirtualUtxos listing (some last.1) resyncChunkSize true =
            (rest.drop resyncChunkSize).take resyncChunkSize := by
          have hfull : listing = (done ++ init) ++ last :: rest.drop resyncChunkSize := by
            rw [hwhole, hchunk]
            simp
          have hall := hlisting.keys
          rw [hfull] at hall ⊢
          exact getVirtualUtxos_some hall _
        rw [hnext]
        apply ih hwhole _ hmirrors hsupply'
        rw [length_drop]
        rw [length_take] at hshort
        omega

theorem resync_spec (hlisting : Lists listing u) (hu : Fitting u) (s : Store)
    (tips : Finset Bytes32) :
    Mirrors (s.resync listing tips).utxosByScriptPublicKey u ∧
      (s.resync listing tips).circulatingSupply = some (totalAmount u) := by
  have hempty : Mirrors s.deleteAll.utxosByScriptPublicKey ((∅ : UtxoCollection).insertAll []) := by
    intro key v
    simp [deleteAll]
  obtain ⟨s', supply, hrun, hmirrors, hsupply⟩ := @resyncLoop_spec listing u hlisting hu
    (listing.length + 1) [] listing rfl (Nat.lt_succ_self _) _ 0 hempty
    (by simp [totalAmount])
  have hfirst : getVirtualUtxos listing none resyncChunkSize false =
      listing.take resyncChunkSize := rfl
  unfold resync
  rw [hfirst, hrun, hsupply]
  exact ⟨hmirrors, rfl⟩

end Resync

theorem getUtxosByScriptPublicKey_spec {s : Store} {u : UtxoCollection} (hu : Fitting u)
    (hs : Mirrors s.utxosByScriptPublicKey u) {script : ScriptPublicKey} (h : ScriptFits script) :
    ∃ c, s.getUtxosByScriptPublicKey script = some c ∧ ∀ o v, c.lookup o = some v ↔
      ∃ e, u.lookup o = some e ∧ e.scriptPublicKey = script ∧ v = compact e := by
  -- the keys behind the bucket are those of the entries of the script
  have hseek : ∀ key v, (key, v) ∈ s.seek (scriptPublicKeyBucket script) ↔
      ∃ o e, u.lookup o = some e ∧ e.scriptPublicKey = script ∧ key = transactionOutpointKey o ∧
        v = compact e := by
    intro key v
    simp only [seek, List.mem_map, List.mem_filter, List.isPrefixOf_iff_prefix, Prod.exists,
      FMap.mem_iter, Prod.mk.injEq]
    constructor
    · rintro ⟨full, v', ⟨hfull, hlead⟩, rfl, rfl⟩
      obtain ⟨o, e, he, rfl, rfl⟩ := (hs full v').mp hfull
      have hscript := bucket_prefix h (hu o e he).toScriptFits hlead
      refine ⟨o, e, he, hscript.symm, ?_, rfl⟩
      rw [keyOf, utxoEntryFullAccessKey, ← hscript, List.drop_left]
    · rintro ⟨o, e, he, rfl, rfl, rfl⟩
      refine ⟨keyOf (o, e), compact e, ⟨(hs _ _).mpr ⟨o, e, he, rfl, rfl⟩, ?_⟩, ?_, rfl⟩
      · exact List.prefix_append _ _
      · rw [keyOf, utxoEntryFullAccessKey, List.drop_left]
  have hread : ∀ p ∈ s.seek (scriptPublicKeyBucket script),
      ∃ q, ((outpointOfKey p.1).map fun o => (o, p.2)) = some q := by
    rintro ⟨key, v⟩ hp
    obtain ⟨o, e, he, -, rfl, rfl⟩ := (hseek key v).mp hp
    exact ⟨(o, compact e), by rw [outpointOfKey_key (hu o e he).index]; rfl⟩
  obtain ⟨entries, hentries⟩ := exists_mapM_eq_some hread
  have hmem : ∀ o v, (o, v) ∈ entries ↔
      ∃ e, u.lookup o = some e ∧ e.scriptPublicKey = script ∧ v = compact e := by
    intro o v
    rw [mem_of_mapM_eq_some hentries]
    constructor
    · rintro ⟨⟨key, w⟩, hp, hq⟩
      obtain ⟨o', e, he, hscript, rfl, rfl⟩ := (hseek key w).mp hp
      rw [outpointOfKey_key (hu o' e he).index] at hq
      obtain ⟨rfl, rfl⟩ := Prod.mk.inj (some.inj hq)
      exact ⟨e, he, hscript, rfl⟩
    · rintro ⟨e, he, hscript, rfl⟩
      refine ⟨(transactionOutpointKey o, compact e), (hseek _ _).mpr ⟨o, e, he, hscript, rfl, rfl⟩,
        ?_⟩
      rw [outpointOfKey_key (hu o e he).index]
      rfl
  refine ⟨(∅ : CompactUtxoCollection).insertAll entries, ?_, ?_⟩
  · rw [getUtxosByScriptPublicKey, hentries]
    rfl
  · intro o v
    rw [lookup_insertAll_iff, hmem]
    · simp
    · intro a b ha hb
      obtain ⟨e, he, -, rfl⟩ := (hmem o a).mp ha
      obtain ⟨e', he', -, rfl⟩ := (hmem o b).mp hb
      rw [some.inj (he.symm.trans he')]

/-- Virtual changes from one UTXO set to another that replace no entry, and by how much
they raise the supply in all. A change that lowers the supply counts for nothing. -/
inductive VirtualChanges :
    UtxoCollection → List (UtxoDiff × Finset Bytes32) → UtxoCollection → ℕ → Prop
  | nil (u : UtxoCollection) : VirtualChanges u [] u 0
  | cons {u m u' : UtxoCollection} {d : UtxoDiff} {tips : Finset Bytes32}
      {rest : List (UtxoDiff × Finset Bytes32)} {raised : ℕ}
      (diff : d.From u.lookup m.lookup) (keeps : Keeps u m) (fitting : Fitting m)
      (run : VirtualChanges m rest u' raised) :
      VirtualChanges u ((d, tips) :: rest) u' (totalAmount m - totalAmount u + raised)

theorem VirtualChanges.updateAll {u u' : UtxoCollection}
    {changes : List (UtxoDiff × Finset Bytes32)} {raised : ℕ}
    (h : VirtualChanges u changes u' raised) (hu : Fitting u) {s : Store} {supply : ℕ}
    (hs : Mirrors s.utxosByScriptPublicKey u) (hsupply : s.circulatingSupply = some supply) :
    ∃ s', s.updateAll changes = .ok s' ∧ Mirrors s'.utxosByScriptPublicKey u' ∧ Fitting u' ∧
      s'.circulatingSupply = some (supply + raised) := by
  induction h generalizing s supply with
  | nil => exact ⟨s, rfl, hs, hu, hsupply⟩
  | @cons u m u' d tips rest raised diff keeps fitting run ih =>
    obtain ⟨next, hnext, hmirrors, hraised⟩ := update_spec tips diff keeps hu fitting hs hsupply
    obtain ⟨s', hrest, hfinal, hfits, htotal⟩ := ih fitting hmirrors hraised
    refine ⟨s', ?_, hfinal, hfits, by rw [htotal, Nat.add_assoc]⟩
    rw [Store.updateAll, hnext]
    exact hrest

/-- After a resync and any virtual changes that replace no entry, a query by script finds
exactly the entries of the script, and the supply is that of the resync and what the
changes have raised it by. -/
theorem index_mirrors_virtual {s : Store} {listing : List (TransactionOutpoint × UtxoEntry)}
    {u u' : UtxoCollection} {tips : Finset Bytes32} {changes : List (UtxoDiff × Finset Bytes32)}
    {raised : ℕ} (hlisting : Lists listing u) (hu : Fitting u)
    (hchanges : VirtualChanges u changes u' raised) :
    (∃ s', (s.resync listing tips).updateAll changes = .ok s' ∧
      s'.circulatingSupply = some (totalAmount u + raised) ∧
      ∀ script, ScriptFits script → ∃ c, s'.getUtxosByScriptPublicKey script = some c ∧
        ∀ o v, c.lookup o = some v ↔
          ∃ e, u'.lookup o = some e ∧ e.scriptPublicKey = script ∧ v = compact e) ∧
      ∀ script script' o, ScriptFits script → ScriptFits script' →
        scriptPublicKeyBucket script <+: utxoEntryFullAccessKey script' o → script = script' := by
  constructor
  · obtain ⟨hmirrors, hsupply⟩ := resync_spec hlisting hu s tips
    obtain ⟨s', hrun, hfinal, hfits, htotal⟩ := hchanges.updateAll hu hmirrors hsupply
    exact ⟨s', hrun, htotal, fun script hscript =>
      getUtxosByScriptPublicKey_spec hfits hfinal hscript⟩
  · exact fun script script' o h h' hlead => bucket_prefix h h' hlead

section Samples

variable (daaScore : ℕ)

def sampleOutpoint : TransactionOutpoint := ⟨Bytes.fill 32 7, 0⟩
def sampleScript : ScriptPublicKey := ⟨0, [0x51]⟩
def sampleEntry : UtxoEntry := ⟨1000, sampleScript, daaScore, false⟩
def sampleSet : UtxoCollection :=
  (∅ : UtxoCollection).insert sampleOutpoint (sampleEntry daaScore)
def emptyStore : Store := ⟨∅, none, none⟩

theorem lookup_sampleSet (o : TransactionOutpoint) : (sampleSet daaScore).lookup o =
      if o = sampleOutpoint then some (sampleEntry daaScore) else none := by
  rw [sampleSet, lookup_insert_ite, lookup_empty]

theorem fitting_sampleSet : Fitting (sampleSet daaScore) := by
  intro o e he
  rw [lookup_sampleSet] at he
  split_ifs at he with ho
  rw [ho, ← some.inj he]
  exact ⟨⟨by norm_num [sampleEntry, sampleScript], by norm_num [sampleEntry, sampleScript]⟩,
    by decide⟩

theorem emptied_from :
    (⟨∅, sampleSet 5⟩ : UtxoDiff).From (sampleSet 5).lookup (∅ : UtxoCollection).lookup := by
  constructor
  · intro o
    rw [lookup_empty, ite_self]
  · intro o
    change (sampleSet 5).lookup o = _
    rw [lookup_empty]
    split_ifs with h
    · exact h
    · rfl

def paidOutpoint : TransactionOutpoint := ⟨Bytes.fill 32 8, 0⟩
def paidEntry : UtxoEntry := ⟨500, ⟨0, [0x51, 0x51]⟩, 5, false⟩
def newOutpoint : TransactionOutpoint := ⟨Bytes.fill 32 9, 0⟩
def newEntry : UtxoEntry := ⟨2000, sampleScript, 6, false⟩

theorem lookup_insert_sampleSet (o o' : TransactionOutpoint) (e : UtxoEntry) :
    ((sampleSet 5).insert o' e).lookup o =
      if o = o' then some e else if o = sampleOutpoint then some (sampleEntry 5) else none := by
  rw [lookup_insert_ite, lookup_sampleSet]

theorem fitting_insert_sampleSet {o : TransactionOutpoint} {e : UtxoEntry}
    (h : Fits e.scriptPublicKey o) : Fitting ((sampleSet 5).insert o e) := by
  intro o' e' he
  rw [lookup_insert_ite] at he
  split_ifs at he with ho
  · rw [ho, ← some.inj he]
    exact h
  · exact fitting_sampleSet 5 o' e' he

/-- Of the entries of two scripts one is spent, and the other script gets a second one. -/
theorem sample_mirrored : ∃ s',
    (emptyStore.resync [(sampleOutpoint, sampleEntry 5), (paidOutpoint, paidEntry)] ∅).updateAll
        [(⟨(∅ : UtxoCollection).insert newOutpoint newEntry,
          (∅ : UtxoCollection).insert paidOutpoint paidEntry⟩, ∅)] = .ok s' ∧
      s'.circulatingSupply = some 3000 ∧
      ∃ c, s'.getUtxosByScriptPublicKey sampleScript = some c ∧
        c.lookup sampleOutpoint = some ⟨1000, 5, false⟩ ∧
        c.lookup newOutpoint = some ⟨2000, 6, false⟩ := by
  have hdistinct : (paidOutpoint ≠ sampleOutpoint ∧ sampleOutpoint ≠ paidOutpoint) ∧
      (newOutpoint ≠ paidOutpoint ∧ paidOutpoint ≠ newOutpoint) ∧
      newOutpoint ≠ sampleOutpoint ∧ sampleOutpoint ≠ newOutpoint := by decide
  have hlisting : Lists [(sampleOutpoint, sampleEntry 5), (paidOutpoint, paidEntry)]
      ((sampleSet 5).insert paidOutpoint paidEntry) := by
    refine ⟨by decide, fun o e => ?_⟩
    rw [lookup_insert_sampleSet]
    by_cases hpaid : o = paidOutpoint
    · simp [hpaid, hdistinct, @eq_comm _ e]
    · by_cases ho : o = sampleOutpoint <;> simp [hpaid, ho, hdistinct, @eq_comm _ e]
  have hfrom : (⟨(∅ : UtxoCollection).insert newOutpoint newEntry,
      (∅ : UtxoCollection).insert paidOutpoint paidEntry⟩ : UtxoDiff).From
        ((sampleSet 5).insert paidOutpoint paidEntry).lookup
        ((sampleSet 5).insert newOutpoint newEntry).lookup := by
    constructor
    all_goals
      intro o
      simp only [lookup_insert_ite, lookup_empty]
      by_cases hpaid : o = paidOutpoint
      · simp [hpaid, hdistinct, lookup_sampleSet]
      · by_cases hnew : o = newOutpoint <;> simp [hpaid, hnew, hdistinct, lookup_sampleSet]
  have hkeeps : Keeps ((sampleSet 5).insert paidOutpoint paidEntry)
      ((sampleSet 5).insert newOutpoint newEntry) := by
    intro o e e' he he'
    rw [lookup_insert_sampleSet] at he he'
    by_cases hpaid : o = paidOutpoint
    · simp [hpaid, hdistinct] at he'
    · by_cases hnew : o = newOutpoint
      · simp [hnew, hdistinct] at he
      · rw [if_neg hpaid] at he
        rw [if_neg hnew] at he'
        exact some.inj (he.symm.trans he')
  have hraised : totalAmount ((sampleSet 5).insert newOutpoint newEntry) -
      totalAmount ((sampleSet 5).insert paidOutpoint paidEntry) + 0 = 1500 := by decide +kernel
  have hchanges := @VirtualChanges.cons _ _ _ _ ∅ _ _ hfrom hkeeps
    (fitting_insert_sampleSet ⟨⟨by decide, by decide⟩, by decide⟩) (.nil _)
  rw [hraised] at hchanges
  obtain ⟨⟨s', hrun, hsupply, hquery⟩, -⟩ := @index_mirrors_virtual emptyStore _ _ _ ∅ _ _ hlisting
    (fitting_insert_sampleSet ⟨⟨by decide, by decide⟩, by decide⟩) hchanges
  obtain ⟨c, hc, hentries⟩ := hquery sampleScript ⟨by decide, by decide⟩
  have htotal : totalAmount ((sampleSet 5).insert paidOutpoint paidEntry) + 1500 = 3000 := by
    decide +kernel
  rw [htotal] at hsupply
  refine ⟨s', hrun, hsupply, c, hc, (hentries _ _).mpr ⟨sampleEntry 5, ?_, rfl, rfl⟩,
    (hentries _ _).mpr ⟨newEntry, ?_, rfl, rfl⟩⟩
  · rw [lookup_insert_sampleSet, if_neg hdistinct.2.2.2, if_pos rfl]
  · rw [lookup_insert_sampleSet, if_pos rfl]

/-- A reorg moves the entry to another score. The difference removes and adds its outpoint,
the index skips both, and a query still returns the old score. A second reorg takes the
entry away, and the supply stays. -/
theorem moved_entry_stale :
    (⟨sampleSet 6, sampleSet 5⟩ : UtxoDiff).From (sampleSet 5).lookup (sampleSet 6).lookup ∧
      (⟨∅, sampleSet 5⟩ : UtxoDiff).From (sampleSet 5).lookup (∅ : UtxoCollection).lookup ∧
      (((emptyStore.resync [(sampleOutpoint, sampleEntry 5)] ∅).update ⟨sampleSet 6, sampleSet 5⟩
        ∅).toOption.bind fun s => (s.getUtxosByScriptPublicKey sampleScript).bind
          fun c => c.lookup sampleOutpoint) = some ⟨1000, 5, false⟩ ∧
      (((emptyStore.resync [(sampleOutpoint, sampleEntry 5)] ∅).update ⟨∅, sampleSet 5⟩
        ∅).toOption.bind fun s => s.circulatingSupply) = some 1000 := by
  refine ⟨?_, emptied_from, by decide +kernel, by decide +kernel⟩
  constructor <;> intro o <;> simp only [lookup_sampleSet] <;> split_ifs <;> simp_all [sampleEntry]

end Samples

end CryptixAtomic.UtxoIndex
