import CryptixAtomic.Foundation.Overlay

/-!
# A table with a unique secondary index

Rows of a table may occupy a slot, and an index names the row in each slot. A write frees the
slot of the old row and claims that of the new one; the index stays exact as long as no write
claims a slot of another row. The difference of two exact tables can be replayed row by row in
both directions precisely when no slot passes from one row to another.
-/
namespace Foundation

open List

@[ext] structure Indexed (K A O : Type) where
  table : K → Option A
  index : O → Option K

namespace Indexed

variable {K A O : Type} [DecidableEq K] [DecidableEq O] (slot : A → Option O)

variable (c : Indexed K A O)

omit [DecidableEq K] [DecidableEq O] in
def slotOf (k : K) : Option O := (c.table k).bind slot

/-- Replace a row: free the old slot, then claim the new one. -/
def write (k : K) (v : Option A) : Indexed K A O where
  table := Function.update c.table k v
  index o := if v.bind slot = some o then some k
    else if c.slotOf slot k = some o then none else c.index o

/-- The index names exactly the rows that occupy slots. -/
def Coherent : Prop := ∀ o k, c.index o = some k ↔ c.slotOf slot k = some o

/-- The slot of a new row is occupied by no other row. -/
def Exclusive (k : K) (v : Option A) : Prop :=
  ∀ o, v.bind slot = some o → ∀ j, j ≠ k → c.slotOf slot j ≠ some o

section Write

variable {slot} {c : Indexed K A O}

theorem slotOf_write (k j : K) (v : Option A) :
    (c.write slot k v).slotOf slot j = if j = k then v.bind slot else c.slotOf slot j := by
  unfold slotOf write
  split_ifs with hj
  · rw [hj]
    simp
  · simp [Function.update_of_ne hj]

omit [DecidableEq K] [DecidableEq O] in
theorem Coherent.unique (h : c.Coherent slot) {o : O} {j k : K} (hj : c.slotOf slot j = some o)
    (hk : c.slotOf slot k = some o) : j = k := by
  have hij := (h o j).mpr hj
  have hik := (h o k).mpr hk
  exact Option.some.inj (hij.symm.trans hik)

theorem Coherent.write (h : c.Coherent slot) {k : K} {v : Option A}
    (hexcl : c.Exclusive slot k v) : (c.write slot k v).Coherent slot := by
  intro o j
  rw [slotOf_write]
  simp only [Indexed.write]
  by_cases hnew : v.bind slot = some o
  · rw [if_pos hnew]
    by_cases hj : j = k
    · simp [hj, hnew]
    · simp [hj, Ne.symm hj, hexcl o hnew j hj]
  · rw [if_neg hnew]
    by_cases hold : c.slotOf slot k = some o
    · rw [if_pos hold]
      by_cases hj : j = k
      · simp [hj, hnew]
      · have hother : c.slotOf slot j ≠ some o := fun hs => hj (h.unique hs hold)
        simp [hj, hother]
    · rw [if_neg hold, h o j]
      by_cases hj : j = k
      · simp [hj, hnew, hold]
      · simp [hj]

omit [DecidableEq K] [DecidableEq O] in
theorem Coherent.ext {d : Indexed K A O} (hc : c.Coherent slot) (hd : d.Coherent slot)
    (htable : c.table = d.table) : c = d := by
  apply Indexed.ext htable
  funext o
  apply Option.ext
  intro k
  rw [hc o k, hd o k, slotOf, slotOf, htable]

end Write

def writeAll (rows : List (K × Option A)) : Indexed K A O :=
  rows.foldl (fun c row => c.write slot row.1 row.2) c

/-- Every row finds its slot unoccupied when its turn comes. -/
def ExclusiveAll : Indexed K A O → List (K × Option A) → Prop
  | _, [] => True
  | c, row :: rows => c.Exclusive slot row.1 row.2 ∧ ExclusiveAll (c.write slot row.1 row.2) rows

section Replay

variable {slot}

theorem table_writeAll (rows : List (K × Option A)) :
    (c.writeAll slot rows).table = updateAll c.table rows := by
  induction rows generalizing c with
  | nil => rfl
  | cons row rows ih => exact ih _

variable {rows : List (K × Option A)} {S T : Indexed K A O}

theorem Coherent.writeAll {c : Indexed K A O}
    (h : c.Coherent slot) (hexcl : ExclusiveAll slot c rows) :
    (c.writeAll slot rows).Coherent slot := by
  induction rows generalizing c with
  | nil => exact h
  | cons row rows ih => exact ih (h.write hexcl.1) hexcl.2

variable (slot) in
omit [DecidableEq K] [DecidableEq O] in
/-- No slot passes from one row to another. -/
def NoHandover (S T : Indexed K A O) : Prop :=
  ∀ o a b, S.slotOf slot a = some o → T.slotOf slot b = some o → a = b

omit [DecidableEq K] [DecidableEq O] in
theorem NoHandover.symm (h : NoHandover slot S T) : NoHandover slot T S :=
  fun o a b ha hb => (h o b a hb ha).symm

/-- Between `S` and `T` every row has one of its two values, so its slot can only
clash with a row that hands it over. -/
theorem exclusiveAll_of_noHandover (hT : T.Coherent slot) (hno : NoHandover slot S T)
    (hvalue : ∀ row ∈ rows, row.2 = T.table row.1) (c : Indexed K A O)
    (hmixed : ∀ k, c.table k = S.table k ∨ c.table k = T.table k) : ExclusiveAll slot c rows := by
  induction rows generalizing c with
  | nil => trivial
  | cons row rows ih =>
    have hrow : row.2 = T.table row.1 := hvalue row mem_cons_self
    constructor
    · intro o ho j hj hslot
      have hclaim : T.slotOf slot row.1 = some o := by rw [slotOf, ← hrow, ho]
      rcases hmixed j with hS | hT'
      · exact hj (hno o j row.1 (by rw [slotOf, ← hS]; exact hslot) hclaim)
      · exact hj (hT.unique (by rw [slotOf, ← hT']; exact hslot) hclaim)
    · apply ih (fun r hr => hvalue r (mem_cons_of_mem _ hr))
      intro k
      by_cases hk : k = row.1
      · right
        simp [write, hk, hrow]
      · simpa [write, Function.update_of_ne hk] using hmixed k

theorem exclusiveAll_of_replays (hT : T.Coherent slot)
    (hno : NoHandover slot S T) (h : Replays S.table T.table rows) :
    ExclusiveAll slot S rows :=
  exclusiveAll_of_noHandover hT hno h.value S fun _ => Or.inl rfl

theorem writeAll_eq_of_replays (hS : S.Coherent slot) (hT : T.Coherent slot)
    (hno : NoHandover slot S T) (h : Replays S.table T.table rows) :
    S.writeAll slot rows = T :=
  (hS.writeAll (exclusiveAll_of_replays hT hno h)).ext hT (by rw [table_writeAll, h.updateAll_eq])

theorem index_writeAll_none {o : O} (hfree : c.index o = none)
    (hclaim : ∀ row ∈ rows, row.2.bind slot ≠ some o) : (c.writeAll slot rows).index o = none := by
  induction rows generalizing c with
  | nil => exact hfree
  | cons row rows ih =>
    apply ih
    · have hrow := hclaim row mem_cons_self
      simp only [write, if_neg hrow]
      split_ifs
      · rfl
      · exact hfree
    · exact fun r hr => hclaim r (mem_cons_of_mem _ hr)

/-- A slot that passes from row `a` to an earlier row is lost when `a` is written. -/
theorem index_lost (hT : T.Coherent slot)
    {before after : List (K × Option A)} {a b : K} {v : Option A} {o : O}
    (h : Replays S.table T.table (before ++ (a, v) :: after)) (hab : a ≠ b)
    (ha : S.slotOf slot a = some o) (hb : T.slotOf slot b = some o)
    (hearlier : ∀ row ∈ after, row.1 ≠ b) :
    (S.writeAll slot (before ++ (a, v) :: after)).index o = none := by
  obtain ⟨-, -, hcross⟩ := pairwise_append.mp h.nodup
  have hclaim : ∀ row ∈ before ++ (a, v) :: after, row.1 ≠ b → row.2.bind slot ≠ some o := by
    intro row hrow hne hs
    have hrow' : T.slotOf slot row.1 = some o := by rw [slotOf, ← h.value row hrow, hs]
    exact hne (hT.unique hrow' hb)
  have hbefore : (S.writeAll slot before).slotOf slot a = some o := by
    rw [slotOf, table_writeAll,
      updateAll_of_notMem _ fun row hrow => hcross row hrow (a, v) mem_cons_self]
    exact ha
  rw [writeAll, foldl_append, foldl_cons]
  apply index_writeAll_none
  · have hv : v.bind slot ≠ some o := hclaim (a, v) (by simp) hab
    simp only [write, if_neg hv]
    exact if_pos hbefore
  · intro row hrow
    exact hclaim row (by simp [hrow]) (hearlier row hrow)

end Replay

section Sorted

variable {K A O : Type} [LinearOrder K] [DecidableEq K] [DecidableEq O] {slot : A → Option O}

theorem ne_of_handover {S T : Indexed K A O} (hT : T.Coherent slot)
    {rows : List (K × Option A)} (h : Replays S.table T.table rows)
    (hsorted : rows.Pairwise fun a b => a.1 < b.1) {a b : K} {o : O} (hba : b < a)
    (ha : S.slotOf slot a = some o) (hb : T.slotOf slot b = some o) :
    S.writeAll slot rows ≠ T := by
  intro heq
  have hchanged : ∃ row ∈ rows, row.1 = a := by
    by_contra hnone
    push Not at hnone
    have hsame : T.slotOf slot a = some o := by rw [slotOf, ← h.rest a hnone]; exact ha
    exact hba.ne (hT.unique hb hsame)
  obtain ⟨⟨k, v⟩, hrow, rfl⟩ := hchanged
  obtain ⟨before, after, rfl⟩ := append_of_mem hrow
  obtain ⟨-, hafter, -⟩ := pairwise_append.mp hsorted
  have hearlier : ∀ row ∈ after, row.1 ≠ b := fun row hr =>
    (hba.trans ((pairwise_cons.mp hafter).1 row hr)).ne'
  have hlost := index_lost hT h hba.ne' ha hb hearlier
  rw [heq] at hlost
  have hfound := (hT o b).mpr hb
  rw [hlost] at hfound
  cases hfound

/-- Replaying the difference of two exact tables in key order works forwards and
backwards exactly when no slot passes from one row to another. -/
theorem replay_iff {S T : Indexed K A O} (hS : S.Coherent slot) (hT : T.Coherent slot)
    {forward back : List (K × Option A)} (hf : Replays S.table T.table forward)
    (hb : Replays T.table S.table back)
    (hfs : forward.Pairwise fun a b => a.1 < b.1) (hbs : back.Pairwise fun a b => a.1 < b.1) :
    S.writeAll slot forward = T ∧ T.writeAll slot back = S ↔ NoHandover slot S T := by
  constructor
  · rintro ⟨hforward, hback⟩ o a b ha hb'
    rcases lt_trichotomy a b with hab | hab | hab
    · exact absurd hback (ne_of_handover hS hb hbs hab hb' ha)
    · exact hab
    · exact absurd hforward (ne_of_handover hT hf hfs hab ha hb')
  · intro hno
    exact ⟨writeAll_eq_of_replays hS hT hno hf, writeAll_eq_of_replays hT hS hno.symm hb⟩

end Sorted

end Indexed
end Foundation
