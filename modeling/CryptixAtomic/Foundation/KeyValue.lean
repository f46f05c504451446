import CryptixAtomic.Foundation.FiniteMap

/-!
# A key-value database with write batches

Keys and values are byte strings. A batch is a list of writes that take effect in
order when the batch is committed; until then reads do not see them. A column is a
typed part of the database: its keys carry the tag of the column, and its values go
through a codec that gives back what was put in.
-/
namespace Foundation

/-- Serialization of the values of a type. -/
structure Codec (V : Type) where
  encode : V → List UInt8
  decode : List UInt8 → Option V
  decode_encode : ∀ v, decode (encode v) = some v

noncomputable def Codec.ofCountable (V : Type) [Countable V] : Codec V where
  encode v := List.replicate ((exists_injective_nat V).choose v) 0
  decode bytes := by
    classical
    exact if h : ∃ v, (exists_injective_nat V).choose v = bytes.length then some h.choose else none
  decode_encode := by
    intro v
    have hinj := (exists_injective_nat V).choose_spec
    have h : ∃ w, (exists_injective_nat V).choose w =
        (List.replicate ((exists_injective_nat V).choose v) (0 : UInt8)).length := ⟨v, by simp⟩
    rw [dif_pos h]
    exact congrArg some (hinj (h.choose_spec.trans List.length_replicate))

inductive BatchOp
  | put (key value : List UInt8)
  | delete (key : List UInt8)

abbrev Database := FMap (List UInt8) (List UInt8)

namespace Database

def apply (db : Database) : BatchOp → Database
  | .put key value => db.assign key (some value)
  | .delete key => db.assign key none

def write (db : Database) (batch : List BatchOp) : Database := batch.foldl apply db

end Database

/-- A part of the database under a tag of its own. Keys that fit their encoding are
told apart by it. -/
structure Column (K V : Type) where
  tag : List UInt8
  fits : K → Prop
  encodeKey : K → List UInt8
  encodeKey_injOn : ∀ j k, fits j → fits k → encodeKey j = encodeKey k → j = k
  codec : Codec V

namespace Column

variable {K V L W : Type} (column : Column K V)

def dbKey (k : K) : List UInt8 := column.tag ++ column.encodeKey k

/-- A value that cannot be decoded is an error, not an absent value. -/
def read (db : Database) (k : K) : Except String (Option V) :=
  match db.lookup (column.dbKey k) with
  | none => .ok none
  | some bytes => match column.codec.decode bytes with
    | some v => .ok (some v)
    | none => .error "deserialization error"

def writeOp (k : K) : Option V → BatchOp
  | some v => .put (column.dbKey k) (column.codec.encode v)
  | none => .delete (column.dbKey k)

theorem lookup_apply_writeOp (db : Database) (k : K) (v : Option V) (key : List UInt8) :
    (db.apply (column.writeOp k v)).lookup key =
      if key = column.dbKey k then v.map column.codec.encode else db.lookup key := by
  cases v with
  | none => exact FMap.lookup_assign db _ _ none
  | some => exact FMap.lookup_assign db _ _ _

theorem read_writeOp [DecidableEq K] (db : Database) {k j : K} (hk : column.fits k)
    (hj : column.fits j) (v : Option V) : column.read (db.apply (column.writeOp k v)) j =
      if j = k then .ok v else column.read db j := by
  unfold read
  rw [lookup_apply_writeOp]
  by_cases heq : j = k
  · rw [if_pos (congrArg column.dbKey heq), if_pos heq]
    cases v with
    | none => rfl
    | some => simp [column.codec.decode_encode]
  · have hkey : column.dbKey j ≠ column.dbKey k := by
      intro h
      exact heq (column.encodeKey_injOn j k hj hk (List.append_cancel_left h))
    rw [if_neg hkey, if_neg heq]

def apart (other : Column L W) : Bool :=
  column.tag.length == other.tag.length && column.tag != other.tag

theorem read_writeOp_of_apart {other : Column L W} (h : column.apart other = true)
    (db : Database) (k : L) (j : K) (v : Option W) :
    column.read (db.apply (other.writeOp k v)) j = column.read db j := by
  obtain ⟨hlength, htag⟩ : column.tag.length = other.tag.length ∧ column.tag ≠ other.tag := by
    simpa [apart] using h
  have hkey : column.dbKey j ≠ other.dbKey k := by
    intro heq
    exact htag (List.append_inj_left heq hlength)
  unfold read
  rw [lookup_apply_writeOp, if_neg hkey]

/-- Reads of the column return what a map holds. -/
def Holds (db : Database) (m : K → Option V) : Prop :=
  ∀ k, column.fits k → column.read db k = .ok (m k)

section Holds

variable {column} {db : Database} {m : K → Option V}

theorem Holds.write [DecidableEq K] (h : column.Holds db m) {k : K} (hk : column.fits k)
    (v : Option V) :
    column.Holds (db.apply (column.writeOp k v)) (Function.update m k v) := by
  intro j hj
  rw [column.read_writeOp db hk hj, Function.update_apply]
  split_ifs
  · rfl
  · exact h j hj

theorem Holds.frame (h : column.Holds db m) {other : Column L W} {k : L} {v : Option W}
    (hapart : column.apart other = true) : column.Holds (db.apply (other.writeOp k v)) m := by
  intro j hj
  rw [column.read_writeOp_of_apart hapart]
  exact h j hj

end Holds

end Column
end Foundation
