import Mathlib.Tactic

/-!
# Byte strings

Fixed-length byte strings carry their length. They are ordered
lexicographically, as slices are, and form a group under bytewise exclusive or;
in that group every element is its own inverse.
-/

/-- The numeric order of octets, as a linear order. -/
instance instLinearOrderUInt8 : LinearOrder UInt8 where
  le_refl := UInt8.le_refl
  le_trans _ _ _ := UInt8.le_trans
  le_antisymm _ _ := UInt8.le_antisymm
  le_total := UInt8.le_total
  lt_iff_le_not_ge a b := by
    simp only [UInt8.lt_iff_toNat_lt, UInt8.le_iff_toNat_le]
    omega
  toDecidableLE := inferInstance
  toDecidableEq := inferInstance
  toDecidableLT := inferInstance

namespace Foundation

/-- Byte strings of a fixed length. -/
abbrev Bytes (n : ℕ) := {l : List UInt8 // l.length = n}

namespace Bytes

/-- The string repeating one byte. -/
def fill (n : ℕ) (b : UInt8) : Bytes n := ⟨List.replicate n b, List.length_replicate⟩

def zeros (n : ℕ) : Bytes n := fill n 0

def xor {n : ℕ} (a b : Bytes n) : Bytes n :=
  ⟨List.zipWith (· ^^^ ·) a.val b.val, by simp [a.property, b.property]⟩

def get {n : ℕ} (a : Bytes n) (i : Fin n) : UInt8 := a.val.get (i.cast a.property.symm)

variable {n : ℕ}

theorem ext_get {a b : Bytes n} (h : ∀ i, a.get i = b.get i) : a = b := by
  apply Subtype.ext
  apply List.ext_getElem (a.property.trans b.property.symm)
  intro i ha _
  exact h ⟨i, a.property ▸ ha⟩

@[simp] theorem get_xor (a b : Bytes n) (i : Fin n) :
    (xor a b).get i = a.get i ^^^ b.get i := by
  simp only [get, xor, List.get_eq_getElem, List.getElem_zipWith]
  rfl

@[simp] theorem get_zeros (i : Fin n) : (zeros n).get i = 0 := by
  simp [get, zeros, fill]

instance (n : ℕ) : Add (Bytes n) := ⟨xor⟩
instance (n : ℕ) : Zero (Bytes n) := ⟨zeros n⟩
instance (n : ℕ) : Neg (Bytes n) := ⟨id⟩

theorem xor_eq_add (a b : Bytes n) : xor a b = a + b := rfl

@[simp] theorem get_add (a b : Bytes n) (i : Fin n) :
    (a + b).get i = a.get i ^^^ b.get i := get_xor a b i

@[simp] theorem get_zero (i : Fin n) : (0 : Bytes n).get i = 0 := get_zeros i

theorem add_self (a : Bytes n) : a + a = 0 := ext_get fun i => by simp

/-- Exclusive or as addition: every string is its own negative. -/
instance (n : ℕ) : AddCommGroup (Bytes n) where
  add_assoc a b c := ext_get fun i => by simp [UInt8.xor_assoc]
  zero_add a := ext_get fun i => by simp
  add_zero a := ext_get fun i => by simp
  neg_add_cancel := add_self
  add_comm a b := ext_get fun i => by simp [UInt8.xor_comm]
  nsmul := nsmulRec
  zsmul := zsmulRec

end Bytes

def hexString (bytes : List UInt8) : String :=
  let digit (d : UInt8) : Char := "0123456789abcdef".toList.getD d.toNat '0'
  String.ofList (bytes.flatMap fun b : UInt8 => [digit (b / 16), digit (b % 16)])

/-- The `n` low bytes of a number, least significant first. -/
def toLeBytes : ℕ → ℕ → List UInt8
  | 0, _ => []
  | n + 1, v => UInt8.ofNat v :: toLeBytes n (v / 256)

theorem toLeBytes_inj {n v w : ℕ} (hv : v < 256 ^ n) (hw : w < 256 ^ n)
    (h : toLeBytes n v = toLeBytes n w) : v = w := by
  induction n generalizing v w with
  | zero => simp at hv hw; omega
  | succ n ih =>
    simp only [toLeBytes, List.cons.injEq] at h
    rw [pow_succ] at hv hw
    have hhigh := ih (by omega) (by omega) h.2
    have hlow : v % 256 = w % 256 := by
      have hbyte := congrArg UInt8.toNat h.1
      simpa using hbyte
    omega

theorem length_toLeBytes (n v : ℕ) : (toLeBytes n v).length = n := by
  induction n generalizing v with
  | zero => rfl
  | succ n ih => simp [toLeBytes, ih]

/-- A continuation byte `10xxxxxx`. -/
def isContinuation (b : UInt8) : Bool := 0x80 ≤ b && b ≤ 0xBF

/-- Well-formed UTF-8: no overlong forms, no surrogates, nothing above U+10FFFF. -/
def isUtf8 : List UInt8 → Bool
  | [] => true
  | a :: rest =>
    if a < 0x80 then isUtf8 rest
    else match rest with
      | [] => false
      | b :: rest =>
        if 0xC2 ≤ a && a ≤ 0xDF then isContinuation b && isUtf8 rest
        else match rest with
          | [] => false
          | c :: rest =>
            if 0xE0 ≤ a && a ≤ 0xEF then
              isContinuation b && (a != 0xE0 || 0xA0 ≤ b) && (a != 0xED || b ≤ 0x9F) &&
                isContinuation c && isUtf8 rest
            else match rest with
              | [] => false
              | d :: rest =>
                (0xF0 ≤ a && a ≤ 0xF4) && isContinuation b && (a != 0xF0 || 0x90 ≤ b) &&
                  (a != 0xF4 || b ≤ 0x8F) && isContinuation c && isContinuation d && isUtf8 rest

end Foundation
