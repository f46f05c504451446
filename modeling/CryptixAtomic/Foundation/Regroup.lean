import Mathlib.Data.Nat.Bitwise
import Mathlib.Tactic

/-!
# Regrouping bits

A list of `a`-bit digits is turned into one of `b`-bit digits by a loop that shifts each
digit into a buffer and writes to the next cell of a preallocated vector as long as the
buffer holds `b` bits. The loop is described by the bits it has seen: those of the cells
written, followed by those in the buffer. A write outside the vector is a failure.
-/
namespace Foundation

open List

/-- The lowest `w` bits of a number, highest first. -/
def toBits : ℕ → ℕ → List Bool
  | 0, _ => []
  | w + 1, x => x.testBit w :: toBits w x

theorem length_toBits (w x : ℕ) : (toBits w x).length = w := by
  induction w with
  | zero => rfl
  | succ w ih => simp [toBits, ih]

theorem toBits_congr {w x y : ℕ} (h : ∀ i < w, x.testBit i = y.testBit i) :
    toBits w x = toBits w y := by
  induction w with
  | zero => rfl
  | succ w ih =>
    rw [toBits, toBits, h w (Nat.lt_succ_self w), ih fun i hi => h i (by omega)]

theorem testBit_eq_of_toBits {w x y : ℕ} (h : toBits w x = toBits w y) :
    ∀ i < w, x.testBit i = y.testBit i := by
  induction w with
  | zero => simp
  | succ w ih =>
    obtain ⟨hw, hrest⟩ := List.cons.inj h
    intro i hi
    rcases Nat.lt_succ_iff_lt_or_eq.mp hi with hi | rfl
    · exact ih hrest i hi
    · exact hw

theorem toBits_inj {w x y : ℕ} (hx : x < 2 ^ w) (hy : y < 2 ^ w)
    (h : toBits w x = toBits w y) : x = y := by
  apply Nat.eq_of_testBit_eq
  intro i
  by_cases hi : i < w
  · exact testBit_eq_of_toBits h i hi
  · have hle : 2 ^ w ≤ 2 ^ i := Nat.pow_le_pow_right (by omega) (by omega)
    rw [Nat.testBit_lt_two_pow (by omega), Nat.testBit_lt_two_pow (by omega)]

variable (w : ℕ)

theorem toBits_add {v x y : ℕ} (hy : y < 2 ^ v) :
    toBits (w + v) (2 ^ v * x + y) = toBits w x ++ toBits v y := by
  induction w with
  | zero =>
    rw [Nat.zero_add]
    apply toBits_congr
    intro i hi
    rw [Nat.testBit_two_pow_mul_add x hy, if_pos hi]
  | succ w ih =>
    rw [Nat.add_right_comm, toBits, toBits, ih, Nat.testBit_two_pow_mul_add x hy,
      if_neg (by omega), Nat.add_sub_cancel]
    rfl

variable (digits : List UInt8)

def digitBits : List Bool := digits.flatMap fun c => toBits w c.toNat

theorem length_digitBits : (digitBits w digits).length = digits.length * w := by
  induction digits with
  | nil => simp [digitBits]
  | cons c digits ih =>
    rw [digitBits, flatMap_cons, length_append, length_toBits, ← digitBits, ih,
      length_cons, Nat.add_mul, Nat.one_mul, Nat.add_comm]

theorem digitBits_append (a b : List UInt8) :
    digitBits w (a ++ b) = digitBits w a ++ digitBits w b := by
  simp [digitBits]

def Digits : Prop := ∀ c ∈ digits, c.toNat < 2 ^ w

variable (bytes : List UInt8)

/-- Unsigned value of a big-endian byte string. -/
def fromBeBytes : ℕ := bytes.foldl (fun n c => 2 ^ 8 * n + c.toNat) 0

theorem toBits_fromBeBytes : toBits (bytes.length * 8) (fromBeBytes bytes) = digitBits 8 bytes := by
  induction bytes using reverseRecOn with
  | nil => rfl
  | append_singleton bytes c ih =>
    have hvalue : fromBeBytes (bytes ++ [c]) = 2 ^ 8 * fromBeBytes bytes + c.toNat := by
      simp [fromBeBytes]
    rw [hvalue, length_append, Nat.add_mul, length_singleton, Nat.one_mul,
      toBits_add _ c.toNat_lt, ih, digitBits_append]
    simp [digitBits]

theorem fromBeBytes_lt : fromBeBytes bytes < 2 ^ (bytes.length * 8) := by
  induction bytes using reverseRecOn with
  | nil => simp [fromBeBytes]
  | append_singleton bytes c =>
    have hvalue : fromBeBytes (bytes ++ [c]) = 2 ^ 8 * fromBeBytes bytes + c.toNat := by
      simp [fromBeBytes]
    have hc := c.toNat_lt
    rw [hvalue, length_append, Nat.add_mul, pow_add, length_singleton, Nat.one_mul]
    omega

structure Regrouping where
  cells : List UInt8
  currentIdx : ℕ
  buff : ℕ
  bits : ℕ

namespace Regrouping

def put (r : Regrouping) (value : ℕ) : Option Regrouping :=
  if r.currentIdx < r.cells.length then
    some { r with
      cells := r.cells.set r.currentIdx (UInt8.ofNat value)
      currentIdx := r.currentIdx + 1 }
  else none

/-- Write cells while the buffer holds `b` bits. -/
def drain (b : ℕ) : ℕ → Regrouping → Option Regrouping
  | 0, r => some r
  | fuel + 1, r =>
    if b ≤ r.bits then do
      let bits := r.bits - b
      let r ← r.put (r.buff >>> bits)
      drain b fuel { r with buff := r.buff % 2 ^ bits, bits }
    else some r

/-- Shift a digit into a buffer of `w` bits. -/
def feed (w a b : ℕ) (r : Regrouping) (c : UInt8) : Option Regrouping := drain b (r.bits + a)
    { r with buff := (r.buff <<< a) % 2 ^ w ||| c.toNat, bits := r.bits + a }

/-- What the cells and the buffer hold. -/
structure Holds (b : ℕ) (r : Regrouping) (seen : List Bool) : Prop where
  buffered : r.buff < 2 ^ r.bits
  inside : r.currentIdx ≤ r.cells.length
  digits : Digits b (r.cells.take r.currentIdx)
  content : digitBits b (r.cells.take r.currentIdx) ++ toBits r.bits r.buff = seen

variable {a b w : ℕ} {r : Regrouping} {seen : List Bool}

theorem Holds.length (h : r.Holds b seen) : r.currentIdx * b + r.bits = seen.length := by
  have hlength := congrArg List.length h.content
  rw [length_append, length_digitBits, length_toBits, length_take_of_le h.inside] at hlength
  exact hlength

theorem Holds.put (hb : b ≤ 8) (h : r.Holds b seen) (hbits : b ≤ r.bits)
    (hroom : r.currentIdx < r.cells.length) :
    ∃ r', r.put (r.buff >>> (r.bits - b)) = some r' ∧ r'.cells.length = r.cells.length ∧
      r'.currentIdx = r.currentIdx + 1 ∧ r'.buff = r.buff ∧ r'.bits = r.bits ∧
      ({ r' with buff := r.buff % 2 ^ (r.bits - b), bits := r.bits - b } : Regrouping).Holds b
        seen := by
  have hdigit : r.buff / 2 ^ (r.bits - b) < 2 ^ b := by
    apply Nat.div_lt_of_lt_mul
    rw [← pow_add, Nat.sub_add_cancel hbits]
    exact h.buffered
  have hbyte : (UInt8.ofNat (r.buff >>> (r.bits - b))).toNat = r.buff / 2 ^ (r.bits - b) := by
    have hle : 2 ^ b ≤ 2 ^ 8 := Nat.pow_le_pow_right (by omega) hb
    rw [Nat.shiftRight_eq_div_pow, UInt8.toNat_ofNat']
    exact Nat.mod_eq_of_lt (by omega)
  refine ⟨_, if_pos hroom, by simp, rfl, rfl, rfl, ?_⟩
  have htake : (r.cells.set r.currentIdx (UInt8.ofNat (r.buff >>> (r.bits - b)))).take
      (r.currentIdx + 1) =
        r.cells.take r.currentIdx ++ [UInt8.ofNat (r.buff >>> (r.bits - b))] := by
    rw [take_succ_eq_append_getElem (by simpa using hroom), take_set_of_le le_rfl, getElem_set_self]
  constructor
  · exact Nat.mod_lt _ (by positivity)
  · simpa using hroom
  · intro c hc
    rw [htake] at hc
    rcases mem_append.mp hc with hc | hc
    · exact h.digits c hc
    · rw [mem_singleton.mp hc, hbyte]
      exact hdigit
  · have hsplit := @toBits_add b (r.bits - b) (r.buff / 2 ^ (r.bits - b))
      (r.buff % 2 ^ (r.bits - b)) (Nat.mod_lt _ (by positivity))
    rw [Nat.div_add_mod, Nat.add_sub_cancel' hbits] at hsplit
    have hcontent := h.content
    rw [hsplit] at hcontent
    rw [← hcontent]
    simp only [htake, digitBits_append, append_assoc]
    simp [digitBits, hbyte]

theorem Holds.drain (hb : 0 < b) (hb8 : b ≤ 8) (fuel : ℕ) (h : r.Holds b seen)
    (hfuel : r.bits ≤ fuel) (hroom : seen.length / b ≤ r.cells.length) :
    ∃ r', drain b fuel r = some r' ∧ r'.Holds b seen ∧ r'.bits < b ∧
      r'.cells.length = r.cells.length := by
  induction fuel generalizing r with
  | zero => exact ⟨r, rfl, h, by omega, rfl⟩
  | succ fuel ih =>
    by_cases hbits : b ≤ r.bits
    · have hlt : r.currentIdx < r.cells.length := by
        have hle : (r.currentIdx + 1) * b ≤ seen.length := by
          rw [← h.length, Nat.add_mul, Nat.one_mul]
          omega
        exact lt_of_lt_of_le ((Nat.le_div_iff_mul_le hb).mpr hle) hroom
      obtain ⟨m, hput, hlength, -, hbuff, -, hm⟩ := h.put hb8 hbits hlt
      obtain ⟨r', hrun, hholds, hsmall, hcells⟩ := ih hm (by simp only; omega)
        (by simpa only [hlength] using hroom)
      refine ⟨r', ?_, hholds, hsmall, hcells.trans hlength⟩
      simp only [Regrouping.drain, if_pos hbits, hput, Option.bind_eq_bind, Option.bind_some, hbuff]
      exact hrun
    · refine ⟨r, ?_, h, by omega, rfl⟩
      rw [Regrouping.drain, if_neg hbits]

theorem Holds.feed (hb : 0 < b) (hb8 : b ≤ 8) (hw : a + b ≤ w + 1) (h : r.Holds b seen)
    (hsmall : r.bits < b) {c : UInt8} (hc : c.toNat < 2 ^ a)
    (hroom : (seen.length + a) / b ≤ r.cells.length) :
    ∃ r', r.feed w a b c = some r' ∧ r'.Holds b (seen ++ toBits a c.toNat) ∧ r'.bits < b ∧
      r'.cells.length = r.cells.length := by
  have hfits : r.buff <<< a < 2 ^ w := by
    have hlt : r.buff * 2 ^ a < 2 ^ r.bits * 2 ^ a :=
      Nat.mul_lt_mul_of_pos_right h.buffered (by positivity)
    rw [← pow_add] at hlt
    have hle : 2 ^ (r.bits + a) ≤ 2 ^ w := Nat.pow_le_pow_right (by omega) (by omega)
    rw [Nat.shiftLeft_eq]
    omega
  have hbuff : (r.buff <<< a) % 2 ^ w ||| c.toNat = 2 ^ a * r.buff + c.toNat := by
    rw [Nat.mod_eq_of_lt hfits, Nat.shiftLeft_eq, Nat.mul_comm, Nat.two_pow_add_eq_or_of_lt hc]
  have hshifted : ({ r with
      buff := (r.buff <<< a) % 2 ^ w ||| c.toNat
      bits := r.bits + a } : Regrouping).Holds b (seen ++ toBits a c.toNat) := by
    constructor
    · simp only [hbuff]
      rw [pow_add, Nat.mul_comm (2 ^ r.bits)]
      have hstep : 2 ^ a * (r.buff + 1) ≤ 2 ^ a * 2 ^ r.bits := Nat.mul_le_mul_left _ h.buffered
      rw [Nat.mul_add, Nat.mul_one] at hstep
      omega
    · exact h.inside
    · exact h.digits
    · simp only [hbuff]
      rw [toBits_add r.bits hc, ← append_assoc, h.content]
  apply hshifted.drain hb hb8 _ le_rfl
  rw [length_append, length_toBits]
  exact hroom

end Regrouping

/-- The loop over all digits, on a vector of `size` cells. -/
def regroup (w a b size : ℕ) (digits : List UInt8) : Option Regrouping :=
  digits.foldlM (Regrouping.feed w a b) ⟨List.replicate size 0, 0, 0, 0⟩

section Regroup

variable {w a b size : ℕ}

theorem foldlM_feed (hb : 0 < b) (hb8 : b ≤ 8) (hw : a + b ≤ w + 1) {digits : List UInt8}
    (hdigits : Digits a digits) {r : Regrouping} {seen : List Bool} (h : r.Holds b seen)
    (hsmall : r.bits < b) (hroom : (seen.length + digits.length * a) / b ≤ r.cells.length) :
    ∃ r', digits.foldlM (Regrouping.feed w a b) r = some r' ∧
      r'.Holds b (seen ++ digitBits a digits) ∧ r'.bits < b ∧
      r'.cells.length = r.cells.length := by
  induction digits generalizing r seen with
  | nil => exact ⟨r, rfl, by simpa [digitBits] using h, hsmall, rfl⟩
  | cons c digits ih =>
    have htotal : seen.length + (c :: digits).length * a =
        (seen.length + a) + digits.length * a := by
      rw [length_cons, Nat.add_mul]
      omega
    rw [htotal] at hroom
    have hfirst : (seen.length + a) / b ≤ r.cells.length :=
      (Nat.div_le_div_right (Nat.le_add_right _ _)).trans hroom
    obtain ⟨m, hfeed, hm, hmsmall, hmcells⟩ :=
      h.feed hb hb8 hw hsmall (hdigits c mem_cons_self) hfirst
    obtain ⟨r', hrun, hr', hrsmall, hrcells⟩ :=
      ih (fun x hx => hdigits x (mem_cons_of_mem c hx)) hm hmsmall
        (by rwa [length_append, length_toBits, hmcells])
    refine ⟨r', ?_, ?_, hrsmall, hrcells.trans hmcells⟩
    · rw [foldlM_cons, hfeed]
      exact hrun
    · rw [append_assoc] at hr'
      exact hr'

theorem regroup_spec (hb : 0 < b) (hb8 : b ≤ 8) (hw : a + b ≤ w + 1) {digits : List UInt8}
    (hdigits : Digits a digits) (hsize : digits.length * a / b ≤ size) :
    ∃ r, regroup w a b size digits = some r ∧ r.Holds b (digitBits a digits) ∧ r.bits < b ∧
      r.cells.length = size ∧ r.currentIdx = digits.length * a / b := by
  have hstart : (⟨List.replicate size 0, 0, 0, 0⟩ : Regrouping).Holds b [] :=
    ⟨by simp, Nat.zero_le _, by simp [Digits], rfl⟩
  obtain ⟨r, hrun, hr, hsmall, hcells⟩ :=
    foldlM_feed hb hb8 hw hdigits hstart hb (by simpa using hsize)
  refine ⟨r, hrun, hr, hsmall, by simpa using hcells, ?_⟩
  have hlength := hr.length
  rw [nil_append, length_digitBits] at hlength
  rw [← hlength, Nat.mul_comm, Nat.mul_add_div hb, Nat.div_eq_of_lt hsmall, Nat.add_zero]

end Regroup

end Foundation
