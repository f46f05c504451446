import CryptixAtomic.Foundation.Checked
import Mathlib.Data.List.ModifyLast

/-!
# Script numbers

A number on the script stack is a little-endian magnitude whose top bit is the sign. The
encoder appends a byte when that bit is taken, and the decoder refuses every longer form.
-/
namespace CryptixAtomic.Script

open Foundation List

/-- The error of a script, or an overflow of `i64`. -/
inductive TxScriptError
  | notMinimalData (text : String)
  | overflow

variable (v : List UInt8)

def hexDebug : String :=
  "[" ++ ", ".intercalate (v.map fun b => .ofList (Nat.toDigits 16 b.toNat)) ++ "]"

def checkMinimalDataEncoding : Except TxScriptError Unit :=
  match v.getLast? with
  | none => .ok ()
  | some msb =>
    -- the second byte from the top, if any, may need the top one for the sign
    if msb &&& 0x7f = 0 ∧ v.dropLast.getLast?.all (· &&& 0x80 = 0) then
      .error (.notMinimalData s!"numeric value encoded as {hexDebug v} is not minimally encoded")
    else .ok ()

def i64 (n : ℤ) : Except TxScriptError ℤ :=
  if -2 ^ 63 ≤ n ∧ n < 2 ^ 63 then .ok n else .error .overflow

/-- One step of the fold over the bytes below the top one. -/
def appendByte (accum : ℤ) (item : UInt8) : Except TxScriptError ℤ := do
  let shifted ← i64 (accum * 256)
  i64 (shifted + item.toNat)

def deserializeI64 : Except TxScriptError ℤ :=
  if v.length > 8 then
    .error (.notMinimalData s!"numeric value encoded as {hexDebug v} is longer than 8 bytes")
  else
    match v.getLast? with
    | none => .ok 0
    | some msb => do
      checkMinimalDataEncoding v
      let sign ← i64 ((1 : ℤ) - (2 : ℤ) * (msb >>> 7).toNat)
      let firstByte : ℤ := (msb &&& 0x7f).toNat
      let magnitude ← v.dropLast.reverse.foldlM appendByte firstByte
      i64 (magnitude * sign)

/-- The bytes of a magnitude. After a byte with its top bit set one more byte follows. -/
def magnitudeBytes (positive : ℕ) (lastSaturated : Bool) : List UInt8 :=
  if positive = 0 then if lastSaturated then [0] else []
  else .ofNat positive :: magnitudeBytes (positive / 256) (128 ≤ positive % 256)
termination_by positive
decreasing_by omega

def serialize (n : ℤ) : List UInt8 :=
  let numberVec := magnitudeBytes n.natAbs false
  if n.sign = -1 then numberVec.modifyLast (· ||| 0x80) else numberVec

/-- The magnitude of a byte string below a top byte. -/
def value (body : List UInt8) (top : ℕ) : ℕ := body.foldr (fun b m => b.toNat + 256 * m) top

def number (neg : Bool) (m : ℕ) : ℤ := if neg then -m else m

def topByte (neg : Bool) (top : ℕ) : UInt8 := .ofNat (top + if neg then 128 else 0)

/-- Without the top byte the value would change: it is positive itself, or the byte below it
has its top bit set. -/
def Needed (saturated : Bool) (body : List UInt8) (top : ℕ) : Prop :=
  0 < top ∨ (body.getLast?.map fun b => decide (128 ≤ b.toNat)).getD saturated

variable {body : List UInt8} {top m : ℕ} {sat neg : Bool}

variable (b : UInt8)

theorem bits : (b &&& 0x7f = 0 ↔ b.toNat % 128 = 0) ∧
    (b &&& 0x7f).toNat = b.toNat % 128 ∧ (b >>> 7).toNat = b.toNat / 128 ∧
    (b &&& 0x80 = 0 ↔ ¬128 ≤ b.toNat) ∧ b ||| 0x80 = topByte true (b.toNat % 128) := by
  obtain ⟨n, rfl⟩ : ∃ n : Fin 256, b = .ofNat n := ⟨⟨b.toNat, b.toNat_lt⟩, by simp⟩
  revert n
  decide +kernel

theorem toNat_topByte (neg : Bool) (htop : top < 128) : (topByte neg top).toNat % 128 = top ∧
    (topByte neg top).toNat / 128 = if neg then 1 else 0 := by
  rw [topByte, UInt8.toNat_ofNat']
  split_ifs <;> omega

theorem exists_topByte : ∃ neg top, top < 128 ∧ topByte neg top = b := by
  refine ⟨128 ≤ b.toNat, b.toNat % 128, Nat.mod_lt _ (by decide), ?_⟩
  have := b.toNat_lt
  rw [topByte, ← UInt8.toNat_inj, UInt8.toNat_ofNat']
  split_ifs with h <;> rw [decide_eq_true_eq] at h <;> omega

theorem needed_cons : Needed sat (b :: body) top ↔ Needed (128 ≤ b.toNat) body top := by
  cases hlast : body.getLast? <;> simp [Needed, getLast?_cons, hlast]

theorem value_cons : value (b :: body) top = b.toNat + 256 * value body top := rfl

theorem Needed.value_pos (h : Needed sat body top) : sat = true ∨ 0 < value body top := by
  induction body generalizing sat with
  | nil => exact h.symm
  | cons b body ih =>
    have hb := ih ((needed_cons b).mp h)
    rw [decide_eq_true_eq] at hb
    rw [value_cons]
    omega

theorem value_lt (htop : top < 128) (hlen : body.length < 8) : value body top < 2 ^ 63 := by
  have hpow : 256 ^ body.length ≤ 256 ^ 7 :=
    Nat.pow_le_pow_right (by decide) (Nat.le_of_lt_succ hlen)
  suffices value body top < 128 * 256 ^ body.length by omega
  clear hlen hpow
  induction body with
  | nil => simpa [value] using htop
  | cons b body ih =>
    have := b.toNat_lt
    rw [value_cons, length_cons, pow_succ]
    omega

theorem magnitudeBytes_value (htop : top < 128) (h : Needed sat body top) :
    magnitudeBytes (value body top) sat = body ++ [topByte false top] := by
  induction body generalizing sat with
  | nil =>
    unfold magnitudeBytes
    rcases Nat.eq_zero_or_pos top with rfl | hpos
    · simpa [value, Needed, topByte] using h
    · have hsmall : ¬128 ≤ top % 256 := by omega
      have hzero : top / 256 = 0 := by omega
      simp [value, hpos.ne', hsmall, hzero, magnitudeBytes, topByte]
  | cons b body ih =>
    have hb := (needed_cons b).mp h
    have hpos := hb.value_pos
    have := b.toNat_lt
    rw [decide_eq_true_eq] at hpos
    have hbyte : UInt8.ofNat (value (b :: body) top) = b := by
      rw [← UInt8.toNat_inj, UInt8.toNat_ofNat', value_cons]
      omega
    rw [magnitudeBytes, if_neg (by rw [value_cons]; omega), hbyte, value_cons,
      show (b.toNat + 256 * value body top) / 256 = value body top by omega,
      show (b.toNat + 256 * value body top) % 256 = b.toNat by omega, ih hb, cons_append]

theorem exists_value (k : ℕ) (hm : m < 128 * 256 ^ k) (h : 0 < m ∨ sat = true) :
    ∃ body top, body.length ≤ k ∧ top < 128 ∧ Needed sat body top ∧ value body top = m := by
  induction k generalizing m sat with
  | zero => exact ⟨[], m, le_rfl, by simpa using hm, h, rfl⟩
  | succ k ih =>
    rcases Nat.lt_or_ge m 128 with hsmall | hlarge
    · exact ⟨[], m, Nat.zero_le _, hsmall, h, rfl⟩
    · have hnext : 0 < m / 256 ∨ decide (128 ≤ m % 256) = true := by
        rw [decide_eq_true_eq]
        omega
      obtain ⟨body, top, hlen, htop, hneeded, hvalue⟩ := ih (m := m / 256) (by omega) hnext
      have hbyte : (UInt8.ofNat m).toNat = m % 256 := UInt8.toNat_ofNat'
      refine ⟨.ofNat m :: body, top, Nat.succ_le_succ hlen, htop,
        (needed_cons _).mpr (hbyte ▸ hneeded), ?_⟩
      rw [value_cons, hbyte, hvalue]
      omega

theorem i64_eq_ok {n : ℤ} (h : n.natAbs < 2 ^ 63) : i64 n = .ok n := by
  unfold i64
  exact if_pos (by omega)

theorem natAbs_number : (number neg m).natAbs = m := by
  unfold number
  split_ifs <;> simp

theorem foldlM_eq_value (h : value body top < 2 ^ 63) :
    body.reverse.foldlM appendByte (top : ℤ) = .ok (value body top : ℤ) := by
  rw [foldlM_reverse]
  induction body with
  | nil => rfl
  | cons b body ih =>
    rw [value_cons] at h ⊢
    have hshift := i64_eq_ok (n := value body top * 256) (by omega)
    have hadd := i64_eq_ok (n := value body top * 256 + b.toNat) (by omega)
    have hsum : (value body top * 256 + b.toNat : ℤ) = (b.toNat + 256 * value body top : ℕ) := by
      push_cast
      ring
    rw [foldrM_cons, except_bind_eq_ok]
    refine ⟨_, ih (by omega), ?_⟩
    rw [appendByte, except_bind_eq_ok]
    exact ⟨_, hshift, hadd.trans (congrArg _ hsum)⟩

theorem checkMinimalDataEncoding_concat (neg : Bool) (body : List UInt8) (htop : top < 128) :
    (Needed false body top ∧ checkMinimalDataEncoding (body ++ [topByte neg top]) = .ok ()) ∨
      ¬ Needed false body top ∧ ∃ text,
        checkMinimalDataEncoding (body ++ [topByte neg top]) = .error (.notMinimalData text) := by
  have hzero := (bits (topByte neg top)).1
  rw [(toNat_topByte neg htop).1] at hzero
  unfold checkMinimalDataEncoding Needed
  rw [getLast?_concat, dropLast_concat]
  cases body.getLast? with
  | none =>
    simp only
    split_ifs <;> simp_all [Nat.pos_iff_ne_zero]
  | some b =>
    have hbit := (bits b).2.2.2.1
    simp only
    split_ifs <;> simp_all [Nat.pos_iff_ne_zero, imp_iff_not_or]

theorem deserializeI64_concat (neg : Bool) (htop : top < 128) (hlen : body.length < 8) :
    (Needed false body top ∧
        deserializeI64 (body ++ [topByte neg top]) = .ok (number neg (value body top))) ∨
      ¬ Needed false body top ∧ ∃ text,
        deserializeI64 (body ++ [topByte neg top]) = .error (.notMinimalData text) := by
  obtain ⟨-, hseven, hsign, -⟩ := bits (topByte neg top)
  obtain ⟨hlow, hhigh⟩ := toNat_topByte neg htop
  have hlong : ¬(body ++ [topByte neg top]).length > 8 := by simpa using hlen
  have hsmall := value_lt htop hlen
  rw [deserializeI64, if_neg hlong, getLast?_concat, dropLast_concat]
  rcases checkMinimalDataEncoding_concat neg body htop with
    ⟨hneeded, hcheck⟩ | ⟨hneeded, text, hcheck⟩
  · have hone := i64_eq_ok (n := 1 - 2 * (if neg then 1 else 0 : ℕ)) (by split_ifs <;> decide)
    have hnumber : (value body top : ℤ) * (1 - 2 * (if neg then 1 else 0 : ℕ)) =
        number neg (value body top) := by cases neg <;> simp [number]
    have hlast := i64_eq_ok (natAbs_number.trans_lt hsmall : (number neg _).natAbs < 2 ^ 63)
    refine .inl ⟨hneeded, ?_⟩
    simp only [except_bind_eq_ok, hcheck, hseven, hsign, hlow, hhigh, foldlM_eq_value hsmall, hone,
      Except.ok.injEq, exists_eq_left', hnumber, hlast, and_self, exists_const]
  · exact .inr ⟨hneeded, text, by simp only [hcheck]; rfl⟩

theorem serialize_number (htop : top < 128) (h : Needed false body top) :
    serialize (number neg (value body top)) = body ++ [topByte neg top] := by
  have hpos : 0 < value body top := by simpa using h.value_pos
  rw [serialize, natAbs_number, magnitudeBytes_value htop h]
  cases neg with
  | false => simp [number, Int.sign_eq_one_of_pos (Int.natCast_pos.mpr hpos)]
  | true =>
    have hbyte := (bits (topByte false top)).2.2.2.2
    rw [(toNat_topByte false htop).1] at hbyte
    simp [number, Int.sign_eq_one_of_pos (Int.natCast_pos.mpr hpos), modifyLast_concat, hbyte]

theorem serialize_zero : serialize 0 = [] := by simp [serialize, magnitudeBytes]

theorem deserializeI64_serialize {n : ℤ} (hn : n.natAbs < 2 ^ 63) :
    deserializeI64 (serialize n) = .ok n := by
  rcases eq_or_ne n 0 with rfl | hzero
  · rw [serialize_zero]
    rfl
  · obtain ⟨body, top, hlen, htop, hneeded, hvalue⟩ :=
      exists_value 7 hn (.inl (Int.natAbs_pos.mpr hzero))
    obtain ⟨neg, rfl⟩ : ∃ neg, number neg (value body top) = n := by
      rcases Int.natAbs_eq n with h | h
      · exact ⟨false, by rw [h, hvalue]; rfl⟩
      · exact ⟨true, by rw [h, hvalue]; rfl⟩
    rw [serialize_number htop hneeded]
    rcases deserializeI64_concat neg htop (Nat.lt_succ_of_le hlen) with ⟨-, hread⟩ | ⟨hnot, -⟩
    · exact hread
    · exact absurd hneeded hnot

theorem deserializeI64_sound : deserializeI64 v ≠ .error .overflow ∧
    ∀ n, deserializeI64 v = .ok n → n.natAbs < 2 ^ 63 ∧ serialize n = v := by
  by_cases hlong : v.length > 8
  · simp [deserializeI64, hlong]
  rcases v.eq_nil_or_concat with rfl | ⟨body, msb, rfl⟩
  · simp [deserializeI64, serialize_zero]
  · obtain ⟨neg, top, htop, rfl⟩ := exists_topByte msb
    rw [concat_eq_append] at *
    have hlen : body.length < 8 := by simpa using hlong
    rcases deserializeI64_concat neg htop hlen with ⟨hneeded, hread⟩ | ⟨-, text, hread⟩
    · rw [hread]
      refine ⟨by simp, ?_⟩
      rintro _ ⟨rfl⟩
      exact ⟨natAbs_number.trans_lt (value_lt htop hlen), serialize_number htop hneeded⟩
    · simp [hread]

/-- Of every byte string: no step of the decoder overflows, and it accepts the string exactly
when it is the encoding of a number below `2 ^ 63` in magnitude. There is at most one such
number, and it is the one returned. Every such number is read from exactly one string. -/
theorem script_number_encodings (v : List UInt8) :
    deserializeI64 v ≠ .error .overflow ∧
      (∀ n, deserializeI64 v = .ok n ↔ n.natAbs < 2 ^ 63 ∧ serialize n = v) ∧
      {n : ℤ | n.natAbs < 2 ^ 63 ∧ serialize n = v}.Subsingleton ∧
      ∀ n, n.natAbs < 2 ^ 63 → ∃! w, deserializeI64 w = .ok n := by
  have hiff : ∀ w n, deserializeI64 w = .ok n ↔ n.natAbs < 2 ^ 63 ∧ serialize n = w := fun w n =>
    ⟨(deserializeI64_sound w).2 n, fun ⟨hn, hw⟩ => hw ▸ deserializeI64_serialize hn⟩
  refine ⟨(deserializeI64_sound v).1, hiff v, ?_, ?_⟩
  · intro n hn k hk
    exact Except.ok.inj (((hiff v n).mpr hn).symm.trans ((hiff v k).mpr hk))
  · intro n hn
    exact ⟨serialize n, (hiff _ n).mpr ⟨hn, rfl⟩, fun w hw => ((hiff w n).mp hw).2.symm⟩

end CryptixAtomic.Script
