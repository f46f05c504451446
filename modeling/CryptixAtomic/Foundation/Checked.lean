import Mathlib.Tactic

/-!
# Checked arithmetic and fallible straight-line code

Unsigned machine integers are natural numbers; the operations that can leave the word say so
in their result. A fallible function is a sequence of checks in `Except`. The lemmas tagged
here turn "the sequence succeeded" into the facts its checks established, one conjunct per
line of the function.
-/
namespace Foundation

open List

section Words

/-- Largest value of an unsigned word of `w` bits. -/
def maxWord (w : ℕ) : ℕ := 2 ^ w - 1

def checkedAdd (w a b : ℕ) : Option ℕ := if a + b < 2 ^ w then some (a + b) else none
def checkedMul (w a b : ℕ) : Option ℕ := if a * b < 2 ^ w then some (a * b) else none
def checkedSub (a b : ℕ) : Option ℕ := if b ≤ a then some (a - b) else none
def checkedDiv (a b : ℕ) : Option ℕ := if b = 0 then none else some (a / b)

def tryNarrow (w a : ℕ) : Option ℕ := if a < 2 ^ w then some a else none

/-- Addition that stops at the largest value of the word. -/
def saturatingAdd (w a b : ℕ) : ℕ := min (a + b) (maxWord w)

@[simp] theorem checkedAdd_eq_some {w a b c : ℕ} :
    checkedAdd w a b = some c ↔ a + b < 2 ^ w ∧ a + b = c := by
  simp [checkedAdd]

@[simp] theorem checkedMul_eq_some {w a b c : ℕ} :
    checkedMul w a b = some c ↔ a * b < 2 ^ w ∧ a * b = c := by
  simp [checkedMul]

@[simp] theorem checkedSub_eq_some {a b c : ℕ} : checkedSub a b = some c ↔ b ≤ a ∧ a - b = c := by
  simp [checkedSub]

@[simp] theorem checkedDiv_eq_some {a b c : ℕ} : checkedDiv a b = some c ↔ b ≠ 0 ∧ a / b = c := by
  simp [checkedDiv]

@[simp] theorem tryNarrow_eq_some {w a b : ℕ} : tryNarrow w a = some b ↔ a < 2 ^ w ∧ a = b := by
  simp [tryNarrow]

def ceilDiv (n d : ℕ) : ℕ := if n % d = 0 then n / d else n / d + 1

theorem ceilDiv_le_iff {n d : ℕ} (hd : 0 < d) (m : ℕ) : ceilDiv n d ≤ m ↔ n ≤ m * d := by
  have hn := Nat.div_add_mod n d
  unfold ceilDiv
  split_ifs with hr
  · rw [hr, add_zero] at hn
    constructor
    · intro h
      calc n = d * (n / d) := hn.symm
        _ ≤ d * m := Nat.mul_le_mul_left d h
        _ = m * d := mul_comm d m
    · intro h
      exact Nat.div_le_of_le_mul (by rwa [mul_comm d m])
  · -- a remainder is left, so the floor has to stay strictly below `m`
    rw [Nat.succ_le_iff, Nat.div_lt_iff_lt_mul hd]
    constructor
    · exact le_of_lt
    · intro h
      refine lt_of_le_of_ne h fun he => hr ?_
      rw [he]
      exact Nat.mul_mod_left m d

theorem le_ceilDiv_mul (n : ℕ) {d : ℕ} (hd : 0 < d) : n ≤ ceilDiv n d * d :=
  (ceilDiv_le_iff hd _).mp le_rfl

end Words

section Fallible

variable {ε α β : Type}

/-- Turn an absent value into an error. -/
def okOr (o : Option α) (e : ε) : Except ε α :=
  match o with
  | some a => .ok a
  | none => .error e

/-- The early return of a failed check. -/
def failIf (c : Prop) [Decidable c] (e : ε) : Except ε Unit := if c then .error e else .ok ()

@[simp] theorem okOr_eq_ok {o : Option α} {e : ε} {a : α} : okOr o e = .ok a ↔ o = some a := by
  cases o <;> simp [okOr]

@[simp] theorem failIf_eq_ok {c : Prop} [Decidable c] {e : ε} {u : Unit} :
    failIf c e = .ok u ↔ ¬c := by
  by_cases h : c <;> simp [failIf, h]

/-- A sequence succeeds exactly when both parts do. -/
@[simp] theorem except_bind_eq_ok {x : Except ε α} {f : α → Except ε β} {b : β} :
    (x >>= f) = .ok b ↔ ∃ a, x = .ok a ∧ f a = .ok b := by
  cases x with
  | error | ok => simp [bind, Except.bind]

@[simp] theorem except_pure_eq_ok {a b : α} : (pure a : Except ε α) = .ok b ↔ a = b := by
  simp [pure, Except.pure]

/-- The computation succeeds with a value that passes a test. -/
def okAnd (test : α → Bool) : Except ε α → Bool
  | .ok a => test a
  | .error _ => false

theorem exists_of_okAnd (x : Except ε α) (test : α → Bool) (h : okAnd test x = true) :
    ∃ a, x = .ok a ∧ test a = true := by
  cases x with
  | ok a => exact ⟨a, rfl, h⟩
  | error => cases h

/-- Run a check on every element of a list, stopping at the first failure. -/
def checkAll (check : α → Except ε Unit) : List α → Except ε Unit
  | [] => .ok ()
  | a :: as => do
    check a
    checkAll check as

variable {as : List α} {bs : List β} {f : α → Option β} {ε' : Type}

@[simp] theorem checkAll_eq_ok {check : α → Except ε Unit} {u : Unit} :
    checkAll check as = .ok u ↔ ∀ a ∈ as, check a = .ok () := by
  induction as with
  | nil => simp [checkAll]
  | cons a as ih => simp [checkAll, ih, Unique.exists_iff, PUnit.default_eq_unit]

theorem mapM_eq_ok_iff {f : α → Except ε β} :
    as.mapM f = .ok bs ↔ Forall₂ (fun a b => f a = .ok b) as bs := by
  induction as generalizing bs with
  | nil =>
    rw [List.mapM_nil, except_pure_eq_ok, List.forall₂_nil_left_iff, eq_comm]
  | cons a as ih =>
    simp only [List.mapM_cons, except_bind_eq_ok, except_pure_eq_ok, List.forall₂_cons_left_iff, ih]
    constructor
    · rintro ⟨b, hb, rest, hrest, rfl⟩
      exact ⟨b, rest, hb, hrest, rfl⟩
    · rintro ⟨b, rest, hb, hrest, rfl⟩
      exact ⟨b, hb, rest, hrest, rfl⟩

theorem mapM_eq_some_iff : as.mapM f = some bs ↔ Forall₂ (fun a b => f a = some b) as bs := by
  induction as generalizing bs with
  | nil =>
    rw [List.mapM_nil, List.forall₂_nil_left_iff, Option.pure_def, Option.some_inj, eq_comm]
  | cons a as ih =>
    simp only [List.mapM_cons, Option.bind_eq_bind, Option.bind_eq_some_iff, Option.pure_def,
      Option.some_inj, List.forall₂_cons_left_iff, ih]
    constructor
    · rintro ⟨b, hb, rest, hrest, rfl⟩
      exact ⟨b, rest, hb, hrest, rfl⟩
    · rintro ⟨b, rest, hb, hrest, rfl⟩
      exact ⟨b, hb, rest, hrest, rfl⟩

theorem exists_mapM_eq_some (h : ∀ a ∈ as, ∃ b, f a = some b) : ∃ bs, as.mapM f = some bs := by
  induction as with
  | nil => exact ⟨[], rfl⟩
  | cons a as ih =>
    obtain ⟨b, hb⟩ := h a mem_cons_self
    obtain ⟨bs, hbs⟩ := ih fun x hx => h x (mem_cons_of_mem a hx)
    refine ⟨b :: bs, ?_⟩
    rw [List.mapM_cons, hb, hbs]
    rfl

theorem mem_of_mapM_eq_some
    (h : as.mapM f = some bs) {b : β} : b ∈ bs ↔ ∃ a ∈ as, f a = some b := by
  have hpairs := mapM_eq_some_iff.mp h
  clear h
  induction hpairs with
  | nil => simp
  | @cons a c as bs hac _ ih =>
    simp [ih, hac, eq_comm]

/-- Two computations succeed on the same inputs with the same value. -/
def SameOk {ε' : Type} (x : Except ε α) (y : Except ε' α) : Prop := ∀ a, x = .ok a ↔ y = .ok a

theorem SameOk.pure (a : α) :
    SameOk (Pure.pure a : Except ε α) (Pure.pure a : Except ε' α) := fun b => by simp

theorem SameOk.ite {c : Prop} [Decidable c] {x y : Except ε α} {x' y' : Except ε' α}
    (hx : SameOk x x') (hy : SameOk y y') :
    SameOk (if c then x else y) (if c then x' else y') := by
  split_ifs
  · exact hx
  · exact hy

@[simp] theorem mapError_eq_ok {f : ε → ε'} {r : Except ε α} {a : α} :
    r.mapError f = .ok a ↔ r = .ok a := by
  cases r <;> simp [Except.mapError]

theorem exists_ok_of_any {r : Except ε α} {test : α → Bool} (h : r.toOption.any test = true) :
    ∃ a, r = .ok a ∧ test a = true := by
  cases r with
  | error => cases h
  | ok a => exact ⟨a, rfl, h⟩

end Fallible
end Foundation
