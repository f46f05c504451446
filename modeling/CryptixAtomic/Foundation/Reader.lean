import CryptixAtomic.Foundation.Bytes

/-!
# Cursor readers over a fixed byte string

A reader moves a cursor over what it consumes of a byte string, and may reject. Two readers
`Agree` when from every string and cursor they reject together, or stop at the same cursor
with related results. The rules follow the shape of a reader, so that no proof unfolds a run.
`Refines` is the one-sided form for a reader that stops early.
-/
namespace Foundation

open List

/-- A reader receives the whole string and the current cursor. -/
def Reader (ε α : Type) := List UInt8 → ℕ → Except ε (α × ℕ)

namespace Reader

variable {ε ε' α β γ δ : Type}

instance : Monad (Reader ε) where
  pure a := fun _ cursor => .ok (a, cursor)
  bind p f := fun bytes cursor => (p bytes cursor).bind fun r => f r.1 bytes r.2

def fail (e : ε) : Reader ε α := fun _ _ => .error e

/-- The early return of a failed check. -/
def rejectIf (c : Prop) [Decidable c] (e : ε) : Reader ε Unit :=
  if c then fail e else pure ()

def check (r : Except ε α) : Reader ε α := fun _ cursor => r.map fun a => (a, cursor)

def atEnd : Reader ε Bool := fun bytes cursor => .ok (decide (cursor = bytes.length), cursor)

/-- The next `n` bytes, as a string known to have that length. -/
def exactly (n : ℕ) (e : ε) : Reader ε {l : List UInt8 // l.length = n} := fun bytes cursor =>
  if h : cursor + n ≤ bytes.length then
    .ok (⟨(bytes.drop cursor).take n, by simp; omega⟩, cursor + n)
  else .error e

def byte (e : ε) : Reader ε UInt8 := fun bytes cursor =>
  match bytes[cursor]? with
  | some b => .ok (b, cursor + 1)
  | none => .error e

/-- Unsigned value of a little-endian byte string. -/
def fromLeBytes : List UInt8 → ℕ
  | [] => 0
  | b :: bs => b.toNat + 256 * fromLeBytes bs

theorem fromLeBytes_lt (bs : List UInt8) : fromLeBytes bs < 256 ^ bs.length := by
  induction bs with
  | nil => simp [fromLeBytes]
  | cons b =>
    have hb := b.toNat_lt
    simp only [fromLeBytes, length_cons, pow_succ]
    omega

theorem fromLeBytes_toLeBytes (n v : ℕ) : fromLeBytes (toLeBytes n v) = v % 256 ^ n := by
  induction n generalizing v with
  | zero => simp [toLeBytes, fromLeBytes, Nat.mod_one]
  | succ n ih =>
    rw [toLeBytes, fromLeBytes, ih, UInt8.toNat_ofNat', pow_succ' 256 n, Nat.mod_mul]

theorem toLeBytes_fromLeBytes (bs : List UInt8) : toLeBytes bs.length (fromLeBytes bs) = bs := by
  induction bs with
  | nil => rfl
  | cons b bs ih =>
    have hb := b.toNat_lt
    have hlow : UInt8.ofNat (fromLeBytes (b :: bs)) = b := by
      apply UInt8.toNat_inj.mp
      rw [fromLeBytes, UInt8.toNat_ofNat']
      omega
    have hhigh : fromLeBytes (b :: bs) / 256 = fromLeBytes bs := by
      rw [fromLeBytes]
      omega
    rw [length_cons, toLeBytes, hlow, hhigh, ih]

def uintLe (n : ℕ) (e : ε) : Reader ε ℕ := do
  let bs ← exactly n e
  return fromLeBytes bs.val

/-- Run `p` a fixed number of times and collect the results in order. -/
def times (p : Reader ε α) : ℕ → Reader ε (List α)
  | 0 => pure []
  | n + 1 => do
    let a ← p
    let rest ← times p n
    return a :: rest

/-- Try `q` from the same cursor when `p` fails; if both fail, the error is that of `p`. -/
def fallback (p q : Reader ε α) : Reader ε α := fun bytes cursor =>
  match p bytes cursor with
  | .ok r => .ok r
  | .error e => match q bytes cursor with
    | .ok r => .ok r
    | .error _ => .error e

/-- Both readers reject, or both accept with related results and equal cursors. -/
def Agree (R : α → β → Prop) (p : Reader ε α) (q : Reader ε' β) : Prop := ∀ bytes cursor,
    (∃ e e', p bytes cursor = .error e ∧ q bytes cursor = .error e') ∨
    (∃ a b next, p bytes cursor = .ok (a, next) ∧ q bytes cursor = .ok (b, next) ∧ R a b)

def Rejects (p : Reader ε α) : Prop := ∀ bytes cursor, ∃ e, p bytes cursor = .error e

variable {p : Reader ε α} {f : α → Reader ε β} {bytes : List UInt8} {cursor : ℕ} {e : ε}
  {c : Prop} {Q : α → Prop}

theorem bind_of_ok {a : α} {next : ℕ} (h : p bytes cursor = .ok (a, next)) :
    (p >>= f) bytes cursor = f a bytes next := by
  change (p bytes cursor).bind _ = _
  rw [h]
  rfl

theorem bind_of_error (h : p bytes cursor = .error e) : (p >>= f) bytes cursor = .error e := by
  change (p bytes cursor).bind _ = _
  rw [h]
  rfl

theorem bind_eq_ok {out : β × ℕ} (h : (p >>= f) bytes cursor = .ok out) :
    ∃ a next, p bytes cursor = .ok (a, next) ∧ f a bytes next = .ok out := by
  cases hp : p bytes cursor with
  | error => rw [bind_of_error hp] at h; cases h
  | ok r => exact ⟨r.1, r.2, rfl, by rwa [bind_of_ok hp] at h⟩

theorem bind_eq_ok_iff {out : β × ℕ} : (p >>= f) bytes cursor = .ok out ↔
      ∃ a next, p bytes cursor = .ok (a, next) ∧ f a bytes next = .ok out := by
  refine ⟨bind_eq_ok, ?_⟩
  rintro ⟨a, next, hp, hf⟩
  rw [bind_of_ok hp, hf]

theorem byte_eq_ok {cursor next : ℕ} {b : UInt8} :
    byte e bytes cursor = .ok (b, next) ↔ bytes[cursor]? = some b ∧ next = cursor + 1 := by
  unfold byte
  cases bytes[cursor]? with
  | none => simp
  | some => simp [eq_comm]

theorem exactly_eq_ok {n : ℕ} {cursor next : ℕ} {l : {l : List UInt8 // l.length = n}} :
    exactly n e bytes cursor = .ok (l, next) ↔
      cursor + n ≤ bytes.length ∧ l.val <+: bytes.drop cursor ∧ next = cursor + n := by
  unfold exactly
  split_ifs with h
  · have htake : (bytes.drop cursor).take n = l.val ↔ l.val <+: bytes.drop cursor := by
      rw [prefix_iff_eq_take, l.property, eq_comm]
    simp only [Except.ok.injEq, Prod.mk.injEq, Subtype.ext_iff, htake]
    constructor
    · rintro ⟨hlead, rfl⟩
      exact ⟨h, hlead, rfl⟩
    · rintro ⟨-, hlead, rfl⟩
      exact ⟨hlead, rfl⟩
  · simp [h]

theorem Rejects.fail (e : ε) : Rejects (fail e : Reader ε α) := fun _ _ => ⟨e, rfl⟩

theorem Rejects.bind_left (hp : Rejects p) : Rejects (p >>= f) := by
  intro bytes cursor
  obtain ⟨e, he⟩ := hp bytes cursor
  exact ⟨e, bind_of_error he⟩

theorem Rejects.bind_right (hf : ∀ a, Rejects (f a)) : Rejects (p >>= f) := by
  intro bytes cursor
  cases hp : p bytes cursor with
  | error e => exact ⟨e, bind_of_error hp⟩
  | ok r =>
    obtain ⟨e, he⟩ := hf r.1 bytes r.2
    exact ⟨e, by rw [bind_of_ok hp]; exact he⟩

theorem Rejects.rejectIf [Decidable c] (h : c) : Rejects (rejectIf c e) := by
  simp only [Reader.rejectIf, if_pos h]
  exact Rejects.fail e

theorem rejectIf_bind_of_not [Decidable c] (h : ¬c) (f : Unit → Reader ε α) :
    (rejectIf c e >>= f) = f () := by
  simp only [rejectIf, if_neg h]
  rfl

theorem check_ok_bind (a : α) (f : α → Reader ε β) : (check (.ok a) >>= f) = f a := rfl

variable {q : Reader ε' β} {g : Unit → Reader ε' δ}

section Rules

variable {R : α → β → Prop} {S : γ → δ → Prop}
variable {p : Reader ε α}

theorem Agree.of_rejects (hp : Rejects p) (hq : Rejects q) : Agree R p q := by
  intro bytes cursor
  obtain ⟨e, he⟩ := hp bytes cursor
  obtain ⟨e', he'⟩ := hq bytes cursor
  exact .inl ⟨e, e', he, he'⟩

theorem Agree.fail (e : ε) (e' : ε') : Agree R (fail e) (fail e') :=
  .of_rejects (.fail e) (.fail e')

theorem Agree.pure {a : α} {b : β} (h : R a b) :
    Agree R (Pure.pure a : Reader ε α) (Pure.pure b : Reader ε' β) :=
  fun _ cursor => .inr ⟨a, b, cursor, rfl, rfl, h⟩

theorem Agree.bind {f : α → Reader ε γ} {g : β → Reader ε' δ}
    (h : Agree R p q) (hfg : ∀ a b, R a b → Agree S (f a) (g b)) :
    Agree S (p >>= f) (q >>= g) := by
  intro bytes cursor
  rcases h bytes cursor with ⟨e, e', hp, hq⟩ | ⟨a, b, next, hp, hq, hab⟩
  · exact .inl ⟨e, e', bind_of_error hp, bind_of_error hq⟩
  · rw [bind_of_ok hp, bind_of_ok hq]
    exact hfg a b hab bytes next

theorem Agree.bindEq {q : Reader ε' α} {f : α → Reader ε γ} {g : α → Reader ε' δ}
    (h : Agree Eq p q) (hfg : ∀ a, Agree S (f a) (g a)) : Agree S (p >>= f) (q >>= g) :=
  h.bind fun a _ hab => hab ▸ hfg a

theorem Agree.map_right {q : Reader ε' γ} {k : γ → β}
    (h : Agree (fun a c => R a (k c)) p q) : Agree R p (q >>= fun c => Pure.pure (k c)) := by
  intro bytes cursor
  rcases h bytes cursor with ⟨e, e', hp, hq⟩ | ⟨a, c, next, hp, hq, hac⟩
  · exact .inl ⟨e, e', hp, bind_of_error hq⟩
  · exact .inr ⟨a, k c, next, hp, bind_of_ok hq, hac⟩

/-- The same test on both sides; afterwards it is known to have failed. -/
theorem Agree.rejectIf_bind {c : Prop} [Decidable c] {e : ε} {e' : ε'} {f : Unit → Reader ε γ}
    (h : ¬c → Agree S (f ()) (g ())) :
    Agree S (Reader.rejectIf c e >>= f) (Reader.rejectIf c e' >>= g) := by
  by_cases hc : c
  · exact .of_rejects (.bind_left (.rejectIf hc)) (.bind_left (.rejectIf hc))
  · rw [rejectIf_bind_of_not hc, rejectIf_bind_of_not hc]
    exact h hc

end Rules

theorem Agree.exactly (n : ℕ) (e : ε) (e' : ε') : Agree Eq (exactly n e) (exactly n e') := by
  intro bytes cursor
  by_cases h : cursor + n ≤ bytes.length
  · exact .inr ⟨_, _, _, dif_pos h, dif_pos h, rfl⟩
  · exact .inl ⟨e, e', by simp [Reader.exactly, h], by simp [Reader.exactly, h]⟩

theorem Agree.byte (e : ε) (e' : ε') : Agree Eq (byte e) (byte e') := by
  intro bytes cursor
  cases h : bytes[cursor]? with
  | some b => exact .inr ⟨b, b, cursor + 1, by simp [Reader.byte, h], by simp [Reader.byte, h], rfl⟩
  | none => exact .inl ⟨e, e', by simp [Reader.byte, h], by simp [Reader.byte, h]⟩

theorem Agree.uintLe (n : ℕ) (e : ε) (e' : ε') : Agree Eq (uintLe n e) (uintLe n e') :=
  (Agree.exactly n e e').bindEq fun _ => .pure rfl

theorem Agree.atEnd : Agree Eq (atEnd : Reader ε Bool) (atEnd : Reader ε' Bool) :=
  fun _ cursor => .inr ⟨_, _, cursor, rfl, rfl, rfl⟩

theorem Agree.check {r : Except ε α} {r' : Except ε' α} (h : r.toOption = r'.toOption) :
    Agree Eq (check r) (check r') := by
  intro bytes cursor
  cases r with
  | error e =>
    cases r' with
    | error e' => exact .inl ⟨e, e', rfl, rfl⟩
    | ok => simp [Except.toOption] at h
  | ok a =>
    cases r' with
    | error => simp [Except.toOption] at h
    | ok b =>
      have hab : a = b := by simpa [Except.toOption] using h
      exact .inr ⟨a, b, cursor, rfl, rfl, hab⟩

theorem Agree.times {q : Reader ε' α} (h : Agree Eq p q) (n : ℕ) :
    Agree Eq (times p n) (times q n) := by
  induction n with
  | zero => exact .pure rfl
  | succ n ih => exact h.bindEq fun a => ih.bindEq fun rest => .pure rfl

/-- Every result a reader can return has the property. -/
def Yields (Q : α → Prop) (p : Reader ε α) : Prop :=
  ∀ bytes cursor a next, p bytes cursor = .ok (a, next) → Q a

/-- Whatever `p` accepts, `q` accepts with a related result, possibly elsewhere. -/
def Refines (R : α → β → Prop) (p : Reader ε α) (q : Reader ε' β) : Prop :=
  ∀ bytes cursor a next, p bytes cursor = .ok (a, next) →
    ∃ b next', q bytes cursor = .ok (b, next') ∧ R a b

theorem Yields.pure {a : α} (h : Q a) : Yields Q (Pure.pure a : Reader ε α) := by
  intro bytes cursor b next hb
  cases hb
  exact h

theorem Agree.yields {R : α → β → Prop}
    (h : Agree R p q) (hQ : ∀ a b, R a b → Q a) : Yields Q p := by
  intro bytes cursor a next ha
  rcases h bytes cursor with ⟨e, _, he, _⟩ | ⟨a', b, next', hp, _, hab⟩
  · rw [ha] at he; cases he
  · rw [ha] at hp
    cases hp
    exact hQ a b hab

theorem Yields.bind_right {Q : β → Prop} (hf : ∀ a, Yields Q (f a)) : Yields Q (p >>= f) := by
  intro bytes cursor b next hb
  obtain ⟨a, mid, _, hfa⟩ := bind_eq_ok hb
  exact hf a bytes mid b next hfa

theorem Yields.bind {P : α → Prop} {Q : β → Prop}
    (hp : Yields P p) (hf : ∀ a, P a → Yields Q (f a)) : Yields Q (p >>= f) := by
  intro bytes cursor b next hb
  obtain ⟨a, mid, ha, hfa⟩ := bind_eq_ok hb
  exact hf a (hp bytes cursor a mid ha) bytes mid b next hfa

theorem Yields.rejectIf [Decidable c] {f : Unit → Reader ε α}
    (h : ¬c → Yields Q (f ())) : Yields Q (Reader.rejectIf c e >>= f) := by
  by_cases hc : c
  · intro bytes cursor a next ha
    obtain ⟨e₀, he⟩ := Rejects.bind_left (f := f) (Rejects.rejectIf (e := e) hc) bytes cursor
    rw [ha] at he
    cases he
  · rw [rejectIf_bind_of_not hc]
    exact h hc

theorem Yields.check {Q : β → Prop} {r : Except ε α}
    (h : ∀ a, r = .ok a → Yields Q (f a)) : Yields Q (Reader.check r >>= f) := by
  cases hr : r with
  | error =>
    intro bytes cursor b next hb
    cases hb
  | ok a =>
    rw [check_ok_bind]
    exact h a hr

variable {p : Reader ε α}

theorem Yields.ite [Decidable c] {q : Reader ε α}
    (hp : c → Yields Q p) (hq : ¬c → Yields Q q) : Yields Q (if c then p else q) := by
  split_ifs with hc
  · exact hp hc
  · exact hq hc

theorem Yields.times (h : Yields Q p) (n : ℕ) :
    Yields (fun l => l.length = n ∧ ∀ a ∈ l, Q a) (times p n) := by
  induction n with
  | zero => exact .pure ⟨rfl, by simp⟩
  | succ n ih =>
    refine h.bind fun a ha => ?_
    refine ih.bind ?_
    rintro rest ⟨hlen, hrest⟩
    refine .pure ?_
    exact ⟨by rw [length_cons, hlen], forall_mem_cons.mpr ⟨ha, hrest⟩⟩

section RefinementRules

variable {R : α → β → Prop} {S : γ → δ → Prop}

theorem Refines.pure_right {b : β} (h : Yields (fun a => R a b) p) :
    Refines R p (Pure.pure b : Reader ε' β) := by
  intro bytes cursor a next ha
  exact ⟨b, cursor, rfl, h bytes cursor a next ha⟩

theorem Refines.bindEq {q : Reader ε' α} {f : α → Reader ε γ}
    {g : α → Reader ε' δ} (h : Agree Eq p q) (hfg : ∀ a, Refines S (f a) (g a)) :
    Refines S (p >>= f) (q >>= g) := by
  intro bytes cursor c next hc
  obtain ⟨a, mid, hp, hfa⟩ := bind_eq_ok hc
  rcases h bytes cursor with ⟨e, _, he, _⟩ | ⟨a', b', mid', hp', hq, rfl⟩
  · rw [hp] at he; cases he
  · rw [hp] at hp'
    cases hp'
    rw [bind_of_ok hq]
    exact hfg a bytes mid c next hfa

theorem Refines.rejectIf_left {c : Prop} [Decidable c] {e : ε} {f : Unit → Reader ε γ}
    {q : Reader ε' δ} (h : ¬c → Refines S (f ()) q) :
    Refines S (Reader.rejectIf c e >>= f) q := by
  intro bytes cursor a next ha
  by_cases hc : c
  · obtain ⟨e₀, he⟩ := Rejects.bind_left (f := f) (Rejects.rejectIf (e := e) hc) bytes cursor
    rw [ha] at he
    cases he
  · rw [rejectIf_bind_of_not hc] at ha
    exact h hc bytes cursor a next ha

theorem Refines.rejectIf_bind {c : Prop} [Decidable c] {e : ε} {e' : ε'} {f : Unit → Reader ε γ}
    (h : ¬c → Refines S (f ()) (g ())) :
    Refines S (Reader.rejectIf c e >>= f) (Reader.rejectIf c e' >>= g) := by
  refine .rejectIf_left fun hc => ?_
  rw [rejectIf_bind_of_not hc]
  exact h hc

/-- The second reader returns right away, the first goes on checking. -/
theorem Refines.bind_return {f : α → Reader ε γ} {g : β → Reader ε' δ} (h : Refines R p q)
    (hfg : ∀ a b, R a b → ∃ d, g b = Pure.pure d ∧ Yields (fun c => S c d) (f a)) :
    Refines S (p >>= f) (q >>= g) := by
  intro bytes cursor c next hc
  obtain ⟨a, mid, hp, hfa⟩ := bind_eq_ok hc
  obtain ⟨b, mid', hq, hab⟩ := h bytes cursor a mid hp
  obtain ⟨d, hg, hy⟩ := hfg a b hab
  refine ⟨d, mid', ?_, hy bytes mid c next hfa⟩
  rw [bind_of_ok hq, hg]
  rfl

end RefinementRules

end Reader
end Foundation
