import Mathlib.Tactic

/-!
# Actions that keep their state when they fail

`EStateM ε σ` runs from a state to a result and a state, whether it succeeds or
not. The lemmas invert a successful or failed run one step at a time, so that a
proof about an action never unfolds the monad.
-/
namespace Foundation

variable {ε σ α β : Type}

/-- Run a computation that neither reads nor writes the state. -/
def pureCheck (x : Except ε α) : EStateM ε σ α := fun s =>
  match x with
  | .ok a => .ok a s
  | .error e => .error e s

variable {x : EStateM ε σ α} {f : α → EStateM ε σ β} {s t : σ} {e : ε} {a : α} {τ : Type}

@[simp] theorem run_bind_eq_ok {b : β} :
    (x >>= f).run s = .ok b t ↔ ∃ a m, x.run s = .ok a m ∧ (f a).run m = .ok b t := by
  change EStateM.bind x f s = _ ↔ ∃ a m, x s = _ ∧ f a m = _
  unfold EStateM.bind
  cases x s <;> simp

@[simp] theorem run_bind_eq_error :
    (x >>= f).run s = .error e t ↔
      x.run s = .error e t ∨ ∃ a m, x.run s = .ok a m ∧ (f a).run m = .error e t := by
  change EStateM.bind x f s = _ ↔ x s = _ ∨ ∃ a m, x s = _ ∧ f a m = _
  unfold EStateM.bind
  cases x s <;> simp

@[simp] theorem run_pure (a : α) (s : σ) : (pure a : EStateM ε σ α).run s = .ok a s := rfl

@[simp] theorem run_throw (e : ε) (s : σ) : (throw e : EStateM ε σ α).run s = .error e s := rfl

@[simp] theorem run_get (s : σ) : (get : EStateM ε σ σ).run s = .ok s s := rfl

@[simp] theorem run_set (s t : σ) :
    (set t : EStateM ε σ PUnit).run s = .ok PUnit.unit t := rfl

@[simp] theorem run_modify (f : σ → σ) (s : σ) :
    (modify f : EStateM ε σ PUnit).run s = .ok PUnit.unit (f s) := rfl

@[simp] theorem run_pureCheck_eq_ok {x : Except ε α} :
    (pureCheck x : EStateM ε σ α).run s = .ok a t ↔ x = .ok a ∧ s = t := by
  cases x <;> simp [pureCheck, EStateM.run]

@[simp] theorem run_pureCheck_eq_error {x : Except ε α} :
    (pureCheck x : EStateM ε σ α).run s = .error e t ↔ x = .error e ∧ s = t := by
  cases x <;> simp [pureCheck, EStateM.run]

@[simp] theorem run_map_eq_ok {f : α → β} {b : β} :
    (f <$> x).run s = .ok b t ↔ ∃ a, x.run s = .ok a t ∧ f a = b := by
  change EStateM.map f x s = _ ↔ ∃ a, x s = _ ∧ _
  unfold EStateM.map
  cases x s <;> simp [and_comm]

theorem run_bind_of_ok (h : x.run s = .ok a t) : (x >>= f).run s = (f a).run t := by
  change EStateM.bind x f s = f a t
  unfold EStateM.bind
  change x s = _ at h
  rw [h]

def onFirst {τ : Type} (x : EStateM ε σ α) : EStateM ε (σ × τ) α := fun s =>
  match x.run s.1 with
  | .ok a m => .ok a (m, s.2)
  | .error e m => .error e (m, s.2)

@[simp] theorem run_onFirst_eq_ok {s t : σ × τ} :
    (onFirst x : EStateM ε (σ × τ) α).run s = .ok a t ↔ x.run s.1 = .ok a t.1 ∧ s.2 = t.2 := by
  change (match x.run s.1 with | .ok a m => _ | .error e m => _) = _ ↔ _
  cases x.run s.1 <;> simp [Prod.ext_iff, and_assoc]

@[simp] theorem run_onFirst_eq_error {s t : σ × τ} :
    (onFirst x : EStateM ε (σ × τ) α).run s = .error e t ↔
      x.run s.1 = .error e t.1 ∧ s.2 = t.2 := by
  change (match x.run s.1 with | .ok a m => _ | .error e m => _) = _ ↔ _
  cases x.run s.1 <;> simp [Prod.ext_iff, and_assoc]

def finalState : EStateM.Result ε σ α → σ
  | .ok _ s => s
  | .error _ s => s

theorem finalState_bind_of_ok
    (h : x.run s = .ok a t) : finalState ((x >>= f).run s) = finalState ((f a).run t) := by
  rw [run_bind_of_ok h]

theorem finalState_bind_of_error (h : x.run s = .error e t) : finalState ((x >>= f).run s) = t := by
  have hbind : (x >>= f).run s = .error e t := run_bind_eq_error.mpr (Or.inl h)
  rw [hbind]
  rfl

theorem finalState_bind_of_forall (s : σ) (h : ∀ a t, finalState ((f a).run t) = t) :
    finalState ((x >>= f).run s) = finalState (x.run s) := by
  cases hx : x.run s with
  | ok => rw [finalState_bind_of_ok hx, h]; rfl
  | error => rw [finalState_bind_of_error hx]; rfl

def succeeded : EStateM.Result ε σ α → Bool
  | .ok _ _ => true
  | .error _ _ => false

theorem eq_ok_of_succeeded {r : EStateM.Result ε σ Unit} (h : succeeded r = true) :
    r = .ok () (finalState r) := by
  cases r with
  | ok => rfl
  | error => cases h

/-- Whether a run succeeded with a result and a state that pass a test. -/
def succeededWith (test : α → σ → Bool) : EStateM.Result ε σ α → Bool
  | .ok a s => test a s
  | .error _ _ => false

theorem exists_of_succeededWith (r : EStateM.Result ε σ α) (test : α → σ → Bool)
    (h : succeededWith test r = true) : ∃ a s, r = .ok a s ∧ test a s = true := by
  cases r with
  | ok a s => exact ⟨a, s, rfl, h⟩
  | error => cases h

theorem ne_ok_of_not_succeeded {r : EStateM.Result ε σ α} (h : succeeded r = false) (a : α)
    (s : σ) : r ≠ .ok a s := by
  rintro rfl
  cases h

theorem exists_error_of_not_succeeded {r : EStateM.Result ε (σ × τ) α}
    (h : succeeded r = false) : ∃ e, r = .error e ((finalState r).1, (finalState r).2) := by
  cases r with
  | ok => cases h
  | error e => exact ⟨e, rfl⟩

variable {x : EStateM ε σ α} {k : α → EStateM ε σ β}

section Frames

variable {τ : Type} {f : σ → τ}

/-- An action leaves a part of the state alone, whether it succeeds or fails. -/
def Keeps (f : σ → τ) (x : EStateM ε σ α) : Prop := ∀ s, f (finalState (x.run s)) = f s

theorem keeps_pure (a : α) : Keeps f (pure a : EStateM ε σ α) := fun _ => rfl

theorem keeps_throw (e : ε) : Keeps f (throw e : EStateM ε σ α) := fun _ => rfl

theorem keeps_get : Keeps f (get : EStateM ε σ σ) := fun _ => rfl

theorem keeps_modify {g : σ → σ} (h : ∀ s, f (g s) = f s) :
    Keeps f (modify g : EStateM ε σ PUnit) := h

theorem Keeps.bind (hx : Keeps f x) (hk : ∀ a, Keeps f (k a)) : Keeps f (x >>= k) := by
  intro s
  have hs := hx s
  change f (finalState (EStateM.bind x k s)) = f s
  change f (finalState (x s)) = f s at hs
  unfold EStateM.bind
  cases hrun : x s with
  | ok a m =>
    rw [hrun] at hs
    exact (hk a m).trans hs
  | error =>
    rw [hrun] at hs
    exact hs

end Frames

end Foundation
