import CryptixAtomic.Foundation.Stateful

/-!
# Properties that an action never loses

An action preserves a property of the state when the state it ends in has the property
whenever the state it starts from has, whether the action succeeds or fails.
-/
namespace Foundation

variable {ε σ α β : Type} {p : σ → Prop}

def Preserves (p : σ → Prop) (x : EStateM ε σ α) : Prop :=
  ∀ s, p s → p (finalState (x.run s))

theorem preserves_pure (a : α) : Preserves p (pure a : EStateM ε σ α) := fun _ h => h

theorem preserves_get : Preserves p (get : EStateM ε σ σ) := fun _ h => h

theorem Preserves.bind {x : EStateM ε σ α} {k : α → EStateM ε σ β} (hx : Preserves p x)
    (hk : ∀ a, Preserves p (k a)) : Preserves p (x >>= k) := by
  intro s hs
  have hmid := hx s hs
  cases hrun : x.run s with
  | ok a m =>
    rw [hrun] at hmid
    rw [finalState_bind_of_ok hrun]
    exact hk a m hmid
  | error =>
    rw [hrun] at hmid
    rw [finalState_bind_of_error hrun]
    exact hmid

end Foundation
