import IrohBeekem.Library.Wp

/-!
# What a program leaves alone

A program keeps a part of the state if, from every state and whether or not it fails, that
part is afterwards what it was.  Keeping composes along the shape of a program, so that
nothing has to be unfolded to see that a long program never touches a field.

In the same way a program raises a part of the state, in some order on it, if it never ends
lower than it began, and maintains a property of states if it leads from states that have it
only to states that have it.
-/

namespace IrohBeekem.Library

variable {ε ε' σ τ α β γ : Type}

/-- Whether or not it fails, the program leaves this part of the state as it was. -/
def Keeps (part : σ → γ) (x : EStateM ε σ α) : Prop :=
  ∀ s, Wp x (fun _ s' => part s' = part s) (fun _ s' => part s' = part s) s

namespace Keeps

variable {part : σ → γ} {x : EStateM ε σ α} {f : α → EStateM ε σ β}

theorem pure (a : α) : Keeps part (Pure.pure a : EStateM ε σ α) := fun _ => rfl

theorem throw (e : ε) : Keeps part (MonadExcept.throw e : EStateM ε σ α) := fun _ => rfl

theorem get : Keeps part (MonadState.get : EStateM ε σ σ) := fun _ => rfl

theorem verdict (r : Except ε α) : Keeps part (Library.verdict r : EStateM ε σ α) := by
  cases r with
  | ok a => exact .pure a
  | error e => exact .throw e

theorem modify {g : σ → σ} (h : ∀ s, part (g s) = part s) :
    Keeps part (MonadState.modifyGet (fun s => (PUnit.unit, g s)) : EStateM ε σ PUnit) := h

theorem bind (hx : Keeps part x) (hf : ∀ a, Keeps part (f a)) : Keeps part (x >>= f) := by
  intro s
  refine (hx s).seq (fun a s₁ h₁ => ?_) fun _ _ => id
  exact (hf a s₁).mono (fun _ _ h => h.trans h₁) fun _ _ h => h.trans h₁

theorem attempt (hx : Keeps part x) :
    Keeps part (Library.attempt x : EStateM ε' σ (Except ε α)) := fun s => wp_attempt.mpr (hx s)

theorem zoom {part : τ → γ} {proj : τ → σ} {put : σ → τ → τ} {rename : ε → ε'}
    (h : ∀ s t, part (put s t) = part t) (x : EStateM ε σ α) :
    Keeps part (Library.zoom proj put rename x) := by
  intro t
  rw [wp_zoom]
  exact wp_of_run (fun _ s _ => h s t) fun _ s _ => h s t

theorem ite {c : Prop} [Decidable c] {y : EStateM ε σ α} (hx : Keeps part x) (hy : Keeps part y) :
    Keeps part (if c then x else y) := by
  split_ifs
  · exact hx
  · exact hy

end Keeps

/-- Whether or not it fails, the program leaves this part of the state at or above where it
was. -/
def Raises [Preorder γ] (part : σ → γ) (x : EStateM ε σ α) : Prop :=
  ∀ s, Wp x (fun _ s' => part s ≤ part s') (fun _ s' => part s ≤ part s') s

/-- What is read off a part that is kept is kept. -/
theorem Keeps.map {δ : Type} {part : σ → γ} {x : EStateM ε σ α} (h : Keeps part x) (g : γ → δ) :
    Keeps (fun s => g (part s)) x := fun s =>
  (h s).mono (fun _ _ => congrArg g) fun _ _ => congrArg g

theorem Keeps.raises [Preorder γ] {part : σ → γ} {x : EStateM ε σ α} (h : Keeps part x) :
    Raises part x := fun s => (h s).mono (fun _ _ => ge_of_eq) fun _ _ => ge_of_eq

namespace Raises

variable [Preorder γ] {part : σ → γ} {x : EStateM ε σ α} {f : α → EStateM ε σ β}

theorem pure (a : α) : Raises part (Pure.pure a : EStateM ε σ α) := fun _ => le_rfl

theorem throw (e : ε) : Raises part (MonadExcept.throw e : EStateM ε σ α) := fun _ => le_rfl

theorem bind (hx : Raises part x) (hf : ∀ a, Raises part (f a)) : Raises part (x >>= f) := by
  intro s
  refine (hx s).seq (fun a s₁ h₁ => ?_) fun _ _ => id
  exact (hf a s₁).mono (fun _ _ h => h₁.trans h) fun _ _ h => h₁.trans h

theorem attempt (hx : Raises part x) :
    Raises part (Library.attempt x : EStateM ε' σ (Except ε α)) := fun s => wp_attempt.mpr (hx s)

theorem after (hx : Raises part x) (s : σ) : part s ≤ part (after x s) :=
  Wp.after (P := fun s' => part s ≤ part s') (hx s)

end Raises

/-- Whether or not it fails, the program leaves what holds of the state as it is. -/
def Maintains (holds : σ → Prop) (x : EStateM ε σ α) : Prop :=
  ∀ s, holds s → Wp x (fun _ s' => holds s') (fun _ s' => holds s') s

theorem Keeps.maintains {part : σ → γ} {holds : σ → Prop} {x : EStateM ε σ α} (h : Keeps part x)
    (hpart : ∀ s s', part s' = part s → holds s → holds s') : Maintains holds x := fun s hs =>
  (h s).mono (fun _ s' hsame => hpart s s' hsame hs) fun _ s' hsame => hpart s s' hsame hs

namespace Maintains

variable {holds : σ → Prop} {x : EStateM ε σ α} {f : α → EStateM ε σ β}

theorem pure (a : α) : Maintains holds (Pure.pure a : EStateM ε σ α) := fun _ hs => hs

theorem throw (e : ε) : Maintains holds (MonadExcept.throw e : EStateM ε σ α) := fun _ hs => hs

theorem bind (hx : Maintains holds x) (hf : ∀ a, Maintains holds (f a)) :
    Maintains holds (x >>= f) := fun s hs =>
  (hx s hs).seq (fun a s₁ h₁ => hf a s₁ h₁) fun _ _ => id

theorem attempt (hx : Maintains holds x) :
    Maintains holds (Library.attempt x : EStateM ε' σ (Except ε α)) := fun s hs =>
  wp_attempt.mpr (hx s hs)

theorem ite {c : Prop} [Decidable c] {y : EStateM ε σ α} (hx : Maintains holds x)
    (hy : Maintains holds y) : Maintains holds (if c then x else y) := by
  split_ifs
  · exact hx
  · exact hy

theorem after (hx : Maintains holds x) {s : σ} (hs : holds s) : holds (after x s) :=
  Wp.after (hx s hs)

end Maintains

end IrohBeekem.Library
