import IrohBeekem.Library.Keeps

/-!
# Programs that can be cut off

A process can be gone in the middle of what it does.  Its program then neither returns nor
fails, nothing of it handles that, and what it had done by then stays.

A program is *atomic* through a view of the state if through that view it is seen to make
one change or none: the change if it returns, none if it fails, one or the other if it is
cut off (`Atomically`).
-/

namespace IrohBeekem.Library

variable {ε ε' σ α β ν : Type}

/-- How a program ends that does not return. -/
inductive Halt (ε : Type) where
  | failed (e : ε)
  /-- The process is gone. -/
  | cut

/-- What becomes of a call on the outside.  One that is not done has come so far, or has not
begun. -/
inductive Outcome where
  | done
  | fails (text : String) (reach : Option Nat)
  | cut (reach : Option Nat)

/-- Turn a failure into a value.  Nobody is there to do so once the process is gone. -/
def recover (x : EStateM (Halt ε) σ α) : EStateM (Halt ε') σ (Except ε α) := fun s =>
  match x s with
  | .ok a s' => .ok (.ok a) s'
  | .error (.failed e) s' => .ok (.error e) s'
  | .error .cut s' => .error .cut s'

theorem wp_recover {x : EStateM (Halt ε) σ α} {s : σ} {Q : Except ε α → σ → Prop}
    {E : Halt ε' → σ → Prop} :
    Wp (recover x) Q E s ↔ Wp x (fun a s' => Q (.ok a) s')
      (fun halt s' => match halt with
        | .failed e => Q (.error e) s'
        | .cut => E .cut s') s := by
  unfold Wp recover
  cases x s with
  | ok a s' => rfl
  | error halt s' =>
      cases halt with
      | failed e => rfl
      | cut => rfl

/-- The value of a program, changed by a function. -/
theorem wp_map {x : EStateM ε σ α} {f : α → β} {s : σ} {Q : β → σ → Prop} {E : ε → σ → Prop} :
    Wp (f <$> x) Q E s ↔ Wp x (fun a s' => Q (f a) s') E s := by
  have hmap : (f <$> x) s = EStateM.map f x s := rfl
  unfold Wp
  rw [hmap]
  unfold EStateM.map
  cases x s with
  | ok a s' => rfl
  | error e s' => rfl

theorem run_of_fails {x : EStateM ε σ α} {s : σ} (h : succeeds x s = false) :
    ∃ e, x s = .error e (after x s) := by
  unfold succeeds at h
  unfold after
  cases hrun : x s with
  | ok a s' =>
      rw [hrun] at h
      exact absurd h (by simp)
  | error e s' => exact ⟨e, rfl⟩

/-- What is seen of a program that makes one change or none. -/
def Atomically (view : σ → ν) (change : ν → ν) (x : EStateM (Halt ε) σ α) : Prop :=
  ∀ s, Wp x (fun _ s' => view s' = change (view s))
    (fun halt s' => match halt with
      | .failed _ => view s' = view s
      | .cut => view s' = view s ∨ view s' = change (view s)) s

end IrohBeekem.Library
