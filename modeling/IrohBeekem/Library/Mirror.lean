import IrohBeekem.Library.Wp

/-!
# Two runs side by side

`Mirrors rel x s y t` says that `x` run from `s` and `y` run from `t` give the same answer,
be it a value or a failure, and end in states related by `rel`.  It is a specification of
two runs at a time, and is put together along the shape of the programs as `Wp` is for
one: the rules below are those of the monad's operations, of `zoom`, `attempt` and
`verdict`.
-/

namespace IrohBeekem.Library

variable {ε ε' σ τ α β : Type}

/-- What a run answers. -/
def answer (x : EStateM ε σ α) (s : σ) : Except ε α :=
  match x s with
  | .ok a _ => .ok a
  | .error e _ => .error e

/-- The two runs give the same answer and end in related states. -/
def Mirrors (rel : σ → σ → Prop) (x : EStateM ε σ α) (s : σ) (y : EStateM ε σ α) (t : σ) : Prop :=
  answer y t = answer x s ∧ rel (after x s) (after y t)

theorem run_eq_ok_iff {x : EStateM ε σ α} {s s' : σ} {a : α} :
    x s = .ok a s' ↔ answer x s = .ok a ∧ after x s = s' := by
  unfold answer after
  cases x s with
  | ok b s'' => simp
  | error e s'' => simp

theorem run_eq_error_iff {x : EStateM ε σ α} {s s' : σ} {e : ε} :
    x s = .error e s' ↔ answer x s = .error e ∧ after x s = s' := by
  unfold answer after
  cases x s with
  | ok b s'' => simp
  | error e' s'' => simp

namespace Mirrors

variable {rel : σ → σ → Prop} {x y : EStateM ε σ α} {f g : α → EStateM ε σ β} {s t : σ}

/-- Either both runs succeed, or both fail in the same way. -/
theorem cases (h : Mirrors rel x s y t) :
    (∃ a s' t', x s = .ok a s' ∧ y t = .ok a t' ∧ rel s' t') ∨
      ∃ e s' t', x s = .error e s' ∧ y t = .error e t' ∧ rel s' t' := by
  obtain ⟨hanswer, hrel⟩ := h
  cases hx : answer x s with
  | ok a =>
      exact Or.inl ⟨a, _, _, run_eq_ok_iff.mpr ⟨hx, rfl⟩,
        run_eq_ok_iff.mpr ⟨hanswer.trans hx, rfl⟩, hrel⟩
  | error e =>
      exact Or.inr ⟨e, _, _, run_eq_error_iff.mpr ⟨hx, rfl⟩,
        run_eq_error_iff.mpr ⟨hanswer.trans hx, rfl⟩, hrel⟩

theorem of_ok {a : α} {s' t' : σ} (hx : x s = .ok a s') (hy : y t = .ok a t') (h : rel s' t') :
    Mirrors rel x s y t := by
  unfold Mirrors answer after
  rw [hx, hy]
  exact ⟨rfl, h⟩

theorem of_error {e : ε} {s' t' : σ} (hx : x s = .error e s') (hy : y t = .error e t')
    (h : rel s' t') : Mirrors rel x s y t := by
  unfold Mirrors answer after
  rw [hx, hy]
  exact ⟨rfl, h⟩

theorem pure (a : α) (h : rel s t) :
    Mirrors rel (Pure.pure a : EStateM ε σ α) s (Pure.pure a) t := ⟨rfl, h⟩

theorem throw (e : ε) (h : rel s t) :
    Mirrors rel (MonadExcept.throw e : EStateM ε σ α) s (MonadExcept.throw e) t := ⟨rfl, h⟩

theorem set {s' t' : σ} (h : rel s' t') :
    Mirrors rel (MonadStateOf.set s' : EStateM ε σ PUnit) s (MonadStateOf.set t') t := ⟨rfl, h⟩

/-- What the two programs read, they read off the state they are in. -/
theorem read {f g : σ → EStateM ε σ β} (h : Mirrors rel (f s) s (g t) t) :
    Mirrors rel (MonadState.get >>= f) s (MonadState.get >>= g) t := h

theorem bind (hx : Mirrors rel x s y t)
    (hf : ∀ a s' t', rel s' t' → Mirrors rel (f a) s' (g a) t') :
    Mirrors rel (x >>= f) s (y >>= g) t := by
  unfold Mirrors answer Library.after
  change (match EStateM.bind y g t with
      | .ok b _ => Except.ok b
      | .error e _ => Except.error e) =
    (match EStateM.bind x f s with
      | .ok b _ => Except.ok b
      | .error e _ => Except.error e) ∧ rel
      (match EStateM.bind x f s with
        | .ok _ s' => s'
        | .error _ s' => s')
      (match EStateM.bind y g t with
        | .ok _ t' => t'
        | .error _ t' => t')
  unfold EStateM.bind
  rcases hx.cases with ⟨a, s', t', hrun, hrun', hrel⟩ | ⟨e, s', t', hrun, hrun', hrel⟩
  · rw [hrun, hrun']
    exact hf a s' t' hrel
  · rw [hrun, hrun']
    exact ⟨rfl, hrel⟩

theorem verdict (r : Except ε α) (h : rel s t) :
    Mirrors rel (Library.verdict r) s (Library.verdict r) t := by
  cases r with
  | ok a => exact .pure a h
  | error e => exact .throw e h

theorem attempt (h : Mirrors rel x s y t) :
    Mirrors rel (Library.attempt x : EStateM ε' σ (Except ε α)) s (Library.attempt y) t := by
  unfold Library.attempt
  rcases h.cases with ⟨a, s', t', hrun, hrun', hrel⟩ | ⟨e, s', t', hrun, hrun', hrel⟩
  · exact .of_ok (by rw [hrun]) (by rw [hrun']) hrel
  · exact .of_ok (by rw [hrun]) (by rw [hrun']) hrel

theorem zoom {proj : τ → σ} {put : σ → τ → τ} {rename : ε → ε'} {rel' : τ → τ → Prop} {u v : τ}
    (h : Mirrors rel x (proj u) y (proj v)) (hput : ∀ s' t', rel s' t' → rel' (put s' u) (put t' v)) :
    Mirrors rel' (Library.zoom proj put rename x) u (Library.zoom proj put rename y) v := by
  unfold Library.zoom
  rcases h.cases with ⟨a, s', t', hrun, hrun', hrel⟩ | ⟨e, s', t', hrun, hrun', hrel⟩
  · exact .of_ok (by rw [hrun]) (by rw [hrun']) (hput s' t' hrel)
  · exact .of_error (by rw [hrun]) (by rw [hrun']) (hput s' t' hrel)

theorem mono {rel' : σ → σ → Prop} (h : Mirrors rel x s y t) (hrel : ∀ s' t', rel s' t' → rel' s' t') :
    Mirrors rel' x s y t := ⟨h.1, hrel _ _ h.2⟩

end Mirrors

end IrohBeekem.Library
