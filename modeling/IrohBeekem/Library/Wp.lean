import Mathlib

/-!
# Weakest preconditions for fallible stateful programs

`EStateM ε σ` is the monad of a program that owns a state and may fail, where a
failure keeps whatever the program had already done: the usual shape of a method
on a mutable receiver that returns a `Result`.

`Wp x Q E s` says that running `x` from `s` either returns `a` in a state `s'`
with `Q a s'`, or fails with `e` in a state `s'` with `E e s'`.  The rules below
compute it through the monad's operations, so a specification of a program is
assembled from those of its parts:

* `wp_bind`, `wp_pure`, `wp_throw`, `wp_get`, `wp_modify` — the operations;
* `Wp.mono`, `Wp.seq` — consequence, and sequencing with a known specification;
* `wp_zoom` — a program that runs on a component of a larger state;
* `wp_attempt` — a failure turned into a value.
-/

namespace IrohBeekem.Library

variable {ε ε' σ τ α β : Type}

/-- Running `x` from `s` ends in `Q` or fails in `E`. -/
def Wp (x : EStateM ε σ α) (Q : α → σ → Prop) (E : ε → σ → Prop) (s : σ) : Prop :=
  match x s with
  | .ok a s' => Q a s'
  | .error e s' => E e s'

section Rules

variable {x : EStateM ε σ α} {f : α → EStateM ε σ β} {s : σ}

@[simp] theorem wp_pure {a : α} {Q : α → σ → Prop} {E : ε → σ → Prop} :
    Wp (pure a) Q E s ↔ Q a s := Iff.rfl

theorem wp_bind {Q : β → σ → Prop} {E : ε → σ → Prop} :
    Wp (x >>= f) Q E s ↔ Wp x (fun a s' => Wp (f a) Q E s') E s := by
  unfold Wp
  change (match EStateM.bind x f s with
    | .ok a s' => Q a s'
    | .error e s' => E e s') ↔ _
  unfold EStateM.bind
  cases x s with
  | ok a s' => rfl
  | error e s' => rfl

@[simp] theorem wp_throw {e : ε} {Q : α → σ → Prop} {E : ε → σ → Prop} :
    Wp (throw e) Q E s ↔ E e s := Iff.rfl

@[simp] theorem wp_get {Q : σ → σ → Prop} {E : ε → σ → Prop} :
    Wp get Q E s ↔ Q s s := Iff.rfl

@[simp] theorem wp_set {s' : σ} {Q : PUnit → σ → Prop} {E : ε → σ → Prop} :
    Wp (set s') Q E s ↔ Q ⟨⟩ s' := Iff.rfl

@[simp] theorem wp_modify {g : σ → σ} {Q : PUnit → σ → Prop} {E : ε → σ → Prop} :
    Wp (modify g) Q E s ↔ Q ⟨⟩ (g s) := Iff.rfl

/-- Consequence. -/
theorem Wp.mono {Q Q' : α → σ → Prop} {E E' : ε → σ → Prop} (h : Wp x Q E s)
    (hQ : ∀ a s', Q a s' → Q' a s') (hE : ∀ e s', E e s' → E' e s') : Wp x Q' E' s := by
  unfold Wp at h ⊢
  cases hx : x s with
  | ok a s' =>
      rw [hx] at h
      exact hQ a s' h
  | error e s' =>
      rw [hx] at h
      exact hE e s' h

/-- A program whose first part meets a known specification. -/
theorem Wp.seq {Q : α → σ → Prop} {R : β → σ → Prop} {E E' : ε → σ → Prop} (h : Wp x Q E s)
    (hf : ∀ a s', Q a s' → Wp (f a) R E' s') (hE : ∀ e s', E e s' → E' e s') :
    Wp (x >>= f) R E' s :=
  wp_bind.mpr (h.mono hf hE)

theorem Wp.and {Q Q' : α → σ → Prop} {E E' : ε → σ → Prop} (h : Wp x Q E s)
    (h' : Wp x Q' E' s) :
    Wp x (fun a s' => Q a s' ∧ Q' a s') (fun e s' => E e s' ∧ E' e s') s := by
  unfold Wp at *
  cases hx : x s with
  | ok a s' =>
      rw [hx] at h h'
      exact ⟨h, h'⟩
  | error e s' =>
      rw [hx] at h h'
      exact ⟨h, h'⟩

/-- What a specification says of a successful run. -/
theorem Wp.of_ok {Q : α → σ → Prop} {E : ε → σ → Prop} (h : Wp x Q E s) {a : α} {s' : σ}
    (hx : x s = .ok a s') : Q a s' := by
  unfold Wp at h
  rw [hx] at h
  exact h

/-- A program that cannot fail has a run. -/
theorem Wp.exists_ok {Q : α → σ → Prop} (h : Wp x Q (fun _ _ => False) s) :
    ∃ a s', x s = .ok a s' ∧ Q a s' := by
  unfold Wp at h
  cases hx : x s with
  | ok a s' =>
      rw [hx] at h
      exact ⟨a, s', rfl, h⟩
  | error e s' =>
      rw [hx] at h
      exact h.elim

/-- What a specification says of a failed run. -/
theorem Wp.of_error {Q : α → σ → Prop} {E : ε → σ → Prop} (h : Wp x Q E s) {e : ε} {s' : σ}
    (hx : x s = .error e s') : E e s' := by
  unfold Wp at h
  rw [hx] at h
  exact h

theorem wp_of_run {Q : α → σ → Prop} {E : ε → σ → Prop}
    (hok : ∀ a s', x s = .ok a s' → Q a s') (herror : ∀ e s', x s = .error e s' → E e s') :
    Wp x Q E s := by
  unfold Wp
  cases hx : x s with
  | ok a s' => exact hok a s' hx
  | error e s' => exact herror e s' hx

end Rules

/-- The state a run ends in, whether or not it failed. -/
def after (x : EStateM ε σ α) (s : σ) : σ :=
  match x s with
  | .ok _ s' => s'
  | .error _ s' => s'

/-- Whether a program succeeds. -/
def succeeds (x : EStateM ε σ α) (s : σ) : Bool :=
  match x s with
  | .ok _ _ => true
  | .error _ _ => false

theorem run_of_succeeds {x : EStateM ε σ α} {s : σ} (h : succeeds x s = true) :
    ∃ a, x s = .ok a (after x s) := by
  unfold succeeds at h
  unfold after
  cases hrun : x s with
  | ok a s' => exact ⟨a, rfl⟩
  | error e s' =>
      rw [hrun] at h
      exact absurd h (by simp)

theorem Wp.after {x : EStateM ε σ α} {s : σ} {P : σ → Prop}
    (h : Wp x (fun _ s' => P s') (fun _ s' => P s') s) : P (after x s) := by
  unfold Wp at h
  unfold Library.after
  cases hx : x s with
  | ok a s' =>
      rw [hx] at h
      exact h
  | error e s' =>
      rw [hx] at h
      exact h

/-! ## Programs on a component -/

/-- Run a program on a component of the state, with its failures renamed. -/
def zoom (proj : τ → σ) (put : σ → τ → τ) (rename : ε → ε') (x : EStateM ε σ α) :
    EStateM ε' τ α := fun t =>
  match x (proj t) with
  | .ok a s => .ok a (put s t)
  | .error e s => .error (rename e) (put s t)

theorem wp_zoom {proj : τ → σ} {put : σ → τ → τ} {rename : ε → ε'} {x : EStateM ε σ α} {t : τ}
    {Q : α → τ → Prop} {E : ε' → τ → Prop} :
    Wp (zoom proj put rename x) Q E t ↔
      Wp x (fun a s => Q a (put s t)) (fun e s => E (rename e) (put s t)) (proj t) := by
  unfold Wp zoom
  cases x (proj t) with
  | ok a s => rfl
  | error e s => rfl

/-! ## Failures as values -/

/-- Run a program and return its failure rather than fail. -/
def attempt (x : EStateM ε σ α) : EStateM ε' σ (Except ε α) := fun s =>
  match x s with
  | .ok a s' => .ok (.ok a) s'
  | .error e s' => .ok (.error e) s'

theorem wp_attempt {x : EStateM ε σ α} {s : σ} {Q : Except ε α → σ → Prop}
    {E : ε' → σ → Prop} :
    Wp (attempt x) Q E s ↔ Wp x (fun a s' => Q (.ok a) s') (fun e s' => Q (.error e) s') s := by
  unfold Wp attempt
  cases x s with
  | ok a s' => rfl
  | error e s' => rfl

/-- A program that does not fail. -/
def Unfailing (x : EStateM ε σ α) : Prop := ∀ s, ∃ a s', x s = .ok a s'

namespace Unfailing

theorem pure (a : α) : Unfailing (pure a : EStateM ε σ α) := fun s => ⟨a, s, rfl⟩

theorem attempt (x : EStateM ε σ α) : Unfailing (Library.attempt x : EStateM ε' σ (Except ε α)) := by
  intro s
  unfold Library.attempt
  cases x s with
  | ok a s' => exact ⟨_, _, rfl⟩
  | error e s' => exact ⟨_, _, rfl⟩

theorem bind {x : EStateM ε σ α} {f : α → EStateM ε σ β} (hx : Unfailing x)
    (hf : ∀ a, Unfailing (f a)) : Unfailing (x >>= f) := by
  intro s
  obtain ⟨a, s', hrun⟩ := hx s
  change ∃ b s'', EStateM.bind x f s = .ok b s''
  unfold EStateM.bind
  rw [hrun]
  exact hf a s'

end Unfailing

/-- A pure verdict as a program. -/
def verdict : Except ε α → EStateM ε σ α
  | .ok a => pure a
  | .error e => throw e

theorem wp_verdict {r : Except ε α} {s : σ} {Q : α → σ → Prop} {E : ε → σ → Prop} :
    Wp (verdict r) Q E s ↔
      match r with
      | .ok a => Q a s
      | .error e => E e s := by
  cases r with
  | ok a => rfl
  | error e => rfl

/-- A pure program succeeds step by step. -/
theorem bind_eq_ok {x : Except ε α} {f : α → Except ε β} {b : β} :
    (x >>= f) = .ok b ↔ ∃ a, x = .ok a ∧ f a = .ok b := by
  cases x with
  | ok a => simp [bind, Except.bind]
  | error e => simp [bind, Except.bind]

/-- A program whose error is only renamed succeeds where it does. -/
theorem mapError_eq_ok {ε' : Type*} {f : ε → ε'} {x : Except ε α} {a : α} :
    x.mapError f = .ok a ↔ x = .ok a := by
  cases x with
  | ok b => simp [Except.mapError]
  | error e => simp [Except.mapError]

/-- Steps that all succeed succeed together, with what each result is to its argument. -/
theorem exists_mapM {P : α → β → Prop} {f : α → Except ε β} {l : List α}
    (h : ∀ a ∈ l, ∃ b, f a = .ok b ∧ P a b) : ∃ bs, l.mapM f = .ok bs ∧ List.Forall₂ P l bs := by
  induction l with
  | nil => exact ⟨[], rfl, .nil⟩
  | cons a l ih =>
      obtain ⟨b, hb, hP⟩ := h a List.mem_cons_self
      obtain ⟨bs, hbs, hrest⟩ := ih fun a' ha' => h a' (List.mem_cons_of_mem a ha')
      refine ⟨b :: bs, ?_, .cons hP hrest⟩
      rw [List.mapM_cons]
      exact bind_eq_ok.mpr ⟨b, hb, bind_eq_ok.mpr ⟨bs, hbs, rfl⟩⟩

/-- Steps over a rearranged list succeed alike, with the results rearranged. -/
theorem mapM_perm {f : α → Except ε β} {l l' : List α} (h : l.Perm l') {bs : List β}
    (hbs : l.mapM f = .ok bs) : ∃ bs', l'.mapM f = .ok bs' ∧ bs.Perm bs' := by
  induction h generalizing bs with
  | nil => exact ⟨bs, hbs, .refl bs⟩
  | cons a _ ih =>
      rw [List.mapM_cons] at hbs
      obtain ⟨b, hb, hbs⟩ := bind_eq_ok.mp hbs
      obtain ⟨rest, hrest, hbs⟩ := bind_eq_ok.mp hbs
      obtain rfl := Except.ok.inj hbs
      obtain ⟨rest', hrest', hperm⟩ := ih hrest
      refine ⟨b :: rest', ?_, hperm.cons b⟩
      rw [List.mapM_cons]
      exact bind_eq_ok.mpr ⟨b, hb, bind_eq_ok.mpr ⟨rest', hrest', rfl⟩⟩
  | swap a a' l =>
      rw [List.mapM_cons] at hbs
      obtain ⟨b', hb', hbs⟩ := bind_eq_ok.mp hbs
      obtain ⟨rest, hrest, hbs⟩ := bind_eq_ok.mp hbs
      obtain rfl := Except.ok.inj hbs
      rw [List.mapM_cons] at hrest
      obtain ⟨b, hb, hrest⟩ := bind_eq_ok.mp hrest
      obtain ⟨rest', hrest', hcons⟩ := bind_eq_ok.mp hrest
      obtain rfl := Except.ok.inj hcons
      refine ⟨b :: b' :: rest', ?_, .swap b b' rest'⟩
      rw [List.mapM_cons, List.mapM_cons]
      exact bind_eq_ok.mpr ⟨b, hb, bind_eq_ok.mpr ⟨b' :: rest',
        bind_eq_ok.mpr ⟨b', hb', bind_eq_ok.mpr ⟨rest', hrest', rfl⟩⟩, rfl⟩⟩
  | trans _ _ ih ih' =>
      obtain ⟨bs', hbs', hperm⟩ := ih hbs
      obtain ⟨bs'', hbs'', hperm'⟩ := ih' hbs'
      exact ⟨bs'', hbs'', hperm.trans hperm'⟩

/-- Where steps succeed together, each succeeds. -/
theorem exists_of_mapM {f : α → Except ε β} {l : List α} {bs : List β} (h : l.mapM f = .ok bs)
    {a : α} (ha : a ∈ l) : ∃ b, f a = .ok b := by
  induction l generalizing bs with
  | nil => exact absurd ha List.not_mem_nil
  | cons x rest ih =>
      rw [List.mapM_cons] at h
      obtain ⟨b, hb, h⟩ := bind_eq_ok.mp h
      obtain ⟨bs', hbs', -⟩ := bind_eq_ok.mp h
      rcases List.mem_cons.mp ha with rfl | ha
      · exact ⟨b, hb⟩
      · exact ih hbs' ha

end IrohBeekem.Library
