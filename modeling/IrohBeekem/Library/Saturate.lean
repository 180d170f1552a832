import Mathlib

/-!
# Saturation of a state under a finite list of rules

A rule either fires at a state and yields a new one, or does not fire.  A
*sweep* tries every rule of a list once, in order, each at the state its
predecessors left, and reports whether any fired.  *Saturation* repeats sweeps
until one reports nothing, which is the usual shape of a closure computed to a
fixpoint by a `loop { … if !changed { break } }`.

The loop is bounded by a fuel argument so that it computes.  Two results make
the bound harmless and the computation usable:

* `saturate_induction` — what holds at the start and survives every firing
  holds of the result, whatever the fuel;
* `saturate_closed` — when every firing increases a measure that stays under a
  bound, fuel above the remaining distance is never exhausted, and no rule
  fires at the result;
* `saturate_settles` — under the same hypotheses the loop itself, which has no
  bound, ends within the fuel and at the same state;
* `saturate_filter` and `saturate_add` — rules that never fire, and fuel that is
  not needed, make no difference.
-/

namespace IrohBeekem.Library

variable {ρ σ : Type}

/-- Try every rule once, in order; the flag records whether any fired. -/
def sweep (step : ρ → σ → Option σ) : List ρ → σ × Bool → σ × Bool
  | [], p => p
  | r :: rs, p =>
      match step r p.1 with
      | some s => sweep step rs (s, true)
      | none => sweep step rs p

/-- Sweep until nothing fires, at most `fuel` times. -/
def saturate (step : ρ → σ → Option σ) (rules : List ρ) : Nat → σ → σ
  | 0, s => s
  | fuel + 1, s =>
      if (sweep step rules (s, false)).2 then
        saturate step rules fuel (sweep step rules (s, false)).1
      else (sweep step rules (s, false)).1

section

variable {step : ρ → σ → Option σ} {rules : List ρ}

theorem sweep_induction {I : σ → Prop} {rs : List ρ} {p : σ × Bool}
    (hp : I p.1) (hstep : ∀ r ∈ rs, ∀ s s', I s → step r s = some s' → I s') :
    I (sweep step rs p).1 := by
  induction rs generalizing p with
  | nil => exact hp
  | cons r rs ih =>
      have hrest : ∀ q ∈ rs, ∀ s s', I s → step q s = some s' → I s' :=
        fun q hq => hstep q (List.mem_cons_of_mem _ hq)
      unfold sweep
      cases hr : step r p.1 with
      | none => exact ih hp hrest
      | some s => exact ih (hstep r List.mem_cons_self _ _ hp hr) hrest

/-- The flag of a sweep is raised by the first firing and never lowered. -/
private theorem sweep_flag {rs : List ρ} {s : σ} :
    (sweep step rs (s, true)).2 = true := by
  induction rs generalizing s with
  | nil => rfl
  | cons r rs ih =>
      unfold sweep
      cases step r s with
      | none => exact ih
      | some s' => exact ih

/-- A sweep that reports nothing left the state alone, and no rule fires
there. -/
private theorem sweep_quiet {rs : List ρ} {s : σ}
    (h : (sweep step rs (s, false)).2 = false) :
    (sweep step rs (s, false)).1 = s ∧ ∀ r ∈ rs, step r s = none := by
  induction rs with
  | nil => exact ⟨rfl, fun r hr => absurd hr List.not_mem_nil⟩
  | cons r rs ih =>
      unfold sweep at h ⊢
      cases hr : step r s with
      | some s' =>
          simp only [hr] at h
          rw [sweep_flag] at h
          exact absurd h Bool.noConfusion
      | none =>
          simp only [hr] at h ⊢
          obtain ⟨hs, hnone⟩ := ih h
          refine ⟨hs, fun q hq => ?_⟩
          rcases List.mem_cons.mp hq with rfl | hq
          · exact hr
          · exact hnone q hq

/-- A sweep never lowers a measure every firing raises, and raises it when it
reports a change. -/
private theorem sweep_measure {μ : σ → Nat} {rs : List ρ} {p : σ × Bool}
    (hμ : ∀ r ∈ rs, ∀ s s', step r s = some s' → μ s < μ s') :
    μ p.1 ≤ μ (sweep step rs p).1 ∧
      (p.2 = false → (sweep step rs p).2 = true → μ p.1 < μ (sweep step rs p).1) := by
  induction rs generalizing p with
  | nil =>
      refine ⟨Nat.le_refl _, fun hf ht => ?_⟩
      rw [sweep, hf] at ht
      exact absurd ht Bool.noConfusion
  | cons r rs ih =>
      have hrest : ∀ q ∈ rs, ∀ s s', step q s = some s' → μ s < μ s' :=
        fun q hq => hμ q (List.mem_cons_of_mem _ hq)
      unfold sweep
      cases hr : step r p.1 with
      | none => exact ih hrest
      | some s =>
          have hlt : μ p.1 < μ s := hμ r List.mem_cons_self _ _ hr
          have hle : μ s ≤ μ (sweep step rs (s, true)).1 :=
            (ih (p := (s, true)) hrest).1
          exact ⟨Nat.le_trans (Nat.le_of_lt hlt) hle, fun _ _ => Nat.lt_of_lt_of_le hlt hle⟩

/-- What holds at the start and survives every firing holds after saturation. -/
theorem saturate_induction {I : σ → Prop} {fuel : Nat} {s : σ}
    (hs : I s) (hstep : ∀ r ∈ rules, ∀ s s', I s → step r s = some s' → I s') :
    I (saturate step rules fuel s) := by
  induction fuel generalizing s with
  | zero => exact hs
  | succ fuel ih =>
      unfold saturate
      split_ifs
      · exact ih (sweep_induction hs hstep)
      · exact sweep_induction hs hstep

/-- With fuel above the distance the measure can still travel, saturation ends
where no rule fires. -/
theorem saturate_closed {I : σ → Prop} {μ : σ → Nat} {b fuel : Nat} {s : σ}
    (hs : I s) (hstep : ∀ r ∈ rules, ∀ s s', I s → step r s = some s' → I s')
    (hμ : ∀ r ∈ rules, ∀ s s', step r s = some s' → μ s < μ s')
    (hbound : ∀ s, I s → μ s ≤ b) (hfuel : b < μ s + fuel) :
    ∀ r ∈ rules, step r (saturate step rules fuel s) = none := by
  induction fuel generalizing s with
  | zero =>
      have := hbound s hs
      omega
  | succ fuel ih =>
      unfold saturate
      split_ifs with hflag
      · have hlt : μ s < μ (sweep step rules (s, false)).1 :=
          (sweep_measure hμ).2 rfl hflag
        exact ih (sweep_induction hs hstep) (by omega)
      · obtain ⟨hsame, hnone⟩ := sweep_quiet (Bool.not_eq_true _ ▸ hflag)
        rw [hsame]
        exact hnone

/-- The loop without a bound: it sweeps until a sweep reports nothing, and ends
at the given state after the given number of sweeps. -/
inductive Settles (step : ρ → σ → Option σ) (rules : List ρ) : σ → Nat → σ → Prop where
  | done {s : σ} (hquiet : (sweep step rules (s, false)).2 = false) :
      Settles step rules s 1 (sweep step rules (s, false)).1
  | again {s s' : σ} {n : Nat} (hchanged : (sweep step rules (s, false)).2 = true)
      (hrest : Settles step rules (sweep step rules (s, false)).1 n s') :
      Settles step rules s (n + 1) s'

/-- A loop settles at one state only, after one number of sweeps. -/
theorem Settles.unique {s s₁ s₂ : σ} {n₁ n₂ : Nat} (h₁ : Settles step rules s n₁ s₁)
    (h₂ : Settles step rules s n₂ s₂) : n₁ = n₂ ∧ s₁ = s₂ := by
  induction h₁ generalizing n₂ with
  | done hquiet =>
      cases h₂ with
      | done => exact ⟨rfl, rfl⟩
      | again hchanged => exact absurd (hquiet.symm.trans hchanged) Bool.noConfusion
  | again hchanged _ ih =>
      cases h₂ with
      | done hquiet => exact absurd (hquiet.symm.trans hchanged) Bool.noConfusion
      | again _ hrest =>
          obtain ⟨hn, hs⟩ := ih hrest
          exact ⟨congrArg (· + 1) hn, hs⟩

/-- With fuel above the distance the measure can still travel, the loop ends
within the fuel, where saturation does. -/
theorem saturate_settles {I : σ → Prop} {μ : σ → Nat} {b fuel : Nat} {s : σ}
    (hs : I s) (hstep : ∀ r ∈ rules, ∀ s s', I s → step r s = some s' → I s')
    (hμ : ∀ r ∈ rules, ∀ s s', step r s = some s' → μ s < μ s')
    (hbound : ∀ s, I s → μ s ≤ b) (hfuel : b < μ s + fuel) :
    ∃ n ≤ fuel, Settles step rules s n (saturate step rules fuel s) := by
  induction fuel generalizing s with
  | zero =>
      have := hbound s hs
      omega
  | succ fuel ih =>
      unfold saturate
      split_ifs with hflag
      · have hlt : μ s < μ (sweep step rules (s, false)).1 :=
          (sweep_measure hμ).2 rfl hflag
        have hkept : I (sweep step rules (s, false)).1 := sweep_induction hs hstep
        obtain ⟨n, hn, hrest⟩ := ih hkept (by omega)
        exact ⟨n + 1, Nat.succ_le_succ hn, .again hflag hrest⟩
      · exact ⟨1, Nat.succ_le_succ (Nat.zero_le _), .done (Bool.not_eq_true _ ▸ hflag)⟩

/-! ## Rules that never fire -/

/-- A sweep does not notice the rules that never fire. -/
private theorem sweep_filter {p : ρ → Bool} {rs : List ρ}
    (h : ∀ r ∈ rs, p r = false → ∀ s, step r s = none) (x : σ × Bool) :
    sweep step (rs.filter p) x = sweep step rs x := by
  induction rs generalizing x with
  | nil => rfl
  | cons r rs ih =>
      have hrest : ∀ q ∈ rs, p q = false → ∀ s, step q s = none :=
        fun q hq => h q (List.mem_cons_of_mem _ hq)
      cases hp : p r with
      | true =>
          rw [List.filter_cons_of_pos hp]
          unfold sweep
          cases step r x.1 with
          | none => exact ih hrest x
          | some s => exact ih hrest (s, true)
      | false =>
          rw [List.filter_cons_of_neg (by simp [hp])]
          conv_rhs => unfold sweep
          rw [h r List.mem_cons_self hp x.1]
          exact ih hrest x

/-- Neither does saturation. -/
theorem saturate_filter {p : ρ → Bool} (h : ∀ r ∈ rules, p r = false → ∀ s, step r s = none)
    (fuel : Nat) (s : σ) : saturate step (rules.filter p) fuel s = saturate step rules fuel s := by
  induction fuel generalizing s with
  | zero => rfl
  | succ fuel ih =>
      unfold saturate
      rw [sweep_filter h]
      split_ifs
      · exact ih _
      · rfl

/-- A sweep where no rule fires changes nothing. -/
private theorem sweep_of_quiet {rs : List ρ} {x : σ × Bool} (h : ∀ r ∈ rs, step r x.1 = none) :
    sweep step rs x = x := by
  induction rs with
  | nil => rfl
  | cons r rs ih =>
      unfold sweep
      rw [h r List.mem_cons_self]
      exact ih fun q hq => h q (List.mem_cons_of_mem _ hq)

/-- Fuel beyond what saturation needed makes no difference. -/
theorem saturate_add {fuel : Nat} {s : σ} (extra : Nat)
    (h : ∀ r ∈ rules, step r (saturate step rules fuel s) = none) :
    saturate step rules (fuel + extra) s = saturate step rules fuel s := by
  induction fuel generalizing s with
  | zero =>
      have hquiet : sweep step rules (s, false) = (s, false) := sweep_of_quiet h
      cases extra with
      | zero => rfl
      | succ extra =>
          rw [Nat.zero_add]
          unfold saturate
          rw [hquiet]
          rfl
  | succ fuel ih =>
      rw [Nat.add_right_comm]
      unfold saturate at h ⊢
      split_ifs at h ⊢ with hflag
      · exact ih h
      · rfl

end

end IrohBeekem.Library
