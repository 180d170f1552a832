import Mathlib.Init

/-!
# Traces

A machine whose steps are labelled with what is seen of them, and the labels of its runs.
Where every step of one machine is matched by a step of another with the same label, every
trace of the one is a trace of the other (`Trace.simulate`).
-/

namespace IrohBeekem.Library

variable {σ τ ℓ : Type}

/-- The run from one state to another on which these labels are seen. -/
inductive Trace (step : σ → ℓ → σ → Prop) : σ → List ℓ → σ → Prop where
  | nil {s : σ} : Trace step s [] s
  | cons {s s₁ s' : σ} {label : ℓ} {labels : List ℓ} (hstep : step s label s₁)
      (hrest : Trace step s₁ labels s') : Trace step s (label :: labels) s'

namespace Trace

variable {step : σ → ℓ → σ → Prop} {step' : τ → ℓ → τ → Prop} {s s' : σ} {labels : List ℓ}

/-- Every step is matched, and so is every run. -/
theorem simulate {R : σ → τ → Prop} (hstep : ∀ s t label s₁, R s t → step s label s₁ →
      ∃ t₁, step' t label t₁ ∧ R s₁ t₁)
    (h : Trace step s labels s') {t : τ} (ht : R s t) :
    ∃ t', Trace step' t labels t' ∧ R s' t' := by
  induction h generalizing t with
  | nil => exact ⟨t, .nil, ht⟩
  | cons hhead _ ih =>
      obtain ⟨t₁, htaken, ht₁⟩ := hstep _ _ _ _ ht hhead
      obtain ⟨t', hrest, ht'⟩ := ih ht₁
      exact ⟨t', .cons htaken hrest, ht'⟩

/-- What the steps with these labels keep holds at the end. -/
theorem invariant {P : σ → Prop} {ok : ℓ → Prop}
    (hstep : ∀ s label s₁, ok label → P s → step s label s₁ → P s₁)
    (h : Trace step s labels s') (hok : ∀ label ∈ labels, ok label) (hs : P s) : P s' := by
  induction h with
  | nil => exact hs
  | cons hhead _ ih =>
      exact ih (fun label hmem => hok label (List.mem_cons_of_mem _ hmem))
        (hstep _ _ _ (hok _ List.mem_cons_self) hs hhead)

/-- Where what the steps keep rules a label out, no such label is seen. -/
theorem never {P : σ → Prop} {ok bad : ℓ → Prop}
    (hstep : ∀ s label s₁, ok label → P s → step s label s₁ → ¬ bad label ∧ P s₁)
    (h : Trace step s labels s') (hok : ∀ label ∈ labels, ok label) (hs : P s) :
    ∀ label ∈ labels, ¬ bad label := by
  induction h with
  | nil => exact fun _ hmem => absurd hmem List.not_mem_nil
  | cons hhead _ ih =>
      obtain ⟨hgood, hs₁⟩ := hstep _ _ _ (hok _ List.mem_cons_self) hs hhead
      intro label hmem
      rcases List.mem_cons.mp hmem with rfl | hlater
      · exact hgood
      · exact ih (fun label hmem => hok label (List.mem_cons_of_mem _ hmem)) hs₁ label hlater

/-- One run after another. -/
theorem append {s₁ : σ} {before after : List ℓ} (h : Trace step s before s₁)
    (h' : Trace step s₁ after s') : Trace step s (before ++ after) s' := by
  induction h with
  | nil => exact h'
  | cons hhead _ ih => exact .cons hhead (ih h')

/-- A run goes through a state between two parts of its trace. -/
theorem split {before after : List ℓ} (h : Trace step s (before ++ after) s') :
    ∃ s₁, Trace step s before s₁ ∧ Trace step s₁ after s' := by
  induction before generalizing s with
  | nil => exact ⟨s, .nil, h⟩
  | cons label before ih =>
      cases h with
      | cons hhead hrest =>
          obtain ⟨s₁, hbefore, hafter⟩ := ih hrest
          exact ⟨s₁, .cons hhead hbefore, hafter⟩

end Trace

end IrohBeekem.Library
