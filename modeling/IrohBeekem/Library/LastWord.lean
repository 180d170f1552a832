import Mathlib

/-!
# The last word in a log

Some elements of a log decide a question and the others say nothing about it; what
counts is the last one that decides.  Two logs of the same elements may order them
differently, as long as neither puts an element before one it depends on.

An element is *final* when it decides and nothing that depends on it does.
`lastWord_congr` says that where all final elements decide alike, the order of the log
makes no difference, and `exists_perm_lastWord` that any final element can be given the
last word, so that nothing less would do.
-/

namespace IrohBeekem.Library

variable {α β : Type}

/-- What the last element that decides has decided. -/
def lastWord (rules : α → Option β) (l : List α) : Option β := (l.filterMap rules).getLast?

@[simp] theorem lastWord_nil (rules : α → Option β) : lastWord rules [] = none := rfl

theorem lastWord_concat (rules : α → Option β) (l : List α) (a : α) :
    lastWord rules (l ++ [a]) = (rules a).or (lastWord rules l) := by
  unfold lastWord
  rw [List.filterMap_append]
  cases hrules : rules a with
  | none => simp [hrules]
  | some v => simp [hrules]

/-- No element of the log stands before one it depends on; `r a b` reads *b depends on a*. -/
def Respects (r : α → α → Prop) (l : List α) : Prop := l.Pairwise fun a b => ¬ r b a

/-- An element that decides, and that nothing else which decides depends on. -/
structure Final (r : α → α → Prop) (rules : α → Option β) (s : Set α) (a : α) : Prop where
  mem : a ∈ s
  speaks : (rules a).isSome
  last : ∀ b ∈ s, b ≠ a → (rules b).isSome → ¬ r a b

/-- All final elements decide alike. -/
def Unanimous (r : α → α → Prop) (rules : α → Option β) (s : Set α) : Prop :=
  ∀ a b, Final r rules s a → Final r rules s b → rules a = rules b

variable {r : α → α → Prop} {rules : α → Option β} {l l' : List α}

/-- Whoever has the last word in an ordered log is final. -/
theorem exists_final_of_lastWord {v : β} (hl : Respects r l) (h : lastWord rules l = some v) :
    ∃ a, Final r rules { x | x ∈ l } a ∧ rules a = some v := by
  induction l using List.reverseRecOn with
  | nil => simp at h
  | append_singleton l x ih =>
      rw [lastWord_concat] at h
      have hbefore : Respects r l := (List.pairwise_append.mp hl).1
      have hcross : ∀ a ∈ l, ¬ r x a := fun a ha =>
        (List.pairwise_append.mp hl).2.2 a ha x (List.mem_singleton_self x)
      cases hx : rules x with
      | some w =>
          rw [hx] at h
          refine ⟨x, ⟨by simp, by simp [hx], fun b hb hne _ => ?_⟩, by simpa [hx] using h⟩
          rcases List.mem_append.mp hb with hb | hb
          · exact hcross b hb
          · exact absurd (List.mem_singleton.mp hb) hne
      | none =>
          rw [hx, Option.none_or] at h
          obtain ⟨a, hfinal, hrules⟩ := ih hbefore h
          refine ⟨a, ⟨?_, hfinal.speaks, fun b hb hne hspeaks => ?_⟩, hrules⟩
          · exact List.mem_append_left [x] hfinal.mem
          · rcases List.mem_append.mp hb with hb | hb
            · exact hfinal.last b hb hne hspeaks
            · obtain rfl := List.mem_singleton.mp hb
              simp [hx] at hspeaks

theorem lastWord_eq_none_iff : lastWord rules l = none ↔ ∀ a ∈ l, rules a = none := by
  unfold lastWord
  rw [List.getLast?_eq_none_iff, List.filterMap_eq_nil_iff]

/-- Where all final elements decide alike, ordered logs of the same elements end alike. -/
theorem lastWord_congr (hl : Respects r l) (hl' : Respects r l') (hmem : ∀ x, x ∈ l ↔ x ∈ l')
    (h : Unanimous r rules { x | x ∈ l }) : lastWord rules l = lastWord rules l' := by
  have hset : { x | x ∈ l } = { x | x ∈ l' } := Set.ext hmem
  cases hword : lastWord rules l with
  | none =>
      rw [lastWord_eq_none_iff] at hword
      exact (lastWord_eq_none_iff.mpr fun a ha => hword a ((hmem a).mpr ha)).symm
  | some v =>
      obtain ⟨a, hfinal, ha⟩ := exists_final_of_lastWord hl hword
      cases hword' : lastWord rules l' with
      | none =>
          have hsilent := lastWord_eq_none_iff.mp hword' a ((hmem a).mp hfinal.mem)
          rw [ha] at hsilent
          exact absurd hsilent (by simp)
      | some v' =>
          obtain ⟨a', hfinal', ha'⟩ := exists_final_of_lastWord hl' hword'
          rw [← ha, ← ha']
          exact h a a' hfinal (hset ▸ hfinal')

open Classical in
/-- Any final element can be given the last word: hold it back with all that depends on
it. -/
theorem exists_perm_lastWord {a : α} (htrans : ∀ a b c, r a b → r b c → r a c)
    (hl : Respects r l) (h : Final r rules { x | x ∈ l } a) :
    ∃ l', l'.Perm l ∧ Respects r l' ∧ lastWord rules l' = rules a := by
  let late : α → Bool := fun x => decide (x = a ∨ r a x)
  have hearly : ∀ x ∈ l.filter fun x => !late x, ¬ (x = a ∨ r a x) := by
    intro x hx
    simpa [late] using (List.mem_filter.mp hx).2
  have hlate : ∀ x ∈ l.filter late, x = a ∨ r a x := by
    intro x hx
    simpa [late] using (List.mem_filter.mp hx).2
  refine ⟨l.filter (fun x => !late x) ++ l.filter late, ?_, ?_, ?_⟩
  · exact List.perm_append_comm.trans (List.filter_append_perm late l)
  · refine List.pairwise_append.mpr ⟨hl.filter _, hl.filter _, fun x hx y hy hyx => ?_⟩
    apply hearly x hx
    rcases hlate y hy with rfl | hay
    · exact Or.inr hyx
    · exact Or.inr (htrans a y x hay hyx)
  · have hsaid : ∀ v ∈ (l.filter late).filterMap rules, some v = rules a := by
      intro v hv
      obtain ⟨x, hx, hrules⟩ := List.mem_filterMap.mp hv
      by_cases hxa : x = a
      · rw [← hxa, hrules]
      · have hax := (hlate x hx).resolve_left hxa
        exact absurd hax (h.last x (List.mem_of_mem_filter hx) hxa (by simp [hrules]))
    have hmem : a ∈ l.filter late := List.mem_filter.mpr ⟨h.mem, by simp [late]⟩
    obtain ⟨v, hv⟩ := Option.isSome_iff_exists.mp h.speaks
    have hne : (l.filter late).filterMap rules ≠ [] := by
      apply List.ne_nil_of_mem
      exact List.mem_filterMap.mpr ⟨a, hmem, hv⟩
    unfold lastWord
    rw [List.filterMap_append, List.getLast?_append_of_ne_nil _ hne,
      List.getLast?_eq_some_getLast hne]
    exact hsaid _ (List.getLast_mem hne)

end IrohBeekem.Library
