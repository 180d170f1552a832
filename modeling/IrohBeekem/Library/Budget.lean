import Mathlib

/-!
# A queue on a budget

A queue may hold so many entries and so much weight.  To make room for a new entry the
oldest ones go, one after the other, while what is left is still too many or too heavy
together with it; an entry that is too heavy by itself is let in once nothing else is
there.  `Within.admitted` says what that leaves, and `Within.of_sublist` that whoever only
takes entries out stays within the budget.
-/

namespace IrohBeekem.Library

variable {α β : Type}

/-- How many entries a queue may hold, and how much they may weigh. -/
structure Budget where
  count : Nat
  weight : Nat

/-- What the entries weigh together. -/
def load (size : α → Nat) (l : List α) : Nat := (l.map size).sum

@[simp] theorem load_nil (size : α → Nat) : load size [] = 0 := rfl

@[simp] theorem load_cons (size : α → Nat) (a : α) (l : List α) :
    load size (a :: l) = size a + load size l := by simp [load]

@[simp] theorem load_append (size : α → Nat) (l l' : List α) :
    load size (l ++ l') = load size l + load size l' := by simp [load]

theorem load_filter_add (size : α → Nat) (keep : α → Bool) (l : List α) :
    load size (l.filter keep) + load size (l.filter fun a => ¬ keep a) = load size l := by
  induction l with
  | nil => rfl
  | cons a l ih =>
      cases hkeep : keep a with
      | true =>
          simp only [List.filter_cons, hkeep, if_true, not_true, decide_false,
            Bool.false_eq_true, if_false, load_cons] at ih ⊢
          omega
      | false =>
          simp only [List.filter_cons, hkeep, Bool.false_eq_true, not_false_eq_true, decide_true,
            if_true, if_false, load_cons] at ih ⊢
          omega

/-- The queue keeps to the budget, or holds one entry and nothing else. -/
structure Within (b : Budget) (size : α → Nat) (l : List α) : Prop where
  count : l.length ≤ b.count
  weight : load size l ≤ b.weight ∨ l.length = 1

theorem Within.nil (b : Budget) (size : α → Nat) : Within b size [] :=
  ⟨Nat.zero_le _, Or.inl (Nat.zero_le _)⟩

theorem load_le_of_sublist {size : α → Nat} {size' : β → Nat} {l : List α} {l' : List β}
    (h : (l'.map size').Sublist (l.map size)) : load size' l' ≤ load size l :=
  h.sum_le_sum fun _ _ => Nat.zero_le _

/-- Taking entries out keeps to the budget. -/
theorem Within.of_sublist {b : Budget} {size : α → Nat} {size' : β → Nat} {l : List α}
    {l' : List β} (hl : Within b size l) (h : (l'.map size').Sublist (l.map size)) :
    Within b size' l' := by
  have hlength : l'.length ≤ l.length := by simpa using h.length_le
  refine ⟨hlength.trans hl.count, ?_⟩
  rcases hl.weight with hlight | hone
  · exact Or.inl ((load_le_of_sublist h).trans hlight)
  · cases l' with
    | nil => exact Or.inl (Nat.zero_le _)
    | cons a rest =>
        right
        rw [List.length_cons] at hlength ⊢
        omega

/-! ## Making room -/

/-- The oldest entries, as far as they have to go for one of this size. -/
def displaced (b : Budget) (size : α → Nat) (n : Nat) : List α → List α
  | [] => []
  | a :: rest =>
      if b.count ≤ (a :: rest).length ∨ b.weight < load size (a :: rest) + n then
        a :: displaced b size n rest
      else []

/-- The entries that stay. -/
def retained (b : Budget) (size : α → Nat) (n : Nat) (l : List α) : List α :=
  l.drop (displaced b size n l).length

theorem retained_cons (b : Budget) (size : α → Nat) (n : Nat) (a : α) (rest : List α) :
    retained b size n (a :: rest) =
      if b.count ≤ (a :: rest).length ∨ b.weight < load size (a :: rest) + n then
        retained b size n rest
      else a :: rest := by
  unfold retained
  rw [displaced]
  split_ifs
  · rfl
  · rfl

theorem displaced_append_retained (b : Budget) (size : α → Nat) (n : Nat) (l : List α) :
    displaced b size n l ++ retained b size n l = l := by
  induction l with
  | nil => rfl
  | cons a rest ih =>
      rw [retained_cons, displaced]
      split_ifs
      · rw [List.cons_append, ih]
      · rfl

/-- What stays leaves room, or is nothing. -/
theorem retained_room (b : Budget) (size : α → Nat) (n : Nat) (l : List α) :
    retained b size n l = [] ∨ (retained b size n l).length < b.count ∧
      load size (retained b size n l) + n ≤ b.weight := by
  induction l with
  | nil => exact Or.inl rfl
  | cons a rest ih =>
      rw [retained_cons]
      split_ifs with hover
      · exact ih
      · rw [not_or, not_le, not_lt] at hover
        exact Or.inr hover

theorem Within.admitted {b : Budget} {size : α → Nat} (hb : 0 < b.count) (l : List α) (a : α) :
    Within b size (retained b size (size a) l ++ [a]) := by
  rcases retained_room b size (size a) l with hnone | ⟨hcount, hweight⟩
  · rw [hnone]
    exact ⟨hb, Or.inr rfl⟩
  · refine ⟨?_, Or.inl ?_⟩
    · rw [List.length_append, List.length_singleton]
      exact hcount
    · rw [load_append]
      simpa using hweight

end IrohBeekem.Library
