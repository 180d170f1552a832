import Mathlib.Data.List.Infix

/-!
# Entries under keys with prefixes

A table with a row for each author, who alone writes in it.  A key is a list, and both ways
to write go by prefixes: `put` takes the place of whatever its author had under keys that
begin like the one written, and `clear` withdraws whatever its author has under keys that
begin like a given range.

Between keys of one length a prefix is an equality, so `put` is an update at one place
(`put_apply`).  A series of `clear`s withdraws what some range of it covers (`clearAll_apply`).
-/

namespace IrohBeekem.Library

/-- What each author has under each key. -/
abbrev Entries (A α β : Type) := A → List α → Option β

namespace Entries

variable {A α β : Type} [DecidableEq A] [DecidableEq α]
variable {author other : A} {key k : List α} {value : β} {e : Entries A α β}

/-- An author writes under a key. -/
def put (author : A) (key : List α) (value : β) (e : Entries A α β) : Entries A α β :=
  fun other k =>
    if other = author ∧ key <+: k then (if k = key then some value else none) else e other k

/-- An author withdraws a range of keys. -/
def clear (author : A) (range : List α) (e : Entries A α β) : Entries A α β :=
  fun other k => if other = author ∧ range <+: k then none else e other k

/-- An author withdraws some ranges, one after another. -/
def clearAll (author : A) (ranges : List (List α)) (e : Entries A α β) : Entries A α β :=
  ranges.foldl (fun e range => clear author range e) e

omit [DecidableEq α] in
theorem prefix_iff_eq (h : k.length = key.length) : key <+: k ↔ k = key :=
  ⟨fun hstarts => (hstarts.eq_of_length h.symm).symm, fun heq => heq ▸ List.prefix_refl _⟩

/-- Among keys of one length, a write shows at its own key only. -/
theorem put_apply (h : k.length = key.length) :
    put author key value e other k =
      if other = author ∧ k = key then some value else e other k := by
  have hprefix := prefix_iff_eq h
  unfold put
  by_cases hhere : other = author ∧ k = key
  · rw [if_pos ⟨hhere.1, hprefix.mpr hhere.2⟩, if_pos hhere, if_pos hhere.2]
  · rw [if_neg fun hcovered => hhere ⟨hcovered.1, hprefix.mp hcovered.2⟩, if_neg hhere]

theorem clear_apply :
    clear author key e other k = if other = author ∧ key <+: k then none else e other k := rfl

@[simp] theorem clearAll_nil : clearAll author [] e = e := rfl

theorem clearAll_cons {ranges : List (List α)} :
    clearAll author (key :: ranges) e = clearAll author ranges (clear author key e) := rfl

/-- What no range covers stays, and the rest goes. -/
theorem clearAll_apply (ranges : List (List α)) (e : Entries A α β) :
    clearAll author ranges e other k =
      if other = author ∧ ∃ range ∈ ranges, range <+: k then none else e other k := by
  induction ranges generalizing e with
  | nil => simp
  | cons range ranges ih =>
      rw [clearAll_cons, ih, clear_apply]
      by_cases hother : other = author
      · by_cases hrange : range <+: k
        · simp [hother, hrange]
        · simp [hother, hrange]
      · simp [hother]

end Entries

end IrohBeekem.Library
