import Mathlib

/-!
# Fixed-width segments

A list is cut into segments of one width, the last of them filled up.  Joined again they
are the list and the filling, and what a length read off the joined segments selects is
what trimming each of them to its own share of that length gives.
-/

namespace IrohBeekem.Library

variable {α : Type*}

/-- A list filled up to a width. -/
def padTo (fill : α) (width : Nat) (xs : List α) : List α :=
  xs ++ List.replicate (width - xs.length) fill

/-- The first `n` segments of a list, each filled up to the width. -/
def segmented (fill : α) (width : Nat) : Nat → List α → List (List α)
  | 0, _ => []
  | n + 1, xs => padTo fill width (xs.take width) :: segmented fill width n (xs.drop width)

/-- Segments, each trimmed to its share of a total length. -/
def trimmed (width : Nat) : Nat → List (List α) → List (List α)
  | _, [] => []
  | total, piece :: pieces =>
      piece.take (min total width) :: trimmed width (total - width) pieces

theorem padTo_length {fill : α} {width : Nat} {xs : List α} (h : xs.length ≤ width) :
    (padTo fill width xs).length = width := by
  rw [padTo, List.length_append, List.length_replicate]
  omega

/-- A list that is as long as the width needs no filling. -/
theorem padTo_of_length {fill : α} {width : Nat} {xs : List α} (h : xs.length = width) :
    padTo fill width xs = xs := by
  simp [padTo, h]

/-- A prefix of a filled list that is as long as the list is the list. -/
theorem padTo_take {fill : α} {width : Nat} (xs : List α) :
    (padTo fill width xs).take xs.length = xs := by
  simp [padTo]

theorem segmented_length (fill : α) (width n : Nat) (xs : List α) :
    (segmented fill width n xs).length = n := by
  induction n generalizing xs with
  | zero => rfl
  | succ n ih => rw [segmented, List.length_cons, ih]

theorem length_of_mem_segmented {fill : α} {width n : Nat} {xs piece : List α}
    (h : piece ∈ segmented fill width n xs) : piece.length = width := by
  induction n generalizing xs with
  | zero => exact absurd h List.not_mem_nil
  | succ n ih =>
      obtain rfl | h := List.mem_cons.mp h
      · exact padTo_length (List.length_take_le width xs)
      · exact ih h

/-- Segment `i` is what the list holds from the place it starts at, filled up. -/
theorem segmented_getElem? (fill : α) (width : Nat) {n i : Nat} (xs : List α) (hi : i < n) :
    (segmented fill width n xs)[i]? = some (padTo fill width ((xs.drop (i * width)).take width)) := by
  induction n generalizing xs i with
  | zero => exact absurd hi (Nat.not_lt_zero i)
  | succ n ih =>
      cases i with
      | zero => simp [segmented]
      | succ i =>
          have hplace := ih (xs.drop width) (Nat.lt_of_succ_lt_succ hi)
          rw [List.drop_drop, Nat.add_comm width, ← Nat.succ_mul] at hplace
          simpa [segmented] using hplace

/-- Joined again, the segments are the list and the filling. -/
theorem flatten_segmented (fill : α) {width n : Nat} {xs : List α} (h : xs.length ≤ n * width) :
    (segmented fill width n xs).flatten = padTo fill (n * width) xs := by
  induction n generalizing xs with
  | zero =>
      have hnil : xs = [] := List.length_eq_zero_iff.mp (by omega)
      simp [segmented, padTo, hnil]
  | succ n ih =>
      have hrest : (xs.drop width).length ≤ n * width := by
        rw [List.length_drop]
        rw [Nat.succ_mul] at h
        omega
      rw [segmented, List.flatten_cons, ih hrest]
      obtain hfull | hshort := Nat.le_total width xs.length
      · have hwhole : (xs.take width).length = width := by
          rw [List.length_take, Nat.min_eq_left hfull]
        have hfill : n * width - (xs.length - width) = (n + 1) * width - xs.length := by
          rw [Nat.succ_mul]
          omega
        rw [padTo_of_length hwhole, padTo, padTo, ← List.append_assoc, List.take_append_drop,
          List.length_drop, hfill]
      · have htake : xs.take width = xs := List.take_of_length_le hshort
        have hdrop : xs.drop width = [] := List.drop_of_length_le hshort
        have hfill : width - xs.length + n * width = (n + 1) * width - xs.length := by
          rw [Nat.succ_mul]
          omega
        simp only [htake, hdrop, padTo, List.nil_append, List.length_nil, Nat.sub_zero,
          List.append_assoc, List.replicate_append_replicate, hfill]

/-- Trimming each segment to its share selects what the total length selects. -/
theorem flatten_trimmed {width : Nat} (total : Nat) {pieces : List (List α)}
    (h : ∀ piece ∈ pieces, piece.length = width) :
    (trimmed width total pieces).flatten = pieces.flatten.take total := by
  induction pieces generalizing total with
  | nil => simp [trimmed]
  | cons piece pieces ih =>
      have hpiece := h piece (List.mem_cons_self ..)
      have hpieces := ih (total - width) fun p hp => h p (List.mem_cons_of_mem _ hp)
      have hshare : piece.take (min total width) = piece.take total := by
        rw [List.take_eq_take_iff]
        omega
      rw [trimmed, List.flatten_cons, List.flatten_cons, hpieces, hshare, List.take_append, hpiece]

end IrohBeekem.Library
