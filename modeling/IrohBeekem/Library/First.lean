import IrohBeekem.Library.Keyed

/-!
# The first of several entries

A reader that takes the first entry of an ordered collection reads the one with the least
key, so entries that come in under larger keys make no difference to it, however many they
are (`Keyed.first?_insertAll`).

A caller that adds an entry to a collection which others add to as well can learn the
entry's key by reading the keys before and after, and taking the first that is new.
That recognises the caller's own entry exactly when nothing else came in with a smaller
key (`firstNew_recognises`).
-/

namespace IrohBeekem.Library

variable {κ ν : Type} [LinearOrder κ] {key : ν → κ}

/-! ## The first entry -/

namespace Keyed

/-- The value with the least key. -/
def first? (m : Keyed key) : Option ν := m.toList.head?

theorem first?_eq_some {m : Keyed key} {v : ν} :
    m.first? = some v ↔ v ∈ m ∧ ∀ w ∈ m, key v ≤ key w := by
  obtain ⟨l, hl⟩ := m
  change l.head? = some v ↔ v ∈ l ∧ ∀ w ∈ l, key v ≤ key w
  cases l with
  | nil => simp
  | cons x rest =>
      obtain ⟨hx, -⟩ := List.pairwise_cons.mp hl
      rw [List.head?_cons, Option.some.injEq]
      constructor
      · rintro rfl
        refine ⟨List.mem_cons_self, fun w hw => ?_⟩
        rcases List.mem_cons.mp hw with rfl | hw
        · exact le_refl _
        · exact (hx w hw).le
      · rintro ⟨hv, hleast⟩
        rcases List.mem_cons.mp hv with rfl | hv
        · rfl
        · exact absurd (hleast x List.mem_cons_self) (not_le.mpr (hx v hv))

theorem exists_first? {m : Keyed key} {v : ν} (h : v ∈ m) : ∃ w, m.first? = some w := by
  obtain ⟨l, hl⟩ := m
  cases l with
  | nil => exact absurd h List.not_mem_nil
  | cons x rest => exact ⟨x, rfl⟩

/-- An entry under a larger key does not become the first. -/
theorem first?_insert {m : Keyed key} {v w : ν} (h : m.first? = some v) (hlt : key v < key w) :
    (m.insert w).first? = some v := by
  obtain ⟨hv, hleast⟩ := first?_eq_some.mp h
  refine first?_eq_some.mpr ⟨mem_insert.mpr (Or.inr ⟨hv, hlt.ne⟩), fun x hx => ?_⟩
  rcases mem_insert.mp hx with rfl | ⟨hx, -⟩
  · exact hlt.le
  · exact hleast x hx

/-- Nor do any number of them. -/
theorem first?_insertAll {m : Keyed key} {v : ν} {added : List ν} (h : m.first? = some v)
    (hlt : ∀ w ∈ added, key v < key w) : (added.foldl insert m).first? = some v := by
  induction added generalizing m with
  | nil => exact h
  | cons w rest ih =>
      exact ih (first?_insert h (hlt w List.mem_cons_self))
        fun x hx => hlt x (List.mem_cons_of_mem _ hx)

end Keyed

/-! ## Recognising one's own entry -/

/-- The first key of a collection that is not among those read before. -/
def firstNew (before : List κ) (m : Keyed key) : Option κ :=
  (m.filter fun v => key v ∉ before).first?.map key

theorem firstNew_eq_some {before : List κ} {m : Keyed key} {k : κ} :
    firstNew before m = some k ↔
      (∃ v ∈ m, key v = k) ∧ k ∉ before ∧ ∀ v ∈ m, key v ∉ before → k ≤ key v := by
  simp only [firstNew, Option.map_eq_some_iff, Keyed.first?_eq_some, Keyed.mem_filter,
    decide_eq_true_eq]
  constructor
  · rintro ⟨v, ⟨⟨hv, hnew⟩, hleast⟩, rfl⟩
    exact ⟨⟨v, hv, rfl⟩, hnew, fun w hw hwnew => hleast w ⟨hw, hwnew⟩⟩
  · rintro ⟨⟨v, hv, rfl⟩, hnew, hleast⟩
    exact ⟨v, ⟨⟨hv, hnew⟩, fun w hw => hleast w hw.1 hw.2⟩, rfl⟩

theorem exists_firstNew {before : List κ} {m : Keyed key} {v : ν} (hv : v ∈ m)
    (hnew : key v ∉ before) : ∃ k, firstNew before m = some k := by
  obtain ⟨w, hw⟩ := Keyed.exists_first?
    (Keyed.mem_filter.mpr ⟨hv, decide_eq_true hnew⟩ : v ∈ m.filter fun v => key v ∉ before)
  exact ⟨key w, Option.map_eq_some_iff.mpr ⟨w, hw, rfl⟩⟩

/-- The first new key is that of one's own entry, whenever there is one, if and only if every
other new entry has a larger key and one's own key was not taken before. -/
theorem firstNew_recognises {before : List κ} {m : Keyed key} {own : ν}
    (htaken : ∃ w ∈ m, key w = key own) :
    (∀ k, firstNew before m = some k → own ∈ m ∧ key own = k) ↔
      ∀ x ∈ m, key x ∉ before → x ≠ own → key own ∉ before ∧ key own < key x := by
  constructor
  · intro hown x hx hnew hne
    obtain ⟨k, hk⟩ := exists_firstNew hx hnew
    obtain ⟨hmem, rfl⟩ := hown k hk
    obtain ⟨-, hbefore, hleast⟩ := firstNew_eq_some.mp hk
    refine ⟨hbefore, lt_of_le_of_ne (hleast x hx hnew) fun hkey => ?_⟩
    exact hne (Keyed.eq_of_key_eq hx hmem hkey.symm)
  · intro hclear k hk
    obtain ⟨⟨v, hv, rfl⟩, hnew, hleast⟩ := firstNew_eq_some.mp hk
    by_cases hvown : v = own
    · exact hvown ▸ ⟨hv, rfl⟩
    · obtain ⟨hbefore, hlt⟩ := hclear v hv hnew hvown
      obtain ⟨w, hw, hkey⟩ := htaken
      have hle : key v ≤ key w := hleast w hw (hkey ▸ hbefore)
      exact absurd (hkey ▸ hle) (not_le.mpr hlt)

end IrohBeekem.Library
