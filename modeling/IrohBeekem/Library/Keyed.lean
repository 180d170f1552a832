import Mathlib

/-!
# Ordered collections keyed by a projection

`Keyed key` is a finite collection of values in which no two values share a
key, held in ascending key order.  One type covers the three ordered
collections a program usually needs:

* an ordered map is `Keyed Prod.fst`, a collection of entries;
* an ordered set is `Keyed id`;
* a content-addressed store is `Keyed digest`, where the key of a value is
  computed from the value and never recorded beside it.

The order is part of the representation, so two collections with the same
members are equal (`Keyed.ext_mem`) and an iteration over one is a function of
the set of its members alone.
-/

namespace IrohBeekem.Library

variable {κ ν : Type} [LinearOrder κ]

/-- A collection of values in strictly ascending key order. -/
structure Keyed (key : ν → κ) where
  toList : List ν
  ascending : toList.Pairwise fun a b => key a < key b

/-- Insertion into an ascending list, replacing a value with the same key. -/
def place (key : ν → κ) (v : ν) : List ν → List ν
  | [] => [v]
  | x :: rest =>
      if key v < key x then v :: x :: rest
      else if key v = key x then v :: rest
      else x :: place key v rest

/-- Membership after a placement, on an ascending list. -/
private theorem mem_place {key : ν → κ} {v a : ν} {l : List ν}
    (hl : l.Pairwise fun a b => key a < key b) :
    a ∈ place key v l ↔ a = v ∨ (a ∈ l ∧ key a ≠ key v) := by
  induction l with
  | nil => simp [place]
  | cons x rest ih =>
      obtain ⟨hx, hrest⟩ := List.pairwise_cons.mp hl
      unfold place
      split_ifs with hlt heq
      · have hne : ∀ b ∈ x :: rest, key b ≠ key v := by
          intro b hb
          rcases List.mem_cons.mp hb with rfl | hb
          · exact hlt.ne'
          · exact (hlt.trans (hx b hb)).ne'
        constructor
        · intro h
          rcases List.mem_cons.mp h with rfl | h
          · exact Or.inl rfl
          · exact Or.inr ⟨h, hne a h⟩
        · rintro (rfl | ⟨h, -⟩)
          · exact List.mem_cons_self
          · exact List.mem_cons_of_mem _ h
      · have hne : ∀ b ∈ rest, key b ≠ key v := by
          intro b hb
          rw [heq]
          exact (hx b hb).ne'
        constructor
        · intro h
          rcases List.mem_cons.mp h with rfl | h
          · exact Or.inl rfl
          · exact Or.inr ⟨List.mem_cons_of_mem _ h, hne a h⟩
        · rintro (rfl | ⟨h, hk⟩)
          · exact List.mem_cons_self
          · rcases List.mem_cons.mp h with rfl | h
            · exact absurd heq.symm hk
            · exact List.mem_cons_of_mem _ h
      · rw [List.mem_cons, ih hrest, List.mem_cons]
        constructor
        · rintro (rfl | rfl | ⟨h, hk⟩)
          · exact Or.inr ⟨Or.inl rfl, fun h => heq h.symm⟩
          · exact Or.inl rfl
          · exact Or.inr ⟨Or.inr h, hk⟩
        · rintro (rfl | ⟨rfl | h, hk⟩)
          · exact Or.inr (Or.inl rfl)
          · exact Or.inl rfl
          · exact Or.inr (Or.inr ⟨h, hk⟩)

private theorem place_ascending {key : ν → κ} {v : ν} {l : List ν}
    (hl : l.Pairwise fun a b => key a < key b) :
    (place key v l).Pairwise fun a b => key a < key b := by
  induction l with
  | nil => simp [place]
  | cons x rest ih =>
      obtain ⟨hx, hrest⟩ := List.pairwise_cons.mp hl
      unfold place
      split_ifs with hlt heq
      · refine List.pairwise_cons.mpr ⟨fun b hb => ?_, hl⟩
        rcases List.mem_cons.mp hb with rfl | hb
        · exact hlt
        · exact hlt.trans (hx b hb)
      · refine List.pairwise_cons.mpr ⟨fun b hb => ?_, hrest⟩
        rw [heq]
        exact hx b hb
      · refine List.pairwise_cons.mpr ⟨fun b hb => ?_, ih hrest⟩
        rcases (mem_place hrest).mp hb with rfl | ⟨hb, -⟩
        · exact lt_of_le_of_ne (not_lt.mp hlt) (fun h => heq h.symm)
        · exact hx b hb

namespace Keyed

variable {key : ν → κ}

instance : Membership ν (Keyed key) := ⟨fun m a => a ∈ m.toList⟩

instance [DecidableEq ν] : DecidableEq (Keyed key) := fun a b =>
  decidable_of_iff (a.toList = b.toList) (by cases a; cases b; simp)

instance [DecidableEq ν] (a : ν) (m : Keyed key) : Decidable (a ∈ m) :=
  inferInstanceAs (Decidable (a ∈ m.toList))

instance (m : Keyed key) (p : ν → Prop) [DecidablePred p] : Decidable (∀ a ∈ m, p a) :=
  inferInstanceAs (Decidable (∀ a ∈ m.toList, p a))

instance (m : Keyed key) (p : ν → Prop) [DecidablePred p] : Decidable (∃ a ∈ m, p a) :=
  inferInstanceAs (Decidable (∃ a ∈ m.toList, p a))

theorem mem_def {m : Keyed key} {a : ν} : a ∈ m ↔ a ∈ m.toList := Iff.rfl

/-- The collection with no values. -/
def empty : Keyed key := ⟨[], List.Pairwise.nil⟩

/-- Add a value, replacing the one that held its key. -/
def insert (m : Keyed key) (v : ν) : Keyed key :=
  ⟨place key v m.toList, place_ascending m.ascending⟩

/-- The value holding a key. -/
def find? (m : Keyed key) (k : κ) : Option ν := m.toList.find? fun v => key v = k

/-- Whether some value holds a key. -/
def contains (m : Keyed key) (k : κ) : Bool := m.toList.any fun v => key v = k

/-- How many values there are. -/
def size (m : Keyed key) : Nat := m.toList.length

@[simp] theorem not_mem_empty (a : ν) : ¬ a ∈ (empty : Keyed key) :=
  List.not_mem_nil

@[simp] theorem mem_insert {m : Keyed key} {v a : ν} :
    a ∈ m.insert v ↔ a = v ∨ (a ∈ m ∧ key a ≠ key v) :=
  mem_place m.ascending

/-- A key is held by at most one value. -/
theorem eq_of_key_eq {m : Keyed key} {a b : ν} (ha : a ∈ m) (hb : b ∈ m)
    (h : key a = key b) : a = b := by
  obtain ⟨l, hl⟩ := m
  change a ∈ l at ha
  change b ∈ l at hb
  induction l with
  | nil => exact absurd ha List.not_mem_nil
  | cons x rest ih =>
      obtain ⟨hx, hrest⟩ := List.pairwise_cons.mp hl
      rcases List.mem_cons.mp ha with hax | hax
      · rcases List.mem_cons.mp hb with hbx | hbx
        · rw [hax, hbx]
        · exact absurd (hax ▸ h) (hx b hbx).ne
      · rcases List.mem_cons.mp hb with hbx | hbx
        · exact absurd (hbx ▸ h) (hx a hax).ne'
        · exact ih hrest hax hbx

theorem find?_eq_some {m : Keyed key} {k : κ} {v : ν} :
    m.find? k = some v ↔ v ∈ m ∧ key v = k := by
  constructor
  · intro h
    exact ⟨List.mem_of_find?_eq_some h, by simpa using List.find?_some h⟩
  · rintro ⟨hv, rfl⟩
    cases h : m.find? (key v) with
    | none =>
        have := List.find?_eq_none.mp h v hv
        simp at this
    | some w =>
        have hw : w ∈ m := List.mem_of_find?_eq_some h
        have hk : key w = key v := by simpa using List.find?_some h
        rw [eq_of_key_eq hw hv hk]

theorem find?_eq_none {m : Keyed key} {k : κ} :
    m.find? k = none ↔ ∀ v ∈ m, key v ≠ k := by
  simp [find?, mem_def]

theorem contains_iff {m : Keyed key} {k : κ} :
    m.contains k = true ↔ ∃ v ∈ m, key v = k := by
  simp [contains, mem_def]

theorem contains_eq_isSome {m : Keyed key} {k : κ} :
    m.contains k = (m.find? k).isSome := by
  rw [Bool.eq_iff_iff, contains_iff]
  cases h : m.find? k with
  | none => simpa using find?_eq_none.mp h
  | some v => simpa using ⟨v, find?_eq_some.mp h⟩

/-- Collections with the same members are equal. -/
theorem ext_mem {m m' : Keyed key} (h : ∀ a, a ∈ m ↔ a ∈ m') : m = m' := by
  obtain ⟨l, hl⟩ := m
  obtain ⟨l', hl'⟩ := m'
  have hasymm : ∀ a b, a ∈ l → b ∈ l' → key a < key b → key b < key a → a = b :=
    fun a b _ _ hab hba => absurd hab hba.asymm
  have hnodup : l.Nodup := hl.imp fun {a b} hab heq => by
    subst heq
    exact lt_irrefl _ hab
  have hnodup' : l'.Nodup := hl'.imp fun {a b} hab heq => by
    subst heq
    exact lt_irrefl _ hab
  have hperm : l.Perm l' := (List.perm_ext_iff_of_nodup hnodup hnodup').mpr h
  obtain rfl := hperm.eq_of_pairwise hasymm hl hl'
  rfl

/-- Sorting by a key gives the one list of these values whose keys ascend. -/
theorem mergeSort_eq_of_perm {l l' : List ν} (h : l.Perm l')
    (hl' : l'.Pairwise fun a b => key a < key b) :
    (l.mergeSort fun a b => key a ≤ key b) = l' := by
  have htrans : ∀ a b c : ν, decide (key a ≤ key b) = true → decide (key b ≤ key c) = true →
      decide (key a ≤ key c) = true := by
    intro a b c hab hbc
    simpa using (of_decide_eq_true hab).trans (of_decide_eq_true hbc)
  have htotal : ∀ a b : ν, (decide (key a ≤ key b) || decide (key b ≤ key a)) = true := by
    intro a b
    simpa using le_total (key a) (key b)
  have hsorted := List.pairwise_mergeSort htrans htotal l
  have hperm := (List.mergeSort_perm l fun a b => decide (key a ≤ key b)).trans h
  let m : Keyed key := ⟨l', hl'⟩
  refine hperm.eq_of_pairwise (fun a b ha hb hab hba => ?_) hsorted
    (hl'.imp fun hlt => decide_eq_true hlt.le)
  have hkeys := le_antisymm (of_decide_eq_true hab) (of_decide_eq_true hba)
  exact m.eq_of_key_eq (hperm.mem_iff.mp ha) hb hkeys

/-- Adding a value under a free key makes the collection one larger. -/
theorem size_insert_of_free {m : Keyed key} {v : ν} (h : m.contains (key v) = false) :
    (m.insert v).size = m.size + 1 := by
  obtain ⟨l, hl⟩ := m
  have hfree : ∀ x ∈ l, key x ≠ key v := by
    intro x hx heq
    have : contains (⟨l, hl⟩ : Keyed key) (key v) = true := contains_iff.mpr ⟨x, hx, heq⟩
    rw [h] at this
    exact Bool.false_ne_true this
  clear h
  change (place key v l).length = l.length + 1
  induction l with
  | nil => rfl
  | cons x rest ih =>
      unfold place
      split_ifs with hlt heq
      · rfl
      · exact absurd heq.symm (hfree x List.mem_cons_self)
      · rw [List.length_cons, List.length_cons,
          ih (List.pairwise_cons.mp hl).2 fun y hy => hfree y (List.mem_cons_of_mem _ hy)]

/-- The values that pass a test, in the same order. -/
def filter (m : Keyed key) (p : ν → Bool) : Keyed key :=
  ⟨m.toList.filter p, m.ascending.filter p⟩

@[simp] theorem mem_filter {m : Keyed key} {p : ν → Bool} {a : ν} :
    a ∈ m.filter p ↔ a ∈ m ∧ p a = true :=
  List.mem_filter

/-- An iteration that skips what fails a test depends only on the set of values
that pass it. -/
theorem foldl_congr {τ : Type} {m m' : Keyed key} (f f' : τ → ν → τ) (p p' : ν → Prop)
    (hf : ∀ v ∈ m, ¬ p v → ∀ t, f t v = t) (hf' : ∀ v ∈ m', ¬ p' v → ∀ t, f' t v = t)
    (heq : ∀ v ∈ m, p v → ∀ t, f t v = f' t v)
    (hmem : ∀ v, v ∈ m ∧ p v ↔ v ∈ m' ∧ p' v) (t : τ) :
    m.toList.foldl f t = m'.toList.foldl f' t := by
  classical
  have hskip : ∀ (l : List ν) (g : τ → ν → τ) (q : ν → Prop) (t : τ),
      (∀ v ∈ l, ¬ q v → ∀ t, g t v = t) →
      l.foldl g t = (l.filter fun v => decide (q v)).foldl g t := by
    intro l g q t hg
    induction l generalizing t with
    | nil => rfl
    | cons x rest ih =>
        have hrest := fun v hv => hg v (List.mem_cons_of_mem x hv)
        by_cases hx : q x
        · rw [List.filter_cons_of_pos (by simpa using hx), List.foldl_cons, List.foldl_cons]
          exact ih (g t x) hrest
        · rw [List.filter_cons_of_neg (by simpa using hx), List.foldl_cons,
            hg x List.mem_cons_self hx]
          exact ih t hrest
  have hsame : m.filter (fun v => decide (p v)) = m'.filter fun v => decide (p' v) := by
    refine ext_mem fun v => ?_
    simpa using hmem v
  have hlist : (m.toList.filter fun v => decide (p v)) =
      m'.toList.filter fun v => decide (p' v) := congrArg toList hsame
  rw [hskip m.toList f p t hf, hskip m'.toList f' p' t hf', ← hlist]
  refine List.foldl_ext _ _ _ fun t v hv => ?_
  obtain ⟨hmem, hv⟩ := List.mem_filter.mp hv
  exact heq v hmem (by simpa using hv) t

/-- A collection whose keys come from a list is no longer than the list. -/
theorem size_le_length {m : Keyed key} {l : List κ} (h : ∀ v ∈ m, key v ∈ l) :
    m.size ≤ l.length := by
  have hnodup : (m.toList.map key).Nodup :=
    List.pairwise_map.mpr (m.ascending.imp fun hlt => hlt.ne)
  have hsubset : m.toList.map key ⊆ l := by
    intro k hk
    obtain ⟨v, hv, rfl⟩ := List.mem_map.mp hk
    exact h v hv
  calc m.size = (m.toList.map key).length := (List.length_map key).symm
    _ ≤ l.length := (hnodup.subperm hsubset).length_le

end Keyed

/-! ## Ordered maps -/

/-- An ordered map: entries in ascending key order. -/
abbrev BTreeMap (κ ν : Type) [LinearOrder κ] := Keyed (Prod.fst : κ × ν → κ)

namespace BTreeMap

/-- The value recorded under a key. -/
def get? (m : BTreeMap κ ν) (k : κ) : Option ν := (m.find? k).map Prod.snd

/-- Record a value under a key. -/
def set (m : BTreeMap κ ν) (k : κ) (v : ν) : BTreeMap κ ν := m.insert (k, v)

/-- Remove the entry at a key. -/
def erase (m : BTreeMap κ ν) (k : κ) : BTreeMap κ ν := m.filter fun entry => entry.1 ≠ k

/-- Collect entries; a later one replaces an earlier one of its key. -/
def ofList (l : List (κ × ν)) : BTreeMap κ ν := l.foldl (fun m entry => m.set entry.1 entry.2) .empty

@[simp] theorem get?_empty (k : κ) : get? (Keyed.empty : BTreeMap κ ν) k = none := rfl

theorem get?_eq_some {m : BTreeMap κ ν} {k : κ} {v : ν} :
    get? m k = some v ↔ (k, v) ∈ m := by
  simp [get?, Keyed.find?_eq_some]

theorem get?_eq_none {m : BTreeMap κ ν} {k : κ} :
    get? m k = none ↔ m.contains k = false := by
  rw [Keyed.contains_eq_isSome]
  simp [get?]

theorem contains_eq_isSome {m : BTreeMap κ ν} {k : κ} :
    m.contains k = (get? m k).isSome := by
  rw [Keyed.contains_eq_isSome]
  simp [get?]

theorem get?_set {m : BTreeMap κ ν} {k k' : κ} {v : ν} :
    get? (set m k v) k' = if k' = k then some v else get? m k' := by
  split_ifs with h
  · subst h
    exact get?_eq_some.mpr (Keyed.mem_insert.mpr (Or.inl rfl))
  · cases hg : get? m k' with
    | none =>
        rw [Option.eq_none_iff_forall_not_mem]
        intro w hw
        rcases Keyed.mem_insert.mp (get?_eq_some.mp hw) with heq | ⟨hmem, -⟩
        · exact h (congrArg Prod.fst heq)
        · rw [get?_eq_some.mpr hmem] at hg
          exact Option.some_ne_none _ hg
    | some w =>
        exact get?_eq_some.mpr
          (Keyed.mem_insert.mpr (Or.inr ⟨get?_eq_some.mp hg, h⟩))

theorem size_set_of_free {m : BTreeMap κ ν} {k : κ} (v : ν) (h : get? m k = none) :
    (set m k v).size = m.size + 1 :=
  Keyed.size_insert_of_free (get?_eq_none.mp h)

theorem get?_erase {m : BTreeMap κ ν} {k k' : κ} :
    get? (erase m k) k' = if k' = k then none else get? m k' := by
  split_ifs with h
  · subst h
    rw [Option.eq_none_iff_forall_not_mem]
    intro v hv
    exact of_decide_eq_true (Keyed.mem_filter.mp (get?_eq_some.mp hv)).2 rfl
  · refine Option.ext fun v => ?_
    rw [get?_eq_some, get?_eq_some]
    exact ⟨fun hv => (Keyed.mem_filter.mp hv).1, fun hv => Keyed.mem_filter.mpr ⟨hv, by simp [h]⟩⟩

/-- Maps that answer every lookup alike are equal. -/
theorem ext_get? {m m' : BTreeMap κ ν} (h : ∀ k, get? m k = get? m' k) : m = m' := by
  refine Keyed.ext_mem fun a => ?_
  obtain ⟨k, v⟩ := a
  rw [← get?_eq_some, ← get?_eq_some, h k]

/-- A map is collected from its own entries. -/
theorem ofList_toList (m : BTreeMap κ ν) : ofList m.toList = m := by
  -- an entry is in the fold if it was there before or stands in the list
  have hfold : ∀ (l : List (κ × ν)) (m' : BTreeMap κ ν),
      (∀ a ∈ l, a ∈ m) → (∀ a ∈ m', a ∈ m) →
      ∀ a, a ∈ l.foldl (fun m' entry => m'.set entry.1 entry.2) m' ↔ a ∈ l ∨ a ∈ m' := by
    intro l
    induction l with
    | nil => simp
    | cons entry rest ih =>
        intro m' hl hm' a
        have hset : ∀ b, b ∈ m'.set entry.1 entry.2 ↔ b = entry ∨ b ∈ m' := by
          intro b
          unfold set
          rw [Keyed.mem_insert]
          refine ⟨fun h => h.imp_right And.left, fun h => ?_⟩
          by_cases hkey : b.1 = entry.1
          · left
            have hb : b ∈ m := h.elim (fun heq => heq ▸ hl entry List.mem_cons_self) (hm' b)
            exact Keyed.eq_of_key_eq hb (hl entry List.mem_cons_self) hkey
          · exact h.imp_right fun hb => ⟨hb, hkey⟩
        have hstep := ih (m'.set entry.1 entry.2) (fun b hb => hl b (List.mem_cons_of_mem _ hb))
          (fun b hb => ((hset b).mp hb).elim (fun heq => heq ▸ hl entry List.mem_cons_self) (hm' b)) a
        rw [List.foldl_cons, hstep, hset, List.mem_cons]
        tauto
  refine Keyed.ext_mem fun a => ?_
  unfold ofList
  rw [hfold m.toList .empty (fun _ => id) (fun a ha => absurd ha (Keyed.not_mem_empty a)),
    ← Keyed.mem_def]
  simp

/-- Lists of entries that show the same collect to maps that show the same. -/
theorem get?_ofList_congr {β : Type} {shown : ν → β} {l l' : List (κ × ν)}
    (h : List.Forall₂ (fun a b => b.1 = a.1 ∧ shown b.2 = shown a.2) l l') (k : κ) :
    ((ofList l').get? k).map shown = ((ofList l).get? k).map shown := by
  have hfold : ∀ m m' : BTreeMap κ ν, (∀ k, (m'.get? k).map shown = (m.get? k).map shown) →
      ∀ k, ((l'.foldl (fun m entry => m.set entry.1 entry.2) m').get? k).map shown =
        ((l.foldl (fun m entry => m.set entry.1 entry.2) m).get? k).map shown := by
    induction h with
    | nil => exact fun _ _ hm => hm
    | @cons a b l l' hab _ ih =>
        intro m m' hm
        refine ih _ _ fun k => ?_
        rw [get?_set, get?_set, hab.1]
        split_ifs
        · exact congrArg some hab.2
        · exact hm k
  exact hfold .empty .empty (fun _ => rfl) k

end BTreeMap

/-! ## Ordered sets -/

/-- An ordered set. -/
abbrev BTreeSet (κ : Type) [LinearOrder κ] := Keyed (id : κ → κ)

namespace BTreeSet

@[simp] theorem mem_insert {s : BTreeSet κ} {a b : κ} :
    b ∈ Keyed.insert s a ↔ b = a ∨ b ∈ s := by
  rw [Keyed.mem_insert]
  constructor
  · rintro (h | ⟨h, -⟩)
    · exact Or.inl h
    · exact Or.inr h
  · rintro (h | h)
    · exact Or.inl h
    · by_cases hab : b = a
      · exact Or.inl hab
      · exact Or.inr ⟨h, hab⟩

theorem contains_iff {s : BTreeSet κ} {a : κ} : s.contains a = true ↔ a ∈ s := by
  simp [Keyed.contains_iff]

theorem contains_eq_false {s : BTreeSet κ} {a : κ} : s.contains a = false ↔ a ∉ s := by
  rw [← contains_iff, Bool.not_eq_true]

theorem size_insert_of_not_mem {s : BTreeSet κ} {a : κ} (h : a ∉ s) :
    (Keyed.insert s a).size = s.size + 1 :=
  Keyed.size_insert_of_free (contains_eq_false.mpr h)

/-- The set of the elements of a list. -/
def ofList (l : List κ) : BTreeSet κ := l.foldl Keyed.insert Keyed.empty

private theorem mem_foldl_insert {l : List κ} {s : BTreeSet κ} {a : κ} :
    a ∈ l.foldl Keyed.insert s ↔ a ∈ l ∨ a ∈ s := by
  induction l generalizing s with
  | nil => simp
  | cons x rest ih =>
      rw [List.foldl_cons, ih, mem_insert, List.mem_cons]
      tauto

@[simp] theorem mem_ofList {l : List κ} {a : κ} : a ∈ ofList l ↔ a ∈ l := by
  simp [ofList, mem_foldl_insert]

/-- The elements as an unordered finite set. -/
def toFinset (s : BTreeSet κ) : Finset κ := s.toList.toFinset

@[simp] theorem mem_toFinset {s : BTreeSet κ} {a : κ} : a ∈ toFinset s ↔ a ∈ s := by
  simp [toFinset, Keyed.mem_def]

theorem size_eq_card (s : BTreeSet κ) : s.size = (toFinset s).card := by
  have hnodup : s.toList.Nodup := s.ascending.imp fun {a b} hab heq => by
    subst heq
    exact lt_irrefl _ hab
  rw [toFinset, List.toFinset_card_of_nodup hnodup]
  rfl

end BTreeSet

end IrohBeekem.Library
