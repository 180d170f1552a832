import Mathlib

/-!
# Memories that may be forgotten

A limiter remembers what it let through, as pairs of a key and an instant, and refuses a
key while a memory of it is *fresh*.  Freshness fades: what is fresh at an instant was
fresh at every earlier one.  So whatever is stale is stale for good, and a limiter that
drops it decides as one that keeps everything.

`Alike` is the relation between two memories that this makes a bisimulation: they hold the
same fresh pairs.  It survives the passing of time (`Alike.later`), forgetting
(`Alike.recent_left`) and a new memory on both sides (`Alike.remember`), and memories so
related let the same claims through (`Alike.letsThrough_iff`).
-/

namespace IrohBeekem.Library

variable {K T : Type}

/-- The memory keeps nothing that says this claim comes too early. -/
def LetsThrough (fresh : T → T → Prop) (m : Set (K × T)) (key : K) (now : T) : Prop :=
  ∀ t, (key, t) ∈ m → ¬ fresh now t

/-- What of a memory is still fresh. -/
def recent (fresh : T → T → Prop) (now : T) (m : Set (K × T)) : Set (K × T) :=
  { c | c ∈ m ∧ fresh now c.2 }

/-- Two memories which hold the same fresh pairs. -/
def Alike (fresh : T → T → Prop) (now : T) (m m' : Set (K × T)) : Prop :=
  recent fresh now m = recent fresh now m'

/-- What is fresh at an instant was fresh at every earlier one. -/
def Fades [LE T] (fresh : T → T → Prop) : Prop :=
  ∀ earlier later t, earlier ≤ later → fresh later t → fresh earlier t

variable {fresh : T → T → Prop} {m m' : Set (K × T)} {now : T}

@[simp] theorem mem_recent {c : K × T} : c ∈ recent fresh now m ↔ c ∈ m ∧ fresh now c.2 := Iff.rfl

theorem recent_subset : recent fresh now m ⊆ m := fun _ h => h.1

@[simp] theorem recent_recent : recent fresh now (recent fresh now m) = recent fresh now m := by
  ext c
  simp only [mem_recent, and_assoc, and_self]

theorem letsThrough_recent_iff {key : K} :
    LetsThrough fresh (recent fresh now m) key now ↔ LetsThrough fresh m key now := by
  constructor
  · intro h t ht hfresh
    exact h t ⟨ht, hfresh⟩ hfresh
  · intro h t ht
    exact h t ht.1

/-- Dropping what was stale once changes nothing later on. -/
theorem recent_recent_of_le [LE T] (hfades : Fades fresh) {later : T} (hle : now ≤ later) :
    recent fresh later (recent fresh now m) = recent fresh later m := by
  ext c
  simp only [mem_recent]
  constructor
  · rintro ⟨⟨hmem, -⟩, hlater⟩
    exact ⟨hmem, hlater⟩
  · rintro ⟨hmem, hlater⟩
    exact ⟨⟨hmem, hfades now later c.2 hle hlater⟩, hlater⟩

namespace Alike

theorem refl (m : Set (K × T)) : Alike fresh now m m := rfl

theorem recent_left (h : Alike fresh now m m') : Alike fresh now (recent fresh now m) m' := by
  unfold Alike at h ⊢
  rw [recent_recent, h]

theorem later [LE T] (hfades : Fades fresh) (h : Alike fresh now m m') {later : T}
    (hle : now ≤ later) : Alike fresh later m m' := by
  unfold Alike at h ⊢
  calc recent fresh later m
      = recent fresh later (recent fresh now m) := (recent_recent_of_le hfades hle).symm
    _ = recent fresh later (recent fresh now m') := by rw [h]
    _ = recent fresh later m' := recent_recent_of_le hfades hle

theorem remember (h : Alike fresh now m m') (c : K × T) :
    Alike fresh now (insert c m) (insert c m') := by
  unfold Alike at h ⊢
  have hmem : ∀ x, (x ∈ m ∧ fresh now x.2) ↔ (x ∈ m' ∧ fresh now x.2) := fun x => by
    rw [← mem_recent, ← mem_recent, h]
  ext x
  simp only [mem_recent, Set.mem_insert_iff, or_and_right, hmem x]

/-- Alike memories let the same claims through. -/
theorem letsThrough_iff (h : Alike fresh now m m') (key : K) :
    LetsThrough fresh m key now ↔ LetsThrough fresh m' key now := by
  rw [← letsThrough_recent_iff, h, letsThrough_recent_iff]

end Alike

end IrohBeekem.Library
