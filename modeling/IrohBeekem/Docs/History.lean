import IrohBeekem.Docs.Loro
import IrohBeekem.Library.Wp
import Mathlib.Data.Set.Basic

/-!
# What a replica holds

A replica is known by the operations it holds.  An operation depends on others, a
version vector covers some and an export carries some.  `History` names these, and
`History.Lawful` is what the document library documents of them: a replica never holds
an operation without what it depends on, an export carries what a version vector does
not cover, and an update is merged as soon as everything it depends on is there.

A replica that starts from nothing and merges a full export and the updates after it
therefore holds all that was exported (`History.Lawful.import_export`).
-/

namespace IrohBeekem

open Library

variable [Loro]

/-- The operations of the document library, as seen from a replica, a version vector and
an export. -/
structure History (Op : Type) where
  /-- The operations a replica holds. -/
  ops : LoroDoc → Set Op
  /-- What an operation depends on, directly or not. -/
  past : Op → Set Op
  /-- The operations a version vector covers. -/
  covered : Bytes → Set Op
  /-- The operations an export carries. -/
  carried : Bytes → Set Op

namespace History

variable {Op : Type}

/-- Everything an export depends on is in this replica, or in the export. -/
def Ready (h : History Op) (bytes : Bytes) (d : LoroDoc) : Prop :=
  ∀ o ∈ h.carried bytes, h.past o ⊆ h.ops d ∪ h.carried bytes

/-- What is relied on of exports, imports and versions. -/
structure Lawful (h : History Op) : Prop where
  closed : ∀ d, ∀ o ∈ h.ops d, h.past o ⊆ h.ops d
  covered_oplogVv : ∀ d, h.covered (Loro.oplogVv d) = h.ops d
  ops_commit : ∀ d, h.ops (Loro.commit d) = h.ops d
  carried_all : ∀ d bytes, Loro.exportAs .allUpdates d = .ok bytes → h.carried bytes = h.ops d
  carried_updates : ∀ v d bytes, Loro.decodesVv v = true →
    Loro.exportAs (.updates v) d = .ok bytes → h.carried bytes = h.ops d \ h.covered v
  /-- An export that is ready is merged. -/
  import_ready : ∀ mode source bytes d, Loro.exportAs mode source = .ok bytes →
    h.Ready bytes d → ∃ d', Loro.importBytes bytes d = .ok false d'
  /-- What is merged without missing operations is held from then on. -/
  import_clean : ∀ bytes d d', Loro.importBytes bytes d = .ok false d' →
    h.carried bytes ⊆ h.ops d'
  import_grows : ∀ bytes d, h.ops d ⊆ h.ops (after (Loro.importBytes bytes) d)

variable {h : History Op}

/-- A replica that holds what an export leaves out holds everything after merging it. -/
theorem Lawful.import_export (hlaws : h.Lawful) {mode : ExportMode} {source d : LoroDoc}
    {bytes : Bytes} (hexport : Loro.exportAs mode source = .ok bytes)
    (hrest : h.ops source ⊆ h.ops d ∪ h.carried bytes) (hcarried : h.carried bytes ⊆ h.ops source) :
    h.ops source ⊆ h.ops (after (Loro.importBytes bytes) d) := by
  have hready : h.Ready bytes d := by
    intro o ho
    exact (hlaws.closed source o (hcarried ho)).trans hrest
  obtain ⟨d', himport⟩ := hlaws.import_ready mode source bytes d hexport hready
  have hgrows := hlaws.import_grows bytes d
  unfold after at hgrows ⊢
  rw [himport] at hgrows ⊢
  exact hrest.trans (Set.union_subset hgrows (hlaws.import_clean bytes d d' himport))

/-! ## Waiting operations -/

/-- What is relied on of updates that arrive in any order: a replica keeps what it was given,
holds of it what lacks no dependency, and reports an update as pending if and only if
some operation of it lacks one. -/
structure Pooled (h : History Op) (pool : LoroDoc → Set Op) (decodes : Bytes → Prop) : Prop where
  ops_eq : ∀ d, h.ops d = { o | o ∈ pool d ∧ h.past o ⊆ pool d }
  import_ok : ∀ bytes d, decodes bytes → ∃ pending d', Loro.importBytes bytes d = .ok pending d' ∧
    pool d' = pool d ∪ h.carried bytes ∧
    (pending = false ↔ ∀ o ∈ h.carried bytes, h.past o ⊆ pool d')
  import_fails : ∀ bytes d, ¬ decodes bytes → ∃ err d', Loro.importBytes bytes d = .error err d' ∧
    pool d' = pool d

/-! ## Local changes -/

/-- A program that only adds operations, each of which depends on all there were. -/
def Extends {α : Type} (h : History Op) (x : EStateM String LoroDoc α) : Prop :=
  ∀ d, h.ops d ⊆ h.ops (after x d) ∧ ∀ o ∈ h.ops (after x d), o ∉ h.ops d → h.ops d ⊆ h.past o

/-- What is relied on of local changes: what a replica commits depends on all it holds. -/
structure LawfulEdits (h : History Op) : Prop extends h.Lawful where
  insert : ∀ map key value, h.Extends (Loro.insert map key value)
  insertText : ∀ pos text, h.Extends (Loro.insertText pos text)
  deleteText : ∀ pos len, h.Extends (Loro.deleteText pos len)
  updateText : ∀ text, h.Extends (Loro.updateText text)
  revertTo : ∀ version, h.Extends (Loro.revertTo version)
  ops_commitWith : ∀ now d, h.ops (Loro.commitWith now d) = h.ops d

theorem Extends.of_same {α : Type} {x : EStateM String LoroDoc α}
    (hsame : ∀ d, h.ops (after x d) = h.ops d) : h.Extends x := by
  intro d
  rw [hsame d]
  exact ⟨subset_rfl, fun o ho hnot => absurd ho hnot⟩

theorem Extends.bind {α β : Type} {x : EStateM String LoroDoc α}
    {f : α → EStateM String LoroDoc β} (hx : h.Extends x) (hf : ∀ a, h.Extends (f a)) :
    h.Extends (x >>= f) := by
  intro d
  obtain ⟨hgrows, hnew⟩ := hx d
  have hafter : after (x >>= f) d = after x d ∨ ∃ a, after (x >>= f) d = after (f a) (after x d) := by
    change after (EStateM.bind x f) d = _ ∨ ∃ a, after (EStateM.bind x f) d = _
    unfold after EStateM.bind
    cases x d with
    | ok a d' => exact Or.inr ⟨a, rfl⟩
    | error e d' => exact Or.inl rfl
  rcases hafter with heq | ⟨a, heq⟩
  · rw [heq]
    exact ⟨hgrows, hnew⟩
  · obtain ⟨hgrows', hnew'⟩ := hf a (after x d)
    rw [heq]
    refine ⟨hgrows.trans hgrows', fun o ho hnot => ?_⟩
    by_cases hheld : o ∈ h.ops (after x d)
    · exact hnew o hheld hnot
    · exact hgrows.trans (hnew' o ho hheld)

theorem Extends.attempt {α : Type} {x : EStateM String LoroDoc α} (hx : h.Extends x) :
    h.Extends (Library.attempt x : EStateM String LoroDoc (Except String α)) := by
  intro d
  have hafter : after (Library.attempt x : EStateM String LoroDoc (Except String α)) d =
      after x d := by
    unfold after Library.attempt
    cases x d with
    | ok a d' => rfl
    | error e d' => rfl
  rw [hafter]
  exact hx d

theorem Extends.pure {α : Type} (a : α) : h.Extends (Pure.pure a) := .of_same fun _ => rfl

theorem Extends.get : h.Extends (MonadState.get : EStateM String LoroDoc LoroDoc) :=
  .of_same fun _ => rfl

end History

end IrohBeekem
