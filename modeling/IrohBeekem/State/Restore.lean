import IrohBeekem.State.Publishers

/-!
# Restoring a checkpoint

`restore_checkpoint` reverts one document after another and gives up at the first
failure that is not about a missing version or document, with the effects of the
documents before it.  With steady libraries it gives up at the first document it
would have published, or not at all: once one revert has been published, the
local member may write and the tree keys chunks, and nothing else stops the next.
-/

set_option linter.unusedSectionVars false

namespace IrohBeekem

open Library CgkaController

/-- The failures a restore takes for an unavailable entry. -/
def CoreError.isUnavailable : CoreError → Bool
  | .unknownVersion _ => true
  | .unknownDocument => true
  | _ => false

variable [Keyhive] [Beekem] [Loro] [Postcard] [LawfulBeekem]

namespace WorkspaceState

/-- The local role, if there is one, may write. -/
def CanWrite (s : WorkspaceState) : Prop :=
  ∀ role ∈ s.capabilities.roleOfMember s.memberId, role.canWrite = true

/-- Nothing but the document stops a revert. -/
structure Ready (s : WorkspaceState) : Prop where
  keyable : Keyable s.cgka.cgka
  canWrite : s.CanWrite

omit [LawfulBeekem] in
theorem CanWrite.rekeyed {s s' : WorkspaceState} {ops : List ControlOp} (h : s.CanWrite)
    (hrekeyed : Rekeyed s s' ops) : s'.CanWrite := by
  unfold CanWrite capabilities memberId at h ⊢
  rw [hrekeyed.cgka.certs, hrekeyed.cgka.progress.evolves.memberId]
  exact h

theorem requireWrite_spec (s : WorkspaceState) (rng : Rng) :
    Wp requireWrite (fun _ p => p = (s, rng) ∧ s.CanWrite)
      (fun e p => p = (s, rng) ∧ e.isUnavailable = false ∧ ¬ s.CanWrite) (s, rng) := by
  unfold requireWrite CanWrite
  rw [wp_bind, wp_self]
  cases s.capabilities.roleOfMember s.memberId with
  | none => exact ⟨rfl, by simp⟩
  | some role =>
      dsimp only
      split_ifs with hwrite
      · exact ⟨rfl, by simpa using hwrite⟩
      · exact ⟨rfl, rfl, by simpa using hwrite⟩

/-! ## Failures of one revert -/

/-- A call on one document leaves the controller alone. -/
theorem onDoc_spec {α : Type} (doc : DocumentUuid) (rename : String → CoreError)
    (x : EStateM String LoroDoc α) (s : WorkspaceState) (rng : Rng) :
    Wp (onDoc doc rename x) (fun _ p => p.1.cgka = s.cgka)
      (fun e p => p.1.cgka = s.cgka ∧ ∃ message, e = rename message) (s, rng) := by
  unfold onDoc
  rw [wp_zoom]
  unfold Wp
  split
  · rfl
  · exact ⟨rfl, _, rfl⟩

/-- A call on one document that cannot fail. -/
theorem onDoc_sure {α : Type} (doc : DocumentUuid) (rename : String → CoreError)
    {x : EStateM String LoroDoc α} (hx : ∀ d, Wp x (fun _ _ => True) (fun _ _ => False) d)
    (s : WorkspaceState) (rng : Rng) :
    Wp (onDoc doc rename x) (fun _ p => p.1.cgka = s.cgka) (fun _ _ => False) (s, rng) := by
  unfold onDoc
  rw [wp_zoom]
  exact (hx _).mono (fun _ _ _ => rfl) fun _ _ => id

omit [Keyhive] [Beekem] [Postcard] [LawfulBeekem] in
theorem claimAuthorship_sure (member : Bytes32) (d : LoroDoc) :
    Wp (claimAuthorship member) (fun _ _ => True) (fun _ _ => False) d := by
  unfold claimAuthorship
  rw [wp_bind, wp_get]
  dsimp only
  split_ifs
  · trivial
  · rw [wp_bind, wp_attempt]
    unfold Wp
    split <;> trivial

theorem encryptKeyed_error (plaintext : Bytes) (preds : List Bytes32) (s : WorkspaceState)
    (rng : Rng) :
    Wp (encryptKeyed plaintext preds .current) (fun _ _ => True)
      (fun e _ => e.isUnavailable = false) (s, rng) := by
  unfold encryptKeyed encrypt onTreeRng
  rw [wp_bind, wp_onCgkaRng, wp_bind, wp_get, wp_bind, wp_zoom]
  unfold Wp
  split
  · rename_i secret _ _
    dsimp only
    cases Beekem.tryEncrypt secret.1 plaintext <;> trivial
  · rfl

/-- Publishing under the current epoch fails for want of a key. -/
theorem publishKeyed_reliable (doc : DocumentUuid) (extent : Extent) (s : WorkspaceState)
    (rng : Rng) :
    Wp (publishKeyed doc .current extent) (fun _ p => Steady → Keyable p.1.cgka.cgka)
      (fun e _ => e.isUnavailable = false ∧ (Steady → ¬ Keyable s.cgka.cgka)) (s, rng) := by
  unfold publishKeyed
  rw [wp_bind, wp_self]
  have hopen : Wp (openDoc doc) (fun _ p => p.1.cgka = s.cgka) (fun _ _ => False) (s, rng) := by
    unfold openDoc
    rw [wp_bind, wp_self]
    cases s.docs.get? doc with
    | some loro => rfl
    | none => rfl
  refine hopen.seq ?_ fun _ _ => False.elim
  intro loro p hcgka
  rw [wp_bind, wp_verdict]
  cases hexport : Loro.exportAs (exportMode (s.publishedUpTo.get? doc) extent) loro with
  | error message =>
      refine ⟨rfl, fun hsteady => ?_⟩
      obtain ⟨bytes, hok⟩ := hsteady.exports (exportMode (s.publishedUpTo.get? doc) extent) loro
      exact absurd (hok.symm.trans hexport) (by simp)
  | ok exported =>
      change Wp _ _ _ p
      rw [wp_bind, wp_self]
      refine ((encryptKeyed_reliable exported _ p.1 p.2).and
        (encryptKeyed_error exported _ p.1 p.2)).seq ?_ ?_
      · rintro r q ⟨hkeyable, -⟩
        exact hkeyable
      · rintro e q ⟨hkeyable, herror⟩
        rw [hcgka] at hkeyable
        exact ⟨herror, hkeyable⟩

/-- How a revert ends: after a success the next one is ready, a missing version or
document changes nothing in the tree, and any other failure has its reason. -/
theorem onRevert_reliable (doc : DocumentUuid) (version : VersionId) (now : UnixSeconds)
    (s : WorkspaceState) (rng : Rng) :
    Wp (onRevert doc version now)
      (fun _ p => s.CanWrite ∧ (Steady → Keyable p.1.cgka.cgka))
      (fun e p => (e.isUnavailable = true ∧ p.1.cgka = s.cgka) ∨
        e.isUnavailable = false ∧ (Steady → ¬ s.Ready)) (s, rng) := by
  unfold onRevert
  refine (requireWrite_spec s rng).seq ?_ ?_
  · rintro _ p ⟨rfl, hwrite⟩
    split_ifs
    · rw [wp_bind, wp_self]
      cases s.docs.get? doc with
      | none => exact Or.inl ⟨rfl, rfl⟩
      | some loro =>
          dsimp only
          refine (onDoc_sure doc _ (claimAuthorship_sure _) s rng).seq ?_ fun _ _ => False.elim
          intro _ p hclaimed
          refine (onDoc_spec doc _ (Loro.revertTo version) p.1 p.2).seq ?_ ?_
          · intro _ p' hreverted
            refine (onDoc_sure (x := modify (Loro.commitWith now)) doc _ (fun _ => trivial)
              p'.1 p'.2).seq ?_ fun _ _ => False.elim
            intro _ q hcommitted
            have hcgka : q.1.cgka = s.cgka := hcommitted.trans (hreverted.trans hclaimed)
            unfold publish
            rw [wp_bind, wp_self]
            refine (publishKeyed_reliable doc _ q.1 q.2).mono (fun _ _ h => ⟨hwrite, h⟩) ?_
            rintro e r ⟨herror, hkeyable⟩
            rw [hcgka] at hkeyable
            exact Or.inr ⟨herror, fun hsteady hready => hkeyable hsteady hready.keyable⟩
          · rintro e p' ⟨hreverted, message, rfl⟩
            exact Or.inl ⟨rfl, hreverted.trans hclaimed⟩
    · exact Or.inl ⟨rfl, rfl⟩
  · rintro e p ⟨rfl, herror, hwrite⟩
    exact Or.inr ⟨herror, fun _ hready => hwrite hready.canWrite⟩

/-! ## The loop -/

/-- The rest of a restore adds to the effects, and if it fails although the
libraries are steady then it has taken nothing in and could not have started. -/
theorem restoreEntries_spec (live : List DocumentUuid) (now : UnixSeconds)
    (entries : List (DocumentUuid × VersionId)) (effects : List Effect)
    (outcomes : List RestoreOutcome) (s : WorkspaceState) (rng : Rng) :
    Wp (restoreEntries live now entries effects outcomes)
      (fun r p => ∃ l ops, r.1 = effects ++ l ∧ Rekeyed s p.1 ops ∧ Announces l ops)
      (fun _ p => ∃ ops, Rekeyed s p.1 ops ∧ (Steady → ops = [] ∧ ¬ s.Ready)) (s, rng) := by
  induction entries generalizing effects outcomes s rng with
  | nil => exact ⟨[], [], by simp, .refl s, Silent.nil.announces⟩
  | cons entry rest ih =>
      obtain ⟨doc, version⟩ := entry
      unfold restoreEntries
      rw [wp_bind, wp_self]
      dsimp only
      split_ifs
      · exact ih effects _ s rng
      · rw [wp_bind, wp_attempt]
        refine ((onRevert_publishes doc version now s rng).and
          (onRevert_reliable doc version now s rng)).mono ?_ ?_
        · rintro produced p ⟨⟨ops, hrekeyed, hsent⟩, hwrite, hkeyable⟩
          refine (ih (effects ++ produced) _ p.1 p.2).mono ?_ ?_
          · rintro r p' ⟨l, ops', hr, hrekeyed', hsent'⟩
            exact ⟨produced ++ l, ops ++ ops', by simpa using hr, hrekeyed.trans hrekeyed',
              hsent.append hsent'⟩
          · -- a published revert leaves the node ready, so the rest cannot fail
            rintro e p' ⟨ops', hrekeyed', hnot⟩
            refine ⟨ops ++ ops', hrekeyed.trans hrekeyed', fun hsteady => ?_⟩
            exact absurd ⟨hkeyable hsteady, hwrite.rekeyed hrekeyed⟩ (hnot hsteady).2
        · rintro e p ⟨⟨ops, hrekeyed, hnil⟩, hreason⟩
          -- an unavailable entry left the tree alone, so the rest runs as from here
          have hskip : ∀ outcomes, e.isUnavailable = true →
              Wp (restoreEntries live now rest effects outcomes)
                (fun r p => ∃ l ops, r.1 = effects ++ l ∧ Rekeyed s p.1 ops ∧ Announces l ops)
                (fun _ p => ∃ ops, Rekeyed s p.1 ops ∧ (Steady → ops = [] ∧ ¬ s.Ready)) p := by
            intro outcomes hunavailable
            have hcgka : p.1.cgka = s.cgka := by
              rcases hreason with ⟨-, hcgka⟩ | ⟨hother, -⟩
              · exact hcgka
              · exact absurd (hunavailable.symm.trans hother) (by simp)
            have hsame : Rekeyed s p.1 [] :=
              .of_same hcgka hrekeyed.namespaceEpoch hrekeyed.namespaceTicket hrekeyed.executedHere
            refine (ih effects outcomes p.1 p.2).mono ?_ ?_
            · rintro r p' ⟨l, ops', hr, hrekeyed', hsent'⟩
              exact ⟨l, ops', hr, hsame.trans hrekeyed', hsent'⟩
            · rintro e' p' ⟨ops', hrekeyed', hnot⟩
              refine ⟨ops', hsame.trans hrekeyed', fun hsteady => ⟨(hnot hsteady).1, ?_⟩⟩
              intro hready
              exact (hnot hsteady).2 ⟨hcgka ▸ hready.keyable, hready.canWrite.rekeyed hsame⟩
          have hstop : e.isUnavailable = false →
              ∃ ops, Rekeyed s p.1 ops ∧ (Steady → ops = [] ∧ ¬ s.Ready) := by
            intro hother
            refine ⟨ops, hrekeyed, fun hsteady => ⟨hnil hsteady, ?_⟩⟩
            rcases hreason with ⟨hunavailable, -⟩ | ⟨-, hready⟩
            · exact absurd (hunavailable.symm.trans hother) (by simp)
            · exact hready hsteady
          cases e with
          | unknownVersion text => exact hskip _ rfl
          | unknownDocument => exact hskip _ rfl
          | _ => exact hstop rfl
      · exact ih effects _ s rng

theorem restoreCheckpoint_emits (digest : Bytes32) (now : UnixSeconds) :
    Emits Prod.fst (restoreCheckpoint digest now) := by
  refine requireWrite_harmless.emits fun _ => Harmless.self.emits fun s => ?_
  cases s.manifest.checkpoint digest with
  | none => exact .throw _
  | some checkpoint =>
      intro s' rng
      refine (restoreEntries_spec _ now checkpoint.entries [] [] s' rng).mono ?_ ?_
      · rintro r p ⟨l, ops, hr, hrekeyed, hsent⟩
        exact ⟨ops, hrekeyed, hr ▸ hsent⟩
      · rintro e p ⟨ops, hrekeyed, hnot⟩
        exact ⟨ops, hrekeyed, fun hsteady => (hnot hsteady).1⟩

end WorkspaceState

end IrohBeekem
