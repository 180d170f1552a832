import IrohBeekem.Capability.Redundant
import IrohBeekem.State.Certified
import IrohBeekem.State.Decisions

/-!
# Admitting a member again

An admission signs its certificates and takes them into the store before the tree says
that the member is there already.  Whether it is or not, the certificates then count:
a grant is above every grant for its subject so far, and a binding may come before the one
the member has.

`readmission_frame` says when this changes nothing: the event is refused before it signs
anything, or the store has no rivals and implies what is signed.
-/

set_option linter.unusedSectionVars false

namespace IrohBeekem

open Library CgkaController WorkspaceState

variable [Keyhive] [Beekem] [Loro] [Postcard]

/-- The events that admit a member. -/
def Event.admits : Event → Bool
  | .addUser _ _ _ _ _ => true
  | .addDevice _ _ _ _ _ => true
  | _ => false

/-- The tree answers that the member it is to admit is there already. -/
def Event.repeats (event : Event) (s : WorkspaceState) : Bool :=
  match event with
  | .addUser member shareKey _ _ _ | .addDevice member shareKey _ _ _ =>
      match Beekem.add member shareKey s.cgka.signer s.cgka.cgka with
      | .ok none _ => true
      | _ => false
  | _ => false

/-- What an admission checks before it signs anything. -/
def admissionGuard : Event → Run Unit
  | .addUser member _ role _ _ => do
      requireAdmin
      let s ← self
      if defaultThreshold < s.capabilities.threshold ∧ ¬ s.isFounderDevice then
        requireQuorum (.setRole member role)
  | .addDevice _ _ user _ _ => requireMayAddDeviceTo user
  | _ => pure ()

/-- No authority differs between two nodes. -/
structure SameAuthority (s s' : WorkspaceState) : Prop where
  roleOf : ∀ user, s'.capabilities.roleOf user = s.capabilities.roleOf user
  userOf : ∀ device, s'.capabilities.userOf device = s.capabilities.userOf device

variable {s : WorkspaceState} {rng : Rng} {event : Event}

/-- The checks only read. -/
theorem admissionGuard_spec (event : Event) (s : WorkspaceState) (rng : Rng) :
    Wp (admissionGuard event) (fun _ p => p = (s, rng)) (fun _ p => p = (s, rng)) (s, rng) := by
  cases event with
  | addUser member shareKey role displayName endpoint =>
      unfold admissionGuard
      refine requireAdmin_spec.seq ?_ fun _ _ => id
      rintro _ p ⟨rfl, -⟩
      rw [wp_bind, wp_self]
      dsimp only
      split_ifs
      · exact Wp.mono (requireQuorum_spec _) (fun _ _ h => h.1) fun _ _ => id
      · rfl
  | addDevice member shareKey user label endpoint =>
      exact Wp.mono (requireMayAddDeviceTo_spec user) (fun _ _ h => h.1) fun _ _ => id
  | _ => rfl

/-- An admission starts with its checks. -/
theorem handle_admission (hadmits : event.admits = true) (now : UnixSeconds) :
    ∃ rest : Run (List Effect), handle event now = (admissionGuard event >>= fun _ => rest) := by
  cases event with
  | addUser member shareKey role displayName endpoint =>
      refine ⟨do
        let nonce ← randomNonce
        let binding ← onCgka (CgkaController.certifyDevice member member nonce)
        let nonce ← randomNonce
        let grant ← onCgka (CgkaController.certifyRole member role nonce)
        admitLeaf member shareKey [binding, grant] (userRecords member displayName endpoint), ?_⟩
      unfold handle onAddUser admissionGuard
      simp only [bind_assoc]
      congr 1
      funext _
      congr 1
      funext s
      split_ifs with hrule
      · rfl
      · rfl
  | addDevice member shareKey user label endpoint => exact ⟨_, rfl⟩
  | _ => exact absurd hadmits Bool.false_ne_true

/-- An admission that does not pass the checks leaves the node as it was. -/
theorem after_of_refused (hadmits : event.admits = true) (now : UnixSeconds)
    (h : succeeds (admissionGuard event) (s, rng) = false) :
    after (handle event now) (s, rng) = (s, rng) := by
  obtain ⟨rest, hrest⟩ := handle_admission hadmits now
  have hguard := admissionGuard_spec event s rng
  rw [hrest]
  refine Wp.after (P := fun p => p = (s, rng)) ?_
  rw [wp_bind]
  unfold Wp at hguard ⊢
  unfold Library.succeeds at h
  cases hrun : admissionGuard event (s, rng) with
  | ok _ p =>
      rw [hrun] at h
      exact absurd h (by simp)
  | error e p =>
      rw [hrun] at hguard
      exact hguard

variable [LawfulBeekem]

/-- An admission that is refused, or signs only what the store implies and has no rivals
to, changes no authority, whether it succeeds or fails. -/
theorem readmission_frame (hadmits : event.admits = true) (now : UnixSeconds)
    (h : succeeds (admissionGuard event) (s, rng) = false ∨
      RivalFree s.capabilities.founder s.capabilities.certs s.capabilities.derived.toClosure ∧
        ∀ x ∈ (Call.handle event now).certifies s.cgka.signer, s.capabilities.Implies x) :
    SameAuthority s (after (handle event now) (s, rng)).1 := by
  rcases h with hrefused | ⟨hrival, himplied⟩
  · rw [after_of_refused hadmits now hrefused]
    exact ⟨fun _ => rfl, fun _ => rfl⟩
  · have houtcome := (Call.handle event now).outcome s rng
    have hextra : CapabilityStore.Extra s.capabilities
        (after (handle event now) (s, rng)).1.capabilities :=
      ⟨houtcome.founder, houtcome.kept, fun x hx => (houtcome.gained x hx).imp_right (himplied x)⟩
    exact ⟨hextra.roleOf hrival, hextra.userOf hrival⟩

end IrohBeekem

namespace IrohBeekem

open Library WorkspaceState

section Samples

local instance readmittedKeyhive : Keyhive := transparentKeyhive

local instance readmittedBeekem : Beekem := listBeekem

local instance readmittedLawful : LawfulBeekem := listBeekem_live.toLawfulBeekem

local instance readmittedLoro : Loro := listLoro

local instance readmittedPostcard : Postcard := blankPostcard

/-- User `2`, a viewer, is admitted once more. -/
def admittedAs (role : Role) : Event := .addUser 2 102 role "second" none

private theorem implied_of_viewer {s : CapabilityStore} (hrole : s.roleOf 2 = some .viewer)
    (huser : s.userOf 2 = some 2) {signer : Bytes32} {x : Certificate}
    (hx : x ∈ (Call.handle (admittedAs .viewer) 0).certifies signer) : s.Implies x := by
  obtain harriving | ⟨p, hp, signature, rfl⟩ := hx
  · exact absurd harriving List.not_mem_nil
  · rcases hp with ⟨nonce, rfl⟩ | ⟨seq, nonce, rfl⟩
    · exact fun _ => huser
    · exact fun _ => ⟨hrole, fun h => nomatch h⟩

/-- As a viewer again, user `2` changes nothing. -/
theorem readmission_frame_viewer :
    SameAuthority admittedViewer.1 (after (handle (admittedAs .viewer) 0) admittedViewer).1 := by
  have hrival : RivalFree admittedViewer.1.capabilities.founder
      admittedViewer.1.capabilities.certs
      admittedViewer.1.capabilities.derived.toClosure := by decide +kernel
  have hrole : admittedViewer.1.capabilities.roleOf 2 = some .viewer := by decide +kernel
  have huser : admittedViewer.1.capabilities.userOf 2 = some 2 := by decide +kernel
  have hadmits : (admittedAs .viewer).admits = true := rfl
  exact readmission_frame hadmits 0 (Or.inr ⟨hrival, fun x => implied_of_viewer hrole huser⟩)

/-- As an administrator, it becomes one, although the tree answers that it is there. -/
theorem readmitted_administrator :
    ¬ ∀ (s : WorkspaceState) (rng : Rng) (event : Event) (now : UnixSeconds),
      Reachable s → event.admits = true → event.repeats s = true →
      SameAuthority s (after (handle event now) (s, rng)).1 := by
  intro h
  have hreachable : Reachable admittedViewer.1 := by
    unfold admittedViewer
    exact (sampleWorkspace_reachable (by decide +kernel)).calls _
  have hrepeats : (admittedAs .admin).repeats admittedViewer.1 = true := by decide +kernel
  have hbefore : admittedViewer.1.capabilities.roleOf 2 = some .viewer := by decide +kernel
  have hafter : (after (handle (admittedAs .admin) 0) admittedViewer).1.capabilities.roleOf 2 =
      some .admin := by decide +kernel
  have hsame := (h _ admittedViewer.2 (admittedAs .admin) 0 hreachable rfl hrepeats).roleOf 2
  rw [hbefore] at hsame
  exact absurd (hafter.symm.trans hsame) (by decide)

end Samples

end IrohBeekem
