import IrohBeekem.State.ListModel
import IrohBeekem.State.Reach

/-!
# Invites

An admission ends with a ticket for the admitted device, signed by the device that
admitted it.  Whether a device may admit another is decided by the state machine;
whether the ticket it signs counts is decided by the redeemer, from the certificates
in the ticket alone.  `invite_redeemable_iff` says when the second follows the first:
the redeemer asks for an admin, and enrolling a device of one's own takes none.
-/

set_option linter.unusedSectionVars false

namespace IrohBeekem

open Library CgkaController WorkspaceState CapabilityStore

/-! ## Tickets -/

/-- What the replicated index calls its tickets. -/
class DocTickets where
  DocTicket : Type

export DocTickets (DocTicket)

/-- What a ticket for the index lets its holder do. -/
inductive ShareMode where
  | read
  | write
  deriving DecidableEq

/-- `iroh-beekem/invt` -/
def inviteDomain : Bytes16 := 0x69726f682d6265656b656d2f696e7674

/-- How long a freshly minted invite stays redeemable. -/
def inviteLifetimeSecs : Nat := 60 * 60

/-- `saturating_add`. -/
def satAdd {n : Nat} [NeZero n] (a : Fin n) (b : Nat) : Fin n :=
  if h : a.val + b < n then ⟨a.val + b, h⟩ else maxOf n

/-- Why an invite was refused. -/
inductive InviteError where
  | wrongDomain
  | badSignature
  | notAnAdmin
  | wrongInvitee
  | expired (notAfter now : U64)
  | replayed
  | malformedTreeId
  | noClock
  deriving DecidableEq

/-- The errors of the networked layer that issuing a ticket and redeeming one can meet. -/
inductive WorkspaceError where
  | core (err : CoreError)
  | storage (message : String)
  | invite (err : InviteError)
  | identity (message : String)
  | notAdmitted (err : CoreError)
  deriving DecidableEq

/-- The key material of a device that asks to be admitted. -/
structure Enrollment where
  member : Bytes32
  shareKey : Bytes32
  endpoint : Bytes32

namespace Enrollment

variable [Keyhive]

def memberId (e : Enrollment) : Except WorkspaceError Bytes32 :=
  if Keyhive.isPoint e.member then .ok e.member else .error (.identity "malformed member id")

/-- The device's transport address. -/
def endpointId (e : Enrollment) : Except WorkspaceError Bytes32 :=
  if Keyhive.isPoint e.endpoint then .ok e.endpoint
  else .error (.identity "malformed endpoint id")

end Enrollment

section Tickets

variable [Keyhive] [Beekem] [DocTickets]

/-- Everything a new member needs to join, and the terms it was granted under. -/
structure InviteTerms where
  domain : Bytes16
  treeId : Bytes32
  invitee : Bytes32
  notAfter : U64
  nonce : Bytes16
  epoch : U32
  docTicket : DocTicket
  workspaceSecret : Bytes32
  log : List ControlOp
  certs : List Certificate
  inviter : Bytes32

/-- A signed admission ticket. -/
abbrev Invite := Signed InviteTerms

/-- Signing terms, and checking the signature. -/
class TermsSigner where
  trySign : Bytes32 → InviteTerms → Option Bytes64
  tryVerify : Invite → Bool

variable [TermsSigner]

namespace Invite

/-- Sign a set of terms. -/
def sign (terms : InviteTerms) (signer : Bytes32) : Except InviteError Invite :=
  match TermsSigner.trySign signer terms with
  | some signature => .ok ⟨terms, signer, signature⟩
  | none => .error .badSignature

/-- The last second of a ticket minted now, if the clock can be read. -/
def termsNow (clock : Option U64) : Except InviteError U64 :=
  match clock with
  | some now => .ok (satAdd now inviteLifetimeSecs)
  | none => .error .noClock

/-- Everything decidable from the ticket alone, for `invitee` at `now`. -/
def verify (invite : Invite) (invitee : Bytes32) (now : U64) : Except InviteError Unit :=
  let terms := invite.payload
  if terms.domain ≠ inviteDomain then .error .wrongDomain
  else if ¬ TermsSigner.tryVerify invite then .error .badSignature
  else if terms.invitee ≠ invitee then .error .wrongInvitee
  else if ¬ now ≤ terms.notAfter then .error (.expired terms.notAfter now)
  else if ((CapabilityStore.new terms.treeId).extend terms.certs).2.mayAdminister invite.issuer then
    .ok ()
  else .error .notAnAdmin

end Invite

end Tickets

/-! ## Admission -/

section Admission

variable [Keyhive] [Beekem] [Loro] [Postcard] [DocTickets] [TermsSigner]

/-- What the networked layer holds of a workspace beside the core state. -/
structure Inner where
  treeId : Bytes32
  signer : Bytes32
  secret : Bytes32
  endpointId : Bytes32

/-- What the outside answers while a ticket is built: the index shares itself, a
nonce is drawn and the clock is read. -/
structure Answers where
  share : ShareMode → Except String DocTicket
  nonce : Bytes16
  clock : Option U64

/-- Build the ticket a freshly admitted device needs. -/
def buildInvite (inner : Inner) (answers : Answers) (s : WorkspaceState) (invitee : Bytes32)
    (role : Role) : Except WorkspaceError Invite := do
  let log ← s.cgka.opLog.mapError .core
  let mode : ShareMode := if role.canWrite then .write else .read
  let docTicket ← (answers.share mode).mapError .storage
  let notAfter ← (Invite.termsNow answers.clock).mapError .invite
  (Invite.sign
    { domain := inviteDomain
      treeId := inner.treeId
      invitee
      notAfter
      nonce := answers.nonce
      epoch := s.namespaceEpoch.epoch
      docTicket
      workspaceSecret := inner.secret
      log
      certs := s.capabilities.certificates
      inviter := inner.endpointId } inner.signer).mapError .invite

/-- Calls of other tasks take the state from one lock to the next. -/
def Later : WorkspaceState → WorkspaceState → Prop :=
  Relation.ReflTransGen fun s s' => ∃ (call : Call) (rng : Rng), s' = (after call.run (s, rng)).1

/-- The event `add_user` drives. -/
def addUserEvent (e : Enrollment) (role : Role) (displayName : String) :
    Except WorkspaceError Event := do
  let member ← e.memberId
  let endpoint ← e.endpointId
  return .addUser member e.shareKey role displayName (some endpoint)

/-- The event `add_device` drives. -/
def addDeviceEvent (e : Enrollment) (user : Bytes32) (label : String) :
    Except WorkspaceError Event := do
  let member ← e.memberId
  let endpoint ← e.endpointId
  return .addDevice member e.shareKey user label (some endpoint)

/-- `add_user` or `add_device` returned this invite: its event was handled in one
state, and the ticket was built in a later one. -/
inductive Issued (inner : Inner) (e : Enrollment) (s t : WorkspaceState) (invite : Invite) :
    Prop where
  | addUser (role : Role) (displayName : String) (event : Event) (now : UnixSeconds) (rng : Rng)
      (effects : List Effect) (p : WorkspaceState × Rng) (answers : Answers)
      (hevent : addUserEvent e role displayName = .ok event)
      (hhandled : handle event now (s, rng) = .ok effects p) (hlater : Later p.1 t)
      (hbuilt : buildInvite inner answers t e.member role = .ok invite)
  | addDevice (user : Bytes32) (label : String) (event : Event) (now : UnixSeconds) (rng : Rng)
      (effects : List Effect) (p : WorkspaceState × Rng) (between : WorkspaceState)
      (answers : Answers) (hevent : addDeviceEvent e user label = .ok event)
      (hhandled : handle event now (s, rng) = .ok effects p) (hbetween : Later p.1 between)
      (hlater : Later between t)
      (hbuilt : buildInvite inner answers t e.member
        ((between.capabilities.roleOf user).getD .viewer) = .ok invite)

/-! ## When a ticket is redeemable -/

variable {inner : Inner} {answers : Answers} {e : Enrollment} {s t : WorkspaceState}
  {invite : Invite}

/-- What a ticket says and who signed it. -/
theorem buildInvite_ok {invitee : Bytes32} {role : Role}
    (h : buildInvite inner answers s invitee role = .ok invite) :
    invite.payload.domain = inviteDomain ∧ invite.payload.treeId = inner.treeId ∧
      invite.payload.invitee = invitee ∧
      invite.payload.certs = s.capabilities.certificates ∧ invite.issuer = inner.signer ∧
      TermsSigner.trySign inner.signer invite.payload = some invite.signature := by
  obtain ⟨log, -, h⟩ := bind_eq_ok.mp h
  obtain ⟨ticket, -, h⟩ := bind_eq_ok.mp h
  obtain ⟨notAfter, -, h⟩ := bind_eq_ok.mp h
  have hsigned := mapError_eq_ok.mp h
  unfold Invite.sign at hsigned
  split at hsigned
  · next signature hsignature =>
      obtain rfl := Except.ok.inj hsigned
      exact ⟨rfl, rfl, rfl, rfl, rfl, hsignature⟩
  · exact absurd hsigned (by simp)

/-- A ticket with a good signature verifies for the device it names, within its time,
exactly when its issuer may administer by its certificates. -/
theorem Invite.verify_iff {invitee : Bytes32} (hdomain : invite.payload.domain = inviteDomain)
    (hsignature : TermsSigner.tryVerify invite = true)
    (hinvitee : invite.payload.invitee = invitee) :
    (∀ now ≤ invite.payload.notAfter, invite.verify invitee now = .ok ()) ↔
      ((CapabilityStore.new invite.payload.treeId).extend invite.payload.certs).2.mayAdminister
        invite.issuer = true := by
  have hverify : ∀ now ≤ invite.payload.notAfter, (invite.verify invitee now = .ok () ↔
      ((CapabilityStore.new invite.payload.treeId).extend invite.payload.certs).2.mayAdminister
        invite.issuer = true) := by
    intro now hnow
    unfold Invite.verify
    dsimp only
    rw [if_neg (not_not.mpr hdomain), if_neg (not_not.mpr hsignature),
      if_neg (not_not.mpr hinvitee), if_neg (not_not.mpr hnow)]
    split_ifs with hadmin
    · exact iff_of_true rfl hadmin
    · exact iff_of_false (by simp) hadmin
  constructor
  · intro h
    exact (hverify _ le_rfl).mp (h _ le_rfl)
  · intro h now hnow
    exact (hverify now hnow).mpr h

variable [LawfulBeekem]

theorem Reachable.later (hs : Reachable s) (h : Later s t) : Reachable t := by
  induction h with
  | refl => exact hs
  | tail _ hstep ih =>
      obtain ⟨call, rng, rfl⟩ := hstep
      exact ih.call call rng

theorem Reachable.handled {event : Event} {now : UnixSeconds} {rng : Rng} {effects : List Effect}
    {p : WorkspaceState × Rng} (hs : Reachable s)
    (h : handle event now (s, rng) = .ok effects p) : Reachable p.1 := by
  have hcall := hs.call (.handle event now) rng
  unfold after Call.run at hcall
  dsimp only at hcall
  rw [h] at hcall
  exact hcall

/-- Every ticket is built in a state of the run that admitted the device. -/
theorem Issued.built (h : Issued inner e s t invite) (hs : Reachable s) :
    Reachable t ∧ ∃ answers role, buildInvite inner answers t e.member role = .ok invite := by
  cases h with
  | addUser role displayName event now rng effects p answers hevent hhandled hlater hbuilt =>
      exact ⟨(hs.handled hhandled).later hlater, answers, role, hbuilt⟩
  | addDevice user label event now rng effects p between answers hevent hhandled hbetween hlater
      hbuilt =>
      exact ⟨((hs.handled hhandled).later hbetween).later hlater, answers, _, hbuilt⟩

/-- In every run, an invite that was handed out is redeemable exactly when the device
that signed it may administer under the certificates that went into it. -/
theorem invite_redeemable_iff (hs : Reachable s) (hissued : Issued inner e s t invite)
    (hroot : inner.treeId = t.cgka.certs.founder) (hsigner : inner.signer = t.cgka.signer)
    (hsound : ∀ terms signature, TermsSigner.trySign inner.signer terms = some signature →
      TermsSigner.tryVerify ⟨terms, inner.signer, signature⟩ = true) :
    (∀ now ≤ invite.payload.notAfter, invite.verify e.member now = .ok ()) ↔
      t.capabilities.mayAdminister t.memberId = true := by
  obtain ⟨ht, answers, role, hbuilt⟩ := hissued.built hs
  obtain ⟨hdomain, htree, hinvitee, hcerts, hissuer, hsigned⟩ := buildInvite_ok hbuilt
  have hsignature : TermsSigner.tryVerify invite = true := by
    have h := hsound _ _ hsigned
    rwa [← hissuer] at h
  have hupright := ht.upright
  rw [Invite.verify_iff hdomain hsignature hinvitee, htree, hcerts, hroot, hissuer, hsigner,
    hupright.signer]
  exact iff_of_eq (congrArg (fun store => CapabilityStore.mayAdminister store _ = true)
    (CapabilityStore.extend_certificates hupright.verified))

end Admission

end IrohBeekem

/-! ## A device enrolled by its own user -/

namespace IrohBeekem

open Library WorkspaceState

local instance ticketsKeyhive : Keyhive := transparentKeyhive

local instance ticketsBeekem : Beekem := listBeekem

local instance ticketsLawful : LawfulBeekem := listBeekem_live.toLawfulBeekem

local instance ticketsLoro : Loro := listLoro

local instance ticketsPostcard : Postcard := blankPostcard

local instance ticketsDocs : DocTickets := ⟨ShareMode⟩

/-- A signature repeats the signing key. -/
local instance ticketsSigner : TermsSigner where
  trySign signer _ := some (signer, 0)
  tryVerify invite := invite.signature = (invite.issuer, 0)

/-- The index shares itself, and the clock reads a thousand. -/
def willingAnswers : Answers := ⟨fun mode => .ok mode, 1, some 1000⟩

/-- Device `5` asks to be admitted. -/
def sampleEnrollment : Enrollment := ⟨5, 105, 205⟩

/-- The networked layer of a device of the sample workspace. -/
def innerOf (device : Bytes32) : Inner := ⟨1, device, 9, 200 + device⟩

/-- The founder admits user `2` as an editor. -/
@[irreducible] def editorRun : WorkspaceState × Rng :=
  runAll [.handle (.addUser 2 102 .editor "second" none) 0] (sampleWorkspace 1, (1 : Nat))

/-- The editor has joined. -/
@[irreducible] def editor : WorkspaceState × Rng := (joinedWorkspace editorRun.1 2 102, (1 : Nat))

/-- The founder admits device `5` as a user of its own. -/
@[irreducible] def founderIssues : WorkspaceState × Rng :=
  after (handle (.addUser 5 105 .viewer "fifth" (some 205)) 0) editorRun

/-- The editor admits device `5` as its own second device. -/
@[irreducible] def editorIssues : WorkspaceState × Rng :=
  after (handle (.addDevice 5 105 2 "laptop" (some 205)) 0) editor

private theorem editorRun_reachable : Reachable editorRun.1 := by
  unfold editorRun
  exact (sampleWorkspace_reachable (by decide +kernel)).calls
    (p := (sampleWorkspace 1, (1 : Nat))) _

private theorem editor_reachable : Reachable editor.1 := by
  unfold editor
  exact editorRun_reachable.joinedWorkspace 2 102

private theorem built_of_isSome (inner : Inner) (s : WorkspaceState) (role : Role)
    (h : (buildInvite inner willingAnswers s 5 role).toOption.isSome = true) :
    ∃ invite, buildInvite inner willingAnswers s 5 role = .ok invite := by
  cases hbuilt : buildInvite inner willingAnswers s 5 role with
  | ok invite => exact ⟨invite, rfl⟩
  | error err =>
      rw [hbuilt] at h
      exact absurd h (by simp [Except.toOption])

/-- The founder's invite is redeemable. -/
theorem invite_redeemable_iff_founderIssues :
    ∃ invite, Issued (innerOf 1) sampleEnrollment editorRun.1 founderIssues.1 invite ∧
      ∀ now ≤ invite.payload.notAfter, invite.verify 5 now = .ok () := by
  obtain ⟨invite, hbuilt⟩ := built_of_isSome (innerOf 1) founderIssues.1 .viewer (by decide +kernel)
  obtain ⟨effects, hhandled⟩ := run_of_succeeds
    (x := handle (.addUser 5 105 .viewer "fifth" (some 205)) 0) (s := editorRun)
    (by decide +kernel)
  have hissued : Issued (innerOf 1) sampleEnrollment editorRun.1 founderIssues.1 invite := by
    refine .addUser .viewer "fifth" _ 0 editorRun.2 effects founderIssues willingAnswers rfl ?_
      .refl hbuilt
    unfold founderIssues
    exact hhandled
  refine ⟨invite, hissued, (invite_redeemable_iff editorRun_reachable hissued ?_ ?_ ?_).mpr ?_⟩
  · decide +kernel
  · decide +kernel
  · intro terms signature hsigned
    simpa [TermsSigner.tryVerify] using (Option.some.inj hsigned).symm
  · decide +kernel

/-- The editor's is not. -/
theorem invite_editorIssues_refused :
    ¬ ∀ (inner : Inner) (e : Enrollment) (s t : WorkspaceState) (invite : Invite), Reachable s →
      Issued inner e s t invite → inner.treeId = t.cgka.certs.founder →
      inner.signer = t.cgka.signer →
      ∀ now ≤ invite.payload.notAfter, invite.verify e.member now = .ok () := by
  intro h
  obtain ⟨invite, hbuilt⟩ := built_of_isSome (innerOf 2) editorIssues.1
    ((editorIssues.1.capabilities.roleOf 2).getD .viewer) (by decide +kernel)
  obtain ⟨effects, hhandled⟩ := run_of_succeeds
    (x := handle (.addDevice 5 105 2 "laptop" (some 205)) 0) (s := editor) (by decide +kernel)
  have hissued : Issued (innerOf 2) sampleEnrollment editor.1 editorIssues.1 invite := by
    refine .addDevice 2 "laptop" _ 0 editor.2 effects editorIssues editorIssues.1 willingAnswers
      rfl ?_ .refl .refl hbuilt
    unfold editorIssues
    exact hhandled
  have hverifies := h _ _ _ _ _ editor_reachable hissued (by decide +kernel) (by decide +kernel)
    invite.payload.notAfter le_rfl
  have hrefused : (buildInvite (innerOf 2) willingAnswers editorIssues.1 5
      ((editorIssues.1.capabilities.roleOf 2).getD .viewer)).toOption.map
        (fun invite => (invite.verify 5 invite.payload.notAfter).toOption.isSome) =
      some false := by decide +kernel
  rw [hbuilt] at hrefused
  have hnone : (invite.verify 5 invite.payload.notAfter).toOption.isSome = false :=
    Option.some.inj hrefused
  change invite.verify 5 invite.payload.notAfter = .ok () at hverifies
  rw [hverifies] at hnone
  exact absurd hnone (by simp [Except.toOption])

end IrohBeekem
