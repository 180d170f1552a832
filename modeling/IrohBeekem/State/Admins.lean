import IrohBeekem.Capability.Counts
import IrohBeekem.State.Certified
import IrohBeekem.State.ListModel
import IrohBeekem.State.Reach

/-!
# The last administrator

A workspace without an administrator can never gain one, and a guard refuses what
would leave it so.  The guard counts certificates, and these outlive the leaves: a
removed administrator still counts as one.  It is enough where what it counts is alive
(`CountsLive`), and the calls that no guard stands before must leave somebody alone
(`Call.Spares`).  Under these two conditions a workspace always has an administrator
with a device among the members (`liveAdmin_remains`).
-/

set_option linter.unusedSectionVars false

namespace IrohBeekem

open Library CgkaController WorkspaceState

variable [Keyhive] [Beekem] [Loro] [Postcard]

namespace WorkspaceState

/-- A user who administers, with a device that is a member. -/
structure LiveAdmin (s : WorkspaceState) (user device : Bytes32) : Prop where
  role : s.capabilities.roleOf user = some .admin
  owner : s.capabilities.userOf device = some user
  member : device ∈ s.cgka.currentMembers

/-- What the guard counts is alive: every administrator has devices, and all of them are
members. -/
def CountsLive (s : WorkspaceState) : Prop :=
  ∀ user, s.capabilities.roleOf user = some .admin →
    s.capabilities.devicesOf user ≠ [] ∧
      ∀ device ∈ s.capabilities.devicesOf user, device ∈ s.cgka.currentMembers

/-! ## What the guard achieves -/

section Guard

variable {s : WorkspaceState} {user device member : Bytes32}

theorem CountsLive.live (h : s.CountsLive) (hrole : s.capabilities.roleOf user = some .admin) :
    ∃ device, s.LiveAdmin user device := by
  obtain ⟨hsome, hmembers⟩ := h user hrole
  obtain ⟨device, hdevice⟩ := List.exists_mem_of_ne_nil _ hsome
  exact ⟨device, hrole, CapabilityStore.mem_devicesOf.mp hdevice, hmembers device hdevice⟩

/-- Where the guard lets a user go, another administrator is alive. -/
theorem CountsLive.other (h : s.CountsLive) (hlive : ∃ user device, s.LiveAdmin user device)
    (hguard : ¬ ((s.capabilities.roleOf user).any Role.canAdminister = true ∧
      s.capabilities.adminCount ≤ 1)) :
    ∃ u d, s.LiveAdmin u d ∧ u ≠ user := by
  by_cases hadmin : (s.capabilities.roleOf user).any Role.canAdminister = true
  · have hcount : ¬ s.capabilities.adminCount ≤ 1 := fun hcount => hguard ⟨hadmin, hcount⟩
    obtain ⟨u, hrole, hne⟩ := CapabilityStore.exists_other_admin hcount user
    obtain ⟨d, hd⟩ := h.live hrole
    exact ⟨u, d, hd, hne⟩
  · obtain ⟨u, d, hd⟩ := hlive
    refine ⟨u, d, hd, ?_⟩
    rintro rfl
    rw [hd.role] at hadmin
    exact hadmin rfl

/-- Where the guard lets a device be removed, an administrator is alive on another. -/
theorem CountsLive.removal (h : s.CountsLive) (hlive : ∃ user device, s.LiveAdmin user device)
    (hguard : ¬ s.capabilities.Refuses member) : ∃ u d, s.LiveAdmin u d ∧ d ≠ member := by
  by_cases hfew : (s.capabilities.devicesOf
      ((s.capabilities.userOf member).getD member)).length ≤ 1
  · obtain ⟨u, d, hd, hne⟩ := h.other hlive fun hlast => hguard ⟨hfew, hlast⟩
    refine ⟨u, d, hd, ?_⟩
    rintro rfl
    rw [hd.owner] at hne
    exact hne rfl
  · obtain ⟨d, howner, hne⟩ := CapabilityStore.exists_other_device hfew member
    by_cases hadmin : s.capabilities.roleOf ((s.capabilities.userOf member).getD member) =
        some .admin
    · exact ⟨_, d, ⟨hadmin, howner, (h _ hadmin).2 d (CapabilityStore.mem_devicesOf.mpr howner)⟩,
        hne⟩
    · obtain ⟨u, d', hd'⟩ := hlive
      refine ⟨u, d', hd', ?_⟩
      rintro rfl
      rw [hd'.owner] at hadmin
      exact hadmin hd'.role

/-- Where the guard lets the local user leave, an administrator is alive on a device that
stays. -/
theorem CountsLive.departure (h : s.CountsLive) (hlive : ∃ user device, s.LiveAdmin user device)
    (hguard : ¬ s.LastAdmin) : ∃ u d, s.LiveAdmin u d ∧ d ∉ s.leavingDevices := by
  obtain ⟨u, d, hd, hne⟩ := h.other hlive hguard
  refine ⟨u, d, hd, fun hleaving => ?_⟩
  unfold leavingDevices at hleaving
  dsimp only at hleaving
  split_ifs at hleaving with hnone
  · rw [← List.mem_singleton.mp hleaving, hd.owner] at hne
    exact hne rfl
  · have howner := CapabilityStore.mem_devicesOf.mp hleaving
    rw [hd.owner] at howner
    exact hne (Option.some.inj howner)

end Guard

end WorkspaceState

/-! ## The calls -/

/-- The calls that the last-admin guard stands before. -/
def Call.guarded : Call → Bool
  | .handle (.removeMember _) _ => true
  | .handle .leave _ => true
  | .handle (.setRole _ role) _ => !role.canAdminister
  | _ => false

/-- A call leaves this user and this device alone: it takes the device out in no way, and
under every store it may leave the user administers and owns the device. -/
structure Call.Spares (call : Call) (s : WorkspaceState) (user device : Bytes32) : Prop where
  taken : ∀ op ∈ call.taken s, op.payload.removed? ≠ some device
  removes : ∀ certs, call.Outcome s certs → ¬ (call.mandate s certs).removes device
  role : ∀ certs, call.Outcome s certs → certs.roleOf user = some .admin
  owner : ∀ certs, call.Outcome s certs → certs.userOf device = some user

/-- The guard counts what is alive, or a live administrator is left alone. -/
def Turn.SparesAdmin (turn : Turn) (s : WorkspaceState) : Prop :=
  match turn with
  | .restart _ _ => True
  | .call made _ => made.guarded = true ∧ s.CountsLive ∨
      ∃ user device, s.LiveAdmin user device ∧ made.Spares s user device

section Calls

variable [LawfulBeekem] {s : WorkspaceState} {user device : Bytes32} {made : Call} {rng : Rng}

/-- Who is a member before a call that does not take them out is one after it. -/
theorem Call.member_after (hmember : device ∈ s.cgka.currentMembers)
    (htaken : ∀ op ∈ made.taken s, op.payload.removed? ≠ some device)
    (hremoves : ¬ (made.mandate s (after made.run (s, rng)).1.cgka.certs).removes device) :
    device ∈ (after made.run (s, rng)).1.cgka.currentMembers := by
  by_contra hgone
  rcases (made.shifted_after s rng).departed hmember hgone with ⟨op, hop, hremoved⟩ | hown
  · exact htaken op hop hremoved
  · exact hremoves hown

/-- Whoever a call leaves alone is a live administrator after it. -/
theorem Call.Spares.live (h : made.Spares s user device) (hlive : s.LiveAdmin user device) :
    (after made.run (s, rng)).1.LiveAdmin user device := by
  have houtcome := made.outcome s rng
  exact ⟨h.role _ houtcome, h.owner _ houtcome,
    Call.member_after hlive.member h.taken (h.removes _ houtcome)⟩

omit [LawfulBeekem] in
/-- A demotion that went through passed the guard. -/
theorem onSetRole_guarded (user : Bytes32) {role : Role} (hlesser : role.canAdminister = false)
    (s : WorkspaceState) (rng : Rng) :
    Wp (onSetRole user role)
      (fun _ p => p.1.cgka.certs = s.cgka.certs ∨
        ¬ ((s.capabilities.roleOf user).any Role.canAdminister = true ∧
          s.capabilities.adminCount ≤ 1))
      (fun _ p => p.1.cgka.certs = s.cgka.certs ∨
        ¬ ((s.capabilities.roleOf user).any Role.canAdminister = true ∧
          s.capabilities.adminCount ≤ 1)) (s, rng) := by
  by_cases hlast : (s.capabilities.roleOf user).any Role.canAdminister = true ∧
      s.capabilities.adminCount ≤ 1
  · -- the guard refuses before anything is signed
    have hrefused : ∀ x : Run (List Effect),
        Wp (do requireNotLastAdmin user; x) (fun _ p => p.1.cgka.certs = s.cgka.certs)
          (fun _ p => p.1.cgka.certs = s.cgka.certs) (s, rng) := by
      intro x
      unfold requireNotLastAdmin
      rw [wp_bind, wp_bind, wp_self]
      dsimp only
      rw [if_pos hlast]
      rfl
    have hunchanged : Wp (onSetRole user role) (fun _ p => p.1.cgka.certs = s.cgka.certs)
        (fun _ p => p.1.cgka.certs = s.cgka.certs) (s, rng) := by
      unfold onSetRole
      rw [wp_bind, wp_self]
      simp only [hlesser, Bool.false_eq_true, not_false_eq_true, if_true]
      split_ifs
      · refine requireAdmin_spec.seq ?_ ?_
        · rintro _ p ⟨rfl, -⟩
          exact hrefused _
        · rintro e p rfl
          rfl
      · refine (requireQuorum_spec _).seq ?_ ?_
        · rintro _ p ⟨rfl, -⟩
          rfl
        · rintro e p rfl
          rfl
      · refine (requireQuorum_spec _).seq ?_ ?_
        · rintro _ p ⟨rfl, -⟩
          exact hrefused _
        · rintro e p rfl
          rfl
    exact hunchanged.mono (fun _ _ => Or.inl) fun _ _ => Or.inl
  · exact wp_of_run (fun _ _ _ => Or.inr hlast) fun _ _ _ => Or.inr hlast

omit [LawfulBeekem] in
/-- What a demotion may add is a grant of the lesser role. -/
theorem Call.Outcome.demotes {role : Role} {now : UnixSeconds} {certs : CapabilityStore}
    (hlesser : role.canAdminister = false)
    (h : Call.Outcome (.handle (.setRole user role) now) s certs) :
    s.capabilities.Demotes user certs := by
  refine ⟨h.founder, h.kept, fun x hx => (h.gained x hx).imp_right ?_⟩
  rintro (hx | ⟨p, ⟨seq, nonce, rfl⟩, signature, rfl⟩)
  · exact absurd hx List.not_mem_nil
  · refine ⟨_, rfl, rfl, fun hadmin => ?_⟩
    have hrole : role = .admin := hadmin
    rw [hrole] at hlesser
    exact absurd hlesser (by decide)

theorem setRole_live {role : Role} {now : UnixSeconds} (hlesser : role.canAdminister = false)
    (hcounts : s.CountsLive) (hlive : ∃ user device, s.LiveAdmin user device) :
    ∃ u d, (after (Call.run (.handle (.setRole user role) now)) (s, rng)).1.LiveAdmin u d := by
  have hmember : ∀ d ∈ s.cgka.currentMembers,
      d ∈ (after (Call.run (.handle (.setRole user role) now)) (s, rng)).1.cgka.currentMembers := by
    intro d hd
    refine Call.member_after hd ?_ ?_
    · rintro op ⟨htakes, -⟩
      exact absurd htakes (by simp [Call.takesIn])
    · rintro (hremoves | ⟨hquorum, -⟩)
      · exact hremoves
      · exact absurd hquorum (by simp [Call.runsQuorum])
  have hdemotes := (Call.outcome (.handle (.setRole user role) now) s rng).demotes hlesser
  have hguarded := Wp.after (P := fun p : WorkspaceState × Rng =>
    p.1.cgka.certs = s.cgka.certs ∨ ¬ ((s.capabilities.roleOf user).any Role.canAdminister = true ∧
      s.capabilities.adminCount ≤ 1)) (onSetRole_guarded user hlesser s rng)
  rcases hguarded with hsame | hguard
  · obtain ⟨u, d, hd⟩ := hlive
    refine ⟨u, d, ?_, ?_, hmember d hd.member⟩
    · exact (congrArg (CapabilityStore.roleOf · u) hsame).trans hd.role
    · exact (congrArg (CapabilityStore.userOf · d) hsame).trans hd.owner
  · obtain ⟨u, d, hd, hne⟩ := hcounts.other hlive hguard
    exact ⟨u, d, (hdemotes.roleOf_eq hne .admin).mpr hd.role,
      (hdemotes.userOf_eq d).trans hd.owner, hmember d hd.member⟩

/-- A call that leaves the certificates as they were and does not take this device out. -/
theorem Call.live_of_same (hcerts : (after made.run (s, rng)).1.cgka.certs = s.cgka.certs)
    (htakes : made.takesIn = false) (hquorum : made.runsQuorum = false)
    (hlive : s.LiveAdmin user device) (hremoves : ¬ made.removes s device) :
    (after made.run (s, rng)).1.LiveAdmin user device := by
  refine ⟨?_, ?_, Call.member_after hlive.member ?_ ?_⟩
  · exact (congrArg (CapabilityStore.roleOf · user) hcerts).trans hlive.role
  · exact (congrArg (CapabilityStore.userOf · device) hcerts).trans hlive.owner
  · rintro op ⟨htaken, -⟩
    rw [htakes] at htaken
    exact absurd htaken (by simp)
  · rintro (hown | ⟨hpass, -⟩)
    · exact hremoves hown
    · rw [hquorum] at hpass
      exact absurd hpass (by simp)

theorem removeMember_live {member : Bytes32} {now : UnixSeconds} (hcounts : s.CountsLive)
    (hlive : ∃ user device, s.LiveAdmin user device) :
    ∃ u d, (after (Call.run (.handle (.removeMember member) now)) (s, rng)).1.LiveAdmin u d := by
  have hsame : (after (Call.run (.handle (.removeMember member) now)) (s, rng)).1.cgka.certs =
      s.cgka.certs :=
    Wp.after (P := fun p : WorkspaceState × Rng => p.1.cgka.certs = s.cgka.certs)
      ((onRemoveMember_shifted member now s rng).mono (fun _ _ h => h.2) fun _ _ h => h.2)
  by_cases hguard : s.capabilities.Refuses member
  · obtain ⟨u, d, hd⟩ := hlive
    refine ⟨u, d, Call.live_of_same hsame rfl rfl hd ?_⟩
    rintro ⟨rfl, hallowed⟩
    exact hallowed hguard
  · obtain ⟨u, d, hd, hne⟩ := hcounts.removal hlive hguard
    exact ⟨u, d, Call.live_of_same hsame rfl rfl hd fun hremoves => hne hremoves.1⟩

theorem leave_live {now : UnixSeconds} (hcounts : s.CountsLive)
    (hlive : ∃ user device, s.LiveAdmin user device) :
    ∃ u d, (after (Call.run (.handle .leave now)) (s, rng)).1.LiveAdmin u d := by
  have hsame : (after (Call.run (.handle .leave now)) (s, rng)).1.cgka.certs = s.cgka.certs :=
    Wp.after (P := fun p : WorkspaceState × Rng => p.1.cgka.certs = s.cgka.certs)
      ((onLeave_shifted now s rng).mono (fun _ _ h => h.2) fun _ _ h => h.2)
  by_cases hguard : s.LastAdmin
  · obtain ⟨u, d, hd⟩ := hlive
    exact ⟨u, d, Call.live_of_same hsame rfl rfl hd fun hremoves => hremoves.2 hguard⟩
  · obtain ⟨u, d, hd, hstays⟩ := hcounts.departure hlive hguard
    exact ⟨u, d, Call.live_of_same hsame rfl rfl hd fun hremoves => hstays hremoves.1⟩

/-- A guarded call keeps an administrator alive where the guard counts what is alive. -/
theorem guarded_live (hguarded : made.guarded = true) (hcounts : s.CountsLive)
    (hlive : ∃ user device, s.LiveAdmin user device) :
    ∃ u d, (after made.run (s, rng)).1.LiveAdmin u d := by
  cases made with
  | handle event now =>
      cases event with
      | removeMember member => exact removeMember_live hcounts hlive
      | leave => exact leave_live hcounts hlive
      | setRole user role =>
          exact setRole_live (by simpa [Call.guarded] using hguarded) hcounts hlive
      | _ => exact absurd hguarded (by simp [Call.guarded])
  | _ => exact absurd hguarded (by simp [Call.guarded])

end Calls

/-! ## Runs -/

section Runs

variable {s s' : WorkspaceState} {user device : Bytes32}

/-- The founder is a live administrator of what it has just founded. -/
theorem Founded.live (h : Founded s) : ∃ user device, s.LiveAdmin user device := by
  obtain ⟨treeId, signer, secret, threshold, rng, rng', c, hcreate, hfound⟩ := h
  have hstart : c.memberId = signer ∧ c.currentMembers = {signer} ∧ c.certs = .new signer := by
    unfold CgkaController.create at hcreate
    dsimp only at hcreate
    split at hcreate
    · exact absurd (congrArg Prod.fst hcreate) (by simp)
    · obtain rfl := Except.ok.inj (congrArg Prod.fst hcreate)
      exact ⟨rfl, rfl, rfl⟩
  obtain ⟨hmember, hcurrent, hcerts⟩ := hstart
  have hinv : s.cgka.currentMembers = {signer} ∧ s.cgka.certs.founder = signer ∧
      (∀ signed ∈ s.cgka.certs.certs.grants, signed.payload.capability = .admin) ∧
      ∀ signed, signed ∉ s.cgka.certs.certs.proposals := by
    refine found_invariant (P := fun s => s.cgka.currentMembers = {signer} ∧
      s.cgka.certs.founder = signer ∧
      (∀ signed ∈ s.cgka.certs.certs.grants, signed.payload.capability = .admin) ∧
      ∀ signed, signed ∉ s.cgka.certs.certs.proposals) hfound ?_ ?_ ?_ ?_
    · refine ⟨hcurrent, congrArg CapabilityStore.founder hcerts, ?_, ?_⟩
      · intro signed hsigned
        change signed ∈ c.certs.certs.grants at hsigned
        rw [hcerts] at hsigned
        exact absurd hsigned List.not_mem_nil
      · intro signed hsigned
        change signed ∈ c.certs.certs.proposals at hsigned
        rw [hcerts] at hsigned
        exact absurd hsigned List.not_mem_nil
    · exact fun s hs => wp_of_run (fun _ _ _ => hs) fun _ _ _ => trivial
    · exact fun s hs => wp_of_run (fun _ _ _ => hs) fun _ _ _ => trivial
    · rintro p s hp ⟨hcurrent, hfounder, hgrants, hproposals⟩
      refine (certify_run s.cgka p).mono ?_ fun _ _ _ => trivial
      rintro cert c' ⟨hsign, isNew, certs, hinsert, rfl⟩
      obtain ⟨hkeeps, -, -, hgained⟩ := CapabilityStore.insert_cases hinsert
      obtain ⟨signature, rfl⟩ : ∃ signature, cert = p.certificate s.cgka.signer signature := by
        unfold Payload.sign at hsign
        cases htry : Keyhive.trySign s.cgka.signer p with
        | ok signature =>
            rw [htry] at hsign
            exact ⟨signature, (Except.ok.inj hsign).symm⟩
        | error message =>
            rw [htry] at hsign
            exact absurd hsign (by simp)
      refine ⟨hcurrent, hkeeps.trans hfounder, fun signed hsigned => ?_, fun signed hsigned => ?_⟩
      · rcases hgained (.grant signed) hsigned with hold | hnew
        · exact hgrants signed hold
        · cases p with
          | grant grant =>
              obtain rfl := Certificate.grant.inj hnew
              exact hp.2
          | _ => exact absurd hnew (by simp [Payload.certificate])
      · rcases hgained (.proposal signed) hsigned with hold | hnew
        · exact hproposals signed hold
        · cases p with
          | proposal proposal => exact hp
          | _ => exact absurd hnew (by simp [Payload.certificate])
  obtain ⟨hmembers, hfounder, hgrants, hproposals⟩ := hinv
  refine ⟨s.cgka.certs.founder, s.cgka.certs.founder, ?_, s.cgka.certs.supported.founder_user, ?_⟩
  · exact CapabilityStore.roleOf_founder (fun signed hmem _ => hgrants signed hmem)
      fun signed hmem => absurd hmem (hproposals signed)
  · rw [hmembers, hfounder]
    exact Finset.mem_singleton_self signer

variable [LawfulBeekem]

/-- A restart leaves a live administrator one. -/
theorem LiveAdmin.restart (hreach : Reachable s) (h : s.LiveAdmin user device)
    (order : HashOrder) (rng : Rng) : ((Turn.restart order rng).take s).LiveAdmin user device := by
  rcases Turn.restart_spec order rng s with hsame | hresumed
  · rw [hsame]
    exact h
  · have hcerts : ((Turn.restart order rng).take s).cgka.certs = s.cgka.certs :=
      hresumed.certs.trans (CapabilityStore.extend_certificates hreach.upright.verified)
    refine ⟨?_, ?_, ?_⟩
    · exact (congrArg (CapabilityStore.roleOf · user) hcerts).trans h.role
    · exact (congrArg (CapabilityStore.userOf · device) hcerts).trans h.owner
    · rw [hresumed.current]
      exact h.member

/-- In every run whose guards count what is alive, and whose other calls leave a live
administrator alone, there always is one. -/
theorem liveAdmin_remains {s : WorkspaceState}
    (h : (runsFrom Founded Turn.SparesAdmin).Course s ()) :
    ∃ user device, s.capabilities.roleOf user = some .admin ∧
      s.capabilities.userOf device = some user ∧ device ∈ s.cgka.currentMembers := by
  have hinv : Reachable s ∧ ∃ user device, s.LiveAdmin user device := by
    refine h.invariant (P := fun s _ => Reachable s ∧ ∃ user device, s.LiveAdmin user device) ?_ ?_
    · exact fun s _ hs => ⟨.of_started (Or.inl hs), Founded.live hs⟩
    · rintro s _ turn ⟨hreach, hlive⟩ hok
      refine ⟨hreach.turn turn, ?_⟩
      cases turn with
      | restart order rng =>
          obtain ⟨user, device, hadmin⟩ := hlive
          exact ⟨user, device, LiveAdmin.restart hreach hadmin order rng⟩
      | call made rng =>
          rcases hok with ⟨hguarded, hcounts⟩ | ⟨user, device, hadmin, hspares⟩
          · exact guarded_live hguarded hcounts hlive
          · exact ⟨user, device, hspares.live hadmin⟩
  obtain ⟨user, device, hadmin⟩ := hinv.2
  exact ⟨user, device, hadmin.role, hadmin.owner, hadmin.member⟩

end Runs

end IrohBeekem

/-! ## A workspace that is left behind -/

namespace IrohBeekem

open Library WorkspaceState

section Samples

local instance strandedKeyhive : Keyhive := transparentKeyhive

local instance strandedBeekem : Beekem := listBeekem

local instance strandedLawful : LawfulBeekem := listBeekem_live.toLawfulBeekem

local instance strandedLoro : Loro := listLoro

local instance strandedPostcard : Postcard := blankPostcard

/-- The runs of a founder in which a live administrator is left alone. -/
def sparingRuns : Chart WorkspaceState Turn Unit := runsFrom Founded Turn.SparesAdmin

/-- The founder admits a viewer. -/
def viewerAdmission : Turn := .call (.handle (.addUser 2 102 .viewer "second" none) 0) (1 : Nat)

@[irreducible] def hosting : WorkspaceState := viewerAdmission.take (sampleWorkspace 1)

/-- It then removes the viewer again. -/
@[irreducible] def unhosting : WorkspaceState :=
  (Turn.call (.handle (.removeMember 2) 0) (3 : Nat)).take hosting

/-- Admitting a viewer leaves the founder alone. -/
private theorem viewerAdmission_spares : viewerAdmission.SparesAdmin (sampleWorkspace 1) := by
  have hadmins : ((sampleWorkspace 1).capabilities.certs.grants.toList.all fun signed =>
      signed.payload.capability.canAdminister) = true := by decide +kernel
  have hnone : (sampleWorkspace 1).capabilities.certs.proposals.toList.isEmpty = true := by
    decide +kernel
  have hfounder : (sampleWorkspace 1).capabilities.founder = 1 := by decide +kernel
  refine Or.inr ⟨1, 1, ⟨by decide +kernel, by decide +kernel, by decide +kernel⟩, ?_, ?_, ?_, ?_⟩
  · rintro op ⟨htakes, -⟩
    exact absurd htakes (by simp [Call.takesIn])
  · rintro certs - (hremoves | ⟨hquorum, -⟩)
    · exact hremoves
    · exact absurd hquorum (by simp [Call.runsQuorum])
  · intro certs houtcome
    have hkeeps : certs.founder = 1 := houtcome.founder.trans hfounder
    have hrole : certs.roleOf certs.founder = some .admin := by
      refine CapabilityStore.roleOf_founder ?_ ?_
      · intro signed hmem hsubject
        rcases houtcome.gained (.grant signed) hmem with hold | hnew | ⟨p, hp, signature, heq⟩
        · exact CapabilityStore.canAdminister_iff.mp (List.all_eq_true.mp hadmins signed hold)
        · exact absurd hnew List.not_mem_nil
        · rcases hp with ⟨nonce, rfl⟩ | ⟨seq, nonce, rfl⟩
          · exact absurd heq (by simp [Payload.certificate])
          · obtain rfl := Certificate.grant.inj heq
            rw [hkeeps] at hsubject
            exact absurd (show (2 : Bytes32) = 1 from hsubject) (by decide)
      · intro signed hmem
        rcases houtcome.gained (.proposal signed) hmem with hold | hnew | ⟨p, hp, signature, heq⟩
        · rw [Certificates.mem_proposal, Keyed.mem_def, List.isEmpty_iff.mp hnone] at hold
          exact absurd hold List.not_mem_nil
        · exact absurd hnew List.not_mem_nil
        · rcases hp with ⟨nonce, rfl⟩ | ⟨seq, nonce, rfl⟩
          · exact absurd heq (by simp [Payload.certificate])
          · exact absurd heq (by simp [Payload.certificate])
    rw [← hkeeps]
    exact hrole
  · intro certs houtcome
    have hkeeps : certs.founder = 1 := houtcome.founder.trans hfounder
    have howner := certs.supported.founder_user
    rw [hkeeps] at howner
    exact howner

/-- The only administrator is the founder, and its one device is a member. -/
private theorem hosting_countsLive : hosting.CountsLive := by
  intro user hrole
  have hall : (hosting.capabilities.derived.roles.toList.all fun entry =>
      !entry.2.canAdminister || (!(hosting.capabilities.devicesOf entry.1).isEmpty &&
        (hosting.capabilities.devicesOf entry.1).all fun device =>
          decide (device ∈ hosting.cgka.currentMembers))) = true := by decide +kernel
  have hentry := List.all_eq_true.mp hall (user, .admin) (BTreeMap.get?_eq_some.mp hrole)
  have hboth : ¬ hosting.capabilities.devicesOf user = [] ∧
      ∀ device ∈ hosting.capabilities.devicesOf user, device ∈ hosting.cgka.currentMembers := by
    simpa [Role.canAdminister] using hentry
  exact hboth

theorem liveAdmin_remains_unhosting :
    ∃ user device, unhosting.capabilities.roleOf user = some .admin ∧
      unhosting.capabilities.userOf device = some user ∧
        device ∈ unhosting.cgka.currentMembers := by
  have hstart : sparingRuns.Course (sampleWorkspace 1) () :=
    .start (sampleWorkspace_founded (by decide +kernel))
  have hhosting : sparingRuns.Course hosting () := by
    unfold hosting
    exact hstart.step viewerAdmission viewerAdmission_spares
  have hunhosting : sparingRuns.Course unhosting () := by
    unfold unhosting
    exact hhosting.step (.call (.handle (.removeMember 2) 0) (3 : Nat))
      (Or.inl ⟨rfl, hosting_countsLive⟩)
  exact liveAdmin_remains hunhosting

/-- What a node does of its own accord that is about members and roles. -/
def Turn.administers : Turn → Bool
  | .call (.handle (.addUser _ _ _ _ _) _) _ => true
  | .call (.handle (.addDevice _ _ _ _ _) _) _ => true
  | .call (.handle (.setRole _ _) _) _ => true
  | .call (.handle (.removeMember _) _) _ => true
  | .call (.handle .leave _) _ => true
  | .call (.handle (.propose _ _) _) _ => true
  | .call (.handle (.approve _) _) _ => true
  | _ => false

/-- The runs of a founder that acts alone. -/
def soleRuns : Chart WorkspaceState Turn Unit :=
  runsFrom Founded fun turn _ => turn.administers = true

/-- It admits another administrator and a viewer, removes the administrator's device, and
leaves. -/
@[irreducible] def abandoned : WorkspaceState :=
  (soleRuns.takeAll
    [.call (.handle (.addUser 2 102 .admin "second" none) 0) (1 : Nat),
      .call (.handle (.addUser 3 103 .viewer "third" none) 0) (3 : Nat),
      .call (.handle (.removeMember 2) 0) (5 : Nat), .call (.handle .leave 0) (7 : Nat)]
    (sampleWorkspace 1, ())).1

private theorem abandoned_course : soleRuns.Course abandoned () := by
  have hstart : soleRuns.Course (sampleWorkspace 1) () :=
    .start (sampleWorkspace_founded (by decide +kernel))
  unfold abandoned
  exact hstart.takeAll (r := (sampleWorkspace 1, ())) _ ⟨rfl, rfl, rfl, rfl, trivial⟩

/-- Only the viewer's device is left. -/
private theorem abandoned_viewer : abandoned.cgka.currentMembers = {3} ∧
    abandoned.capabilities.roleOfMember 3 = some .viewer := by
  constructor
  · decide +kernel
  · decide +kernel

theorem liveAdmin_lost :
    ¬ ∀ s : WorkspaceState, soleRuns.Course s () →
      ∃ user device, s.capabilities.roleOf user = some .admin ∧
        s.capabilities.userOf device = some user ∧ device ∈ s.cgka.currentMembers := by
  intro h
  obtain ⟨user, device, hrole, howner, hmember⟩ := h abandoned abandoned_course
  obtain ⟨hmembers, hviewer⟩ := abandoned_viewer
  rw [hmembers] at hmember
  obtain rfl := Finset.mem_singleton.mp hmember
  unfold CapabilityStore.roleOfMember at hviewer
  rw [howner, Option.bind_some, hrole] at hviewer
  exact absurd hviewer (by decide)

end Samples

end IrohBeekem
