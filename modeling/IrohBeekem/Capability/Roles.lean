import IrohBeekem.Capability.Closure

/-!
# Current roles

`resolve_roles` runs after the closure has settled and reads it twice: once for
the grants it admits, once for the role proposals it has executed.  The two
passes share one table and one order on decisions, `(seq, digest)`.

`resolveRoles_source` says where a current role can come from.  It is set
against `closure_closed` to compare the two notions of an admin: the current
one, which this pass computes, and the monotone one, which the closure
accumulates from grants alone.
-/

namespace IrohBeekem

open Library

variable [Keyhive]

section

variable {founder : Bytes32} {threshold : Nat} {S S' : Certificates} {c c' : Closure}

/-- A decision the closure recognises about a user's role. -/
inductive Decided (founder : Bytes32) (threshold : Nat) (S : Certificates) (c : Closure)
    (user : Bytes32) (role : Role) : Prop where
  /-- The axiom of the founding. -/
  | seed (huser : user = founder) (hrole : role = .admin)
  /-- A grant the threshold permits, from an ever-admin's device. -/
  | grant (signed : Signed Grant) (hmem : signed ∈ S.grants)
      (hsubject : signed.payload.subject = user) (hrole : signed.payload.capability = role)
      (hadmitted : GrantAdmitted founder threshold S c signed)
  /-- An executed role proposal. -/
  | proposal (signed : Signed AdminProposal) (hmem : signed ∈ S.proposals)
      (haction : signed.payload.action = .setRole user role)
      (hexecuted : Certificate.digest (.proposal signed) ∈ c.executed)

omit [Keyhive] in
/-- A recorded decision only touches its own user, and leaves either the role it
carries or the one already there. -/
theorem RoleTable.consider_roles {t : RoleTable} {user u : Bytes32} {rank : Rank}
    {role r : Role} (h : BTreeMap.get? (t.consider user rank role).roles u = some r) :
    BTreeMap.get? t.roles u = some r ∨ u = user ∧ r = role := by
  unfold RoleTable.consider at h
  dsimp only at h
  split_ifs at h
  · rw [BTreeMap.get?_set] at h
    split_ifs at h with heq
    · exact Or.inr ⟨heq, (Option.some.inj h).symm⟩
    · exact Or.inl h
  · exact Or.inl h

theorem considerGrant_of_admitted {t : RoleTable} {signed : Signed Grant}
    (h : GrantAdmitted founder threshold S c signed) :
    considerGrant founder threshold S c t signed =
      t.consider signed.payload.subject
        (toLex (signed.payload.seq, Certificate.digest (.grant signed)))
        signed.payload.capability := by
  obtain ⟨u, huser, hadmin, hauth⟩ := h
  have hauth := (grantIsAuthorised_iff _ _ _ _ _ _).mpr hauth
  simp [considerGrant, huser, BTreeSet.contains_iff.mpr hadmin, hauth]

theorem considerGrant_of_not_admitted {t : RoleTable} {signed : Signed Grant}
    (h : ¬ GrantAdmitted founder threshold S c signed) :
    considerGrant founder threshold S c t signed = t := by
  unfold considerGrant
  cases huser : c.user signed.issuer with
  | none => rfl
  | some u =>
      dsimp only
      split_ifs with hadmin hauth
      · exact absurd ⟨u, huser, BTreeSet.contains_iff.mp hadmin,
          (grantIsAuthorised_iff _ _ _ _ _ _).mp hauth⟩ h
      · rfl
      · rfl

/-- Every current role was decided by the axiom, an admitted grant or an
executed proposal. -/
theorem resolveRoles_source {u : Bytes32} {r : Role}
    (h : BTreeMap.get? (resolveRoles founder threshold S c) u = some r) :
    Decided founder threshold S c u r := by
  let Sourced : RoleTable → Prop := fun t =>
    ∀ u r, BTreeMap.get? t.roles u = some r → Decided founder threshold S c u r
  have hseed : Sourced (RoleTable.seed founder) := by
    intro u r hget
    simp only [RoleTable.seed, BTreeMap.get?_set, BTreeMap.get?_empty] at hget
    split_ifs at hget with heq
    · exact .seed heq (Option.some.inj hget).symm
  have hgrants : ∀ (l : List (Signed Grant)) (t : RoleTable), (∀ g ∈ l, g ∈ S.grants) →
      Sourced t → Sourced (l.foldl (considerGrant founder threshold S c) t) := by
    intro l
    induction l with
    | nil => exact fun t _ ht => ht
    | cons signed rest ih =>
        intro t hl ht
        refine ih _ (fun g hg => hl g (List.mem_cons_of_mem _ hg)) fun u r hget => ?_
        by_cases hadmitted : GrantAdmitted founder threshold S c signed
        · rw [considerGrant_of_admitted hadmitted] at hget
          rcases RoleTable.consider_roles hget with hold | ⟨rfl, rfl⟩
          · exact ht u r hold
          · exact .grant signed (hl signed List.mem_cons_self) rfl rfl hadmitted
        · rw [considerGrant_of_not_admitted hadmitted] at hget
          exact ht u r hget
  have hproposals : ∀ (l : List (Signed AdminProposal)) (t : RoleTable),
      (∀ p ∈ l, p ∈ S.proposals) → Sourced t → Sourced (l.foldl (considerProposal c) t) := by
    intro l
    induction l with
    | nil => exact fun t _ ht => ht
    | cons signed rest ih =>
        intro t hl ht
        refine ih _ (fun p hp => hl p (List.mem_cons_of_mem _ hp)) fun u r hget => ?_
        unfold considerProposal at hget
        split_ifs at hget with hexecuted
        · cases haction : signed.payload.action with
          | removeMember member =>
              rw [haction] at hget
              exact ht u r hget
          | setRole user role =>
              rw [haction] at hget
              rcases RoleTable.consider_roles hget with hold | ⟨rfl, rfl⟩
              · exact ht u r hold
              · exact .proposal signed (hl signed List.mem_cons_self) haction
                  (BTreeSet.contains_iff.mp hexecuted)
        · exact ht u r hget
  exact hproposals _ _ (fun _ => id) (hgrants _ _ (fun _ => id) hseed) u r h

/-- Roles depend on the certificates and the closure only through the grants
admitted and the proposals executed. -/
theorem resolveRoles_congr {threshold' : Nat}
    (hgrants : ∀ signed, signed ∈ S.grants ∧ GrantAdmitted founder threshold S c signed ↔
      signed ∈ S'.grants ∧ GrantAdmitted founder threshold' S' c' signed)
    (hproposals : ∀ signed,
      signed ∈ S.proposals ∧ Certificate.digest (.proposal signed) ∈ c.executed ↔
        signed ∈ S'.proposals ∧ Certificate.digest (.proposal signed) ∈ c'.executed) :
    resolveRoles founder threshold S c = resolveRoles founder threshold' S' c' := by
  have hskip : ∀ (c : Closure) (signed : Signed AdminProposal),
      ¬ Certificate.digest (.proposal signed) ∈ c.executed →
      ∀ t, considerProposal c t signed = t := by
    intro c signed hnot t
    simp [considerProposal, BTreeSet.contains_eq_false.mpr hnot]
  have htable := Keyed.foldl_congr
    (considerGrant founder threshold S c) (considerGrant founder threshold' S' c')
    (GrantAdmitted founder threshold S c) (GrantAdmitted founder threshold' S' c')
    (fun v _ hv t => considerGrant_of_not_admitted hv)
    (fun v _ hv t => considerGrant_of_not_admitted hv)
    (fun v hmem hv t => by
      rw [considerGrant_of_admitted hv,
        considerGrant_of_admitted ((hgrants v).mp ⟨hmem, hv⟩).2])
    hgrants (RoleTable.seed founder)
  have hroles := Keyed.foldl_congr
    (considerProposal c) (considerProposal c')
    (fun signed => Certificate.digest (.proposal signed) ∈ c.executed)
    (fun signed => Certificate.digest (.proposal signed) ∈ c'.executed)
    (fun v _ hv t => hskip c v hv t) (fun v _ hv t => hskip c' v hv t)
    (fun v hmem hv t => by
      have hv' := ((hproposals v).mp ⟨hmem, hv⟩).2
      simp [considerProposal, BTreeSet.contains_iff.mpr hv, BTreeSet.contains_iff.mpr hv'])
    hproposals
  unfold resolveRoles
  rw [htable, hroles]

end

/-! ## Current admins and ever-admins -/

namespace CapabilityStore

theorem supported (s : CapabilityStore) :
    Supported s.founder s.threshold s.certs s.derived.toClosure := by
  rw [threshold, s.settled]
  exact closure_supported s.founder (s.certs.resolveThreshold s.founder) s.certs

theorem closed (s : CapabilityStore) :
    Closed s.founder s.threshold s.certs s.derived.toClosure := by
  rw [threshold, s.settled]
  exact closure_closed s.founder (s.certs.resolveThreshold s.founder) s.certs

theorem everAdmin_iff {s : CapabilityStore} {u : Bytes32} :
    s.everAdmin u = true ↔ u ∈ s.derived.everAdmin :=
  BTreeSet.contains_iff

theorem isExecutedAction_iff {s : CapabilityStore} {action : AdminAction} :
    s.isExecutedAction action = true ↔
      ActionExecuted s.certs s.derived.toClosure action :=
  executedAction_iff

theorem roleOf_source {s : CapabilityStore} {u : Bytes32} {r : Role}
    (h : s.roleOf u = some r) :
    Decided s.founder s.threshold s.certs s.derived.toClosure u r := by
  unfold roleOf at h
  rw [threshold, s.settled] at *
  exact resolveRoles_source h

/-- What an admin signs is heard: the user counts as an ever-admin, so each of
their devices may bind, propose and approve. -/
def HeardAdmin (s : CapabilityStore) (u : Bytes32) : Prop :=
  s.everAdmin u = true ∧
    ∀ device, s.userOf device = some u → AdminDevice s.derived.toClosure device

/-- A user appointed by an executed proposal also holds an admin grant an
ever-admin's device issued. -/
def AppointmentGranted (s : CapabilityStore) (u : Bytes32) : Prop :=
  ∃ signed ∈ s.certs.grants, signed.payload.subject = u ∧
    signed.payload.capability = .admin ∧
    ∃ issuer, s.userOf signed.issuer = some issuer ∧ s.everAdmin issuer = true

/-- Every current admin is heard as an ever-admin exactly when every user a
quorum appointed, and who still is an admin, was granted the role as well. -/
theorem currentAdmins_heard_iff (s : CapabilityStore) :
    (∀ u, s.roleOf u = some .admin → s.HeardAdmin u) ↔
      ∀ u, u ≠ s.founder → s.roleOf u = some .admin →
        s.isExecutedAction (.setRole u .admin) = true → s.AppointmentGranted u := by
  constructor
  · intro h u hne hrole _
    have hadmin : u ∈ s.derived.everAdmin := everAdmin_iff.mp (h u hrole).1
    rcases s.supported.everAdmin u hadmin with rfl | ⟨signed, hmem, hsub, hcap, hgrant⟩
    · exact absurd rfl hne
    · obtain ⟨issuer, huser, hissuer, -⟩ := hgrant
      exact ⟨signed, hmem, hsub, hcap, issuer, huser, everAdmin_iff.mpr hissuer⟩
  · intro h u hrole
    suffices hadmin : u ∈ s.derived.everAdmin from
      ⟨everAdmin_iff.mpr hadmin, fun device huser => ⟨u, huser, hadmin⟩⟩
    cases roleOf_source hrole with
    | seed huser _ =>
        rw [huser]
        exact s.supported.founder_admin
    | grant signed hmem hsubject hcap hadmitted =>
        rw [← hsubject]
        exact s.closed.grant signed hmem hcap hadmitted
    | proposal signed hmem haction hexecuted =>
        have hquorum : ActionExecuted s.certs s.derived.toClosure (.setRole u .admin) :=
          ⟨signed, hmem, hexecuted, haction⟩
        by_cases hne : u = s.founder
        · rw [hne]
          exact s.supported.founder_admin
        · obtain ⟨grant, hgrant, hsub, hcap, issuer, huser, hissuer⟩ :=
            h u hne hrole (isExecutedAction_iff.mpr hquorum)
          rw [← hsub]
          -- the executed proposal is what permits the grant above threshold one
          refine s.closed.grant grant hgrant hcap
            ⟨issuer, huser, everAdmin_iff.mp hissuer, Or.inr (Or.inr ?_)⟩
          rw [hsub, hcap]
          exact hquorum

end CapabilityStore

end IrohBeekem

namespace IrohBeekem

section Appointed

local instance appointedKeyhive : Keyhive := transparentKeyhive

/-- A founder `1` and an admin `20` with device `2` appoint user `30` by a
quorum of two. -/
def appointedStore : CapabilityStore :=
  let proposal := (Payload.proposal (.new (.setRole 30 .admin) 1 none 4)).signedBy 1
  ((CapabilityStore.new 1).extend
    [ (Payload.policy (.new 2 1)).signedBy 1,
      (Payload.grant (.new 20 .admin 0 none 2)).signedBy 1,
      (Payload.binding (.new 2 20 3)).signedBy 1,
      proposal,
      (Payload.approval (.new proposal.digest 5)).signedBy 1,
      (Payload.approval (.new proposal.digest 6)).signedBy 2 ]).2

/-- The appointed user is a current admin and is never heard. -/
theorem appointedStore_admin_unheard :
    ¬ ∀ u, appointedStore.roleOf u = some .admin → appointedStore.HeardAdmin u := by
  intro h
  have hrole : appointedStore.roleOf 30 = some .admin := by decide +kernel
  have hever : appointedStore.everAdmin 30 = false := by decide +kernel
  exact Bool.false_ne_true (hever.symm.trans (h 30 hrole).1)

end Appointed

end IrohBeekem
