import IrohBeekem.Capability.Growth

/-!
# What a group of signers can make the closure say

Two questions about a store that is handed a bundle of certificates, all signed
by keys outside some trusted part of the workspace:

* the signers were never admins (`extend_by_nonAdmins`);
* the signers are a coalition smaller than the quorum
  (`extend_by_coalition`).

Both are answered by one invariant of the run over the larger set, `Contained`:
whatever it certifies beyond the old closure belongs to users who are hostile or
do not count.  From that, a certificate whose issuer the run hears as a trusted
admin was in the store before (`Contained.authored`).

Neither answer is unconditional.  A device goes to the first admissible binding
in digest order, so a bundle may not hold a rival for a certified device; and an
admin may bind a device to any user, so against a coalition a fresh device may
not be bound to an admin outside it.
-/

namespace IrohBeekem

open Library

variable [Keyhive]

section

variable {founder : Bytes32} {threshold : Nat} {S S' : Certificates} {C c : Closure}
variable {Hostile Counts : Bytes32 → Prop}

/-- The certificates `S'` adds to `S` are signed by keys the closure `C` of `S`
does not certify, or certifies for a user who is hostile or does not count. -/
def AddedBy (S S' : Certificates) (C : Closure) (Hostile Counts : Bytes32 → Prop) : Prop :=
  ∀ cert ∈ S', cert ∈ S ∨
    ∀ u, C.user cert.issuer = some u → Hostile u ∨ ¬ Counts u

/-- What a run over a larger set can have reached, as seen from the closure `C`
of the smaller one. -/
structure Contained (founder : Bytes32) (S' : Certificates) (C : Closure)
    (Hostile Counts : Bytes32 → Prop) (c : Closure) : Prop where
  user : ∀ d u, c.user d = some u →
    C.user d = some u ∨ C.user d = none ∧ (Hostile u ∨ ¬ Counts u)
  nameable : ∀ d u, c.user d = some u → Nameable founder S' d
  everAdmin : ∀ u ∈ c.everAdmin, Counts u
  executed : ∀ digest ∈ c.executed, digest ∈ C.executed

theorem Contained.founding (hsup : Supported founder threshold S C) (hcounts : Counts founder) :
    Contained founder S' C Hostile Counts (.founding founder) := by
  refine
    { user := fun d u hd => ?_
      nameable := fun d u hd => ?_
      everAdmin := fun u hu => ?_
      executed := fun digest hd => ?_ }
  · rw [Closure.user_founding] at hd
    split_ifs at hd with heq
    · rw [heq, ← hd]
      exact Or.inl hsup.founder_user
  · rw [Closure.user_founding] at hd
    split_ifs at hd with heq
    · exact Or.inl heq
  · rw [(Closure.mem_everAdmin_founding founder u).mp hu]
    exact hcounts
  · exact absurd hd (Closure.not_mem_executed_founding founder digest)

/-- A device heard for a user who counts and is not hostile was certified for
that user before. -/
theorem Contained.user_eq (h : Contained founder S' C Hostile Counts c) {d u : Bytes32}
    (hd : c.user d = some u) (hcounts : Counts u) (htrusted : ¬ Hostile u) :
    C.user d = some u := by
  rcases h.user d u hd with hd | ⟨-, hhostile | hnot⟩
  · exact hd
  · exact absurd hhostile htrusted
  · exact absurd hcounts hnot

/-- A certificate heard from a trusted user was there before. -/
theorem Contained.authored (h : Contained founder S' C Hostile Counts c)
    (hadded : AddedBy S S' C Hostile Counts) (cert : Certificate) (hmem : cert ∈ S')
    {u : Bytes32} (hd : c.user cert.issuer = some u) (hcounts : Counts u)
    (htrusted : ¬ Hostile u) : cert ∈ S := by
  rcases hadded cert hmem with hmem | hissuer
  · exact hmem
  · rcases hissuer u (h.user_eq hd hcounts htrusted) with hhostile | hnot
    · exact absurd hhostile htrusted
    · exact absurd hcounts hnot

/-- An approver in the run is hostile, or had approved before. -/
theorem Contained.approver (h : Contained founder S' C Hostile Counts c)
    (hadded : AddedBy S S' C Hostile Counts) {digest u : Bytes32}
    (hu : u ∈ approvingUsers S'.approvals c digest) :
    Hostile u ∨ ∃ signed ∈ S.approvals, signed.payload.proposal = digest ∧
      C.user signed.issuer = some u := by
  obtain ⟨hadmin, signed, hmem, hprop, huser⟩ := mem_approvingUsers.mp hu
  by_cases hhostile : Hostile u
  · exact Or.inl hhostile
  · have hcounts := h.everAdmin u hadmin
    exact Or.inr ⟨signed,
      h.authored hadded (.approval signed) hmem huser hcounts hhostile, hprop,
      h.user_eq huser hcounts hhostile⟩

/-- A proposal under an executed digest is the one the store held. -/
theorem Supported.proposal_mem (hsup : Supported founder threshold S C) (hS : S ⊆ S')
    {signed : Signed AdminProposal} (hmem : signed ∈ S'.proposals)
    (hexec : Certificate.digest (.proposal signed) ∈ C.executed) : signed ∈ S.proposals := by
  obtain ⟨old, hold, hdigest, -⟩ := hsup.executed _ hexec
  have hsame : old = signed :=
    Keyed.eq_of_key_eq (hS (.proposal old) hold) hmem hdigest
  exact hsame ▸ hold

/-- An action executed in the run was executed before. -/
theorem Contained.action (h : Contained founder S' C Hostile Counts c)
    (hsup : Supported founder threshold S C) (hS : S ⊆ S') {action : AdminAction}
    (hexec : ActionExecuted S' c action) : ActionExecuted S C action := by
  obtain ⟨signed, hmem, hdigest, haction⟩ := hexec
  have hold := h.executed _ hdigest
  exact ⟨signed, hsup.proposal_mem hS hmem hold, hold, haction⟩

/-- A binding of a device certified before agrees with it, by the absence of
rivals; a binding of a fresh device has to be to a user who is hostile or does
not count. -/
theorem Contained.bind (h : Contained founder S' C Hostile Counts c)
    (hrival : RivalFree founder S' C) {signed : Signed DeviceBinding}
    (hmem : signed ∈ S'.bindings) (hne : signed.payload.device ≠ founder)
    (hadm : BindingAdmissible c signed)
    (hfresh : C.user signed.payload.device = none →
      Hostile signed.payload.user ∨ ¬ Counts signed.payload.user) :
    Contained founder S' C Hostile Counts
      (c.bind signed.payload.device signed.payload.user) := by
  obtain ⟨v, hissuer, -⟩ := hadm
  refine { h with user := fun d u hd => ?_, nameable := fun d u hd => ?_ }
  · rw [Closure.user_bind] at hd
    split_ifs at hd with heq
    · cases Option.some.inj hd
      rw [heq]
      cases hC : C.user signed.payload.device with
      | none => exact Or.inr ⟨rfl, hfresh hC⟩
      | some w =>
          rw [hrival.binding_eq hmem (h.nameable _ v hissuer) hne hC]
          exact Or.inl rfl
    · exact h.user d u hd
  · rw [Closure.user_bind] at hd
    split_ifs at hd with heq
    · exact Or.inr ⟨signed, hmem, heq.symm⟩
    · exact h.nameable d u hd

theorem Contained.execute (h : Contained founder S' C Hostile Counts c) {digest : Bytes32}
    (hold : digest ∈ C.executed) :
    Contained founder S' C Hostile Counts (c.execute digest) := by
  refine { h with executed := fun d hd => ?_ }
  rcases (Closure.mem_executed_execute c digest d).mp hd with rfl | hd
  · exact hold
  · exact h.executed d hd

theorem Contained.appoint (h : Contained founder S' C Hostile Counts c) {user : Bytes32}
    (hcounts : Counts user) : Contained founder S' C Hostile Counts (c.appoint user) := by
  refine { h with everAdmin := fun u hu => ?_ }
  rcases (Closure.mem_everAdmin_appoint c user u).mp hu with rfl | hu
  · exact hcounts
  · exact h.everAdmin u hu

/-! ## Signers who were never admins -/

/-- Nothing a user who was never an admin signs is heard: the run over the larger
set stays within the old closure, up to devices such users bind for themselves. -/
theorem closure_contained_nonAdmins (hS : S ⊆ S')
    (hadded : AddedBy S S' (closure founder threshold S) (fun _ => False)
      (· ∈ (closure founder threshold S).everAdmin))
    (hrival : RivalFree founder S' (closure founder threshold S)) :
    Contained founder S' (closure founder threshold S) (fun _ => False)
      (· ∈ (closure founder threshold S).everAdmin) (closure founder threshold S') := by
  have hsup := closure_supported founder threshold S
  have hclosed := closure_closed founder threshold S
  refine closure_induction (Contained.founding hsup hsup.founder_admin) ?_ ?_ ?_
  · intro c hc signed hmem hne hfree hadm
    refine hc.bind hrival hmem hne hadm fun hnone => Or.inr fun huser => ?_
    obtain ⟨v, hissuer, hv⟩ := hadm
    -- the issuer acts for the admin named, or for an admin: either way it is an
    -- old binding, and the old closure would have certified the device
    have hadmin : v ∈ (closure founder threshold S).everAdmin := by
      rcases hv with rfl | hv
      · exact huser
      · exact hc.everAdmin v hv
    have hold : signed ∈ S.bindings :=
      hc.authored hadded (.binding signed) hmem hissuer hadmin id
    obtain ⟨w, hw⟩ := hclosed.binding signed hold
      ⟨v, hc.user_eq hissuer hadmin id, Or.inr hadmin⟩
    exact Option.some_ne_none w (hw.symm.trans hnone)
  · intro c hc signed hmem ⟨⟨v, hissuer, hv⟩, hquorum⟩
    have hadmin := hc.everAdmin v hv
    have hold : signed ∈ S.proposals :=
      hc.authored hadded (.proposal signed) hmem hissuer hadmin id
    refine hc.execute (hclosed.proposal signed hold
      ⟨⟨v, hc.user_eq hissuer hadmin id, hadmin⟩, Nat.le_trans hquorum ?_⟩)
    rw [BTreeSet.size_eq_card, BTreeSet.size_eq_card]
    refine Finset.card_le_card fun u hu => ?_
    rw [BTreeSet.mem_toFinset] at hu ⊢
    rcases hc.approver hadded hu with hfalse | hbefore
    · exact hfalse.elim
    · exact mem_approvingUsers.mpr
        ⟨hc.everAdmin u (mem_approvingUsers.mp hu).1, hbefore⟩
  · intro c hc signed hmem hcap ⟨v, hissuer, hv, hauth⟩
    have hadmin := hc.everAdmin v hv
    have hold : signed ∈ S.grants :=
      hc.authored hadded (.grant signed) hmem hissuer hadmin id
    refine hc.appoint (hclosed.grant signed hold hcap
      ⟨v, hc.user_eq hissuer hadmin id, hadmin, ?_⟩)
    exact hauth.imp_right fun h => h.imp_right (hc.action hsup hS)

/-- The same grants set roles when nothing of an admin's was added. -/
theorem grantAdmitted_iff_of_contained (hS : S ⊆ S')
    (hadded : AddedBy S S' C (fun _ => False) (· ∈ C.everAdmin))
    (hsup : Supported founder threshold S C) (hle : C ≤ c)
    (hc : Contained founder S' C (fun _ => False) (· ∈ C.everAdmin) c)
    (signed : Signed Grant) :
    signed ∈ S.grants ∧ GrantAdmitted founder threshold S C signed ↔
      signed ∈ S'.grants ∧ GrantAdmitted founder threshold S' c signed := by
  constructor
  · rintro ⟨hmem, hg⟩
    exact ⟨hS (.grant signed) hmem, hg.mono (fun x => hS (.proposal x)) hle⟩
  · rintro ⟨hmem, v, hissuer, hv, hauth⟩
    have hadmin := hc.everAdmin v hv
    exact ⟨hc.authored hadded (.grant signed) hmem hissuer hadmin id,
      v, hc.user_eq hissuer hadmin id, hadmin,
      hauth.imp_right fun h => h.imp_right (hc.action hsup hS)⟩

end

namespace CapabilityStore

theorem roles_eq (s : CapabilityStore) :
    s.derived.roles = resolveRoles s.founder s.threshold s.certs s.derived.toClosure := by
  rw [threshold, s.settled]
  rfl

/-- A bundle that no trusted admin signed leaves the founder's policies alone. -/
theorem samePolicies_extend {s : CapabilityStore} {bundle : List Certificate}
    (h : ∀ cert ∈ bundle, cert.issuer ≠ s.founder) :
    SamePolicies s (s.extend bundle).2 := by
  intro signed hissuer
  refine ⟨s.subset_extend bundle (.policy signed), fun hmem => ?_⟩
  rcases mem_extend (x := .policy signed) hmem with hmem | hmem
  · exact hmem
  · exact absurd hissuer (h _ hmem)

theorem addedBy_extend (s : CapabilityStore) (bundle : List Certificate)
    (Hostile Counts : Bytes32 → Prop)
    (h : ∀ cert ∈ bundle, ∀ u, s.userOf cert.issuer = some u → Hostile u ∨ ¬ Counts u) :
    AddedBy s.certs (s.extend bundle).2.certs s.derived.toClosure Hostile Counts := by
  intro cert hmem
  rcases mem_extend hmem with hmem | hmem
  · exact Or.inl hmem
  · exact Or.inr (h cert hmem)

end CapabilityStore

end IrohBeekem

namespace IrohBeekem

section Strangers

local instance strangersKeyhive : Keyhive := transparentKeyhive

/-- An admin `20` on device `2` and a user `30` with no role on device `3`. -/
def mixedStore : CapabilityStore :=
  ((CapabilityStore.new 1).extend
    [ (Payload.grant (.new 20 .admin 0 none 1)).signedBy 1,
      (Payload.binding (.new 2 20 9)).signedBy 1,
      (Payload.binding (.new 3 30 1)).signedBy 1 ]).2

/-- User `30` enrols a device of its own and grants itself a role. -/
def selfService : List Certificate :=
  [ (Payload.binding (.new 4 30 2)).signedBy 3,
    (Payload.grant (.new 30 .admin 1 none 3)).signedBy 4 ]

/-- User `30` binds the admin's device to itself, first in digest order. -/
def seizure : List Certificate := [(Payload.binding (.new 2 30 2)).signedBy 3]

end Strangers

end IrohBeekem

namespace IrohBeekem

open Library

/-! ## A coalition smaller than the quorum -/

variable [Keyhive]

section

variable {founder : Bytes32} {threshold : Nat} {S S' : Certificates} {C c : Closure}
variable {Counts : Bytes32 → Prop}

/-- The users a run can come to count as admins: those counted before, and those
whose appointment a quorum has already executed. -/
def Appointable (S : Certificates) (C : Closure) (u : Bytes32) : Prop :=
  u ∈ C.everAdmin ∨ ActionExecuted S C (.setRole u .admin)

/-- The users, admins or not, whose certified devices approved a proposal. -/
def supporters (S : Certificates) (C : Closure) (digest : Bytes32) : Finset Bytes32 :=
  ((S.approvals.toList.filter fun signed => signed.payload.proposal = digest).filterMap
    fun signed => C.user signed.issuer).toFinset

theorem mem_supporters {digest u : Bytes32} :
    u ∈ supporters S C digest ↔
      ∃ signed ∈ S.approvals, signed.payload.proposal = digest ∧
        C.user signed.issuer = some u := by
  simp [supporters, Keyed.mem_def, and_assoc]

/-- The approvers of a proposal in the run are the coalition and those who had
supported it before. -/
theorem Contained.approvers_lt {coalition : Finset Bytes32}
    (hc : Contained founder S' C (· ∈ coalition) Counts c)
    (hadded : AddedBy S S' C (· ∈ coalition) Counts) {digest : Bytes32}
    (hfew : (supporters S C digest \ coalition).card < threshold - coalition.card) :
    (approvingUsers S'.approvals c digest).size < threshold := by
  have hsubset : BTreeSet.toFinset (approvingUsers S'.approvals c digest) ⊆
      (supporters S C digest \ coalition) ∪ coalition := by
    intro u hu
    rw [BTreeSet.mem_toFinset] at hu
    rw [Finset.sdiff_union_self_eq_union, Finset.mem_union]
    rcases hc.approver hadded hu with hhostile | hbefore
    · exact Or.inr hhostile
    · exact Or.inl (mem_supporters.mpr hbefore)
  calc (approvingUsers S'.approvals c digest).size
      = (BTreeSet.toFinset (approvingUsers S'.approvals c digest)).card :=
        BTreeSet.size_eq_card _
    _ ≤ ((supporters S C digest \ coalition) ∪ coalition).card :=
        Finset.card_le_card hsubset
    _ ≤ (supporters S C digest \ coalition).card + coalition.card :=
        Finset.card_union_le _ _
    _ < threshold := by omega

/-- Fewer than a quorum of colluders, and the keys nothing certifies, execute
nothing and appoint nobody a quorum had not appointed. -/
theorem closure_contained_coalition {coalition : Finset Bytes32} (hS : S ⊆ S')
    (hthreshold : defaultThreshold < threshold) (hfounder : founder ∉ coalition)
    (hfew : ∀ digest ∉ (closure founder threshold S).executed,
      (supporters S (closure founder threshold S) digest \ coalition).card <
        threshold - coalition.card)
    (hadded : AddedBy S S' (closure founder threshold S) (· ∈ coalition)
      (Appointable S (closure founder threshold S)))
    (hrival : RivalFree founder S' (closure founder threshold S))
    (hfresh : ∀ signed ∈ S'.bindings, Nameable founder S' signed.issuer →
      (closure founder threshold S).user signed.payload.device = none →
      signed.payload.user ∈ coalition ∨
        ¬ Appointable S (closure founder threshold S) signed.payload.user) :
    Contained founder S' (closure founder threshold S) (· ∈ coalition)
      (Appointable S (closure founder threshold S)) (closure founder threshold S') := by
  have hsup := closure_supported founder threshold S
  have hclosed := closure_closed founder threshold S
  refine closure_induction (Contained.founding hsup (Or.inl hsup.founder_admin)) ?_ ?_ ?_
  · intro c hc signed hmem hne hfree hadm
    obtain ⟨v, hissuer, hv⟩ := hadm
    exact hc.bind hrival hmem hne ⟨v, hissuer, hv⟩
      (hfresh signed hmem (hc.nameable _ v hissuer))
  · intro c hc signed hmem hq
    by_cases hold : Certificate.digest (.proposal signed) ∈
        (closure founder threshold S).executed
    · exact hc.execute hold
    · have hlt := hc.approvers_lt hadded (hfew _ hold)
      exact absurd hq.2 (Nat.not_le.mpr hlt)
  · intro c hc signed hmem hcap ⟨v, hissuer, hv, hauth⟩
    rcases hauth with hlow | hissuerFounder | hquorum
    · exact absurd hthreshold (Nat.not_lt.mpr hlow)
    · -- the founder acts alone, but only through devices it already had
      subst hissuerFounder
      have hcounts : Appointable S (closure v threshold S) v := Or.inl hsup.founder_admin
      have hmem' : signed ∈ S.grants :=
        hc.authored hadded (.grant signed) hmem hissuer hcounts hfounder
      exact hc.appoint (Or.inl (hclosed.grant signed hmem' hcap
        ⟨v, hc.user_eq hissuer hcounts hfounder, hsup.founder_admin, Or.inr (Or.inl rfl)⟩))
    · rw [hcap] at hquorum
      exact hc.appoint (Or.inr (hc.action hsup hS hquorum))

end

namespace CapabilityStore

/-- No binding of a device the store does not certify, other than those of keys
nothing certifies, is to an admin outside the coalition, whether counted already
or appointed by a quorum. -/
def NoFreshDevice (s : CapabilityStore) (certs : Certificates)
    (coalition : Finset Bytes32) : Prop :=
  ∀ signed ∈ certs.bindings, Nameable s.founder certs signed.issuer →
    s.userOf signed.payload.device = none →
    signed.payload.user ∈ coalition ∨ s.everAdmin signed.payload.user = false ∧
      s.isExecutedAction (.setRole signed.payload.user .admin) = false

instance (s : CapabilityStore) (certs : Certificates) (coalition : Finset Bytes32) :
    Decidable (s.NoFreshDevice certs coalition) :=
  inferInstanceAs (Decidable (∀ signed ∈ certs.bindings, _))

end CapabilityStore

end IrohBeekem

namespace IrohBeekem

section Colluders

local instance colludersKeyhive : Keyhive := transparentKeyhive

/-- A quorum of two, with the admin `20` on device `2`. -/
def quorumStore : CapabilityStore :=
  ((CapabilityStore.new 1).extend
    [ (Payload.policy (.new 2 1)).signedBy 1,
      (Payload.grant (.new 20 .admin 0 none 1)).signedBy 1,
      (Payload.binding (.new 2 20 1)).signedBy 1 ]).2

/-- What the admin `20` proposes on its own. -/
def loneProposal : Certificate :=
  (Payload.proposal (.new (.setRole 40 .admin) 1 none 1)).signedBy 2

private theorem quorumStore_unsupported (digest : Bytes32) :
    supporters quorumStore.certs quorumStore.derived.toClosure digest = ∅ := by
  have hnone : quorumStore.certs.approvals.toList = [] := by decide +kernel
  simp [supporters, hnone]

private theorem quorumStore_userOf_two : quorumStore.userOf 2 = some 20 := by
  decide +kernel

/-- The admin enrols a second device, approves from both and raises a puppet. -/
def puppetry : List Certificate :=
  [ (Payload.binding (.new 4 20 2)).signedBy 2,
    loneProposal,
    (Payload.approval (.new loneProposal.digest 1)).signedBy 2,
    (Payload.approval (.new loneProposal.digest 2)).signedBy 4,
    (Payload.grant (.new 40 .admin 1 none 2)).signedBy 2 ]

/-- The admin binds a fresh key to the founder and approves as the founder. -/
def impersonation : List Certificate :=
  [ (Payload.binding (.new 5 1 2)).signedBy 2,
    loneProposal,
    (Payload.approval (.new loneProposal.digest 1)).signedBy 2,
    (Payload.approval (.new loneProposal.digest 2)).signedBy 5 ]

end Colluders

end IrohBeekem
