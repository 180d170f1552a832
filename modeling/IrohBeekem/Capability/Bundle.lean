import IrohBeekem.Capability.Offers
import IrohBeekem.Capability.Roles

/-!
# What a proof proves by itself

`proof_of` bundles the founder's policies, one executed proposal and the
approvals naming it, which its doc calls everything a receiver needs to reach
the same verdict without already holding any of it.  The bundle carries no
binding and no grant, so to a store that holds nothing else the founder is the
only device with a user and the only admin.  `proofOf_suffices_iff` says when
that is enough: at a threshold of one, for a proposal the founder made and
approved from the founding device.
-/

namespace IrohBeekem

open Library

variable [Keyhive]

namespace CapabilityStore

/-- Whether a digest is that of a proposal for an action. -/
def proposes (s : CapabilityStore) (action : AdminAction) (digest : Bytes32) : Bool :=
  (s.certs.proposals.find? digest).any fun signed => signed.payload.action = action

/-- The executed proposal for an action that comes first in digest order. -/
def firstExecuted (s : CapabilityStore) (action : AdminAction) : Option (Signed AdminProposal) :=
  (s.derived.executed.toList.find? (s.proposes action)).bind s.certs.proposals.find?

theorem proposes_eq_true {s : CapabilityStore} {action : AdminAction} {digest : Bytes32} :
    s.proposes action digest = true ↔
      ∃ signed, s.certs.proposals.find? digest = some signed ∧ signed.payload.action = action := by
  unfold proposes
  simp [Option.any_eq_true]

private theorem isExecutedAction_eq (s : CapabilityStore) (action : AdminAction) :
    s.isExecutedAction action = s.derived.executed.toList.any (s.proposes action) := by
  refine congrArg s.derived.executed.toList.any (funext fun digest => ?_)
  unfold proposes
  cases s.certs.proposals.find? digest <;> rfl

private theorem proofOf_eq (s : CapabilityStore) (action : AdminAction) {digest : Bytes32}
    {signed : Signed AdminProposal}
    (hfound : s.derived.executed.toList.find? (s.proposes action) = some digest)
    (hsigned : s.certs.proposals.find? digest = some signed) :
    s.proofOf action =
      ((s.certs.policies.toList.filter fun policy => policy.issuer = s.founder).map .policy) ++
        [.proposal signed] ++
        (s.certs.approvals.toList.filter fun approval =>
          approval.payload.proposal = digest).map .approval := by
  have hsame : ∀ q : Bytes32 → Bool, (∀ digest, q digest = s.proposes action digest) →
      s.derived.executed.toList.find? q = some digest := by
    intro q hq
    rw [funext hq]
    exact hfound
  unfold proofOf
  split
  · next hnone =>
      refine absurd (hnone.symm.trans (hsame _ fun digest => ?_)) (by simp)
      unfold proposes
      cases s.certs.proposals.find? digest <;> rfl
  · next first hfirst =>
      obtain rfl : first = digest := by
        refine Option.some.inj (hfirst.symm.trans (hsame _ fun digest => ?_))
        unfold proposes
        cases s.certs.proposals.find? digest <;> rfl
      rw [hsigned]

theorem firstExecuted_eq_some {s : CapabilityStore} {action : AdminAction}
    {signed : Signed AdminProposal} (h : s.firstExecuted action = some signed) :
    signed ∈ s.certs.proposals ∧ signed.payload.action = action ∧
      s.proofOf action =
        ((s.certs.policies.toList.filter fun policy => policy.issuer = s.founder).map .policy) ++
          [.proposal signed] ++
          (s.certs.approvals.toList.filter fun approval =>
            approval.payload.proposal = Certificate.digest (.proposal signed)).map .approval := by
  obtain ⟨digest, hfound, hsigned⟩ := Option.bind_eq_some_iff.mp h
  obtain ⟨hmem, rfl⟩ := Keyed.find?_eq_some.mp hsigned
  obtain ⟨same, hsame, haction⟩ := proposes_eq_true.mp (List.find?_some hfound)
  obtain rfl : same = signed := Option.some.inj (hsame.symm.trans hsigned)
  exact ⟨hmem, haction, proofOf_eq s action hfound hsigned⟩

theorem firstExecuted_isSome {s : CapabilityStore} {action : AdminAction} :
    (s.firstExecuted action).isSome = s.isExecutedAction action := by
  unfold firstExecuted
  rw [isExecutedAction_eq, Bool.eq_iff_iff, List.any_eq_true]
  constructor
  · intro h
    obtain ⟨signed, hsome⟩ := Option.isSome_iff_exists.mp h
    obtain ⟨digest, hfound, -⟩ := Option.bind_eq_some_iff.mp hsome
    exact ⟨digest, List.mem_of_find?_eq_some hfound, List.find?_some hfound⟩
  · rintro ⟨digest, hmem, hproposes⟩
    obtain ⟨first, hfound⟩ := Option.isSome_iff_exists.mp
      (List.find?_isSome.mpr ⟨digest, hmem, hproposes⟩)
    obtain ⟨signed, hsigned, -⟩ := proposes_eq_true.mp (List.find?_some hfound)
    simp [hfound, hsigned]

/-- The founder's device made the proposal and approved it, and the workspace
asks for no second opinion. -/
def FounderAlone (s : CapabilityStore) (signed : Signed AdminProposal) : Prop :=
  s.threshold ≤ defaultThreshold ∧ signed.issuer = s.founder ∧
    ∃ approval ∈ s.certs.approvals,
      approval.payload.proposal = Certificate.digest (.proposal signed) ∧
        approval.issuer = s.founder

/-- Every certificate of a store that took only what it was offered verifies. -/
def Verified (s : CapabilityStore) : Prop := ∀ x ∈ s.certs, x.verify = .ok ()

theorem verified_offerAll (founder : Bytes32) (offers : List Offer) :
    ((new founder).offerAll offers).Verified := by
  intro x hx
  refine ((mem_offerAll (new founder) offers).2 x hx).elim (fun hnone => ?_) And.right
  cases x <;> exact absurd hnone List.not_mem_nil

/-- A fresh store takes from a bundle of another store's certificates just
those. -/
theorem mem_extend_new {s : CapabilityStore} (hverified : s.Verified) {bundle : List Certificate}
    (hheld : ∀ x ∈ bundle, x ∈ s.certs) (x : Certificate) :
    x ∈ ((new s.founder).extend bundle).2.certs ↔ x ∈ bundle := by
  have honly : ∀ y ∈ ((new s.founder).extend bundle).2.certs, y ∈ bundle := fun y hy =>
    (mem_extend hy).resolve_left fun hnone => by cases y <;> exact absurd hnone List.not_mem_nil
  refine ⟨honly x, fun hx => ?_⟩
  rw [extend_certs]
  obtain ⟨y, hy, hkind, hdigest⟩ :=
    Certificates.stageAll_taken (new s.founder).certs hx (hverified x (hheld x hx))
  have hmem := honly y (by rw [extend_certs]; exact hy)
  exact Certificates.eq_of_digest_eq (hheld y hmem) (hheld x hx) hkind hdigest ▸ hy

/-! ## The closure of a bundle -/

section Bundled

variable {s : CapabilityStore} {action : AdminAction} {signed : Signed AdminProposal}

/-- What a store that holds nothing but the bundle holds. -/
structure Bundled (s : CapabilityStore) (signed : Signed AdminProposal) (s' : CapabilityStore) :
    Prop where
  founder : s'.founder = s.founder
  threshold : s'.threshold = s.threshold
  bindings : ∀ binding, binding ∉ s'.certs.bindings
  grants : ∀ grant, grant ∉ s'.certs.grants
  proposals : ∀ other, other ∈ s'.certs.proposals ↔ other = signed
  approvals : ∀ approval, approval ∈ s'.certs.approvals ↔ approval ∈ s.certs.approvals ∧
    approval.payload.proposal = Certificate.digest (.proposal signed)

theorem bundled_of_proofOf (hverified : s.Verified) (h : s.firstExecuted action = some signed) :
    Bundled s signed ((new s.founder).extend (s.proofOf action)).2 := by
  obtain ⟨hmem, -, hproof⟩ := firstExecuted_eq_some h
  have hbundle : ∀ x, x ∈ s.proofOf action ↔
      (∃ policy ∈ s.certs.policies, policy.issuer = s.founder ∧ .policy policy = x) ∨
        x = .proposal signed ∨
        ∃ approval ∈ s.certs.approvals,
          approval.payload.proposal = Certificate.digest (.proposal signed) ∧
            .approval approval = x := by
    intro x
    rw [hproof]
    simp only [List.mem_append, List.mem_map, List.mem_filter, decide_eq_true_eq,
      List.mem_singleton, Keyed.mem_def, and_assoc, or_assoc]
  have hheld : ∀ x ∈ s.proofOf action, x ∈ s.certs := by
    intro x hx
    rcases (hbundle x).mp hx with ⟨policy, hpolicy, -, rfl⟩ | rfl | ⟨approval, happroval, -, rfl⟩
    · exact hpolicy
    · exact hmem
    · exact happroval
  have hcerts := fun x => (mem_extend_new hverified hheld x).trans (hbundle x)
  have hfounder : ((new s.founder).extend (s.proofOf action)).2.founder = s.founder :=
    extend_founder _ _
  refine
    { founder := hfounder
      threshold := ?_
      bindings := fun binding hb => ?_
      grants := fun grant hg => ?_
      proposals := fun other => ?_
      approvals := fun approval => ?_ }
  · rw [threshold_eq, threshold_eq, hfounder]
    refine Certificates.resolveThreshold_congr fun policy hissuer => ?_
    have hpolicy := hcerts (.policy policy)
    simp only [reduceCtorEq, and_false, exists_false, or_false, Certificate.policy.injEq,
      exists_eq_right_right] at hpolicy
    exact hpolicy.trans (and_iff_left hissuer)
  · simpa using (hcerts (.binding binding)).mp hb
  · simpa using (hcerts (.grant grant)).mp hg
  · simpa using hcerts (.proposal other)
  · simpa using hcerts (.approval approval)

theorem Bundled.user_iff {s' : CapabilityStore} (h : Bundled s signed s') {d u : Bytes32} :
    s'.derived.toClosure.user d = some u ↔ d = s.founder ∧ u = s.founder := by
  rw [← h.founder]
  constructor
  · intro huser
    rcases s'.supported.user d u huser with hd | ⟨-, binding, hmem, -⟩
    · exact hd
    · exact absurd hmem (h.bindings binding)
  · rintro ⟨rfl, rfl⟩
    exact s'.supported.founder_user

theorem Bundled.everAdmin_iff {s' : CapabilityStore} (h : Bundled s signed s') {u : Bytes32} :
    u ∈ s'.derived.everAdmin ↔ u = s.founder := by
  rw [← h.founder]
  constructor
  · intro hu
    rcases s'.supported.everAdmin u hu with hu | ⟨grant, hmem, -⟩
    · exact hu
    · exact absurd hmem (h.grants grant)
  · rintro rfl
    exact s'.supported.founder_admin

/-- The founder is the only approver there can be. -/
theorem Bundled.mem_approvingUsers {s' : CapabilityStore} (h : Bundled s signed s') {u : Bytes32} :
    u ∈ approvingUsers s'.certs.approvals s'.derived.toClosure
        (Certificate.digest (.proposal signed)) ↔
      u = s.founder ∧ ∃ approval ∈ s.certs.approvals,
        approval.payload.proposal = Certificate.digest (.proposal signed) ∧
          approval.issuer = s.founder := by
  rw [IrohBeekem.mem_approvingUsers, h.everAdmin_iff]
  refine and_congr_right fun hu => exists_congr fun approval => ?_
  rw [h.approvals, h.user_iff, and_assoc, and_iff_left hu]
  tauto

theorem one_le_threshold (s : CapabilityStore) : defaultThreshold ≤ s.threshold := by
  rw [threshold_eq]
  unfold Certificates.resolveThreshold
  generalize hnamed : (s.certs.policies.toList.filter fun policy => policy.issuer = s.founder).map
    (fun policy => max policy.payload.threshold.val 1) = named
  cases hmax : named.max? with
  | none => exact le_rfl
  | some top =>
      have hmem := List.max?_mem hmax
      rw [← hnamed] at hmem
      obtain ⟨policy, -, rfl⟩ := List.mem_map.mp hmem
      exact le_max_right _ _

theorem Bundled.quorate_iff {s' : CapabilityStore} (h : Bundled s signed s') :
    ProposalQuorate s'.threshold s'.certs s'.derived.toClosure signed ↔ s.FounderAlone signed := by
  have hsize : (approvingUsers s'.certs.approvals s'.derived.toClosure
      (Certificate.digest (.proposal signed))).size ≤ 1 := by
    rw [BTreeSet.size_eq_card]
    refine Finset.card_le_one.mpr fun u hu v hv => ?_
    rw [(h.mem_approvingUsers.mp (BTreeSet.mem_toFinset.mp hu)).1,
      (h.mem_approvingUsers.mp (BTreeSet.mem_toFinset.mp hv)).1]
  have hone := s.one_le_threshold
  unfold ProposalQuorate FounderAlone
  rw [h.threshold]
  constructor
  · rintro ⟨⟨u, huser, -⟩, hquorum⟩
    obtain ⟨hissuer, -⟩ := h.user_iff.mp huser
    refine ⟨hquorum.trans hsize, hissuer, ?_⟩
    have hpos : 0 < (approvingUsers s'.certs.approvals s'.derived.toClosure
        (Certificate.digest (.proposal signed))).toFinset.card := by
      rw [← BTreeSet.size_eq_card]
      exact Nat.lt_of_lt_of_le hone hquorum
    obtain ⟨u, hu⟩ := Finset.card_pos.mp hpos
    exact (h.mem_approvingUsers.mp (BTreeSet.mem_toFinset.mp hu)).2
  · rintro ⟨halone, hissuer, happroval⟩
    refine ⟨⟨s.founder, h.user_iff.mpr ⟨hissuer, rfl⟩, h.everAdmin_iff.mpr rfl⟩,
      halone.trans ?_⟩
    rw [BTreeSet.size_eq_card]
    exact Finset.card_pos.mpr
      ⟨s.founder, BTreeSet.mem_toFinset.mpr (h.mem_approvingUsers.mpr ⟨rfl, happroval⟩)⟩

theorem Bundled.isExecutedAction_iff {s' : CapabilityStore} (h : Bundled s signed s')
    (haction : signed.payload.action = action) :
    s'.isExecutedAction action = true ↔ s.FounderAlone signed := by
  rw [CapabilityStore.isExecutedAction_iff, ← h.quorate_iff]
  constructor
  · rintro ⟨other, hmem, hexecuted, -⟩
    obtain rfl := (h.proposals other).mp hmem
    obtain ⟨same, hsame, hdigest, hquorate⟩ := s'.supported.executed _ hexecuted
    exact (h.proposals same).mp hsame ▸ hquorate
  · intro hquorate
    have hmem : signed ∈ s'.certs.proposals := (h.proposals signed).mpr rfl
    exact ⟨signed, hmem, s'.closed.proposal signed hmem hquorate, haction⟩

end Bundled

/-- A store that was offered any certificates: if an action is executed in it, it
is executed in a fresh store that holds only the proof, exactly when the
proposal the proof is about was the founder's, approved by the founder, and the
workspace asks for no other approval. -/
theorem proofOf_suffices_iff (founder : Bytes32) (offers : List Offer) (action : AdminAction) :
    (((new founder).offerAll offers).isExecutedAction action = true →
        ((new founder).extend (((new founder).offerAll offers).proofOf action)).2.isExecutedAction
          action = true) ↔
      ∀ signed, ((new founder).offerAll offers).firstExecuted action = some signed →
        ((new founder).offerAll offers).FounderAlone signed := by
  have hverified := verified_offerAll founder offers
  have hfounder := offerAll_founder (new founder) offers
  generalize (new founder).offerAll offers = s at hverified hfounder ⊢
  obtain rfl : s.founder = founder := hfounder
  rw [← firstExecuted_isSome]
  cases hfirst : s.firstExecuted action with
  | none => simp
  | some signed =>
      have hbundled := bundled_of_proofOf hverified hfirst
      simpa using hbundled.isExecutedAction_iff (firstExecuted_eq_some hfirst).2.1

end CapabilityStore

end IrohBeekem

namespace IrohBeekem

open CapabilityStore

section Samples

local instance bundleKeyhive : Keyhive := transparentKeyhive

/-- The founder removes device `9` with the approval of the admin `20`. -/
def removal : Certificate := (Payload.proposal (.new (.removeMember 9) 1 none 1)).signedBy 1

/-- A workspace that asks for two approvals, and has them. -/
def quorumOffers : List Offer :=
  [.extend
    [ (Payload.policy (.new 2 1)).signedBy 1,
      (Payload.binding (.new 2 20 1)).signedBy 1,
      (Payload.grant (.new 20 .admin 0 none 1)).signedBy 1,
      removal,
      (Payload.approval (.new removal.digest 1)).signedBy 1,
      (Payload.approval (.new removal.digest 2)).signedBy 2 ]]

/-- The proof of its quorum proves nothing to a store that does not know the
second admin. -/
theorem quorum_proof_insufficient :
    ((new 1).offerAll quorumOffers).isExecutedAction (.removeMember 9) = true ∧
      (((new 1).offerAll quorumOffers).proofOf (.removeMember 9)).length = 4 ∧
      ((new 1).extend
        (((new 1).offerAll quorumOffers).proofOf (.removeMember 9))).2.isExecutedAction
          (.removeMember 9) = false := by
  decide +kernel

end Samples

end IrohBeekem
