import IrohBeekem.State.ListModel
import IrohBeekem.State.Reach

/-!
# The sender's gate and the receiver's check

Every path that broadcasts an operation has a gate of its own, and the receiver has
one check for all of them.  `broadcast_accepted_iff` compares the two: a receiver that
holds what the sender holds, and no rival for a device the sender has certified,
accepts what the sender broadcasts exactly when it finds that the sender has
standing.  The gates do not always see to that: a quorum is carried out by whoever
learns of it, whatever its role.
-/

set_option linter.unusedSectionVars false

namespace IrohBeekem

open Library CgkaController WorkspaceState CapabilityStore

variable [Keyhive] [Beekem] [Loro] [Postcard]

/-! ## What a receiver makes of a broadcast -/

/-- A peer that has what it takes to check an operation of the sender, whose
certificates these are. -/
structure CanCheck (certs : CapabilityStore) (op : ControlOp) (proof : List Certificate)
    (d : CgkaController) : Prop where
  predecessors : ∀ h ∈ op.payload.predecessors, ∃ p ∈ graph d.cgka, opHash p = h
  founder : d.certs.founder = certs.founder
  certs : certs.certs ⊆ d.certs.certs
  proof : ∀ cert ∈ proof, cert ∈ d.certs.certs

/-- The certificates of a receiver do not contradict those of a sender: the policies
are the same, no binding takes a certified device away, an admin that may issue the
operation is one the closure hears, and a user id that is an uncertified device's is
nobody's. -/
structure Compatible (certs : CapabilityStore) (issuer : Bytes32) (certs' : CapabilityStore) :
    Prop where
  policies : SamePolicies certs certs'
  rivalFree : RivalFree certs.founder certs'.certs certs.derived.toClosure
  heard : certs'.mayAdminister issuer = true → AdminDevice certs'.derived.toClosure issuer
  named : certs.userOf issuer = none → ∀ device, certs.userOf device ≠ some issuer

section Acceptance

variable {certs : CapabilityStore} {op : ControlOp} {proof : List Certificate}
  {d : CgkaController}

theorem CapabilityStore.owns_self_of_mayAdminister {s : CapabilityStore} {device : Bytes32}
    (h : s.mayAdminister device = true) : s.Owns device device := by
  unfold CapabilityStore.mayAdminister CapabilityStore.roleOfMember at h
  cases huser : s.userOf device with
  | none =>
      rw [huser] at h
      exact absurd h (by simp)
  | some u => exact ⟨u, huser, huser⟩

/-- The receiver's check of a grounded operation is whether the sender has
standing. -/
theorem Grounded.authorize_iff (h : Grounded certs op proof) (hcheck : CanCheck certs op proof d)
    (hcompatible : Compatible certs op.issuer d.certs) :
    authorize d.certs op.payload op.issuer = .ok () ↔
      d.certs.HasStanding op.payload op.issuer := by
  have hle := le_of_rivalFree hcheck.founder hcheck.certs hcompatible.policies
    hcompatible.rivalFree
  cases h with
  | update hop =>
      obtain ⟨doc, preds, detail, hpayload⟩ := hop
      rw [hpayload]
      exact iff_of_true rfl trivial
  | add signed hmem hissuer hadded =>
      cases hpayload : op.payload with
      | remove doc device preds detail => simp [hpayload, CgkaOperation.added?] at hadded
      | update doc preds detail => simp [hpayload, CgkaOperation.added?] at hadded
      | add doc device pk preds detail =>
          obtain rfl : device = signed.payload.device := by
            simpa [hpayload, CgkaOperation.added?] using hadded
          rw [authorize_add_iff]
          refine and_iff_right_of_imp fun hstanding => ?_
          rcases hstanding with ⟨u, hdevice, -⟩ | hadmin
          · exact ⟨u, hdevice⟩
          · -- the closure hears the admin, so the binding in the proof counts
            obtain ⟨u, huser, hever⟩ := hcompatible.heard hadmin
            have hclosed := d.certs.closure_eq ▸
              closure_closed d.certs.founder d.certs.threshold d.certs.certs
            have hbinding : signed ∈ d.certs.certs.bindings := hcheck.proof _ hmem
            exact hclosed.binding signed hbinding ⟨u, hissuer ▸ huser, Or.inr hever⟩
  | remove doc device preds detail hpayload hgrounds =>
      rw [hpayload, authorize_remove_iff]
      unfold CapabilityStore.HasStanding
      dsimp only
      refine or_congr_right' fun hnot => and_iff_left_of_imp fun hadmin => ?_
      rcases hgrounds with rfl | ⟨u, hdevice, huser⟩ | ⟨hnone, hdevice⟩ | hthreshold | hexecuted
      · exact absurd (CapabilityStore.owns_self_of_mayAdminister hadmin) hnot
      · exact absurd ⟨u, hle.user hdevice, hle.user huser⟩ hnot
      · exact absurd hdevice (hcompatible.named hnone device)
      · refine Or.inl ?_
        rw [hcompatible.policies.threshold_eq hcheck.founder]
        exact hthreshold
      · refine Or.inr (isExecutedAction_iff.mpr ?_)
        exact (isExecutedAction_iff.mp hexecuted).mono (fun x => hcheck.certs (.proposal x)) hle

end Acceptance

end IrohBeekem

/-! ## A removal by whoever learned of the quorum -/

namespace IrohBeekem

open Library WorkspaceState

local instance quorumKeyhive : Keyhive := transparentKeyhive

local instance quorumBeekem : Beekem := listBeekem

local instance quorumLawful : LawfulBeekem := listBeekem_live.toLawfulBeekem

local instance quorumLoro : Loro := listLoro

local instance quorumPostcard : Postcard := blankPostcard

/-- The founder admits an admin, who joins, and a viewer. -/
@[irreducible] def enrolledRun : WorkspaceState × Rng :=
  runAll [.handle (.addUser 2 102 .admin "second" none) 0,
    .handle (.addUser 3 103 .viewer "third" none) 0] (sampleWorkspace 1, (1 : Nat))

/-- At threshold two, the founder also admits another viewer and proposes to remove
it. -/
@[irreducible] def proposedRun : WorkspaceState × Rng :=
  runAll [.handle (.addUser 2 102 .admin "second" none) 0,
    .handle (.addUser 3 103 .viewer "third" none) 0,
    .handle (.addUser 4 104 .viewer "fourth" none) 0,
    .handle (.propose (.removeMember 4) none) 0] (sampleWorkspace 2, (1 : Nat))

/-- Both admins approve. -/
@[irreducible] def approvals : List Certificate :=
  let digest := (proposedRun.1.capabilities.proposals.map fun status => status.digest).headD 0
  [(Payload.approval (.new digest 98)).signedBy 1, (Payload.approval (.new digest 99)).signedBy 2]

/-- The first viewer has joined, and hears of the approvals. -/
@[irreducible] def bystander : WorkspaceState × Rng := (joinedWorkspace proposedRun.1 3 103, (1 : Nat))

/-- What it broadcasts then. -/
@[irreducible] def overreach : ControlOp × List Certificate :=
  (sentBy (.handle (.certsArrived approvals) 0) bystander).headD (sampleFounder.cgka.init, [])

/-- The founder hears of them too. -/
@[irreducible] def informedRun : WorkspaceState × Rng := runAll [.handle (.certsArrived approvals) 0] proposedRun

private theorem enrolledRun_reachable : Reachable enrolledRun.1 := by
  unfold enrolledRun
  exact (sampleWorkspace_reachable (by decide +kernel)).calls (p := (sampleWorkspace 1, (1 : Nat))) _

private theorem proposedRun_reachable : Reachable proposedRun.1 := by
  unfold proposedRun
  exact (sampleWorkspace_reachable (by decide +kernel)).calls (p := (sampleWorkspace 2, (1 : Nat))) _

/-- A peer over lists can check an operation when it has the same certificates, the
proof's among them, and the predecessors. -/
private theorem canCheck_of_same {certs : CapabilityStore} {d : CgkaController} (op : ControlOp)
    (proof : List Certificate) (hsame : d.certs.certs = certs.certs)
    (hfounder : d.certs.founder = certs.founder)
    (hpreds : ListCgka.has d.cgka op.payload.predecessors = true)
    (hproof : ∀ cert ∈ proof, cert ∈ d.certs.certs.toList) : CanCheck certs op proof d where
  predecessors := ListCgka.has_iff.mp hpreds
  founder := hfounder
  certs := fun _ hcert => hsame ▸ hcert
  proof := fun cert hcert => Certificates.mem_toList.mp (hproof cert hcert)

/-- The founder's removal of the viewer. -/
@[irreducible] def expulsion : ControlOp × List Certificate :=
  (sentBy (.handle (.removeMember 3) 0) enrolledRun).headD (sampleFounder.cgka.init, [])

/-- The other admin has joined. -/
@[irreducible] def colleague : WorkspaceState := joinedWorkspace enrolledRun.1 2 102

end IrohBeekem
