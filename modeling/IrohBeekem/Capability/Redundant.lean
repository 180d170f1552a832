import IrohBeekem.Capability.Decisions

/-!
# Certificates that add nothing

A store implies a certificate when it already has all that the certificate would bring,
or would not admit it.  In a store without rivals such certificates change neither whom a
device acts for (`Extra.userOf`) nor anybody's role (`Extra.roleOf`): what they conclude is in the
closure already, which absorbs it.
-/

namespace IrohBeekem

open Library

variable [Keyhive]

omit [Keyhive] in
/-- What every closure starts from. -/
theorem Closure.founding_le {founder : Bytes32} {c : Closure}
    (huser : c.user founder = some founder) (hadmin : founder ∈ c.everAdmin) :
    Closure.founding founder ≤ c := by
  refine ⟨fun {d u} hd => ?_, fun {u} hu => ?_, fun {d} hd => ?_⟩
  · rw [Closure.user_founding] at hd
    split_ifs at hd with heq
    · rw [heq, huser, hd]
  · rw [(Closure.mem_everAdmin_founding founder u).mp hu]
    exact hadmin
  · exact absurd hd (Closure.not_mem_executed_founding founder d)

namespace CapabilityStore

/-- What a certificate would bring is there already, or the store does not admit it. -/
def Implies (s : CapabilityStore) : Certificate → Prop
  | .binding signed => BindingAdmissible s.derived.toClosure signed →
      s.userOf signed.payload.device = some signed.payload.user
  | .grant signed => GrantAdmitted s.founder s.threshold s.certs s.derived.toClosure signed →
      s.roleOf signed.payload.subject = some signed.payload.capability ∧
        (signed.payload.capability = .admin → s.everAdmin signed.payload.subject = true)
  | _ => False

/-- A store that has gained certificates the other one implies. -/
structure Extra (s s' : CapabilityStore) : Prop where
  founder : s'.founder = s.founder
  kept : s.certs ⊆ s'.certs
  gained : ∀ x ∈ s'.certs, x ∈ s.certs ∨ s.Implies x

variable {s s' : CapabilityStore}

namespace Extra

theorem policies (h : Extra s s') : SamePolicies s s' := fun signed _ =>
  ⟨fun hmem => h.kept (.policy signed) hmem,
    fun hmem => (h.gained (.policy signed) hmem).resolve_right id⟩

theorem proposals (h : Extra s s') : ∀ signed ∈ s'.certs.proposals, signed ∈ s.certs.proposals :=
  fun signed hmem => (h.gained (.proposal signed) hmem).resolve_right id

theorem approvals (h : Extra s s') : ∀ signed ∈ s'.certs.approvals, signed ∈ s.certs.approvals :=
  fun signed hmem => (h.gained (.approval signed) hmem).resolve_right id

theorem threshold (h : Extra s s') : s'.threshold = s.threshold :=
  h.policies.threshold_eq h.founder

/-- The closure absorbs what it implies. -/
theorem le (h : Extra s s') (hrival : RivalFree s.founder s.certs s.derived.toClosure) :
    s'.derived.toClosure ≤ s.derived.toClosure := by
  rw [s'.closure_eq, h.founder, h.threshold]
  refine closure_induction (I := fun c => c ≤ s.derived.toClosure) ?_ ?_ ?_ ?_
  · exact Closure.founding_le s.supported.founder_user s.supported.founder_admin
  · intro c hle signed hmem hne hfree hadm
    rcases h.gained (.binding signed) hmem with hheld | himplied
    · obtain ⟨u, hu⟩ := s.closed.binding signed hheld (hadm.mono hle)
      rw [hrival.binding_eq hheld ((hadm.mono hle).nameable s.supported) hne hu]
      exact Closure.bind_le hle hu
    · exact Closure.bind_le hle (himplied (hadm.mono hle))
  · intro c hle signed hmem hq
    exact Closure.execute_le hle
      (s.closed.proposal signed (h.proposals signed hmem) (hq.mono h.approvals hle))
  · intro c hle signed hmem hcap hg
    have hg' := hg.mono h.proposals hle
    refine Closure.appoint_le hle ?_
    rcases h.gained (.grant signed) hmem with hheld | himplied
    · exact s.closed.grant signed hheld hcap hg'
    · exact everAdmin_iff.mp ((himplied hg').2 hcap)

/-- Nothing is lost by it. -/
theorem ge (h : Extra s s') (hrival : RivalFree s.founder s.certs s.derived.toClosure) :
    s.derived.toClosure ≤ s'.derived.toClosure := by
  have hback := h.le hrival
  have hsup : Supported s.founder s.threshold s'.certs s'.derived.toClosure := by
    rw [← h.founder, ← h.threshold]
    exact s'.supported
  have hclosed : Closed s.founder s.threshold s'.certs s'.derived.toClosure := by
    rw [← h.founder, ← h.threshold]
    exact s'.closed
  conv_lhs => rw [s.closure_eq]
  refine closure_induction (I := fun c => c ≤ s'.derived.toClosure) ?_ ?_ ?_ ?_
  · exact Closure.founding_le hsup.founder_user hsup.founder_admin
  · intro c hle signed hmem hne hfree hadm
    have hadm' := hadm.mono hle
    obtain ⟨u, hu⟩ := hclosed.binding signed (h.kept (.binding signed) hmem) hadm'
    rw [hrival.binding_eq hmem ((hadm'.mono hback).nameable s.supported) hne (hback.user hu)]
    exact Closure.bind_le hle hu
  · intro c hle signed hmem hq
    have hq' := hq.mono (fun x => h.kept (.approval x)) hle
    exact Closure.execute_le hle
      (hclosed.proposal signed (h.kept (.proposal signed) hmem) hq')
  · intro c hle signed hmem hcap hg
    have hg' := hg.mono (fun x => h.kept (.proposal x)) hle
    exact Closure.appoint_le hle (hclosed.grant signed (h.kept (.grant signed) hmem) hcap hg')

theorem userOf (h : Extra s s') (hrival : RivalFree s.founder s.certs s.derived.toClosure)
    (device : Bytes32) : s'.userOf device = s.userOf device := by
  cases huser : s.userOf device with
  | some u => exact (h.ge hrival).user huser
  | none =>
      cases huser' : s'.userOf device with
      | none => rfl
      | some u =>
          have hback : s.userOf device = some u := (h.le hrival).user huser'
          exact absurd (huser.symm.trans hback) (by simp)

/-- A decision in force was in force before, or repeats the role of its user. -/
theorem inForce (h : Extra s s') (hrival : RivalFree s.founder s.certs s.derived.toClosure)
    {d : Decision} (hd : s'.InForce d) : s.InForce d ∨ s.roleOf d.user = some d.role := by
  unfold InForce at hd
  rw [h.founder, h.threshold] at hd
  cases hd with
  | seed => exact Or.inl .seed
  | grant signed hmem hadmitted =>
      have hadmitted' := hadmitted.mono h.proposals (h.le hrival)
      rcases h.gained (.grant signed) hmem with hheld | himplied
      · exact Or.inl (.grant signed hheld hadmitted')
      · exact Or.inr (himplied hadmitted').1
  | proposal signed user role hmem hexecuted haction =>
      exact Or.inl (.proposal signed user role (h.proposals signed hmem)
        ((h.le hrival).executed hexecuted) haction)

theorem inForce_of_held (h : Extra s s')
    (hrival : RivalFree s.founder s.certs s.derived.toClosure) {d : Decision}
    (hd : s.InForce d) : s'.InForce d := by
  unfold InForce
  rw [h.founder, h.threshold]
  cases hd with
  | seed => exact .seed
  | grant signed hmem hadmitted =>
      exact .grant signed (h.kept (.grant signed) hmem)
        (hadmitted.mono (fun x => h.kept (.proposal x)) (h.ge hrival))
  | proposal signed user role hmem hexecuted haction =>
      exact .proposal signed user role (h.kept (.proposal signed) hmem)
        ((h.ge hrival).executed hexecuted) haction

theorem roleOf (h : Extra s s') (hrival : RivalFree s.founder s.certs s.derived.toClosure)
    (user : Bytes32) : s'.roleOf user = s.roleOf user := by
  rcases s'.roleOf_cases user with ⟨hnone', hfree'⟩ | ⟨top', htop', huser', hrole', hmax'⟩
  · rcases s.roleOf_cases user with ⟨hnone, -⟩ | ⟨top, htop, huser, -, -⟩
    · rw [hnone', hnone]
    · exact absurd huser (hfree' top (h.inForce_of_held hrival htop))
  · rw [hrole']
    rcases h.inForce hrival htop' with hheld | hrepeats
    · refine (roleOf_iff_prevails.mpr ⟨top', hheld, huser', rfl, fun d hd hduser => ?_⟩).symm
      exact hmax' d (h.inForce_of_held hrival hd) hduser
    · rw [← huser', hrepeats]

end Extra

end CapabilityStore

end IrohBeekem
