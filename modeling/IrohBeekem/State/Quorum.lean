import IrohBeekem.State.ListModel
import IrohBeekem.State.Certified
import IrohBeekem.State.Reach

/-!
# Quorum passes

A pass carries out the removals a quorum has decided that the node has not carried out
yet.  It takes out exactly those targets that hold a leaf (`runQuorumActions_carried`),
and marks the others as carried out as well: for a target without a leaf there is
nothing to do.

Two things follow from the marks.  They outlive what they were made for: a member that
comes in after its removal was marked stays (`removals_performed`).  And they are not
stored: after a restart a pass takes out whoever came in again (`restart_transparent_iff`).
-/

set_option linter.unusedSectionVars false

namespace IrohBeekem

open Library CgkaController WorkspaceState

variable [Keyhive] [Beekem] [Loro] [Postcard]

/-! ## What a pass does -/

/-- Bytes that are the key of a device. -/
def IsKey (bytes : Bytes32) : Prop := memberFromBytes bytes = .ok bytes

/-- The members some actions are to remove, where the guard lets them. -/
def targets (certs : CapabilityStore) (actions : List (Bytes32 × AdminAction)) : Set Bytes32 :=
  { m | (∃ digest, (digest, .removeMember m) ∈ actions) ∧ IsKey m ∧ ¬ certs.Refuses m }

/-- Some effect sends out the removal of this member. -/
def Removes (effects : List Effect) (member : Bytes32) : Prop :=
  ∃ op proof, .broadcastOp op proof ∈ effects ∧ op.payload.removed? = some member

/-- The actions a pass finds to be carried out. -/
def WorkspaceState.pending (s : WorkspaceState) : List (Bytes32 × AdminAction) :=
  s.capabilities.executable.filter fun entry => ¬ s.executedHere.contains entry.1

/-- What carrying out some actions does: it takes out the targets that hold a leaf, sends out
a removal of each, and marks what it has dealt with. -/
structure Carried (holders : Cgka → Finset Bytes32) (actions : List (Bytes32 × AdminAction))
    (s s' : WorkspaceState) (produced : List Effect) : Prop where
  certs : s'.cgka.certs = s.cgka.certs
  leaves : ∀ m, m ∈ holders s'.cgka.cgka ↔
    m ∈ holders s.cgka.cgka ∧ m ∉ targets s.cgka.certs actions
  current : ∀ m, m ∈ s'.cgka.currentMembers ↔ m ∈ s.cgka.currentMembers ∧
    ¬ (m ∈ targets s.cgka.certs actions ∧ m ∈ holders s.cgka.cgka)
  sent : ∀ m, Removes produced m ↔ m ∈ targets s.cgka.certs actions ∧ m ∈ holders s.cgka.cgka
  minted : ∀ op proof, .broadcastOp op proof ∈ produced → ∃ m, op.payload.removed? = some m
  marked : ∀ digest ∈ s'.executedHere, digest ∈ s.executedHere ∨
    ∃ action, (digest, action) ∈ actions ∧
      ∀ m, action = .removeMember m → IsKey m → ¬ s.cgka.certs.Refuses m

section Targets

variable {certs : CapabilityStore} {digest m : Bytes32} {action : AdminAction}
  {actions : List (Bytes32 × AdminAction)}

theorem mem_targets_cons : m ∈ targets certs ((digest, action) :: actions) ↔
    action = .removeMember m ∧ IsKey m ∧ ¬ certs.Refuses m ∨ m ∈ targets certs actions := by
  constructor
  · rintro ⟨⟨d, hmem⟩, hkey, hguard⟩
    rcases List.mem_cons.mp hmem with heq | hmem
    · exact Or.inl ⟨(congrArg Prod.snd heq).symm, hkey, hguard⟩
    · exact Or.inr ⟨⟨d, hmem⟩, hkey, hguard⟩
  · rintro (⟨rfl, hkey, hguard⟩ | ⟨⟨d, hmem⟩, hkey, hguard⟩)
    · exact ⟨⟨digest, List.mem_cons_self⟩, hkey, hguard⟩
    · exact ⟨⟨d, List.mem_cons_of_mem _ hmem⟩, hkey, hguard⟩

/-- An action that removes nobody adds no target. -/
theorem targets_cons_of_idle
    (h : ∀ m, action = .removeMember m → IsKey m → certs.Refuses m) :
    targets certs ((digest, action) :: actions) = targets certs actions := by
  ext m
  rw [mem_targets_cons]
  constructor
  · rintro (⟨haction, hkey, hguard⟩ | hmem)
    · exact absurd (h m haction hkey) hguard
    · exact hmem
  · exact Or.inr

end Targets

section Removes

variable {effects effects' : List Effect} {m : Bytes32}

theorem removes_append :
    Removes (effects ++ effects') m ↔ Removes effects m ∨ Removes effects' m := by
  unfold Removes
  simp only [List.mem_append]
  constructor
  · rintro ⟨op, proof, hmem | hmem, hremoved⟩
    · exact Or.inl ⟨op, proof, hmem, hremoved⟩
    · exact Or.inr ⟨op, proof, hmem, hremoved⟩
  · rintro (⟨op, proof, hmem, hremoved⟩ | ⟨op, proof, hmem, hremoved⟩)
    · exact ⟨op, proof, Or.inl hmem, hremoved⟩
    · exact ⟨op, proof, Or.inr hmem, hremoved⟩

theorem not_removes_nil : ¬ Removes [] m := by
  rintro ⟨op, proof, hmem, -⟩
  exact absurd hmem List.not_mem_nil

end Removes

section Composition

variable {leaves : Cgka → Finset Bytes32} {s s₁ s' : WorkspaceState} {digest member : Bytes32}
  {rest : List (Bytes32 × AdminAction)} {first produced : List Effect}

/-- One action that removes nobody, and then the rest. -/
private theorem Carried.idle {action : AdminAction}
    (h : Carried leaves rest s₁ s' produced) (hcgka : s₁.cgka = s.cgka)
    (hidle : ∀ m, action = .removeMember m → IsKey m → s.cgka.certs.Refuses m)
    (hmarked : ∀ d ∈ s₁.executedHere, d ∈ s.executedHere ∨
      d = digest ∧ ∀ m, action = .removeMember m → IsKey m → ¬ s.cgka.certs.Refuses m) :
    Carried leaves ((digest, action) :: rest) s s' produced where
  certs := h.certs.trans (by rw [hcgka])
  leaves := by
    intro m
    rw [targets_cons_of_idle hidle, ← hcgka]
    exact h.leaves m
  current := by
    intro m
    rw [targets_cons_of_idle hidle, ← hcgka]
    exact h.current m
  sent := by
    intro m
    rw [targets_cons_of_idle hidle, ← hcgka]
    exact h.sent m
  minted := h.minted
  marked := by
    intro d hd
    rcases h.marked d hd with hd | ⟨found, hmem, hguard⟩
    · refine (hmarked d hd).imp_right ?_
      rintro ⟨rfl, hguard⟩
      exact ⟨action, List.mem_cons_self, hguard⟩
    · rw [hcgka] at hguard
      exact Or.inr ⟨found, List.mem_cons_of_mem _ hmem, hguard⟩

/-- One removal, and then the rest. -/
private theorem Carried.removal
    (h : Carried leaves rest s₁ s' produced) (hkey : IsKey member)
    (hguard : ¬ s.cgka.certs.Refuses member) (hcerts : s₁.cgka.certs = s.cgka.certs)
    (hleaves : leaves s₁.cgka.cgka = (leaves s.cgka.cgka).erase member)
    (hcurrent : ∀ m, m ∈ s₁.cgka.currentMembers ↔
      m ∈ s.cgka.currentMembers ∧ ¬ (m = member ∧ member ∈ leaves s.cgka.cgka))
    (hsent : ∀ m, Removes first m ↔ m = member ∧ member ∈ leaves s.cgka.cgka)
    (hminted : ∀ op proof, .broadcastOp op proof ∈ first → op.payload.removed? = some member)
    (hmarked : ∀ d ∈ s₁.executedHere, d ∈ s.executedHere ∨ d = digest) :
    Carried leaves ((digest, .removeMember member) :: rest) s s' (first ++ produced) := by
  have htargets : ∀ m, m ∈ targets s.cgka.certs ((digest, .removeMember member) :: rest) ↔
      m = member ∨ m ∈ targets s.cgka.certs rest := by
    intro m
    rw [mem_targets_cons]
    constructor
    · rintro (⟨haction, -⟩ | hmem)
      · exact Or.inl (AdminAction.removeMember.inj haction).symm
      · exact Or.inr hmem
    · rintro (rfl | hmem)
      · exact Or.inl ⟨rfl, hkey, hguard⟩
      · exact Or.inr hmem
  refine ⟨h.certs.trans hcerts, fun m => ?_, fun m => ?_, fun m => ?_, fun op proof hop => ?_,
    fun d hd => ?_⟩
  · rw [h.leaves, hleaves, hcerts, htargets, Finset.mem_erase]
    tauto
  · rw [h.current, hcurrent, hcerts, hleaves, htargets, Finset.mem_erase]
    by_cases hm : m = member
    · subst hm
      tauto
    · tauto
  · rw [removes_append, hsent, h.sent, hcerts, hleaves, htargets, Finset.mem_erase]
    by_cases hm : m = member
    · subst hm
      tauto
    · tauto
  · rcases List.mem_append.mp hop with hop | hop
    · exact ⟨member, hminted op proof hop⟩
    · exact h.minted op proof hop
  · rcases h.marked d hd with hd | ⟨found, hmem, hfound⟩
    · refine (hmarked d hd).imp_right ?_
      rintro rfl
      refine ⟨_, List.mem_cons_self, fun m hm _ => ?_⟩
      rwa [← AdminAction.removeMember.inj hm]
    · rw [hcerts] at hfound
      exact Or.inr ⟨found, List.mem_cons_of_mem _ hmem, hfound⟩

end Composition

namespace WorkspaceState

section Pass

variable {leaves : Cgka → Finset Bytes32} {s : WorkspaceState} {rng : Rng} {member : Bytes32}

/-- A removal that the guard refuses changes nothing. -/
theorem performRemoval_refused (hguard : s.capabilities.Refuses member) :
    Wp (performRemoval member) (fun _ _ => False) (fun _ p => p = (s, rng)) (s, rng) := by
  unfold performRemoval requireNotLastAdmin
  rw [wp_bind, wp_self]
  dsimp only
  rw [if_pos hguard.1, wp_bind, wp_bind, wp_self]
  dsimp only
  rw [if_pos hguard.2]
  rfl

variable [LawfulBeekem]

/-- A retraction succeeds while somebody else holds a leaf, and takes out whoever holds
one. -/
theorem retract_present (hroster : WorkspaceState.Roster leaves) {other : Bytes32}
    (hother : other ∈ leaves s.cgka.cgka) (hne : other ≠ member) :
    Wp (onCgka (CgkaController.removeMember member))
      (fun op p => p.1.cgka.certs = s.cgka.certs ∧ p.1.executedHere = s.executedHere ∧
        leaves p.1.cgka.cgka = (leaves s.cgka.cgka).erase member ∧
        (op = none ∧ member ∉ leaves s.cgka.cgka ∧
            p.1.cgka.currentMembers = s.cgka.currentMembers ∨
          ∃ o, op = some o ∧ o.payload.removed? = some member ∧ member ∈ leaves s.cgka.cgka ∧
            p.1.cgka.currentMembers = s.cgka.currentMembers.erase member))
      (fun _ _ => False) (s, rng) := by
  refine ((retract_spec member s rng).and (retract_roster member s rng)).mono ?_ ?_
  · rintro op p ⟨⟨c, rfl, hprogress, hcerts, hsame, hop⟩, hleaves⟩
    rcases hleaves leaves hroster with ⟨rfl, habsent, hkeeps⟩ | ⟨hsome, hmem, -, herased⟩
    · refine ⟨hcerts, rfl, ?_, Or.inl ⟨rfl, habsent, hsame rfl⟩⟩
      rw [hkeeps, Finset.erase_eq_of_notMem habsent]
    · obtain ⟨o, rfl⟩ := Option.ne_none_iff_exists'.mp hsome
      obtain ⟨-, doc, preds, detail, hpayload⟩ := hop o rfl
      have hremoved : o.payload.removed? = some member := by
        rw [hpayload]
        rfl
      refine ⟨hcerts, rfl, herased, Or.inr ⟨o, rfl, hremoved, hmem, ?_⟩⟩
      exact hprogress.evolves.members.trans (seat_of_removed hremoved)
  · rintro e p ⟨-, hleaves⟩
    exact hne (Finset.mem_singleton.mp (hleaves leaves hroster ▸ hother))

/-- The next generation of the namespace. -/
private def bumped (s : WorkspaceState) : WorkspaceState :=
  { s with namespaceEpoch := { s.namespaceEpoch with epoch := satSucc s.namespaceEpoch.epoch } }

/-- A removal that the guard lets through, as carrying out one action. -/
theorem performRemoval_carried (hroster : WorkspaceState.Roster leaves) {other : Bytes32}
    (hother : other ∈ leaves s.cgka.cgka) (hne : other ≠ member)
    (hguard : ¬ s.capabilities.Refuses member) :
    Wp (performRemoval member)
      (fun produced p => p.1.cgka.certs = s.cgka.certs ∧ p.1.executedHere = s.executedHere ∧
        leaves p.1.cgka.cgka = (leaves s.cgka.cgka).erase member ∧
        (∀ m, m ∈ p.1.cgka.currentMembers ↔
          m ∈ s.cgka.currentMembers ∧ ¬ (m = member ∧ member ∈ leaves s.cgka.cgka)) ∧
        (∀ m, Removes produced m ↔ m = member ∧ member ∈ leaves s.cgka.cgka) ∧
        ∀ op proof, .broadcastOp op proof ∈ produced → op.payload.removed? = some member)
      (fun _ _ => False) (s, rng) := by
  unfold performRemoval requireNotLastAdmin
  rw [wp_bind, wp_self]
  dsimp only
  split_ifs with hdevices
  on_goal 1 =>
    rw [wp_bind, wp_bind, wp_self]
    dsimp only
    rw [if_neg fun hlast => hguard ⟨hdevices, hlast⟩, wp_pure]
  -- the removal itself, which both branches end in
  all_goals
    refine (retract_present hroster hother hne).seq ?_ fun _ _ => id
    rintro op p ⟨hcerts, hexecuted, hleaves, ⟨rfl, habsent, hcurrent⟩ |
      ⟨o, rfl, hremoved, hmem, hcurrent⟩⟩
    · refine ⟨hcerts, hexecuted, hleaves, fun m => ?_, fun m => ?_, fun op proof hop => ?_⟩
      · rw [hcurrent]
        simp [habsent]
      · simp [not_removes_nil, habsent]
      · exact absurd hop List.not_mem_nil
    · have hsole : ∀ op proof, .broadcastOp op proof ∈
          [Effect.broadcastOp o ((bumped p.1).quorumProof (.removeMember member)),
            .rotateNamespace (bumped p.1).namespaceEpoch.epoch] → op = o := by
        intro op proof hsent
        rcases List.mem_cons.mp hsent with hsent | hsent
        · exact (Effect.broadcastOp.inj hsent).1
        · exact absurd (List.mem_singleton.mp hsent) (by simp)
      refine ⟨hcerts, hexecuted, hleaves, fun m => ?_, fun m => ?_, fun op proof hop => ?_⟩
      · change m ∈ p.1.cgka.currentMembers ↔ _
        rw [hcurrent]
        simp [hmem, and_comm]
      · constructor
        · rintro ⟨op, proof, hsent, heq⟩
          obtain rfl := hsole op proof hsent
          exact ⟨Option.some.inj (heq.symm.trans hremoved), hmem⟩
        · rintro ⟨rfl, -⟩
          exact ⟨o, _, List.mem_cons_self, hremoved⟩
      · rw [hsole op proof hop]
        exact hremoved

/-- While somebody who is no target holds a leaf, every action is dealt with. -/
theorem performActions_carried (hroster : WorkspaceState.Roster leaves) {other : Bytes32}
    (actions : List (Bytes32 × AdminAction)) (effects : List Effect) (s : WorkspaceState)
    (rng : Rng) (hother : other ∈ leaves s.cgka.cgka)
    (hstays : other ∉ targets s.cgka.certs actions) :
    Wp (performActions actions effects)
      (fun effects' p => ∃ produced, effects' = effects ++ produced ∧
        Carried leaves actions s p.1 produced)
      (fun _ _ => False) (s, rng) := by
  induction actions generalizing effects s rng with
  | nil =>
      have hnone : ∀ m, m ∉ targets s.cgka.certs [] := by
        rintro m ⟨⟨d, hmem⟩, -⟩
        exact absurd hmem List.not_mem_nil
      refine ⟨[], (List.append_nil effects).symm, rfl, fun m => ?_, fun m => ?_, fun m => ?_, ?_, ?_⟩
      · simp [hnone]
      · simp [hnone]
      · simp [hnone, not_removes_nil]
      · exact fun op proof hop => absurd hop List.not_mem_nil
      · exact fun d hd => Or.inl hd
  | cons entry rest ih =>
      obtain ⟨digest, action⟩ := entry
      have hrest : ∀ s₁ : WorkspaceState, s₁.cgka = s.cgka →
          other ∈ leaves s₁.cgka.cgka ∧ other ∉ targets s₁.cgka.certs rest := by
        intro s₁ hcgka
        rw [hcgka]
        exact ⟨hother, fun hmem => hstays (mem_targets_cons.mpr (Or.inr hmem))⟩
      -- an action that removes nobody, after which these are marked
      have hidle : ∀ s₁ : WorkspaceState, s₁.cgka = s.cgka →
          (∀ m, action = .removeMember m → IsKey m → s.cgka.certs.Refuses m) →
          (∀ d ∈ s₁.executedHere, d ∈ s.executedHere ∨
            d = digest ∧ ∀ m, action = .removeMember m → IsKey m → ¬ s.cgka.certs.Refuses m) →
          Wp (performActions rest effects)
            (fun effects' p => ∃ produced, effects' = effects ++ produced ∧
              Carried leaves ((digest, action) :: rest) s p.1 produced)
            (fun _ _ => False) (s₁, rng) := by
        intro s₁ hcgka hnobody hmarked
        refine (ih effects s₁ rng (hrest s₁ hcgka).1 (hrest s₁ hcgka).2).mono ?_ fun _ _ => id
        rintro effects' p ⟨produced, rfl, hcarried⟩
        exact ⟨produced, rfl, hcarried.idle hcgka hnobody hmarked⟩
      have hinsert : ∀ d ∈ s.executedHere.insert digest, d ∈ s.executedHere ∨ d = digest :=
        fun d hd => (BTreeSet.mem_insert.mp hd).symm
      cases action with
      | setRole user role =>
          refine hidle { s with executedHere := s.executedHere.insert digest } rfl ?_ fun d hd => ?_
          · intro m hm
            exact absurd hm (by simp)
          · exact (hinsert d hd).imp_right fun heq => ⟨heq, fun m hm => absurd hm (by simp)⟩
      | removeMember member =>
          unfold performActions
          dsimp only
          cases hmember : memberFromBytes member with
          | error err =>
              have hnokey : ∀ m, AdminAction.removeMember member = .removeMember m → ¬ IsKey m := by
                intro m hm hkey
                rw [← AdminAction.removeMember.inj hm, IsKey, hmember] at hkey
                exact absurd hkey (by simp)
              refine hidle { s with executedHere := s.executedHere.insert digest } rfl ?_
                fun d hd => ?_
              · exact fun m hm hkey => absurd hkey (hnokey m hm)
              · exact (hinsert d hd).imp_right fun heq =>
                  ⟨heq, fun m hm hkey => absurd hkey (hnokey m hm)⟩
          | ok found =>
              obtain rfl := memberFromBytes_ok hmember
              dsimp only
              rw [wp_bind, wp_attempt]
              by_cases hguard : s.cgka.certs.Refuses found
              · refine (performRemoval_refused hguard).mono (fun _ _ => False.elim) ?_
                rintro err p rfl
                refine hidle s rfl ?_ fun d hd => Or.inl hd
                intro m hm _
                rwa [← AdminAction.removeMember.inj hm]
              · have htarget : found ∈ targets s.cgka.certs ((digest, .removeMember found) :: rest) :=
                  mem_targets_cons.mpr (Or.inl ⟨rfl, hmember, hguard⟩)
                have hne : other ≠ found := by
                  rintro rfl
                  exact hstays htarget
                refine (performRemoval_carried hroster hother hne hguard).mono ?_ fun _ _ => False.elim
                rintro first p ⟨hcerts, hexecuted, hleaves, hcurrent, hsent, hminted⟩
                change Wp (performActions rest (effects ++ first)) _ _
                  ({ p.1 with executedHere := p.1.executedHere.insert digest }, p.2)
                have hstill : other ∈ leaves p.1.cgka.cgka := by
                  rw [hleaves]
                  exact Finset.mem_erase.mpr ⟨hne, hother⟩
                have hout : other ∉ targets p.1.cgka.certs rest := by
                  rw [hcerts]
                  exact fun hmem => hstays (mem_targets_cons.mpr (Or.inr hmem))
                refine (ih (effects ++ first)
                  { p.1 with executedHere := p.1.executedHere.insert digest } p.2 hstill
                  hout).mono ?_ fun _ _ => id
                rintro effects' q ⟨produced, rfl, hcarried⟩
                refine ⟨first ++ produced, List.append_assoc _ _ _, ?_⟩
                refine hcarried.removal hmember hguard hcerts hleaves hcurrent hsent hminted
                  fun d hd => ?_
                rw [← hexecuted]
                exact (BTreeSet.mem_insert.mp hd).symm

/-- A whole pass. -/
theorem runQuorumActions_carried (hroster : WorkspaceState.Roster leaves) {other : Bytes32}
    (hother : other ∈ leaves s.cgka.cgka) (hstays : other ∉ targets s.cgka.certs s.pending) :
    Wp runQuorumActions (fun produced p => Carried leaves s.pending s p.1 produced)
      (fun _ _ => False) (s, rng) := by
  unfold runQuorumActions
  rw [wp_bind, wp_self]
  refine (performActions_carried hroster s.pending [] s rng hother hstays).mono ?_ fun _ _ => id
  rintro effects p ⟨produced, rfl, hcarried⟩
  exact hcarried

end Pass

/-! ## Before the pass -/

/-- The part of `on_certs_arrived` before its pass. -/
def absorb (certs : List Certificate) : Run (List Effect) := do
  let absorbed ← onCgka (CgkaController.absorbCertificates certs)
  if 0 < absorbed then
    let _ ← onCgka CgkaController.mergePending
    drainPending
  else return []

theorem onCertsArrived_eq (certs : List Certificate) :
    onCertsArrived certs = (do
      let effects ← absorb certs
      let performed ← runQuorumActions
      return effects ++ performed) := by
  unfold onCertsArrived absorb
  simp only [bind_assoc]
  congr 1
  funext absorbed
  split_ifs
  · simp only [bind_assoc]
  · simp

/-- The part of `on_approve` before its pass. -/
def signApproval (proposal : Bytes32) : Run (List Effect) := do
  requireAdmin
  let nonce ← randomNonce
  let cert ← onCgka (certifyApproval proposal nonce)
  return [.broadcastCerts [cert]]

theorem onApprove_eq (proposal : Bytes32) :
    onApprove proposal = (do
      let effects ← signApproval proposal
      let performed ← runQuorumActions
      return effects ++ performed) := by
  unfold onApprove signApproval
  simp only [bind_assoc, pure_bind, List.singleton_append]

/-- Where a call ends whose pass finds these actions. -/
theorem run_pass {before : Run (List Effect)} {q p p' : WorkspaceState × Rng}
    {effects produced : List Effect} {actions : List (Bytes32 × AdminAction)}
    (hbefore : before q = .ok effects p) (hpending : p.1.pending = actions)
    (hpass : performActions actions [] p = .ok produced p') :
    (do
      let effects ← before
      let performed ← runQuorumActions
      return effects ++ performed : Run (List Effect)) q = .ok (effects ++ produced) p' := by
  show EStateM.bind _ _ _ = _
  unfold EStateM.bind
  rw [hbefore]
  show EStateM.bind _ _ _ = _
  unfold EStateM.bind
  have hsame : runQuorumActions p = performActions p.1.pending [] p := rfl
  rw [hsame, hpending, hpass]
  rfl

/-- A message with nothing new in it leads straight to the pass. -/
theorem absorb_idle {certs : List Certificate} {s : WorkspaceState}
    (h : (s.cgka.certs.extend certs).1 = 0) (rng : Rng) :
    absorb certs (s, rng) = .ok [] (s, rng) := by
  have hsame : (s.cgka.certs.extend certs).2 = s.cgka.certs := by
    unfold CapabilityStore.extend at h ⊢
    dsimp only at h ⊢
    rw [if_neg (by omega)]
  have hspec : Wp (absorb certs) (fun effects p => effects = [] ∧ p = (s, rng))
      (fun _ _ => False) (s, rng) := by
    unfold absorb
    rw [wp_bind, wp_onCgka]
    unfold absorbCertificates
    rw [wp_bind, wp_get, wp_bind, wp_set, wp_pure, h, hsame]
    exact ⟨rfl, rfl⟩
  unfold Wp at hspec
  cases hrun : absorb certs (s, rng) with
  | ok effects p =>
      rw [hrun] at hspec
      obtain ⟨rfl, rfl⟩ := hspec
      rfl
  | error e p =>
      rw [hrun] at hspec
      exact hspec.elim

end WorkspaceState

/-! ## Restarts -/

section Restarts

variable {leaves : Cgka → Finset Bytes32} {s t : WorkspaceState} {certs : List Certificate}
  {now : UnixSeconds}

/-- Handling a message on the second node sends out no operation and changes no membership
that handling it on the first does not. -/
def NoMoreThan (q q' : WorkspaceState × Rng) (certs : List Certificate) (now : UnixSeconds) :
    Prop :=
  ∀ effects effects' p p',
    handle (.certsArrived certs) now q = .ok effects p →
    handle (.certsArrived certs) now q' = .ok effects' p' →
    (∀ op proof, .broadcastOp op proof ∈ effects' →
      ∃ m, op.payload.removed? = some m ∧ Removes effects m) ∧
    (∀ m ∈ q'.1.cgka.currentMembers, m ∉ p'.1.cgka.currentMembers → m ∉ p.1.cgka.currentMembers) ∧
    ∀ m ∈ p'.1.cgka.currentMembers, m ∉ q'.1.cgka.currentMembers → m ∈ p.1.cgka.currentMembers

/-- Whoever an executed removal names and holds a leaf is named by one that has not been
carried out here. -/
def Standing (leaves : Cgka → Finset Bytes32) (s : WorkspaceState) : Prop :=
  ∀ m ∈ leaves s.cgka.cgka, m ∈ targets s.cgka.certs s.cgka.certs.executable →
    m ∈ targets s.cgka.certs s.pending

theorem targets_mono {store : CapabilityStore} {l l' : List (Bytes32 × AdminAction)}
    (h : ∀ entry ∈ l, entry ∈ l') {m : Bytes32} (hm : m ∈ targets store l) :
    m ∈ targets store l' := by
  obtain ⟨⟨digest, hmem⟩, hkey, hguard⟩ := hm
  exact ⟨⟨digest, h _ hmem⟩, hkey, hguard⟩

theorem pending_subset (s : WorkspaceState) :
    ∀ entry ∈ s.pending, entry ∈ s.cgka.certs.executable :=
  fun _ h => (List.mem_filter.mp h).1

variable [LawfulBeekem]

/-- Handling a message with nothing new in it is a pass. -/
theorem certsArrived_carried (hroster : WorkspaceState.Roster leaves) (now : UnixSeconds)
    {other : Bytes32}
    (hother : other ∈ leaves s.cgka.cgka) (hstays : other ∉ targets s.cgka.certs s.pending)
    (hnothing : (s.cgka.certs.extend certs).1 = 0) (rng : Rng) :
    Wp (handle (.certsArrived certs) now)
      (fun produced p => Carried leaves s.pending s p.1 produced) (fun _ _ => False) (s, rng) := by
  change Wp (onCertsArrived certs) _ _ _
  rw [onCertsArrived_eq]
  refine Wp.seq (Q := fun effects p => effects = [] ∧ p = (s, rng)) (E := fun _ _ => False) ?_ ?_
    fun _ _ => id
  · unfold Wp
    rw [absorb_idle hnothing]
    exact ⟨rfl, rfl⟩
  · rintro effects p ⟨rfl, rfl⟩
    refine (runQuorumActions_carried hroster hother hstays).seq ?_ fun _ _ => id
    exact fun _ _ h => h

section Resumed

variable (hroster : WorkspaceState.Roster leaves) (hreach : Reachable s) {order : HashOrder}
  {stored : WorkspaceSnapshot} (hstored : s.snapshot order = .ok stored)
  (hresumed : WorkspaceState.fromSnapshot stored = .ok t)
  (hnothing : (s.cgka.certs.extend certs).1 = 0)
  (hstays : ∃ other ∈ leaves s.cgka.cgka, other ∉ targets s.cgka.certs s.cgka.certs.executable)
include hroster hreach hstored hresumed hnothing hstays

/-- The pass of a resumed node is over everything that was ever decided. -/
theorem resumed_carried (now : UnixSeconds) (rng : Rng) :
    Wp (handle (.certsArrived certs) now)
      (fun produced p =>
        (∀ m, Removes produced m ↔
          m ∈ targets s.cgka.certs s.cgka.certs.executable ∧ m ∈ leaves s.cgka.cgka) ∧
        (∀ m, m ∈ p.1.cgka.currentMembers ↔ m ∈ s.cgka.currentMembers ∧
          ¬ (m ∈ targets s.cgka.certs s.cgka.certs.executable ∧ m ∈ leaves s.cgka.cgka)) ∧
        ∀ op proof, .broadcastOp op proof ∈ produced → ∃ m, op.payload.removed? = some m)
      (fun _ _ => False) (t, rng) := by
  have hresume := WorkspaceState.fromSnapshot_ok hstored hresumed
  have hcerts : t.cgka.certs = s.cgka.certs :=
    hresume.certs.trans (CapabilityStore.extend_certificates hreach.upright.verified)
  have hpending : t.pending = s.cgka.certs.executable := by
    unfold WorkspaceState.pending WorkspaceState.capabilities
    rw [hresume.executedHere, hcerts]
    exact List.filter_eq_self.mpr fun _ _ => rfl
  obtain ⟨other, hother, hout⟩ := hstays
  have hspared : other ∉ targets t.cgka.certs t.pending := by
    rw [hpending, hcerts]
    exact hout
  refine (certsArrived_carried hroster now (hresume.cgka ▸ hother) hspared
    (hcerts ▸ hnothing) rng).mono ?_ fun _ _ => id
  intro produced p hcarried
  have hsent := hcarried.sent
  have hcurrent := hcarried.current
  rw [hpending, hcerts, hresume.cgka] at hsent hcurrent
  rw [hresume.current] at hcurrent
  exact ⟨hsent, hcurrent, hcarried.minted⟩

omit hreach hstored hresumed in
theorem unresumed_carried (now : UnixSeconds) (rng : Rng) :
    Wp (handle (.certsArrived certs) now)
      (fun produced p => Carried leaves s.pending s p.1 produced) (fun _ _ => False) (s, rng) := by
  obtain ⟨other, hother, hout⟩ := hstays
  exact certsArrived_carried hroster now hother
    (fun hm => hout (targets_mono (pending_subset s) hm)) hnothing rng

/-- What the resumed node sends out, the first one sends out: the removals still stand. -/
theorem NoMoreThan.standing {rng rng' : Rng} (h : NoMoreThan (s, rng) (t, rng') certs now) :
    Standing leaves s := by
  intro m hleaf htarget
  obtain ⟨effects, p, hrun, hcarried⟩ :=
    (unresumed_carried hroster hnothing hstays now rng).exists_ok
  obtain ⟨effects', p', hrun', hsent, -⟩ :=
    (resumed_carried hroster hreach hstored hresumed hnothing hstays now rng').exists_ok
  obtain ⟨op, proof, hop, hremoved⟩ := (hsent m).mpr ⟨htarget, hleaf⟩
  obtain ⟨m', hremoved', hfirst⟩ := (h _ _ _ _ hrun hrun').1 op proof hop
  obtain rfl := Option.some.inj (hremoved.symm.trans hremoved')
  exact ((hcarried.sent m).mp hfirst).1

theorem Standing.noMoreThan (h : Standing leaves s) (now : UnixSeconds) (rng rng' : Rng) :
    NoMoreThan (s, rng) (t, rng') certs now := by
  intro effects effects' p p' hrun hrun'
  have hcarried := (unresumed_carried hroster hnothing hstays now rng).of_ok hrun
  obtain ⟨hsent, hcurrent, hminted⟩ :=
    (resumed_carried hroster hreach hstored hresumed hnothing hstays now rng').of_ok hrun'
  have hresume := WorkspaceState.fromSnapshot_ok hstored hresumed
  refine ⟨fun op proof hop => ?_, fun m hm hgone hstill => ?_, fun m hm hnew => ?_⟩
  · obtain ⟨m, hremoved⟩ := hminted op proof hop
    obtain ⟨htarget, hleaf⟩ := (hsent m).mp ⟨op, proof, hop, hremoved⟩
    exact ⟨m, hremoved, (hcarried.sent m).mpr ⟨h m hleaf htarget, hleaf⟩⟩
  · have hmember : m ∈ s.cgka.currentMembers := hresume.current ▸ hm
    have htaken : m ∈ targets s.cgka.certs s.cgka.certs.executable ∧ m ∈ leaves s.cgka.cgka := by
      by_contra hkept
      exact hgone ((hcurrent m).mpr ⟨hmember, hkept⟩)
    exact ((hcarried.current m).mp hstill).2 ⟨h m htaken.2 htaken.1, htaken.2⟩
  · have hmember : m ∈ t.cgka.currentMembers := by
      rw [hresume.current]
      exact ((hcurrent m).mp hm).1
    exact absurd hmember hnew

/-- A restart makes no difference to a message with nothing new in it exactly when every
removal that was carried out still stands. -/
theorem restart_transparent_iff (now : UnixSeconds) (rng rng' : Rng) :
    NoMoreThan (s, rng) (t, rng') certs now ↔ Standing leaves s :=
  ⟨fun h => h.standing hroster hreach hstored hresumed hnothing hstays,
    fun h => h.noMoreThan hroster hreach hstored hresumed hnothing hstays now rng rng'⟩

end Resumed

end Restarts

/-! ## Runs -/

/-- This proposal of the store is to remove this member. -/
def Decides (certs : CapabilityStore) (digest m : Bytes32) : Prop :=
  ∃ signed ∈ certs.certs.proposals, Certificate.digest (.proposal signed) = digest ∧
    signed.payload.action = .removeMember m

/-- What happens in a call before its pass, if it has one. -/
def Call.prelude : Call → Option (Run (List Effect))
  | .handle (.certsArrived certs) _ => some (absorb certs)
  | .handle (.approve proposal) _ => some (signApproval proposal)
  | .onControl (.certs certs) _ => some do
      refuseOversized 0 certs.length
      absorb certs
  | .onControl (.log ops certs) _ => some do
      refuseOversized ops.length certs.length
      absorb certs
  | _ => none

/-- A state in which a pass deals with everything: the members are keys that hold leaves, and
somebody who is no target holds one. -/
structure Ready (holders : Cgka → Finset Bytes32) (s : WorkspaceState) : Prop where
  keys : ∀ m ∈ s.cgka.currentMembers, IsKey m
  seated : ∀ m ∈ s.cgka.currentMembers, m ∈ holders s.cgka.cgka
  stays : ∃ other ∈ holders s.cgka.cgka, other ∉ targets s.cgka.certs s.pending

/-- A turn brings in keys only, and nobody whose removal has been carried out, and its pass, if it has one,
begins in a state in which it can deal with everything.  What a log brings after its pass
is nobody the pass was to remove. -/
structure Turn.Undisturbed (holders : Cgka → Finset Bytes32) (turn : Turn) (s : WorkspaceState) :
    Prop where
  keys : ∀ m, turn.adds s m → IsKey m
  readmits : ∀ m, turn.adds s m → ∀ digest ∈ s.executedHere, ¬ Decides s.cgka.certs digest m
  ready : ∀ made rng, turn = .call made rng → ∀ before, made.prelude = some before →
    ∀ effects p, before (s, rng) = .ok effects p → Ready holders p.1
  log : ∀ ops certs now rng, turn = .call (.onControl (.log ops certs) now) rng →
    ∀ m, turn.adds s m → m ∉ targets (s.cgka.certs.extend certs).2
      (s.cgka.certs.extend certs).2.executable

/-- Every removal that was decided has been dealt with, beside those that had been marked
before: who it names is out, or the guard refuses. -/
structure Dealt (s s' : WorkspaceState) : Prop where
  marked : ∀ digest ∈ s'.executedHere, digest ∈ s.executedHere ∨
    ∀ m, Decides s'.cgka.certs digest m → m ∉ s'.cgka.currentMembers ∧
      (IsKey m → m ∈ targets s'.cgka.certs s'.cgka.certs.executable)
  performed : ∀ digest m, (digest, .removeMember m) ∈ s'.cgka.certs.executable →
    digest ∈ s.executedHere ∨ m ∉ s'.cgka.currentMembers ∨ s'.cgka.certs.Refuses m

section Decisions

variable {certs certs' : CapabilityStore} {digest m : Bytes32} {action : AdminAction}

theorem decision_of_executable (h : (digest, action) ∈ certs.executable) :
    ∃ signed ∈ certs.certs.proposals, Certificate.digest (.proposal signed) = digest ∧
      signed.payload.action = action := by
  obtain ⟨found, -, hfound⟩ := List.mem_filterMap.mp h
  obtain ⟨signed, hsigned, heq⟩ := Option.map_eq_some_iff.mp hfound
  obtain ⟨rfl, rfl⟩ := Prod.mk.inj heq
  obtain ⟨hmem, hdigest⟩ := Keyed.find?_eq_some.mp hsigned
  exact ⟨signed, hmem, hdigest, rfl⟩

/-- A digest stands for one proposal. -/
theorem Decides.action_eq (h : Decides certs digest m)
    (hexecutable : (digest, action) ∈ certs.executable) :
    action = .removeMember m := by
  obtain ⟨signed, hmem, hdigest, haction⟩ := h
  obtain ⟨signed', hmem', hdigest', rfl⟩ := decision_of_executable hexecutable
  rw [Keyed.eq_of_key_eq hmem' hmem (hdigest'.trans hdigest.symm), haction]

/-- What a proposal that was held decides, it decided before. -/
theorem Decides.of_kept (h : Decides certs' digest m) (hkept : certs.certs ⊆ certs'.certs)
    (hheld : ∃ signed ∈ certs.certs.proposals, Certificate.digest (.proposal signed) = digest) :
    Decides certs digest m := by
  obtain ⟨signed, hmem, hdigest, haction⟩ := h
  obtain ⟨held, hmem', hdigest'⟩ := hheld
  have heq := Keyed.eq_of_key_eq (hkept (.proposal held) hmem') hmem (hdigest'.trans hdigest.symm)
  exact ⟨held, hmem', hdigest', heq ▸ haction⟩

end Decisions

section Runs

variable [LawfulBeekem] {leaves : Cgka → Finset Bytes32} {s : WorkspaceState} {rng : Rng}

/-- A pass that begins ready deals with everything. -/
theorem runQuorumActions_dealt (hroster : WorkspaceState.Roster leaves) (hready : Ready leaves s) :
    Wp runQuorumActions (fun _ p => Dealt s p.1 ∧ p.1.cgka.certs = s.cgka.certs)
      (fun _ _ => False) (s, rng) := by
  obtain ⟨other, hother, hstays⟩ := hready.stays
  refine (runQuorumActions_carried hroster hother hstays).mono ?_ fun _ _ => id
  intro produced p hcarried
  -- a member that is a target holds a leaf and is taken out
  have hout : ∀ m, m ∈ targets s.cgka.certs s.pending → m ∉ p.1.cgka.currentMembers := by
    intro m htarget hm
    obtain ⟨hbefore, hkept⟩ := (hcarried.current m).mp hm
    exact hkept ⟨htarget, hready.seated m hbefore⟩
  have hkey : ∀ m ∈ p.1.cgka.currentMembers, IsKey m :=
    fun m hm => hready.keys m ((hcarried.current m).mp hm).1
  refine ⟨⟨fun digest hdigest => ?_, fun digest m hexecutable => ?_⟩, hcarried.certs⟩
  · refine (hcarried.marked digest hdigest).imp_right ?_
    rintro ⟨action, hpending, hguard⟩ m hdecides
    rw [hcarried.certs] at hdecides ⊢
    have haction := hdecides.action_eq (pending_subset s _ hpending)
    have htarget : IsKey m → m ∈ targets s.cgka.certs s.pending :=
      fun hm => ⟨⟨digest, haction ▸ hpending⟩, hm, hguard m haction hm⟩
    refine ⟨fun hm => hout m (htarget (hkey m hm)) hm, fun hm => ?_⟩
    exact targets_mono (pending_subset s) (htarget hm)
  · rw [hcarried.certs] at hexecutable ⊢
    by_cases hmarked : digest ∈ s.executedHere
    · exact Or.inl hmarked
    · have hpending : (digest, .removeMember m) ∈ s.pending :=
        List.mem_filter.mpr ⟨hexecutable, by simp [BTreeSet.contains_eq_false.mpr hmarked]⟩
      by_cases hm : m ∈ p.1.cgka.currentMembers
      · by_cases hguard : s.cgka.certs.Refuses m
        · exact Or.inr (Or.inr hguard)
        · exact absurd hm (hout m ⟨⟨digest, hpending⟩, hkey m hm, hguard⟩)
      · exact Or.inr (Or.inl hm)

theorem Dealt.of_marks {s₁ s' : WorkspaceState} (h : Dealt s₁ s')
    (hmarks : s₁.executedHere = s.executedHere) : Dealt s s' := by
  obtain ⟨hmarked, hperformed⟩ := h
  rw [hmarks] at hmarked hperformed
  exact ⟨hmarked, hperformed⟩

/-- A prelude that marks nothing, and then a pass. -/
theorem dealt_of_prelude (hroster : WorkspaceState.Roster leaves) {before : Run (List Effect)}
    {join : List Effect → List Effect → List Effect}
    (hbefore : Wp before (fun _ p => p.1.executedHere = s.executedHere)
      (fun _ p => p.1.executedHere = s.executedHere) (s, rng))
    (hready : ∀ effects p, before (s, rng) = .ok effects p → Ready leaves p.1) :
    Wp (do
      let effects ← before
      let performed ← runQuorumActions
      return join effects performed)
      (fun _ p => Dealt s p.1) (fun _ p => p.1.executedHere = s.executedHere) (s, rng) := by
  have hboth : Wp before (fun _ p => p.1.executedHere = s.executedHere ∧ Ready leaves p.1)
      (fun _ p => p.1.executedHere = s.executedHere) (s, rng) :=
    wp_of_run (fun effects p hrun => ⟨hbefore.of_ok hrun, hready effects p hrun⟩)
      fun e p hrun => hbefore.of_error hrun
  refine hboth.seq ?_ fun _ _ => id
  rintro effects p ⟨hmarks, hp⟩
  refine (runQuorumActions_dealt hroster hp).seq ?_ fun _ _ => False.elim
  exact fun _ _ h => h.1.of_marks hmarks

/-- What comes before the pass marks nothing and leaves these certificates. -/
theorem absorb_marks (certs : List Certificate) (s : WorkspaceState) (rng : Rng) :
    Wp (absorb certs)
      (fun _ p => p.1.executedHere = s.executedHere ∧
        p.1.cgka.certs = (s.cgka.certs.extend certs).2)
      (fun _ p => p.1.executedHere = s.executedHere) (s, rng) := by
  unfold absorb
  rw [wp_bind, wp_onCgka]
  unfold absorbCertificates
  rw [wp_bind, wp_get, wp_bind, wp_set, wp_pure]
  split_ifs
  · refine (drainQueues_spec _ rng).mono ?_ ?_
    · rintro effects p ⟨htakes, hcerts⟩
      exact ⟨htakes.executedHere, hcerts⟩
    · rintro e p ⟨-, htakes, -⟩
      exact htakes.executedHere
  · exact ⟨rfl, rfl⟩

variable {certs : List Certificate} {now : UnixSeconds}

theorem certsArrived_dealt (hroster : WorkspaceState.Roster leaves)
    (hready : ∀ effects p, absorb certs (s, rng) = .ok effects p → Ready leaves p.1) :
    Wp (onCertsArrived certs) (fun _ p => Dealt s p.1)
      (fun _ p => p.1.executedHere = s.executedHere) (s, rng) := by
  rw [onCertsArrived_eq]
  exact dealt_of_prelude hroster
    ((absorb_marks certs s rng).mono (fun _ _ h => h.1) fun _ _ => id) hready

theorem approve_dealt (hroster : WorkspaceState.Roster leaves) {proposal : Bytes32}
    (hready : ∀ effects p, signApproval proposal (s, rng) = .ok effects p → Ready leaves p.1) :
    Wp (onApprove proposal) (fun _ p => Dealt s p.1)
      (fun _ p => p.1.executedHere = s.executedHere) (s, rng) := by
  have hbefore : Wp (signApproval proposal) (fun _ p => p.1.executedHere = s.executedHere)
      (fun _ p => p.1.executedHere = s.executedHere) (s, rng) := by
    refine requireAdmin_spec.seq ?_ ?_
    · rintro _ p ⟨rfl, -⟩
      unfold randomNonce
      rw [wp_bind, wp_bind, wp_get]
      dsimp only
      rw [wp_bind, wp_set, wp_pure]
      refine (certify_spec _ s _).seq ?_ ?_
      · rintro cert q ⟨⟨store, rfl⟩, -⟩
        rfl
      · rintro e q rfl
        rfl
    · rintro e p rfl
      rfl
  rw [onApprove_eq]
  exact dealt_of_prelude hroster hbefore hready

/-- What a log brings after its pass is nobody the pass was to remove. -/
theorem log_dealt (hroster : WorkspaceState.Roster leaves) {ops : List ControlOp}
    (hok : Turn.Undisturbed leaves (.call (.onControl (.log ops certs) now) rng) s)
    (hready : ∀ effects p, absorb certs (s, rng) = .ok effects p → Ready leaves p.1) :
    Wp (do
      let effects ← handle (.certsArrived certs) now
      handleLog now ops effects)
      (fun _ p => Dealt s p.1) (fun _ p => p.1.executedHere = s.executedHere) (s, rng) := by
  have hparked := Call.parked_delivered (.onControl (.log ops certs) now) s
  have hoffered : ∀ a ∈ ops.map AuthorizedOp.bare,
      a.op ∈ Call.delivered (.onControl (.log ops certs) now) s :=
    fun a ha => ⟨a, Or.inr ha, rfl⟩
  have htaken : Call.delivered (.onControl (.log ops certs) now) s ⊆
      Call.taken (.onControl (.log ops certs) now) s := Call.delivered_subset rfl s
  refine ((certsArrived_dealt hroster hready).and
    (onCertsArrived_shift certs s rng htaken hparked)).seq ?_ fun _ _ h => h.1
  rintro effects p ⟨hdealt, hshift, hcerts⟩
  refine (handleLog_spec now ops effects p.1 p.2).mono ?_ fun _ _ => False.elim
  rintro effects' p' ⟨l, -, htakes, hsame⟩
  have hlater : Shift (Call.delivered (.onControl (.log ops certs) now) s)
      (Call.taken (.onControl (.log ops certs) now) s) (quorumMandate s p.1.cgka.certs) p.1 p'.1 :=
    htakes.shift htaken hshift.parked hoffered
  -- whoever the log brought back is a key, and no target
  have hentered : ∀ m, m ∉ p.1.cgka.currentMembers → m ∈ p'.1.cgka.currentMembers →
      IsKey m ∧ m ∉ targets p'.1.cgka.certs p'.1.cgka.certs.executable := by
    intro m hbefore hafter
    have hadds : Turn.adds s m (.call (.onControl (.log ops certs) now) rng) :=
      (hlater.entered hbefore hafter).imp id False.elim
    rw [hsame, hcerts]
    exact ⟨hok.keys m hadds, hok.log ops certs now rng rfl m hadds⟩
  refine ⟨fun digest hdigest => ?_, fun digest m hexecutable => ?_⟩
  · rw [htakes.executedHere] at hdigest
    refine (hdealt.marked digest hdigest).imp_right fun hout m hdecides => ?_
    rw [hsame] at hdecides ⊢
    obtain ⟨hgone, htarget⟩ := hout m hdecides
    refine ⟨fun hm => ?_, htarget⟩
    obtain ⟨hkey, hspared⟩ := hentered m hgone hm
    rw [hsame] at hspared
    exact hspared (htarget hkey)
  · have hbefore := hexecutable
    rw [hsame] at hbefore
    rcases hdealt.performed digest m hbefore with hmarked | hgone | hguard
    · exact Or.inl hmarked
    · by_cases hm : m ∈ p'.1.cgka.currentMembers
      · obtain ⟨hkey, hspared⟩ := hentered m hgone hm
        refine Or.inr (Or.inr ?_)
        by_contra hguard
        exact hspared ⟨⟨digest, hexecutable⟩, hkey, hguard⟩
      · exact Or.inr (Or.inl hm)
    · rw [hsame]
      exact Or.inr (Or.inr hguard)

/-- Every call that has a pass deals with everything, or marks nothing. -/
theorem Call.dealt (hroster : WorkspaceState.Roster leaves) {made : Call}
    (hpass : made.runsQuorum = true)
    (hok : Turn.Undisturbed leaves (.call made rng) s) :
    Wp made.run (fun _ p => Dealt s p.1) (fun _ p => p.1.executedHere = s.executedHere)
      (s, rng) := by
  have hready := hok.ready made rng rfl
  -- an oversized message is refused before anything else
  have hsized : ∀ (n k : Nat) {x : Run (List Effect)},
      (refuseOversized n k (s, rng) = .ok () (s, rng) →
        Wp x (fun _ p => Dealt s p.1) (fun _ p => p.1.executedHere = s.executedHere) (s, rng)) →
      Wp (do refuseOversized n k; x) (fun _ p => Dealt s p.1)
        (fun _ p => p.1.executedHere = s.executedHere) (s, rng) := by
    intro n k x hx
    unfold refuseOversized at hx ⊢
    split_ifs at hx ⊢
    · rfl
    · exact hx rfl
  have hprelude : ∀ (n k : Nat) (certs : List Certificate),
      refuseOversized n k (s, rng) = .ok () (s, rng) →
      ∀ effects p, absorb certs (s, rng) = .ok effects p →
        (do refuseOversized n k; absorb certs : Run (List Effect)) (s, rng) = .ok effects p := by
    intro n k certs hfits effects p hrun
    show EStateM.bind _ _ _ = _
    unfold EStateM.bind
    rw [hfits]
    exact hrun
  cases made with
  | handle event now =>
      cases event with
      | certsArrived certs => exact certsArrived_dealt hroster (hready _ rfl)
      | approve proposal => exact approve_dealt hroster (hready _ rfl)
      | _ => exact absurd hpass (by simp [Call.runsQuorum])
  | onControl msg now =>
      cases msg with
      | certs certs =>
          refine hsized _ _ fun hfits => certsArrived_dealt hroster fun effects p hrun => ?_
          exact hready _ rfl effects p (hprelude _ _ certs hfits effects p hrun)
      | log ops certs =>
          refine hsized _ _ fun hfits => log_dealt hroster hok fun effects p hrun => ?_
          exact hready _ rfl effects p (hprelude _ _ certs hfits effects p hrun)
      | _ => exact absurd hpass (by simp [Call.runsQuorum])
  | _ => exact absurd hpass (by simp [Call.runsQuorum])

/-- Every proposal that was marked is held, and whoever it was to remove is out. -/
structure Marked (s : WorkspaceState) : Prop where
  held : ∀ digest ∈ s.executedHere, ∃ signed ∈ s.cgka.certs.certs.proposals,
    Certificate.digest (.proposal signed) = digest
  out : ∀ digest ∈ s.executedHere, ∀ m, Decides s.cgka.certs digest m →
    m ∉ s.cgka.currentMembers

/-- Whoever had been removed under a mark is still out. -/
theorem Marked.stays_out (h : Marked s) {made : Call}
    (hok : Turn.Undisturbed leaves (.call made rng) s) {digest m : Bytes32}
    (hdigest : digest ∈ s.executedHere)
    (hdecides : Decides (after made.run (s, rng)).1.cgka.certs digest m) :
    m ∉ (after made.run (s, rng)).1.cgka.currentMembers := by
  have hbefore := hdecides.of_kept (made.outcome s rng).kept (h.held digest hdigest)
  intro hm
  have hadds : Turn.adds s m (.call made rng) :=
    (made.shifted_after s rng).entered (h.out digest hdigest m hbefore) hm
  exact hok.readmits m hadds digest hdigest hbefore

theorem Marked.call (hroster : WorkspaceState.Roster leaves) (h : Marked s) {made : Call}
    (hok : Turn.Undisturbed leaves (.call made rng) s) : Marked (after made.run (s, rng)).1 := by
  have hexecuted := (made.shifted_after s rng).executed
  refine ⟨fun digest hdigest => ?_, fun digest hdigest m hdecides => ?_⟩
  · rcases hexecuted digest hdigest with hbefore | ⟨-, action, hexecutable⟩
    · obtain ⟨signed, hmem, heq⟩ := h.held digest hbefore
      exact ⟨signed, (made.outcome s rng).kept (.proposal signed) hmem, heq⟩
    · obtain ⟨signed, hmem, heq, -⟩ := decision_of_executable hexecutable
      exact ⟨signed, hmem, heq⟩
  · by_cases hbefore : digest ∈ s.executedHere
    · exact h.stays_out hok hbefore hdecides
    · obtain ⟨hpass, -⟩ := (hexecuted digest hdigest).resolve_left hbefore
      have hmarked := Wp.after (P := fun p : WorkspaceState × Rng =>
        ∀ digest ∈ p.1.executedHere, digest ∈ s.executedHere ∨
          ∀ m, Decides p.1.cgka.certs digest m → m ∉ p.1.cgka.currentMembers)
        ((made.dealt hroster hpass hok).mono
          (fun _ p hdealt digest hdigest => (hdealt.marked digest hdigest).imp_right
            fun hout m hdecides => (hout m hdecides).1)
          fun _ p hsame digest hdigest => Or.inl (hsame ▸ hdigest))
      exact (hmarked digest hdigest).resolve_left hbefore m hdecides

theorem Marked.of_none (h : s.executedHere = .empty) : Marked s := by
  refine ⟨fun digest hdigest => ?_, fun digest hdigest => ?_⟩
  · rw [h] at hdigest
    exact absurd hdigest (Keyed.not_mem_empty _)
  · rw [h] at hdigest
    exact absurd hdigest (Keyed.not_mem_empty _)

theorem Marked.of_started (h : Founded s ∨ Joined s) : Marked s := by
  refine .of_none ?_
  rcases h with ⟨_, _, _, _, _, _, c, -, hfound⟩ | ⟨_, _, _, _, _, _, _, c, -, rfl⟩
  · refine found_invariant (P := fun s => s.executedHere = .empty) hfound rfl ?_ ?_ ?_
    · exact fun s hs => wp_of_run (fun _ _ _ => hs) fun _ _ _ => trivial
    · exact fun s hs => wp_of_run (fun _ _ _ => hs) fun _ _ _ => trivial
    · exact fun p s _ hs => wp_of_run (fun _ _ _ => hs) fun _ _ _ => trivial
  · rfl

/-- In every undisturbed run, after every pass each removal that was decided has been carried
out, or the guard refuses it. -/
theorem removals_performed (hroster : WorkspaceState.Roster leaves) {s : WorkspaceState}
    (h : (runsFrom (fun s => Founded s ∨ Joined s) (Turn.Undisturbed leaves)).Course s ())
    {made : Call} {rng : Rng} (hok : Turn.Undisturbed leaves (.call made rng) s)
    (hpass : made.runsQuorum = true) {effects : List Effect} {p : WorkspaceState × Rng}
    (hrun : made.run (s, rng) = .ok effects p) :
    ∀ digest m, (digest, .removeMember m) ∈ p.1.capabilities.executable →
      m ∉ p.1.cgka.currentMembers ∨ p.1.capabilities.Refuses m := by
  have hmarked : Marked s := by
    refine h.invariant (P := fun s _ => Marked s) (fun s _ hs => .of_started hs) ?_
    intro s _ turn hs hturn
    cases turn with
    | call made rng => exact hs.call hroster hturn
    | restart order rng =>
        rcases Turn.restart_spec order rng s with hsame | hresumed
        · exact (congrArg Marked hsame).mpr hs
        · exact .of_none hresumed.executedHere
  have hafter : after made.run (s, rng) = p := by
    unfold Library.after
    rw [hrun]
  intro digest m hexecutable
  rcases ((made.dealt hroster hpass hok).of_ok hrun).performed digest m hexecutable with
    hbefore | hdone
  · left
    have hdecides : Decides p.1.cgka.certs digest m := decision_of_executable hexecutable
    rw [← hafter] at hdecides ⊢
    exact hmarked.stays_out hok hbefore hdecides
  · exact hdone

end Runs

end IrohBeekem

/-! ## Marks that outlive their members -/

namespace IrohBeekem

open Library CgkaController WorkspaceState

section Samples

local instance markedKeyhive : Keyhive := transparentKeyhive

local instance markedBeekem : Beekem := listBeekem

local instance markedLawful : LawfulBeekem := listBeekem_live.toLawfulBeekem

local instance markedLoro : Loro := listLoro

local instance markedPostcard : Postcard := blankPostcard

/-- Whether a node resumes from what it stores. -/
def resumes (s : WorkspaceState) : Bool :=
  match s.snapshot ascendingOrder with
  | .ok stored => (WorkspaceState.fromSnapshot stored).toOption.isSome
  | .error _ => false

private theorem exists_resumed {s : WorkspaceState} (h : resumes s = true) :
    ∃ stored t, s.snapshot ascendingOrder = .ok stored ∧
      WorkspaceState.fromSnapshot stored = .ok t := by
  unfold resumes at h
  cases hstored : s.snapshot ascendingOrder with
  | error err =>
      rw [hstored] at h
      exact absurd h (by simp)
  | ok stored =>
      rw [hstored] at h
      cases hresumed : WorkspaceState.fromSnapshot stored with
      | ok t => exact ⟨stored, t, rfl, hresumed⟩
      | error err =>
          dsimp only at h
          rw [hresumed] at h
          exact absurd h (by simp [Except.toOption])

/-- The founder admits user `2` and proposes to remove it. -/
@[irreducible] def accusing : WorkspaceState × Rng :=
  runAll [.handle (.addUser 2 102 .viewer "second" none) 0,
    .handle (.propose (.removeMember 2) none) 0] (sampleWorkspace 1, (1 : Nat))

/-- The digest of that proposal. -/
def accusation : Bytes32 := 680564733841876926926749214863536422915

/-- It signs its approval, which carries at threshold one. -/
@[irreducible] def sentenced : WorkspaceState × Rng := after (signApproval accusation) accusing

/-- The removal is carried out. -/
@[irreducible] def judged : WorkspaceState × Rng :=
  after (performActions [(accusation, .removeMember 2)] []) sentenced

/-- Where an approval ends that carries these actions. -/
private theorem run_approve {q : WorkspaceState × Rng} {proposal : Bytes32} {now : UnixSeconds}
    {actions : List (Bytes32 × AdminAction)} (hsigned : succeeds (signApproval proposal) q = true)
    (hpending : (after (signApproval proposal) q).1.pending = actions)
    (hpass : succeeds (performActions actions []) (after (signApproval proposal) q) = true) :
    ∃ effects, Call.run (.handle (.approve proposal) now) q =
      .ok effects (after (performActions actions []) (after (signApproval proposal) q)) := by
  obtain ⟨effects, hbefore⟩ := run_of_succeeds hsigned
  obtain ⟨produced, hrun⟩ := run_of_succeeds hpass
  refine ⟨effects ++ produced, ?_⟩
  change onApprove proposal q = _
  rw [onApprove_eq]
  exact run_pass hbefore hpending hrun

private theorem run_judged :
    ∃ effects, Call.run (.handle (.approve accusation) 0) accusing = .ok effects judged := by
  have hpending : sentenced.1.pending = [(accusation, .removeMember 2)] := by decide +kernel
  have hpass : succeeds (performActions [(accusation, .removeMember 2)] []) sentenced = true := by
    decide +kernel
  unfold sentenced at hpending hpass
  unfold judged sentenced
  exact run_approve (by decide +kernel) hpending hpass

/-- The founder admits user `2` once more. -/
@[irreducible] def forgiving : WorkspaceState × Rng :=
  after (Call.run (.handle (.addUser 2 102 .viewer "second" none) 0)) judged

example : 2 ∉ judged.1.cgka.currentMembers ∧ 2 ∈ forgiving.1.cgka.currentMembers := by
  decide +kernel

private theorem judged_reachable : Reachable judged.1 := by
  have haccusing : Reachable accusing.1 := by
    unfold accusing
    exact (sampleWorkspace_reachable (by decide +kernel)).calls _
  obtain ⟨effects, hrun⟩ := run_judged
  exact haccusing.of_run hrun

private theorem forgiving_reachable : Reachable forgiving.1 := by
  unfold forgiving
  exact judged_reachable.call _ judged.2

/-- The one removal that was decided does not name the founder. -/
private theorem founder_not_target {store : CapabilityStore}
    (h : store.executable = [(accusation, .removeMember 2)]) :
    1 ∉ targets store store.executable := by
  rintro ⟨⟨digest, hmem⟩, -⟩
  rw [h] at hmem
  have haction : AdminAction.removeMember 1 = .removeMember 2 :=
    congrArg Prod.snd (List.mem_singleton.mp hmem)
  exact absurd haction (by decide)

private theorem judged_standing : Standing listLeaves judged.1 := by
  have hactions : judged.1.cgka.certs.executable = [(accusation, .removeMember 2)] := by
    decide +kernel
  have hleaves : listLeaves judged.1.cgka.cgka = {1} := by decide +kernel
  intro m hleaf htarget
  rw [hleaves] at hleaf
  obtain rfl := Finset.mem_singleton.mp hleaf
  exact absurd htarget (founder_not_target hactions)

/-- Where nobody was admitted again, a restart makes no difference. -/
theorem restart_transparent_judged :
    ∃ stored t, judged.1.snapshot ascendingOrder = .ok stored ∧
      WorkspaceState.fromSnapshot stored = .ok t ∧
        NoMoreThan judged (t, (0 : Nat)) [] 0 := by
  obtain ⟨stored, t, hstored, hresumed⟩ := exists_resumed (s := judged.1) (by decide +kernel)
  refine ⟨stored, t, hstored, hresumed, ?_⟩
  have hnothing : (judged.1.cgka.certs.extend []).1 = 0 := by decide +kernel
  exact (restart_transparent_iff listRoster judged_reachable hstored hresumed hnothing
    ⟨1, by decide +kernel, founder_not_target (by decide +kernel)⟩ 0 judged.2 (0 : Nat)).mpr judged_standing

/-- A member who was admitted again is removed again after a restart. -/
theorem readmitted_removed_again :
    ¬ ∀ (s t : WorkspaceState) (order : HashOrder) (stored : WorkspaceSnapshot)
      (certs : List Certificate) (now : UnixSeconds) (rng rng' : Rng), Reachable s →
      s.snapshot order = .ok stored → WorkspaceState.fromSnapshot stored = .ok t →
      (s.cgka.certs.extend certs).1 = 0 → NoMoreThan (s, rng) (t, rng') certs now := by
  intro h
  obtain ⟨stored, t, hstored, hresumed⟩ := exists_resumed (s := forgiving.1) (by decide +kernel)
  have hactions : forgiving.1.cgka.certs.executable = [(accusation, .removeMember 2)] := by
    decide +kernel
  have hstays : ∃ other ∈ listLeaves forgiving.1.cgka.cgka,
      other ∉ targets forgiving.1.cgka.certs forgiving.1.cgka.certs.executable :=
    ⟨1, by decide +kernel, founder_not_target hactions⟩
  have hnothing : (forgiving.1.cgka.certs.extend []).1 = 0 := by decide +kernel
  have hstanding := (h forgiving.1 t ascendingOrder stored [] 0 (0 : Nat) (0 : Nat)
    forgiving_reachable hstored hresumed hnothing).standing listRoster forgiving_reachable hstored
    hresumed hnothing hstays
  have htarget : 2 ∈ targets forgiving.1.cgka.certs forgiving.1.cgka.certs.executable := by
    refine ⟨⟨accusation, ?_⟩, rfl, by decide +kernel⟩
    rw [hactions]
    exact List.mem_singleton_self _
  obtain ⟨⟨digest, hpending⟩, -⟩ := hstanding 2 (by decide +kernel) htarget
  have hnone : forgiving.1.pending = [] := by decide +kernel
  rw [hnone] at hpending
  exact absurd hpending List.not_mem_nil

/-- The runs of a node in which nobody comes back whose removal was carried out. -/
def undisturbedRuns : Chart WorkspaceState Turn Unit :=
  runsFrom (fun s => Founded s ∨ Joined s) (Turn.Undisturbed listLeaves)

/-- A node that has carried out nothing may do of its own accord what has no pass. -/
private theorem undisturbed_own {s : WorkspaceState} {event : Event} {now : UnixSeconds} {rng : Rng}
    (hmarks : s.executedHere = .empty) (hprelude : Call.prelude (.handle event now) = none)
    (htakes : Call.takesIn (.handle event now) = false)
    (hkeys : ∀ m, Call.adds (.handle event now) m → IsKey m) :
    Turn.Undisturbed listLeaves (.call (.handle event now) rng) s where
  keys m hm := by
    rcases hm with ⟨op, ⟨htaken, -⟩, -⟩ | hm
    · exact absurd htaken (by simp [htakes])
    · exact hkeys m hm
  readmits m _ digest hdigest := by
    rw [hmarks] at hdigest
    exact absurd hdigest (Keyed.not_mem_empty _)
  ready made rng' hturn before hbefore := by
    obtain ⟨rfl, rfl⟩ := Turn.call.inj hturn
    exact absurd (hprelude.symm.trans hbefore) (by simp)
  log ops certs now' rng' hturn := absurd hturn (by simp)

private theorem accusing_course : undisturbedRuns.Course accusing.1 () := by
  have hstart : undisturbedRuns.Course (sampleWorkspace 1) () :=
    .start (Or.inl (sampleWorkspace_founded (by decide +kernel)))
  have hadmitted := hstart.step (.call (.handle (.addUser 2 102 .viewer "second" none) 0) (1 : Nat))
    (undisturbed_own (by decide +kernel) rfl rfl (by
      rintro m rfl
      rfl))
  unfold accusing
  exact hadmitted.step
    (.call (.handle (.propose (.removeMember 2) none) 0) _)
    (undisturbed_own (by decide +kernel) rfl rfl fun m hm => hm.elim)

/-- The approval is signed where everybody holds a leaf. -/
private theorem sentenced_ready : Ready listLeaves sentenced.1 := by
  have hmembers : sentenced.1.cgka.currentMembers = {1, 2} := by decide +kernel
  have hactions : sentenced.1.cgka.certs.executable = [(accusation, .removeMember 2)] := by
    decide +kernel
  have heither : ∀ m ∈ sentenced.1.cgka.currentMembers, m = 1 ∨ m = 2 := by
    intro m hm
    rw [hmembers, Finset.mem_insert, Finset.mem_singleton] at hm
    exact hm
  refine ⟨fun m hm => ?_, fun m hm => ?_, 1, by decide +kernel, fun htarget => ?_⟩
  · rcases heither m hm with rfl | rfl
    · rfl
    · rfl
  · rcases heither m hm with rfl | rfl
    · decide +kernel
    · decide +kernel
  · exact founder_not_target hactions (targets_mono (pending_subset _) htarget)

/-- An undisturbed founder carries out what it has approved. -/
theorem removals_performed_judged : 2 ∉ judged.1.cgka.currentMembers := by
  have hok : Turn.Undisturbed listLeaves (.call (.handle (.approve accusation) 0) accusing.2)
      accusing.1 := by
    refine ⟨?_, ?_, ?_, ?_⟩
    · rintro m (⟨op, ⟨htaken, -⟩, -⟩ | hm)
      · exact absurd htaken (by simp [Call.takesIn])
      · exact hm.elim
    · rintro m (⟨op, ⟨htaken, -⟩, -⟩ | hm)
      · exact absurd htaken (by simp [Call.takesIn])
      · exact hm.elim
    · intro made rng hturn before hbefore effects p hrun
      obtain ⟨rfl, rfl⟩ := Turn.call.inj hturn
      obtain rfl := Option.some.inj hbefore
      have hp : p = sentenced := by
        unfold sentenced Library.after
        rw [show signApproval accusation accusing = .ok effects p from hrun]
      rw [hp]
      exact sentenced_ready
    · intro ops certs now rng hturn
      exact absurd hturn (by simp)
  obtain ⟨effects, hrun⟩ := run_judged
  have hactions : judged.1.cgka.certs.executable = [(accusation, .removeMember 2)] := by
    decide +kernel
  have hdone := removals_performed listRoster accusing_course hok rfl hrun accusation 2
    (by rw [WorkspaceState.capabilities, hactions]; exact List.mem_singleton_self _)
  exact hdone.resolve_right (by decide +kernel)

/-- The founder admits another administrator. -/
@[irreducible] def delegating : WorkspaceState × Rng :=
  runAll [.handle (.addUser 2 102 .admin "second" none) 0] (sampleWorkspace 1, (1 : Nat))

/-- The other one admits user `3`, and this is the operation. -/
@[irreducible] def lateAdd : ControlOp × List Certificate :=
  (sentBy (.handle (.addUser 3 103 .viewer "third" none) 0)
    (joinedWorkspace delegating.1 2 102, (50 : Nat))).headD (sampleFounder.cgka.init, [])

/-- The founder, who has not seen it, proposes to remove that user. -/
@[irreducible] def foreseeing : WorkspaceState × Rng :=
  after (Call.run (.handle (.propose (.removeMember 3) none) 0)) delegating

def foresight : Bytes32 := 680564733841876926926749214863536422915

@[irreducible] def foresworn : WorkspaceState × Rng := after (signApproval foresight) foreseeing

/-- The removal finds nobody. -/
@[irreducible] def passedOver : WorkspaceState × Rng :=
  after (performActions [(foresight, .removeMember 3)] []) foresworn

@[irreducible] def overtaken : WorkspaceState × Rng :=
  after (Call.run (.handle (.controlOp ⟨lateAdd.1, lateAdd.2⟩) 0)) passedOver

private theorem overtaken_reachable : Reachable overtaken.1 := by
  have hforeseeing : Reachable foreseeing.1 := by
    have hdelegating : Reachable delegating.1 := by
      unfold delegating
      exact (sampleWorkspace_reachable (by decide +kernel)).calls _
    unfold foreseeing
    exact hdelegating.call _ delegating.2
  obtain ⟨effects, hrun⟩ : ∃ effects,
      Call.run (.handle (.approve foresight) 0) foreseeing = .ok effects passedOver := by
    have hpending : foresworn.1.pending = [(foresight, .removeMember 3)] := by decide +kernel
    have hpass : succeeds (performActions [(foresight, .removeMember 3)] []) foresworn = true := by
      decide +kernel
    unfold foresworn at hpending hpass
    unfold passedOver foresworn
    exact run_approve (by decide +kernel) hpending hpass
  unfold overtaken
  exact (hforeseeing.of_run hrun).call _ passedOver.2

example : overtaken.1.cgka.currentMembers = {1, 2, 3} := by decide +kernel

/-- A member whose removal was decided before it was admitted stays. -/
theorem overtaken_removal_skipped :
    ¬ ∀ (s : WorkspaceState) (certs : List Certificate) (now : UnixSeconds) (rng : Rng)
      (effects : List Effect) (p : WorkspaceState × Rng), Reachable s →
      handle (.certsArrived certs) now (s, rng) = .ok effects p →
      ∀ digest m, (digest, .removeMember m) ∈ p.1.capabilities.executable →
        m ∉ p.1.cgka.currentMembers ∨ p.1.capabilities.Refuses m := by
  intro h
  have hrun : handle (.certsArrived []) 0 overtaken = .ok ([] ++ []) overtaken := by
    change onCertsArrived [] overtaken = _
    rw [onCertsArrived_eq]
    exact run_pass (absorb_idle (by decide +kernel) overtaken.2)
      (show overtaken.1.pending = [] by decide +kernel) rfl
  have hdecided : (foresight, .removeMember 3) ∈ overtaken.1.capabilities.executable := by
    decide +kernel
  rcases h overtaken.1 [] 0 overtaken.2 _ _ overtaken_reachable hrun foresight 3 hdecided with
    hgone | hguard
  · exact absurd hgone (by decide +kernel)
  · exact absurd hguard (by decide +kernel)

end Samples

end IrohBeekem
