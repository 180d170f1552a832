import IrohBeekem.Capability.Decisions
import IrohBeekem.State.ListModel

/-!
# Role decisions

A grant and a role proposal are both decisions about a user's role, and the highest by
`(seq, digest)` is in force.  They draw their generation numbers from two counters: a
grant goes past the grants about its user, and a proposal past the proposals of the
whole workspace.  A decision is therefore above what was decided before in its own way,
unless the counter has saturated, and may well be below what was decided in the other
(`role_decision_supersedes`).
-/

set_option linter.unusedSectionVars false

namespace IrohBeekem

open Library CgkaController WorkspaceState CapabilityStore

/-! ## The counters -/

/-- A generation number that is not the last one is below the next. -/
theorem lt_nextAfter {seqs : List U64} {seq : U64} (hmem : seq ∈ seqs) (hlast : seq ≠ maxOf _) :
    seq < nextAfter seqs := by
  unfold nextAfter
  cases hmax : seqs.max? with
  | none =>
      rw [List.max?_eq_none_iff.mp hmax] at hmem
      exact absurd hmem List.not_mem_nil
  | some highest =>
      have hle : seq ≤ highest := (List.max?_eq_some_iff.mp hmax).2 seq hmem
      dsimp only
      unfold satSucc
      split_ifs with hroom
      · exact Fin.lt_def.mpr (Nat.lt_succ_of_le (Fin.le_def.mp hle))
      · refine lt_of_le_of_ne (Fin.le_def.mpr ?_) hlast
        simp only [maxOf]
        omega

variable [Keyhive] [Beekem] [Loro] [Postcard]

/-! ## What the two calls mint -/

section Minted

variable {s : WorkspaceState} {rng : Rng}

/-- A certificate that was minted is all the store may have gained. -/
theorem certify_minted (p : Payload) (s : WorkspaceState) (rng : Rng) :
    Wp (onCgka (certify p))
      (fun cert q => (∃ signature, cert = p.certificate s.cgka.signer signature) ∧
        ∀ x ∈ q.1.capabilities.certs, x ∈ s.capabilities.certs ∨ x = cert)
      (fun _ _ => True) (s, rng) := by
  have hstored : Wp (onCgka (certify p))
      (fun cert q => ∀ x ∈ q.1.capabilities.certs, x ∈ s.capabilities.certs ∨ x = cert)
      (fun _ _ => True) (s, rng) := by
    rw [wp_onCgka]
    refine (certify_run s.cgka p).mono ?_ fun _ _ _ => trivial
    rintro cert c ⟨-, isNew, certs, hinsert, rfl⟩
    exact (insert_cases hinsert).2.2.2
  exact ((certify_spec p s rng).and hstored).mono (fun cert q h => ⟨h.1.2.2, h.2⟩)
    fun _ _ _ => trivial

/-- A grant of this role, one past the grants about the user. -/
def RoleMinted (s : WorkspaceState) (user : Bytes32) (role : Role) (signed : Signed Grant)
    (t : CapabilityStore) : Prop :=
  (∃ nonce, signed.payload = .new user role (s.capabilities.nextSeq user) none nonce) ∧
    ∀ x ∈ t.certs, x ∈ s.capabilities.certs ∨ x = .grant signed

/-- A call that mints such a grant, or nothing. -/
def Assigns (s : WorkspaceState) (user : Bytes32) (role : Role) (effects : List Effect)
    (t : CapabilityStore) : Prop :=
  effects = [] ∨ ∃ signed, effects = [.broadcastCerts [.grant signed]] ∧
    RoleMinted s user role signed t

theorem mint_spec (user : Bytes32) (role : Role) (s : WorkspaceState) (rng : Rng) :
    Wp (do
      let nonce ← randomNonce
      let cert ← onCgka (certifyRole user role nonce)
      return [Effect.broadcastCerts [cert]])
      (fun effects p => Assigns s user role effects p.1.capabilities)
      (fun _ _ => True) (s, rng) := by
  unfold randomNonce
  rw [wp_bind, wp_bind, wp_get]
  dsimp only
  rw [wp_bind, wp_set, wp_pure]
  generalize (Beekem.randomNonce rng).1 = nonce
  generalize (Beekem.randomNonce rng).2 = rng'
  have hminted := certify_minted (.grant (.new user role (s.capabilities.nextSeq user) none nonce))
    s rng'
  have hrole : Wp (onCgka (certifyRole user role nonce))
      (fun cert q => ∃ signed, cert = .grant signed ∧ RoleMinted s user role signed q.1.capabilities)
      (fun _ _ => True) (s, rng') := by
    rw [wp_onCgka] at hminted ⊢
    unfold certifyRole
    rw [wp_bind, wp_get]
    refine hminted.mono ?_ fun _ _ _ => trivial
    rintro cert c ⟨⟨signature, rfl⟩, hstored⟩
    exact ⟨_, rfl, ⟨nonce, rfl⟩, hstored⟩
  refine hrole.seq ?_ fun _ _ _ => trivial
  rintro cert q ⟨signed, rfl, hsigned⟩
  exact Or.inr ⟨signed, rfl, hsigned⟩

theorem onSetRole_assigns (user : Bytes32) (role : Role) (s : WorkspaceState) (rng : Rng) :
    Wp (onSetRole user role) (fun effects p => Assigns s user role effects p.1.capabilities)
      (fun _ _ => True) (s, rng) := by
  have hmint := mint_spec user role s rng
  unfold onSetRole
  rw [wp_bind, wp_self]
  dsimp only
  split_ifs
  · refine requireAdmin_spec.seq ?_ fun _ _ _ => trivial
    rintro _ p ⟨rfl, -⟩
    exact hmint
  · refine requireAdmin_spec.seq ?_ fun _ _ _ => trivial
    rintro _ p ⟨rfl, -⟩
    exact (requireNotLastAdmin_spec user).seq (fun _ p hp => hp ▸ hmint) fun _ _ _ => trivial
  · refine (requireQuorum_spec _).seq ?_ fun _ _ _ => trivial
    rintro _ p ⟨rfl, -⟩
    exact Or.inl rfl
  · refine (requireQuorum_spec _).seq ?_ fun _ _ _ => trivial
    rintro _ p ⟨rfl, -⟩
    exact hmint
  · refine (requireQuorum_spec _).seq ?_ fun _ _ _ => trivial
    rintro _ p ⟨rfl, -⟩
    exact (requireNotLastAdmin_spec user).seq (fun _ p hp => hp ▸ hmint) fun _ _ _ => trivial

/-- What proposing mints: a proposal one past those of the workspace. -/
theorem onPropose_minted (action : AdminAction) (expires : Option U64) (s : WorkspaceState)
    (rng : Rng) :
    Wp (onPropose action expires)
      (fun effects _ => ∃ signed nonce, effects = [.broadcastCerts [.proposal signed]] ∧
        signed.payload = .new action s.capabilities.nextProposalSeq expires nonce)
      (fun _ _ => True) (s, rng) := by
  unfold onPropose randomNonce
  refine requireAdmin_spec.seq ?_ fun _ _ _ => trivial
  rintro _ p ⟨rfl, -⟩
  rw [wp_bind, wp_self, wp_bind, wp_bind, wp_get]
  dsimp only
  rw [wp_bind, wp_set, wp_pure]
  refine (certify_minted _ s _).seq ?_ fun _ _ _ => trivial
  rintro cert q ⟨⟨signature, rfl⟩, -⟩
  exact ⟨_, _, rfl, rfl⟩

end Minted

/-! ## When a decision prevails -/

/-- Nothing stands above a grant just minted: it is admitted, no other grant about the user
has used up the generation numbers, and the executed proposals for other roles are of lower
ones. -/
structure GrantClear (t : CapabilityStore) (signed : Signed Grant) : Prop where
  admitted : t.Admits signed
  grants : ∀ other, t.Admits other → other.payload.subject = signed.payload.subject →
    other.payload.capability ≠ signed.payload.capability → other.payload.seq ≠ maxOf _
  proposals : ∀ other role, t.Executes other →
    other.payload.action = .setRole signed.payload.subject role →
    role ≠ signed.payload.capability → other.payload.seq < signed.payload.seq
  founder : signed.payload.subject = t.founder → signed.payload.capability ≠ .admin →
    0 < signed.payload.seq

/-- Nothing stands above a role proposal: it is executed, no executed proposal for another
role has used up the generation numbers, and the admitted grants of other roles are of lower
ones. -/
structure ProposalClear (t : CapabilityStore) (signed : Signed AdminProposal) (user : Bytes32)
    (role : Role) : Prop where
  executed : t.Executes signed
  proposals : ∀ other role', t.Executes other → other.payload.action = .setRole user role' →
    role' ≠ role → other.payload.seq ≠ maxOf _
  grants : ∀ other, t.Admits other → other.payload.subject = user →
    other.payload.capability ≠ role → other.payload.seq < signed.payload.seq
  founder : user = t.founder → role ≠ .admin → 0 < signed.payload.seq

/-- Every other role proposal about the user that is executed was there when this one was
minted. -/
def NoLaterProposal (s : WorkspaceState) (signed : Signed AdminProposal) (user : Bytes32)
    (t : CapabilityStore) : Prop :=
  ∀ other role, t.Executes other → other.payload.action = .setRole user role →
    other ∈ s.capabilities.certs.proposals ∨ other = signed

section Supersedes

variable {s : WorkspaceState} {p : WorkspaceState × Rng} {rng : Rng} {t : CapabilityStore}
  {user : Bytes32} {role : Role} {now : UnixSeconds}

omit [Keyhive] [Beekem] [Loro] [Postcard] in
/-- A smaller generation number weighs less. -/
theorem Decision.weight_lt_of_seq {d d' : Decision} (h : (ofLex d.rank).1 < (ofLex d'.rank).1) :
    d.weight < d'.weight :=
  Decision.weight_lt (Prod.Lex.lt_iff.mpr (Or.inl h))

theorem GrantClear.prevails {signed : Signed Grant} (hclear : GrantClear t signed)
    (hminted : RoleMinted s user role signed t) : t.Prevails user role := by
  obtain ⟨⟨nonce, hpayload⟩, hstored⟩ := hminted
  have huser : signed.payload.subject = user := by rw [hpayload]; rfl
  have hrole : signed.payload.capability = role := by rw [hpayload]; rfl
  have hseq : signed.payload.seq = s.capabilities.nextSeq user := by rw [hpayload]; rfl
  refine prevails_of_others hclear.admitted.inForce huser fun d hd hduser hdrole => ?_
  refine Decision.weight_lt_of_seq ?_
  cases hd with
  | seed => exact hclear.founder (huser.trans hduser.symm) fun h => hdrole (h.symm.trans hrole)
  | grant other hmem hadmitted =>
      rcases hstored (.grant other) hmem with hbefore | hnew
      · change other.payload.seq < signed.payload.seq
        rw [hseq]
        refine lt_nextAfter (List.mem_map.mpr ⟨other, ?_, rfl⟩) ?_
        · exact List.mem_filter.mpr ⟨hbefore, decide_eq_true hduser⟩
        · exact hclear.grants other ⟨hmem, hadmitted⟩ (hduser.trans huser.symm)
            fun h => hdrole (h.trans hrole)
      · obtain rfl := Certificate.grant.inj hnew
        exact absurd hrole hdrole
  | proposal other user' role' hmem hexecuted haction =>
      obtain rfl : user' = user := hduser
      exact hclear.proposals other role' ⟨hmem, BTreeSet.contains_iff.mpr hexecuted⟩
        (huser.symm ▸ haction) fun h => hdrole (h.trans hrole)

theorem ProposalClear.prevails {signed : Signed AdminProposal} {expires : Option U64}
    {nonce : Bytes16} (hclear : ProposalClear t signed user role)
    (hpayload : signed.payload =
      .new (.setRole user role) s.capabilities.nextProposalSeq expires nonce)
    (hlater : NoLaterProposal s signed user t) : t.Prevails user role := by
  have haction : signed.payload.action = .setRole user role := by rw [hpayload]; rfl
  have hseq : signed.payload.seq = s.capabilities.nextProposalSeq := by rw [hpayload]; rfl
  refine prevails_of_others (hclear.executed.inForce haction) rfl fun d hd hduser hdrole => ?_
  refine Decision.weight_lt_of_seq ?_
  cases hd with
  | seed => exact hclear.founder hduser.symm fun h => hdrole h.symm
  | grant other hmem hadmitted => exact hclear.grants other ⟨hmem, hadmitted⟩ hduser hdrole
  | proposal other user' role' hmem hexecuted haction' =>
      obtain rfl : user' = user := hduser
      have hother : t.Executes other := ⟨hmem, BTreeSet.contains_iff.mpr hexecuted⟩
      rcases hlater other role' hother haction' with hbefore | rfl
      · change other.payload.seq < signed.payload.seq
        rw [hseq]
        exact lt_nextAfter (List.mem_map.mpr ⟨other, hbefore, rfl⟩)
          (hclear.proposals other role' hother haction' hdrole)
      · exact absurd (AdminAction.setRole.inj (haction'.symm.trans haction)).2 hdrole

/-- A role is in force exactly when the weightiest decision sets it; and a decision does so
that nothing stands above: a grant just minted, once it is in, and a proposal, in any store
it is executed in with no later one about the user. -/
theorem role_decision_supersedes :
    (∀ signed : Signed Grant,
      handle (.setRole user role) now (s, rng) = .ok [.broadcastCerts [.grant signed]] p →
      (p.1.capabilities.roleOf user = some role ↔ p.1.capabilities.Prevails user role) ∧
        (GrantClear p.1.capabilities signed → p.1.capabilities.roleOf user = some role)) ∧
    ∀ (signed : Signed AdminProposal) (expires : Option U64) (t : CapabilityStore),
      handle (.propose (.setRole user role) expires) now (s, rng) =
        .ok [.broadcastCerts [.proposal signed]] p →
      NoLaterProposal s signed user t →
      (t.roleOf user = some role ↔ t.Prevails user role) ∧
        (ProposalClear t signed user role → t.roleOf user = some role) := by
  refine ⟨fun signed hrun => ⟨roleOf_iff_prevails, fun hclear => ?_⟩,
    fun signed expires t hrun hlater => ⟨roleOf_iff_prevails, fun hclear => ?_⟩⟩
  · rcases (onSetRole_assigns user role s rng).of_ok hrun with hnil | ⟨minted, heffects, hminted⟩
    · exact absurd hnil (by simp)
    · obtain rfl : signed = minted := by simpa using heffects
      exact roleOf_iff_prevails.mpr (hclear.prevails hminted)
  · obtain ⟨minted, nonce, heffects, hpayload⟩ :=
      (onPropose_minted (.setRole user role) expires s rng).of_ok hrun
    obtain rfl : signed = minted := by simpa using heffects
    exact roleOf_iff_prevails.mpr (hclear.prevails hpayload hlater)

end Supersedes

end IrohBeekem

/-! ## The two counters apart -/

namespace IrohBeekem

open Library WorkspaceState CapabilityStore

local instance countersKeyhive : Keyhive := transparentKeyhive

local instance countersBeekem : Beekem := listBeekem

local instance countersLawful : LawfulBeekem := listBeekem_live.toLawfulBeekem

local instance countersLoro : Loro := listLoro

local instance countersPostcard : Postcard := blankPostcard

/-- The founder admits user `2` as a viewer, and three proposals later proposes that it
edit. -/
@[irreducible] def proposing : WorkspaceState × Rng :=
  runAll [.handle (.addUser 2 102 .viewer "second" none) 0,
    .handle (.propose (.removeMember 8) none) 0, .handle (.propose (.removeMember 9) none) 0,
    .handle (.propose (.setRole 2 .editor) none) 0] (sampleWorkspace 1, (1 : Nat))

def editorProposal : Bytes32 :=
  ((proposing.1.capabilities.proposals.find? fun status =>
    status.action = .setRole 2 .editor).map ProposalStatus.digest).getD 0

/-- It approves that, which carries at threshold one. -/
@[irreducible] def promoted : WorkspaceState × Rng :=
  runAll [.handle (.approve editorProposal) 0] proposing

/-- The grant a call mints and the state it leaves. -/
def assigned (x : Run (List Effect)) (p : WorkspaceState × Rng) :
    Option (Signed Grant × WorkspaceState) :=
  match x p with
  | .ok [.broadcastCerts [.grant signed]] p' => some (signed, p'.1)
  | _ => none

private theorem run_of_assigned {x : Run (List Effect)} {p : WorkspaceState × Rng}
    {r : Signed Grant × WorkspaceState} (h : assigned x p = some r) :
    ∃ p', x p = .ok [.broadcastCerts [.grant r.1]] p' ∧ p'.1 = r.2 := by
  unfold assigned at h
  split at h
  · next signed p' hrun =>
      obtain rfl := Option.some.inj h
      exact ⟨p', hrun, rfl⟩
  · exact absurd h (by simp)

/-- The founder admits user `2` as a viewer. -/
@[irreducible] def admittedViewer : WorkspaceState × Rng :=
  runAll [.handle (.addUser 2 102 .viewer "second" none) 0] (sampleWorkspace 1, (1 : Nat))

/-- What there is to see in the store once user `2` has been made an editor. -/
private def clearOf (r : Signed Grant × WorkspaceState) : Bool :=
  let t := r.2.capabilities
  r.1 ∈ t.certs.grants.toList ∧ t.userOf r.1.issuer = some 1 ∧ t.everAdmin 1 ∧
    t.threshold ≤ defaultThreshold ∧ t.certs.proposals.toList = [] ∧
    (∀ other ∈ t.certs.grants.toList, other.payload.seq ≠ maxOf _) ∧
    r.1.payload.subject ≠ t.founder

private theorem grantClear_of_clearOf {r : Signed Grant × WorkspaceState} (h : clearOf r = true) :
    GrantClear r.2.capabilities r.1 := by
  obtain ⟨hmem, huser, hadmin, hthreshold, hnone, hseqs, hfounder⟩ := of_decide_eq_true h
  refine ⟨⟨hmem, 1, huser, everAdmin_iff.mp hadmin, Or.inl hthreshold⟩, ?_, ?_, ?_⟩
  · exact fun other hother _ _ => hseqs other hother.1
  · intro other role hother
    have hmem : other ∈ r.2.capabilities.certs.proposals.toList := hother.1
    rw [hnone] at hmem
    exact absurd hmem List.not_mem_nil
  · exact fun h => absurd h hfounder

/-- With no proposal about, the new role takes effect. -/
theorem role_decision_supersedes_admittedViewer :
    ∃ signed t, assigned (handle (.setRole 2 .editor) 0) admittedViewer = some (signed, t) ∧
      t.capabilities.roleOf 2 = some .editor := by
  have hsome : (assigned (handle (.setRole 2 .editor) 0) admittedViewer).any clearOf = true := by
    decide +kernel
  cases hassigned : assigned (handle (.setRole 2 .editor) 0) admittedViewer with
  | none =>
      rw [hassigned] at hsome
      exact absurd hsome (by simp)
  | some r =>
      rw [hassigned] at hsome
      obtain ⟨p', hrun, hstate⟩ := run_of_assigned hassigned
      have hclear : GrantClear p'.1.capabilities r.1 := by
        rw [hstate]
        exact grantClear_of_clearOf hsome
      refine ⟨r.1, r.2, rfl, ?_⟩
      rw [← hstate]
      exact (role_decision_supersedes.1 r.1 hrun).2 hclear

/-- After the executed proposal, the founder's own decision about user `2` does not. -/
theorem role_decision_overtaken :
    ¬ ∀ (s : WorkspaceState) (rng : Rng) (p : WorkspaceState × Rng) (user : Bytes32) (role : Role)
      (now : UnixSeconds) (signed : Signed Grant), Reachable s →
      handle (.setRole user role) now (s, rng) = .ok [.broadcastCerts [.grant signed]] p →
      p.1.capabilities.roleOf user = some role := by
  intro h
  have hreach : Reachable promoted.1 := by
    unfold promoted proposing
    exact ((sampleWorkspace_reachable (by decide +kernel)).calls
      (p := (sampleWorkspace 1, (1 : Nat))) _).calls _
  have hsome : ((assigned (handle (.setRole 2 .viewer) 0) promoted).map
      fun r => r.2.capabilities.roleOf 2) = some (some .editor) := by
    decide +kernel
  obtain ⟨r, hassigned, hrole⟩ := Option.map_eq_some_iff.mp hsome
  obtain ⟨p', hrun, hstate⟩ := run_of_assigned hassigned
  have hviewer := h promoted.1 promoted.2 p' 2 .viewer 0 r.1 hreach hrun
  rw [hstate, hrole] at hviewer
  exact absurd hviewer (by decide)

end IrohBeekem
