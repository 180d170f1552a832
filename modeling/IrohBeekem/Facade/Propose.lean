import IrohBeekem.Facade.Invite
import IrohBeekem.Library.First
import IrohBeekem.State.Certified
import IrohBeekem.State.ListModel

/-!
# Proposing

`Workspace::propose` holds the lock three times: to list the proposals, to mint its own,
and to list them again.  What it returns is the first that is new in digest order, and
between the holds anyone may add a proposal.  It returns its own exactly when no other
that came in meanwhile has a smaller digest (`propose_own_iff`).
-/

set_option linter.unusedSectionVars false

namespace IrohBeekem

open Library CgkaController WorkspaceState CapabilityStore

variable [Keyhive] [Beekem] [Loro] [Postcard]

/-- The digests of the proposals a node holds, as `proposals` lists them. -/
def WorkspaceState.proposalDigests (s : WorkspaceState) : List Bytes32 :=
  s.capabilities.proposals.map ProposalStatus.digest

/-- `Workspace::propose`, with the calls other tasks make between its three holds of the
lock. -/
def propose (action : AdminAction) (expires : Option U64) (now : UnixSeconds)
    (first second : List Call) (p : WorkspaceState × Rng) : Except WorkspaceError Bytes32 :=
  let before := p.1.proposalDigests
  match WorkspaceState.handle (.propose action expires) now (runAll first p) with
  | .error err _ => .error (.core err)
  | .ok _ minted =>
      match (runAll second minted).1.capabilities.proposals.find?
          fun status => ! before.contains status.digest with
      | some status => .ok status.digest
      | none => .error (.storage "the proposal was not recorded")

/-! ## What the call mints -/

/-- The proposal the call signs, from the state it meets and the nonce it draws. -/
structure Drafts (action : AdminAction) (expires : Option U64) (p : WorkspaceState × Rng)
    (signed : Signed AdminProposal) : Prop where
  admin : p.1.capabilities.mayAdminister p.1.memberId = true
  signs : (Payload.proposal (.new action p.1.capabilities.nextProposalSeq expires
    (Beekem.randomNonce p.2).1)).sign p.1.cgka.signer = .ok (.proposal signed)
  verifies : (Certificate.proposal signed).verify = .ok ()

/-- A certificate that is signed and verifies is returned, and its digest is taken. -/
theorem certify_cases (c : CgkaController) (payload : Payload) :
    Wp (certify payload)
      (fun cert c' => payload.sign c.signer = .ok cert ∧ cert.verify = .ok () ∧
        ∃ y ∈ c'.certs.certs, y.kind = cert.kind ∧ y.digest = cert.digest)
      (fun _ _ => ∀ cert, payload.sign c.signer = .ok cert → cert.verify ≠ .ok ()) c := by
  unfold certify
  rw [wp_bind, wp_get, wp_bind, wp_verdict]
  cases hsign : payload.sign c.signer with
  | error err =>
      intro cert hcert
      exact absurd hcert (by simp)
  | ok cert =>
      dsimp only
      rw [wp_bind, wp_verdict]
      by_cases hverify : cert.verify = .ok ()
      · obtain ⟨isNew, certs, hinsert, htaken⟩ := c.certs.insert_taken hverify
        rw [hinsert]
        exact ⟨rfl, hverify, htaken⟩
      · cases hinsert : c.certs.insert cert with
        | error err =>
            rintro other hother
            obtain rfl := Except.ok.inj hother
            exact hverify
        | ok r => exact absurd (CapabilityStore.insert_cases hinsert).2.2.1 hverify

/-- Proposing mints what it drafts, and fails only if there is no draft. -/
theorem onPropose_drafts (action : AdminAction) (expires : Option U64)
    (p : WorkspaceState × Rng) :
    Wp (onPropose action expires)
      (fun effects q => ∃ signed, Drafts action expires p signed ∧
        effects = [.broadcastCerts [.proposal signed]] ∧
        ∃ w ∈ q.1.capabilities.certs.proposals,
          Certificate.digest (.proposal w) = Certificate.digest (.proposal signed))
      (fun _ _ => ∀ signed, ¬ Drafts action expires p signed) p := by
  obtain ⟨s, rng⟩ := p
  unfold onPropose requireAdmin
  rw [wp_bind, wp_bind, wp_self]
  dsimp only
  split_ifs with hadmin
  · rw [wp_pure, wp_bind, wp_self, wp_bind]
    unfold randomNonce
    rw [wp_bind, wp_get]
    dsimp only
    rw [wp_bind, wp_set, wp_pure, wp_bind, wp_onCgka]
    refine (certify_cases s.cgka _).mono ?_ ?_
    · rintro cert c ⟨hsign, hverify, y, hy, hkind, hdigest⟩
      obtain ⟨signed, rfl⟩ : ∃ signed, cert = .proposal signed := by
        unfold Payload.sign at hsign
        split at hsign
        · exact ⟨_, (Except.ok.inj hsign).symm⟩
        · exact absurd hsign (by simp)
      refine ⟨signed, ⟨hadmin, hsign, hverify⟩, rfl, ?_⟩
      cases y with
      | proposal w => exact ⟨w, hy, hdigest⟩
      | _ => exact absurd hkind (by simp [Certificate.kind])
    · intro err c hnone signed hdraft
      exact hnone _ hdraft.signs hdraft.verifies
  · intro signed hdraft
    exact absurd hdraft.admin hadmin

/-! ## What the other calls leave -/

variable [LawfulBeekem]

theorem runAll_signer (calls : List Call) (p : WorkspaceState × Rng) :
    (runAll calls p).1.cgka.signer = p.1.cgka.signer := by
  induction calls generalizing p with
  | nil => rfl
  | cons call rest ih =>
      have hcall : (after call.run p).1.cgka.signer = p.1.cgka.signer := by
        refine Wp.after (P := fun q : WorkspaceState × Rng => q.1.cgka.signer = p.1.cgka.signer)
          ((call.moves p.1 p.2).mono ?_ ?_)
        · intro effects q hmoves
          obtain ⟨added, hevolves⟩ := hmoves.accounted.evolves
          exact hevolves.signer
        · intro err q hfails
          obtain ⟨added, hevolves, -⟩ := hfails.evolves
          exact hevolves.signer
      exact (ih (after call.run p)).trans hcall

/-- No call takes a certificate out of the store. -/
theorem runAll_kept (calls : List Call) (p : WorkspaceState × Rng) :
    p.1.capabilities.certs ⊆ (runAll calls p).1.capabilities.certs := by
  induction calls generalizing p with
  | nil => exact fun _ => id
  | cons call rest ih =>
      intro cert hcert
      exact ih (after call.run p) cert ((call.outcome p.1 p.2).kept cert hcert)

theorem runAll_append (calls calls' : List Call) (p : WorkspaceState × Rng) :
    runAll (calls ++ calls') p = runAll calls' (runAll calls p) := by
  induction calls generalizing p with
  | nil => rfl
  | cons call rest ih => exact ih (after call.run p)

/-! ## When it returns its own -/

section Own

variable (action : AdminAction) (expires : Option U64) (now : UnixSeconds)
  (first second : List Call) (p : WorkspaceState × Rng)

/-- A digest identifies the proposal that this call minted, which this device signed and
which carries this action. -/
def MintedHere (digest : Bytes32) : Prop :=
  ∃ signed minted,
    WorkspaceState.handle (.propose action expires) now (runAll first p) =
      .ok [.broadcastCerts [.proposal signed]] minted ∧
    signed ∈ (runAll second minted).1.capabilities.certs.proposals ∧
    Certificate.digest (.proposal signed) = digest ∧
    signed.issuer = p.1.cgka.signer ∧ signed.payload.action = action

/-- Each other proposal that came in between the two listings has a larger digest than the
draft, whose own digest was not listed before. -/
def Undisturbed : Prop :=
  ∀ own, Drafts action expires (runAll first p) own →
    ∀ x ∈ (runAll (first ++ .handle (.propose action expires) now :: second) p).1
        |>.capabilities.certs.proposals,
      Certificate.digest (.proposal x) ∉ p.1.proposalDigests → x ≠ own →
        Certificate.digest (.proposal own) ∉ p.1.proposalDigests ∧
          Certificate.digest (.proposal own) < Certificate.digest (.proposal x)

variable {action expires now first second p}

omit [Beekem] [Loro] [Postcard] [LawfulBeekem] in
/-- The second listing looks for the first new digest. -/
theorem proposals_firstNew (t : CapabilityStore) (before : List Bytes32) :
    (t.proposals.find? fun status => ! before.contains status.digest).map ProposalStatus.digest =
      firstNew before t.certs.proposals := by
  unfold proposals firstNew Keyed.first? Keyed.filter
  rw [List.find?_map, Option.map_map, ← List.head?_filter]
  simp only [List.contains_eq_mem, decide_not]
  rfl

omit [LawfulBeekem] in
theorem Drafts.signed_eq {q : WorkspaceState × Rng} {own : Signed AdminProposal}
    (h : Drafts action expires q own) :
    own.issuer = q.1.cgka.signer ∧ own.payload.action = action := by
  have hsigns := h.signs
  unfold Payload.sign at hsigns
  split at hsigns
  · have hcert := Except.ok.inj hsigns
    simp only [Payload.certificate, Certificate.proposal.injEq] at hcert
    rw [← hcert]
    exact ⟨rfl, rfl⟩
  · exact absurd hsigns (by simp)

omit [LawfulBeekem] in
theorem Drafts.unique {q : WorkspaceState × Rng} {own own' : Signed AdminProposal}
    (h : Drafts action expires q own) (h' : Drafts action expires q own') : own = own' := by
  have hcert := Except.ok.inj (h.signs.symm.trans h'.signs)
  exact Certificate.proposal.inj hcert

/-- Where the call has minted its proposal, what is returned identifies it if and only if
the first new digest does. -/
theorem propose_of_run {own : Signed AdminProposal} {minted : WorkspaceState × Rng}
    (hdraft : Drafts action expires (runAll first p) own)
    (hrun : WorkspaceState.handle (.propose action expires) now (runAll first p) =
      .ok [.broadcastCerts [.proposal own]] minted) :
    (∀ digest, propose action expires now first second p = .ok digest →
        MintedHere action expires now first second p digest) ↔
      ∀ k, firstNew p.1.proposalDigests (runAll second minted).1.capabilities.certs.proposals =
          some k →
        own ∈ (runAll second minted).1.capabilities.certs.proposals ∧
          Certificate.digest (.proposal own) = k := by
  have hreturned : ∀ digest, propose action expires now first second p = .ok digest ↔
      firstNew p.1.proposalDigests (runAll second minted).1.capabilities.certs.proposals =
        some digest := by
    intro digest
    unfold propose
    rw [hrun, ← proposals_firstNew]
    dsimp only
    cases (runAll second minted).1.capabilities.proposals.find?
        fun status => ! p.1.proposalDigests.contains status.digest with
    | none => simp
    | some status => simp
  refine forall_congr' fun digest => imp_congr (hreturned digest) ?_
  constructor
  · rintro ⟨signed, minted', hrun', hmem, hdigest, -⟩
    rw [hrun, EStateM.Result.ok.injEq] at hrun'
    obtain ⟨heffects, rfl⟩ := hrun'
    obtain rfl : own = signed := by simpa using heffects
    exact ⟨hmem, hdigest⟩
  · rintro ⟨hmem, hdigest⟩
    obtain ⟨hissuer, haction⟩ := hdraft.signed_eq
    exact ⟨own, minted, hrun, hmem, hdigest, hissuer.trans (runAll_signer first p), haction⟩

/-- Proposing returns the call's own proposal, whatever happens in between, if and only if
no other proposal that came in meanwhile has a smaller digest. -/
theorem propose_own_iff (action : AdminAction) (expires : Option U64) (now : UnixSeconds)
    (first second : List Call) (p : WorkspaceState × Rng) :
    (∀ digest, propose action expires now first second p = .ok digest →
        MintedHere action expires now first second p digest) ↔
      Undisturbed action expires now first second p := by
  have hspec := onPropose_drafts action expires (runAll first p)
  cases hrun : WorkspaceState.handle (.propose action expires) now (runAll first p) with
  | error err q =>
      have hnone := hspec.of_error hrun
      refine iff_of_true (fun digest h => ?_) fun own hdraft => absurd hdraft (hnone own)
      unfold propose at h
      rw [hrun] at h
      exact absurd h (by simp)
  | ok effects minted =>
      obtain ⟨own, hdraft, rfl, w, hw, hkey⟩ := hspec.of_ok hrun
      have hafter : runAll (first ++ .handle (.propose action expires) now :: second) p =
          runAll second minted := by
        have hcall : (Call.handle (.propose action expires) now).run (runAll first p) =
            .ok [.broadcastCerts [.proposal own]] minted := hrun
        rw [runAll_append, runAll]
        unfold Library.after
        rw [hcall]
      have htaken : ∃ w ∈ (runAll second minted).1.capabilities.certs.proposals,
          Certificate.digest (.proposal w) = Certificate.digest (.proposal own) :=
        ⟨w, runAll_kept second minted (.proposal w) hw, hkey⟩
      rw [propose_of_run hdraft hrun, firstNew_recognises htaken]
      unfold Undisturbed
      rw [hafter]
      constructor
      · intro h own' hdraft' x hx hnew hne
        obtain rfl := hdraft.unique hdraft'
        exact h x hx hnew hne
      · exact fun h => h own hdraft

end Own

end IrohBeekem

/-! ## A rival in between -/

namespace IrohBeekem

open Library WorkspaceState

local instance proposingKeyhive : Keyhive := transparentKeyhive

local instance proposingBeekem : Beekem := listBeekem

local instance proposingLawful : LawfulBeekem := listBeekem_live.toLawfulBeekem

local instance proposingLoro : Loro := listLoro

local instance proposingPostcard : Postcard := blankPostcard

/-- The founder alone. -/
def proposer : WorkspaceState × Rng := (sampleWorkspace 1, (1 : Nat))

/-- The proposal of device `2` to remove the founder. -/
def rival (nonce : Bytes16) : Certificate :=
  (Payload.proposal (.new (.removeMember 1) 0 none nonce)).signedBy 2

/-- It arrives from a peer. -/
def rivalArrives (nonce : Bytes16) : Call := .onControl (.certs [rival nonce]) 0

/-- Whether the founder proposes the removal of device `9`, after other calls, and a digest
is that of the proposal it mints. -/
def minting (first : List Call) (digest : Bytes32) : Bool :=
  match WorkspaceState.handle (.propose (.removeMember 9) none) 0 (runAll first proposer) with
  | .ok [.broadcastCerts [.proposal signed]] minted =>
      signed ∈ minted.1.capabilities.certs.proposals.toList ∧
        Certificate.digest (.proposal signed) = digest ∧ signed.issuer = 1 ∧
        signed.payload.action = .removeMember 9
  | _ => false

private theorem mintedHere_of_minting {first : List Call} {digest : Bytes32}
    (h : minting first digest = true) :
    MintedHere (.removeMember 9) none 0 first [] proposer digest := by
  unfold minting at h
  split at h
  · next signed minted hrun =>
      obtain ⟨hmem, hdigest, hissuer, haction⟩ := of_decide_eq_true h
      exact ⟨signed, minted, hrun, hmem, hdigest, hissuer, haction⟩
  · exact absurd h (by simp)

private theorem minting_of_mintedHere {first : List Call} {digest : Bytes32}
    (h : MintedHere (.removeMember 9) none 0 first [] proposer digest) :
    minting first digest = true := by
  obtain ⟨signed, minted, hrun, hmem, hdigest, hissuer, haction⟩ := h
  unfold minting
  rw [hrun]
  exact decide_eq_true ⟨hmem, hdigest, hissuer, haction⟩

/-- A rival with a larger digest does no harm. -/
theorem propose_own_iff_laterRival :
    Undisturbed (.removeMember 9) none 0 [rivalArrives 7] [] proposer := by
  refine (propose_own_iff _ none 0 _ [] proposer).mp fun digest h => mintedHere_of_minting ?_
  have hall : (propose (.removeMember 9) none 0 [rivalArrives 7] [] proposer).toOption.any
      (minting [rivalArrives 7]) = true := by
    decide +kernel
  rw [h] at hall
  exact hall

/-- One with a smaller digest is returned in place of the founder's own proposal. -/
theorem propose_earlierRival :
    ¬ ∀ (action : AdminAction) (expires : Option U64) (now : UnixSeconds)
      (first second : List Call) (p : WorkspaceState × Rng), Reachable p.1 → ∀ digest,
      propose action expires now first second p = .ok digest →
        MintedHere action expires now first second p digest := by
  intro h
  have hreach : Reachable proposer.1 := sampleWorkspace_reachable (by decide +kernel)
  have hreturned : propose (.removeMember 9) none 0 [rivalArrives 0] [] proposer =
      .ok (rival 0).digest := by
    decide +kernel
  have hminting := minting_of_mintedHere (h _ none 0 _ [] proposer hreach _ hreturned)
  have hother : minting [rivalArrives 0] (rival 0).digest = false := by decide +kernel
  exact absurd hminting (by simp [hother])

end IrohBeekem
