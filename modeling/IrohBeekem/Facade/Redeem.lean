import IrohBeekem.Facade.Invite

/-!
# Redeeming a ticket

The redeemer takes its trust root from a ticket twice.  `Invite.verify` roots the
closure that judges the issuer at the tree id of the terms; `join` roots the one the
workspace will enforce at whoever the first operation of the log adds.  Nothing
compares the two: they agree exactly for the logs that begin with an `Add` of the key
that names the tree (`join_rooted_iff`).
-/

set_option linter.unusedSectionVars false

namespace IrohBeekem

open Library CgkaController WorkspaceState

variable [Keyhive] [Beekem] [Loro] [Postcard] [DocTickets] [TermsSigner]

/-- The nonces a node has spent, by tree, unless the lock around them is poisoned. -/
abbrev SpentNonces := Option (Finset (Bytes32 × Bytes16))

namespace Workspace

/-- Spend an invite's nonce; reports whether it was there to spend. -/
def claimInvite (treeId : Bytes32) (nonce : Bytes16) : EStateM WorkspaceError SpentNonces Bool := do
  match ← get with
  | none => return false
  | some redeemed =>
      set (some (insert (treeId, nonce) redeemed))
      return (treeId, nonce) ∉ redeemed

/-- The wall clock in Unix seconds. -/
def unixNow (clock : Option U64) : Except InviteError U64 :=
  match clock with
  | some now => .ok now
  | none => .error .noClock

/-- Redeem a ticket: the state the workspace starts in.  The signer and the share secret are
the identity's; the clock and the import of the index are the outside's answers. -/
def join (invite : Invite) (signer shareSecret : Bytes32) (clock : Option U64)
    (importDoc : DocTicket → Except String Unit) :
    EStateM WorkspaceError SpentNonces WorkspaceState := do
  let now ← verdict ((unixNow clock).mapError .invite)
  verdict ((invite.verify signer now).mapError .invite)
  if ¬ (← claimInvite invite.payload.treeId invite.payload.nonce) then
    throw (.invite .replayed)
  else
    let terms := invite.payload
    if ¬ Keyhive.isPoint terms.treeId then throw (.invite .malformedTreeId)
    else
      let cgka ← verdict ((CgkaController.join terms.treeId signer shareSecret terms.log
        terms.certs).mapError .notAdmitted)
      verdict ((importDoc terms.docTicket).mapError .storage)
      return joined cgka terms.workspaceSecret terms.epoch

end Workspace

/-- The log begins with an `Add` of this key. -/
def FoundedBy (founder : Bytes32) (ops : List ControlOp) : Prop :=
  ∃ init rest, ops = init :: rest ∧ init.payload.added? = some founder

/-- The log begins with an operation on this tree. -/
def BegunOn (treeId : Bytes32) (ops : List ControlOp) : Prop :=
  ∃ init rest, ops = init :: rest ∧ init.payload.docId = treeId

/-- The closure `Invite.verify` judges the issuer by. -/
def verifierClosure (invite : Invite) : CapabilityStore :=
  ((CapabilityStore.new invite.payload.treeId).extend invite.payload.certs).2

section Roots

variable [LawfulBeekem]

/-- Whoever the log begins by adding is the root, and the tree it names is the tree. -/
theorem join_roots {treeId signer secret : Bytes32} {ops : List ControlOp}
    {certs : List Certificate} {c : CgkaController}
    (h : CgkaController.join treeId signer secret ops certs = .ok c) :
    FoundedBy c.certs.founder ops ∧ BegunOn c.treeId ops := by
  obtain ⟨init, rest, doc, founderId, pk, detail, g, added, offered, rfl, hpayload, -, -, hinit,
    hevolves⟩ := join_inv h
  have hfounder : c.certs.founder = founderId := by
    rw [hevolves.founder]
    exact CapabilityStore.extend_founder _ _
  have htree : c.treeId = doc := by
    unfold CgkaController.treeId
    rw [hevolves.tree.initAddOp]
    change (Beekem.initAddOp g).payload.docId = doc
    rw [hinit, hpayload]
    rfl
  rw [hfounder, htree]
  exact ⟨⟨init, rest, rfl, by rw [hpayload]; rfl⟩, init, rest, rfl, by rw [hpayload]; rfl⟩

omit [LawfulBeekem] in
theorem FoundedBy.unique {founder founder' : Bytes32} {ops : List ControlOp}
    (h : FoundedBy founder ops) (h' : FoundedBy founder' ops) : founder = founder' := by
  obtain ⟨init, rest, rfl, hadded⟩ := h
  obtain ⟨init', rest', hops, hadded'⟩ := h'
  obtain ⟨rfl, rfl⟩ := List.cons.inj hops
  exact Option.some.inj (hadded.symm.trans hadded')

omit [LawfulBeekem] in
theorem BegunOn.unique {treeId treeId' : Bytes32} {ops : List ControlOp} (h : BegunOn treeId ops)
    (h' : BegunOn treeId' ops) : treeId = treeId' := by
  obtain ⟨init, rest, rfl, hdoc⟩ := h
  obtain ⟨init', rest', hops, hdoc'⟩ := h'
  obtain ⟨rfl, rfl⟩ := List.cons.inj hops
  exact hdoc.symm.trans hdoc'

/-- A workspace joins from a ticket that verifies, by the controller's `join`. -/
theorem workspaceJoin_inv {invite : Invite} {signer secret : Bytes32} {clock : Option U64}
    {importDoc : DocTicket → Except String Unit} {ledger ledger' : SpentNonces} {s : WorkspaceState}
    (h : Workspace.join invite signer secret clock importDoc ledger = .ok s ledger') :
    (∃ now, invite.verify signer now = .ok ()) ∧
      CgkaController.join invite.payload.treeId signer secret invite.payload.log
        invite.payload.certs = .ok s.cgka := by
  have hspec : Wp (Workspace.join invite signer secret clock importDoc)
      (fun s _ => (∃ now, invite.verify signer now = .ok ()) ∧
        CgkaController.join invite.payload.treeId signer secret invite.payload.log
          invite.payload.certs = .ok s.cgka) (fun _ _ => True) ledger := by
    unfold Workspace.join
    rw [wp_bind, wp_verdict]
    cases hnow : Workspace.unixNow clock with
    | error err => trivial
    | ok now =>
        dsimp only [Except.mapError]
        rw [wp_bind, wp_verdict]
        cases hverify : invite.verify signer now with
        | error err => trivial
        | ok u =>
            dsimp only [Except.mapError]
            rw [wp_bind]
            refine wp_of_run (fun claimed ledger₁ _ => ?_) fun _ _ _ => trivial
            split_ifs
            · rw [wp_bind, wp_verdict]
              cases hjoin : CgkaController.join invite.payload.treeId signer secret
                  invite.payload.log invite.payload.certs with
              | error err => trivial
              | ok c =>
                  dsimp only
                  rw [wp_bind, wp_verdict]
                  cases importDoc invite.payload.docTicket with
                  | error err => trivial
                  | ok u => exact ⟨⟨now, hverify⟩, rfl⟩
            · trivial
            · trivial
  exact hspec.of_ok h

/-- A controller that joined is rooted at the tree it was given exactly when the log begins
with an `Add`, on that tree, of the key that names it; and the closure a ticket was judged by
and the one the workspace enforces have one root exactly when the ticket's log begins with an
`Add` of the key that names its tree. -/
theorem join_rooted_iff :
    (∀ (treeId signer secret : Bytes32) (ops : List ControlOp) (certs : List Certificate)
      (c : CgkaController), CgkaController.join treeId signer secret ops certs = .ok c →
      (c.certs.founder = treeId ∧ c.treeId = treeId ↔
        FoundedBy treeId ops ∧ BegunOn treeId ops)) ∧
    ∀ (invite : Invite) (signer secret : Bytes32) (clock : Option U64)
      (importDoc : DocTicket → Except String Unit) (ledger ledger' : SpentNonces) (s : WorkspaceState),
      Workspace.join invite signer secret clock importDoc ledger = .ok s ledger' →
      ((verifierClosure invite).founder = s.capabilities.founder ↔
        FoundedBy invite.payload.treeId invite.payload.log) := by
  constructor
  · intro treeId signer secret ops certs c hjoin
    obtain ⟨hfounder, htree⟩ := join_roots hjoin
    constructor
    · rintro ⟨hroot, hdoc⟩
      rw [hroot] at hfounder
      rw [hdoc] at htree
      exact ⟨hfounder, htree⟩
    · rintro ⟨hroot, hdoc⟩
      exact ⟨hfounder.unique hroot, htree.unique hdoc⟩
  · intro invite signer secret clock importDoc ledger ledger' s hrun
    obtain ⟨hfounder, -⟩ := join_roots (workspaceJoin_inv hrun).2
    have hverifier : (verifierClosure invite).founder = invite.payload.treeId :=
      CapabilityStore.extend_founder _ _
    rw [hverifier]
    constructor
    · intro hroot
      rw [hroot]
      exact hfounder
    · exact fun hroot => hroot.unique hfounder

end Roots

end IrohBeekem

/-! ## A log that crowns somebody else -/

namespace IrohBeekem

open Library CgkaController

section Samples

local instance rootedKeyhive : Keyhive := transparentKeyhive

local instance rootedBeekem : Beekem := listBeekem

local instance rootedLawful : LawfulBeekem := listBeekem_live.toLawfulBeekem

local instance rootedLoro : Loro := listLoro

local instance rootedPostcard : Postcard := blankPostcard

local instance rootedDocs : DocTickets := ⟨Unit⟩

/-- A signature repeats the signing key. -/
local instance rootedSigner : TermsSigner where
  trySign signer _ := some (signer, 0)
  tryVerify invite := invite.signature = (invite.issuer, 0)

/-- What founder `1` has certified: device `7` is an administrator's. -/
def chainFromFounder : List Certificate :=
  [Payload.signedBy (.binding (DeviceBinding.new 7 7 1)) 1,
    Payload.signedBy (.grant (Grant.new 7 .admin 0 none 2)) 1]

/-- What device `7` has certified: device `5` is a user's. -/
def chainFromAdmin : List Certificate :=
  [Payload.signedBy (.binding (DeviceBinding.new 5 5 3)) 7,
    Payload.signedBy (.grant (Grant.new 5 .viewer 0 none 4)) 7]

/-- A log on tree `1` in which this key founds the tree and adds device `5`. -/
def logOf (founder : Bytes32) : List ControlOp :=
  match CgkaController.create 1 founder (0 : Nat) with
  | (.ok c, _) => (after (addMember 5 105) c).cgka.log.reverse
  | (.error _, _) => []

/-- A ticket for device `5` that administrator `7` has signed, with the log of this founder. -/
def ticketFor (founder : Bytes32) : Invite :=
  ⟨⟨inviteDomain, 1, 5, 1000, 1, 0, (), 9, logOf founder, chainFromFounder ++ chainFromAdmin, 207⟩,
    7, (7, 0)⟩

private theorem exists_joined (founder : Bytes32)
    (h : (CgkaController.join 1 5 105 (logOf founder)
      (chainFromFounder ++ chainFromAdmin)).toOption.isSome = true) :
    ∃ c, CgkaController.join 1 5 105 (logOf founder) (chainFromFounder ++ chainFromAdmin) =
      .ok c := by
  cases hjoin : CgkaController.join 1 5 105 (logOf founder) (chainFromFounder ++ chainFromAdmin) with
  | ok c => exact ⟨c, rfl⟩
  | error err =>
      rw [hjoin] at h
      exact absurd h (by simp [Except.toOption])

/-- From the log the founder began, device `5` joins a tree rooted at the founder. -/
theorem join_rooted_iff_logOf :
    ∃ c, CgkaController.join 1 5 105 (logOf 1) (chainFromFounder ++ chainFromAdmin) = .ok c ∧
      c.certs.founder = 1 ∧ c.treeId = 1 := by
  obtain ⟨c, hjoin⟩ := exists_joined 1 (by decide +kernel)
  refine ⟨c, hjoin, (join_rooted_iff.1 1 5 105 _ _ c hjoin).mpr ⟨?_, ?_⟩⟩
  · exact ⟨_, _, rfl, rfl⟩
  · exact ⟨_, _, rfl, rfl⟩

/-- A ticket that verifies leads into a workspace whose root is its issuer. -/
theorem join_rooted_elsewhere :
    ¬ ∀ (invite : Invite) (signer secret : Bytes32) (now : U64) (c : CgkaController),
      invite.verify signer now = .ok () →
      CgkaController.join invite.payload.treeId signer secret invite.payload.log
        invite.payload.certs = .ok c →
      c.certs.founder = invite.payload.treeId ∧ c.treeId = invite.payload.treeId := by
  intro h
  obtain ⟨c, hjoin⟩ := exists_joined 7 (by decide +kernel)
  have hverify : (ticketFor 7).verify 5 500 = .ok () := by decide +kernel
  obtain ⟨hroot, -⟩ := h (ticketFor 7) 5 105 500 c hverify hjoin
  have hfounded : FoundedBy 7 (logOf 7) := ⟨_, _, rfl, rfl⟩
  have hself : c.certs.founder = 7 := (join_roots hjoin).1.unique hfounded
  exact absurd (hself.symm.trans hroot) (by decide)

end Samples

end IrohBeekem
