import IrohBeekem.Capability.Store
import IrohBeekem.Keys.Beekem

/-!
# The controller of the local group state

`CgkaController` owns the tree, the local keys, the two member sets, the
capability store and the queue of operations that arrived before their
predecessors.  It adds to the key-agreement library the three checks the library
does not make: an operation's signature, that its issuer was ever a member, and
that its issuer is permitted to make the change (`authorize`).

A method that takes `&mut self` is a program over the controller; one that also
draws randomness is a program over the controller and the generator.
-/

namespace IrohBeekem

open Library

variable [Keyhive] [Beekem]

/-- A control operation with the certificates that authorise it. -/
structure AuthorizedOp where
  op : ControlOp
  /-- Certificates the receiver may not hold yet. -/
  proof : List Certificate

omit [Keyhive] in
/-- An operation carrying no certificates. -/
def AuthorizedOp.bare (op : ControlOp) : AuthorizedOp := ⟨op, []⟩

/-- How many out-of-order operations may wait for their predecessors at once. -/
def maxParkedOps : Nat := 1024

/-- What the local group could make of an arriving ciphertext. -/
inductive DecryptOutcome where
  | plaintext (bytes : Bytes)
  /-- The operation that established the epoch has not arrived yet. -/
  | awaitingOp
  /-- The epoch predates this node's membership. -/
  | unreachable
  deriving DecidableEq

/-- What happened when an operation was offered to the local group. -/
inductive MergeOutcome where
  | applied
  | duplicate
  | deferred
  deriving DecidableEq

/-- Owner of the local group state. -/
structure CgkaController where
  cgka : Cgka
  /-- The signing key, named by its verifying half. -/
  signer : Bytes32
  memberId : Bytes32
  shareSecret : Bytes32
  shareKey : Bytes32
  /-- Every identity an accepted `Add` has ever introduced. -/
  knownMembers : Finset Bytes32
  /-- Every identity that is a member now. -/
  currentMembers : Finset Bytes32
  certs : CapabilityStore
  /-- Operations awaiting their predecessors, oldest first. -/
  parked : List AuthorizedOp
  /-- Operations dropped because the queue was full. -/
  evictedOps : Nat

/-! ## Authorization -/

omit [Beekem] in
/-- Decide whether `issuer` holds a capability admitting this operation: a pure
function of the operation and the certificates. -/
def authorize {H : Type} (certs : CapabilityStore) (op : CgkaOperation H) (issuer : Bytes32) :
    Except CoreError Unit :=
  match op with
  | .add _ added _ _ _ =>
      match certs.userOf added with
      | none => .error (.uncertified issuer)
      | some addedUser =>
          if certs.mayBindDeviceTo issuer addedUser then .ok ()
          else .error (.uncertified issuer)
  | .remove _ target _ _ =>
      let sameUser : Bool :=
        (certs.userOf target).any fun owner => certs.userOf issuer = some owner
      if sameUser then .ok ()
      else if ¬ certs.mayAdminister issuer then .error (.uncertified issuer)
      else if certs.threshold ≤ defaultThreshold ∨
          certs.isExecutedAction (.removeMember target) then .ok ()
      else .error (.uncertified issuer)
  | .update _ _ _ => .ok ()

namespace CgkaController

/-! ## The tree as a component -/

/-- Run a call of the library on the tree. -/
def onTree {α : Type} (x : EStateM CgkaError Cgka α) : EStateM CoreError CgkaController α :=
  zoom cgka (fun g c => { c with cgka := g }) .cgka x

/-- Run a call of the library that draws randomness on the tree. -/
def onTreeRng {α : Type} (x : EStateM CgkaError (Cgka × Rng) α) :
    EStateM CoreError (CgkaController × Rng) α :=
  zoom (fun p => (p.1.cgka, p.2)) (fun q p => ({ p.1 with cgka := q.1 }, q.2)) .cgka x

/-! ## Founding -/

/-- Found a new workspace with the local member as its sole occupant. -/
def create (treeId signer : Bytes32) (rng : Rng) : Except CoreError CgkaController × Rng :=
  let (shareSecret, rng) := Beekem.generateShareSecret rng
  let shareKey := Beekem.shareKey shareSecret
  match Beekem.new treeId signer shareKey signer with
  | .error err => (.error (.cgka err), rng)
  | .ok cgka =>
      (.ok
        { cgka := Beekem.insertOwnerSk shareKey shareSecret cgka
          signer, memberId := signer, shareSecret, shareKey
          knownMembers := {signer}
          currentMembers := {signer}
          certs := .new signer
          parked := []
          evictedOps := 0 }, rng)

/-! ## Certificates -/

/-- Sign a payload and record it locally: the body of the five `certify_`
methods. -/
def certify (p : Payload) : EStateM CoreError CgkaController Certificate := do
  let c ← get
  let cert ← verdict (p.sign c.signer)
  let (_, certs) ← verdict (c.certs.insert cert)
  set { c with certs }
  return cert

def certifyDevice (device user : Bytes32) (nonce : Bytes16) :
    EStateM CoreError CgkaController Certificate :=
  certify (.binding (.new device user nonce))

/-- The generation is one past the highest grant for the subject. -/
def certifyRole (user : Bytes32) (capability : Role) (nonce : Bytes16) :
    EStateM CoreError CgkaController Certificate := do
  let c ← get
  certify (.grant (.new user capability (c.certs.nextSeq user) none nonce))

def certifyProposal (action : AdminAction) (seq : U64) (expires : Option U64)
    (nonce : Bytes16) : EStateM CoreError CgkaController Certificate :=
  certify (.proposal (.new action seq expires nonce))

def certifyApproval (proposal : Bytes32) (nonce : Bytes16) :
    EStateM CoreError CgkaController Certificate :=
  certify (.approval (.new proposal nonce))

def certifyPolicy (threshold : U32) (nonce : Bytes16) :
    EStateM CoreError CgkaController Certificate :=
  certify (.policy (.new threshold nonce))

/-- Accept certificates a peer sent; reports how many were new. -/
def absorbCertificates (bundle : List Certificate) : EStateM CoreError CgkaController Nat := do
  let c ← get
  set { c with certs := (c.certs.extend bundle).2 }
  return (c.certs.extend bundle).1

/-! ## Membership changes -/

/-- Admit a new member; `none` if they are already present. -/
def addMember (member shareKey : Bytes32) :
    EStateM CoreError CgkaController (Option ControlOp) := do
  let c ← get
  let op ← onTree (Beekem.add member shareKey c.signer)
  if op.isSome then
    modify fun c => { c with
      knownMembers := insert member c.knownMembers
      currentMembers := insert member c.currentMembers }
  return op

/-- Remove a member; `none` if they are not present. -/
def removeMember (member : Bytes32) :
    EStateM CoreError CgkaController (Option ControlOp) := do
  let c ← get
  let op ← onTree (Beekem.remove member c.signer)
  if op.isSome then
    modify fun c => { c with currentMembers := c.currentMembers.erase member }
  return op

/-- Rotate this member's leaf key. -/
def rotate : EStateM CoreError (CgkaController × Rng) ControlOp := do
  let (c, rng) ← get
  let (newSecret, rng) := Beekem.generateShareSecret rng
  let newKey := Beekem.shareKey newSecret
  set (c, rng)
  let op ← onTreeRng (Beekem.update newKey newSecret c.signer)
  modify fun p => ({ p.1 with shareSecret := newSecret, shareKey := newKey }, p.2)
  return op

/-! ## Content -/

/-- Encrypt a plaintext; the operation is an implicit update the tree needed
first, and must be broadcast. -/
def encrypt (plaintext : Bytes) (predRefs : List Bytes32) :
    EStateM CoreError (CgkaController × Rng) (Chunk OpHash × Option ControlOp) := do
  let (c, _) ← get
  let (secret, op) ← onTreeRng
    (Beekem.newAppSecretFor (Beekem.hashBytes plaintext) plaintext predRefs c.signer)
  match Beekem.tryEncrypt secret plaintext with
  | none => throw .aead
  | some chunk => return (chunk, op)

/-- Encrypt a plaintext under an epoch key minted for the occasion. -/
def encryptFresh (plaintext : Bytes) (predRefs : List Bytes32) :
    EStateM CoreError (CgkaController × Rng) (Chunk OpHash × List ControlOp) := do
  let rotation ← rotate
  let (chunk, implicit) ← encrypt plaintext predRefs
  return (chunk, rotation :: implicit.toList)

/-- Decrypt a chunk produced by any member. -/
def decrypt (chunk : Chunk OpHash) : EStateM CoreError CgkaController DecryptOutcome := do
  match ← attempt (onTree (Beekem.decryptionKeyFor chunk)) with
  | .error _ =>
      let c ← get
      if Beekem.containsPredecessors c.cgka [chunk.pcsUpdateOpHash] then return .unreachable
      else return .awaitingOp
  | .ok key =>
      match Beekem.tryDecrypt chunk key with
      | none => throw .aead
      | some plaintext => return .plaintext plaintext

/-! ## Merging -/

/-- Park an out-of-order operation, evicting the oldest if the queue is full. -/
def park (op : AuthorizedOp) (c : CgkaController) : CgkaController :=
  if maxParkedOps ≤ c.parked.length then
    { c with parked := c.parked.tail ++ [op], evictedOps := c.evictedOps + 1 }
  else { c with parked := c.parked ++ [op] }

/-- What an applied operation does to the two member sets. -/
def recordMembership (op : CgkaOperation OpHash) (c : CgkaController) : CgkaController :=
  match op with
  | .add _ added _ _ _ =>
      { c with
        knownMembers := insert added c.knownMembers
        currentMembers := insert added c.currentMembers }
  | .remove _ removed _ _ => { c with currentMembers := c.currentMembers.erase removed }
  | .update _ _ _ => c

/-- Merge an operation whose signature has already been checked. -/
def mergeVerified (authorized : AuthorizedOp) : EStateM CoreError CgkaController MergeOutcome := do
  let c ← get
  let op := authorized.op
  if ¬ Beekem.containsPredecessors c.cgka op.payload.predecessors then
    set (c.park authorized)
    return .deferred
  else if op.issuer ∉ c.knownMembers then
    throw (.unauthorized op.issuer)
  else
    verdict (authorize c.certs op.payload op.issuer)
    match ← attempt (onTree (Beekem.mergeConcurrentOperation op)) with
    | .ok true =>
        modify (recordMembership op.payload)
        return .applied
    | .ok false => return .duplicate
    | .error (.cgka .outOfOrderOperation) => return .deferred
    | .error err => throw err

/-- Offer a remote operation to the local group. -/
def merge (authorized : AuthorizedOp) : EStateM CoreError CgkaController MergeOutcome := do
  if ¬ verifyOp authorized.op then throw .badSignature
  else
    modify fun c => { c with certs := (c.certs.extend authorized.proof).2 }
    mergeVerified authorized

/-- One round over the operations that were parked: how many applied, and the
first failure that was not a refusal. -/
def pendingRound : List AuthorizedOp → Nat → Option CoreError →
    EStateM CoreError CgkaController (Nat × Option CoreError)
  | [], total, firstError => return (total, firstError)
  | op :: rest, total, firstError => do
      match ← attempt (mergeVerified op) with
      | .ok .applied => pendingRound rest (total + 1) firstError
      | .ok _ => pendingRound rest total firstError
      | .error (.unauthorized _) => pendingRound rest total firstError
      | .error (.uncertified _) => pendingRound rest total firstError
      | .error err => pendingRound rest total (firstError.or (some err))

/-- The loop of `merge_pending`: rounds until one applies nothing. -/
def pendingRounds : Nat → Nat → Option CoreError → EStateM CoreError CgkaController Nat
  | 0, total, _ => return total
  | fuel + 1, total, firstError => do
      let c ← get
      set { c with parked := [] }
      let (total', firstError) ← pendingRound c.parked total firstError
      if total' = total then
        match firstError with
        | none => return total'
        | some err => throw err
      else pendingRounds fuel total' firstError

/-- Retry every parked operation, repeating until no further progress; reports
how many became applicable.  Every round but the last takes an operation off the
queue, which bounds the rounds. -/
def mergePending : EStateM CoreError CgkaController Nat := do
  let c ← get
  pendingRounds (c.parked.length + 1) 0 none

/-! ## Joining -/

/-- The complete operation log, causes first. -/
def opLog (c : CgkaController) : Except CoreError (List ControlOp) :=
  match Beekem.ops c.cgka with
  | .error err => .error (.cgka err)
  | .ok epochs => .ok epochs.flatten

/-- The loop of `join` over the log after the founding `Add`: take ownership of
the tree at this member's own `Add`, and merge. -/
def replay : List ControlOp → Bool → EStateM CoreError CgkaController Bool
  | [], invited => return invited
  | op :: rest, invited => do
      let c ← get
      let mine : Option Bytes32 :=
        match op.payload with
        | .add _ added pk _ _ => if added = c.memberId then some pk else none
        | _ => none
      match mine with
      | none =>
          let _ ← merge (.bare op)
          replay rest invited
      | some pk =>
          let cgka ← verdict ((Beekem.withNewOwner c.memberId pk c.shareSecret c.cgka).mapError
            CoreError.cgka)
          set { c with cgka }
          let _ ← merge (.bare op)
          replay rest true

/-- A controller that holds the founding `Add`, and the certificates the log came
with. -/
def joining (signer shareSecret founderId : Bytes32) (cgka : Cgka) (certs : List Certificate) :
    CgkaController :=
  { cgka, signer, memberId := signer, shareSecret
    shareKey := Beekem.shareKey shareSecret
    knownMembers := {founderId}
    currentMembers := {founderId}
    certs := ((CapabilityStore.new founderId).extend certs).2
    parked := []
    evictedOps := 0 }

/-- What `join` does once it holds the founding `Add`: replay the rest, and refuse a
log that never names this member or has a hole. -/
def adopt (rest : List ControlOp) (invited : Bool) : EStateM CoreError CgkaController Unit := do
  let invited ← replay rest invited
  if ¬ invited then throw .notInvited
  else
    let _ ← mergePending
    let c ← get
    if 0 < c.parked.length then throw (.incompleteLog c.parked.length)
    else return ()

/-- Join an existing workspace by replaying its operation log. -/
def join (treeId signer shareSecret : Bytes32) (ops : List ControlOp)
    (certs : List Certificate) : Except CoreError CgkaController :=
  match ops with
  | [] => .error .missingInitAdd
  | init :: rest =>
      match init.payload with
      | .add _ founderId founderPk predecessors _ =>
          if predecessors ≠ [] then .error .missingInitAdd
          else if ¬ verifyOp init then .error .badSignature
          else if init.issuer ≠ founderId then .error (.unauthorized init.issuer)
          else
            match Beekem.newFromInitAdd treeId founderId founderPk init with
            | .error err => .error (.cgka err)
            | .ok cgka =>
                match adopt rest (founderId = signer)
                    (joining signer shareSecret founderId cgka certs) with
                | .ok _ c => .ok c
                | .error err _ => .error err
      | _ => .error .missingInitAdd

/-! ## Queries -/

/-- The tree this controller belongs to, read off the founding `Add`. -/
def treeId (c : CgkaController) : Bytes32 := (Beekem.initAddOp c.cgka).payload.docId

def isCurrentMember (c : CgkaController) (member : Bytes32) : Bool := member ∈ c.currentMembers

def isKnownMember (c : CgkaController) (member : Bytes32) : Bool := member ∈ c.knownMembers

end CgkaController

end IrohBeekem
