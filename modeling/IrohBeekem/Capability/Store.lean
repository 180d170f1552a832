import IrohBeekem.Capability.Certificate
import IrohBeekem.Library.Keyed
import IrohBeekem.Library.Saturate

/-!
# The capability store

Every authorization statement a node has accepted, and what they imply.  The
derived half is recomputed from scratch whenever a certificate is added, as a
fixpoint over three loops that feed each other: device bindings, quorum
proposals and admin grants.

The certificate maps are keyed by digest and iterated in digest order, which is
what makes the derived half a function of the certificate *set*; see
`IrohBeekem.Library.Keyed`.  A store carries the proof that its derived half is
the one its certificates imply, so a stale store cannot be built.
-/

namespace IrohBeekem

open Library

variable [Keyhive]

/-! ## The certificates a store holds -/

/-- Accepted certificates, each kind in digest order. -/
structure Certificates where
  grants : Keyed fun signed : Signed Grant => Certificate.digest (.grant signed)
  bindings : Keyed fun signed : Signed DeviceBinding => Certificate.digest (.binding signed)
  proposals : Keyed fun signed : Signed AdminProposal => Certificate.digest (.proposal signed)
  approvals : Keyed fun signed : Signed Approval => Certificate.digest (.approval signed)
  policies : Keyed fun signed : Signed Policy => Certificate.digest (.policy signed)
  deriving DecidableEq

namespace Certificates

/-- No certificates. -/
def empty : Certificates := ⟨.empty, .empty, .empty, .empty, .empty⟩

/-- Add a value under its digest, reporting whether the digest was new.  The
source's map insertion also overwrites the value of a digest it already holds;
digests identify certificates, so that value is the one already there. -/
def stageIn {ν : Type} {key : ν → Bytes32} (m : Keyed key) (v : ν) : Bool × Keyed key :=
  if m.contains (key v) then (false, m) else (true, m.insert v)

/-- Verify and store one certificate. -/
def stage (S : Certificates) (cert : Certificate) : Except CoreError (Bool × Certificates) :=
  match cert.verify with
  | .error err => .error err
  | .ok () =>
      match cert with
      | .grant signed =>
          let (isNew, grants) := stageIn S.grants signed
          .ok (isNew, { S with grants })
      | .binding signed =>
          let (isNew, bindings) := stageIn S.bindings signed
          .ok (isNew, { S with bindings })
      | .proposal signed =>
          let (isNew, proposals) := stageIn S.proposals signed
          .ok (isNew, { S with proposals })
      | .approval signed =>
          let (isNew, approvals) := stageIn S.approvals signed
          .ok (isNew, { S with approvals })
      | .policy signed =>
          let (isNew, policies) := stageIn S.policies signed
          .ok (isNew, { S with policies })

/-- Stage a bundle, dropping what does not verify, and count what was new. -/
def stageAll (S : Certificates) : List Certificate → Nat × Certificates
  | [] => (0, S)
  | cert :: certs =>
      match S.stage cert with
      | .ok (true, S') =>
          let (added, S'') := stageAll S' certs
          (added + 1, S'')
      | _ => stageAll S certs

/-- Whether a certificate is held. -/
def Holds (S : Certificates) : Certificate → Prop
  | .grant signed => signed ∈ S.grants
  | .binding signed => signed ∈ S.bindings
  | .proposal signed => signed ∈ S.proposals
  | .approval signed => signed ∈ S.approvals
  | .policy signed => signed ∈ S.policies

instance : Membership Certificate Certificates := ⟨Holds⟩

instance : HasSubset Certificates := ⟨fun S S' => ∀ cert, cert ∈ S → cert ∈ S'⟩

/-- Every certificate held, bindings first. -/
def toList (S : Certificates) : List Certificate :=
  S.bindings.toList.map .binding ++ S.grants.toList.map .grant ++
    S.proposals.toList.map .proposal ++ S.approvals.toList.map .approval ++
    S.policies.toList.map .policy

/-- How many certificates are held. -/
def len (S : Certificates) : Nat :=
  S.grants.size + S.bindings.size + S.proposals.size + S.approvals.size + S.policies.size

/-- The workspace threshold: the largest a policy of the founder's names, and
never below one. -/
def resolveThreshold (S : Certificates) (founder : Bytes32) : Nat :=
  (((S.policies.toList.filter fun signed => signed.issuer = founder).map
    fun signed => max signed.payload.threshold.val 1).max?).getD defaultThreshold

end Certificates

/-! ## The fixpoint -/

/-- What the loop of `recompute` accumulates. -/
structure Closure where
  /-- Which user each certified device acts for. -/
  deviceUser : BTreeMap Bytes32 Bytes32
  /-- Every user that has ever held an admitted admin grant. -/
  everAdmin : BTreeSet Bytes32
  /-- Proposals that have reached quorum, by digest. -/
  executed : BTreeSet Bytes32
  deriving DecidableEq

namespace Closure

/-- The axiom: the founder is their own user, and is an admin. -/
def founding (founder : Bytes32) : Closure :=
  { deviceUser := BTreeMap.set .empty founder founder
    everAdmin := Keyed.insert .empty founder
    executed := .empty }

/-- The user a device acts for. -/
def user (c : Closure) (device : Bytes32) : Option Bytes32 :=
  BTreeMap.get? c.deviceUser device

end Closure

/-- The distinct users who have approved a proposal and have ever been
admins. -/
def approvingUsers
    (approvals : Keyed fun signed : Signed Approval => Certificate.digest (.approval signed))
    (c : Closure) (proposal : Bytes32) : BTreeSet Bytes32 :=
  BTreeSet.ofList
    (((approvals.toList.filter fun signed => signed.payload.proposal = proposal).filterMap
      fun signed => c.user signed.issuer).filter fun user => c.everAdmin.contains user)

/-- Whether an executed proposal is for exactly this action. -/
def executedAction (S : Certificates) (executed : BTreeSet Bytes32) (action : AdminAction) :
    Bool :=
  executed.toList.any fun digest =>
    match S.proposals.find? digest with
    | some signed => signed.payload.action = action
    | none => false

/-- Whether a grant may set a role, given the workspace threshold: at one
always, above it for the founder or with a matching executed proposal. -/
def grantIsAuthorised (threshold : Nat) (issuerUser founder : Bytes32) (grant : Grant)
    (executed : BTreeSet Bytes32) (S : Certificates) : Bool :=
  if threshold ≤ defaultThreshold ∨ issuerUser = founder then true
  else executedAction S executed (.setRole grant.subject grant.capability)

section Loops

variable (founder : Bytes32) (threshold : Nat) (S : Certificates)

/-- The body of the binding loop.  A device's first admitted binding is final;
a binding is admitted from a device of the same user or of an ever-admin. -/
def bindingStep (signed : Signed DeviceBinding) (c : Closure) : Option Closure :=
  if c.deviceUser.contains signed.payload.device then none
  else
    match c.user signed.issuer with
    | none => none
    | some issuerUser =>
        if issuerUser = signed.payload.user ∨ c.everAdmin.contains issuerUser then
          some { c with
            deviceUser := BTreeMap.set c.deviceUser signed.payload.device signed.payload.user }
        else none

/-- The body of the proposal loop: a proposal of an ever-admin's device is
executed once enough distinct ever-admins have approved it. -/
def proposalStep (signed : Signed AdminProposal) (c : Closure) : Option Closure :=
  let digest := Certificate.digest (.proposal signed)
  if c.executed.contains digest then none
  else
    match c.user signed.issuer with
    | none => none
    | some issuerUser =>
        if ¬ c.everAdmin.contains issuerUser then none
        else if threshold ≤ (approvingUsers S.approvals c digest).size then
          some { c with executed := c.executed.insert digest }
        else none

/-- The body of the grant loop: only admin grants feed the monotone set. -/
def grantStep (signed : Signed Grant) (c : Closure) : Option Closure :=
  if ¬ signed.payload.capability.canAdminister then none
  else
    match c.user signed.issuer with
    | none => none
    | some issuerUser =>
        if ¬ c.everAdmin.contains issuerUser then none
        else if ¬ grantIsAuthorised threshold issuerUser founder signed.payload c.executed S then
          none
        else if c.everAdmin.contains signed.payload.subject then none
        else some { c with everAdmin := c.everAdmin.insert signed.payload.subject }

/-- One iteration of one of the three loops. -/
inductive Rule where
  | binding (signed : Signed DeviceBinding)
  | proposal (signed : Signed AdminProposal)
  | grant (signed : Signed Grant)

/-- The body of whichever loop a rule belongs to. -/
def Rule.step : Rule → Closure → Option Closure
  | .binding signed => bindingStep signed
  | .proposal signed => proposalStep threshold S signed
  | .grant signed => grantStep founder threshold S signed

/-- One round: the binding loop, then the proposal loop, then the grant loop,
each in digest order. -/
def rules : List Rule :=
  S.bindings.toList.map .binding ++ S.proposals.toList.map .proposal ++
    S.grants.toList.map .grant

/-- How many rounds the loop can take: each but the last adds an entry. -/
def roundBound : Nat := S.bindings.size + S.proposals.size + S.grants.size + 1

/-- The loop of `recompute`, run until a round changes nothing. -/
def closure : Closure :=
  saturate (Rule.step founder threshold S) (rules S) (roundBound S)
    (Closure.founding founder)

end Loops

/-! ## Current roles -/

/-- The order between two decisions about one user's role. -/
abbrev Rank := U64 ×ₗ Bytes32

/-- The best decision seen so far about each user, and the role it set. -/
structure RoleTable where
  best : BTreeMap Bytes32 Rank
  roles : BTreeMap Bytes32 Role

/-- Record a decision about a user unless a higher one is already recorded. -/
def RoleTable.consider (t : RoleTable) (user : Bytes32) (rank : Rank) (role : Role) :
    RoleTable :=
  let supersedes : Bool :=
    match BTreeMap.get? t.best user with
    | none => true
    | some current => current < rank
  if supersedes then
    { best := BTreeMap.set t.best user rank, roles := BTreeMap.set t.roles user role }
  else t

section Roles

variable (founder : Bytes32) (threshold : Nat) (S : Certificates) (c : Closure)

/-- The founder's seed, recorded below every real decision. -/
def RoleTable.seed : RoleTable :=
  { best := BTreeMap.set .empty founder (toLex (0, 0))
    roles := BTreeMap.set .empty founder .admin }

/-- One iteration of the grant loop of `resolve_roles`. -/
def considerGrant (t : RoleTable) (signed : Signed Grant) : RoleTable :=
  match c.user signed.issuer with
  | none => t
  | some issuerUser =>
      if ¬ c.everAdmin.contains issuerUser then t
      else if ¬ grantIsAuthorised threshold issuerUser founder signed.payload c.executed S then t
      else t.consider signed.payload.subject
        (toLex (signed.payload.seq, Certificate.digest (.grant signed))) signed.payload.capability

/-- One iteration of the proposal loop of `resolve_roles`: an executed role
proposal is a decision in its own right. -/
def considerProposal (t : RoleTable) (signed : Signed AdminProposal) : RoleTable :=
  if ¬ c.executed.contains (Certificate.digest (.proposal signed)) then t
  else
    match signed.payload.action with
    | .removeMember _ => t
    | .setRole user role =>
        t.consider user (toLex (signed.payload.seq, Certificate.digest (.proposal signed))) role

/-- Each user's current role, once the closure has settled. -/
def resolveRoles : BTreeMap Bytes32 Role :=
  (S.proposals.toList.foldl (considerProposal c)
    (S.grants.toList.foldl (considerGrant founder threshold S c)
      (RoleTable.seed founder))).roles

end Roles

/-! ## The store -/

/-- Everything a store derives from its certificates. -/
structure Derived extends Closure where
  roles : BTreeMap Bytes32 Role
  threshold : Nat
  deriving DecidableEq

/-- Recompute everything derived, from the certificate set alone. -/
def recompute (founder : Bytes32) (S : Certificates) : Derived :=
  let threshold := S.resolveThreshold founder
  let c := closure founder threshold S
  { toClosure := c, roles := resolveRoles founder threshold S c, threshold }

/-- Every authorization statement a node has accepted, plus what they imply. -/
structure CapabilityStore where
  /-- The founder's device id, which is also the founder's user id. -/
  founder : Bytes32
  certs : Certificates
  derived : Derived
  settled : derived = recompute founder certs

namespace CapabilityStore

/-- A store holding the given certificates. -/
def of (founder : Bytes32) (certs : Certificates) : CapabilityStore :=
  { founder, certs, derived := recompute founder certs, settled := rfl }

/-- An empty store rooted at `founder`. -/
def new (founder : Bytes32) : CapabilityStore := of founder .empty

/-- Accept one certificate, if it verifies; reports whether it was new. -/
def insert (s : CapabilityStore) (cert : Certificate) :
    Except CoreError (Bool × CapabilityStore) :=
  match s.certs.stage cert with
  | .error err => .error err
  | .ok (changed, certs) => .ok (changed, if changed then of s.founder certs else s)

/-- Accept many certificates, recomputing the closure once; reports how many
were new.  Invalid ones are dropped. -/
def extend (s : CapabilityStore) (bundle : List Certificate) : Nat × CapabilityStore :=
  let (added, certs) := s.certs.stageAll bundle
  (added, if 0 < added then of s.founder certs else s)

/-- Every certificate this store holds. -/
def certificates (s : CapabilityStore) : List Certificate := s.certs.toList

/-- The distinct admin users who have approved a proposal. -/
def approvers (s : CapabilityStore) (proposal : Bytes32) : BTreeSet Bytes32 :=
  approvingUsers s.certs.approvals s.derived.toClosure proposal

def approverCount (s : CapabilityStore) (proposal : Bytes32) : Nat :=
  (s.approvers proposal).size

/-- How many distinct admins an administrative action needs. -/
def threshold (s : CapabilityStore) : Nat := s.derived.threshold

/-- Whether some proposal for exactly this action has reached quorum. -/
def isExecutedAction (s : CapabilityStore) (action : AdminAction) : Bool :=
  executedAction s.certs s.derived.executed action

/-- Whether this proposal has reached the threshold. -/
def isExecutable (s : CapabilityStore) (proposal : Bytes32) : Bool :=
  s.derived.executed.contains proposal

/-- The certificates proving a quorum authorised `action`: the founder's
policies, the executed proposal and the approvals naming it. -/
def proofOf (s : CapabilityStore) (action : AdminAction) : List Certificate :=
  match s.derived.executed.toList.find? fun digest =>
      match s.certs.proposals.find? digest with
      | some signed => signed.payload.action = action
      | none => false with
  | none => []
  | some digest =>
      ((s.certs.policies.toList.filter fun signed => signed.issuer = s.founder).map .policy) ++
        (match s.certs.proposals.find? digest with
          | some signed => [.proposal signed]
          | none => []) ++
        (s.certs.approvals.toList.filter fun signed => signed.payload.proposal = digest).map
          .approval

/-- Every proposal that has reached quorum, with its action, in digest
order. -/
def executable (s : CapabilityStore) : List (Bytes32 × AdminAction) :=
  s.derived.executed.toList.filterMap fun digest =>
    (s.certs.proposals.find? digest).map fun signed => (digest, signed.payload.action)

/-- One proposal as an application sees it. -/
structure ProposalStatus where
  digest : Bytes32
  action : AdminAction
  approvals : Nat
  required : Nat
  executable : Bool

/-- Every proposal this store holds, executed or not, in digest order. -/
def proposals (s : CapabilityStore) : List ProposalStatus :=
  s.certs.proposals.toList.map fun signed =>
    let digest := Certificate.digest (.proposal signed)
    { digest
      action := signed.payload.action
      approvals := s.approverCount digest
      required := s.threshold
      executable := s.derived.executed.contains digest }

/-- One past the highest of some generation numbers, saturating, or zero. -/
def nextAfter (seqs : List U64) : U64 :=
  match seqs.max? with
  | none => 0
  | some highest => satSucc highest

/-- The next `seq` for a new proposal: one past the highest any carries. -/
def nextProposalSeq (s : CapabilityStore) : U64 :=
  nextAfter (s.certs.proposals.toList.map fun signed => signed.payload.seq)

/-- Whether this user has ever held an admitted admin grant. -/
def everAdmin (s : CapabilityStore) (user : Bytes32) : Bool :=
  s.derived.everAdmin.contains user

/-- This user's current role. -/
def roleOf (s : CapabilityStore) (user : Bytes32) : Option Role :=
  BTreeMap.get? s.derived.roles user

/-- The user a certified device acts for. -/
def userOf (s : CapabilityStore) (device : Bytes32) : Option Bytes32 :=
  s.derived.user device

/-- The role a device acts under: its owner's. -/
def roleOfMember (s : CapabilityStore) (device : Bytes32) : Option Role :=
  (s.userOf device).bind s.roleOf

/-- Whether this device holds an admitted binding. -/
def isCertifiedDevice (s : CapabilityStore) (device : Bytes32) : Bool :=
  s.derived.deviceUser.contains device

/-- Every certified device, in ascending id order. -/
def certifiedDevices (s : CapabilityStore) : List Bytes32 :=
  s.derived.deviceUser.toList.map Prod.fst

/-- Every certified device of one user, in ascending id order. -/
def devicesOf (s : CapabilityStore) (user : Bytes32) : List Bytes32 :=
  (s.derived.deviceUser.toList.filter fun entry => entry.2 = user).map Prod.fst

/-- How many users currently hold an administrative role. -/
def adminCount (s : CapabilityStore) : Nat :=
  (s.derived.roles.toList.filter fun entry => entry.2.canAdminister).length

/-- Whether this device may issue membership changes. -/
def mayAdminister (s : CapabilityStore) (device : Bytes32) : Bool :=
  (s.roleOfMember device).any Role.canAdminister

/-- Whether `issuer` may enrol a device for `user`. -/
def mayBindDeviceTo (s : CapabilityStore) (issuer user : Bytes32) : Bool :=
  s.userOf issuer = some user ∨ s.mayAdminister issuer

/-- The next generation number when re-granting a subject's role. -/
def nextSeq (s : CapabilityStore) (subject : Bytes32) : U64 :=
  nextAfter ((s.certs.grants.toList.filter fun signed => signed.payload.subject = subject).map
    fun signed => signed.payload.seq)

end CapabilityStore

end IrohBeekem
