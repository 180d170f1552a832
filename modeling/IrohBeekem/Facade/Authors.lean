import IrohBeekem.Facade.Invite
import IrohBeekem.Library.Symbolic
import IrohBeekem.State.Authors

/-!
# Author keys

A node signs its entries of the index with an author key of its own, which it derives
from the workspace secret and its member id each time it starts.  The secret travels in
every invite and a member id is no secret at all: whoever has joined derives every
other member's author key as well (`author_key_shared`), and what it signs with it
passes for that member's entry.  The keys that are drawn at random do not have this
weakness (`signer_not_derivable`).
-/

set_option linter.unusedSectionVars false

namespace IrohBeekem

open Library WorkspaceState

/-- The derivation of keys by the hash library, and the author ids of the index. -/
class AuthorKeys where
  /-- `blake3::derive_key`. -/
  deriveKey : (context : String) → Bytes → Bytes32
  /-- The id of the author with this secret key. -/
  authorId : Bytes32 → Bytes32

/-- Domain separator for per-workspace author-key derivation. -/
def authorSeedContext : String := "iroh-beekem/author-seed/v1"

section Keys

variable [AuthorKeys]

/-- This member's author seed for this workspace. -/
def WorkspaceSecret.authorSeed (secret member : Bytes32) : Bytes32 :=
  AuthorKeys.deriveKey authorSeedContext (secret.toBytes ++ member.toBytes)

variable [Keyhive] [Beekem] [Loro] [Postcard]

/-- The secret key of the author `assemble` imports. -/
def Inner.authorSecret (inner : Inner) (s : WorkspaceState) : Bytes32 :=
  WorkspaceSecret.authorSeed inner.secret s.memberId

/-- The author a node's entries name. -/
def Inner.author (inner : Inner) (s : WorkspaceState) : Bytes32 :=
  AuthorKeys.authorId (inner.authorSecret s)

/-- Whether `fetch_chunks` takes in an entry that names this author: a node's own always
pass. -/
def Inner.acceptsEntry (inner : Inner) (s : WorkspaceState) (author : Bytes32) : Bool :=
  author = inner.author s ∨ s.authorMayWrite author

end Keys

/-! ## Nodes of one workspace -/

section Nodes

variable [Keyhive] [Beekem] [Loro] [Postcard] [DocTickets] [TermsSigner]

/-- The nodes of the workspace with this secret: the founder's, and those that redeemed a
ticket of one of them. -/
inductive Belongs (secret : Bytes32) : Inner → WorkspaceState → Prop where
  | created {inner : Inner} {s : WorkspaceState} (hfounded : Founded s)
      (hsecret : inner.secret = secret) : Belongs secret inner s
  | joined {inner inner' : Inner} {s : WorkspaceState} (h : Belongs secret inner s)
      {answers : Answers} {invitee : Bytes32} {role : Role} {invite : Invite}
      (hbuilt : buildInvite inner answers s invitee role = .ok invite) {shareSecret : Bytes32}
      {c : CgkaController}
      (hjoin : CgkaController.join invite.payload.treeId inner'.signer shareSecret
        invite.payload.log invite.payload.certs = .ok c)
      (hsecret : inner'.secret = invite.payload.workspaceSecret) :
      Belongs secret inner' (WorkspaceState.joined c inner'.secret invite.payload.epoch)
  | turn {inner : Inner} {s : WorkspaceState} (h : Belongs secret inner s) (turn : Turn) :
      Belongs secret inner (turn.take s)

/-- A ticket carries the secret. -/
theorem buildInvite_workspaceSecret {inner : Inner} {answers : Answers} {s : WorkspaceState}
    {invitee : Bytes32} {role : Role} {invite : Invite}
    (h : buildInvite inner answers s invitee role = .ok invite) :
    invite.payload.workspaceSecret = inner.secret := by
  obtain ⟨log, -, h⟩ := bind_eq_ok.mp h
  obtain ⟨ticket, -, h⟩ := bind_eq_ok.mp h
  obtain ⟨notAfter, -, h⟩ := bind_eq_ok.mp h
  have hsigned := mapError_eq_ok.mp h
  unfold Invite.sign at hsigned
  split at hsigned
  · obtain rfl := Except.ok.inj hsigned
    rfl
  · exact absurd hsigned (by simp)

/-- So every node of the workspace holds it. -/
theorem Belongs.secret_eq {secret : Bytes32} {inner : Inner} {s : WorkspaceState}
    (h : Belongs secret inner s) : inner.secret = secret := by
  induction h with
  | created _ hsecret => exact hsecret
  | joined _ hbuilt _ hsecret ih =>
      exact hsecret.trans ((buildInvite_workspaceSecret hbuilt).trans ih)
  | turn _ _ ih => exact ih

end Nodes

/-! ## What a member can build -/

/-- The secrets of a workspace and its members. -/
inductive SecretName where
  | workspace (secret : Bytes32)
  | signer (member : Bytes32)
  | leaf (member : Bytes32)
  deriving DecidableEq

section Knowledge

variable [Keyhive] [Beekem] [Loro] [Postcard]

/-- What a member knows: the workspace secret, its own signer and leaf secret, every
member id, and the certificates and messages it has seen. -/
def Inner.knowledge (inner : Inner) (s : WorkspaceState) (seen : Set (Term SecretName)) :
    Set (Term SecretName) :=
  {.name (.workspace inner.secret), .name (.signer s.memberId), .name (.leaf s.memberId)} ∪
    Set.range (fun member : Bytes32 => .text member.toBytes) ∪ seen

/-- The author key of a node, as a term. -/
def Inner.authorKey (inner : Inner) (s : WorkspaceState) : Term SecretName :=
  .deriveKey authorSeedContext (.pair (.name (.workspace inner.secret)) (.text s.memberId.toBytes))

/-- An entry of the index: its author, and what the author signed. -/
def entryOf (key content : Term SecretName) : Term SecretName :=
  .pair (.publicKey key) (.sign key content)

/-- The names and operations stand for what the code computes with. -/
structure Faithful [AuthorKeys] (r : Reading SecretName) : Prop where
  workspace : ∀ secret, r.name (.workspace secret) = secret.toBytes
  deriveKey : ∀ context bytes,
    r.deriveKey context bytes = (AuthorKeys.deriveKey context bytes).toBytes
  publicKey : ∀ secret : Bytes32, r.publicKey secret.toBytes = (AuthorKeys.authorId secret).toBytes

variable [AuthorKeys] {r : Reading SecretName} {inner : Inner} {s : WorkspaceState}

theorem eval_authorKey (h : Faithful r) :
    (inner.authorKey s).eval r = (inner.authorSecret s).toBytes := by
  unfold Inner.authorKey Inner.authorSecret WorkspaceSecret.authorSeed
  simp only [Term.eval, h.workspace, h.deriveKey]

theorem eval_author (h : Faithful r) :
    (Term.publicKey (inner.authorKey s)).eval r = (inner.author s).toBytes := by
  unfold Inner.author
  rw [← h.publicKey, ← eval_authorKey h, Term.eval]

end Knowledge

section Borrowing

variable [Keyhive] [Beekem] [Loro] [Postcard] [DocTickets] [TermsSigner]
  {secret : Bytes32} {inner inner' : Inner} {s t : WorkspaceState}

/-- A signer is out of reach of every other member, unless a message gives it away. -/
theorem signer_not_derivable {seen : Set (Term SecretName)} (hother : t.memberId ≠ s.memberId)
    (hseen : ∀ term ∈ seen, Guarded (.signer s.memberId) term) :
    ¬ Library.Derives (inner'.knowledge t seen) (.name (.signer s.memberId)) := by
  refine not_derives_name fun term hterm => ?_
  rcases hterm with (hown | ⟨member, rfl⟩) | hterm
  · rcases hown with rfl | rfl | rfl
    · simp [Guarded]
    · simpa [Guarded] using hother
    · simp [Guarded]
  · trivial
  · exact hseen term hterm

theorem derives_authorKey (h : Belongs secret inner s) (h' : Belongs secret inner' t)
    (seen : Set (Term SecretName)) :
    Library.Derives (inner'.knowledge t seen) (inner.authorKey s) := by
  have hsecret : inner.secret = inner'.secret := h.secret_eq.trans h'.secret_eq.symm
  have hworkspace : Library.Derives (inner'.knowledge t seen) (.name (.workspace inner.secret)) := by
    rw [hsecret]
    exact .known (Or.inl (Or.inl (Or.inl rfl)))
  have hmember : Library.Derives (inner'.knowledge t seen) (.text s.memberId.toBytes) :=
    .known (Or.inl (Or.inr ⟨s.memberId, rfl⟩))
  exact .deriveKey authorSeedContext (.pair hworkspace hmember)

/-- Of any two nodes of a workspace, the second can derive the author key of the first,
and sign with it any entry it likes, which every node accepts that lets the first write. -/
theorem author_key_shared [AuthorKeys] (h : Belongs secret inner s) (h' : Belongs secret inner' t)
    (seen : Set (Term SecretName)) :
    Library.Derives (inner'.knowledge t seen) (inner.authorKey s) ∧
      (∀ r, Faithful r → (inner.authorKey s).eval r = (inner.authorSecret s).toBytes ∧
        (Term.publicKey (inner.authorKey s)).eval r = (inner.author s).toBytes) ∧
      (∀ content, Library.Derives (inner'.knowledge t seen) content →
        Library.Derives (inner'.knowledge t seen) (entryOf (inner.authorKey s) content)) ∧
      ∀ (reader : Inner) (n : WorkspaceState), n.authorMayWrite (inner.author s) = true →
        reader.acceptsEntry n (inner.author s) = true := by
  have hkey := derives_authorKey h h' seen
  refine ⟨hkey, fun r hr => ⟨eval_authorKey hr, eval_author hr⟩, fun content hcontent => ?_, ?_⟩
  · exact .pair (.publicKey hkey) (.sign hkey hcontent)
  · intro reader n hwrites
    exact decide_eq_true (Or.inr hwrites)

end Borrowing

end IrohBeekem

/-! ## A viewer signs as the founder -/

namespace IrohBeekem

open Library WorkspaceState

local instance borrowKeyhive : Keyhive := transparentKeyhive

local instance borrowBeekem : Beekem := listBeekem

local instance borrowLoro : Loro := listLoro

local instance borrowPostcard : Postcard := blankPostcard

local instance borrowDocs : DocTickets := ticketsDocs

local instance borrowSigner : TermsSigner := ticketsSigner

/-- Keys are numbers that spell what they were derived from. -/
local instance borrowKeys : AuthorKeys where
  deriveKey context bytes := Fin.ofNat _ (ofBeBytes (label context ++ bytes))
  authorId secret := secret

private theorem founderIssues_belongs : Belongs 9 (innerOf 1) founderIssues.1 := by
  have hcreated : Belongs 9 (innerOf 1) (sampleWorkspace 1) :=
    .created (sampleWorkspace_founded (by decide +kernel)) rfl
  have hadmitted : Belongs 9 (innerOf 1) editorRun.1 := by
    unfold editorRun
    exact hcreated.turn (.call (.handle (.addUser 2 102 .editor "second" none) 0) (1 : Nat))
  unfold founderIssues
  exact hadmitted.turn
    (.call (.handle (.addUser 5 105 .viewer "fifth" (some 205)) 0) editorRun.2)

/-- The viewer redeems the founder's ticket. -/
private theorem viewer_belongs : ∃ t : WorkspaceState, t.memberId = 5 ∧ Belongs 9 (innerOf 5) t := by
  have hredeems : ((buildInvite (innerOf 1) willingAnswers founderIssues.1 5 .viewer).toOption.bind
      fun invite => (CgkaController.join invite.payload.treeId 5 105 invite.payload.log
        invite.payload.certs).toOption.map fun c =>
          (c.memberId, invite.payload.workspaceSecret)) = some (5, 9) := by
    decide +kernel
  obtain ⟨invite, hinvite, hmap⟩ := Option.bind_eq_some_iff.mp hredeems
  obtain ⟨c, hc, hmember⟩ := Option.map_eq_some_iff.mp hmap
  have hok : ∀ {ε α : Type} {x : Except ε α} {a : α}, x.toOption = some a → x = .ok a := by
    intro ε α x a h
    cases x with
    | ok b => exact congrArg Except.ok (Option.some.inj h)
    | error err => exact absurd h (by simp [Except.toOption])
  have hjoined : Belongs 9 (innerOf 5)
      (WorkspaceState.joined c (innerOf 5).secret invite.payload.epoch) :=
    founderIssues_belongs.joined (hok hinvite) (hok hc) (congrArg Prod.snd hmember).symm
  have hself : c.memberId = 5 := congrArg Prod.fst hmember
  exact ⟨WorkspaceState.joined c (innerOf 5).secret invite.payload.epoch, hself, hjoined⟩

theorem author_key_shared_viewer :
    ∃ t : WorkspaceState, t.memberId = 5 ∧
      Library.Derives ((innerOf 5).knowledge t ∅) ((innerOf 1).authorKey founderIssues.1) := by
  obtain ⟨t, hmember, hbelongs⟩ := viewer_belongs
  exact ⟨t, hmember, (author_key_shared founderIssues_belongs hbelongs ∅).1⟩

/-- The viewer's author key is not the only one it can derive. -/
theorem author_key_borrowed :
    ¬ ∀ (secret : Bytes32) (inner inner' : Inner) (s t : WorkspaceState)
      (seen : Set (Term SecretName)), Belongs secret inner s → Belongs secret inner' t →
      s.memberId ≠ t.memberId → ¬ Library.Derives (inner'.knowledge t seen) (inner.authorKey s) := by
  intro h
  obtain ⟨t, hmember, hbelongs⟩ := viewer_belongs
  have hfounder : founderIssues.1.memberId = 1 := by decide +kernel
  refine h 9 (innerOf 1) (innerOf 5) founderIssues.1 t ∅ founderIssues_belongs hbelongs ?_
    (derives_authorKey founderIssues_belongs hbelongs ∅)
  rw [hfounder, hmember]
  decide

end IrohBeekem
