import IrohBeekem.Capability.Certificate
import IrohBeekem.Library.Wp

/-!
# The key-agreement library

The tree of the group, its operations and the encryption it keys live in a
dependency.  They enter as the operations of the class `Beekem`, one per call
the core makes, with the argument and failure behaviour of the call and nothing
of its inside.  An operation of the library that takes the tree by mutable
reference is a program over the tree (`EStateM`), so that a failure may leave
the tree changed unless a law says otherwise.

The laws come in two classes.  `LawfulBeekem` is bookkeeping: what each call does
to the operation graph, and that an operation minted locally names the heads of
the graph, so that it comes after everything in it.  `LiveBeekem` adds that the
calls a replay makes succeed.

Signers are synchronous and in memory, so the futures the library returns are
ready when polled and the error for one that is not never arises.
-/

namespace IrohBeekem

open Library

abbrev Bytes := List UInt8

/-- A group operation, as far as the core reads it.  `H` is the type of operation
digests, and `detail` stands for the fields only the library reads. -/
inductive CgkaOperation (H : Type) where
  | add (docId addedId pk : Bytes32) (predecessors : List H) (detail : Nat)
  | remove (docId id : Bytes32) (predecessors : List H) (detail : Nat)
  | update (docId : Bytes32) (predecessors : List H) (detail : Nat)
  deriving DecidableEq

namespace CgkaOperation

variable {H : Type}

/-- The digests of the operations this one causally follows. -/
def predecessors : CgkaOperation H → List H
  | add _ _ _ preds _ => preds
  | remove _ _ preds _ => preds
  | update _ preds _ => preds

/-- The tree an operation belongs to. -/
def docId : CgkaOperation H → Bytes32
  | add doc _ _ _ _ => doc
  | remove doc _ _ _ => doc
  | update doc _ _ => doc

/-- The identity an operation introduces. -/
def added? : CgkaOperation H → Option Bytes32
  | add _ id _ _ _ => some id
  | _ => none

end CgkaOperation

/-- A ciphertext as it is stored and broadcast. -/
structure Chunk (H : Type) where
  ciphertext : Bytes
  contentRef : Bytes32
  predRefs : List Bytes32
  /-- The digest of the epoch key, which names the epoch. -/
  pcsKeyHash : Bytes32
  /-- The operation that established the epoch. -/
  pcsUpdateOpHash : H
  deriving DecidableEq

/-- The calls the core makes into the key-agreement library and the primitives
it comes with. -/
class Beekem where
  /-- Digests of operations. -/
  OpHash : Type
  [decEqOpHash : DecidableEq OpHash]
  /-- The tree, with the secrets its owner holds. -/
  Cgka : Type
  /-- A source of randomness. -/
  Rng : Type
  /-- A secret one chunk is encrypted under. -/
  AppSecret : Type
  /-- The digest of a signed operation. -/
  opHash : Signed (CgkaOperation OpHash) → OpHash
  /-- Whether an operation's signature verifies against its embedded issuer. -/
  verifyOp : Signed (CgkaOperation OpHash) → Bool
  /-- The operations in the tree's graph. -/
  graph : Cgka → Set (Signed (CgkaOperation OpHash))
  /-- The public half of a share secret. -/
  shareKey : Bytes32 → Bytes32
  /-- A fresh share secret. -/
  generateShareSecret : Rng → Bytes32 × Rng
  /-- Sixteen fresh bytes. -/
  randomNonce : Rng → Bytes16 × Rng
  /-- Thirty-two fresh bytes. -/
  randomKey : Rng → Bytes32 × Rng
  /-- The digest of a plaintext, which is the reference of its chunk. -/
  hashBytes : Bytes → Bytes32
  /-- The digest of a plaintext under a key. -/
  keyedHash : Bytes32 → Bytes → Bytes32
  new : (treeId memberId shareKey signer : Bytes32) → Except CgkaError Cgka
  newFromInitAdd : (treeId founderId founderPk : Bytes32) →
    Signed (CgkaOperation OpHash) → Except CgkaError Cgka
  /-- `owner_sks.insert`. -/
  insertOwnerSk : (shareKey shareSecret : Bytes32) → Cgka → Cgka
  /-- `with_new_owner`, with the owner's secrets extended by one. -/
  withNewOwner : (memberId pk shareSecret : Bytes32) → Cgka → Except CgkaError Cgka
  initAddOp : Cgka → Signed (CgkaOperation OpHash)
  groupSize : Cgka → U32
  /-- The operations in epochs of mutually concurrent ones, causes first. -/
  ops : Cgka → Except CgkaError (List (List (Signed (CgkaOperation OpHash))))
  containsPredecessors : Cgka → List OpHash → Bool
  add : (memberId shareKey signer : Bytes32) →
    EStateM CgkaError Cgka (Option (Signed (CgkaOperation OpHash)))
  remove : (memberId signer : Bytes32) →
    EStateM CgkaError Cgka (Option (Signed (CgkaOperation OpHash)))
  update : (newKey newSecret signer : Bytes32) →
    EStateM CgkaError (Cgka × Rng) (Signed (CgkaOperation OpHash))
  newAppSecretFor : (contentRef : Bytes32) → (content : Bytes) → (predRefs : List Bytes32) →
    (signer : Bytes32) →
    EStateM CgkaError (Cgka × Rng) (AppSecret × Option (Signed (CgkaOperation OpHash)))
  mergeConcurrentOperation : Signed (CgkaOperation OpHash) → EStateM CgkaError Cgka Bool
  decryptionKeyFor : Chunk OpHash → EStateM CgkaError Cgka Bytes32
  /-- `try_encrypt` of an application secret; `none` is a failure of the cipher. -/
  tryEncrypt : AppSecret → Bytes → Option (Chunk OpHash)
  /-- `try_decrypt` of a chunk; `none` is a failure of authentication. -/
  tryDecrypt : Chunk OpHash → (key : Bytes32) → Option Bytes

export Beekem (OpHash Cgka Rng opHash verifyOp graph shareKey)

instance [Beekem] : DecidableEq OpHash := Beekem.decEqOpHash

/-- A signed operation as it travels over the control plane. -/
abbrev ControlOp [Beekem] := Signed (CgkaOperation OpHash)

/-! ## Causal order -/

/-- A list of things that name earlier ones by hash, latest first, in which each
comes after those it names. -/
def CausalBy {α H : Type} (hash : α → H) (predecessors : α → List H) : List α → Prop
  | [] => True
  | a :: earlier =>
      CausalBy hash predecessors earlier ∧ ∀ h ∈ predecessors a, ∃ p ∈ earlier, hash p = h

theorem CausalBy.of_append {α H : Type} {hash : α → H} {predecessors : α → List H}
    {later earlier : List α} (h : CausalBy hash predecessors (later ++ earlier)) :
    CausalBy hash predecessors earlier := by
  induction later with
  | nil => exact h
  | cons a rest ih => exact ih h.1

section Causal

variable [Beekem]

/-- One operation causally precedes another: a chain of predecessor digests leads
from the later to the earlier. -/
inductive Before : ControlOp → ControlOp → Prop where
  | direct {a b : ControlOp} (h : opHash a ∈ b.payload.predecessors) : Before a b
  | step {a b c : ControlOp} (hab : Before a b) (h : opHash b ∈ c.payload.predecessors) :
      Before a c

/-- A list of operations, latest first, in which each comes after those it names. -/
abbrev CausalOrder : List ControlOp → Prop :=
  CausalBy opHash fun op => op.payload.predecessors

/-- The tree went from `g` to `g'` by taking in exactly these operations. -/
structure Grows (g g' : Cgka) (added : List ControlOp) : Prop where
  initAddOp : Beekem.initAddOp g' = Beekem.initAddOp g
  mem_graph : ∀ op, op ∈ graph g' ↔ op ∈ graph g ∨ op ∈ added

/-- A new operation of the holder of a signing key, naming the heads of the
graph: each of its predecessors is in the graph, and it comes after everything
there. -/
structure Minted (signer : Bytes32) (g : Cgka) (op : ControlOp) : Prop where
  issuer : op.issuer = signer
  verifies : verifyOp op = true
  fresh : op ∉ graph g
  predecessors : ∀ h ∈ op.payload.predecessors, ∃ p ∈ graph g, opHash p = h
  after : ∀ a ∈ graph g, Before a op

/-- The tree can key a chunk. -/
def Keyable (g : Cgka) : Prop :=
  ∀ ref content predRefs signer rng,
    ∃ r p, Beekem.newAppSecretFor ref content predRefs signer (g, rng) = .ok r p

end Causal

/-! ## Laws -/

/-- What the library's calls do to the operation graph. -/
class LawfulBeekem [Beekem] : Prop where
  opHash_injective : Function.Injective (opHash : ControlOp → OpHash)
  initAddOp_mem : ∀ g : Cgka, Beekem.initAddOp g ∈ graph g
  predecessors_mem : ∀ (g : Cgka), ∀ op ∈ graph g, ∀ h ∈ op.payload.predecessors,
    ∃ p ∈ graph g, opHash p = h
  containsPredecessors_iff : ∀ (g : Cgka) (hs : List OpHash),
    Beekem.containsPredecessors g hs = true ↔ ∀ h ∈ hs, ∃ p ∈ graph g, opHash p = h
  new_spec : ∀ (treeId memberId key signer : Bytes32) (g : Cgka),
    Beekem.new treeId memberId key signer = .ok g →
      graph g = {Beekem.initAddOp g} ∧
      (∃ detail, (Beekem.initAddOp g).payload = .add treeId memberId key [] detail) ∧
      (Beekem.initAddOp g).issuer = signer ∧ verifyOp (Beekem.initAddOp g) = true
  newFromInitAdd_spec : ∀ (treeId founderId pk : Bytes32) (init : ControlOp) (g : Cgka),
    Beekem.newFromInitAdd treeId founderId pk init = .ok g →
      graph g = {init} ∧ Beekem.initAddOp g = init
  insertOwnerSk_spec : ∀ (key secret : Bytes32) (g : Cgka),
    Grows g (Beekem.insertOwnerSk key secret g) []
  withNewOwner_spec : ∀ (memberId pk secret : Bytes32) (g g' : Cgka),
    Beekem.withNewOwner memberId pk secret g = .ok g' → Grows g g' []
  add_spec : ∀ (memberId key signer : Bytes32) (g : Cgka),
    Wp (Beekem.add memberId key signer)
      (fun op g' => Grows g g' op.toList ∧ ∀ o ∈ op, Minted signer g o ∧
        o.payload.added? = some memberId)
      (fun _ g' => Grows g g' []) g
  remove_spec : ∀ (memberId signer : Bytes32) (g : Cgka),
    Wp (Beekem.remove memberId signer)
      (fun op g' => Grows g g' op.toList ∧ ∀ o ∈ op, Minted signer g o ∧
        ∃ doc preds detail, o.payload = .remove doc memberId preds detail)
      (fun _ g' => Grows g g' []) g
  update_spec : ∀ (newKey newSecret signer : Bytes32) (g : Cgka) (rng : Rng),
    Wp (Beekem.update newKey newSecret signer)
      (fun op p => Grows g p.1 [op] ∧ Minted signer g op ∧
        ∃ doc preds detail, op.payload = .update doc preds detail)
      (fun _ p => Grows g p.1 []) (g, rng)
  newAppSecretFor_spec : ∀ (ref : Bytes32) (content : Bytes) (predRefs : List Bytes32)
    (signer : Bytes32) (g : Cgka) (rng : Rng),
    Wp (Beekem.newAppSecretFor ref content predRefs signer)
      (fun r p => Grows g p.1 r.2.toList ∧ ∀ o ∈ r.2, Minted signer g o ∧
        ∃ doc preds detail, o.payload = .update doc preds detail)
      (fun _ p => Grows g p.1 []) (g, rng)
  mergeConcurrentOperation_spec : ∀ (op : ControlOp) (g : Cgka),
    Wp (Beekem.mergeConcurrentOperation op)
      (fun applied g' =>
        if applied then op ∉ graph g ∧ Grows g g' [op] else op ∈ graph g ∧ Grows g g' [])
      (fun _ g' => Grows g g' []) g
  decryptionKeyFor_spec : ∀ (chunk : Chunk OpHash) (g : Cgka),
    Wp (Beekem.decryptionKeyFor chunk) (fun _ g' => Grows g g' [])
      (fun _ g' => Grows g g' []) g

/-- The calls a replay makes succeed: the graph sorts, an owner is installed, and
an operation whose predecessors are present merges. -/
class LiveBeekem [Beekem] : Prop extends LawfulBeekem where
  ops_spec : ∀ g : Cgka, ∃ epochs, Beekem.ops g = .ok epochs ∧ epochs.flatten.Nodup ∧
    (∀ op, op ∈ epochs.flatten ↔ op ∈ graph g) ∧ CausalOrder epochs.flatten.reverse
  newFromInitAdd_ok : ∀ (treeId founderId pk : Bytes32) (init : ControlOp) (detail : Nat),
    init.payload = .add treeId founderId pk [] detail →
      ∃ g, Beekem.newFromInitAdd treeId founderId pk init = .ok g
  withNewOwner_ok : ∀ (memberId pk secret : Bytes32) (g : Cgka),
    ∃ g', Beekem.withNewOwner memberId pk secret g = .ok g'
  mergeConcurrentOperation_ok : ∀ (op : ControlOp) (g : Cgka),
    (∀ h ∈ op.payload.predecessors, ∃ p ∈ graph g, opHash p = h) →
      ∃ applied g', Beekem.mergeConcurrentOperation op g = .ok applied g'

section Laws

variable [Beekem]

theorem Grows.refl (g : Cgka) : Grows g g [] := ⟨rfl, by simp⟩

theorem Grows.trans {g g' g'' : Cgka} {l l' : List ControlOp} (h : Grows g g' l)
    (h' : Grows g' g'' l') : Grows g g'' (l ++ l') := by
  refine ⟨h'.initAddOp.trans h.initAddOp, fun op => ?_⟩
  rw [h'.mem_graph, h.mem_graph, List.mem_append, or_assoc]

/-- The graph is closed under causal precedence. -/
theorem mem_graph_of_before [LawfulBeekem] {g : Cgka} {a b : ControlOp} (h : Before a b)
    (hb : ∀ h ∈ b.payload.predecessors, ∃ p ∈ graph g, opHash p = h) : a ∈ graph g := by
  induction h with
  | direct h =>
      obtain ⟨p, hp, hhash⟩ := hb _ h
      exact LawfulBeekem.opHash_injective hhash ▸ hp
  | step _ h ih =>
      obtain ⟨p, hp, hhash⟩ := hb _ h
      cases LawfulBeekem.opHash_injective hhash
      exact ih (LawfulBeekem.predecessors_mem g _ hp)

theorem Before.trans {a b c : ControlOp} (hab : Before a b) (hbc : Before b c) : Before a c := by
  induction hbc with
  | direct h => exact .step hab h
  | step _ h ih => exact .step ih h

theorem Before.predecessors_ne_nil {a b : ControlOp} (h : Before a b) :
    b.payload.predecessors ≠ [] := by
  cases h with
  | direct h => exact List.ne_nil_of_mem h
  | step _ h => exact List.ne_nil_of_mem h

end Laws

end IrohBeekem
