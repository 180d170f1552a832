import Mathlib.Data.List.AList
import IrohBeekem.Docs.Decoders
import IrohBeekem.Facade.Invite
import IrohBeekem.Library.Interrupted

/-!
# The store on disk

A persistent node keeps its endpoint key, the ledger of spent invites, the log of pending
assets and a snapshot of every workspace in files under one root.  Each file is replaced as
a whole: the bytes are written beside it under a temporary name, made private, and renamed
into place.

Any call on the file system can fail, and the process can be gone in the middle of one.
What the final names hold then is the subject of the next module.
-/

set_option linter.unusedSectionVars false

namespace IrohBeekem

open Library

/-! ## Files -/

/-- A path under the root: the directory, and the name with its extension. -/
structure Path where
  dir : Option String
  stem : String
  ext : Option String
  deriving DecidableEq

namespace Path

/-- `Path::with_extension`. -/
def withExtension (p : Path) (ext : String) : Path := { p with ext := some ext }

/-- How a path is shown. -/
def display (p : Path) (root : String) : String :=
  root ++ "/" ++ ((p.dir.map fun dir => dir ++ "/").getD "") ++ p.stem ++
    (p.ext.map fun ext => "." ++ ext).getD ""

end Path

structure File where
  bytes : Bytes
  /-- Only the owner may read it. -/
  ownerOnly : Bool
  deriving DecidableEq

/-- Files by their paths, in the order the file system enumerates them. -/
abbrev Files := AList fun _ : Path => File

/-- Files, and what becomes of the calls to come. -/
structure Disk where
  files : Files
  outcomes : List Outcome

inductive IoError where
  | notFound
  | other (text : String)
  deriving DecidableEq

/-- How an error is shown. -/
def IoError.display : IoError → String
  | .notFound => "No such file or directory (os error 2)"
  | .other text => text

/-- A call on the file system: what it does, what it has done to the files if it fails on the
way, and what it has done if the process is gone. -/
def sysCall {α : Type} (done : Files → Except IoError (α × Files))
    (fails gone : Nat → Files → Files) : EStateM (Halt IoError) Disk α := fun d =>
  match d.outcomes with
  | [] | .done :: _ =>
      match done d.files with
      | .ok (a, files) => .ok a ⟨files, d.outcomes.tail⟩
      | .error e => .error (.failed e) ⟨d.files, d.outcomes.tail⟩
  | .fails text reach :: rest =>
      .error (.failed (.other text)) ⟨(reach.map fun n => fails n d.files).getD d.files, rest⟩
  | .cut reach :: rest =>
      .error .cut ⟨(reach.map fun n => gone n d.files).getD d.files, rest⟩

namespace Fs

/-- `std::fs::read`. -/
def read (path : Path) : EStateM (Halt IoError) Disk Bytes :=
  sysCall (fun files => match files.lookup path with
    | some file => .ok (file.bytes, files)
    | none => .error .notFound) (fun _ => id) (fun _ => id)

/-- A file is created or truncated and filled; one that exists keeps its permissions. -/
def put (path : Path) (bytes : Bytes) (files : Files) : Files :=
  files.insert path ⟨bytes, ((files.lookup path).map File.ownerOnly).getD false⟩

/-- `std::fs::write`, which may come part of the way. -/
def write (path : Path) (bytes : Bytes) : EStateM (Halt IoError) Disk Unit :=
  sysCall (fun files => .ok ((), put path bytes files)) (fun n => put path (bytes.take n))
    (fun n => put path (bytes.take n))

def secured (path : Path) (files : Files) : Files :=
  match files.lookup path with
  | some file => files.insert path { file with ownerOnly := true }
  | none => files

/-- `std::fs::set_permissions` to `0o600`. -/
def secure (path : Path) : EStateM (Halt IoError) Disk Unit :=
  sysCall (fun files =>
    if (files.lookup path).isSome then .ok ((), secured path files) else .error .notFound)
    (fun _ => id) (fun _ => secured path)

def moved (tmp path : Path) (files : Files) : Files :=
  match files.lookup tmp with
  | some file => (files.erase tmp).insert path file
  | none => files

/-- `std::fs::rename`. -/
def rename (tmp path : Path) : EStateM (Halt IoError) Disk Unit :=
  sysCall (fun files =>
    if (files.lookup tmp).isSome then .ok ((), moved tmp path files) else .error .notFound)
    (fun _ => id) (fun _ => moved tmp path)

/-- `std::fs::remove_file`. -/
def removeFile (path : Path) : EStateM (Halt IoError) Disk Unit :=
  sysCall (fun files =>
    if (files.lookup path).isSome then .ok ((), files.erase path) else .error .notFound)
    (fun _ => id) (fun _ => AList.erase path)

/-- `std::fs::read_dir`. -/
def readDir (dir : String) : EStateM (Halt IoError) Disk (List Path) :=
  sysCall (fun files => .ok (files.keys.filter fun path => path.dir = some dir, files))
    (fun _ => id) (fun _ => id)

end Fs

/-! ## The store -/

/-- A snapshot of a workspace, and the replica the workspace is on. -/
structure WorkspaceRecord where
  core : Bytes
  namespaceId : Bytes32
  deriving DecidableEq

/-- A tree, with an invite's nonce or an asset's id. -/
abbrev TreePair := Bytes32 × Bytes16

/-- How the files are encoded. -/
class StoreCodec where
  encodePairs : List TreePair → Except String Bytes
  decodePairs : Bytes → Option (List TreePair)
  encodeRecord : WorkspaceRecord → Except String Bytes
  decodeRecord : Bytes → Except String WorkspaceRecord

/-- What is encoded is decoded. -/
class LawfulStoreCodec [StoreCodec] : Prop where
  decodePairs_encode : ∀ (pairs : List TreePair) (bytes : Bytes),
    StoreCodec.encodePairs pairs = .ok bytes → StoreCodec.decodePairs bytes = some pairs
  decodeRecord_encode : ∀ (record : WorkspaceRecord) (bytes : Bytes),
    StoreCodec.encodeRecord record = .ok bytes → StoreCodec.decodeRecord bytes = .ok record

/-- An order in which hash sets of pairs are enumerated. -/
structure PairOrder where
  iter : Finset TreePair → List TreePair
  mem_iter : ∀ set pair, pair ∈ iter set ↔ pair ∈ set

/-- The root directory of a persistent node. -/
structure Store where
  root : String

/-- A failure on the disk is one of storage. -/
def storageError {α : Type} (message : IoError → String) (x : EStateM (Halt IoError) Disk α) :
    EStateM (Halt WorkspaceError) Disk α := fun d =>
  match x d with
  | .ok a d' => .ok a d'
  | .error (.failed e) d' => .error (.failed (.storage (message e))) d'
  | .error .cut d' => .error .cut d'

namespace Store

def workspacesDir : String := "workspaces"

def endpointKeyPath : Path := ⟨none, "endpoint", some "key"⟩

def redeemedPath : Path := ⟨none, "redeemed", none⟩

def pendingAssetsPath : Path := ⟨none, "pending-assets", none⟩

def snapshotExt : String := "snapshot"

/-- Where a workspace's snapshot lives. -/
def workspacePath (treeId : Bytes32) : Path :=
  ⟨some workspacesDir, hex treeId.toBytes, some snapshotExt⟩

variable (store : Store)

/-- Write a file as a whole, readable by its owner only. -/
def writePrivate (path : Path) (bytes : Bytes) : EStateM (Halt WorkspaceError) Disk Unit := do
  let tmp := path.withExtension "tmp"
  storageError (fun e => "writing " ++ tmp.display store.root ++ ": " ++ e.display)
    (Fs.write tmp bytes)
  storageError (fun e => "securing " ++ tmp.display store.root ++ ": " ++ e.display)
    (Fs.secure tmp)
  storageError (fun e => "replacing " ++ path.display store.root ++ ": " ++ e.display)
    (Fs.rename tmp path)

/-- Read a file that need not be there. -/
def readIfThere (path : Path) : EStateM (Halt WorkspaceError) Disk (Option Bytes) := do
  match ← recover (Fs.read path) with
  | .ok bytes => return some bytes
  | .error .notFound => return none
  | .error e =>
      throw (.failed (.storage ("reading " ++ path.display store.root ++ ": " ++ e.display)))

/-- The node's secret key; one is generated and stored if there is none. -/
def endpointKey (generated : Bytes32) : EStateM (Halt WorkspaceError) Disk Bytes32 := do
  match ← store.readIfThere endpointKeyPath with
  | some bytes =>
      match bytes32? bytes with
      | some key => return key
      | none => throw (.failed (.storage (endpointKeyPath.display store.root ++
          " is not a 32-byte secret key; refusing to bind a different " ++
          "endpoint identity than the one this node is known by")))
  | none =>
      store.writePrivate endpointKeyPath generated.toBytes
      return generated

variable [StoreCodec]

/-- What does not decode is an empty set. -/
def pairsOf : Option Bytes → Finset TreePair
  | some bytes => ((StoreCodec.decodePairs bytes).getD []).toFinset
  | none => ∅

/-- Read a set of pairs. -/
def loadPairs (path : Path) : EStateM (Halt WorkspaceError) Disk (Finset TreePair) := do
  let bytes ← store.readIfThere path
  return pairsOf bytes

/-- Write a set of pairs. -/
def storePairs (what : String) (path : Path) (order : PairOrder) (pairs : Finset TreePair) :
    EStateM (Halt WorkspaceError) Disk Unit := do
  let bytes ← verdict ((StoreCodec.encodePairs (order.iter pairs)).mapError fun e =>
    .failed (.storage ("encoding " ++ what ++ ": " ++ e)))
  store.writePrivate path bytes

/-- The invite nonces spent so far. -/
def loadRedeemed : EStateM (Halt WorkspaceError) Disk (Finset TreePair) :=
  store.loadPairs redeemedPath

def storeRedeemed (order : PairOrder) (redeemed : Finset TreePair) :
    EStateM (Halt WorkspaceError) Disk Unit :=
  store.storePairs "the invite ledger" redeemedPath order redeemed

/-- The assets that are being written. -/
def loadPendingAssets : EStateM (Halt WorkspaceError) Disk (Finset TreePair) :=
  store.loadPairs pendingAssetsPath

def storePendingAssets (order : PairOrder) (pending : Finset TreePair) :
    EStateM (Halt WorkspaceError) Disk Unit :=
  store.storePairs "the pending-asset log" pendingAssetsPath order pending

/-- Write one workspace's snapshot. -/
def storeWorkspace (treeId : Bytes32) (record : WorkspaceRecord) :
    EStateM (Halt WorkspaceError) Disk Unit := do
  let bytes ← verdict ((StoreCodec.encodeRecord record).mapError fun e =>
    .failed (.storage ("encoding a workspace snapshot: " ++ e)))
  store.writePrivate (workspacePath treeId) bytes

/-- Read one workspace's snapshot. -/
def loadWorkspace (treeId : Bytes32) :
    EStateM (Halt WorkspaceError) Disk (Option WorkspaceRecord) := do
  match ← store.readIfThere (workspacePath treeId) with
  | none => return none
  | some bytes =>
      match StoreCodec.decodeRecord bytes with
      | .ok record => return some record
      | .error e => throw (.failed (.storage
          ("decoding " ++ (workspacePath treeId).display store.root ++ ": " ++ e)))

/-- The tree a file is the snapshot of, by its name. -/
def treeOf (path : Path) : Option Bytes32 :=
  if path.ext = some snapshotExt then Sliced.storeUnhex path.stem else none

/-- The workspaces there are snapshots of. -/
def listWorkspaces : EStateM (Halt WorkspaceError) Disk (List Bytes32) := do
  let paths ← storageError
    (fun e => "listing " ++ store.root ++ "/" ++ workspacesDir ++ ": " ++ e.display)
    (Fs.readDir workspacesDir)
  return (paths.filterMap treeOf).mergeSort fun a b => a ≤ b

/-- Forget one workspace's snapshot. -/
def removeWorkspace (treeId : Bytes32) : EStateM (Halt WorkspaceError) Disk Unit := do
  match ← recover (Fs.removeFile (workspacePath treeId)) with
  | .ok () => return ()
  | .error .notFound => return ()
  | .error e => throw (.failed (.storage
      ("removing " ++ (workspacePath treeId).display store.root ++ ": " ++ e.display)))

end Store

/-! ## Calls on the file system -/

section Calls

variable {α : Type} {d : Disk} {done : Files → Except IoError (α × Files)}
  {fails gone : Nat → Files → Files}

/-- A call is done or meets an error of its own, fails on the way, or is cut off. -/
theorem wp_sysCall (P : α → Files → Prop) (F : Halt IoError → Files → Prop)
    (hdone : ∀ a files, done d.files = .ok (a, files) → P a files)
    (herror : ∀ e, (done d.files = .error e ∨ ∃ text, e = .other text) → F (.failed e) d.files)
    (hfails : ∀ text n, F (.failed (.other text)) (fails n d.files))
    (hcut : F .cut d.files) (hgone : ∀ n, F .cut (gone n d.files)) :
    Wp (sysCall done fails gone) (fun a d' => P a d'.files) (fun halt d' => F halt d'.files) d := by
  have hwhole : Wp (fun d : Disk => match done d.files with
      | .ok (a, files) => (EStateM.Result.ok a ⟨files, d.outcomes.tail⟩ :
          EStateM.Result (Halt IoError) Disk α)
      | .error e => .error (.failed e) ⟨d.files, d.outcomes.tail⟩)
      (fun a d' => P a d'.files) (fun halt d' => F halt d'.files) d := by
    unfold Wp
    dsimp only
    cases hrun : done d.files with
    | ok r => exact hdone r.1 r.2 hrun
    | error e => exact herror e (Or.inl hrun)
  obtain ⟨files, outcomes⟩ := d
  cases outcomes with
  | nil => exact hwhole
  | cons outcome rest =>
      cases outcome with
      | done => exact hwhole
      | fails text reach =>
          cases reach with
          | none => exact herror _ (Or.inr ⟨text, rfl⟩)
          | some n => exact hfails text n
      | cut reach =>
          cases reach with
          | none => exact hcut
          | some n => exact hgone n

/-- Failures are renamed. -/
theorem wp_storageError {x : EStateM (Halt IoError) Disk α} {message : IoError → String}
    {Q : α → Disk → Prop} {E : Halt WorkspaceError → Disk → Prop} :
    Wp (storageError message x) Q E d ↔ Wp x Q
      (fun halt d' => match halt with
        | .failed e => E (.failed (.storage (message e))) d'
        | .cut => E .cut d') d := by
  unfold Wp storageError
  cases x d with
  | ok a d' => rfl
  | error halt d' =>
      cases halt with
      | failed e => rfl
      | cut => rfl

end Calls

end IrohBeekem
