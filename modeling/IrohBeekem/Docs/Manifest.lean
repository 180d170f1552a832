import IrohBeekem.Docs.Loro
import IrohBeekem.Error

/-!
# The manifest

The workspace's directory index and its display data, kept in one replicated
document: files, users, devices, author claims, checkpoints and the workspace's
own name.  Nothing in it grants authority.

A method that writes is a program over the document; one that reads is a
function of it.  Every failure of the document library is `CoreError.manifest`
with the library's message.
-/

namespace IrohBeekem

open Library

variable [Beekem] [Loro] [Postcard]

structure UserRecord where
  id : Bytes32
  displayName : String
  deriving DecidableEq

structure DeviceDisplay where
  member : Bytes32
  endpointId : Option Bytes32
  label : String
  deriving DecidableEq

structure WorkspaceInfo where
  name : String
  description : String
  deriving DecidableEq

structure FileEntry where
  uuid : DocumentUuid
  logicalPath : String
  mimeType : String
  asset : Option AssetMeta
  deriving DecidableEq

/-- The manifest is one document. -/
abbrev Manifest := LoroDoc

namespace Manifest

/-- Run a call of the document library. -/
def call {α : Type} (x : EStateM String LoroDoc α) : EStateM CoreError Manifest α :=
  zoom id (fun d _ => d) CoreError.manifest x

def filesContainer : MapPath := .root "files"

def usersContainer : MapPath := .root "users"

def devicesContainer : MapPath := .root "devices"

def metaContainer : MapPath := .root "meta"

def authorsContainer : MapPath := .root "authors"

def checkpointsContainer : MapPath := .root "checkpoints"

def versionPrefix : String := "version:"

/-- A string under a key of a root map. -/
def stringAt (m : Manifest) (map : MapPath) (key : String) : Option String :=
  match Loro.get m map key with
  | some (.string value) => some value
  | _ => none

/-- A string field of a nested map. -/
def nestedField (m : Manifest) (name key field : String) : Option String :=
  match Loro.get m (.root name) key with
  | some .map => stringAt m (.nested name key) field
  | _ => none

/-! ## Display data -/

def setInfo (info : WorkspaceInfo) : EStateM CoreError Manifest Unit := do
  call (Loro.insert metaContainer "name" info.name)
  call (Loro.insert metaContainer "description" info.description)
  modify Loro.commit

def info (m : Manifest) : WorkspaceInfo where
  name := (stringAt m metaContainer "name").getD ""
  description := (stringAt m metaContainer "description").getD ""

def setUser (user : Bytes32) (displayName : String) : EStateM CoreError Manifest Unit := do
  call (Loro.insertContainer "users" (hex user.toBytes))
  call (Loro.insert (.nested "users" (hex user.toBytes)) "display_name" displayName)
  modify Loro.commit

def user (m : Manifest) (user : Bytes32) : Option UserRecord :=
  (nestedField m "users" (hex user.toBytes) "display_name").map fun displayName =>
    ⟨user, displayName⟩

def users (m : Manifest) : List UserRecord :=
  (Loro.keys m usersContainer).filterMap fun key => (unhex32 key).bind m.user

def setDevice (member : Bytes32) (label : String) : EStateM CoreError Manifest Unit := do
  call (Loro.insertContainer "devices" (hex member.toBytes))
  call (Loro.insert (.nested "devices" (hex member.toBytes)) "label" label)
  modify Loro.commit

/-- Attach a transport address to a device that has a record. -/
def setDeviceEndpoint (member endpointId : Bytes32) : EStateM CoreError Manifest Unit := do
  let m ← get
  match Loro.get m devicesContainer (hex member.toBytes) with
  | some .map =>
      call (Loro.insert (.nested "devices" (hex member.toBytes)) "endpoint_id"
        (hex endpointId.toBytes))
      modify Loro.commit
  | _ => throw .unknownDevice

/-- A device has a record if either field of it is there. -/
def device (m : Manifest) (member : Bytes32) : Option DeviceDisplay :=
  let label := nestedField m "devices" (hex member.toBytes) "label"
  let endpointId := (nestedField m "devices" (hex member.toBytes) "endpoint_id").bind unhex32
  if label.isNone ∧ endpointId.isNone then none
  else some ⟨member, endpointId, label.getD ""⟩

def devices (m : Manifest) : List DeviceDisplay :=
  (Loro.keys m devicesContainer).filterMap fun key => (unhex32 key).bind m.device

def setAuthor (member author : Bytes32) : EStateM CoreError Manifest Unit := do
  call (Loro.insert authorsContainer (hex author.toBytes) (hex member.toBytes))
  modify Loro.commit

def memberForAuthor (m : Manifest) (author : Bytes32) : Option Bytes32 :=
  (stringAt m authorsContainer (hex author.toBytes)).bind unhex32

/-! ## Files -/

/-- Make sure an entry has a map of its own. -/
def fileNode (uuid : DocumentUuid) : EStateM CoreError Manifest Unit := do
  let m ← get
  match Loro.get m filesContainer (hex uuid.toBytes) with
  | some .map => return ()
  | some .container => throw (.manifest "files entry is not a map")
  | _ => call (Loro.insertContainer "files" (hex uuid.toBytes))

/-- The versions an entry records; an unreadable one is left out. -/
def recordedVersions (m : Manifest) (uuid : DocumentUuid) : List AssetVersion :=
  let key := hex uuid.toBytes
  match Loro.get m filesContainer key with
  | some .map =>
      (Loro.keys m (.nested "files" key)).filterMap fun field =>
        if field.startsWith versionPrefix then
          ((stringAt m (.nested "files" key) field).bind unhex).bind Postcard.decodeVersion
        else none
  | _ => []

/-- The shape of an asset written before there were versions. -/
def legacyAsset (m : Manifest) (uuid : DocumentUuid) : Option AssetMeta :=
  ((nestedField m "files" (hex uuid.toBytes) "asset").bind unhex).bind Postcard.decodeMeta

/-- Every version of an asset, oldest first. -/
def assetVersions (m : Manifest) (uuid : DocumentUuid) : List AssetVersion :=
  let recorded := recordedVersions m uuid
  let versions :=
    if recorded.isEmpty then
      ((legacyAsset m uuid).map fun assetMeta =>
        ({ content := uuid, assetMeta, author := 0, date := 0, seq := 0 } : AssetVersion)).toList
    else recorded
  versions.mergeSort fun a b => a.precedence ≤ b.precedence

def addAssetVersion (uuid : DocumentUuid) (version : AssetVersion) :
    EStateM CoreError Manifest Unit := do
  let m ← get
  if (Loro.get m filesContainer (hex uuid.toBytes)).isNone then throw .unknownDocument
  else
    fileNode uuid
    call (Loro.insert (.nested "files" (hex uuid.toBytes))
      (versionPrefix ++ hex version.digest.toBytes) (hex (Postcard.encodeVersion version)))
    modify Loro.commit

def upsertFile (entry : FileEntry) : EStateM CoreError Manifest Unit := do
  let node := MapPath.nested "files" (hex entry.uuid.toBytes)
  fileNode entry.uuid
  call (Loro.insert node "logical_path" entry.logicalPath)
  call (Loro.insert node "mime_type" entry.mimeType)
  match entry.asset with
  | none => pure ()
  | some assetMeta => call (Loro.insert node "asset" (hex (Postcard.encodeMeta assetMeta)))
  modify Loro.commit

def rename (uuid : DocumentUuid) (newPath : String) : EStateM CoreError Manifest Unit := do
  let m ← get
  match Loro.get m filesContainer (hex uuid.toBytes) with
  | some .map =>
      call (Loro.insert (.nested "files" (hex uuid.toBytes)) "logical_path" newPath)
      modify Loro.commit
  | some .container => throw (.manifest "files entry is not a map")
  | _ => throw .unknownDocument

def deleteFile (uuid : DocumentUuid) : EStateM CoreError Manifest Unit := do
  let m ← get
  if (Loro.get m filesContainer (hex uuid.toBytes)).isNone then throw .unknownDocument
  else
    call (Loro.delete filesContainer (hex uuid.toBytes))
    modify Loro.commit

/-- The last of the versions of greatest precedence, as `max_by_key` picks it. -/
def currentVersion : List AssetVersion → Option AssetVersion
  | [] => none
  | v :: rest =>
      some (rest.foldl (fun best w => if best.precedence ≤ w.precedence then w else best) v)

/-- Every file the manifest lists. -/
def files (m : Manifest) : List FileEntry :=
  (Loro.keys m filesContainer).filterMap fun key =>
    match unhex16 key, Loro.get m filesContainer key with
    | some uuid, some .map =>
        let field (name : String) : String := (stringAt m (.nested "files" key) name).getD ""
        let legacy : Option AssetMeta :=
          if field "asset" = "" then none
          else (unhex (field "asset")).bind Postcard.decodeMeta
        let asset : Option AssetMeta :=
          ((currentVersion (recordedVersions m uuid)).map AssetVersion.assetMeta).or legacy
        some ⟨uuid, field "logical_path", field "mime_type", asset⟩
    | _, _ => none

/-! ## Checkpoints -/

def addCheckpoint (checkpoint : Checkpoint) : EStateM CoreError Manifest Unit := do
  call (Loro.insert checkpointsContainer (hex checkpoint.digest.toBytes)
    (hex (Postcard.encodeCheckpoint checkpoint)))
  modify Loro.commit

/-- Every checkpoint, newest first, ties by digest. -/
def checkpoints (m : Manifest) : List Checkpoint :=
  let decoded := (Loro.keys m checkpointsContainer).filterMap fun key =>
    ((stringAt m checkpointsContainer key).bind unhex).bind Postcard.decodeCheckpoint
  decoded.mergeSort fun a b =>
    (toLex (b.date, b.digest) : UnixSeconds ×ₗ Bytes32) ≤ toLex (a.date, a.digest)

def checkpoint (m : Manifest) (digest : Bytes32) : Option Checkpoint :=
  m.checkpoints.find? fun c => c.digest = digest

/-! ## Replication -/

/-- The whole manifest, for storage; committing comes first. -/
def exportSnapshot : EStateM CoreError Manifest Bytes := do
  modify Loro.commit
  let m ← get
  verdict ((Loro.exportAs .snapshot m).mapError CoreError.manifest)

/-- Merge another replica's manifest. -/
def importBytes (bytes : Bytes) : EStateM CoreError Manifest Unit := do
  let _ ← call (Loro.importBytes bytes)

end Manifest

end IrohBeekem
