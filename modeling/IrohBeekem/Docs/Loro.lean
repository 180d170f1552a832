import IrohBeekem.Keys.Beekem

/-!
# Documents

A workspace's documents and its manifest are replicas of the document library
the source uses.  `Loro` is the part of that library the core calls: maps of
strings nested one level deep, one text, commits, exports and imports.  A call
that can fail is a program over the document, since a failed call may have
changed it.

The bytes a record is stored under are hexadecimal text, written and read here
as the source does, and its own bytes are an encoding the source takes from a
library (`Postcard`).
-/

namespace IrohBeekem

/-! ## Bytes and text -/

/-- The big-endian bytes of a number, as many as asked for. -/
def beBytes (width value : Nat) : Bytes :=
  (List.range width).reverse.map fun i => UInt8.ofNat (value / 256 ^ i)

/-- The number that big-endian bytes spell. -/
def ofBeBytes (bytes : Bytes) : Nat := bytes.foldl (fun n b => n * 256 + b.toNat) 0

/-- The thirty-two bytes of a key or an id. -/
def Bytes32.toBytes (x : Bytes32) : Bytes := beBytes 32 x.val

/-- The sixteen bytes of a nonce or a document id. -/
def Bytes16.toBytes (x : Bytes16) : Bytes := beBytes 16 x.val

/-- `<[u8; 32]>::try_from`. -/
def bytes32? (bytes : Bytes) : Option Bytes32 :=
  if bytes.length = 32 then some (Fin.ofNat _ (ofBeBytes bytes)) else none

/-- `<[u8; 16]>::try_from`. -/
def bytes16? (bytes : Bytes) : Option Bytes16 :=
  if bytes.length = 16 then some (Fin.ofNat _ (ofBeBytes bytes)) else none

/-- The ASCII code of a hexadecimal digit. -/
def hexDigit (n : Nat) : Char := Char.ofNat (if n < 10 then 48 + n else 87 + n)

/-- Lower-case hexadecimal text. -/
def hex (bytes : Bytes) : String :=
  String.ofList (bytes.flatMap fun b => [hexDigit (b.toNat / 16), hexDigit (b.toNat % 16)])

/-- The value of a hexadecimal digit in either case. -/
def unhexDigit (b : UInt8) : Option Nat :=
  if 48 ≤ b ∧ b ≤ 57 then some (b.toNat - 48)
  else if 97 ≤ b ∧ b ≤ 102 then some (b.toNat - 87)
  else if 65 ≤ b ∧ b ≤ 70 then some (b.toNat - 55)
  else none

/-- `u8::from_str_radix` on two bytes of text.  A leading plus sign is one the
library accepts. -/
def fromStrRadix (a b : UInt8) : Option UInt8 :=
  if a = 43 then (unhexDigit b).map UInt8.ofNat
  else
    match unhexDigit a, unhexDigit b with
    | some x, some y => some (UInt8.ofNat (x * 16 + y))
    | _, _ => none

/-- Read text two bytes at a time.  Where a pair cuts through a character the
source does not return; such a pair is no digit here. -/
def unhexPairs : Bytes → Option Bytes
  | [] => some []
  | [_] => none
  | a :: b :: rest =>
      match fromStrRadix a b, unhexPairs rest with
      | some x, some xs => some (x :: xs)
      | _, _ => none

def unhex (raw : String) : Option Bytes := unhexPairs raw.toUTF8.data.toList

def unhex16 (raw : String) : Option Bytes16 := (unhex raw).bind bytes16?

def unhex32 (raw : String) : Option Bytes32 := (unhex raw).bind bytes32?

/-! ## The document library -/

/-- What a map holds under a key. -/
inductive LoroEntry where
  | string (value : String)
  /-- A value that is not a string. -/
  | value
  /-- A nested map. -/
  | map
  /-- A nested container that is not a map. -/
  | container
  deriving DecidableEq

/-- Which map a call is about: a root one, or one nested in it. -/
inductive MapPath where
  | root (name : String)
  | nested (name key : String)
  deriving DecidableEq

inductive ExportMode where
  | snapshot
  | allUpdates
  /-- The operations a version vector does not cover. -/
  | updates (since : Bytes)
  deriving DecidableEq

/-- The calls the core makes into the document library. -/
class Loro where
  /-- A replica, with its pending operations. -/
  LoroDoc : Type
  new : LoroDoc
  setChangeMergeInterval : Int → LoroDoc → LoroDoc
  peerId : LoroDoc → U64
  get : LoroDoc → MapPath → String → Option LoroEntry
  /-- The keys `for_each` visits, in the order it does. -/
  keys : LoroDoc → MapPath → List String
  insert : (map : MapPath) → (key value : String) → EStateM String LoroDoc Unit
  /-- A new nested map, which replaces what the key held. -/
  insertContainer : (name key : String) → EStateM String LoroDoc Unit
  delete : (map : MapPath) → (key : String) → EStateM String LoroDoc Unit
  commit : LoroDoc → LoroDoc
  /-- `commit_with` a timestamp. -/
  commitWith : Int → LoroDoc → LoroDoc
  /-- The text container named `content`. -/
  text : LoroDoc → String
  lenUnicode : LoroDoc → Nat
  insertText : (pos : Nat) → String → EStateM String LoroDoc Unit
  deleteText : (pos len : Nat) → EStateM String LoroDoc Unit
  updateText : String → EStateM String LoroDoc Unit
  exportAs : ExportMode → LoroDoc → Except String Bytes
  /-- Merge an export; whether operations it depends on are missing. -/
  importBytes : Bytes → EStateM String LoroDoc Bool
  /-- The encoded version vector of the operation log. -/
  oplogVv : LoroDoc → Bytes
  /-- Whether bytes decode as a version vector. -/
  decodesVv : Bytes → Bool
  /-- The encoded frontiers of the operation log. -/
  oplogFrontiers : LoroDoc → Bytes
  /-- Whether bytes decode as frontiers. -/
  decodesFrontiers : Bytes → Bool
  revertTo : Bytes → EStateM String LoroDoc Unit

export Loro (LoroDoc)

/-! ## Records that are stored encoded -/

/-- Seconds since the epoch, which may be negative. -/
abbrev UnixSeconds := Int

/-- A document, by the random id it is known under. -/
abbrev DocumentUuid := Bytes16

/-- The state of a document: the encoding of its frontiers. -/
abbrev VersionId := Bytes

/-- The shape of an asset's payload. -/
structure AssetMeta where
  size : U64
  segments : U64
  segmentBytes : U32
  contentHash : Bytes32
  deriving DecidableEq

/-- One version of an asset entry. -/
structure AssetVersion where
  /-- The key space its payload is under. -/
  content : DocumentUuid
  assetMeta : AssetMeta
  author : Bytes32
  date : UnixSeconds
  seq : U64
  deriving DecidableEq

/-- A named state of the workspace. -/
structure Checkpoint where
  name : String
  message : String
  author : Bytes32
  date : UnixSeconds
  entries : List (DocumentUuid × VersionId)
  deriving DecidableEq

/-- The encoding of the three kinds of record. -/
class Postcard where
  encodeMeta : AssetMeta → Bytes
  decodeMeta : Bytes → Option AssetMeta
  encodeVersion : AssetVersion → Bytes
  decodeVersion : Bytes → Option AssetVersion
  encodeCheckpoint : Checkpoint → Bytes
  decodeCheckpoint : Bytes → Option Checkpoint

/-- A version id as it is shown: its first six bytes. -/
def VersionId.display (v : VersionId) : String :=
  hex (v.take 6) ++ if 6 < v.length then ".." else ""

section Digests

variable [Beekem] [Postcard]

def AssetVersion.digest (v : AssetVersion) : Bytes32 :=
  Beekem.hashBytes (Postcard.encodeVersion v)

def Checkpoint.digest (c : Checkpoint) : Bytes32 :=
  Beekem.hashBytes (Postcard.encodeCheckpoint c)

end Digests

/-- The order of an asset's versions: the generation, then the date, then the
content id. -/
def AssetVersion.precedence (v : AssetVersion) : U64 ×ₗ UnixSeconds ×ₗ DocumentUuid :=
  toLex (v.seq, toLex (v.date, v.content))

end IrohBeekem
