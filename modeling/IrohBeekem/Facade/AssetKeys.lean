import IrohBeekem.Facade.Invite
import IrohBeekem.Library.First
import IrohBeekem.State.Books
import IrohBeekem.State.Members

/-!
# The keys of assets

The content key of an asset lies in the index, sealed in a chunk, and whoever answers a
repair puts a chunk of its own beside those that are there: the index keeps an entry for
each author.  `fetch_indexed_bytes` reads one of them, the first in the index's order of
the authors, both for a reader and for whoever answers a repair.  So a key is got at
exactly when the first entry is one that can be decrypted, and no number of repairs under
later authors makes a difference (`openAssetKey_effective_iff`).
-/

set_option linter.unusedSectionVars false

namespace IrohBeekem

open Library CgkaController WorkspaceState

/-- The decoding of the chunks that are stored as blobs. -/
class ChunkWire [Beekem] where
  decodeChunk : Bytes → Option (Chunk OpHash)

export ChunkWire (decodeChunk)

/-- The index and the blobs, as a node meets them. -/
structure Backend (Author : Type) [LinearOrder Author] where
  /-- The entries under each key: the hash that each author's names. -/
  entries : Bytes32 → BTreeMap Author Bytes32
  /-- The blobs at hand. -/
  blobs : Bytes32 → Option Bytes
  /-- The blob with this hash, after these peers have been asked for it. -/
  download : List Bytes32 → Bytes32 → Option Bytes

/-- What opening the key of an asset can fail with. -/
inductive AssetKeyError where
  | core (err : CoreError)
  | assetKeyUnavailable
  | corruptAsset
  deriving DecidableEq

namespace Backend

variable {Author : Type} [LinearOrder Author]

/-- The entry a query for one entry under a key returns. -/
def getOne (b : Backend Author) (key : Bytes32) : Option (Author × Bytes32) :=
  (b.entries key).first?

/-- The index once these entries have come in under a key, each in the place of the one
its author had there. -/
def landed (b : Backend Author) (key : Bytes32) (added : List (Author × Bytes32)) :
    Backend Author :=
  { b with entries := Function.update b.entries key (added.foldl Keyed.insert (b.entries key)) }

end Backend

variable [Keyhive] [Beekem] [Loro] [Postcard] [ChunkWire] {Author : Type} [LinearOrder Author]

/-! ## Reading the index -/

namespace Inner

/-- The blob of an entry, which the devices on the roster are asked for if it is not at
hand. -/
def fetchBlob (inner : Inner) (s : WorkspaceState) (b : Backend Author) (hash : Bytes32) :
    Option Bytes :=
  match b.blobs hash with
  | some bytes => some bytes
  | none =>
      let peers := s.roster.filter fun peer => Keyhive.isPoint peer && peer ≠ inner.endpointId
      if peers = [] then none else b.download peers hash

/-- The bytes behind the entry under a key. -/
def fetchIndexedBytes (inner : Inner) (s : WorkspaceState) (b : Backend Author) (key : Bytes32) :
    Option Bytes :=
  match b.getOne key with
  | none => none
  | some entry => inner.fetchBlob s b entry.2

/-- Fetch and unwrap an asset's content key.  The second part is the repair that is asked
for.  The lock is taken for the roster, which is of the state `s`, and again to unwrap, in
the state of `p`. -/
def openAssetKey (inner : Inner) (b : Backend Author) (asset : DocumentUuid)
    (s : WorkspaceState) (p : WorkspaceState × Rng) :
    Except AssetKeyError Bytes32 × Option (RepairTarget × Bytes32) :=
  match inner.fetchIndexedBytes s b (WorkspaceSecret.assetKeyKey inner.secret asset) with
  | none => (.error .assetKeyUnavailable, none)
  | some bytes =>
      match decodeChunk bytes with
      | none => (.error (.core .serialization), none)
      | some chunk =>
          match WorkspaceState.openAssetKey chunk p with
          | .ok (.ready key) _ => (.ok key, none)
          | .ok .unreachable _ =>
              (.error .assetKeyUnavailable, some (.assetKey asset, epochId chunk))
          | .ok .awaitingKey _ => (.error .assetKeyUnavailable, none)
          | .ok .corrupt _ => (.error .corruptAsset, none)
          | .error err _ => (.error (.core err), none)

/-- Fetch the key chunk of an asset and seal the key anew, for a member that asks.  A
rejection is logged and has no effects. -/
def answerAssetKeyRepair (inner : Inner) (b : Backend Author) (requester : Bytes32)
    (asset : DocumentUuid) (s : WorkspaceState) (p : WorkspaceState × Rng) :
    List Effect × (WorkspaceState × Rng) :=
  match inner.fetchIndexedBytes s b (WorkspaceSecret.assetKeyKey inner.secret asset) with
  | none => ([], p)
  | some bytes =>
      match decodeChunk bytes with
      | none => ([], p)
      | some chunk =>
          match WorkspaceState.resealAssetKey requester asset chunk p with
          | .ok effects p' => (effects, p')
          | .error _ p' => ([], p')

end Inner

/-! ## What is read -/

section Reading

variable (inner : Inner) (b : Backend Author) (asset : DocumentUuid) (s : WorkspaceState)
  (p : WorkspaceState × Rng)

/-- The blob of an entry is a key chunk that this node decrypts, to this key. -/
def Inner.Decrypts (key hash : Bytes32) : Prop :=
  ∃ bytes chunk p', inner.fetchBlob s b hash = some bytes ∧ decodeChunk bytes = some chunk ∧
    WorkspaceState.openAssetKey chunk p = .ok (.ready key) p'

/-- The entries that may hold the key of an asset. -/
def Inner.keyEntries : BTreeMap Author Bytes32 :=
  b.entries (WorkspaceSecret.assetKeyKey inner.secret asset)

/-- Some entry at the asset's key holds its content key, and this node can decrypt it. -/
def Inner.Recoverable (key : Bytes32) : Prop :=
  ∃ entry ∈ inner.keyEntries b asset, inner.Decrypts b s p key entry.2

variable {inner b asset s p} {key : Bytes32}

/-- Opening succeeds with what the first entry decrypts to. -/
theorem openAssetKey_eq_ok :
    (inner.openAssetKey b asset s p).1 = .ok key ↔
      ∃ entry, (inner.keyEntries b asset).first? = some entry ∧
        inner.Decrypts b s p key entry.2 := by
  unfold Inner.openAssetKey Inner.fetchIndexedBytes Backend.getOne Inner.keyEntries
  cases (b.entries (WorkspaceSecret.assetKeyKey inner.secret asset)).first? with
  | none => simp
  | some entry =>
      simp only [Option.some.injEq, exists_eq_left']
      unfold Inner.Decrypts
      cases inner.fetchBlob s b entry.2 with
      | none => simp
      | some bytes =>
          cases hdecode : decodeChunk bytes with
          | none => simp [hdecode]
          | some chunk =>
              cases hopen : WorkspaceState.openAssetKey chunk p with
              | error err p' => simp [hdecode, hopen]
              | ok verdict p' =>
                  cases verdict with
                  | ready opened =>
                      simp only [hdecode, hopen]
                      constructor
                      · intro hkey
                        exact ⟨bytes, chunk, p', rfl, hdecode, Except.ok.inj hkey ▸ hopen⟩
                      · rintro ⟨_, other, q, ⟨⟩, hother, hready⟩
                        obtain rfl := Option.some.inj (hdecode.symm.trans hother)
                        cases hopen.symm.trans hready
                        rfl
                  | _ => simp [hdecode, hopen]

omit [ChunkWire] in
/-- Sealing a key anew takes that the chunk it is in can be decrypted. -/
theorem resealAssetKey_opens {requester : Bytes32} {chunk : Chunk OpHash} {effects : List Effect}
    {p' : WorkspaceState × Rng}
    (hreseal : WorkspaceState.resealAssetKey requester asset chunk p = .ok effects p')
    (heffects : effects ≠ []) :
    ∃ key q, WorkspaceState.openAssetKey chunk p = .ok (.ready key) q := by
  have hspec : Wp (WorkspaceState.resealAssetKey requester asset chunk)
      (fun effects _ => effects ≠ [] → ∃ key q,
        WorkspaceState.openAssetKey chunk p = .ok (.ready key) q) (fun _ _ => True) p := by
    unfold WorkspaceState.resealAssetKey
    rw [wp_bind, wp_self]
    dsimp only
    split_ifs
    · refine (requireWrite_alone p).seq ?_ fun _ _ _ => trivial
      rintro _ q rfl
      rw [wp_bind]
      refine wp_of_run (fun verdict q hopen => ?_) fun _ _ _ => trivial
      cases verdict with
      | ready key =>
          exact wp_of_run (fun _ _ _ _ => ⟨key, q, hopen⟩) fun _ _ _ => trivial
      | _ => exact fun hne => absurd rfl hne
    · trivial
  exact hspec.of_ok hreseal heffects

/-- Whoever answers a repair has decrypted the first entry: if it cannot, it answers
nothing, whatever else lies beside. -/
theorem answerAssetKeyRepair_first {requester : Bytes32}
    (h : (inner.answerAssetKeyRepair b requester asset s p).1 ≠ []) :
    ∃ entry key, (inner.keyEntries b asset).first? = some entry ∧
      inner.Decrypts b s p key entry.2 := by
  unfold Inner.answerAssetKeyRepair Inner.fetchIndexedBytes Backend.getOne at h
  unfold Inner.keyEntries Inner.Decrypts
  cases hfirst : (b.entries (WorkspaceSecret.assetKeyKey inner.secret asset)).first? with
  | none =>
      rw [hfirst] at h
      exact absurd rfl h
  | some entry =>
      simp only [hfirst] at h
      cases hfetch : inner.fetchBlob s b entry.2 with
      | none =>
          simp only [hfetch] at h
          exact absurd rfl h
      | some bytes =>
          simp only [hfetch] at h
          cases hdecode : decodeChunk bytes with
          | none =>
              simp only [hdecode] at h
              exact absurd rfl h
          | some chunk =>
              simp only [hdecode] at h
              cases hreseal : WorkspaceState.resealAssetKey requester asset chunk p with
              | error err p' =>
                  rw [hreseal] at h
                  exact absurd rfl h
              | ok effects p' =>
                  rw [hreseal] at h
                  obtain ⟨key, q, hopen⟩ := resealAssetKey_opens hreseal h
                  exact ⟨entry, key, rfl, bytes, chunk, q, hfetch, hdecode, hopen⟩

/-! ## When a repair is effective -/

/-- Entries of authors after the first one's do not change what is read. -/
theorem openAssetKey_landed {added : List (Author × Bytes32)}
    (hlater : ∀ item ∈ added, ∃ entry ∈ inner.keyEntries b asset, entry.1 < item.1) :
    inner.openAssetKey (b.landed (WorkspaceSecret.assetKeyKey inner.secret asset) added) asset s p =
      inner.openAssetKey b asset s p := by
  set k := WorkspaceSecret.assetKeyKey inner.secret asset with hk
  have hone : (b.landed k added).getOne k = b.getOne k := by
    change (Function.update b.entries k (added.foldl Keyed.insert (b.entries k)) k).first? = _
    rw [Function.update_self]
    unfold Backend.getOne
    cases hfirst : (b.entries k).first? with
    | some first =>
        refine Keyed.first?_insertAll hfirst fun item hitem => ?_
        obtain ⟨entry, hentry, hlt⟩ := hlater item hitem
        exact lt_of_le_of_lt ((Keyed.first?_eq_some.mp hfirst).2 entry hentry) hlt
    | none =>
        cases added with
        | nil => exact hfirst
        | cons item rest =>
            obtain ⟨entry, hentry, -⟩ := hlater item List.mem_cons_self
            obtain ⟨first, hsome⟩ := Keyed.exists_first? hentry
            exact absurd (hsome.symm.trans hfirst) (by simp)
  unfold Inner.openAssetKey Inner.fetchIndexedBytes
  rw [← hk, hone]
  rfl

/-- The content key is got at whenever some entry can be decrypted, if and only if then the
first entry can be.  Repairs under later authors, however many, change nothing. -/
theorem openAssetKey_effective_iff (inner : Inner) (b : Backend Author) (asset : DocumentUuid)
    (s : WorkspaceState) (p : WorkspaceState × Rng) (key : Bytes32) :
    ((inner.Recoverable b asset s p key → (inner.openAssetKey b asset s p).1 = .ok key) ↔
      (inner.Recoverable b asset s p key → ∀ entry,
        (inner.keyEntries b asset).first? = some entry → inner.Decrypts b s p key entry.2)) ∧
    ∀ added : List (Author × Bytes32),
      (∀ item ∈ added, ∃ entry ∈ inner.keyEntries b asset, entry.1 < item.1) →
      inner.openAssetKey (b.landed (WorkspaceSecret.assetKeyKey inner.secret asset) added) asset
        s p = inner.openAssetKey b asset s p := by
  refine ⟨forall_congr' fun hrecoverable => ?_, fun added => openAssetKey_landed⟩
  obtain ⟨some, hmem, -⟩ := hrecoverable
  obtain ⟨first, hfirst⟩ := Keyed.exists_first? hmem
  rw [openAssetKey_eq_ok]
  constructor
  · rintro ⟨entry, hentry, hdecrypts⟩ other hother
    obtain rfl := Option.some.inj (hentry.symm.trans hother)
    exact hdecrypts
  · exact fun h => ⟨first, hfirst, h first hfirst⟩

end Reading

end IrohBeekem

/-! ## A late joiner -/

namespace IrohBeekem

open Library WorkspaceState

/-- A tree over lists that remembers what it held when its owner was added. -/
structure LateCgka where
  tree : ListCgka
  earlier : List OpId

namespace LateCgka

def onTree {α : Type} (x : EStateM CgkaError ListCgka α) : EStateM CgkaError LateCgka α :=
  zoom LateCgka.tree (fun tree g => { g with tree }) id x

def onTreeRng {α : Type} (x : EStateM CgkaError (ListCgka × Nat) α) :
    EStateM CgkaError (LateCgka × Nat) α :=
  zoom (fun p => (p.1.tree, p.2)) (fun q p => ({ p.1 with tree := q.1 }, q.2)) id x

/-- No epoch is derived that was established before the owner was added. -/
def decryptionKeyFor (chunk : Chunk OpId) : EStateM CgkaError LateCgka Bytes32 := fun g =>
  if chunk.pcsUpdateOpHash ∈ g.earlier then .error .identifierNotFound g
  else onTree (ListCgka.decryptionKeyFor chunk) g

end LateCgka

/-- The key agreement over lists in which who comes late cannot read what is earlier. -/
@[reducible] def lateBeekem : Beekem where
  OpHash := OpId
  Cgka := LateCgka
  Rng := Nat
  AppSecret := Bytes32 × List Bytes32 × OpId
  opHash := listBeekem.opHash
  verifyOp := listBeekem.verifyOp
  graph g := listBeekem.graph g.tree
  shareKey := listBeekem.shareKey
  generateShareSecret := listBeekem.generateShareSecret
  randomNonce := listBeekem.randomNonce
  randomKey := listBeekem.randomKey
  hashBytes := listBeekem.hashBytes
  keyedHash := listBeekem.keyedHash
  new treeId memberId shareKey signer := .ok ⟨.new treeId memberId shareKey signer, []⟩
  newFromInitAdd treeId founderId founderPk init :=
    (ListCgka.newFromInitAdd treeId founderId founderPk init).map fun tree => ⟨tree, []⟩
  insertOwnerSk _ _ g := g
  withNewOwner _ _ _ g := .ok { g with earlier := g.tree.log.map OpId.of }
  initAddOp g := listBeekem.initAddOp g.tree
  groupSize g := listBeekem.groupSize g.tree
  ops g := listBeekem.ops g.tree
  containsPredecessors g := listBeekem.containsPredecessors g.tree
  add member shareKey signer := LateCgka.onTree (ListCgka.addLeaf member shareKey signer)
  remove member signer := LateCgka.onTree (ListCgka.removeLeaf member signer)
  update newKey newSecret signer := LateCgka.onTreeRng (ListCgka.update newKey newSecret signer)
  newAppSecretFor contentRef content predRefs signer :=
    LateCgka.onTreeRng (ListCgka.newAppSecretFor contentRef content predRefs signer)
  mergeConcurrentOperation op := LateCgka.onTree (ListCgka.mergeConcurrentOperation op)
  decryptionKeyFor := LateCgka.decryptionKeyFor
  tryEncrypt := listBeekem.tryEncrypt
  tryDecrypt := listBeekem.tryDecrypt

local instance lateKeyhive : Keyhive := transparentKeyhive

local instance latecomersBeekem : Beekem := lateBeekem

local instance lateLoro : Loro := listLoro

local instance latePostcard : Postcard := blankPostcard

/-- The founder, device `1`. -/
def lateFounder : CgkaController :=
  { cgka := (⟨.new 1 1 0 1, []⟩ : LateCgka), signer := 1, memberId := 1, shareSecret := 0,
    shareKey := 0, knownMembers := {1}, currentMembers := {1}, certs := .new 1, parked := [],
    evictedOps := 0 }

def lateWorkspace : WorkspaceState :=
  match WorkspaceState.found lateFounder 9 1 with
  | .ok s => s
  | .error _ => joined lateFounder 9 0

/-- Whoever holds this key joins from a member's log and certificates. -/
def latecomer (s : WorkspaceState) (signer secret : Bytes32) : WorkspaceState :=
  match CgkaController.join s.cgka.treeId signer secret (LateCgka.tree s.cgka.cgka).log.reverse
      s.cgka.certs.certificates with
  | .ok c => joined c s.secret s.namespaceEpoch.epoch
  | .error _ => s

/-- The founder admits device `2` as an editor. -/
@[irreducible] def attaching : WorkspaceState × Rng :=
  after (Call.handle (.addUser 2 102 .editor "second" none) 0).run (lateWorkspace, (1 : Nat))

/-- The chunk some effects store. -/
def storedChunk (effects : List Effect) : Option (Chunk OpHash) :=
  effects.findSome? fun
    | .storeChunk _ _ chunk => some chunk
    | _ => none

/-- The key chunk of asset `7`, as the editor that attaches it stores it. -/
def sealedChunk : Option (Chunk OpHash) :=
  match sealAssetKey 7 (latecomer attaching.1 2 102, (5 : Nat)) with
  | .ok (_, effects) _ => storedChunk effects
  | .error _ _ => none

/-- The founder admits device `3`. -/
@[irreducible] def joining3 : WorkspaceState × Rng :=
  after (Call.handle (.addUser 3 103 .viewer "third" none) 0).run attaching

/-- The chunk with which it answers the repair that device `3` asks for. -/
def resealedChunk : Option (Chunk OpHash) :=
  match sealedChunk with
  | none => none
  | some chunk =>
      match resealAssetKey 3 7 chunk joining3 with
      | .ok effects _ => storedChunk effects
      | .error _ _ => none

/-- Its state after that. -/
def answering : WorkspaceState :=
  match sealedChunk with
  | none => joining3.1
  | some chunk => (after (Call.resealAssetKey 3 7 chunk).run joining3).1

/-- Device `3`, which has joined since, and has everything that happened until now. -/
@[irreducible] def late : WorkspaceState × Rng := (latecomer answering 3 103, (0 : Nat))

/-- The two key chunks as blobs. -/
local instance lateWire : ChunkWire where
  decodeChunk bytes :=
    if bytes = [1] then sealedChunk else if bytes = [2] then resealedChunk else none

/-- The entry of the editor's author, then that of the founder's; both blobs are at hand. -/
def sideBySide : Backend Nat where
  entries _ := BTreeMap.ofList [(0, 1), (1, 2)]
  blobs hash := if hash = 1 then some [1] else if hash = 2 then some [2] else none
  download _ _ := none

private theorem late_reachable : Reachable late.1 := by
  have hcreate : CgkaController.create 1 1 (0 : Nat) = (.ok lateFounder, (1 : Nat)) := rfl
  have hfound : WorkspaceState.found lateFounder 9 1 = .ok lateWorkspace := by
    have hsome : (WorkspaceState.found lateFounder 9 1).toOption.isSome = true := by
      decide +kernel
    unfold lateWorkspace
    cases hrun : WorkspaceState.found lateFounder 9 1 with
    | ok s => rfl
    | error err =>
        rw [hrun] at hsome
        exact absurd hsome (by simp [Except.toOption])
  have hfounder : Reachable lateWorkspace := .found hcreate hfound
  have hattaching : Reachable attaching.1 := by
    unfold attaching
    exact .call hfounder _ _
  have hjoining : Reachable joining3.1 := by
    unfold joining3
    exact hattaching.call _ attaching.2
  have hanswering : Reachable answering := by
    unfold answering
    split
    · exact hjoining
    · next chunk hchunk => exact hjoining.call (.resealAssetKey 3 7 chunk) joining3.2
  unfold late latecomer
  dsimp only
  split
  · next c hjoin => exact .joined _ _ hjoin
  · exact hanswering

/-- Whether the late joiner decrypts a key chunk, to this key. -/
def lateOpens (key : Bytes32) (chunk : Option (Chunk OpHash)) : Bool :=
  match chunk with
  | none => false
  | some chunk =>
      match openAssetKey chunk late with
      | .ok (.ready opened) _ => opened = key
      | _ => false

private theorem opens_of_lateOpens {key : Bytes32} {chunk : Option (Chunk OpHash)}
    (h : lateOpens key chunk = true) :
    ∃ c q, chunk = some c ∧ openAssetKey c late = .ok (.ready key) q := by
  unfold lateOpens at h
  split at h
  · exact absurd h (by simp)
  · next c =>
      split at h
      · next opened q hopen =>
          obtain rfl := of_decide_eq_true h
          exact ⟨c, q, rfl, hopen⟩
      · exact absurd h (by simp)

/-- The founder's answer can be decrypted, and the joiner asks for another repair all the
same. -/
theorem openAssetKey_lateJoiner :
    ¬ ∀ (inner : Inner) (b : Backend Nat) (asset : DocumentUuid) (s : WorkspaceState)
      (p : WorkspaceState × Rng) (key : Bytes32), Reachable p.1 →
      inner.Recoverable b asset s p key → (inner.openAssetKey b asset s p).1 = .ok key := by
  intro h
  have hrecoverable : (innerOf 3).Recoverable sideBySide 7 late.1 late 5 := by
    have hopens : lateOpens 5 resealedChunk = true := by decide +kernel
    obtain ⟨chunk, q, hchunk, hopen⟩ := opens_of_lateOpens hopens
    have hentry : ((1, 2) : Nat × Bytes32) ∈ (innerOf 3).keyEntries sideBySide 7 :=
      BTreeMap.get?_eq_some.mp (by decide +kernel)
    exact ⟨(1, 2), hentry, [2], chunk, q, rfl, hchunk, hopen⟩
  have hopened := h (innerOf 3) sideBySide 7 late.1 late 5 late_reachable hrecoverable
  have hstuck : ((innerOf 3).openAssetKey sideBySide 7 late.1 late).1 =
      .error .assetKeyUnavailable := by
    decide +kernel
  exact absurd (hstuck.symm.trans hopened) (by simp)

end IrohBeekem
