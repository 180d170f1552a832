import IrohBeekem.Facade.Assets
import IrohBeekem.Facade.Replica
import IrohBeekem.Facade.Vault
import IrohBeekem.State.Snapshot

/-!
# Attaching a version

A version of an asset is attached a segment at a time, and none of them is named by the
manifest before the last one is indexed.  So its id goes to a log on disk before the first
segment, and from the log when the version has been declared and the workspace's snapshot
written.  Wherever the process stops, the version is in the log, or nothing of its segments is
there, or all of them are (`attachVersion_spec`).
-/

set_option linter.unusedSectionVars false

namespace IrohBeekem

open Library WorkspaceState

variable [Keyhive] [Beekem] [Loro] [Postcard] [Stores] [StoreCodec] [SegmentCipher]

/-! ## What an attachment works on -/

/-- What an open workspace has at hand. -/
structure AttachInner where
  author : Bytes32
  secret : Bytes32
  workspaceKey : Bytes32
  namespaceId : Bytes32
  /-- Where the node persists, if it does. -/
  store : Option Store
  pairOrder : PairOrder
  hashOrder : HashOrder
  encodeSnapshot : WorkspaceSnapshot → Except String Bytes

/-- The state of the workspace, the disk and the index. -/
structure Bench where
  state : WorkspaceState × Rng
  disk : Disk
  index : Stores.Doc

/-- A program of the facade, which may be cut off. -/
abbrev Facade (α : Type) := EStateM (Halt AssetError) Bench α

/-- A call into the core. -/
def onState {α : Type} (x : Run α) : Facade α :=
  zoom Bench.state (fun s b => { b with state := s }) (fun e => .failed (.core e)) x

/-- A call on the store whose failure is logged. -/
def logged {α : Type} (x : EStateM (Halt WorkspaceError) Disk α) :
    Facade (Except WorkspaceError α) :=
  zoom Bench.disk (fun d b => { b with disk := d }) id (recover x)

/-- A call on the index: it can fail before it has had an effect, and the process can be gone
before it or after it. -/
def indexCall (x : EStateM String Stores.Doc Unit) : Facade Unit := fun b =>
  match b.disk.outcomes with
  | [] | .done :: _ =>
      match x b.index with
      | .ok () index => .ok () { b with index, disk := ⟨b.disk.files, b.disk.outcomes.tail⟩ }
      | .error e index => .error (.failed (.storage e))
          { b with index, disk := ⟨b.disk.files, b.disk.outcomes.tail⟩ }
  | .fails text _ :: rest =>
      .error (.failed (.storage text)) { b with disk := ⟨b.disk.files, rest⟩ }
  | .cut none :: rest => .error .cut { b with disk := ⟨b.disk.files, rest⟩ }
  | .cut (some _) :: rest =>
      .error .cut { b with index := after x b.index, disk := ⟨b.disk.files, rest⟩ }

/-- A call on the index whose failure is logged or ignored. -/
def indexLogged (x : EStateM String Stores.Doc Unit) : Facade Unit := do
  let _ ← (recover (indexCall x) : Facade (Except AssetError Unit))
  return ()

/-- What the effects ask of the index, one after another; a failure is logged. -/
def applyEffects (inner : AttachInner) : List Effect → Facade Unit
  | [] => return ()
  | effect :: rest => do
      indexLogged (indexEffect inner.author effect)
      applyEffects inner rest

/-! ## The log of pending assets -/

/-- Read the log, change it and write it; what fails is logged. -/
def updatePendingAssets (inner : AttachInner) (f : Finset TreePair → Finset TreePair) :
    Facade Unit := do
  match inner.store with
  | none => return ()
  | some store =>
      let pending ← logged store.loadPendingAssets
      let _ ← logged (store.storePendingAssets inner.pairOrder (f (pending.toOption.getD ∅)))
      return ()

/-- Record that an attachment has begun. -/
def notePendingAsset (inner : AttachInner) (asset : DocumentUuid) : Facade Unit :=
  updatePendingAssets inner fun pending => insert (inner.workspaceKey, asset) pending

/-- Forget attachments that have been completed or cleaned up. -/
def clearPendingAssets (inner : AttachInner) (assets : List DocumentUuid) : Facade Unit :=
  updatePendingAssets inner fun pending =>
    assets.foldl (fun pending uuid => pending.erase (inner.workspaceKey, uuid)) pending

/-- Withdraw every index entry an interrupted attachment left behind. -/
def discardPartialAsset (inner : AttachInner) (uuid : DocumentUuid) : Facade Unit := do
  indexLogged (Stores.del inner.author (WorkspaceSecret.assetKeyKey inner.secret uuid).toBytes)
  indexLogged (Stores.del inner.author (rangeBytes (WorkspaceSecret.assetPrefix inner.secret uuid)))

/-- `discardPartialAsset` for one asset after another. -/
def discardAll (inner : AttachInner) : List DocumentUuid → Facade Unit
  | [] => return ()
  | uuid :: rest => do
      discardPartialAsset inner uuid
      discardAll inner rest

/-! ## Writing a version -/

/-- Write one sealed segment to the blobs and index it. -/
def storeSegment (inner : AttachInner) (key : Bytes32) (ciphertext : Bytes) : Facade Unit := do
  let hash ← verdict ((Stores.addBytes ciphertext).mapError fun e => .failed (.storage e))
  indexCall (Stores.setHash inner.author key.toBytes hash ciphertext.length)

/-- The segments of a version from one position on, as they are read, sealed and stored. -/
def storeSegmentsFrom (inner : AttachInner) (uuid : DocumentUuid) (key : Bytes32)
    (segments : U64) (segmentBytes : U32) :
    (left index remaining : Nat) → (file : Bytes) → ContentDigest → Facade ContentDigest
  | 0, _, _, _, digest => return digest
  | left + 1, index, remaining, file, digest => do
      let want := min remaining segmentBytes.val
      let (buffer, file) ← verdict ((readExact want file).mapError .failed)
      let sealed ← verdict ((sealSegment key uuid index segments segmentBytes buffer).mapError
        fun e => .failed (.core e))
      storeSegment inner (WorkspaceSecret.assetPartKey inner.secret uuid (Fin.ofNat _ index)) sealed
      storeSegmentsFrom inner uuid key segments segmentBytes left (index + 1) (remaining - want)
        file (digest.update buffer)

/-- Seal and store every segment of a file; the digest of the plaintext. -/
def storeSegments (inner : AttachInner) (uuid : DocumentUuid) (key : Bytes32)
    (size segments : U64) (segmentBytes : U32) (file : Except AssetError Bytes) :
    Facade Bytes32 := do
  let file ← verdict (file.mapError .failed)
  let digest ← storeSegmentsFrom inner uuid key segments segmentBytes segments.val 0 size.val file
    ContentDigest.new
  return digest.finish

/-- The record that `persist` writes: a snapshot that can be taken and encoded. -/
def capturedRecord (inner : AttachInner) (s : WorkspaceState) : Option WorkspaceRecord :=
  match s.snapshot inner.hashOrder with
  | .error _ => none
  | .ok snapshot =>
      match inner.encodeSnapshot snapshot with
      | .error _ => none
      | .ok core => some ⟨core, inner.namespaceId⟩

/-- Write this workspace's snapshot, if the node persists at all. -/
def persist (inner : AttachInner) : Facade Unit := do
  match inner.store with
  | none => return ()
  | some store =>
      match capturedRecord inner (← get).state.1 with
      | none => return ()
      | some record =>
          let _ ← logged (store.storeWorkspace inner.workspaceKey record)
          return ()

/-- Once every segment is indexed: declare the version, write the snapshot, and take the
version from the log. -/
def declareVersion (inner : AttachInner) (entry content : DocumentUuid) (assetMeta : AssetMeta)
    (now : UnixSeconds) : Facade Unit := do
  -- A failure here returns at once: what was written is withdrawn by the next sweep.
  let effects ← onState (addAssetVersion entry content assetMeta now)
  applyEffects inner effects
  persist inner
  -- The download policy changes no entry.
  indexLogged (pure ())
  clearPendingAssets inner [content]

/-- Withdraw what was written. -/
def abandonVersion (inner : AttachInner) (content : DocumentUuid) (e : AssetError) :
    Facade Unit := do
  discardPartialAsset inner content
  clearPendingAssets inner [content]
  throw (.failed e)

/-- Attach a new version of an entry.  The size is what the file system reports, the file what
is read afterwards, and the content id is drawn. -/
def attachVersion (inner : AttachInner) (entry content : DocumentUuid)
    (size : Except AssetError U64) (file : Except AssetError Bytes) (now : UnixSeconds) :
    Facade Unit := do
  let size ← verdict (size.mapError .failed)
  let segmentBytes := assetSegmentBytes
  let segments := AssetMeta.segmentsFor size segmentBytes
  let (key, effects) ← onState (sealAssetKey content)
  applyEffects inner effects
  notePendingAsset inner content
  match ← (recover (storeSegments inner content key size segments segmentBytes file) :
      Facade (Except AssetError Bytes32)) with
  | .ok contentHash =>
      declareVersion inner entry content { size, segments, segmentBytes, contentHash } now
  | .error e => abandonVersion inner content e

/-! ## Calls on the index -/

/-- The entries of the index. -/
def Bench.entries (b : Bench) : Entries Bytes32 UInt8 (Bytes32 × Nat) := Stores.entries b.index

/-- Nothing has changed but what this author has under these keys. -/
def OnlyAt (author : Bytes32) (keys : Set Bytes32)
    (e e' : Entries Bytes32 UInt8 (Bytes32 × Nat)) : Prop :=
  ∀ other (key : Bytes32), ¬ (other = author ∧ key ∈ keys) →
    e' other key.toBytes = e other key.toBytes

/-- Nothing but the index has changed. -/
structure Aside (b b' : Bench) : Prop where
  state : b'.state = b.state
  files : b'.disk.files = b.disk.files

theorem Aside.refl (b : Bench) : Aside b b := ⟨rfl, rfl⟩

theorem Aside.trans {b b₁ b' : Bench} (h : Aside b b₁) (h' : Aside b₁ b') : Aside b b' :=
  ⟨h'.state.trans h.state, h'.files.trans h.files⟩

namespace OnlyAt

variable {author : Bytes32} {keys keys' : Set Bytes32}
  {e e₁ e' : Entries Bytes32 UInt8 (Bytes32 × Nat)}

theorem refl (author : Bytes32) (keys : Set Bytes32) (e : Entries Bytes32 UInt8 (Bytes32 × Nat)) :
    OnlyAt author keys e e := fun _ _ _ => rfl

theorem trans (h : OnlyAt author keys e e₁) (h' : OnlyAt author keys e₁ e') :
    OnlyAt author keys e e' := fun other key hout => (h' other key hout).trans (h other key hout)

theorem mono (h : OnlyAt author keys e e') (hsub : keys ⊆ keys') : OnlyAt author keys' e e' :=
  fun other key hout => h other key fun hin => hout ⟨hin.1, hsub hin.2⟩

/-- What is written elsewhere is not seen here. -/
theorem here (h : OnlyAt author keys e e') {key : Bytes32} (hkey : key ∉ keys) :
    e' author key.toBytes = e author key.toBytes := h author key fun hin => hkey hin.2

theorem put (author : Bytes32) {key : Bytes32} (hkey : key ∈ keys) (entry : Bytes32 × Nat)
    (e : Entries Bytes32 UInt8 (Bytes32 × Nat)) :
    OnlyAt author keys e (e.put author key.toBytes entry) := by
  intro other key' hout
  rw [Entries.put_apply ((length_keyBytes _).trans (length_keyBytes _).symm), if_neg]
  rintro ⟨rfl, hbytes⟩
  exact hout ⟨rfl, (Fin.ext (beBytes_injective key'.isLt key.isLt hbytes) : key' = key) ▸ hkey⟩

theorem clear (author : Bytes32) {range : Bytes}
    (hrange : ∀ key : Bytes32, range <+: key.toBytes → key ∈ keys)
    (e : Entries Bytes32 UInt8 (Bytes32 × Nat)) : OnlyAt author keys e (e.clear author range) := by
  intro other key hout
  rw [Entries.clear_apply, if_neg]
  exact fun hcovered => hout ⟨hcovered.1, hrange key hcovered.2⟩

end OnlyAt

section IndexCalls

variable {b : Bench} {x : EStateM String Stores.Doc Unit} {Q R : Stores.Doc → Prop}

/-- No call on the index or the disk fails from here on. -/
def Bench.NoneFails (b : Bench) : Prop := IrohBeekem.NoneFails b.disk.outcomes

/-- A call is done, fails of itself, or is cut off. -/
theorem indexCall_ends (h : b.NoneFails) (hdone : Wp x (fun _ => Q) (fun _ => Q) b.index)
    (hbefore : R b.index) (hafter : ∀ d, Q d → R d) :
    Wp (indexCall x) (fun _ b' => Q b'.index ∧ Aside b b' ∧ b'.NoneFails)
      (fun halt b' => halt = .cut ∧ R b'.index ∧ Aside b b' ∨
        (∃ e, halt = .failed e) ∧ Library.succeeds x b.index = false ∧ Q b'.index ∧ Aside b b' ∧
          b'.NoneFails) b := by
  have hend : ∀ rest, IrohBeekem.NoneFails rest → Wp (fun b : Bench =>
      match x b.index with
      | .ok () index => (EStateM.Result.ok () { b with index, disk := ⟨b.disk.files, rest⟩ } :
          EStateM.Result (Halt AssetError) Bench Unit)
      | .error e index => .error (.failed (.storage e))
          { b with index, disk := ⟨b.disk.files, rest⟩ })
      (fun _ b' => Q b'.index ∧ Aside b b' ∧ b'.NoneFails)
      (fun halt b' => halt = .cut ∧ R b'.index ∧ Aside b b' ∨
        (∃ e, halt = .failed e) ∧ Library.succeeds x b.index = false ∧ Q b'.index ∧ Aside b b' ∧
          b'.NoneFails) b := by
    intro rest hrest
    unfold Wp at hdone ⊢
    unfold Library.succeeds
    dsimp only
    cases hrun : x b.index with
    | ok u index =>
        rw [hrun] at hdone
        exact ⟨hdone, ⟨rfl, rfl⟩, hrest⟩
    | error e index =>
        rw [hrun] at hdone
        exact Or.inr ⟨⟨_, rfl⟩, rfl, hdone, ⟨rfl, rfl⟩, hrest⟩
  have hwhole : Q (after x b.index) := Wp.after (P := Q) hdone
  obtain ⟨state, ⟨files, outcomes⟩, index⟩ := b
  cases outcomes with
  | nil => exact hend [] h
  | cons outcome rest =>
      have hrest : IrohBeekem.NoneFails rest := NoneFails.tail h
      cases outcome with
      | done => exact hend rest hrest
      | fails text reach => exact absurd List.mem_cons_self (h text reach)
      | cut reach =>
          cases reach with
          | none => exact Or.inl ⟨rfl, hbefore, ⟨rfl, rfl⟩⟩
          | some n => exact Or.inl ⟨rfl, hafter _ hwhole, ⟨rfl, rfl⟩⟩

/-- A call that does not fail of itself is done, or the process is gone. -/
theorem indexCall_spec (h : b.NoneFails) (hdone : Wp x (fun _ => Q) (fun _ => Q) b.index)
    (hfine : Library.succeeds x b.index = true) (hbefore : R b.index) (hafter : ∀ d, Q d → R d) :
    Wp (indexCall x) (fun _ b' => Q b'.index ∧ Aside b b' ∧ b'.NoneFails)
      (fun halt b' => halt = .cut ∧ R b'.index ∧ Aside b b') b :=
  (indexCall_ends h hdone hbefore hafter).mono (fun _ _ => id) fun _ _ hend =>
    hend.resolve_right fun hfailed => absurd (hfine.symm.trans hfailed.2.1) (by simp)

/-- A call whose failure is logged is done, or the process is gone. -/
theorem indexLogged_spec (h : b.NoneFails) (hdone : Wp x (fun _ => Q) (fun _ => Q) b.index)
    (hbefore : R b.index) (hafter : ∀ d, Q d → R d) :
    Wp (indexLogged x) (fun _ b' => Q b'.index ∧ Aside b b' ∧ b'.NoneFails)
      (fun halt b' => halt = .cut ∧ R b'.index ∧ Aside b b') b := by
  unfold indexLogged
  rw [wp_bind, wp_recover]
  refine (indexCall_ends h hdone hbefore hafter).mono (fun _ _ => id) fun halt b' hend => ?_
  rcases hend with ⟨rfl, hcut⟩ | ⟨⟨e, rfl⟩, -, hfailed⟩
  · exact ⟨rfl, hcut⟩
  · exact hfailed

end IndexCalls

/-! ## Effects and withdrawals -/

/-- What an effect asks of the index changes nothing but these keys. -/
def Confined (author : Bytes32) (keys : Set Bytes32) (x : EStateM String Stores.Doc Unit) : Prop :=
  ∀ d, Wp x (fun _ d' => OnlyAt author keys (Stores.entries d) (Stores.entries d'))
    (fun _ d' => OnlyAt author keys (Stores.entries d) (Stores.entries d')) d

section Effects

variable [LawfulStores] {inner : AttachInner} {b : Bench} {keys : Set Bytes32}

theorem confined_storeChunk (author : Bytes32) {key : Bytes32} (hkey : key ∈ keys)
    (chunk : Chunk OpHash) : Confined author keys (storeChunk author key chunk) := by
  intro d
  unfold storeChunk
  rw [wp_bind, wp_verdict]
  cases Stores.encodeChunk chunk with
  | error e => exact .refl author keys _
  | ok bytes =>
      dsimp only
      rw [wp_bind, wp_verdict]
      cases Stores.addBytes bytes with
      | error e => exact .refl author keys _
      | ok hash =>
          refine (LawfulStores.setHash_spec author key.toBytes hash bytes.length d).mono
            (fun _ d' hput => ?_) fun _ d' hsame => ?_
          · rw [hput]
            exact .put author hkey _ _
          · rw [hsame]
            exact .refl author keys _

theorem applyEffects_spec {effects : List Effect} (h : b.NoneFails)
    (heffects : ∀ effect ∈ effects, Confined inner.author keys (indexEffect inner.author effect)) :
    Wp (applyEffects inner effects)
      (fun _ b' => OnlyAt inner.author keys b.entries b'.entries ∧ Aside b b' ∧ b'.NoneFails)
      (fun halt b' => halt = .cut ∧ OnlyAt inner.author keys b.entries b'.entries ∧ Aside b b')
      b := by
  induction effects generalizing b with
  | nil => exact ⟨.refl _ _ _, .refl b, h⟩
  | cons effect effects ih =>
      have hhead := heffects effect List.mem_cons_self b.index
      refine (indexLogged_spec (R := fun d => OnlyAt inner.author keys b.entries (Stores.entries d))
        h hhead (.refl _ _ _) fun _ => id).seq (fun _ b₁ h₁ => ?_) fun _ _ => id
      obtain ⟨honly, haside, hnone⟩ := h₁
      refine (ih hnone fun effect' hmem => heffects effect' (List.mem_cons_of_mem _ hmem)).mono
        (fun _ b' hrest => ?_) fun _ b' hrest => ?_
      · exact ⟨honly.trans hrest.1, haside.trans hrest.2.1, hrest.2.2⟩
      · exact ⟨hrest.1, honly.trans hrest.2.1, haside.trans hrest.2.2⟩

/-- The keys of a version: that of its content key, and those of its segments. -/
def assetKeys (secret : Bytes32) (asset : DocumentUuid) : Set Bytes32 :=
  {key | key = WorkspaceSecret.assetKeyKey secret asset ∨
    rangeBytes (WorkspaceSecret.assetPrefix secret asset) <+: key.toBytes}

/-- This author has no entry of a version. -/
def Gone (author secret : Bytes32) (asset : DocumentUuid)
    (e : Entries Bytes32 UInt8 (Bytes32 × Nat)) : Prop :=
  ∀ key ∈ assetKeys secret asset, e author key.toBytes = none

/-- No entry is new. -/
def Shrinks (e e' : Entries Bytes32 UInt8 (Bytes32 × Nat)) : Prop :=
  ∀ other key, e' other key = e other key ∨ e' other key = none

theorem Shrinks.trans {e e₁ e' : Entries Bytes32 UInt8 (Bytes32 × Nat)} (h : Shrinks e e₁)
    (h' : Shrinks e₁ e') : Shrinks e e' := fun other key =>
  (h' other key).elim (fun hsame => (h other key).imp (hsame.trans ·) (hsame.trans ·)) Or.inr

theorem Shrinks.clear (author : Bytes32) (range : Bytes)
    (e : Entries Bytes32 UInt8 (Bytes32 × Nat)) : Shrinks e (e.clear author range) := by
  intro other key
  rw [Entries.clear_apply]
  split_ifs
  · exact Or.inr rfl
  · exact Or.inl rfl

theorem Gone.shrinks {author secret : Bytes32} {asset : DocumentUuid}
    {e e' : Entries Bytes32 UInt8 (Bytes32 × Nat)} (h : Gone author secret asset e)
    (hshrinks : Shrinks e e') : Gone author secret asset e' := fun key hkey =>
  (hshrinks author key.toBytes).elim (fun hsame => hsame.trans (h key hkey)) id

omit [Keyhive] [Loro] [Postcard] [StoreCodec] [SegmentCipher] in
/-- A withdrawal that is not refused. -/
theorem del_done (hdel : Withdraws) (author : Bytes32) (range : Bytes) (d : Stores.Doc) :
    Wp (Stores.del author range)
      (fun _ d' => Stores.entries d' = (Stores.entries d).clear author range)
      (fun _ d' => Stores.entries d' = (Stores.entries d).clear author range) d := by
  obtain ⟨_, hrun⟩ := run_of_succeeds (hdel author range d)
  have hcleared := (LawfulStores.del_spec author range d).of_ok hrun
  unfold Wp
  rw [hrun]
  exact hcleared

/-- A version is withdrawn, and nothing else is. -/
theorem discardPartialAsset_spec (hdel : Withdraws) (h : b.NoneFails) (uuid : DocumentUuid) :
    Wp (discardPartialAsset inner uuid)
      (fun _ b' => (Gone inner.author inner.secret uuid b'.entries ∧ Shrinks b.entries b'.entries ∧
        OnlyAt inner.author (assetKeys inner.secret uuid) b.entries b'.entries) ∧ Aside b b' ∧
        b'.NoneFails)
      (fun halt b' => halt = .cut ∧ (Shrinks b.entries b'.entries ∧
        OnlyAt inner.author (assetKeys inner.secret uuid) b.entries b'.entries) ∧ Aside b b')
      b := by
  have hkeyRange : ∀ key : Bytes32,
      (WorkspaceSecret.assetKeyKey inner.secret uuid).toBytes <+: key.toBytes →
        key ∈ assetKeys inner.secret uuid := fun key hprefix =>
    Or.inl (Fin.ext (beBytes_injective key.isLt (Fin.isLt _)
      ((Entries.prefix_iff_eq ((length_keyBytes _).trans (length_keyBytes _).symm)).mp hprefix)))
  have hpartRange : ∀ key : Bytes32,
      rangeBytes (WorkspaceSecret.assetPrefix inner.secret uuid) <+: key.toBytes →
        key ∈ assetKeys inner.secret uuid := fun _ => Or.inr
  unfold discardPartialAsset
  refine (indexLogged_spec (R := fun d => Shrinks b.entries (Stores.entries d) ∧
      OnlyAt inner.author (assetKeys inner.secret uuid) b.entries (Stores.entries d)) h
    (del_done hdel inner.author _ b.index) ⟨fun _ _ => Or.inl rfl, .refl _ _ _⟩
    fun d hcleared => ?_).seq (fun _ b₁ h₁ => ?_) fun _ _ => id
  · rw [hcleared]
    exact ⟨.clear _ _ _, .clear _ hkeyRange _⟩
  · obtain ⟨hcleared₁, haside₁, hnone₁⟩ := h₁
    have hshrinks : Shrinks b.entries b₁.entries := by
      show Shrinks b.entries (Stores.entries b₁.index)
      rw [hcleared₁]
      exact .clear _ _ _
    have honly : OnlyAt inner.author (assetKeys inner.secret uuid) b.entries b₁.entries := by
      show OnlyAt _ _ b.entries (Stores.entries b₁.index)
      rw [hcleared₁]
      exact .clear _ hkeyRange _
    have hboth : ∀ d, Stores.entries d = (Stores.entries b₁.index).clear inner.author
        (rangeBytes (WorkspaceSecret.assetPrefix inner.secret uuid)) →
        Shrinks b.entries (Stores.entries d) ∧
          OnlyAt inner.author (assetKeys inner.secret uuid) b.entries (Stores.entries d) := by
      intro d hcleared
      rw [hcleared]
      exact ⟨hshrinks.trans (.clear _ _ _), honly.trans (.clear _ hpartRange _)⟩
    refine (indexLogged_spec (R := fun d => Shrinks b.entries (Stores.entries d) ∧
        OnlyAt inner.author (assetKeys inner.secret uuid) b.entries (Stores.entries d)) hnone₁
      (del_done hdel inner.author _ b₁.index) ⟨hshrinks, honly⟩ hboth).mono
      (fun _ b₂ h₂ => ?_) fun _ b₂ h₂ => ?_
    · obtain ⟨hcleared₂, haside₂, hnone₂⟩ := h₂
      refine ⟨⟨fun key hkey => ?_, (hboth _ hcleared₂).1, (hboth _ hcleared₂).2⟩,
        haside₁.trans haside₂, hnone₂⟩
      show Stores.entries b₂.index inner.author key.toBytes = none
      rw [hcleared₂, Entries.clear_apply, hcleared₁, Entries.clear_apply]
      rcases hkey with rfl | hprefix
      · simp
      · rw [if_pos ⟨rfl, hprefix⟩]
    · exact ⟨h₂.1, h₂.2.1, haside₁.trans h₂.2.2⟩

/-- The versions are withdrawn, and nothing else is. -/
theorem discardAll_spec (hdel : Withdraws) (h : b.NoneFails) (uuids : List DocumentUuid) :
    Wp (discardAll inner uuids)
      (fun _ b' => ((∀ uuid ∈ uuids, Gone inner.author inner.secret uuid b'.entries) ∧
        Shrinks b.entries b'.entries ∧
        OnlyAt inner.author {key | ∃ uuid ∈ uuids, key ∈ assetKeys inner.secret uuid}
          b.entries b'.entries) ∧ Aside b b' ∧ b'.NoneFails)
      (fun halt b' => halt = .cut ∧ (Shrinks b.entries b'.entries ∧
        OnlyAt inner.author {key | ∃ uuid ∈ uuids, key ∈ assetKeys inner.secret uuid}
          b.entries b'.entries) ∧ Aside b b') b := by
  induction uuids generalizing b with
  | nil =>
      exact ⟨⟨fun _ hmem => absurd hmem List.not_mem_nil, fun _ _ => Or.inl rfl, .refl _ _ _⟩,
        .refl b, h⟩
  | cons uuid uuids ih =>
      have hhead : assetKeys inner.secret uuid ⊆
          {key | ∃ other ∈ uuid :: uuids, key ∈ assetKeys inner.secret other} :=
        fun key hkey => ⟨uuid, List.mem_cons_self, hkey⟩
      have htail : {key | ∃ other ∈ uuids, key ∈ assetKeys inner.secret other} ⊆
          {key | ∃ other ∈ uuid :: uuids, key ∈ assetKeys inner.secret other} :=
        fun key ⟨other, hmem, hkey⟩ => ⟨other, List.mem_cons_of_mem _ hmem, hkey⟩
      refine (discardPartialAsset_spec hdel h uuid).seq (fun _ b₁ h₁ => ?_) fun _ b₁ h₁ => ?_
      · obtain ⟨⟨hgone, hshrinks, honly⟩, haside, hnone⟩ := h₁
        refine (ih hnone).mono (fun _ b' h' => ?_) fun _ b' h' => ?_
        · obtain ⟨⟨hrest, hshrinks', honly'⟩, haside', hnone'⟩ := h'
          refine ⟨⟨fun other hmem => ?_, hshrinks.trans hshrinks',
            (honly.mono hhead).trans (honly'.mono htail)⟩, haside.trans haside', hnone'⟩
          rcases List.mem_cons.mp hmem with rfl | hlater
          · exact hgone.shrinks hshrinks'
          · exact hrest other hlater
        · obtain ⟨hcut, ⟨hshrinks', honly'⟩, haside'⟩ := h'
          exact ⟨hcut, ⟨hshrinks.trans hshrinks', (honly.mono hhead).trans (honly'.mono htail)⟩,
            haside.trans haside'⟩
      · obtain ⟨hcut, ⟨hshrinks, honly⟩, haside⟩ := h₁
        exact ⟨hcut, ⟨hshrinks, honly.mono hhead⟩, haside⟩

end Effects

/-! ## The log and the snapshot -/

/-- Nothing but the disk has changed. -/
structure OnDisk (b b' : Bench) : Prop where
  state : b'.state = b.state
  index : b'.index = b.index

theorem wp_logged {α : Type} {x : EStateM (Halt WorkspaceError) Disk α} {b : Bench}
    {Q : Except WorkspaceError α → Bench → Prop} {E : Halt AssetError → Bench → Prop} :
    Wp (logged x) Q E b ↔ Wp x (fun a d => Q (.ok a) { b with disk := d })
      (fun halt d => match halt with
        | .failed e => Q (.error e) { b with disk := d }
        | .cut => E .cut { b with disk := d }) b.disk := by
  unfold logged
  rw [wp_zoom, wp_recover]
  constructor
  · intro h
    refine h.mono (fun _ _ => id) fun halt d hend => ?_
    cases halt with
    | failed e => exact hend
    | cut => exact hend
  · intro h
    refine h.mono (fun _ _ => id) fun halt d hend => ?_
    cases halt with
    | failed e => exact hend
    | cut => exact hend

section Logs

variable [LawfulStoreCodec] {inner : AttachInner} {store : Store} {b : Bench} {v : Vault}

/-- The record with this log. -/
def Vault.withPending (v : Vault) (pending : Finset TreePair) : Vault :=
  { v with pending := pending }

/-- A call that does not fail is done, or the process is gone. -/
theorem logged_spec {α : Type} {x : EStateM (Halt WorkspaceError) Disk α} {P : α → Disk → Prop}
    {v' : Vault} (hx : Wp x P (Leaves v v') b.disk)
    (hnone : Wp x (fun _ d => NoneFails d.outcomes) (fun halt _ => halt = .cut) b.disk) :
    Wp (logged x)
      (fun r b' => ∃ a, r = .ok a ∧ P a b'.disk ∧ OnDisk b b' ∧ b'.NoneFails)
      (fun halt b' => halt = .cut ∧ (b'.disk.Holds v ∨ b'.disk.Holds v') ∧ OnDisk b b') b := by
  rw [wp_logged]
  refine (hx.and hnone).mono (fun a d h => ⟨a, rfl, h.1, ⟨rfl, rfl⟩, h.2⟩) fun halt d h => ?_
  obtain ⟨hleaves, rfl⟩ := h
  exact ⟨rfl, hleaves, rfl, rfl⟩

/-- What is read of the log is what it says. -/
theorem loadPendingAssets_spec (h : b.NoneFails) (hv : b.disk.Holds v) :
    Wp (logged store.loadPendingAssets)
      (fun r b' => r = .ok v.pending ∧ b'.disk.Holds v ∧ OnDisk b b' ∧ b'.NoneFails)
      (fun halt b' => halt = .cut ∧ b'.disk.Holds v ∧ OnDisk b b') b := by
  have hread : Wp store.loadPendingAssets (fun pairs d' => pairs = v.pending ∧ d'.Holds v)
      (Leaves v v) b.disk :=
    (loadPairs_holds .pendingAssets hv v).mono
      (fun _ _ hread => ⟨hread.1.trans hv.spells.pending, hread.2⟩) fun _ _ => id
  refine (logged_spec hread (loadPairs_noneFails store Store.pendingAssetsPath h)).mono
    (fun r b' h' => ?_) fun halt b' h' => ⟨h'.1, h'.2.1.elim id id, h'.2.2⟩
  obtain ⟨_, rfl, ⟨rfl, hv'⟩, hsame, hnone⟩ := h'
  exact ⟨rfl, hv', hsame, hnone⟩

/-- The log is changed as a whole. -/
theorem updatePendingAssets_spec (hstore : inner.store = some store) (hencodes : Encodes)
    (h : b.NoneFails) (hv : b.disk.Holds v) (f : Finset TreePair → Finset TreePair) :
    Wp (updatePendingAssets inner f)
      (fun _ b' => b'.disk.Holds (v.withPending (f v.pending)) ∧ OnDisk b b' ∧ b'.NoneFails)
      (fun halt b' => halt = .cut ∧
        (b'.disk.Holds v ∨ b'.disk.Holds (v.withPending (f v.pending))) ∧ OnDisk b b') b := by
  unfold updatePendingAssets
  rw [hstore]
  dsimp only
  refine (loadPendingAssets_spec h hv).seq (fun r b₁ h₁ => ?_)
    fun halt b₁ h₁ => ⟨h₁.1, Or.inl h₁.2.1, h₁.2.2⟩
  obtain ⟨rfl, hv₁, hsame₁, hnone₁⟩ := h₁
  have hspells : ∀ bytes, StoreCodec.decodePairs bytes =
      some (inner.pairOrder.iter (f v.pending)) →
      (b₁.disk.shelf.put .pendingAssets bytes).Spells (v.withPending (f v.pending)) := by
    intro bytes hbytes
    have hset := hv₁.spells.setPending hbytes
    rwa [PairOrder.toFinset_iter] at hset
  have hwrite : Wp (store.storePendingAssets inner.pairOrder (f v.pending))
      (fun _ d' => d'.Holds (v.withPending (f v.pending)))
      (Leaves v (v.withPending (f v.pending))) b₁.disk :=
    storePairs_holds "the pending-asset log" .pendingAssets inner.pairOrder _ hv₁ hspells
  refine (logged_spec hwrite (storePairs_noneFails store _ .pendingAssets inner.pairOrder _ hencodes
    hnone₁)).seq (fun r b₂ h₂ => ?_) fun halt b₂ h₂ => ?_
  · obtain ⟨_, -, hv₂, hsame₂, hnone₂⟩ := h₂
    exact ⟨hv₂, ⟨hsame₂.state.trans hsame₁.state, hsame₂.index.trans hsame₁.index⟩, hnone₂⟩
  · exact ⟨h₂.1, h₂.2.1, h₂.2.2.state.trans hsame₁.state, h₂.2.2.index.trans hsame₁.index⟩

/-- Records can be encoded. -/
def EncodesRecords : Prop := ∀ record, ∃ bytes, StoreCodec.encodeRecord record = .ok bytes

/-- The record once what could be captured has been written. -/
def Vault.withCaptured (v : Vault) (treeId : Bytes32) : Option WorkspaceRecord → Vault
  | none => v
  | some record => { v with workspaces := v.workspaces.set treeId record }

@[simp] theorem Vault.withCaptured_pending (v : Vault) (treeId : Bytes32)
    (record : Option WorkspaceRecord) : (v.withCaptured treeId record).pending = v.pending := by
  cases record <;> rfl

/-- The snapshot is replaced as a whole. -/
theorem persist_spec (hstore : inner.store = some store) (hrecords : EncodesRecords)
    (h : b.NoneFails) (hv : b.disk.Holds v) :
    Wp (persist inner)
      (fun _ b' =>
        b'.disk.Holds (v.withCaptured inner.workspaceKey (capturedRecord inner b.state.1)) ∧
        OnDisk b b' ∧ b'.NoneFails)
      (fun halt b' => halt = .cut ∧ (b'.disk.Holds v ∨
        b'.disk.Holds (v.withCaptured inner.workspaceKey (capturedRecord inner b.state.1))) ∧
        OnDisk b b') b := by
  unfold persist
  rw [hstore]
  dsimp only
  rw [wp_bind, wp_get]
  cases capturedRecord inner b.state.1 with
  | none => exact ⟨hv, ⟨rfl, rfl⟩, h⟩
  | some record =>
      dsimp only
      have hnone : Wp (store.storeWorkspace inner.workspaceKey record)
          (fun _ d => NoneFails d.outcomes) (fun halt _ => halt = .cut) b.disk := by
        unfold Store.storeWorkspace
        obtain ⟨bytes, hbytes⟩ := hrecords record
        rw [wp_bind, wp_verdict, hbytes]
        exact writePrivate_noneFails store (.snapshot inner.workspaceKey) bytes h
      refine (logged_spec (storeWorkspace_holds inner.workspaceKey record hv) hnone).seq
        (fun r b₁ h₁ => ?_) fun halt b₁ h₁ => h₁
      obtain ⟨_, -, hv₁, hsame₁, hnone₁⟩ := h₁
      exact ⟨hv₁, hsame₁, hnone₁⟩

end Logs

/-! ## The segments -/

/-- The keys of a version's segments. -/
def partKeys (secret : Bytes32) (asset : DocumentUuid) : Set Bytes32 :=
  {key | rangeBytes (WorkspaceSecret.assetPrefix secret asset) <+: key.toBytes}

theorem assetPartKey_mem (secret : Bytes32) (asset : DocumentUuid) (part : U64) :
    WorkspaceSecret.assetPartKey secret asset part ∈ partKeys secret asset := by
  show rangeBytes _ <+: _
  rw [rangeBytes_prefix_iff, assetPrefix_val]
  exact Slot.key_div secret (.assetPart asset part)

/-- No entry of this author goes. -/
def Holding (author : Bytes32) (e e' : Entries Bytes32 UInt8 (Bytes32 × Nat)) : Prop :=
  ∀ key : Bytes32, (e author key.toBytes).isSome → (e' author key.toBytes).isSome

/-- How a program that stores segments ends if it does not return. -/
def StoppedAside (author : Bytes32) (keys : Set Bytes32) (b : Bench) (halt : Halt AssetError)
    (b' : Bench) : Prop :=
  OnlyAt author keys b.entries b'.entries ∧ Aside b b' ∧
    (halt = .cut ∨ (∃ e, halt = .failed e) ∧ b'.NoneFails)

section Segments

variable [LawfulStores] {inner : AttachInner} {b : Bench}

theorem Holding.put (author : Bytes32) (key : Bytes32) (entry : Bytes32 × Nat)
    (e : Entries Bytes32 UInt8 (Bytes32 × Nat)) :
    Holding author e (e.put author key.toBytes entry) := by
  intro other hsome
  rw [Entries.put_apply ((length_keyBytes _).trans (length_keyBytes _).symm)]
  split_ifs
  · rfl
  · exact hsome

omit [Keyhive] [Loro] [Postcard] [StoreCodec] [SegmentCipher] in
/-- A write that is not refused. -/
theorem setHash_done (hwrites : Writes) (author : Bytes32) (key : Bytes) (hash : Bytes32)
    (size : Nat) (d : Stores.Doc) :
    Wp (Stores.setHash author key hash size)
      (fun _ d' => Stores.entries d' = (Stores.entries d).put author key (hash, size))
      (fun _ d' => Stores.entries d' = (Stores.entries d).put author key (hash, size)) d := by
  obtain ⟨_, hrun⟩ := run_of_succeeds (hwrites author key hash size d)
  have hput := (LawfulStores.setHash_spec author key hash size d).of_ok hrun
  unfold Wp
  rw [hrun]
  exact hput

/-- One segment is indexed, or nothing has changed but its key. -/
theorem storeSegment_spec (hwrites : Writes) (h : b.NoneFails) {keys : Set Bytes32}
    {key : Bytes32} (hkey : key ∈ keys) (ciphertext : Bytes) :
    Wp (storeSegment inner key ciphertext)
      (fun _ b' => ((b'.entries inner.author key.toBytes).isSome ∧
        Holding inner.author b.entries b'.entries) ∧
        OnlyAt inner.author keys b.entries b'.entries ∧ Aside b b' ∧ b'.NoneFails)
      (StoppedAside inner.author keys b) b := by
  unfold storeSegment
  rw [wp_bind, wp_verdict]
  cases Stores.addBytes ciphertext with
  | error e => exact ⟨.refl _ _ _, .refl b, Or.inr ⟨⟨_, rfl⟩, h⟩⟩
  | ok hash =>
      refine (indexCall_spec (R := fun d => OnlyAt inner.author keys b.entries (Stores.entries d)) h
        (setHash_done hwrites inner.author key.toBytes hash ciphertext.length b.index)
        (hwrites _ _ _ _ _) (.refl _ _ _) fun d hput => ?_).mono (fun _ b' h' => ?_)
        fun halt b' h' => ⟨h'.2.1, h'.2.2, Or.inl h'.1⟩
      · rw [hput]
        exact .put _ hkey _ _
      · obtain ⟨hput, haside, hnone⟩ := h'
        have hentries :
            b'.entries = b.entries.put inner.author key.toBytes (hash, ciphertext.length) := hput
        rw [hentries]
        refine ⟨⟨?_, .put _ _ _ _⟩, .put _ hkey _ _, haside, hnone⟩
        rw [Entries.put_apply rfl, if_pos ⟨rfl, rfl⟩]
        rfl

/-- The segments from one position on are indexed, or nothing has changed but their keys. -/
theorem storeSegmentsFrom_spec (hwrites : Writes) (uuid : DocumentUuid) (key : Bytes32)
    (segments : U64) (segmentBytes : U32) (left index remaining : Nat) (file : Bytes)
    (digest : ContentDigest) (h : b.NoneFails) :
    Wp (storeSegmentsFrom inner uuid key segments segmentBytes left index remaining file digest)
      (fun _ b' => ((∀ i, index ≤ i → i < index + left → (b'.entries inner.author
        (WorkspaceSecret.assetPartKey inner.secret uuid (Fin.ofNat _ i)).toBytes).isSome) ∧
        Holding inner.author b.entries b'.entries) ∧
        OnlyAt inner.author (partKeys inner.secret uuid) b.entries b'.entries ∧ Aside b b' ∧
        b'.NoneFails)
      (StoppedAside inner.author (partKeys inner.secret uuid) b) b := by
  induction left generalizing b index remaining file digest with
  | zero =>
      exact ⟨⟨fun i hlow hhigh => absurd hlow (by omega), fun _ => id⟩, .refl _ _ _, .refl b, h⟩
  | succ left ih =>
      unfold storeSegmentsFrom
      dsimp only
      rw [wp_bind, wp_verdict]
      cases readExact (min remaining segmentBytes.val) file with
      | error e => exact ⟨.refl _ _ _, .refl b, Or.inr ⟨⟨_, rfl⟩, h⟩⟩
      | ok r =>
          dsimp only [Except.mapError]
          rw [wp_bind, wp_verdict]
          cases sealSegment key uuid index segments segmentBytes r.1 with
          | error e => exact ⟨.refl _ _ _, .refl b, Or.inr ⟨⟨_, rfl⟩, h⟩⟩
          | ok sealed =>
              dsimp only [Except.mapError]
              refine (storeSegment_spec hwrites h (assetPartKey_mem inner.secret uuid _)
                sealed).seq (fun _ b₁ h₁ => ?_) fun _ _ => id
              obtain ⟨⟨hhere, hholding⟩, honly, haside, hnone⟩ := h₁
              refine (ih (index + 1) (remaining - min remaining segmentBytes.val) r.2
                (digest.update r.1) hnone).mono (fun _ b' h' => ?_) fun _ b' h' => ?_
              · obtain ⟨⟨hrest, hholding'⟩, honly', haside', hnone'⟩ := h'
                refine ⟨⟨fun i hlow hhigh => ?_,
                  fun key hsome => hholding' key (hholding key hsome)⟩,
                  honly.trans honly', haside.trans haside', hnone'⟩
                rcases Nat.eq_or_lt_of_le hlow with rfl | hlater
                · exact hholding' _ hhere
                · exact hrest i hlater (by omega)
              · exact ⟨honly.trans h'.1, haside.trans h'.2.1, h'.2.2⟩

/-- All the segments are indexed, or nothing has changed but their keys. -/
theorem storeSegments_spec (hwrites : Writes) (uuid : DocumentUuid) (key : Bytes32)
    (size segments : U64) (segmentBytes : U32) (file : Except AssetError Bytes) (h : b.NoneFails) :
    Wp (storeSegments inner uuid key size segments segmentBytes file)
      (fun _ b' => (∀ part : U64, part < segments → (b'.entries inner.author
        (WorkspaceSecret.assetPartKey inner.secret uuid part).toBytes).isSome) ∧
        OnlyAt inner.author (partKeys inner.secret uuid) b.entries b'.entries ∧ Aside b b' ∧
        b'.NoneFails)
      (StoppedAside inner.author (partKeys inner.secret uuid) b) b := by
  unfold storeSegments
  rw [wp_bind, wp_verdict]
  cases file with
  | error e => exact ⟨.refl _ _ _, .refl b, Or.inr ⟨⟨_, rfl⟩, h⟩⟩
  | ok file =>
      refine (storeSegmentsFrom_spec hwrites uuid key segments segmentBytes segments.val 0 size.val
        file ContentDigest.new h).seq (fun _ b' h' => ?_) fun _ _ => id
      obtain ⟨⟨hall, -⟩, honly, haside, hnone⟩ := h'
      refine ⟨fun part hpart => ?_, honly, haside, hnone⟩
      have hpart' := hall part.val (Nat.zero_le _) (by rw [Nat.zero_add]; exact hpart)
      rwa [Fin.ofNat_val_eq_self] at hpart'

end Segments

/-! ## What the core asks for -/

section Effects

variable [LawfulStores]

theorem confined_broadcasts {author : Bytes32} {keys : Set Bytes32} (ops : List ControlOp)
    {last : Effect} (hlast : Confined author keys (indexEffect author last)) :
    ∀ effect ∈ ops.map Effect.broadcast ++ [last],
      Confined author keys (indexEffect author effect) := by
  intro effect hmem
  rcases List.mem_append.mp hmem with hmem | hmem
  · obtain ⟨op, -, rfl⟩ := List.mem_map.mp hmem
    exact fun d => .refl _ _ _
  · rw [List.mem_singleton.mp hmem]
    exact hlast

/-- Sealing a content key asks for the entry of that key. -/
theorem sealAssetKey_effects (author : Bytes32) (asset : DocumentUuid)
    (p : WorkspaceState × Rng) :
    Wp (sealAssetKey asset)
      (fun r p' => p'.1.secret = p.1.secret ∧ ∀ effect ∈ r.2,
        Confined author {WorkspaceSecret.assetKeyKey p.1.secret asset} (indexEffect author effect))
      (fun _ _ => True) p := by
  unfold sealAssetKey
  refine (requireWrite_alone p).seq ?_ fun _ _ _ => trivial
  rintro _ p₁ (rfl : p₁ = p)
  rw [wp_bind, wp_get, wp_bind, wp_set]
  unfold publishAssetKey
  rw [wp_bind, wp_bind]
  have hkeeps : Keeps (fun p : WorkspaceState × Rng => p.1.secret)
      (encryptKeyed (Beekem.randomKey p₁.2).1.toBytes [] .current) :=
    encryptKeyed_keeps (fun _ _ _ _ => rfl) _ [] .current
  refine (hkeeps _).mono (fun keyed p₂ hsecret => ?_) fun _ _ _ => trivial
  rw [wp_bind, wp_self, wp_pure, wp_pure]
  have hsecret' : p₂.1.secret = p₁.1.secret := hsecret
  refine ⟨hsecret', confined_broadcasts keyed.2 ?_⟩
  rw [hsecret']
  exact confined_storeChunk author (Set.mem_singleton _) keyed.1

/-- Declaring a version asks for the entry of the manifest. -/
theorem addAssetVersion_effects (author : Bytes32) (doc content : DocumentUuid)
    (assetMeta : AssetMeta) (now : UnixSeconds) (p : WorkspaceState × Rng) :
    Wp (addAssetVersion doc content assetMeta now)
      (fun effects p' => p'.1.secret = p.1.secret ∧ ∀ effect ∈ effects,
        Confined author {WorkspaceSecret.manifestKey p.1.secret} (indexEffect author effect))
      (fun _ _ => True) p := by
  unfold addAssetVersion
  refine (requireWrite_alone p).seq ?_ fun _ _ _ => trivial
  rintro _ p₁ (rfl : p₁ = p)
  rw [wp_bind, wp_self]
  refine (onManifest_secret _ p₁).seq (fun _ p₂ hsecret₂ => ?_) fun _ _ _ => trivial
  unfold publishManifest
  refine (onManifest_secret Manifest.exportSnapshot p₂).seq (fun snapshot p₃ hsecret₃ => ?_)
    fun _ _ _ => trivial
  have hkeeps : Keeps (fun p : WorkspaceState × Rng => p.1.secret)
      (encryptKeyed snapshot [] .current) := encryptKeyed_keeps (fun _ _ _ _ => rfl) _ [] .current
  refine (hkeeps p₃).seq (fun keyed p₄ hsecret₄ => ?_) fun _ _ _ => trivial
  rw [wp_bind, wp_self, wp_pure]
  have hsecret : p₄.1.secret = p₁.1.secret := hsecret₄.trans (hsecret₃.trans hsecret₂)
  refine ⟨hsecret, confined_broadcasts keyed.2 ?_⟩
  rw [hsecret]
  exact confined_storeChunk author (Set.mem_singleton _) keyed.1

end Effects

/-! ## Where an attachment can stop -/

/-- All the segments of a version of this size are indexed. -/
def AllParts (inner : AttachInner) (content : DocumentUuid) (segments : U64)
    (e : Entries Bytes32 UInt8 (Bytes32 × Nat)) : Prop :=
  ∀ part < segments,
    (e inner.author (WorkspaceSecret.assetPartKey inner.secret content part).toBytes).isSome

/-- The keys an attachment writes under. -/
def attachKeys (secret : Bytes32) (content : DocumentUuid) : Set Bytes32 :=
  {WorkspaceSecret.manifestKey secret} ∪ assetKeys secret content

/-- What an attachment has done by the time it ends, one way or the other: it has not noted
the version yet and written no segment; or the version is in the log; or it has been taken from
the log again, withdrawn as a whole or there as a whole. -/
inductive Stopped (inner : AttachInner) (content : DocumentUuid) (segments : U64) (v : Vault)
    (b b' : Bench) : Prop where
  | unnoted {v' : Vault} (hholds : b'.disk.Holds v') (hpending : v'.pending = v.pending)
      (honly : OnlyAt inner.author {WorkspaceSecret.assetKeyKey inner.secret content}
        b.entries b'.entries)
  | noted {v' : Vault} (hholds : b'.disk.Holds v')
      (hpending : v'.pending = insert (inner.workspaceKey, content) v.pending)
      (honly : OnlyAt inner.author (attachKeys inner.secret content) b.entries b'.entries)
  | withdrawn {v' : Vault} (hholds : b'.disk.Holds v') (hpending : v'.pending = v.pending)
      (honly : OnlyAt inner.author (attachKeys inner.secret content) b.entries b'.entries)
      (hgone : Gone inner.author inner.secret content b'.entries)
  | declared {v' : Vault} (hholds : b'.disk.Holds v') (hpending : v'.pending = v.pending)
      (honly : OnlyAt inner.author (attachKeys inner.secret content) b.entries b'.entries)
      (hparts : AllParts inner content segments b'.entries)

section Stages

variable [LawfulStores] [LawfulStoreCodec] {inner : AttachInner} {store : Store} {b₀ b : Bench}
  {v₀ v : Vault} {content : DocumentUuid} {segments : U64}

/-- What an attachment relies on: a persistent node, files that can be encoded, and an index
that does what it is asked. -/
structure Reliable (inner : AttachInner) (store : Store) : Prop where
  store : inner.store = some store
  pairs : Encodes
  records : EncodesRecords
  withdraws : Withdraws
  writes : Writes

/-- A version that is not in the log can be noted and forgotten without a trace. -/
theorem foldl_erase_singleton (pending : Finset TreePair) (workspaceKey : Bytes32)
    (hnew : (workspaceKey, content) ∉ pending) :
    [content].foldl (fun pending uuid => pending.erase (workspaceKey, uuid))
      (insert (workspaceKey, content) pending) = pending :=
  Finset.erase_insert hnew

/-- The version is in the log, and so it can be forgotten. -/
theorem clear_spec (hreliable : Reliable inner store) (h : b.NoneFails) (hv : b.disk.Holds v)
    (hpending : v.pending = insert (inner.workspaceKey, content) v₀.pending)
    (hnew : (inner.workspaceKey, content) ∉ v₀.pending) :
    Wp (clearPendingAssets inner [content])
      (fun _ b' => b'.disk.Holds (v.withPending v₀.pending) ∧ OnDisk b b' ∧ b'.NoneFails)
      (fun halt b' => halt = .cut ∧
        (b'.disk.Holds v ∨ b'.disk.Holds (v.withPending v₀.pending)) ∧ OnDisk b b') b := by
  have hcleared := updatePendingAssets_spec hreliable.store hreliable.pairs h hv
    fun pending => [content].foldl
      (fun pending uuid => pending.erase (inner.workspaceKey, uuid)) pending
  rw [hpending, foldl_erase_singleton _ _ hnew] at hcleared
  exact hcleared

/-- Declaring a version whose segments are all there. -/
theorem declareVersion_spec (hreliable : Reliable inner store) (h : b.NoneFails)
    (hv : b.disk.Holds v) (hsecret : b.state.1.secret = inner.secret)
    (hpending : v.pending = insert (inner.workspaceKey, content) v₀.pending)
    (hnew : (inner.workspaceKey, content) ∉ v₀.pending)
    (honly : OnlyAt inner.author (attachKeys inner.secret content) b₀.entries b.entries)
    (hparts : AllParts inner content segments b.entries)
    (hmanifest : ∀ part, WorkspaceSecret.assetPartKey inner.secret content part ≠
      WorkspaceSecret.manifestKey inner.secret)
    (entry : DocumentUuid) (assetMeta : AssetMeta) (now : UnixSeconds) :
    Wp (declareVersion inner entry content assetMeta now)
      (fun _ b' => Stopped inner content segments v₀ b₀ b' ∧ ∃ v', b'.disk.Holds v' ∧
        v'.pending = v₀.pending ∧ AllParts inner content segments b'.entries)
      (fun _ b' => Stopped inner content segments v₀ b₀ b') b := by
  unfold declareVersion onState
  rw [wp_bind, wp_zoom]
  have heffects := addAssetVersion_effects inner.author entry content assetMeta now b.state
  refine heffects.mono (fun effects p hp => ?_) fun e p _ => .noted hv hpending honly
  obtain ⟨-, hconfined⟩ := hp
  rw [hsecret] at hconfined
  have hb₁ : Bench.NoneFails { b with state := p } := h
  have hmanifestKey : ({WorkspaceSecret.manifestKey inner.secret} : Set Bytes32) ⊆
      attachKeys inner.secret content := Set.subset_union_left
  -- The manifest is indexed.
  refine (applyEffects_spec hb₁ hconfined).seq (fun _ b₂ h₂ => ?_) fun _ b₂ h₂ => ?_
  · obtain ⟨honly₂, haside₂, hnone₂⟩ := h₂
    have hv₂ : b₂.disk.Holds v := hv.of_files haside₂.files
    have honly' := honly.trans (honly₂.mono hmanifestKey)
    have hparts₂ : AllParts inner content segments b₂.entries := by
      intro part hpart
      rw [honly₂.here (hmanifest part)]
      exact hparts part hpart
    -- The snapshot is written.
    refine (persist_spec hreliable.store hreliable.records hnone₂ hv₂).seq (fun _ b₃ h₃ => ?_)
      fun _ b₃ h₃ => ?_
    · obtain ⟨hv₃, hsame₃, hnone₃⟩ := h₃
      have hentries₃ : b₃.entries = b₂.entries := congrArg Stores.entries hsame₃.index
      have hpending₃ :
          (v.withCaptured inner.workspaceKey (capturedRecord inner b₂.state.1)).pending =
            insert (inner.workspaceKey, content) v₀.pending := by
        rw [Vault.withCaptured_pending, hpending]
      have hpolicy : Wp (pure () : EStateM String Stores.Doc Unit) (fun _ d => d = b₃.index)
          (fun _ d => d = b₃.index) b₃.index := rfl
      refine (indexLogged_spec (R := fun d => d = b₃.index) hnone₃ hpolicy rfl fun _ => id).seq
        (fun _ b₄ h₄ => ?_) fun _ b₄ h₄ => ?_
      · obtain ⟨hindex₄, haside₄, hnone₄⟩ := h₄
        have hentries₄ : b₄.entries = b₂.entries :=
          (congrArg Stores.entries hindex₄).trans hentries₃
        -- The version goes from the log.
        refine (clear_spec hreliable hnone₄ (hv₃.of_files haside₄.files) hpending₃ hnew).mono
          (fun _ b₅ h₅ => ?_) fun _ b₅ h₅ => ?_
        · obtain ⟨hv₅, hsame₅, -⟩ := h₅
          have hentries₅ : b₅.entries = b₂.entries :=
            (congrArg Stores.entries hsame₅.index).trans hentries₄
          have hparts₅ : AllParts inner content segments b₅.entries := hentries₅ ▸ hparts₂
          exact ⟨.declared hv₅ rfl (hentries₅ ▸ honly') hparts₅, _, hv₅, rfl, hparts₅⟩
        · obtain ⟨-, hleft, hsame₅⟩ := h₅
          have hentries₅ : b₅.entries = b₂.entries :=
            (congrArg Stores.entries hsame₅.index).trans hentries₄
          rcases hleft with hbefore | hafter
          · exact .noted hbefore hpending₃ (hentries₅ ▸ honly')
          · exact .declared hafter rfl (hentries₅ ▸ honly') (hentries₅ ▸ hparts₂)
      · obtain ⟨-, hindex₄, haside₄⟩ := h₄
        have hentries₄ : b₄.entries = b₂.entries :=
          (congrArg Stores.entries hindex₄).trans hentries₃
        exact .noted (hv₃.of_files haside₄.files) hpending₃ (hentries₄ ▸ honly')
    · obtain ⟨-, hleft, hsame₃⟩ := h₃
      have hentries₃ : b₃.entries = b₂.entries := congrArg Stores.entries hsame₃.index
      rcases hleft with hbefore | hafter
      · exact .noted hbefore hpending (hentries₃ ▸ honly')
      · refine .noted hafter ?_ (hentries₃ ▸ honly')
        rw [Vault.withCaptured_pending, hpending]
  · exact .noted (hv.of_files h₂.2.2.files) hpending (honly.trans (h₂.2.1.mono hmanifestKey))

/-- Withdrawing a version that is in the log. -/
theorem abandonVersion_spec (hreliable : Reliable inner store) (h : b.NoneFails)
    (hv : b.disk.Holds v)
    (hpending : v.pending = insert (inner.workspaceKey, content) v₀.pending)
    (hnew : (inner.workspaceKey, content) ∉ v₀.pending)
    (honly : OnlyAt inner.author (attachKeys inner.secret content) b₀.entries b.entries)
    (e : AssetError) :
    Wp (abandonVersion inner content e) (fun _ _ => False)
      (fun _ b' => Stopped inner content segments v₀ b₀ b') b := by
  have hkeys : assetKeys inner.secret content ⊆ attachKeys inner.secret content :=
    Set.subset_union_right
  unfold abandonVersion
  refine (discardPartialAsset_spec hreliable.withdraws h content).seq (fun _ b₁ h₁ => ?_)
    fun _ b₁ h₁ => ?_
  · obtain ⟨⟨hgone, -, honly₁⟩, haside₁, hnone₁⟩ := h₁
    have honly' := honly.trans (honly₁.mono hkeys)
    refine (clear_spec hreliable hnone₁ (hv.of_files haside₁.files) hpending hnew).seq
      (fun _ b₂ h₂ => ?_) fun _ b₂ h₂ => ?_
    · obtain ⟨hv₂, hsame₂, -⟩ := h₂
      have hentries₂ : b₂.entries = b₁.entries := congrArg Stores.entries hsame₂.index
      exact .withdrawn hv₂ rfl (hentries₂ ▸ honly') (hentries₂ ▸ hgone)
    · obtain ⟨-, hleft, hsame₂⟩ := h₂
      have hentries₂ : b₂.entries = b₁.entries := congrArg Stores.entries hsame₂.index
      rcases hleft with hbefore | hafter
      · exact .noted hbefore hpending (hentries₂ ▸ honly')
      · exact .withdrawn hafter rfl (hentries₂ ▸ honly') (hentries₂ ▸ hgone)
  · obtain ⟨-, ⟨-, honly₁⟩, haside₁⟩ := h₁
    exact .noted (hv.of_files haside₁.files) hpending (honly.trans (honly₁.mono hkeys))

/-- The segments an attachment of a file of this size writes. -/
def segmentsOf (size : Except AssetError U64) : U64 :=
  match size with
  | .ok size => AssetMeta.segmentsFor size assetSegmentBytes
  | .error _ => 0

/-- Wherever an attachment stops, it has stopped at one of these points; if it returns, the
version is there as a whole and is in the log no more. -/
theorem attachVersion_spec (hreliable : Reliable inner store)
    (hseparates : Separates inner.secret) (h : b.NoneFails) (hv : b.disk.Holds v)
    (hsecret : b.state.1.secret = inner.secret)
    (hnew : (inner.workspaceKey, content) ∉ v.pending) (entry : DocumentUuid)
    (size : Except AssetError U64) (file : Except AssetError Bytes) (now : UnixSeconds) :
    Wp (attachVersion inner entry content size file now)
      (fun _ b' => Stopped inner content (segmentsOf size) v b b' ∧ ∃ v', b'.disk.Holds v' ∧
        v'.pending = v.pending ∧ AllParts inner content (segmentsOf size) b'.entries)
      (fun _ b' => Stopped inner content (segmentsOf size) v b b') b := by
  have hkeyKey : ({WorkspaceSecret.assetKeyKey inner.secret content} : Set Bytes32) ⊆
      attachKeys inner.secret content := fun key hkey => Or.inr (Or.inl hkey)
  have hpartKeys : partKeys inner.secret content ⊆ attachKeys inner.secret content :=
    fun key hkey => Or.inr (Or.inr hkey)
  have hmanifest : ∀ part, WorkspaceSecret.assetPartKey inner.secret content part ≠
      WorkspaceSecret.manifestKey inner.secret := fun part hkey =>
    absurd (hseparates.key_injective
      (show (Slot.assetPart content part).key inner.secret = Slot.manifest.key inner.secret
        from hkey)) (by simp)
  unfold attachVersion
  rw [wp_bind, wp_verdict]
  cases size with
  | error e => exact .unnoted hv rfl (.refl _ _ _)
  | ok size =>
      dsimp only [Except.mapError]
      unfold onState
      rw [wp_bind, wp_zoom]
      refine (sealAssetKey_effects inner.author content b.state).mono (fun r p hp => ?_)
        fun _ _ _ => .unnoted hv rfl (.refl _ _ _)
      obtain ⟨hsecret₁, hconfined⟩ := hp
      rw [hsecret] at hconfined hsecret₁
      have hb₁ : Bench.NoneFails { b with state := p } := h
      -- The content key is indexed.
      refine (applyEffects_spec hb₁ hconfined).seq (fun _ b₂ h₂ => ?_) fun _ b₂ h₂ => ?_
      · obtain ⟨honly₂, haside₂, hnone₂⟩ := h₂
        have hv₂ : b₂.disk.Holds v := hv.of_files haside₂.files
        -- The version is noted.
        refine (updatePendingAssets_spec hreliable.store hreliable.pairs hnone₂ hv₂ _).seq
          (fun _ b₃ h₃ => ?_) fun _ b₃ h₃ => ?_
        · obtain ⟨hv₃, hsame₃, hnone₃⟩ := h₃
          have hentries₃ : b₃.entries = b₂.entries := congrArg Stores.entries hsame₃.index
          have honly₃ :
              OnlyAt inner.author (attachKeys inner.secret content) b.entries b₃.entries :=
            hentries₃ ▸ honly₂.mono hkeyKey
          -- The segments are indexed.
          rw [wp_bind, wp_recover]
          refine (storeSegments_spec hreliable.writes content r.1 size _ _ file hnone₃).mono
            (fun contentHash b₄ h₄ => ?_) fun halt b₄ h₄ => ?_
          · obtain ⟨hparts, honly₄, haside₄, hnone₄⟩ := h₄
            have hsecret₄ : b₄.state.1.secret = inner.secret := by
              rw [haside₄.state, hsame₃.state, haside₂.state]
              exact hsecret₁
            exact declareVersion_spec hreliable hnone₄ (hv₃.of_files haside₄.files) hsecret₄ rfl
              hnew (honly₃.trans (honly₄.mono hpartKeys)) hparts hmanifest entry _ now
          · obtain ⟨honly₄, haside₄, hend⟩ := h₄
            have hv₄ := hv₃.of_files haside₄.files
            have honly' := honly₃.trans (honly₄.mono hpartKeys)
            rcases hend with rfl | ⟨⟨e, rfl⟩, hnone₄⟩
            · exact .noted hv₄ rfl honly'
            · exact (abandonVersion_spec hreliable hnone₄ hv₄ rfl hnew honly' e).mono
                (fun _ _ => False.elim) fun _ _ => id
        · obtain ⟨-, hleft, hsame₃⟩ := h₃
          have hentries₃ : b₃.entries = b₂.entries := congrArg Stores.entries hsame₃.index
          rcases hleft with hbefore | hafter
          · exact .unnoted hbefore rfl (hentries₃ ▸ honly₂)
          · exact .noted hafter rfl (hentries₃ ▸ honly₂.mono hkeyKey)
      · exact .unnoted (hv.of_files h₂.2.2.files) rfl h₂.2.1

end Stages

end IrohBeekem
