import Mathlib
import IrohBeekem.Docs.Versions
import IrohBeekem.State.Books
import IrohBeekem.State.ListModel

/-!
# The history of an asset

Attaching a version and going back to one both record a version, with a sequence number
one past the highest that is listed.  `recording_extends_history` says exactly when the
history of the entry has only grown: unless the entry has the shape from before there were
versions, the field of the new record holds the only record of another version, or the
sequence numbers have run out.

What is listed is what is deleted with the entry, and what a rotation carries over.
-/

set_option linter.unusedSectionVars false

namespace IrohBeekem

open Library Manifest

variable [Keyhive] [Beekem] [Loro] [Postcard]

/-- The storage key of one segment: the prefix its asset has, and the position. -/
def WorkspaceSecret.assetPartKey (secret : Bytes32) (asset : DocumentUuid) (part : U64) : Bytes32 :=
  Fin.ofNat _ ((WorkspaceSecret.assetPrefix secret asset).val * 2 ^ 64 + part.val)

namespace WorkspaceState

/-- Every storage key that assets take: for each version its key and its segments. -/
def assetIndexKeys (s : WorkspaceState) : List Bytes32 :=
  s.manifest.files.flatMap fun entry =>
    (s.manifest.assetVersions entry.uuid).flatMap fun version =>
      WorkspaceSecret.assetKeyKey s.secret version.content ::
        (List.range version.assetMeta.segments.val).map fun index =>
          WorkspaceSecret.assetPartKey s.secret version.content (Fin.ofNat _ index)

/-- The version that attaching some content would record now. -/
def nextVersion (s : WorkspaceState) (doc content : DocumentUuid) (assetMeta : AssetMeta)
    (now : UnixSeconds) : AssetVersion where
  content := content
  assetMeta := assetMeta
  author := s.memberId
  date := now
  seq := CapabilityStore.nextAfter ((s.manifest.assetVersions doc).map AssetVersion.seq)

/-! ## What a call leaves of the manifest -/

/-- What the maps of the manifest hold. -/
def entries (p : WorkspaceState × Rng) : MapPath → String → Option LoroEntry :=
  Loro.get p.1.manifest

theorem requireWrite_entries : Keeps entries requireWrite := fun p =>
  (requireWrite_alone p).mono (fun _ _ h => congrArg entries h) fun _ _ h => congrArg entries h

/-- Publishing the manifest touches the manifest, the controller and the generator. -/
theorem publishManifest_keeps {γ : Type} {part : WorkspaceState × Rng → γ}
    (hexport : Keeps part (onManifest Manifest.exportSnapshot))
    (h : ∀ (c : CgkaController) (s : WorkspaceState) (rng rng' : Rng),
      part ({ s with cgka := c }, rng') = part (s, rng)) (keying : Keying) :
    Keeps part (publishManifest keying) := by
  refine hexport.bind fun snapshot => (encryptKeyed_keeps h snapshot [] keying).bind fun keyed => ?_
  exact (Keeps.bind .get fun _ => .pure _ : Keeps part self).bind fun _ => .pure _

theorem onManifest_secret {α : Type} (x : EStateM CoreError Manifest α) :
    Keeps (fun p => p.1.secret) (onManifest x) := by
  unfold onManifest
  refine .zoom ?_ x
  exact fun _ _ => rfl

variable [LawfulMaps]

theorem exportSnapshot_entries : Keeps entries (onManifest Manifest.exportSnapshot) := by
  rintro ⟨s, rng⟩
  unfold onManifest Manifest.exportSnapshot
  rw [wp_zoom, wp_bind, wp_modify, wp_bind, wp_get, wp_verdict]
  split
  · exact LawfulMaps.get_commit s.manifest
  · exact LawfulMaps.get_commit s.manifest

/-- Adding a version writes the next one to the manifest, and otherwise publishes. -/
theorem addAssetVersion_writes (doc content : DocumentUuid) (assetMeta : AssetMeta)
    (now : UnixSeconds) (s : WorkspaceState) (rng : Rng) :
    Wp (addAssetVersion doc content assetMeta now)
      (fun _ p => p.1.secret = s.secret ∧ ∃ m, Manifest.addAssetVersion doc
        (s.nextVersion doc content assetMeta now) s.manifest = .ok () m ∧ entries p = Loro.get m)
      (fun _ _ => True) (s, rng) := by
  unfold addAssetVersion
  refine (requireWrite_alone (s, rng)).seq ?_ fun _ _ _ => trivial
  rintro _ _ rfl
  rw [wp_bind, wp_self, wp_bind]
  unfold onManifest
  rw [wp_zoom]
  refine wp_of_run (fun _ m hrun => ?_) fun _ _ _ => trivial
  have hentries := publishManifest_keeps exportSnapshot_entries (fun _ _ _ _ => rfl) .current
  have hsecret := publishManifest_keeps (onManifest_secret _) (fun _ _ _ _ => rfl) .current
  refine ((hentries _).and (hsecret _)).mono ?_ fun _ _ _ => trivial
  rintro _ p ⟨hentries, hsecret⟩
  exact ⟨hsecret, m, hrun, hentries⟩

/-! ## Recording a version -/

/-- The two ways a version of an asset is recorded. -/
inductive Recording where
  | attach (content : DocumentUuid) (assetMeta : AssetMeta)
  | revert (content : DocumentUuid)

/-- The call. -/
def Recording.run (doc : DocumentUuid) (now : UnixSeconds) : Recording → Run (List Effect)
  | .attach content assetMeta => addAssetVersion doc content assetMeta now
  | .revert content => revertAsset doc content now

/-- The version it records. -/
def Recording.version (s : WorkspaceState) (doc : DocumentUuid) (now : UnixSeconds) :
    Recording → Option AssetVersion
  | .attach content assetMeta => some (s.nextVersion doc content assetMeta now)
  | .revert content =>
      ((s.manifest.assetVersions doc).find? fun version => version.content = content).map
        fun target => s.nextVersion doc content target.assetMeta now

/-- What a recording that succeeds has done to the manifest. -/
theorem Recording.run_writes (recording : Recording) (doc : DocumentUuid) (now : UnixSeconds)
    (s : WorkspaceState) (rng : Rng) :
    Wp (recording.run doc now)
      (fun _ p => p.1.secret = s.secret ∧ ∃ new m, recording.version s doc now = some new ∧
        Manifest.addAssetVersion doc new s.manifest = .ok () m ∧ entries p = Loro.get m)
      (fun _ _ => True) (s, rng) := by
  have hadd : ∀ content assetMeta,
      recording.version s doc now = some (s.nextVersion doc content assetMeta now) →
      Wp (addAssetVersion doc content assetMeta now)
        (fun _ p => p.1.secret = s.secret ∧ ∃ new m, recording.version s doc now = some new ∧
          Manifest.addAssetVersion doc new s.manifest = .ok () m ∧ entries p = Loro.get m)
        (fun _ _ => True) (s, rng) := by
    intro content assetMeta hversion
    refine (addAssetVersion_writes doc content assetMeta now s rng).mono ?_ fun _ _ => id
    rintro _ p ⟨hsecret, m, hwrite, hentries⟩
    exact ⟨hsecret, _, m, hversion, hwrite, hentries⟩
  cases recording with
  | attach content assetMeta => exact hadd content assetMeta rfl
  | revert content =>
      unfold Recording.run revertAsset
      refine (requireWrite_alone (s, rng)).seq ?_ fun _ _ _ => trivial
      rintro _ p (rfl : p = (s, rng))
      rw [wp_bind, wp_self]
      cases htarget : (s.manifest.assetVersions doc).find? fun version =>
          version.content = content with
      | none => trivial
      | some target =>
          refine hadd content target.assetMeta ?_
          simp only [Recording.version, htarget, Option.map_some]

/-! ## Histories that only grow -/

/-- Deleting the entry withdraws the key and the segments of this version, and a rotation
carries both over. -/
structure Covered (s : WorkspaceState) (doc : DocumentUuid) (version : AssetVersion) : Prop where
  key : WorkspaceSecret.assetKeyKey s.secret version.content ∈ s.assetIndexKeys
  segments : ∀ index < version.assetMeta.segments.val,
    WorkspaceSecret.assetPartKey s.secret version.content (Fin.ofNat _ index) ∈ s.assetIndexKeys
  deleted : ∀ rng effects p, onDeleteFile doc (s, rng) = .ok effects p →
    .deleteEntry (WorkspaceSecret.assetKeyKey s.secret version.content) version.content ∈ effects ∧
      .deleteAssetSegments (WorkspaceSecret.assetPrefix s.secret version.content)
        version.content ∈ effects

/-- Nothing that was listed is lost, the new version is listed last, and what was listed is
still covered. -/
structure HistoryGrows (s s' : WorkspaceState) (doc : DocumentUuid) (new : AssetVersion) : Prop where
  listed : ∀ v ∈ s.manifest.assetVersions doc, v ∈ s'.manifest.assetVersions doc
  read : Listing s'.manifest doc (s'.manifest.assetVersions doc)
  last : ∀ listed, Listing s'.manifest doc listed → listed.getLast? = some new
  covered : ∀ v ∈ s.manifest.assetVersions doc, Covered s' doc v

/-- The history of an entry takes a new version in: if it lists any, it records them, each
under another field than the new version's, and none of them at or above its precedence. -/
structure Appendable (m : Manifest) (doc : DocumentUuid) (new : AssetVersion) : Prop where
  versioned : recordedVersions m doc = [] → legacyAsset m doc = none
  apart : ∀ v ∈ recordedVersions m doc,
    v = new ∨ ∃ field, field ≠ versionField new ∧ versionAt m doc field = some v
  newest : ∀ v ∈ recordedVersions m doc, v.precedence < new.precedence ∨ v = new

/-- What is listed of an entry that is there is covered. -/
theorem covered_of_listed {s : WorkspaceState} {doc : DocumentUuid} {v : AssetVersion}
    (hmap : Loro.get s.manifest filesContainer (hex doc.toBytes) = some .map)
    (hv : v ∈ s.manifest.assetVersions doc) : Covered s doc v := by
  obtain ⟨entry, hentry, huuid⟩ := mem_files hmap
  have hindexed : ∀ key, (key = WorkspaceSecret.assetKeyKey s.secret v.content ∨
      ∃ index < v.assetMeta.segments.val,
        key = WorkspaceSecret.assetPartKey s.secret v.content (Fin.ofNat _ index)) →
      key ∈ s.assetIndexKeys := by
    intro key hkey
    refine List.mem_flatMap.mpr ⟨entry, hentry, List.mem_flatMap.mpr ⟨v, huuid ▸ hv, ?_⟩⟩
    obtain rfl | ⟨index, hindex, rfl⟩ := hkey
    · exact List.mem_cons_self
    · exact List.mem_cons_of_mem _ (List.mem_map.mpr ⟨index, List.mem_range.mpr hindex, rfl⟩)
  refine ⟨hindexed _ (Or.inl rfl), fun index hindex => hindexed _ (Or.inr ⟨index, hindex, rfl⟩), ?_⟩
  intro rng effects p hrun
  have hwithdrawn : Wp (onDeleteFile doc)
      (fun effects _ => .deleteEntry (WorkspaceSecret.assetKeyKey s.secret v.content) v.content ∈
          effects ∧
        .deleteAssetSegments (WorkspaceSecret.assetPrefix s.secret v.content) v.content ∈ effects)
      (fun _ _ => True) (s, rng) := by
    unfold onDeleteFile
    refine (requireWrite_alone (s, rng)).seq ?_ fun _ _ _ => trivial
    rintro _ p (rfl : p = (s, rng))
    rw [wp_bind, wp_self, wp_bind]
    refine wp_of_run (fun _ p₁ _ => ?_) fun _ _ _ => trivial
    rw [wp_bind]
    refine wp_of_run (fun _ p₂ _ => ?_) fun _ _ _ => trivial
    rw [wp_bind]
    refine wp_of_run (fun published p₃ _ => ?_) fun _ _ _ => trivial
    have hsome : (s.manifest.assetVersions doc).isEmpty = false := by
      simpa using List.ne_nil_of_mem hv
    simp only [hsome, Bool.false_eq_true, if_false, wp_pure]
    refine ⟨List.mem_append_left _ ?_, List.mem_append_left _ ?_⟩
    · exact List.mem_flatMap.mpr ⟨v, hv, List.mem_cons_self⟩
    · exact List.mem_flatMap.mpr ⟨v, hv, List.mem_cons_of_mem _ List.mem_cons_self⟩
  exact hwithdrawn.of_ok hrun

/-- What an entry of the old shape shows. -/
def legacyVersion (doc : DocumentUuid) (legacy : AssetMeta) : AssetVersion where
  content := doc
  assetMeta := legacy
  author := 0
  date := 0
  seq := 0

theorem assetVersions_legacy {m : Manifest} {doc : DocumentUuid} {legacy : AssetMeta}
    (hnone : recordedVersions m doc = []) (hlegacy : legacyAsset m doc = some legacy) :
    assetVersions m doc = [legacyVersion doc legacy] := by
  simp [assetVersions, hnone, hlegacy, legacyVersion]

theorem nextVersion_seq_legacy {s : WorkspaceState} {doc content : DocumentUuid}
    {assetMeta legacy : AssetMeta} {now : UnixSeconds}
    (hnone : recordedVersions s.manifest doc = [])
    (hlegacy : legacyAsset s.manifest doc = some legacy) :
    (s.nextVersion doc content assetMeta now).seq = 1 := by
  simp only [nextVersion, assetVersions_legacy hnone hlegacy, legacyVersion, List.map_cons,
    List.map_nil]
  decide

/-- What a recording records is the next version of some content. -/
theorem Recording.version_next {recording : Recording} {s : WorkspaceState} {doc : DocumentUuid}
    {now : UnixSeconds} {new : AssetVersion} (h : recording.version s doc now = some new) :
    ∃ content assetMeta now, new = s.nextVersion doc content assetMeta now := by
  cases recording with
  | attach content assetMeta => exact ⟨content, assetMeta, now, (Option.some.inj h).symm⟩
  | revert content =>
      obtain ⟨target, -, rfl⟩ := Option.map_eq_some_iff.mp h
      exact ⟨content, target.assetMeta, now, rfl⟩

/-- A version has been recorded: the entry is there, and records the version and what
other fields than the version's recorded. -/
structure Recorded (s s' : WorkspaceState) (doc : DocumentUuid) (new : AssetVersion) : Prop where
  map : Loro.get s'.manifest filesContainer (hex doc.toBytes) = some .map
  records : ∀ v, v ∈ recordedVersions s'.manifest doc ↔ v = new ∨
    Loro.get s.manifest filesContainer (hex doc.toBytes) = some .map ∧
      ∃ field, field ≠ versionField new ∧ versionAt s.manifest doc field = some v

theorem Recording.recorded [LawfulPostcard] {recording : Recording} {doc : DocumentUuid}
    {now : UnixSeconds} {s s' : WorkspaceState} {rng rng' : Rng} {effects : List Effect}
    (h : recording.run doc now (s, rng) = .ok effects (s', rng')) :
    ∃ new, recording.version s doc now = some new ∧ Recorded s s' doc new := by
  obtain ⟨-, new, m, hversion, hwrite, hentries⟩ := (recording.run_writes doc now s rng).of_ok h
  -- The manifest afterwards reads as what the write left.
  have hget : Loro.get s'.manifest = Loro.get m := hentries
  have hat : versionAt s'.manifest doc = versionAt m doc := by
    funext field
    simp only [versionAt, stringAt, hget]
  refine ⟨new, hversion, ?_, fun v => ?_⟩
  · rw [hget]
    exact ((addAssetVersion_fields doc new s.manifest).of_ok hwrite).1
  · rw [← addAssetVersion_recorded hwrite v, mem_recordedVersions, mem_recordedVersions, hat, hget]

namespace Recorded

variable {s s' : WorkspaceState} {doc : DocumentUuid} {new : AssetVersion}

theorem new_mem (h : Recorded s s' doc new) : new ∈ recordedVersions s'.manifest doc :=
  (h.records new).mpr (Or.inl rfl)

theorem mem_listed (h : Recorded s s' doc new) (v : AssetVersion) :
    v ∈ s'.manifest.assetVersions doc ↔ v ∈ recordedVersions s'.manifest doc :=
  mem_assetVersions (List.ne_nil_of_mem h.new_mem)

/-- What the old shape shows has sequence number zero, and the new version one. -/
theorem legacy_lost (h : Recorded s s' doc new)
    (hnext : ∃ content assetMeta now, new = s.nextVersion doc content assetMeta now)
    (hnone : recordedVersions s.manifest doc = []) {legacy : AssetMeta}
    (hlegacy : legacyAsset s.manifest doc = some legacy) :
    legacyVersion doc legacy ∈ s.manifest.assetVersions doc ∧
      legacyVersion doc legacy ∉ s'.manifest.assetVersions doc := by
  obtain ⟨content, assetMeta, now, rfl⟩ := hnext
  refine ⟨by rw [assetVersions_legacy hnone hlegacy]; exact List.mem_cons_self, fun hold => ?_⟩
  obtain hsame | ⟨hwas, field, -, hfield⟩ := (h.records _).mp ((h.mem_listed _).mp hold)
  · have hseq := congrArg AssetVersion.seq hsame
    rw [nextVersion_seq_legacy hnone hlegacy] at hseq
    exact absurd hseq (show (0 : U64) ≠ 1 by decide)
  · have hmem := mem_recordedVersions.mpr ⟨hwas, field, hfield⟩
    rw [hnone] at hmem
    exact absurd hmem List.not_mem_nil

theorem appendable (h : Recorded s s' doc new)
    (hnext : ∃ content assetMeta now, new = s.nextVersion doc content assetMeta now)
    (hgrows : HistoryGrows s s' doc new) : Appendable s.manifest doc new := by
  have hkept : ∀ v ∈ recordedVersions s.manifest doc, v ∈ recordedVersions s'.manifest doc :=
    fun v hv => (h.mem_listed v).mp
      (hgrows.listed v ((mem_assetVersions (List.ne_nil_of_mem hv)).mpr hv))
  refine ⟨fun hnone => ?_, fun v hv => ?_, fun v hv => ?_⟩
  · cases hlegacy : legacyAsset s.manifest doc with
    | none => rfl
    | some legacy =>
        obtain ⟨hshown, hlost⟩ := h.legacy_lost hnext hnone hlegacy
        exact absurd (hgrows.listed _ hshown) hlost
  · exact ((h.records v).mp (hkept v hv)).imp_right And.right
  · exact (last_of_listing_iff h.new_mem).mp hgrows.last v (hkept v hv)

theorem grows (h : Recorded s s' doc new) (happend : Appendable s.manifest doc new) :
    HistoryGrows s s' doc new := by
  have hkept : ∀ v ∈ s.manifest.assetVersions doc, v ∈ recordedVersions s'.manifest doc := by
    intro v hv
    by_cases hnone : recordedVersions s.manifest doc = []
    · simp [assetVersions, hnone, happend.versioned hnone] at hv
    · have hv := (mem_assetVersions hnone).mp hv
      exact (h.records v).mpr
        ((happend.apart v hv).imp_right fun hfield => ⟨(mem_recordedVersions.mp hv).1, hfield⟩)
  have hlast : ∀ v ∈ recordedVersions s'.manifest doc,
      v.precedence < new.precedence ∨ v = new := by
    intro v hv
    obtain rfl | ⟨hwas, field, -, hfield⟩ := (h.records v).mp hv
    · exact Or.inr rfl
    · exact happend.newest v (mem_recordedVersions.mpr ⟨hwas, field, hfield⟩)
  exact
    { listed := fun v hv => (h.mem_listed v).mpr (hkept v hv)
      read := listing_assetVersions (List.ne_nil_of_mem h.new_mem)
      last := (last_of_listing_iff h.new_mem).mpr hlast
      covered := fun v hv => covered_of_listed h.map ((h.mem_listed v).mpr (hkept v hv)) }

end Recorded

/-- A recording that succeeds has only added to the history of the entry, with the new
version last, exactly when the history took the version in. -/
theorem recording_extends_history [LawfulPostcard] {recording : Recording} {doc : DocumentUuid}
    {now : UnixSeconds} {s s' : WorkspaceState} {rng rng' : Rng} {effects : List Effect}
    (h : recording.run doc now (s, rng) = .ok effects (s', rng')) :
    ∃ new, recording.version s doc now = some new ∧
      (HistoryGrows s s' doc new ↔ Appendable s.manifest doc new) := by
  obtain ⟨new, hversion, hrecorded⟩ := Recording.recorded h
  exact ⟨new, hversion, hrecorded.appendable (Recording.version_next hversion), hrecorded.grows⟩

end WorkspaceState

end IrohBeekem

namespace IrohBeekem

open Library Manifest WorkspaceState

section Samples

local instance attachmentKeyhive : Keyhive := transparentKeyhive

local instance attachmentBeekem : Beekem := listBeekem

/-- Replicas as lists, where a new container is empty. -/
local instance attachmentLoro : Loro :=
  { listLoro with
    insertContainer := fun name key d => .ok ()
      (ListDoc.put (.root name) key .map
        { d with entries := d.entries.filter fun e => e.1 ≠ .nested name key }) }

theorem get_cleared (d : ListDoc) (cleared map : MapPath) (key : String) :
    ListDoc.get { d with entries := d.entries.filter fun e => e.1 ≠ cleared } map key =
      if map = cleared then none else d.get map key := by
  unfold ListDoc.get
  rw [List.find?_filter]
  split
  · next h =>
      subst h
      rw [List.find?_eq_none.mpr (by simp +contextual), Option.map_none]
  · next h =>
      refine congrArg _ (congrArg (fun p => d.entries.find? p) ?_)
      funext e
      by_cases he : e.1 = map
      · simp [he, h]
      · simp [he]

local instance attachmentMaps : LawfulMaps where
  mem_keys d map key := by
    show key ∈ ((d.entries.filter fun e => e.1 = map).map fun e => e.2.1).dedup ↔
      (ListDoc.get d map key).isSome
    simp [ListDoc.get, List.mem_dedup]
  get_commit _ := rfl
  get_insert h map' key' := by
    cases h
    exact (ListDoc.get_put ..).trans (by simp only [eq_comm]; rfl)
  get_insertContainer h map' key' := by
    cases h
    refine (ListDoc.get_put ..).trans ?_
    rw [get_cleared]
    simp only [eq_comm]
    rfl

/-- The layout of a record. -/
def metaCodec : Codec AssetMeta :=
  (((Codec.word 8 (2 ^ 64) Codec.fits_64).pair (Codec.word 8 (2 ^ 64) Codec.fits_64)).pair
    ((Codec.word 4 (2 ^ 32) Codec.fits_32).pair (Codec.array 32 (2 ^ 256) Codec.fits_256))).through
    (fun a => ((a.size, a.segments), (a.segmentBytes, a.contentHash)))
    (fun f => some ⟨f.1.1, f.1.2, f.2.1, f.2.2⟩) fun _ => rfl

def versionCodec : Codec AssetVersion :=
  (((Codec.array 16 (2 ^ 128) Codec.fits_128).pair metaCodec).pair
    ((Codec.array 32 (2 ^ 256) Codec.fits_256).pair
      ((Codec.ofEncodable : Codec Int).pair (Codec.word 8 (2 ^ 64) Codec.fits_64)))).through
    (fun v => ((v.content, v.assetMeta), (v.author, (v.date, v.seq))))
    (fun f => some ⟨f.1.1, f.1.2, f.2.1, f.2.2.1, f.2.2.2⟩) fun _ => rfl

local instance attachmentPostcard : Postcard :=
  { blankPostcard with
    encodeMeta := metaCodec.encode
    decodeMeta := fun bytes => (metaCodec.decode bytes).map Prod.fst
    encodeVersion := versionCodec.encode
    decodeVersion := fun bytes => (versionCodec.decode bytes).map Prod.fst }

local instance attachmentRecords : LawfulPostcard where
  decode_encodeVersion v := by
    have hread := versionCodec.decode_encode v []
    rw [List.append_nil] at hread
    show (versionCodec.decode (versionCodec.encode v)).map Prod.fst = some v
    rw [hread]
    rfl

/-- The shape of a file of one byte. -/
def byteShape : AssetMeta := ⟨1, 1, 4194304, 7⟩

/-- The founder lists file `5`, as an asset of the old shape or without any. -/
@[irreducible] def listedFile (asset : Option AssetMeta) : WorkspaceState :=
  (Library.after (WorkspaceState.handle (.upsertFile ⟨5, "a", "b", asset⟩) 0)
    (sampleWorkspace 1, (0 : Nat))).1

/-- A version is attached to it. -/
def attachedFile (asset : Option AssetMeta) : WorkspaceState × Nat :=
  Library.after ((Recording.attach 6 byteShape).run 5 1) (listedFile asset, (0 : Nat))

private theorem listedFile_first :
    Library.succeeds ((Recording.attach 6 byteShape).run 5 1) (listedFile none, (0 : Nat)) = true ∧
      (recordedVersions (listedFile none).manifest 5).isEmpty = true ∧
      (legacyAsset (listedFile none).manifest 5).isNone = true := by
  decide +kernel

/-- The first version of a file is taken in. -/
theorem recording_extends_history_first :
    ∃ new, HistoryGrows (listedFile none) (attachedFile none).1 5 new := by
  obtain ⟨hruns, hrecorded, hlegacy⟩ := listedFile_first
  obtain ⟨effects, hrun⟩ := run_of_succeeds hruns
  obtain ⟨new, -, hiff⟩ := recording_extends_history hrun
  have hnone : ∀ v, v ∉ recordedVersions (listedFile none).manifest 5 := by
    rw [List.isEmpty_iff.mp hrecorded]
    exact fun _ => List.not_mem_nil
  exact ⟨new, hiff.mpr
    { versioned := fun _ => Option.isNone_iff_eq_none.mp hlegacy
      apart := fun v hv => absurd hv (hnone v)
      newest := fun v hv => absurd hv (hnone v) }⟩

private theorem listedFile_old :
    Library.succeeds ((Recording.attach 6 byteShape).run 5 1)
        (listedFile (some byteShape), (0 : Nat)) = true ∧
      (recordedVersions (listedFile (some byteShape)).manifest 5).isEmpty = true ∧
      (legacyAsset (listedFile (some byteShape)).manifest 5).isSome = true := by
  decide +kernel

/-- A version attached to an asset of the old shape hides what the old shape showed. -/
theorem old_shape_forgotten :
    ¬ ∀ (recording : Recording) (doc : DocumentUuid) (now : UnixSeconds) (s s' : WorkspaceState)
      (rng rng' : Rng) (effects : List Effect) (new : AssetVersion), Reachable s →
      recording.run doc now (s, rng) = .ok effects (s', rng') →
      recording.version s doc now = some new → HistoryGrows s s' doc new := by
  intro h
  obtain ⟨hruns, hrecorded, hlegacy⟩ := listedFile_old
  obtain ⟨effects, hrun⟩ := run_of_succeeds hruns
  have hreachable : Reachable (listedFile (some byteShape)) := by
    have hfounder : Reachable (sampleWorkspace 1) := sampleWorkspace_reachable (by decide +kernel)
    unfold listedFile
    exact .call hfounder (.handle (.upsertFile ⟨5, "a", "b", some byteShape⟩) 0) (0 : Nat)
  obtain ⟨new, hversion, hattached⟩ := Recording.recorded hrun
  have hgrows := h _ 5 1 _ _ _ _ effects new hreachable hrun hversion
  obtain ⟨legacy, hlegacy⟩ := Option.isSome_iff_exists.mp hlegacy
  obtain ⟨hshown, hlost⟩ := hattached.legacy_lost (Recording.version_next hversion)
    (List.isEmpty_iff.mp hrecorded) hlegacy
  exact hlost (hgrows.listed _ hshown)

end Samples

end IrohBeekem
