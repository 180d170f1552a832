import IrohBeekem.Facade.KeySpace
import IrohBeekem.Library.Prefixed

/-!
# The replicated index

The index has a row of entries for each author, and a node writes in its own.  An entry
names a payload, and so is a promise to serve it.  What a batch of effects asks of the index
is written and withdrawn here, one effect after another, and a failure is logged.

Deleting a file withdraws the entries of the document, or of every version of the asset,
and nothing else (`deleted_withdrawn`).  The download policy holds back the segments of the
versions on record and nothing else (`heldBack_iff`).  A node that moves to another replica
carries over what it can serve of the assets, and promises nothing that it does not hold
(`reindexAssets_carries`).
-/

set_option linter.unusedSectionVars false

namespace IrohBeekem

open Library WorkspaceState

/-! ## The stores -/

/-- The index and the blobs, as a node calls them. -/
class Stores [Beekem] where
  Doc : Type
  Blobs : Type
  /-- What each author has under each key: the hash and the length of a payload. -/
  entries : Doc → Entries Bytes32 UInt8 (Bytes32 × Nat)
  setHash : (author : Bytes32) → (key : Bytes) → (hash : Bytes32) → (size : Nat) →
    EStateM String Doc Unit
  del : (author : Bytes32) → (range : Bytes) → EStateM String Doc Unit
  /-- One of the entries under a key. -/
  getOne : Doc → (key : Bytes) → Except String (Option (Bytes32 × Nat))
  /-- A payload at hand. -/
  getBytes : Blobs → (hash : Bytes32) → Option Bytes
  encodeChunk : Chunk OpHash → Except String Bytes
  /-- Add some bytes to the blobs: their hash. -/
  addBytes : Bytes → Except String Bytes32

/-- What the index documents: a write takes the place of what its author had under keys that
begin like the one written, a withdrawal takes out what its author has under keys that begin
like the range, and what fails leaves the index as it was. -/
class LawfulStores [Beekem] [Stores] : Prop where
  setHash_spec : ∀ (author : Bytes32) (key : Bytes) (hash : Bytes32) (size : Nat) (d : Stores.Doc),
    Wp (Stores.setHash author key hash size)
      (fun _ d' => Stores.entries d' = (Stores.entries d).put author key (hash, size))
      (fun _ d' => Stores.entries d' = Stores.entries d) d
  del_spec : ∀ (author : Bytes32) (range : Bytes) (d : Stores.Doc),
    Wp (Stores.del author range)
      (fun _ d' => Stores.entries d' = (Stores.entries d).clear author range)
      (fun _ d' => Stores.entries d' = Stores.entries d) d

/-- The index withdraws whatever it is asked to. -/
def Withdraws [Beekem] [Stores] : Prop :=
  ∀ (author : Bytes32) (range : Bytes) (d : Stores.Doc),
    Library.succeeds (Stores.del author range) d = true

/-- The index writes whatever it is asked to. -/
def Writes [Beekem] [Stores] : Prop :=
  ∀ (author : Bytes32) (key : Bytes) (hash : Bytes32) (size : Nat) (d : Stores.Doc),
    Library.succeeds (Stores.setHash author key hash size) d = true

variable [Keyhive] [Beekem] [Loro] [Postcard] [Stores]

/-! ## Effects on the index -/

/-- Store a chunk among the blobs and index it. -/
def storeChunk (author key : Bytes32) (chunk : Chunk OpHash) : EStateM String Stores.Doc Unit := do
  let bytes ← verdict (Stores.encodeChunk chunk)
  let hash ← verdict (Stores.addBytes bytes)
  Stores.setHash author key.toBytes hash bytes.length

/-- What an effect asks of the index. -/
def indexEffect (author : Bytes32) : Effect → EStateM String Stores.Doc Unit
  | .storeChunk key _ chunk => storeChunk author key chunk
  | .storeManifest key chunk => storeChunk author key chunk
  | .deleteEntry key _ => Stores.del author key.toBytes
  | .deleteAssetSegments range _ => Stores.del author (rangeBytes range)
  | _ => pure ()

/-- The index once the effects have been performed; a failure is logged. -/
def indexed (author : Bytes32) (effects : List Effect) (d : Stores.Doc) : Stores.Doc :=
  effects.foldl (fun d effect => after (indexEffect author effect) d) d

/-- The keys that begin like this are withdrawn. -/
def Effect.range : Effect → Option Bytes
  | .deleteEntry key _ => some key.toBytes
  | .deleteAssetSegments range _ => some (rangeBytes range)
  | _ => none

@[simp] theorem indexed_nil (author : Bytes32) (d : Stores.Doc) : indexed author [] d = d := rfl

theorem indexed_append (author : Bytes32) (effects more : List Effect) (d : Stores.Doc) :
    indexed author (effects ++ more) d = indexed author more (indexed author effects d) :=
  List.foldl_append

variable [LawfulStores] {author : Bytes32} {d : Stores.Doc}

theorem entries_after_del (h : Withdraws) (range : Bytes) :
    Stores.entries (after (Stores.del author range) d) =
      (Stores.entries d).clear author range := by
  obtain ⟨_, hrun⟩ := run_of_succeeds (h author range d)
  exact (LawfulStores.del_spec author range d).of_ok hrun

/-- Withdrawals, one after another. -/
theorem entries_indexed_withdrawn (h : Withdraws) (author : Bytes32) (d : Stores.Doc)
    {effects : List Effect} (heffects : ∀ effect ∈ effects, effect.range.isSome) :
    Stores.entries (indexed author effects d) =
      (Stores.entries d).clearAll author (effects.filterMap Effect.range) := by
  induction effects generalizing d with
  | nil => rfl
  | cons effect effects ih =>
      have hrest := ih (after (indexEffect author effect) d)
        fun effect' h' => heffects effect' (List.mem_cons_of_mem _ h')
      have hhead := heffects effect List.mem_cons_self
      show Stores.entries (indexed author effects (after (indexEffect author effect) d)) = _
      rw [hrest]
      cases effect with
      | deleteEntry key doc =>
          show (Stores.entries (after (Stores.del author key.toBytes) d)).clearAll author _ = _
          rw [entries_after_del h]
          rfl
      | deleteAssetSegments range asset =>
          show (Stores.entries (after (Stores.del author (rangeBytes range)) d)).clearAll
            author _ = _
          rw [entries_after_del h]
          rfl
      | _ => exact absurd hhead (by simp [Effect.range])

/-- A chunk is indexed, or it is not and the index stays as it was. -/
theorem entries_after_storeChunk (author key : Bytes32) (chunk : Chunk OpHash) (d : Stores.Doc) :
    (∃ e, Stores.entries (after (storeChunk author key chunk) d) =
      (Stores.entries d).put author key.toBytes e) ∨
      Stores.entries (after (storeChunk author key chunk) d) = Stores.entries d := by
  refine Wp.after (P := fun d' =>
    (∃ e, Stores.entries d' = (Stores.entries d).put author key.toBytes e) ∨
      Stores.entries d' = Stores.entries d) ?_
  unfold storeChunk
  rw [wp_bind, wp_verdict]
  cases Stores.encodeChunk chunk with
  | error err => exact Or.inr rfl
  | ok bytes =>
      dsimp only
      rw [wp_bind, wp_verdict]
      cases Stores.addBytes bytes with
      | error err => exact Or.inr rfl
      | ok hash =>
          exact (LawfulStores.setHash_spec author key.toBytes hash bytes.length d).mono
            (fun _ _ h => Or.inl ⟨(hash, bytes.length), h⟩) fun _ _ h => Or.inr h

/-! ## Deleting a file -/

/-- What of the index belongs to an entry of the manifest: the document, or the key and the
segments of every version of the asset. -/
def Occupies (m : Manifest) (doc : DocumentUuid) (slot : Slot) : Prop :=
  if (m.assetVersions doc).isEmpty then slot = .document doc
  else ∃ version ∈ m.assetVersions doc,
    slot = .assetKey version.content ∨ ∃ part, slot = .assetPart version.content part

/-- What deleting an entry withdraws. -/
def withdrawals (s : WorkspaceState) (doc : DocumentUuid) : List Effect :=
  if (s.manifest.assetVersions doc).isEmpty then
    [.deleteEntry (WorkspaceSecret.storageKey s.secret doc) doc]
  else (s.manifest.assetVersions doc).flatMap fun version =>
    [.deleteEntry (WorkspaceSecret.assetKeyKey s.secret version.content) version.content,
      .deleteAssetSegments (WorkspaceSecret.assetPrefix s.secret version.content) version.content]

omit [Stores] [LawfulStores] in
/-- A deletion withdraws, and publishes the manifest. -/
theorem onDeleteFile_effects {doc : DocumentUuid} {s : WorkspaceState} {rng : Rng}
    {effects : List Effect} {p : WorkspaceState × Rng}
    (hrun : onDeleteFile doc (s, rng) = .ok effects p) :
    ∃ (ops : List ControlOp) (chunk : Chunk OpHash), effects = withdrawals s doc ++
      (ops.map Effect.broadcast ++
        [.storeManifest (WorkspaceSecret.manifestKey s.secret) chunk]) := by
  have hspec : Wp (onDeleteFile doc)
      (fun effects _ => ∃ (ops : List ControlOp) (chunk : Chunk OpHash),
        effects = withdrawals s doc ++ (ops.map Effect.broadcast ++
          [.storeManifest (WorkspaceSecret.manifestKey s.secret) chunk]))
      (fun _ _ => True) (s, rng) := by
    unfold onDeleteFile
    refine (requireWrite_alone (s, rng)).seq ?_ fun _ _ _ => trivial
    rintro _ p (rfl : p = (s, rng))
    rw [wp_bind, wp_self]
    dsimp only
    refine (onManifest_secret _ (s, rng)).seq (fun _ p₁ hsecret₁ => ?_) fun _ _ _ => trivial
    rw [wp_bind, wp_update]
    have hexport := onManifest_secret Manifest.exportSnapshot (p₁.1.dropDoc doc, p₁.2)
    unfold publishManifest
    rw [wp_bind, wp_bind]
    refine hexport.mono (fun snapshot p₂ hsecret₂ => ?_) fun _ _ _ => trivial
    have hkeeps : Keeps (fun p : WorkspaceState × Rng => p.1.secret)
        (encryptKeyed snapshot [] .current) :=
      encryptKeyed_keeps (fun _ _ _ _ => rfl) snapshot [] .current
    refine (hkeeps p₂).seq (fun keyed p₃ hsecret₃ => ?_) fun _ _ _ => trivial
    rw [wp_bind, wp_self, wp_pure, wp_pure]
    have hsecret : p₃.1.secret = s.secret := hsecret₃.trans (hsecret₂.trans hsecret₁)
    rw [hsecret]
    exact ⟨keyed.2, keyed.1, rfl⟩
  exact hspec.of_ok hrun

omit [LawfulStores] in
theorem indexed_broadcasts (ops : List ControlOp) (d : Stores.Doc) :
    indexed author (ops.map Effect.broadcast) d = d := by
  induction ops generalizing d with
  | nil => rfl
  | cons op ops ih => exact ih d

/-- The ranges of the withdrawals cover what belongs to the entry, and nothing else. -/
theorem withdrawals_cover {s : WorkspaceState} (h : Separates s.secret) (doc : DocumentUuid)
    (slot : Slot) :
    (∃ range ∈ (withdrawals s doc).filterMap Effect.range,
      range <+: (slot.key s.secret).toBytes) ↔ Occupies s.manifest doc slot := by
  have hkey : ∀ other : Slot, (other.key s.secret).toBytes <+: (slot.key s.secret).toBytes ↔
      slot = other := by
    intro other
    rw [Entries.prefix_iff_eq ((length_keyBytes _).trans (length_keyBytes _).symm), h.bytes_eq_iff]
  unfold withdrawals Occupies
  split_ifs with hempty
  · have hdocument := hkey (.document doc)
    simpa [Effect.range, Slot.key] using hdocument
  · simp only [List.mem_filterMap, List.mem_flatMap, List.mem_cons, List.not_mem_nil, or_false]
    constructor
    · rintro ⟨range, ⟨effect, ⟨version, hversion, rfl | rfl⟩, hrange⟩, hprefix⟩
      · obtain rfl := Option.some.inj hrange
        exact ⟨version, hversion, Or.inl ((hkey (.assetKey version.content)).mp hprefix)⟩
      · obtain rfl := Option.some.inj hrange
        exact ⟨version, hversion, Or.inr ((h.covered_iff version.content slot).mp hprefix)⟩
    · rintro ⟨version, hversion, hslot | hslot⟩
      · exact ⟨_, ⟨_, ⟨version, hversion, Or.inl rfl⟩, rfl⟩,
          (hkey (.assetKey version.content)).mpr hslot⟩
      · exact ⟨_, ⟨_, ⟨version, hversion, Or.inr rfl⟩, rfl⟩,
          (h.covered_iff version.content slot).mpr hslot⟩

/-- This author has no entry of the deleted file any more, and every other entry, but that of
the manifest, stands. -/
structure Withdrawn (s : WorkspaceState) (doc : DocumentUuid) (author : Bytes32)
    (d d' : Stores.Doc) : Prop where
  gone : ∀ slot, Occupies s.manifest doc slot →
    Stores.entries d' author (slot.key s.secret).toBytes = none
  kept : ∀ other slot, slot ≠ .manifest → other ≠ author ∨ ¬ Occupies s.manifest doc slot →
    Stores.entries d' other (slot.key s.secret).toBytes =
      Stores.entries d other (slot.key s.secret).toBytes

/-- Deleting a file withdraws its entries and no others. -/
theorem deleted_withdrawn (hdel : Withdraws) {s : WorkspaceState} (hsecret : Separates s.secret)
    {doc : DocumentUuid} {rng : Rng} {effects : List Effect} {p : WorkspaceState × Rng}
    (hrun : onDeleteFile doc (s, rng) = .ok effects p) (author : Bytes32) (d : Stores.Doc) :
    Withdrawn s doc author d (indexed author effects d) := by
  obtain ⟨ops, chunk, rfl⟩ := onDeleteFile_effects hrun
  have hranges : ∀ effect ∈ withdrawals s doc, effect.range.isSome := by
    intro effect heffect
    unfold withdrawals at heffect
    split_ifs at heffect
    · obtain rfl := List.mem_singleton.mp heffect
      rfl
    · simp only [List.mem_flatMap, List.mem_cons, List.not_mem_nil, or_false] at heffect
      obtain ⟨version, -, rfl | rfl⟩ := heffect <;> rfl
  have hwithdrawn := entries_indexed_withdrawn hdel author d hranges
  have hsplit : indexed author (withdrawals s doc ++ (ops.map Effect.broadcast ++
      [.storeManifest (WorkspaceSecret.manifestKey s.secret) chunk])) d =
      after (storeChunk author (WorkspaceSecret.manifestKey s.secret) chunk)
        (indexed author (withdrawals s doc) d) := by
    rw [indexed_append, indexed_append, indexed_broadcasts]
    rfl
  -- Storing the manifest leaves every other key alone.
  have hmanifest : ∀ (other : Bytes32) (slot : Slot), slot ≠ .manifest →
      Stores.entries (indexed author (withdrawals s doc ++ (ops.map Effect.broadcast ++
        [.storeManifest (WorkspaceSecret.manifestKey s.secret) chunk])) d) other
          (slot.key s.secret).toBytes =
        (Stores.entries d).clearAll author ((withdrawals s doc).filterMap Effect.range) other
          (slot.key s.secret).toBytes := by
    intro other slot hslot
    rw [hsplit, ← hwithdrawn]
    rcases entries_after_storeChunk author (WorkspaceSecret.manifestKey s.secret) chunk
      (indexed author (withdrawals s doc) d) with ⟨e, hput⟩ | hsame
    · rw [hput, Entries.put_apply ((length_keyBytes _).trans (length_keyBytes _).symm), if_neg]
      rintro ⟨-, hbytes⟩
      exact hslot ((hsecret.bytes_eq_iff (y := Slot.manifest)).mp hbytes)
    · rw [hsame]
  refine ⟨fun slot hslot => ?_, fun other slot hslot hout => ?_⟩
  · have hne : slot ≠ .manifest := by
      rintro rfl
      unfold Occupies at hslot
      split_ifs at hslot
      obtain ⟨version, -, hslot | ⟨part, hslot⟩⟩ := hslot <;> exact absurd hslot (by simp)
    rw [hmanifest author slot hne, Entries.clearAll_apply, if_pos]
    exact ⟨rfl, (withdrawals_cover hsecret doc slot).mpr hslot⟩
  · rw [hmanifest other slot hslot, Entries.clearAll_apply, if_neg]
    rintro ⟨rfl, hcovered⟩
    exact hout.elim (fun hne => hne rfl) fun hnot =>
      hnot ((withdrawals_cover hsecret doc slot).mp hcovered)

/-! ## What is downloaded -/

/-- The range of every version of an asset that the manifest records. -/
def assetPrefixes (s : WorkspaceState) : List Bytes24 :=
  (s.manifest.files.flatMap fun entry => s.manifest.assetVersions entry.uuid).map fun version =>
    WorkspaceSecret.assetPrefix s.secret version.content

/-- What the download policy of `refresh_download_policy` leaves out: everything is fetched
except what lies in one of these ranges. -/
def heldBack (s : WorkspaceState) (key : Bytes) : Bool :=
  (assetPrefixes s).any fun range => (rangeBytes range).isPrefixOf key

omit [Stores] [LawfulStores] in
/-- The segments of the versions on record are not fetched unasked, and everything else is:
the manifest, the documents and the content keys. -/
theorem heldBack_iff {s : WorkspaceState} (h : Separates s.secret) (slot : Slot) :
    heldBack s (slot.key s.secret).toBytes = true ↔ ∃ entry ∈ s.manifest.files,
      ∃ version ∈ s.manifest.assetVersions entry.uuid, ∃ part,
        slot = .assetPart version.content part := by
  unfold heldBack assetPrefixes
  simp only [List.any_eq_true, List.mem_map, List.mem_flatMap, List.isPrefixOf_iff_prefix]
  constructor
  · rintro ⟨range, ⟨version, ⟨entry, hentry, hversion⟩, rfl⟩, hprefix⟩
    exact ⟨entry, hentry, version, hversion, (h.covered_iff version.content slot).mp hprefix⟩
  · rintro ⟨entry, hentry, version, hversion, hslot⟩
    exact ⟨_, ⟨version, ⟨entry, hentry, hversion⟩, rfl⟩,
      (h.covered_iff version.content slot).mpr hslot⟩

/-! ## Moving to another replica -/

/-- The entry that is carried over under a key: one of the previous replica whose payload is
at hand. -/
def servable (previous : Stores.Doc) (blobs : Stores.Blobs) (key : Bytes) :
    Option (Bytes32 × Nat) :=
  match Stores.getOne previous key with
  | .ok (some e) => if (Stores.getBytes blobs e.1).isSome then some e else none
  | .ok none => none
  | .error _ => none

/-- Copy this node's entries of assets into the replica it has moved to; how many were. -/
def reindexAssets (author : Bytes32) (previous : Stores.Doc) (blobs : Stores.Blobs) :
    List Bytes32 → Nat → EStateM String Stores.Doc Nat
  | [], carried => return carried
  | key :: rest, carried =>
      match servable previous blobs key.toBytes with
      | none => reindexAssets author previous blobs rest carried
      | some (hash, size) => do
          match ← attempt (Stores.setHash author key.toBytes hash size) with
          | .ok () => reindexAssets author previous blobs rest (carried + 1)
          | .error _ => reindexAssets author previous blobs rest carried

/-- What a node that moves from one replica to another carries over, of these keys: nobody
else's entry changes, and under each key of its own it has what it had, or what it had in the
previous replica and can serve; if every write is accepted, it has what it can serve. -/
structure Carries (author : Bytes32) (previous : Stores.Doc) (blobs : Stores.Blobs)
    (keys : List Bytes32) (d d' : Stores.Doc) : Prop where
  others : ∀ other (key : Bytes32), other ≠ author ∨ key ∉ keys →
    Stores.entries d' other key.toBytes = Stores.entries d other key.toBytes
  honest : ∀ key ∈ keys,
    Stores.entries d' author key.toBytes = Stores.entries d author key.toBytes ∨
      ∃ e, servable previous blobs key.toBytes = some e ∧
        Stores.entries d' author key.toBytes = some e
  carried : Writes → ∀ key ∈ keys, ∀ e, servable previous blobs key.toBytes = some e →
    Stores.entries d' author key.toBytes = some e

/-- One entry was written, or the write was refused. -/
theorem Carries.cons {previous d₁ d' : Stores.Doc} {blobs : Stores.Blobs} {keys : List Bytes32}
    {key : Bytes32} (h : Carries author previous blobs keys d₁ d')
    (hstep : Stores.entries d₁ = Stores.entries d ∧
        (Writes → servable previous blobs key.toBytes = none) ∨
      ∃ e, servable previous blobs key.toBytes = some e ∧
        Stores.entries d₁ = (Stores.entries d).put author key.toBytes e) :
    Carries author previous blobs (key :: keys) d d' := by
  have hbytes : ∀ {k k' : Bytes32}, k.toBytes = k'.toBytes ↔ k = k' := fun {k k'} =>
    ⟨fun hsame => Fin.ext (beBytes_injective k.isLt k'.isLt hsame), fun hsame => hsame ▸ rfl⟩
  have hput : ∀ (e : Bytes32 × Nat) (other k : Bytes32),
      (Stores.entries d).put author key.toBytes e other k.toBytes =
        if other = author ∧ k = key then some e else Stores.entries d other k.toBytes := by
    intro e other k
    rw [Entries.put_apply ((length_keyBytes _).trans (length_keyBytes _).symm)]
    simp only [hbytes]
  refine ⟨fun other k hout => ?_, fun k hk => ?_, fun hwrites k hk e hservable => ?_⟩
  · have hrest : other ≠ author ∨ k ∉ keys :=
      hout.imp_right fun hnot hmem => hnot (List.mem_cons_of_mem _ hmem)
    rw [h.others other k hrest]
    rcases hstep with ⟨hsame, -⟩ | ⟨e, -, hwritten⟩
    · rw [hsame]
    · rw [hwritten, hput, if_neg]
      rintro ⟨rfl, rfl⟩
      exact hout.elim (fun hne => hne rfl) fun hnot => hnot List.mem_cons_self
  · by_cases hlater : k ∈ keys
    · rcases h.honest k hlater with hsame | hserved
      · rw [hsame]
        rcases hstep with ⟨hsame', -⟩ | ⟨e, he, hwritten⟩
        · exact Or.inl (by rw [hsame'])
        · rw [hwritten, hput]
          by_cases hkey : k = key
          · subst hkey
            exact Or.inr ⟨e, he, if_pos ⟨rfl, rfl⟩⟩
          · exact Or.inl (if_neg fun hboth => hkey hboth.2)
      · exact Or.inr hserved
    · obtain rfl := (List.mem_cons.mp hk).resolve_right hlater
      rw [h.others author k (Or.inr hlater)]
      rcases hstep with ⟨hsame, -⟩ | ⟨e, he, hwritten⟩
      · exact Or.inl (by rw [hsame])
      · rw [hwritten, hput]
        exact Or.inr ⟨e, he, if_pos ⟨rfl, rfl⟩⟩
  · by_cases hlater : k ∈ keys
    · exact h.carried hwrites k hlater e hservable
    · obtain rfl := (List.mem_cons.mp hk).resolve_right hlater
      rw [h.others author k (Or.inr hlater)]
      rcases hstep with ⟨-, hnone⟩ | ⟨e', he', hwritten⟩
      · exact absurd hservable (by rw [hnone hwrites]; simp)
      · rw [hwritten, hput, if_pos ⟨rfl, rfl⟩]
        exact he'.symm.trans hservable

theorem Carries.nil {previous : Stores.Doc} {blobs : Stores.Blobs} :
    Carries author previous blobs [] d d :=
  ⟨fun _ _ _ => rfl, fun _ hkey => absurd hkey List.not_mem_nil,
    fun _ _ hkey => absurd hkey List.not_mem_nil⟩

/-- The loop carries over what it can serve. -/
theorem reindexAssets_spec (author : Bytes32) (previous : Stores.Doc) (blobs : Stores.Blobs)
    (keys : List Bytes32) (carried : Nat) (d : Stores.Doc) :
    Wp (reindexAssets author previous blobs keys carried)
      (fun _ d' => Carries author previous blobs keys d d') (fun _ _ => False) d := by
  induction keys generalizing carried d with
  | nil => exact .nil
  | cons key rest ih =>
      unfold reindexAssets
      cases hservable : servable previous blobs key.toBytes with
      | none =>
          exact (ih carried d).mono
            (fun _ d' h => h.cons (Or.inl ⟨rfl, fun _ => hservable⟩)) fun _ _ => id
      | some e =>
          dsimp only
          rw [wp_bind, wp_attempt]
          refine wp_of_run (fun _ d₁ hrun => ?_) fun _ d₁ hrun => ?_
          · have hwritten := (LawfulStores.setHash_spec author key.toBytes e.1 e.2 d).of_ok hrun
            exact (ih (carried + 1) d₁).mono
              (fun _ d' h => h.cons (Or.inr ⟨e, hservable, hwritten⟩)) fun _ _ => id
          · have hsame := (LawfulStores.setHash_spec author key.toBytes e.1 e.2 d).of_error hrun
            refine (ih carried d₁).mono (fun _ d' h => h.cons (Or.inl ⟨hsame, fun hwrites => ?_⟩))
              fun _ _ => id
            have hok := hwrites author key.toBytes e.1 e.2 d
            unfold Library.succeeds at hok
            rw [hrun] at hok
            exact absurd hok (by simp)

/-- The storage keys of one version of an asset: its content key and its segments. -/
def versionKeys (secret : Bytes32) (version : AssetVersion) : List Bytes32 :=
  WorkspaceSecret.assetKeyKey secret version.content ::
    (List.range version.assetMeta.segments.val).map fun index =>
      WorkspaceSecret.assetPartKey secret version.content (Fin.ofNat _ index)

end IrohBeekem

namespace IrohBeekem

open Library WorkspaceState

section Samples

/-- An index and blobs in lists. -/
@[reducible] def listStores [Beekem] : Stores where
  Doc := List (Bytes32 × Bytes × Bytes32 × Nat)
  Blobs := List (Bytes32 × Bytes)
  entries d := fun author key =>
    (d.find? fun entry => entry.1 = author ∧ entry.2.1 = key).map fun entry => entry.2.2
  setHash author key hash size := modify fun d =>
    (author, key, hash, size) :: d.filter fun entry => ¬ (entry.1 = author ∧ key <+: entry.2.1)
  del author range := modify fun d =>
    d.filter fun entry => ¬ (entry.1 = author ∧ range <+: entry.2.1)
  getOne d key := .ok ((d.find? fun entry => entry.2.1 = key).map fun entry => entry.2.2)
  getBytes blobs hash := (blobs.find? fun blob => blob.1 = hash).map fun blob => blob.2
  encodeChunk chunk := .ok chunk.ciphertext
  addBytes bytes := .ok (Fin.ofNat _ (ofBeBytes bytes))

/-- What is left of a list of entries that loses a range of one author's. -/
theorem find?_filter_range {β : Type} (author other : Bytes32) (range key : Bytes)
    (d : List (Bytes32 × Bytes × β)) :
    ((d.filter fun entry => ¬ (entry.1 = author ∧ range <+: entry.2.1)).find? fun entry =>
        entry.1 = other ∧ entry.2.1 = key) =
      if other = author ∧ range <+: key then none
      else d.find? fun entry => entry.1 = other ∧ entry.2.1 = key := by
  induction d with
  | nil => simp
  | cons entry d ih =>
      by_cases hlost : entry.1 = author ∧ range <+: entry.2.1
      · rw [List.filter_cons_of_neg (by simpa using hlost), ih]
        split_ifs with hout
        · rfl
        · rw [List.find?_cons_of_neg]
          rintro hhere
          obtain ⟨rfl, rfl⟩ := of_decide_eq_true hhere
          exact hout hlost
      · have hkept : ((entry :: d).filter fun entry => ¬ (entry.1 = author ∧ range <+: entry.2.1)) =
            entry :: d.filter fun entry => ¬ (entry.1 = author ∧ range <+: entry.2.1) :=
          List.filter_cons_of_pos (decide_eq_true hlost)
        rw [hkept]
        by_cases hhere : entry.1 = other ∧ entry.2.1 = key
        · obtain ⟨rfl, rfl⟩ := hhere
          rw [List.find?_cons_of_pos (by simp), List.find?_cons_of_pos (by simp), if_neg hlost]
        · rw [List.find?_cons_of_neg (by simpa using hhere),
            List.find?_cons_of_neg (by simpa using hhere), ih]

theorem listStores_lawful [Beekem] : @LawfulStores _ listStores :=
  letI := listStores
  { setHash_spec := by
      intro author key hash size d
      funext other k
      show Option.map _ (List.find? _ (_ :: _)) = Entries.put author key (hash, size) _ other k
      unfold Entries.put
      by_cases hhere : author = other ∧ key = k
      · obtain ⟨rfl, rfl⟩ := hhere
        rw [List.find?_cons_of_pos (by simp), if_pos ⟨rfl, List.prefix_refl _⟩, if_pos rfl]
        rfl
      · rw [List.find?_cons_of_neg (by simpa using hhere), find?_filter_range]
        split_ifs with hcovered hkey
        · exact absurd ⟨hcovered.1.symm, hkey.symm⟩ hhere
        · rfl
        · rfl
    del_spec := by
      intro author range d
      funext other k
      show Option.map _ (List.find? _ _) = Entries.clear author range _ other k
      rw [find?_filter_range]
      unfold Entries.clear
      split_ifs
      · rfl
      · rfl }

local instance replicaKeyhive : Keyhive := transparentKeyhive

local instance replicaBeekem : Beekem := spellingBeekem

local instance replicaLoro : Loro := listLoro

local instance replicaPostcard : Postcard := blankPostcard

local instance replicaStores : Stores := listStores

local instance replicaLawful : LawfulStores := listStores_lawful

theorem withdraws_list : Withdraws := fun _ _ _ => rfl

/-- A node that has joined, and records one document. -/
def blindedWorkspace : WorkspaceState :=
  { joined ⟨ListCgka.new 1 1 0 1, 1, 1, 0, 0, {1}, {1}, .new 1, [], 0⟩ 9 0 with
    manifest := after (Manifest.upsertFile ⟨4, "notes", "text/plain", none⟩) Loro.new }

theorem deleted_withdrawn_blinded : ∃ effects p, onDeleteFile 4 (blindedWorkspace, (0 : Nat)) =
    .ok effects p ∧ Withdrawn blindedWorkspace 4 5 [(5, Bytes32.toBytes 6, 7, 8)]
      (indexed 5 effects [(5, Bytes32.toBytes 6, 7, 8)]) := by
  obtain ⟨effects, hrun⟩ := run_of_succeeds (x := onDeleteFile 4)
    (s := (blindedWorkspace, (0 : Nat))) (by decide +kernel)
  exact ⟨effects, _, hrun,
    deleted_withdrawn withdraws_list (separates_spelling _) hrun 5 _⟩

theorem heldBack_iff_manifest :
    heldBack blindedWorkspace (Slot.manifest.key blindedWorkspace.secret).toBytes = true ↔
      ∃ entry ∈ blindedWorkspace.manifest.files,
        ∃ version ∈ blindedWorkspace.manifest.assetVersions entry.uuid, ∃ part,
          Slot.manifest = .assetPart version.content part :=
  heldBack_iff (separates_spelling _) .manifest

end Samples

end IrohBeekem
