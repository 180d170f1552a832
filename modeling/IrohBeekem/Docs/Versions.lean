import Mathlib
import IrohBeekem.Docs.Hex
import IrohBeekem.Docs.Manifest

/-!
# The versions of an asset

A manifest records each version of an asset under a field of its own, named after the
digest of the record, and lists them by precedence.  The shape from before there were
versions is read only where no version is recorded.

`addAssetVersion_recorded` says what is recorded after a version is added;
`last_of_listing_iff` when a version is the last of every listing.
-/

set_option linter.unusedSectionVars false

namespace IrohBeekem

open Library

variable [Beekem] [Loro] [Postcard]

/-! ## What the libraries promise -/

/-- Maps of the document library: what a write changes, and which keys are visited. -/
class LawfulMaps : Prop where
  mem_keys : ∀ (m : LoroDoc) (map : MapPath) (key : String),
    key ∈ Loro.keys m map ↔ (Loro.get m map key).isSome
  get_commit : ∀ m : LoroDoc, Loro.get (Loro.commit m) = Loro.get m
  get_insert : ∀ {m m' : LoroDoc} {name node field value : String},
    Loro.insert (.nested name node) field value m = .ok () m' → ∀ map key,
      Loro.get m' map key =
        if map = .nested name node ∧ key = field then some (.string value) else Loro.get m map key
  get_insertContainer : ∀ {m m' : LoroDoc} {name node : String},
    Loro.insertContainer name node m = .ok () m' → ∀ map key,
      Loro.get m' map key =
        if map = .root name ∧ key = node then some .map
        else if map = .nested name node then none else Loro.get m map key

/-- A record of a version reads back. -/
class LawfulPostcard : Prop where
  decode_encodeVersion : ∀ v : AssetVersion,
    Postcard.decodeVersion (Postcard.encodeVersion v) = some v

namespace Manifest

/-! ## What is recorded -/

/-- The version a field of an entry records. -/
def versionAt (m : Manifest) (uuid : DocumentUuid) (field : String) : Option AssetVersion :=
  if field.startsWith versionPrefix then
    ((stringAt m (.nested "files" (hex uuid.toBytes)) field).bind unhex).bind Postcard.decodeVersion
  else none

/-- The field a version is recorded under. -/
def versionField (version : AssetVersion) : String := versionPrefix ++ hex version.digest.toBytes

theorem versionField_startsWith (version : AssetVersion) :
    (versionField version).startsWith versionPrefix := by
  rw [String.startsWith_string_iff]
  simp [versionField]

theorem recordedVersions_map {m : Manifest} {uuid : DocumentUuid}
    (h : Loro.get m filesContainer (hex uuid.toBytes) = some .map) :
    recordedVersions m uuid =
      (Loro.keys m (.nested "files" (hex uuid.toBytes))).filterMap (versionAt m uuid) := by
  simp only [recordedVersions, h]
  rfl

theorem recordedVersions_none {m : Manifest} {uuid : DocumentUuid}
    (h : Loro.get m filesContainer (hex uuid.toBytes) ≠ some .map) :
    recordedVersions m uuid = [] := by
  unfold recordedVersions
  dsimp only
  split
  · next hmap => exact absurd hmap h
  · rfl

/-- A field that records a version holds something. -/
theorem isSome_of_versionAt {m : Manifest} {uuid : DocumentUuid} {field : String} {v : AssetVersion}
    (h : versionAt m uuid field = some v) :
    (Loro.get m (.nested "files" (hex uuid.toBytes)) field).isSome := by
  unfold versionAt at h
  split at h
  · cases hget : Loro.get m (.nested "files" (hex uuid.toBytes)) field with
    | none => simp [stringAt, hget] at h
    | some entry => rfl
  · cases h

variable [LawfulMaps]

/-- The versions recorded are those its fields record. -/
theorem mem_recordedVersions {m : Manifest} {uuid : DocumentUuid} {v : AssetVersion} :
    v ∈ recordedVersions m uuid ↔
      Loro.get m filesContainer (hex uuid.toBytes) = some .map ∧
        ∃ field, versionAt m uuid field = some v := by
  by_cases hmap : Loro.get m filesContainer (hex uuid.toBytes) = some .map
  · rw [recordedVersions_map hmap, List.mem_filterMap, and_iff_right hmap]
    refine exists_congr fun field => and_iff_right_of_imp fun hfield => ?_
    rw [LawfulMaps.mem_keys]
    exact isSome_of_versionAt hfield
  · simp [recordedVersions_none hmap, hmap]

/-- An entry that is a map is a file. -/
theorem mem_files {m : Manifest} {uuid : DocumentUuid}
    (h : Loro.get m filesContainer (hex uuid.toBytes) = some .map) :
    ∃ entry ∈ files m, entry.uuid = uuid := by
  have hkey : hex uuid.toBytes ∈ Loro.keys m filesContainer := by
    rw [LawfulMaps.mem_keys, h]
    rfl
  have hlisted : ∀ {f : String → Option FileEntry},
      (∃ entry, f (hex uuid.toBytes) = some entry ∧ entry.uuid = uuid) →
      ∃ entry ∈ (Loro.keys m filesContainer).filterMap f, entry.uuid = uuid :=
    fun ⟨entry, hentry, huuid⟩ => ⟨entry, List.mem_filterMap.mpr ⟨_, hkey, hentry⟩, huuid⟩
  refine hlisted ?_
  simp only [unhex16_hex, h]
  exact ⟨_, rfl, rfl⟩

theorem wp_call {α : Type} {x : EStateM String LoroDoc α} {m : Manifest} {Q : α → Manifest → Prop}
    {E : CoreError → Manifest → Prop} :
    Wp (call x) Q E m ↔ Wp x Q (fun e m' => E (.manifest e) m') m := wp_zoom

/-- An entry's map is there afterwards, with the fields it had if it was there. -/
theorem fileNode_spec (uuid : DocumentUuid) (m : Manifest) :
    Wp (fileNode uuid)
      (fun _ m' => Loro.get m' filesContainer (hex uuid.toBytes) = some .map ∧
        ∀ field, Loro.get m' (.nested "files" (hex uuid.toBytes)) field =
          if Loro.get m filesContainer (hex uuid.toBytes) = some .map then
            Loro.get m (.nested "files" (hex uuid.toBytes)) field
          else none)
      (fun _ _ => True) m := by
  unfold fileNode
  rw [wp_bind, wp_get]
  split
  · next hmap => exact ⟨hmap, fun field => (if_pos hmap).symm⟩
  · trivial
  · next hnone _ =>
      rw [wp_call]
      refine wp_of_run (fun _ m' hrun => ?_) fun _ _ _ => trivial
      have hget := LawfulMaps.get_insertContainer hrun
      refine ⟨?_, fun field => ?_⟩
      · rw [hget]
        exact if_pos ⟨rfl, rfl⟩
      · rw [hget, if_neg (by simp), if_pos rfl, if_neg hnone]

/-- What an entry holds after a version is added to it: the record under the field of its
own, and under every other what was there. -/
theorem addAssetVersion_fields (uuid : DocumentUuid) (version : AssetVersion) (m : Manifest) :
    Wp (addAssetVersion uuid version)
      (fun _ m' => Loro.get m' filesContainer (hex uuid.toBytes) = some .map ∧
        ∀ field, Loro.get m' (.nested "files" (hex uuid.toBytes)) field =
          if field = versionField version then some (.string (hex (Postcard.encodeVersion version)))
          else if Loro.get m filesContainer (hex uuid.toBytes) = some .map then
            Loro.get m (.nested "files" (hex uuid.toBytes)) field
          else none)
      (fun _ _ => True) m := by
  unfold addAssetVersion
  rw [wp_bind, wp_get]
  split
  · trivial
  · refine (fileNode_spec uuid m).seq ?_ fun _ _ _ => trivial
    rintro _ m₁ ⟨hmap, hfields⟩
    rw [wp_bind, wp_call]
    refine wp_of_run (fun _ m' hrun => ?_) fun _ _ _ => trivial
    have hget := LawfulMaps.get_insert hrun
    rw [wp_modify, LawfulMaps.get_commit]
    refine ⟨?_, fun field => ?_⟩
    · rw [hget, if_neg (by simp [filesContainer])]
      exact hmap
    · rw [hget, hfields field]
      simp only [true_and, versionField]
      rfl

/-- What is recorded after a version is added to an entry: the new version, and what other
fields than its own recorded. -/
theorem addAssetVersion_recorded [LawfulPostcard] {m m' : Manifest} {uuid : DocumentUuid}
    {version : AssetVersion} (h : addAssetVersion uuid version m = .ok () m') (v : AssetVersion) :
    v ∈ recordedVersions m' uuid ↔ v = version ∨
      Loro.get m filesContainer (hex uuid.toBytes) = some .map ∧
        ∃ field, field ≠ versionField version ∧ versionAt m uuid field = some v := by
  obtain ⟨hmap, hfields⟩ := (addAssetVersion_fields uuid version m).of_ok h
  have hnew : versionAt m' uuid (versionField version) = some version := by
    simp only [versionAt, if_pos (versionField_startsWith version), stringAt, hfields, if_true,
      Option.bind_some, unhex_hex, LawfulPostcard.decode_encodeVersion]
  have hold : ∀ field, field ≠ versionField version → versionAt m' uuid field =
      if Loro.get m filesContainer (hex uuid.toBytes) = some .map then versionAt m uuid field
      else none := by
    intro field hne
    split
    · next hwas => simp only [versionAt, stringAt, hfields, if_neg hne, if_pos hwas]
    · next hwas => simp [versionAt, stringAt, hfields, hne, hwas]
  rw [mem_recordedVersions, and_iff_right hmap]
  constructor
  · rintro ⟨field, hfield⟩
    by_cases hne : field = versionField version
    · rw [hne, hnew] at hfield
      exact Or.inl (Option.some.inj hfield).symm
    · rw [hold field hne] at hfield
      split at hfield
      · next hwas => exact Or.inr ⟨hwas, field, hne, hfield⟩
      · cases hfield
  · rintro (rfl | ⟨hwas, field, hne, hfield⟩)
    · exact ⟨_, hnew⟩
    · exact ⟨field, by rw [hold field hne, if_pos hwas, hfield]⟩

/-! ## What is listed -/

/-- A list of the versions recorded, in the order of precedence.  The document library does
not say in which order it visits the fields of a map, so any such list may be the one read. -/
def Listing (m : Manifest) (uuid : DocumentUuid) (listed : List AssetVersion) : Prop :=
  listed.Perm (recordedVersions m uuid) ∧
    listed.Pairwise fun v w => v.precedence ≤ w.precedence

omit [LawfulMaps]

theorem pairwise_mergeSort_precedence (versions : List AssetVersion) :
    (versions.mergeSort fun v w => v.precedence ≤ w.precedence).Pairwise
      fun v w => v.precedence ≤ w.precedence := by
  let le : AssetVersion → AssetVersion → Bool := fun v w => v.precedence ≤ w.precedence
  have htrans : ∀ u v w, le u v = true → le v w = true → le u w = true := fun u v w h h' =>
    decide_eq_true (le_trans (of_decide_eq_true h) (of_decide_eq_true h'))
  have htotal : ∀ v w, (le v w || le w v) = true := fun v w => by
    simpa [le] using le_total v.precedence w.precedence
  exact (List.pairwise_mergeSort htrans htotal versions).imp of_decide_eq_true

/-- What is read of an entry that records versions is a listing of them. -/
theorem listing_assetVersions {m : Manifest} {uuid : DocumentUuid}
    (h : recordedVersions m uuid ≠ []) : Listing m uuid (assetVersions m uuid) := by
  have hrecorded : (recordedVersions m uuid).isEmpty = false := by simpa using h
  simp only [assetVersions, hrecorded, Bool.false_eq_true, if_false]
  exact ⟨List.mergeSort_perm _ _, pairwise_mergeSort_precedence _⟩

theorem mem_assetVersions {m : Manifest} {uuid : DocumentUuid}
    (h : recordedVersions m uuid ≠ []) {v : AssetVersion} :
    v ∈ assetVersions m uuid ↔ v ∈ recordedVersions m uuid :=
  (listing_assetVersions h).1.mem_iff

theorem exists_listing (m : Manifest) (uuid : DocumentUuid) : ∃ listed, Listing m uuid listed :=
  ⟨_, List.mergeSort_perm _ _, pairwise_mergeSort_precedence _⟩

/-- A version is the last of every listing when it precedes none of the others. -/
theorem last_of_listing_iff {m : Manifest} {uuid : DocumentUuid} {new : AssetVersion}
    (hnew : new ∈ recordedVersions m uuid) :
    (∀ listed, Listing m uuid listed → listed.getLast? = some new) ↔
      ∀ v ∈ recordedVersions m uuid, v.precedence < new.precedence ∨ v = new := by
  constructor
  · intro hlast v hv
    by_contra hnot
    obtain ⟨hprecedes, hne⟩ := not_or.mp hnot
    obtain ⟨listed, hperm, hsorted⟩ := exists_listing m uuid
    have hbound : ∀ w ∈ listed, w.precedence ≤ v.precedence := by
      obtain ⟨front, rfl⟩ := List.getLast?_eq_some_iff.mp (hlast listed ⟨hperm, hsorted⟩)
      intro w hw
      have hle : w.precedence ≤ new.precedence := by
        obtain hw | hw := List.mem_append.mp hw
        · exact (List.pairwise_append.mp hsorted).2.2 w hw new List.mem_cons_self
        · exact le_of_eq (congrArg _ (List.mem_singleton.mp hw))
      exact hle.trans (not_lt.mp hprecedes)
    -- The other version may as well be visited last.
    have hother : Listing m uuid (listed.erase v ++ [v]) := by
      refine ⟨?_, List.pairwise_append.mpr ⟨hsorted.sublist List.erase_sublist,
        List.pairwise_singleton .., ?_⟩⟩
      · have hmem : v ∈ listed := hperm.mem_iff.mpr hv
        exact (List.perm_append_singleton ..).trans ((List.perm_cons_erase hmem).symm.trans hperm)
      · intro w hw u hu
        rw [List.mem_singleton.mp hu]
        exact hbound w (List.mem_of_mem_erase hw)
    have hlast' := hlast _ hother
    rw [List.getLast?_append, List.getLast?_singleton] at hlast'
    exact hne (by simpa using hlast')
  · rintro hbelow listed ⟨hperm, hsorted⟩
    have hmem : new ∈ listed := hperm.mem_iff.mpr hnew
    obtain ⟨front, last, rfl⟩ : ∃ front last, listed = front ++ [last] :=
      ⟨_, _, (List.dropLast_append_getLast (List.ne_nil_of_mem hmem)).symm⟩
    rw [List.getLast?_append, List.getLast?_singleton]
    have hlast : last ∈ recordedVersions m uuid := hperm.mem_iff.mp (by simp)
    obtain hlt | rfl := hbelow last hlast
    · obtain hfront | hlist := List.mem_append.mp hmem
      · have hle := (List.pairwise_append.mp hsorted).2.2 new hfront last List.mem_cons_self
        exact absurd hlt (not_lt.mpr hle)
      · exact absurd hlt (by rw [List.mem_singleton.mp hlist]; exact lt_irrefl _)
    · rfl

end Manifest

end IrohBeekem
