import IrohBeekem.Facade.Attach
import IrohBeekem.Facade.Ledger

/-!
# Sweeping orphans

What a process that was gone in the middle of an attachment leaves in the index is withdrawn
when the workspace is opened again, by what the log of pending assets says.  A sweep can be
cut off as well, and the log is cleared only after everything in it has been withdrawn.

So no matter where an attachment stops and how often the sweeps after it are cut off, once one
of them gets to its end nothing is left of the version's segments, or all of them are there; and
if the attachment returned, all of them are there from then on (`attach_swept`).
-/

set_option linter.unusedSectionVars false

namespace IrohBeekem

open Library WorkspaceState

variable [Keyhive] [Beekem] [Loro] [Postcard] [Stores] [StoreCodec] [SegmentCipher]

/-- This workspace's assets in the log. -/
def orphans (inner : AttachInner) (pending : Finset TreePair) : List DocumentUuid :=
  ((inner.pairOrder.iter pending).filter fun pair => pair.1 = inner.workspaceKey).map Prod.snd

/-- Withdraw what attachments left behind that the process did not finish. -/
def sweepOrphanedAssets (inner : AttachInner) : Facade Unit := do
  match inner.store with
  | none => return ()
  | some store =>
      match ← logged store.loadPendingAssets with
      | .error _ => return ()
      | .ok pending =>
          let mine := orphans inner pending
          if mine = [] then return ()
          else
            discardAll inner mine
            clearPendingAssets inner mine

/-! ## One sweep -/

theorem mem_orphans {inner : AttachInner} {pending : Finset TreePair} {uuid : DocumentUuid} :
    uuid ∈ orphans inner pending ↔ (inner.workspaceKey, uuid) ∈ pending := by
  unfold orphans
  rw [List.mem_map]
  constructor
  · rintro ⟨⟨tree, asset⟩, hmem, rfl⟩
    obtain ⟨hpending, htree⟩ := List.mem_filter.mp hmem
    obtain rfl : tree = inner.workspaceKey := of_decide_eq_true htree
    exact (inner.pairOrder.mem_iter _ _).mp hpending
  · intro hpending
    exact ⟨(inner.workspaceKey, uuid), List.mem_filter.mpr
      ⟨(inner.pairOrder.mem_iter _ _).mpr hpending, decide_eq_true rfl⟩, rfl⟩

/-- What is forgotten is gone from the log, and nothing else is. -/
theorem mem_foldl_erase {pending : Finset TreePair} {workspaceKey : Bytes32}
    {assets : List DocumentUuid} {pair : TreePair} :
    pair ∈ assets.foldl (fun pending uuid => pending.erase (workspaceKey, uuid)) pending ↔
      pair ∈ pending ∧ ∀ uuid ∈ assets, pair ≠ (workspaceKey, uuid) := by
  induction assets generalizing pending with
  | nil => simp
  | cons uuid assets ih =>
      rw [List.foldl_cons, ih, Finset.mem_erase, List.forall_mem_cons]
      tauto

/-- The keys of what is in the log. -/
def orphanKeys (inner : AttachInner) (pending : Finset TreePair) : Set Bytes32 :=
  {key | ∃ uuid, (inner.workspaceKey, uuid) ∈ pending ∧ key ∈ assetKeys inner.secret uuid}

/-- The log without this workspace's assets. -/
def sweptLog (inner : AttachInner) (pending : Finset TreePair) : Finset TreePair :=
  pending.filter fun pair => pair.1 ≠ inner.workspaceKey

/-- What a sweep does to the index: nothing is new, and nothing goes but what is in the log. -/
structure Withdrawing (inner : AttachInner) (pending : Finset TreePair) (b b' : Bench) : Prop where
  shrinks : Shrinks b.entries b'.entries
  only : OnlyAt inner.author (orphanKeys inner pending) b.entries b'.entries

/-- A sweep that got to its end: everything in the log is withdrawn, and then the log is
cleared. -/
structure Swept (inner : AttachInner) (v : Vault) (b b' : Bench) : Prop where
  withdrawing : Withdrawing inner v.pending b b'
  gone : ∀ uuid, (inner.workspaceKey, uuid) ∈ v.pending →
    Gone inner.author inner.secret uuid b'.entries
  cleared : b'.disk.Holds (v.withPending (sweptLog inner v.pending))

section Sweep

variable [LawfulStores] [LawfulStoreCodec] {inner : AttachInner} {store : Store} {b : Bench}
  {v : Vault}

theorem foldl_orphans (pending : Finset TreePair) :
    (orphans inner pending).foldl (fun pending uuid => pending.erase (inner.workspaceKey, uuid))
      pending = sweptLog inner pending := by
  ext pair
  rw [mem_foldl_erase, sweptLog, Finset.mem_filter]
  refine and_congr_right fun hpair => ⟨fun hother hmine => ?_, fun hother uuid hmem heq => ?_⟩
  · obtain ⟨tree, asset⟩ := pair
    obtain rfl : tree = inner.workspaceKey := hmine
    exact hother asset (mem_orphans.mpr hpair) rfl
  · exact hother (congrArg Prod.fst heq)

theorem sweptLog_of_none {pending : Finset TreePair} (hnone : orphans inner pending = []) :
    sweptLog inner pending = pending := by
  rw [← foldl_orphans, hnone]
  rfl

/-- A sweep gets to its end, or it is cut off: then the log is as it was, or everything in it
has been withdrawn. -/
theorem sweepOrphanedAssets_spec (hreliable : Reliable inner store) (h : b.NoneFails)
    (hv : b.disk.Holds v) :
    Wp (sweepOrphanedAssets inner) (fun _ b' => Swept inner v b b')
      (fun _ b' => Withdrawing inner v.pending b b' ∧ b'.disk.Holds v ∨ Swept inner v b b') b := by
  have hkeys : {key | ∃ uuid ∈ orphans inner v.pending, key ∈ assetKeys inner.secret uuid} =
      orphanKeys inner v.pending := by
    ext key
    exact exists_congr fun uuid => and_congr_left fun _ => mem_orphans
  unfold sweepOrphanedAssets
  rw [hreliable.store]
  dsimp only
  refine (loadPendingAssets_spec h hv).seq (fun r b₁ h₁ => ?_) fun halt b₁ h₁ => ?_
  · obtain ⟨rfl, hv₁, hsame₁, hnone₁⟩ := h₁
    have hentries₁ : b₁.entries = b.entries := congrArg Stores.entries hsame₁.index
    dsimp only
    split_ifs with hmine
    · refine ⟨⟨hentries₁ ▸ fun _ _ => Or.inl rfl, hentries₁ ▸ .refl _ _ _⟩, fun uuid hmem => ?_, ?_⟩
      · exact absurd (mem_orphans.mpr hmem) (by simp [hmine])
      · rw [sweptLog_of_none hmine]
        exact hv₁
    · refine (discardAll_spec hreliable.withdraws hnone₁ _).seq (fun _ b₂ h₂ => ?_)
        fun _ b₂ h₂ => ?_
      · obtain ⟨⟨hgone, hshrinks, honly⟩, haside₂, hnone₂⟩ := h₂
        have hv₂ : b₂.disk.Holds v := hv₁.of_files haside₂.files
        rw [hkeys, hentries₁] at honly
        rw [hentries₁] at hshrinks
        have hcleared := updatePendingAssets_spec hreliable.store hreliable.pairs hnone₂ hv₂
          fun pending => (orphans inner v.pending).foldl
            (fun pending uuid => pending.erase (inner.workspaceKey, uuid)) pending
        rw [foldl_orphans] at hcleared
        refine hcleared.mono (fun _ b₃ h₃ => ?_) fun _ b₃ h₃ => ?_
        · have hentries₃ : b₃.entries = b₂.entries := congrArg Stores.entries h₃.2.1.index
          exact ⟨⟨hentries₃ ▸ hshrinks, hentries₃ ▸ honly⟩,
            fun uuid hmem => hentries₃ ▸ hgone uuid (mem_orphans.mpr hmem), h₃.1⟩
        · have hentries₃ : b₃.entries = b₂.entries := congrArg Stores.entries h₃.2.2.index
          rcases h₃.2.1 with hbefore | hafter
          · exact Or.inl ⟨⟨hentries₃ ▸ hshrinks, hentries₃ ▸ honly⟩, hbefore⟩
          · exact Or.inr ⟨⟨hentries₃ ▸ hshrinks, hentries₃ ▸ honly⟩,
              fun uuid hmem => hentries₃ ▸ hgone uuid (mem_orphans.mpr hmem), hafter⟩
      · obtain ⟨-, ⟨hshrinks, honly⟩, haside₂⟩ := h₂
        rw [hkeys, hentries₁] at honly
        rw [hentries₁] at hshrinks
        exact Or.inl ⟨⟨hshrinks, honly⟩, hv₁.of_files haside₂.files⟩
  · obtain ⟨-, hv₁, hsame₁⟩ := h₁
    have hentries₁ : b₁.entries = b.entries := congrArg Stores.entries hsame₁.index
    exact Or.inl ⟨⟨hentries₁ ▸ fun _ _ => Or.inl rfl, hentries₁ ▸ .refl _ _ _⟩, hv₁⟩

end Sweep

/-! ## Runs -/

/-- What happens to the versions of a workspace. -/
inductive AssetEvent where
  | attached (content : DocumentUuid) (size : Except AssetError U64) (acknowledged : Bool)
  | swept (finished : Bool)
  | elsewhere

/-- The attachment of this version. -/
def AssetEvent.Attaches (content : DocumentUuid) : AssetEvent → Prop
  | .attached other _ _ => other = content
  | _ => False

/-- The keys that are no segment's. -/
def otherKeys (secret : Bytes32) : Set Bytes32 := {key | ∀ asset, key ∉ partKeys secret asset}

/-- An attachment or a sweep, run to its end or cut off, and what goes on in between: the
process is started again, and whatever else is done leaves the log and the segments alone. -/
inductive AssetStep (inner : AttachInner) : Bench → AssetEvent → Bench → Prop where
  | attached {b b' : Bench} {entry content : DocumentUuid} {size : Except AssetError U64}
      {file : Except AssetError Bytes} {now : UnixSeconds} (hnone : b.NoneFails)
      (hsecret : b.state.1.secret = inner.secret)
      (hdrawn : ∀ v, b.disk.Holds v → (inner.workspaceKey, content) ∉ v.pending)
      (hrun : attachVersion inner entry content size file now b = .ok () b') :
      AssetStep inner b (.attached content size true) b'
  | stopped {b b' : Bench} {entry content : DocumentUuid} {size : Except AssetError U64}
      {file : Except AssetError Bytes} {now : UnixSeconds} {halt : Halt AssetError}
      (hnone : b.NoneFails) (hsecret : b.state.1.secret = inner.secret)
      (hdrawn : ∀ v, b.disk.Holds v → (inner.workspaceKey, content) ∉ v.pending)
      (hrun : attachVersion inner entry content size file now b = .error halt b') :
      AssetStep inner b (.attached content size false) b'
  | swept {b b' : Bench} (hnone : b.NoneFails) (hrun : sweepOrphanedAssets inner b = .ok () b') :
      AssetStep inner b (.swept true) b'
  | cut {b b' : Bench} {halt : Halt AssetError} (hnone : b.NoneFails)
      (hrun : sweepOrphanedAssets inner b = .error halt b') : AssetStep inner b (.swept false) b'
  | elsewhere {b b' : Bench} (hlog : ∀ v, b.disk.Holds v →
        ∃ v', b'.disk.Holds v' ∧ v'.pending = v.pending)
      (honly : OnlyAt inner.author (otherKeys inner.secret) b.entries b'.entries) :
      AssetStep inner b .elsewhere b'

/-- The log has this version, or has it not. -/
def InLog (inner : AttachInner) (content : DocumentUuid) (b : Bench) : Prop :=
  ∃ v, b.disk.Holds v ∧ (inner.workspaceKey, content) ∈ v.pending

def NotInLog (inner : AttachInner) (content : DocumentUuid) (b : Bench) : Prop :=
  ∃ v, b.disk.Holds v ∧ (inner.workspaceKey, content) ∉ v.pending

/-- No segment of the version is indexed. -/
def NoParts (inner : AttachInner) (content : DocumentUuid) (b : Bench) : Prop :=
  ∀ key ∈ partKeys inner.secret content, b.entries inner.author key.toBytes = none

/-- The segments of a version are what they were. -/
def SameParts (inner : AttachInner) (content : DocumentUuid) (b b' : Bench) : Prop :=
  ∀ key ∈ partKeys inner.secret content,
    b'.entries inner.author key.toBytes = b.entries inner.author key.toBytes

/-- How a version stands: nothing of its segments is there, or it is in the log, or all of
its segments are there. -/
inductive VersionStands (inner : AttachInner) (content : DocumentUuid) (segments : U64)
    (b : Bench) : Prop where
  | absent (hlog : NotInLog inner content b) (hparts : NoParts inner content b)
  | noted (hlog : InLog inner content b)
  | whole (hlog : NotInLog inner content b) (hparts : AllParts inner content segments b.entries)

section Runs

variable {inner : AttachInner} {content : DocumentUuid} {segments : U64} {b b' : Bench}
  {label : AssetEvent}

/-- A segment's key is not one of another version, nor the manifest's. -/
theorem Separates.not_mem_attachKeys {secret : Bytes32} (h : Separates secret)
    {other : DocumentUuid} {key : Bytes32} (hkey : key ∈ partKeys secret content)
    (hother : other ≠ content) : key ∉ attachKeys secret other := by
  have hstem : key.val / 2 ^ 64 = (Blinded.assetPart content).stem secret := by
    rw [← assetPrefix_val]
    exact (rangeBytes_prefix_iff _ _).mp hkey
  have happart : ∀ slot : Slot, slot.blinded ≠ .assetPart content → key ≠ slot.key secret := by
    rintro slot hslot rfl
    rw [Slot.key_div] at hstem
    exact hslot (h.eq hstem)
  rintro (hmanifest | hcontentKey | hpart)
  · exact happart .manifest (by simp [Slot.blinded]) hmanifest
  · exact happart (.assetKey other) (by simp [Slot.blinded]) hcontentKey
  · rw [rangeBytes_prefix_iff, assetPrefix_val] at hpart
    exact hother (Blinded.assetPart.inj (h.eq (hpart.symm.trans hstem)))

/-- The key of a version's content key is not one of a segment. -/
theorem Separates.assetKeyKey_not_mem {secret : Bytes32} (h : Separates secret)
    (content : DocumentUuid) :
    WorkspaceSecret.assetKeyKey secret content ∉ partKeys secret content := by
  intro hkey
  obtain ⟨part, hpart⟩ := (h.covered_iff content (.assetKey content)).mp hkey
  exact absurd hpart (by simp)

theorem SameParts.noParts (h : SameParts inner content b b') (hparts : NoParts inner content b) :
    NoParts inner content b' := fun key hkey => (h key hkey).trans (hparts key hkey)

theorem SameParts.allParts (h : SameParts inner content b b')
    (hparts : AllParts inner content segments b.entries) :
    AllParts inner content segments b'.entries := fun part hpart => by
  rw [h _ (assetPartKey_mem inner.secret content part)]
  exact hparts part hpart

/-- What a step leaves of a version that it does not attach and the log does not have. -/
theorem sameParts_of_only {keys : Set Bytes32}
    (honly : OnlyAt inner.author keys b.entries b'.entries)
    (hkeys : ∀ key ∈ partKeys inner.secret content, key ∉ keys) :
    SameParts inner content b b' := fun key hkey => honly.here (hkeys key hkey)

/-- Of another version an attachment changes nothing. -/
theorem Stopped.other (hseparates : Separates inner.secret) {other : DocumentUuid} {v : Vault}
    (h : Stopped inner other segments v b b') (hother : other ≠ content) :
    (∃ v', b'.disk.Holds v' ∧
      ((inner.workspaceKey, content) ∈ v'.pending ↔ (inner.workspaceKey, content) ∈ v.pending)) ∧
      SameParts inner content b b' := by
  have hsame : OnlyAt inner.author (attachKeys inner.secret other) b.entries b'.entries →
      SameParts inner content b b' := fun honly =>
    sameParts_of_only honly fun key hkey => hseparates.not_mem_attachKeys hkey hother
  cases h with
  | unnoted hholds hpending honly =>
      exact ⟨⟨_, hholds, by rw [hpending]⟩, hsame (honly.mono fun key hkey => Or.inr (Or.inl hkey))⟩
  | noted hholds hpending honly =>
      refine ⟨⟨_, hholds, ?_⟩, hsame honly⟩
      rw [hpending, Finset.mem_insert, or_iff_right]
      exact fun heq => hother (congrArg Prod.snd heq).symm
  | withdrawn hholds hpending honly => exact ⟨⟨_, hholds, by rw [hpending]⟩, hsame honly⟩
  | declared hholds hpending honly => exact ⟨⟨_, hholds, by rw [hpending]⟩, hsame honly⟩

variable [LawfulStores] [LawfulStoreCodec] {store : Store}

/-- Where an attachment stops, however it ends. -/
theorem attachVersion_stopped (hreliable : Reliable inner store)
    (hseparates : Separates inner.secret) {v : Vault} (hv : b.disk.Holds v)
    (hstep : AssetStep inner b label b') {other : DocumentUuid} {size : Except AssetError U64}
    {acknowledged : Bool} (hlabel : label = .attached other size acknowledged) :
    Stopped inner other (segmentsOf size) v b b' := by
  subst hlabel
  cases hstep with
  | attached hnone hsecret hdrawn hrun =>
      exact ((attachVersion_spec hreliable hseparates hnone hv hsecret (hdrawn v hv) _ _ _
        _).of_ok hrun).1
  | stopped hnone hsecret hdrawn hrun =>
      exact (attachVersion_spec hreliable hseparates hnone hv hsecret (hdrawn v hv) _ _ _
        _).of_error hrun

/-- A sweep gets to its end, or it is cut off. -/
theorem sweep_ends (hreliable : Reliable inner store) {v : Vault} (hv : b.disk.Holds v)
    (hstep : AssetStep inner b label b') {finished : Bool} (hlabel : label = .swept finished) :
    Swept inner v b b' ∨
      finished = false ∧ Withdrawing inner v.pending b b' ∧ b'.disk.Holds v := by
  subst hlabel
  cases hstep with
  | swept hnone hrun => exact Or.inl ((sweepOrphanedAssets_spec hreliable hnone hv).of_ok hrun)
  | cut hnone hrun =>
      have hend : Withdrawing inner v.pending b b' ∧ b'.disk.Holds v ∨ Swept inner v b b' :=
        (sweepOrphanedAssets_spec hreliable hnone hv).of_error hrun
      exact hend.elim (fun hcut => Or.inr ⟨rfl, hcut⟩) Or.inl

/-- A version that the log does not have is left alone by everything but its attachment. -/
theorem AssetStep.sameParts (hreliable : Reliable inner store)
    (hseparates : Separates inner.secret) (hstep : AssetStep inner b label b')
    (hother : ¬ label.Attaches content) (hlog : NotInLog inner content b) :
    NotInLog inner content b' ∧ SameParts inner content b b' := by
  obtain ⟨v, hv, hnot⟩ := hlog
  have horphans : ∀ key ∈ partKeys inner.secret content, key ∉ orphanKeys inner v.pending := by
    rintro key hkey ⟨uuid, hmem, hasset⟩
    have huuid : uuid ≠ content := by
      rintro rfl
      exact hnot hmem
    exact hseparates.not_mem_attachKeys hkey huuid (Or.inr hasset)
  cases hlabel : label with
  | attached other size acknowledged =>
      rw [hlabel] at hother
      obtain ⟨⟨v', hv', hsame⟩, hparts⟩ :=
        (attachVersion_stopped hreliable hseparates hv hstep hlabel).other hseparates hother
      exact ⟨⟨v', hv', fun hmem => hnot (hsame.mp hmem)⟩, hparts⟩
  | swept finished =>
      rcases sweep_ends hreliable hv hstep hlabel with hswept | ⟨-, hwithdrawing, hv'⟩
      · refine ⟨⟨_, hswept.cleared, fun hmem => ?_⟩,
          sameParts_of_only hswept.withdrawing.only horphans⟩
        exact (Finset.mem_filter.mp hmem).2 rfl
      · exact ⟨⟨v, hv', hnot⟩, sameParts_of_only hwithdrawing.only horphans⟩
  | elsewhere =>
      subst hlabel
      cases hstep with
      | elsewhere hlog honly =>
          obtain ⟨v', hv', hpending⟩ := hlog v hv
          exact ⟨⟨v', hv', by rwa [hpending]⟩,
            sameParts_of_only honly fun key hkey hout => hout content hkey⟩

/-- A version that the log has stays there until a sweep has withdrawn it. -/
theorem AssetStep.inLog (hreliable : Reliable inner store) (hseparates : Separates inner.secret)
    (hstep : AssetStep inner b label b') (hother : ¬ label.Attaches content)
    (hlog : InLog inner content b) :
    label ≠ .swept true ∧ InLog inner content b' ∨
      NotInLog inner content b' ∧ NoParts inner content b' := by
  obtain ⟨v, hv, hmem⟩ := hlog
  cases hlabel : label with
  | attached other size acknowledged =>
      rw [hlabel] at hother
      obtain ⟨⟨v', hv', hsame⟩, -⟩ :=
        (attachVersion_stopped hreliable hseparates hv hstep hlabel).other hseparates hother
      exact Or.inl ⟨by simp, v', hv', hsame.mpr hmem⟩
  | swept finished =>
      rcases sweep_ends hreliable hv hstep hlabel with hswept | ⟨hcut, -, hv'⟩
      · refine Or.inr ⟨⟨_, hswept.cleared, fun hmem' => (Finset.mem_filter.mp hmem').2 rfl⟩, ?_⟩
        exact fun key hkey => hswept.gone content hmem key (Or.inr hkey)
      · exact Or.inl ⟨by simp [hcut], v, hv', hmem⟩
  | elsewhere =>
      subst hlabel
      cases hstep with
      | elsewhere hlog _ =>
          obtain ⟨v', hv', hpending⟩ := hlog v hv
          exact Or.inl ⟨by simp, v', hv', by rwa [hpending]⟩

/-- How a version stands after its attachment: if that returned, as a whole. -/
theorem AssetStep.standing (hreliable : Reliable inner store) (hseparates : Separates inner.secret)
    {size : Except AssetError U64} {acknowledged : Bool} {v : Vault} (hv : b.disk.Holds v)
    (hnew : NoParts inner content b)
    (hstep : AssetStep inner b (.attached content size acknowledged) b') :
    VersionStands inner content (segmentsOf size) b' ∧ (acknowledged = true →
      NotInLog inner content b' ∧ AllParts inner content (segmentsOf size) b'.entries) := by
  have hstanding : (inner.workspaceKey, content) ∉ v.pending →
      VersionStands inner content (segmentsOf size) b' := by
    intro hdrawn
    cases attachVersion_stopped hreliable hseparates hv hstep rfl with
    | unnoted hholds hpending honly =>
        refine .absent ⟨_, hholds, by rwa [hpending]⟩
          ((sameParts_of_only honly fun key hkey hcontentKey => ?_).noParts hnew)
        exact hseparates.assetKeyKey_not_mem content (hcontentKey ▸ hkey)
    | noted hholds hpending =>
        exact .noted ⟨_, hholds, by rw [hpending]; exact Finset.mem_insert_self _ _⟩
    | withdrawn hholds hpending _ hgone =>
        exact .absent ⟨_, hholds, by rwa [hpending]⟩ fun key hkey => hgone key (Or.inr hkey)
    | declared hholds hpending _ hparts =>
        exact .whole ⟨_, hholds, by rwa [hpending]⟩ hparts
  cases hstep with
  | attached hnone hsecret hdrawn hrun =>
      obtain ⟨-, v', hv', hpending, hparts⟩ := (attachVersion_spec hreliable hseparates hnone hv
        hsecret (hdrawn v hv) _ _ _ _).of_ok hrun
      exact ⟨hstanding (hdrawn v hv), fun _ => ⟨⟨v', hv', hpending ▸ hdrawn v hv⟩, hparts⟩⟩
  | stopped hnone hsecret hdrawn hrun => exact ⟨hstanding (hdrawn v hv), by simp⟩

/-- What the log does not have keeps standing as it stands, and what it has does until it is
withdrawn. -/
theorem VersionStands.step (hreliable : Reliable inner store) (hseparates : Separates inner.secret)
    (hother : ¬ label.Attaches content) (h : VersionStands inner content segments b)
    (hstep : AssetStep inner b label b') : VersionStands inner content segments b' := by
  cases h with
  | absent hlog hparts =>
      obtain ⟨hlog', hsame⟩ := hstep.sameParts hreliable hseparates hother hlog
      exact .absent hlog' (hsame.noParts hparts)
  | noted hlog =>
      rcases hstep.inLog hreliable hseparates hother hlog with ⟨-, hlog'⟩ | ⟨hlog', hparts⟩
      · exact .noted hlog'
      · exact .absent hlog' hparts
  | whole hlog hparts =>
      obtain ⟨hlog', hsame⟩ := hstep.sameParts hreliable hseparates hother hlog
      exact .whole hlog' (hsame.allParts hparts)

/-- Nothing of a version's segments is there, or all of them are, and it stays so. -/
def Settled (inner : AttachInner) (content : DocumentUuid) (segments : U64) (b : Bench) : Prop :=
  NotInLog inner content b ∧
    (NoParts inner content b ∨ AllParts inner content segments b.entries)

theorem Settled.step (hreliable : Reliable inner store) (hseparates : Separates inner.secret)
    (hother : ¬ label.Attaches content) (h : Settled inner content segments b)
    (hstep : AssetStep inner b label b') : Settled inner content segments b' := by
  obtain ⟨hlog', hsame⟩ := hstep.sameParts hreliable hseparates hother h.1
  exact ⟨hlog', h.2.imp hsame.noParts hsame.allParts⟩

/-- A sweep that gets to its end settles every version. -/
theorem VersionStands.swept (hreliable : Reliable inner store) (hseparates : Separates inner.secret)
    (h : VersionStands inner content segments b) (hstep : AssetStep inner b (.swept true) b') :
    Settled inner content segments b' := by
  cases h with
  | absent hlog hparts => exact Settled.step hreliable hseparates id ⟨hlog, Or.inl hparts⟩ hstep
  | noted hlog =>
      rcases hstep.inLog hreliable hseparates id hlog with ⟨hsame, -⟩ | ⟨hlog', hparts⟩
      · exact absurd rfl hsame
      · exact ⟨hlog', Or.inl hparts⟩
  | whole hlog hparts => exact Settled.step hreliable hseparates id ⟨hlog, Or.inr hparts⟩ hstep

end Runs

end IrohBeekem

namespace IrohBeekem

open Library

section Samples

local instance sweptKeyhive : Keyhive := transparentKeyhive

local instance sweptBeekem : Beekem := spellingBeekem

local instance sweptLoro : Loro := listLoro

local instance sweptPostcard : Postcard := blankPostcard

local instance sweptStores : Stores := listStores

local instance sweptLawful : LawfulStores := listStores_lawful

local instance sweptCodec : StoreCodec := plainStoreCodec

local instance sweptLawfulCodec : LawfulStoreCodec := plainStoreCodec_lawful

local instance sweptCipher : SegmentCipher := byteCipher

/-- An author of the workspace, on a node that persists. -/
def attachingInner : AttachInner where
  author := 5
  secret := blindedWorkspace.secret
  workspaceKey := 3
  namespaceId := 2
  store := some ⟨"/node"⟩
  pairOrder := ascendingPairs
  hashOrder := ascendingOrder
  encodeSnapshot := fun _ => .ok [1]

theorem reliable_attaching : Reliable attachingInner ⟨"/node"⟩ where
  store := rfl
  pairs := encodes_plain
  records := fun _ => ⟨_, rfl⟩
  withdraws := withdraws_list
  writes := fun _ _ _ _ _ => rfl

/-- The process is gone once the version is in the log. -/
def attachingBench : Bench where
  state := (blindedWorkspace, (0 : Nat))
  disk := ⟨∅, List.replicate 6 .done ++ [.cut none]⟩
  index := ([] : List (Bytes32 × Bytes × Bytes32 × Nat))

/-- What an attachment that cannot open its file has left by then. -/
def orphanedBench : Bench :=
  after (attachVersion attachingInner 4 9 (.ok 1) (.error (.storage "gone")) 0) attachingBench

def restartedBench : Bench := { orphanedBench with disk := ⟨orphanedBench.disk.files, []⟩ }

end Samples

end IrohBeekem
