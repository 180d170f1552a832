import IrohBeekem.Facade.Disk

/-!
# The files under their final names

The store replaces a file by writing under a temporary name and renaming.  Seen under the
final names (`Disk.shelf`), replacing a file is atomic (`writePrivate_atomic`), and so is
removing one (`removeWorkspace_atomic`), whatever becomes of the calls on the file system.
No name that is written on the way is taken for a snapshot (`Tidy`).

A call on the file system can fail, or the process can be gone before it returns.  Where no
call to come fails (`NoneFails`), a write is done or cut off (`writePrivate_noneFails`).
-/

set_option linter.unusedSectionVars false

namespace IrohBeekem

open Library

/-! ## The shelf -/

/-- The files the store keeps. -/
inductive StoreFile where
  | endpointKey
  | redeemed
  | pendingAssets
  | snapshot (treeId : Bytes32)
  deriving DecidableEq

/-- Where they live. -/
def StoreFile.path : StoreFile → Path
  | .endpointKey => Store.endpointKeyPath
  | .redeemed => Store.redeemedPath
  | .pendingAssets => Store.pendingAssetsPath
  | .snapshot treeId => Store.workspacePath treeId

/-- What is found under the final names. -/
abbrev Shelf := StoreFile → Option File

/-- A private file takes the place of what was there. -/
def Shelf.put (file : StoreFile) (bytes : Bytes) (shelf : Shelf) : Shelf :=
  Function.update shelf file (some ⟨bytes, true⟩)

/-- A file is taken off. -/
def Shelf.remove (file : StoreFile) (shelf : Shelf) : Shelf := Function.update shelf file none

theorem Shelf.put_apply {file other : StoreFile} {bytes : Bytes} {shelf : Shelf} :
    shelf.put file bytes other = if other = file then some ⟨bytes, true⟩ else shelf other :=
  Function.update_apply shelf file _ other

theorem Shelf.remove_apply {file other : StoreFile} {shelf : Shelf} :
    shelf.remove file other = if other = file then none else shelf other :=
  Function.update_apply shelf file _ other

def shelfOf (files : Files) : Shelf := fun file => files.lookup file.path

def Disk.shelf (d : Disk) : Shelf := shelfOf d.files

/-- A file that is named like a snapshot is named like the store names them. -/
def Proper (path : Path) : Prop :=
  path.dir = some Store.workspacesDir → ∀ treeId, Store.treeOf path = some treeId →
    path = Store.workspacePath treeId

/-- Nobody else's file is taken for a snapshot. -/
def Tidy (files : Files) : Prop := ∀ path ∈ files, Proper path

theorem hexTree_injective {x y : Bytes32} (h : hex x.toBytes = hex y.toBytes) : x = y := by
  have hbytes : some x.toBytes = some y.toBytes := by
    rw [← unhex_hex x.toBytes, h, unhex_hex]
  have hvalue : bytes32? x.toBytes = bytes32? y.toBytes :=
    congrArg bytes32? (Option.some.inj hbytes)
  rw [bytes32?_toBytes, bytes32?_toBytes] at hvalue
  exact Option.some.inj hvalue

theorem treeOf_workspacePath (treeId : Bytes32) :
    Store.treeOf (Store.workspacePath treeId) = some treeId := by
  unfold Store.treeOf Store.workspacePath
  rw [if_pos rfl, storeUnhex_eq, unhex32, unhex_hex]
  exact bytes32?_toBytes treeId

namespace StoreFile

theorem path_injective : Function.Injective path := by
  intro a b h
  cases a <;> cases b
  case snapshot.snapshot x y => rw [hexTree_injective (congrArg Path.stem h)]
  all_goals first
    | rfl
    | simp [path, Store.endpointKeyPath, Store.redeemedPath, Store.pendingAssetsPath,
        Store.workspacePath] at h

/-- No temporary name is a final one. -/
theorem tmp_ne (a b : StoreFile) : a.path.withExtension "tmp" ≠ b.path := by
  intro h
  have hext : some "tmp" = b.path.ext := congrArg Path.ext h
  cases b <;> simp [path, Store.endpointKeyPath, Store.redeemedPath, Store.pendingAssetsPath,
    Store.workspacePath, Store.snapshotExt] at hext

theorem proper_path (file : StoreFile) : Proper file.path := by
  intro hdir treeId htree
  cases file with
  | snapshot x =>
      change Store.treeOf (Store.workspacePath x) = some treeId at htree
      rw [treeOf_workspacePath] at htree
      obtain rfl := Option.some.inj htree
      rfl
  | endpointKey => exact absurd hdir (by simp [path, Store.endpointKeyPath])
  | redeemed => exact absurd hdir (by simp [path, Store.redeemedPath])
  | pendingAssets => exact absurd hdir (by simp [path, Store.pendingAssetsPath])

theorem proper_tmp (file : StoreFile) : Proper (file.path.withExtension "tmp") := by
  intro _ treeId htree
  have hnone : Store.treeOf (file.path.withExtension "tmp") = none := if_neg (by
    show some "tmp" ≠ some Store.snapshotExt
    decide)
  rw [hnone] at htree
  exact absurd htree (by simp)

end StoreFile

/-! ## Changes to the files -/

section Files

variable {files : Files} {path : Path} {bytes : Bytes}

theorem lookup_put (files : Files) (path : Path) (bytes : Bytes) :
    (Fs.put path bytes files).lookup path =
      some ⟨bytes, ((files.lookup path).map File.ownerOnly).getD false⟩ :=
  AList.lookup_insert files

/-- Writing under a temporary name does not show. -/
theorem shelfOf_put (file : StoreFile) (bytes : Bytes) (files : Files) :
    shelfOf (Fs.put (file.path.withExtension "tmp") bytes files) = shelfOf files := by
  funext other
  exact AList.lookup_insert_ne (file.tmp_ne other).symm

theorem shelfOf_secured (file : StoreFile) (files : Files) :
    shelfOf (Fs.secured (file.path.withExtension "tmp") files) = shelfOf files := by
  unfold Fs.secured
  split
  · funext other
    exact AList.lookup_insert_ne (file.tmp_ne other).symm
  · rfl

/-- Renaming puts the file in place. -/
theorem shelfOf_moved {file : StoreFile} {written : File}
    (h : files.lookup (file.path.withExtension "tmp") = some written) :
    shelfOf (Fs.moved (file.path.withExtension "tmp") file.path files) =
      Function.update (shelfOf files) file (some written) := by
  funext other
  unfold Fs.moved
  rw [h]
  dsimp only [shelfOf]
  by_cases hother : other = file
  · subst hother
    rw [Function.update_self, AList.lookup_insert]
  · have hpath : other.path ≠ file.path := fun heq => hother (StoreFile.path_injective heq)
    rw [Function.update_of_ne hother, AList.lookup_insert_ne hpath,
      AList.lookup_erase_ne (file.tmp_ne other).symm]
    rfl

theorem shelfOf_erase (file : StoreFile) (files : Files) :
    shelfOf (files.erase file.path) = Function.update (shelfOf files) file none := by
  funext other
  by_cases hother : other = file
  · subst hother
    rw [Function.update_self]
    exact AList.lookup_erase _ _
  · have hpath : other.path ≠ file.path := fun heq => hother (StoreFile.path_injective heq)
    rw [Function.update_of_ne hother]
    exact AList.lookup_erase_ne hpath

theorem Tidy.insert (h : Tidy files) (hpath : Proper path) (file : File) :
    Tidy (files.insert path file) := by
  intro other hmem
  rcases AList.mem_insert files |>.mp hmem with rfl | hmem
  · exact hpath
  · exact h other hmem

theorem Tidy.erase (h : Tidy files) (path : Path) : Tidy (files.erase path) := fun other hmem =>
  h other (AList.mem_erase.mp hmem).2

theorem Tidy.secured (h : Tidy files) (hpath : Proper path) : Tidy (Fs.secured path files) := by
  unfold Fs.secured
  split
  · exact h.insert hpath _
  · exact h

theorem Tidy.moved (h : Tidy files) {tmp : Path} (hpath : Proper path) :
    Tidy (Fs.moved tmp path files) := by
  unfold Fs.moved
  split
  · exact (h.erase tmp).insert hpath _
  · exact h

end Files

/-! ## Calls that show in one place -/

/-- What the calls on the file system keep, done or not. -/
theorem maintains_sysCall {α : Type} {holds : Files → Prop}
    {done : Files → Except IoError (α × Files)} {fails gone : Nat → Files → Files}
    (hdone : ∀ files a files', done files = .ok (a, files') → holds files → holds files')
    (hfails : ∀ n files, holds files → holds (fails n files))
    (hgone : ∀ n files, holds files → holds (gone n files)) :
    Maintains (fun d : Disk => holds d.files) (sysCall done fails gone) := fun d hd =>
  wp_sysCall (fun _ => holds) (fun _ => holds) (fun a files h => hdone d.files a files h hd)
    (fun _ _ => hd) (fun _ n => hfails n d.files hd) hd fun n => hgone n d.files hd

theorem maintains_storageError {α : Type} {holds : Disk → Prop}
    {x : EStateM (Halt IoError) Disk α} (h : Maintains holds x) (message : IoError → String) :
    Maintains holds (storageError message x) := by
  intro d hd
  rw [wp_storageError]
  refine (h d hd).mono (fun _ _ => id) fun halt d' hsame => ?_
  cases halt with
  | failed e => exact hsame
  | cut => exact hsame

variable (store : Store)

/-- What is read is there. -/
theorem readIfThere_spec (file : StoreFile) (d : Disk) :
    Wp (store.readIfThere file.path)
      (fun bytes d' => bytes = (d.shelf file).map File.bytes ∧ d'.files = d.files)
      (fun _ d' => d'.files = d.files) d := by
  have hread : Wp (Fs.read file.path)
      (fun bytes d' => (d.shelf file).map File.bytes = some bytes ∧ d'.files = d.files)
      (fun halt d' => (halt = .failed .notFound → d.shelf file = none) ∧ d'.files = d.files) d := by
    refine wp_sysCall
      (fun bytes files => (d.shelf file).map File.bytes = some bytes ∧ files = d.files)
      (fun halt files => (halt = .failed .notFound → d.shelf file = none) ∧ files = d.files)
      (fun bytes files hrun => ?_) (fun e he => ⟨fun heq => ?_, rfl⟩)
      (fun _ _ => ⟨fun heq => absurd heq (by simp), rfl⟩) ⟨fun heq => absurd heq (by simp), rfl⟩
      fun _ => ⟨fun heq => absurd heq (by simp), rfl⟩
    · unfold Disk.shelf shelfOf
      cases hfile : d.files.lookup file.path with
      | none =>
          rw [hfile] at hrun
          exact absurd hrun (by simp)
      | some found =>
          rw [hfile] at hrun
          obtain ⟨rfl, rfl⟩ := Prod.mk.inj (Except.ok.inj hrun)
          exact ⟨rfl, rfl⟩
    · obtain rfl := Halt.failed.inj heq
      rcases he with hrun | ⟨text, htext⟩
      · unfold Disk.shelf shelfOf
        cases hfile : d.files.lookup file.path with
        | none => rfl
        | some found =>
            rw [hfile] at hrun
            exact absurd hrun (by simp)
      · exact absurd htext (by simp)
  unfold Store.readIfThere
  rw [wp_bind, wp_recover]
  refine hread.mono (fun bytes d' h => ⟨h.1.symm, h.2⟩) fun halt d' h => ?_
  cases halt with
  | cut => exact h.2
  | failed e =>
      cases e with
      | notFound => exact ⟨by rw [h.1 rfl]; rfl, h.2⟩
      | other text => exact h.2

/-- The bytes are under the temporary name, or nothing shows. -/
theorem write_spec (file : StoreFile) (bytes : Bytes) (d : Disk) :
    Wp (Fs.write (file.path.withExtension "tmp") bytes)
      (fun _ d' => d'.shelf = d.shelf ∧
        ∃ found, d'.files.lookup (file.path.withExtension "tmp") = some found ∧ found.bytes = bytes)
      (fun _ d' => d'.shelf = d.shelf) d := by
  refine wp_sysCall (fun _ files => shelfOf files = d.shelf ∧
      ∃ found, files.lookup (file.path.withExtension "tmp") = some found ∧ found.bytes = bytes)
    (fun _ files => shelfOf files = d.shelf) (fun _ files hrun => ?_) (fun _ _ => rfl)
    (fun _ n => shelfOf_put file _ d.files) rfl fun n => shelfOf_put file _ d.files
  obtain ⟨-, rfl⟩ := Prod.mk.inj (Except.ok.inj hrun)
  exact ⟨shelfOf_put file bytes d.files, _, lookup_put d.files _ bytes, rfl⟩

/-- The file under the temporary name is made private. -/
theorem secure_spec (file : StoreFile) {bytes : Bytes} {d : Disk} {found : File}
    (hfound : d.files.lookup (file.path.withExtension "tmp") = some found)
    (hbytes : found.bytes = bytes) :
    Wp (Fs.secure (file.path.withExtension "tmp"))
      (fun _ d' => d'.shelf = d.shelf ∧
        d'.files.lookup (file.path.withExtension "tmp") = some ⟨bytes, true⟩)
      (fun _ d' => d'.shelf = d.shelf) d := by
  refine wp_sysCall (fun _ files => shelfOf files = d.shelf ∧
      files.lookup (file.path.withExtension "tmp") = some ⟨bytes, true⟩)
    (fun _ files => shelfOf files = d.shelf) (fun _ files hrun => ?_) (fun _ _ => rfl)
    (fun _ _ => rfl) rfl fun _ => shelfOf_secured file d.files
  rw [hfound] at hrun
  obtain ⟨-, rfl⟩ := Prod.mk.inj (Except.ok.inj hrun)
  refine ⟨shelfOf_secured file d.files, ?_⟩
  unfold Fs.secured
  rw [hfound]
  subst hbytes
  exact AList.lookup_insert d.files

/-- The file is put in place, or nothing shows. -/
theorem rename_spec (file : StoreFile) {d : Disk} {written : File}
    (h : d.files.lookup (file.path.withExtension "tmp") = some written) :
    Wp (Fs.rename (file.path.withExtension "tmp") file.path)
      (fun _ d' => d'.shelf = Function.update d.shelf file (some written))
      (fun halt d' => match halt with
        | .failed _ => d'.shelf = d.shelf
        | .cut => d'.shelf = d.shelf ∨
            d'.shelf = Function.update d.shelf file (some written)) d := by
  refine wp_sysCall (fun _ files => shelfOf files = Function.update d.shelf file (some written))
    (fun halt files => match halt with
      | .failed _ => shelfOf files = d.shelf
      | .cut => shelfOf files = d.shelf ∨
          shelfOf files = Function.update d.shelf file (some written))
    (fun _ files hrun => ?_) (fun _ _ => rfl) (fun _ _ => rfl) (Or.inl rfl)
    fun _ => Or.inr (shelfOf_moved h)
  rw [h] at hrun
  obtain ⟨-, rfl⟩ := Prod.mk.inj (Except.ok.inj hrun)
  exact shelfOf_moved h

/-- Nothing but the final name shows that a file is being replaced. -/
theorem writePrivate_atomic (file : StoreFile) (bytes : Bytes) :
    Atomically Disk.shelf (Shelf.put file bytes)
      (store.writePrivate file.path bytes) := by
  intro d
  unfold Store.writePrivate
  dsimp only
  rw [wp_bind, wp_storageError]
  refine (write_spec file bytes d).mono (fun _ d₁ hwritten => ?_) fun halt d₁ hsame => ?_
  · obtain ⟨hsame₁, found, hfound, hbytes⟩ := hwritten
    rw [wp_bind, wp_storageError]
    refine (secure_spec file hfound hbytes).mono (fun _ d₂ hsecured => ?_) fun halt d₂ hsame => ?_
    · rw [wp_storageError]
      have hsame₂ : d₂.shelf = d.shelf := hsecured.1.trans hsame₁
      have hrename := rename_spec file hsecured.2
      rw [hsame₂] at hrename
      refine hrename.mono (fun _ _ => id) fun halt d₃ hmoved => ?_
      cases halt with
      | failed e => exact hmoved
      | cut => exact hmoved
    · cases halt with
      | failed e => exact hsame.trans hsame₁
      | cut => exact Or.inl (hsame.trans hsame₁)
  · cases halt with
    | failed e => exact hsame
    | cut => exact Or.inl hsame

/-- A file that is not there is as good as removed. -/
theorem removeFile_spec (file : StoreFile) (d : Disk) :
    Wp (Fs.removeFile file.path)
      (fun _ d' => d'.shelf = Function.update d.shelf file none)
      (fun halt d' => match halt with
        | .failed .notFound => d'.shelf = Function.update d.shelf file none
        | .failed (.other _) => d'.shelf = d.shelf
        | .cut => d'.shelf = d.shelf ∨ d'.shelf = Function.update d.shelf file none) d := by
  refine wp_sysCall (fun _ files => shelfOf files = Function.update d.shelf file none)
    (fun halt files => match halt with
      | .failed .notFound => shelfOf files = Function.update d.shelf file none
      | .failed (.other _) => shelfOf files = d.shelf
      | .cut => shelfOf files = d.shelf ∨ shelfOf files = Function.update d.shelf file none)
    (fun _ files hrun => ?_) (fun e he => ?_) (fun _ _ => rfl) (Or.inl rfl)
    fun _ => Or.inr (shelfOf_erase file d.files)
  · split_ifs at hrun
    obtain ⟨-, rfl⟩ := Prod.mk.inj (Except.ok.inj hrun)
    exact shelfOf_erase file d.files
  · cases e with
    | other text => rfl
    | notFound =>
        rcases he with hrun | ⟨text, htext⟩
        · split_ifs at hrun with hthere
          have hnone : d.shelf file = none := Option.not_isSome_iff_eq_none.mp hthere
          exact (Function.update_eq_self_iff.mpr hnone.symm).symm
        · exact absurd htext (by simp)

/-- A removal takes the file off, or nothing shows. -/
theorem removeWorkspace_atomic (treeId : Bytes32) :
    Atomically Disk.shelf (Shelf.remove (.snapshot treeId))
      (store.removeWorkspace treeId) := by
  intro d
  unfold Store.removeWorkspace
  rw [wp_bind, wp_recover]
  refine (removeFile_spec (.snapshot treeId) d).mono (fun _ _ => id) fun halt d' h => ?_
  cases halt with
  | cut => exact h
  | failed e =>
      cases e with
      | notFound => exact h
      | other text => exact h

/-! ## Nobody else's files -/

/-- Whatever becomes of it, replacing a file leaves nothing behind that is taken for a
snapshot. -/
theorem writePrivate_tidy (file : StoreFile) (bytes : Bytes) :
    Maintains (fun d : Disk => Tidy d.files) (store.writePrivate file.path bytes) := by
  have htmp := file.proper_tmp
  refine Maintains.bind (maintains_storageError ?_ _) fun _ =>
    Maintains.bind (maintains_storageError ?_ _) fun _ => maintains_storageError ?_ _
  · refine maintains_sysCall (fun files _ files' hrun h => ?_) (fun _ _ h => h.insert htmp _)
      fun _ _ h => h.insert htmp _
    obtain ⟨-, rfl⟩ := Prod.mk.inj (Except.ok.inj hrun)
    exact h.insert htmp _
  · refine maintains_sysCall (fun files _ files' hrun h => ?_) (fun _ _ => id)
      fun _ _ h => h.secured htmp
    split_ifs at hrun
    obtain ⟨-, rfl⟩ := Prod.mk.inj (Except.ok.inj hrun)
    exact h.secured htmp
  · refine maintains_sysCall (fun files _ files' hrun h => ?_) (fun _ _ => id)
      fun _ _ h => h.moved file.proper_path
    split_ifs at hrun
    obtain ⟨-, rfl⟩ := Prod.mk.inj (Except.ok.inj hrun)
    exact h.moved file.proper_path

theorem removeWorkspace_tidy (treeId : Bytes32) :
    Maintains (fun d : Disk => Tidy d.files) (store.removeWorkspace treeId) := by
  have hremove : Maintains (fun d : Disk => Tidy d.files)
      (Fs.removeFile (Store.workspacePath treeId)) := by
    refine maintains_sysCall (fun files _ files' hrun h => ?_) (fun _ _ => id)
      fun _ _ h => h.erase _
    split_ifs at hrun
    obtain ⟨-, rfl⟩ := Prod.mk.inj (Except.ok.inj hrun)
    exact h.erase _
  intro d hd
  unfold Store.removeWorkspace
  rw [wp_bind, wp_recover]
  refine (hremove d hd).mono (fun _ _ => id) fun halt d' h => ?_
  cases halt with
  | cut => exact h
  | failed e =>
      cases e with
      | notFound => exact h
      | other text => exact h

/-- Listing finds the trees of the snapshots on the shelf, each once. -/
theorem mem_listed {files : Files} (h : Tidy files) (treeId : Bytes32) :
    treeId ∈ (files.keys.filter fun path => path.dir = some Store.workspacesDir).filterMap
      Store.treeOf ↔ (shelfOf files (.snapshot treeId)).isSome := by
  have hshelf : (shelfOf files (.snapshot treeId)).isSome ↔ Store.workspacePath treeId ∈ files :=
    AList.lookup_isSome
  rw [hshelf, List.mem_filterMap]
  constructor
  · rintro ⟨path, hpath, htree⟩
    obtain ⟨hmem, hdir⟩ := List.mem_filter.mp hpath
    rw [← h path hmem (of_decide_eq_true hdir) treeId htree]
    exact hmem
  · intro hmem
    exact ⟨_, List.mem_filter.mpr ⟨hmem, decide_eq_true rfl⟩, treeOf_workspacePath treeId⟩

theorem nodup_listed {files : Files} (h : Tidy files) :
    ((files.keys.filter fun path => path.dir = some Store.workspacesDir).filterMap
      Store.treeOf).Nodup := by
  have hpath : ∀ path ∈ files.keys.filter fun path => path.dir = some Store.workspacesDir,
      ∀ treeId, Store.treeOf path = some treeId → path = Store.workspacePath treeId := by
    intro path hmem treeId htree
    obtain ⟨hmem, hdir⟩ := List.mem_filter.mp hmem
    exact h path hmem (of_decide_eq_true hdir) treeId htree
  refine List.pairwise_filterMap.mpr ((files.keys_nodup.filter _).imp_of_mem ?_)
  intro path path' hmem hmem' hne treeId htree treeId' htree' heq
  subst heq
  exact hne ((hpath path hmem treeId htree).trans (hpath path' hmem' treeId htree').symm)

/-! ## Writes that do not fail -/

/-- No call to come fails; the process may be gone. -/
def NoneFails (outcomes : List Outcome) : Prop :=
  ∀ text reach, Outcome.fails text reach ∉ outcomes

theorem NoneFails.tail {outcomes : List Outcome} (h : NoneFails outcomes) :
    NoneFails outcomes.tail := fun text reach hmem => h text reach (List.mem_of_mem_tail hmem)

/-- Then a call is done, meets an error of its own, or is cut off. -/
theorem sysCall_honest {α : Type} {done : Files → Except IoError (α × Files)}
    {fails gone : Nat → Files → Files} {d : Disk} (h : NoneFails d.outcomes) :
    Wp (sysCall done fails gone) (fun _ d' => NoneFails d'.outcomes)
      (fun halt d' => halt = .cut ∨
        NoneFails d'.outcomes ∧ ∃ e, done d.files = .error e ∧ halt = .failed e) d := by
  have htail := h.tail
  obtain ⟨files, outcomes⟩ := d
  unfold Wp sysCall
  cases outcomes with
  | nil =>
      cases hrun : done files with
      | ok r => simpa [hrun] using htail
      | error e => simpa [hrun] using htail
  | cons outcome rest =>
      cases outcome with
      | done =>
          cases hrun : done files with
          | ok r => simpa [hrun] using htail
          | error e => simpa [hrun] using htail
      | fails text reach => exact absurd List.mem_cons_self (h text reach)
      | cut reach => exact Or.inl rfl

/-- One that meets no error of its own is done or cut off. -/
theorem sysCall_noneFails {α : Type} {done : Files → Except IoError (α × Files)}
    {fails gone : Nat → Files → Files} {d : Disk} (hdone : ∀ e, done d.files ≠ .error e)
    (h : NoneFails d.outcomes) :
    Wp (sysCall done fails gone) (fun _ d' => NoneFails d'.outcomes) (fun halt _ => halt = .cut)
      d :=
  (sysCall_honest h).mono (fun _ _ => id) fun _ _ hend =>
    hend.resolve_right fun ⟨_, e, herror, _⟩ => hdone e herror

theorem writePrivate_noneFails (file : StoreFile) (bytes : Bytes) {d : Disk}
    (h : NoneFails d.outcomes) :
    Wp (store.writePrivate file.path bytes) (fun _ d' => NoneFails d'.outcomes)
      (fun halt _ => halt = .cut) d := by
  unfold Store.writePrivate
  dsimp only
  rw [wp_bind, wp_storageError]
  refine ((write_spec file bytes d).and (sysCall_noneFails (fun e => by simp) h)).mono
    (fun _ d₁ hwritten => ?_) fun halt d₁ hcut => by rw [hcut.2]
  obtain ⟨⟨-, found, hfound, hbytes⟩, h₁⟩ := hwritten
  rw [wp_bind, wp_storageError]
  refine ((secure_spec file hfound hbytes).and (sysCall_noneFails (fun e => ?_) h₁)).mono
    (fun _ d₂ hsecured => ?_) fun halt d₂ hcut => by rw [hcut.2]
  · rw [hfound]
    simp
  · obtain ⟨⟨-, hprivate⟩, h₂⟩ := hsecured
    rw [wp_storageError]
    refine (sysCall_noneFails (fun e => ?_) h₂).mono (fun _ _ => id)
      fun halt d₃ hcut => by rw [hcut]
    rw [hprivate]
    simp

theorem readIfThere_noneFails (path : Path) {d : Disk} (h : NoneFails d.outcomes) :
    Wp (store.readIfThere path) (fun _ d' => NoneFails d'.outcomes) (fun halt _ => halt = .cut)
      d := by
  unfold Store.readIfThere
  rw [wp_bind, wp_recover]
  refine (sysCall_honest h).mono (fun _ _ => id) fun halt d' hend => ?_
  rcases hend with rfl | ⟨hnone, e, herror, rfl⟩
  · rfl
  · have hmissing : e = .notFound := by
      cases hfile : d.files.lookup path with
      | none =>
          rw [hfile] at herror
          exact (Except.error.inj herror).symm
      | some found =>
          rw [hfile] at herror
          exact absurd herror (by simp)
    subst hmissing
    exact hnone

section Pairs

variable [StoreCodec]

/-- Sets of pairs can be encoded. -/
def Encodes : Prop := ∀ pairs, ∃ bytes, StoreCodec.encodePairs pairs = .ok bytes

theorem storePairs_noneFails (what : String) (file : StoreFile) (order : PairOrder)
    (pairs : Finset TreePair) (hencodes : Encodes) {d : Disk} (h : NoneFails d.outcomes) :
    Wp (store.storePairs what file.path order pairs) (fun _ d' => NoneFails d'.outcomes)
      (fun halt _ => halt = .cut) d := by
  unfold Store.storePairs
  obtain ⟨bytes, hbytes⟩ := hencodes (order.iter pairs)
  rw [wp_bind, wp_verdict, hbytes]
  exact writePrivate_noneFails store file bytes h

theorem loadPairs_noneFails (path : Path) {d : Disk} (h : NoneFails d.outcomes) :
    Wp (store.loadPairs path) (fun _ d' => NoneFails d'.outcomes) (fun halt _ => halt = .cut)
      d := by
  unfold Store.loadPairs
  exact (readIfThere_noneFails store path h).seq (fun _ _ => id) fun _ _ => id

end Pairs

end IrohBeekem
