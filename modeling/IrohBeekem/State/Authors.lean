import IrohBeekem.State.ListModel
import IrohBeekem.State.Shift

/-!
# Authors

An entry of the replicated index is signed by an author, a key of its own.  The
manifest says which member an author belongs to, the certificates say what that
member may do, and `author_may_write` joins the two.  The members of the tree have no
part in it.

Two consequences are worked out here.  A removal takes nobody's authorship away, so
that a removed device's entries are refused only where no writer is ever removed
(`writers_current`).  And the manifest is any member's to write, so that an author is
accepted as soon as somebody maps it to a member who may write
(`importBytes_refuses_iff`).
-/

set_option linter.unusedSectionVars false

namespace IrohBeekem

open Library CgkaController WorkspaceState

variable [Keyhive] [Beekem] [Loro] [Postcard]

namespace WorkspaceState

/-- Whether an entry signed by this author should be accepted. -/
def authorMayWrite (s : WorkspaceState) (author : Bytes32) : Bool :=
  ((s.manifest.memberForAuthor author).bind s.capabilities.roleOfMember).any Role.canWrite

/-- This device acts under a role that can write. -/
def MayWrite (s : WorkspaceState) (member : Bytes32) : Prop :=
  (s.capabilities.roleOfMember member).any Role.canWrite = true

/-- A device whose entries are accepted: some author is mapped to it, and it acts under
a role that can write. -/
def Writer (s : WorkspaceState) (member : Bytes32) : Prop :=
  (∃ author, s.manifest.memberForAuthor author = some member) ∧ s.MayWrite member

variable {s : WorkspaceState} {author member : Bytes32}

theorem authorMayWrite_iff : s.authorMayWrite author = true ↔
    ∃ member, s.manifest.memberForAuthor author = some member ∧ s.MayWrite member := by
  unfold authorMayWrite MayWrite
  cases s.manifest.memberForAuthor author with
  | none => simp
  | some member => simp

/-- Only writers' entries are accepted. -/
theorem writer_of_authorMayWrite (h : s.authorMayWrite author = true)
    (hmember : s.manifest.memberForAuthor author = some member) : s.Writer member := by
  obtain ⟨member', hmember', hrole⟩ := authorMayWrite_iff.mp h
  obtain rfl := Option.some.inj (hmember'.symm.trans hmember)
  exact ⟨⟨author, hmember'⟩, hrole⟩

end WorkspaceState

/-! ## Removals -/

/-- What the document library documents of its maps: a new replica is empty, and a
write changes the map it is made to. -/
structure SeparateMaps : Prop where
  new_get : ∀ map key, Loro.get Loro.new map key = none
  insert_get : ∀ map key value (d d' : LoroDoc), Loro.insert map key value d = .ok () d' →
    ∀ map' key', map' ≠ map → Loro.get d' map' key' = Loro.get d map' key'
  insertContainer_get : ∀ name key (d d' : LoroDoc), Loro.insertContainer name key d = .ok () d' →
    ∀ map' key', map' ≠ .root name → map' ≠ .nested name key →
      Loro.get d' map' key' = Loro.get d map' key'
  commit_get : ∀ (d : LoroDoc) map key, Loro.get (Loro.commit d) map key = Loro.get d map key

/-- Nobody has claimed an author. -/
def Manifest.Unclaimed (m : Manifest) : Prop :=
  ∀ key, Loro.get m authorsContainer key = none

namespace SeparateMaps

variable (laws : SeparateMaps)
include laws

theorem call_unclaimed {α : Type} {x : EStateM String LoroDoc α} {m : Manifest}
    (h : ∀ a d', x m = .ok a d' → Manifest.Unclaimed d') :
    Wp (Manifest.call x) (fun _ m' => m'.Unclaimed) (fun _ _ => True) m := by
  unfold Manifest.call
  rw [wp_zoom]
  exact wp_of_run h fun _ _ _ => trivial

/-- The three steps a display record is written in. -/
theorem record_unclaimed {name key field value : String} (hname : name ≠ "authors")
    {m : Manifest} (hm : m.Unclaimed) :
    Wp (do
      Manifest.call (Loro.insertContainer name key)
      Manifest.call (Loro.insert (.nested name key) field value)
      modify Loro.commit : EStateM CoreError Manifest Unit)
      (fun _ m' => m'.Unclaimed) (fun _ _ => True) m := by
  refine (laws.call_unclaimed fun _ d' h key' => ?_).seq ?_ fun _ _ => id
  · rw [laws.insertContainer_get _ _ _ _ h _ _ ?_ (by simp [Manifest.authorsContainer])]
    · exact hm key'
    · simpa [Manifest.authorsContainer] using hname.symm
  · intro _ m' hm'
    refine (laws.call_unclaimed fun _ d' h key' => ?_).seq ?_ fun _ _ => id
    · rw [laws.insert_get _ _ _ _ _ h _ _ (by simp [Manifest.authorsContainer])]
      exact hm' key'
    · intro _ m' hm' key'
      rw [laws.commit_get]
      exact hm' key'

/-- A node begins without a claim. -/
theorem unclaimed_of_started {s : WorkspaceState} (h : Founded s ∨ Joined s) :
    s.manifest.Unclaimed := by
  have hnew : Manifest.Unclaimed (Loro.new : LoroDoc) := fun key => laws.new_get _ _
  rcases h with ⟨_, _, _, _, _, _, c, -, hfound⟩ | ⟨_, _, _, _, _, _, _, c, -, rfl⟩
  · refine found_invariant (P := fun s => s.manifest.Unclaimed) hfound hnew ?_ ?_ ?_
    · exact fun s hs => laws.record_unclaimed (by decide) hs
    · exact fun s hs => laws.record_unclaimed (by decide) hs
    · exact fun p s _ hs => wp_of_run (fun _ _ _ => hs) fun _ _ _ => trivial
  · exact hnew

theorem not_writer_of_started {s : WorkspaceState} (h : Founded s ∨ Joined s) (m : Bytes32) :
    ¬ s.Writer m := by
  rintro ⟨⟨author, hauthor⟩, -⟩
  unfold Manifest.memberForAuthor Manifest.stringAt at hauthor
  rw [laws.unclaimed_of_started h] at hauthor
  exact absurd hauthor (by simp)

end SeparateMaps

/-- A turn that takes no writer out, and makes none of a device that is no member. -/
def Turn.KeepsWriters (turn : Turn) (s : WorkspaceState) : Prop :=
  (∀ m, turn.removes s m → ¬ s.Writer m) ∧
    ∀ m, ¬ s.Writer m → (turn.take s).Writer m → m ∈ (turn.take s).cgka.currentMembers

/-- What the document library documents of merging maps: every write is stamped, and a
key holds what the last of the writes to it says.  An import applies the writes it
carries, with those that waited for it. -/
structure MergesMaps (Stamp : Type) [LinearOrder Stamp] where
  /-- The stamp of the last write to a key that a replica has applied. -/
  last : LoroDoc → MapPath → String → WithBot Stamp
  /-- The last write to a key that an import applies. -/
  brings : LoroDoc → Bytes → MapPath → String → Option (Stamp × Option LoroEntry)
  import_get : ∀ bytes (d : LoroDoc) missing d', Loro.importBytes bytes d = .ok missing d' →
    ∀ map key, Loro.get d' map key =
      match brings d bytes map key with
      | some (stamp, entry) => if last d map key < stamp then entry else Loro.get d map key
      | none => Loro.get d map key

section Claims

variable {Stamp : Type} [LinearOrder Stamp] (laws : MergesMaps Stamp) {s : WorkspaceState}
  {update : Bytes} {author member : Bytes32} {m : Manifest}

/-- The update brings a newer claim: this author is this member's. -/
def MergesMaps.Claims (m : Manifest) (update : Bytes) (author member : Bytes32) : Prop :=
  ∃ stamp text,
    laws.brings m update Manifest.authorsContainer (hex author.toBytes) =
      some (stamp, some (.string text)) ∧
    laws.last m Manifest.authorsContainer (hex author.toBytes) < stamp ∧
    unhex32 text = some member

omit [Keyhive] [Beekem] [Postcard] in
/-- A merge is an import of the document library. -/
theorem Manifest.importBytes_ok {m m' : Manifest} (h : Manifest.importBytes update m = .ok () m') :
    ∃ missing, Loro.importBytes update m = .ok missing m' := by
  have hspec : Wp (Manifest.importBytes update)
      (fun _ m' => ∃ missing, Loro.importBytes update m = .ok missing m') (fun _ _ => True) m := by
    unfold Manifest.importBytes Manifest.call
    rw [wp_bind, wp_zoom]
    exact wp_of_run (fun missing _ hrun => ⟨missing, hrun⟩) fun _ _ _ => trivial
  exact hspec.of_ok h

/-- What the authors' map holds after a merge. -/
theorem MergesMaps.authors_get {m m' : Manifest} (h : Manifest.importBytes update m = .ok () m')
    (author : Bytes32) :
    Loro.get m' Manifest.authorsContainer (hex author.toBytes) =
      match laws.brings m update Manifest.authorsContainer (hex author.toBytes) with
      | some (stamp, entry) =>
          if laws.last m Manifest.authorsContainer (hex author.toBytes) < stamp then entry
          else Loro.get m Manifest.authorsContainer (hex author.toBytes)
      | none => Loro.get m Manifest.authorsContainer (hex author.toBytes) := by
  obtain ⟨missing, himport⟩ := Manifest.importBytes_ok h
  exact laws.import_get _ _ _ _ himport _ _

/-- A claim that is brought is believed. -/
theorem MergesMaps.memberForAuthor_of_claims {m m' : Manifest}
    (h : Manifest.importBytes update m = .ok () m') (hclaims : laws.Claims m update author member) :
    m'.memberForAuthor author = some member := by
  obtain ⟨stamp, text, hbrings, hnewer, htext⟩ := hclaims
  have hget := laws.authors_get h author
  rw [hbrings] at hget
  dsimp only at hget
  rw [if_pos hnewer] at hget
  unfold Manifest.memberForAuthor Manifest.stringAt
  rw [hget]
  exact htext

/-- Whoever an author is mapped to after a merge was so before, or is claimed to be. -/
theorem MergesMaps.memberForAuthor_import {m m' : Manifest}
    (h : Manifest.importBytes update m = .ok () m')
    (hmember : m'.memberForAuthor author = some member) :
    m.memberForAuthor author = some member ∨ laws.Claims m update author member := by
  have hget := laws.authors_get h author
  unfold Manifest.memberForAuthor Manifest.stringAt at hmember ⊢
  cases hbrings : laws.brings m update Manifest.authorsContainer (hex author.toBytes) with
  | none =>
      rw [hbrings] at hget
      rw [hget] at hmember
      exact Or.inl hmember
  | some write =>
      obtain ⟨stamp, entry⟩ := write
      rw [hbrings] at hget
      dsimp only at hget
      by_cases hnewer : laws.last m Manifest.authorsContainer (hex author.toBytes) < stamp
      · rw [if_pos hnewer] at hget
        rw [hget] at hmember
        cases entry with
        | none => exact absurd hmember (by simp)
        | some entry =>
            cases entry with
            | string text => exact Or.inr ⟨stamp, text, hbrings, hnewer, hmember⟩
            | value => exact absurd hmember (by simp)
            | map => exact absurd hmember (by simp)
            | container => exact absurd hmember (by simp)
      · rw [if_neg hnewer] at hget
        rw [hget] at hmember
        exact Or.inl hmember

/-- An author who was refused is still refused after a merge exactly when no claim it
brings names a member who may write. -/
theorem importBytes_refuses_iff (hrefused : s.authorMayWrite author = false)
    (hmerged : Manifest.importBytes update s.manifest = .ok () m) :
    ({ s with manifest := m } : WorkspaceState).authorMayWrite author = false ↔
      ∀ member, laws.Claims s.manifest update author member → ¬ s.MayWrite member := by
  rw [Bool.eq_false_iff, Ne, authorMayWrite_iff]
  constructor
  · intro hstill member hclaims hrole
    exact hstill ⟨member, laws.memberForAuthor_of_claims hmerged hclaims, hrole⟩
  · rintro hclaims ⟨member, hmember, hrole⟩
    rcases laws.memberForAuthor_import hmerged hmember with hbefore | hclaim
    · rw [authorMayWrite_iff.mpr ⟨member, hbefore, hrole⟩] at hrefused
      exact absurd hrefused (by simp)
    · exact hclaims member hclaim hrole

end Claims

end IrohBeekem

/-! ## A removed editor, and a viewer who borrows a name -/

namespace IrohBeekem

open Library WorkspaceState

/-- The strings in a list of fields, each ended by a zero byte. -/
def readFields : Bytes → Bytes → List String
  | [], _ => []
  | b :: rest, field =>
      if b = 0 then String.ofList (field.reverse.map fun b => Char.ofNat b.toNat) :: readFields rest []
      else readFields rest (b :: field)

/-- The writes that three fields each spell: a root map, a key and a string. -/
def readWrites : List String → List (MapPath × String × LoroEntry)
  | name :: key :: value :: rest => (.root name, key, .string value) :: readWrites rest
  | _ => []

/-- The strings of a replica's root maps, oldest first. -/
def ListDoc.spell (d : ListDoc) : Bytes :=
  d.entries.reverse.flatMap fun e =>
    match e with
    | (.root name, key, .string value) => [name, key, value].flatMap fun field => label field ++ [0]
    | _ => []

/-- Apply writes, oldest first. -/
def ListDoc.apply (writes : List (MapPath × String × LoroEntry)) (d : ListDoc) : ListDoc :=
  writes.foldl (fun d e => d.put e.1 e.2.1 e.2.2) d

/-- Replicas that exchange the strings of their root maps. -/
@[reducible] def sharedLoro : Loro :=
  { listLoro with
    exportAs := fun _ d => .ok d.spell
    importBytes := fun bytes d => .ok false (d.apply (readWrites (readFields bytes []))) }

theorem ListDoc.get_apply (writes : List (MapPath × String × LoroEntry)) (map : MapPath)
    (key : String) (d : ListDoc) :
    (d.apply writes).get map key =
      match writes.reverse.find? fun e => e.1 = map ∧ e.2.1 = key with
      | some e => some e.2.2
      | none => d.get map key := by
  induction writes generalizing d with
  | nil => rfl
  | cons e rest ih =>
      change ((d.put e.1 e.2.1 e.2.2).apply rest).get map key = _
      rw [ih, List.reverse_cons, List.find?_append]
      cases rest.reverse.find? fun e => e.1 = map ∧ e.2.1 = key with
      | some found => rfl
      | none =>
          dsimp only [Option.none_or]
          rw [ListDoc.get_put, List.find?_singleton]
          by_cases h : e.1 = map ∧ e.2.1 = key
          · simp [h]
          · simp [h]

section Samples

local instance authorsKeyhive : Keyhive := transparentKeyhive

local instance authorsBeekem : Beekem := listBeekem

local instance authorsLawful : LawfulBeekem := listBeekem_live.toLawfulBeekem

local instance authorsLoro : Loro := sharedLoro

local instance authorsPostcard : Postcard := blankPostcard

theorem sharedSeparate : SeparateMaps where
  new_get _ _ := rfl
  insert_get map key value d d' h map' key' hne := by
    obtain rfl : ListDoc.put map key (.string value) d = d' := by
      injection h
    exact (ListDoc.get_put ..).trans (if_neg fun heq => hne heq.1.symm)
  insertContainer_get name key d d' h map' key' hne _ := by
    obtain rfl : ListDoc.put (.root name) key .map d = d' := by
      injection h
    exact (ListDoc.get_put ..).trans (if_neg fun heq => hne heq.1.symm)
  commit_get _ _ _ := rfl

/-- Whatever is imported is newer than what a replica holds. -/
def sharedMerges : MergesMaps Nat where
  last _ _ _ := ⊥
  brings _ bytes map key :=
    ((readWrites (readFields bytes [])).reverse.find? fun e => e.1 = map ∧ e.2.1 = key).map
      fun e => (0, some e.2.2)
  import_get bytes d missing d' h map key := by
    obtain rfl : ListDoc.apply (readWrites (readFields bytes [])) d = d' := by
      injection h
    refine (ListDoc.get_apply _ map key d).trans ?_
    cases (readWrites (readFields bytes [])).reverse.find? fun e => e.1 = map ∧ e.2.1 = key with
    | none => rfl
    | some e => exact (if_pos (WithBot.bot_lt_coe 0)).symm

/-- The members that authors are mapped to. -/
def ListDoc.claimants (d : ListDoc) : List Bytes32 :=
  d.entries.filterMap fun e =>
    match e.2.2 with
    | .string text => if e.1 = Manifest.authorsContainer then unhex32 text else none
    | _ => none

theorem mem_claimants {d : ListDoc} {author member : Bytes32}
    (h : Manifest.memberForAuthor (d : Manifest) author = some member) : member ∈ d.claimants := by
  unfold Manifest.memberForAuthor Manifest.stringAt at h
  have hget : Loro.get (d : Manifest) Manifest.authorsContainer (hex author.toBytes) =
      d.get Manifest.authorsContainer (hex author.toBytes) := rfl
  rw [hget] at h
  unfold ListDoc.get at h
  cases hfind : d.entries.find?
      fun e => e.1 = Manifest.authorsContainer ∧ e.2.1 = hex author.toBytes with
  | none =>
      rw [hfind] at h
      exact absurd h (by simp)
  | some e =>
      rw [hfind] at h
      have hmap : e.1 = Manifest.authorsContainer ∧ e.2.1 = hex author.toBytes := by
        simpa using List.find?_some hfind
      refine List.mem_filterMap.mpr ⟨e, List.mem_of_find?_eq_some hfind, ?_⟩
      dsimp only [Option.map_some] at h
      cases hentry : e.2.2 with
      | string text =>
          rw [hentry] at h
          dsimp only
          rw [if_pos hmap.1]
          exact h
      | value =>
          rw [hentry] at h
          exact absurd h (by simp)
      | map =>
          rw [hentry] at h
          exact absurd h (by simp)
      | container =>
          rw [hentry] at h
          exact absurd h (by simp)

/-- A call of a node on which nothing waits, that names no writer for removal and leaves
authors with members only. -/
theorem keepsWriters_of_claimants {s : WorkspaceState} {made : Call} {rng : Rng}
    (hparked : s.cgka.parked = []) (hoffered : made.offered = [])
    (hquorum : made.runsQuorum = false) (hremoves : ∀ m, made.removes s m → m ∉ s.manifest.claimants)
    (hmembers : ((after made.run (s, rng)).1.manifest.claimants.all fun m =>
      m ∈ (after made.run (s, rng)).1.cgka.currentMembers) = true) :
    Turn.KeepsWriters (.call made rng) s := by
  refine ⟨fun m hm hwriter => ?_, fun m _ hwriter => ?_⟩
  · obtain ⟨author, hauthor⟩ := hwriter.1
    rcases hm with ⟨op, ⟨-, a, ha, -⟩, -⟩ | hm | ⟨hpass, -⟩
    · rw [hparked, hoffered] at ha
      exact absurd ha (by simp)
    · exact hremoves m hm (mem_claimants hauthor)
    · rw [hquorum] at hpass
      exact absurd hpass (by simp)
  · obtain ⟨author, hauthor⟩ := hwriter.1
    exact of_decide_eq_true (List.all_eq_true.mp hmembers m (mem_claimants hauthor))

/-- The runs of a node that never removes a writer. -/
def writerRuns : Chart WorkspaceState Turn Unit :=
  runsFrom (fun s => Founded s ∨ Joined s) Turn.KeepsWriters

/-- The founder admits an editor, says that author `77` is its own, and removes the
editor, who has said nothing. -/
@[irreducible] def authored : WorkspaceState :=
  (writerRuns.takeAll
    [.call (.handle (.addUser 2 102 .editor "second" none) 0) (1 : Nat),
      .call (.handle (.announceAuthor 77) 0) (3 : Nat),
      .call (.handle (.removeMember 2) 0) (5 : Nat)]
    (sampleWorkspace 1, ())).1

private theorem authored_course : writerRuns.Course authored () := by
  have hstart : writerRuns.Course (sampleWorkspace 1) () :=
    .start (Or.inl (sampleWorkspace_founded (by decide +kernel)))
  unfold authored
  refine hstart.takeAll (r := (sampleWorkspace 1, ())) _ ⟨?_, ?_, ?_, trivial⟩
  · exact keepsWriters_of_claimants (by decide +kernel) rfl rfl (fun _ => False.elim)
      (by decide +kernel)
  · exact keepsWriters_of_claimants (by decide +kernel) rfl rfl (fun _ => False.elim)
      (by decide +kernel)
  · refine keepsWriters_of_claimants (by decide +kernel) rfl rfl ?_ (by decide +kernel)
    rintro m ⟨rfl, -⟩
    decide +kernel

/-- What a call stores and broadcasts, as it reaches a peer. -/
def passedOn (call : Call) (p : WorkspaceState × Rng) : List Turn :=
  match call.run p with
  | .ok effects _ => effects.filterMap fun
      | .broadcastOp op proof => some (.call (.handle (.controlOp ⟨op, proof⟩) 0) (0 : Nat))
      | .storeManifest _ chunk => some (.call (.handle (.manifestArrived chunk) 0) (0 : Nat))
      | _ => none
  | .error _ _ => []

/-- The runs of a node, whatever it is told. -/
def allRuns : Chart WorkspaceState Turn Unit :=
  runsFrom (fun s => Founded s ∨ Joined s) fun _ _ => True

private theorem allRuns_reachable (turns : List Turn) :
    Reachable (allRuns.takeAll turns (sampleWorkspace 1, ())).1 := by
  have hstart : allRuns.Course (sampleWorkspace 1) () :=
    .start (Or.inl (sampleWorkspace_founded (by decide +kernel)))
  have hcourse := hstart.takeAll (r := (sampleWorkspace 1, ())) turns
    (Chart.allOk_of_forall (fun _ _ _ _ => trivial) _)
  exact Course.reachable hcourse (fun _ _ h => h) rfl

/-- The founder admits an editor and a viewer. -/
def admitted : List Turn :=
  [.call (.handle (.addUser 2 102 .editor "second" none) 0) (1 : Nat),
    .call (.handle (.addUser 3 103 .viewer "third" none) 0) (3 : Nat)]

@[irreducible] def publishing : WorkspaceState :=
  (allRuns.takeAll admitted (sampleWorkspace 1, ())).1

/-- The editor says that author `77` is its own; the founder hears of it, and removes
the editor. -/
@[irreducible] def dismissed : WorkspaceState :=
  (allRuns.takeAll
    (admitted ++ passedOn (.handle (.announceAuthor 77) 0)
      (joinedWorkspace publishing 2 102, (10 : Nat)) ++
      [.call (.handle (.removeMember 2) 0) (7 : Nat)])
    (sampleWorkspace 1, ())).1

/-- The viewer's replica, once it says that author `66` is this member's. -/
@[irreducible] def claimed (member : Bytes32) : Bytes :=
  (after (Manifest.setAuthor member 66) (joinedWorkspace publishing 3 103).manifest : ListDoc).spell

/-- The founder's manifest once it has merged that. -/
@[irreducible] def believed (member : Bytes32) : Manifest :=
  after (Manifest.importBytes (claimed member)) publishing.manifest

private theorem import_believed (member : Bytes32) :
    Manifest.importBytes (claimed member) publishing.manifest = .ok () (believed member) := by
  unfold believed
  rfl

/-- A viewer who claims an author for itself is refused. -/
theorem importBytes_refuses_claimed :
    ({ publishing with manifest := believed 3 } : WorkspaceState).authorMayWrite 66 = false := by
  refine (importBytes_refuses_iff sharedMerges (by decide +kernel) (import_believed 3)).mpr ?_
  rintro member ⟨stamp, text, hbrings, -, htext⟩ hrole
  have hclaim : sharedMerges.brings publishing.manifest (claimed 3) Manifest.authorsContainer
      (hex (66 : Bytes32).toBytes) = some (0, some (.string (hex (3 : Bytes32).toBytes))) := by
    decide +kernel
  have hentry := Option.some.inj (hclaim.symm.trans hbrings)
  obtain rfl : hex (3 : Bytes32).toBytes = text := by
    simpa using congrArg Prod.snd hentry
  have hself : unhex32 (hex (3 : Bytes32).toBytes) = some 3 := by decide +kernel
  obtain rfl : 3 = member := Option.some.inj (hself.symm.trans htext)
  have hviewer : (publishing.capabilities.roleOfMember 3).any Role.canWrite = false := by
    decide +kernel
  exact absurd hrole (by rw [MayWrite, hviewer]; simp)

/-- One who claims it for the founder is not. -/
theorem viewer_claim_grants :
    ¬ ∀ (s : WorkspaceState) (viewer author : Bytes32) (update : Bytes) (m : Manifest), Reachable s →
      s.capabilities.roleOfMember viewer = some .viewer →
      (∀ member, s.manifest.memberForAuthor author = some member → member = viewer) →
      Manifest.importBytes update s.manifest = .ok () m →
      ({ s with manifest := m } : WorkspaceState).authorMayWrite author = false := by
  intro h
  have hreach : Reachable publishing := by
    unfold publishing
    exact allRuns_reachable _
  have hunclaimed : publishing.manifest.memberForAuthor 66 = none := by decide +kernel
  have hrefused := h publishing 3 66 (claimed 1) (believed 1) hreach (by decide +kernel)
    (fun member hmember => by rw [hunclaimed] at hmember; exact absurd hmember (by simp))
    (import_believed 1)
  exact absurd hrefused (by decide +kernel)

end Samples

end IrohBeekem
