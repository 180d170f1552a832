import IrohBeekem.Docs.History
import IrohBeekem.State.Cadence
import IrohBeekem.State.ClockModel
import IrohBeekem.State.Generations

/-!
# What was published can be had

The version on record for a document says what this node has published of it.  It is
honest when a replica that starts from nothing and merges the chunks this node emitted
into the namespace at hand, from the last full one on, holds all of that version.

Every call keeps this up but one: `restore_checkpoint` publishes entry by entry, and when
it fails at a later entry it returns none of the chunks of the earlier ones, which are on
record all the same.  Runs without such a failure are honest (`published_up_to_honest`).
-/

set_option linter.unusedSectionVars false

namespace IrohBeekem

open Library WorkspaceState

variable [Keyhive] [Beekem] [Loro] [Postcard]

/-! ## The chunks of a document -/

/-- The replica that merges these chunks one after the other. -/
def importAll (d : LoroDoc) (chunks : List Bytes) : LoroDoc :=
  chunks.foldl (fun d bytes => after (Loro.importBytes bytes) d) d

theorem importAll_append (d : LoroDoc) (chunks : List Bytes) (bytes : Bytes) :
    importAll d (chunks ++ [bytes]) = after (Loro.importBytes bytes) (importAll d chunks) := by
  simp [importAll]

/-- The chunks from the last full one on, after one more. -/
def Publication.onto (chunks : List Bytes) (item : Publication) : List Bytes :=
  match item.extent with
  | .full => [item.content]
  | .delta => chunks ++ [item.content]

/-- The chunks of a document that a call emits, in order. -/
def Call.emitted (doc : DocumentUuid) (call : Call) (p : WorkspaceState × Rng) :
    List Publication :=
  (call.publications p).filter fun item => item.doc = doc

/-- The chunks of a document in the namespace at hand, from the last full one on, after a
turn.  A call that fails emits none, and after a change of namespace there are none. -/
def Turn.chunks (doc : DocumentUuid) : Turn → WorkspaceState → List Bytes → List Bytes
  | .call made rng, s, chunks =>
      match made.run (s, rng) with
      | .ok effects _ =>
          if adopts effects then [] else (made.emitted doc (s, rng)).foldl Publication.onto chunks
      | .error _ _ => chunks
  | .restart _ _, _, chunks => chunks

/-- No checkpoint is restored in part: a restore that fails has published nothing. -/
def uninterrupted : Turn → WorkspaceState → Prop
  | .call (.restoreCheckpoint digest now) rng, s =>
      succeeds (Call.run (.restoreCheckpoint digest now)) (s, rng) = true ∨
        Call.publications (s, rng) (.restoreCheckpoint digest now) = []
  | _, _ => True

/-- The runs of a node whose turns meet a condition, with the chunks of a document. -/
def chunkRuns (doc : DocumentUuid) (ok : Turn → WorkspaceState → Prop) :
    Chart WorkspaceState Turn (List Bytes) where
  init s chunks := (Founded s ∨ Joined s) ∧ chunks = []
  step := Turn.take
  note := Turn.chunks doc
  ok turn s _ := ok turn s

/-- What is on record of a document can be had from its chunks, and a resync that emits
nothing has nothing to add to them. -/
structure HonestBooks {Op : Type} (h : History Op) (doc : DocumentUuid) (s : WorkspaceState)
    (chunks : List Bytes) : Prop where
  recorded : ∀ v, s.publishedUpTo.get? doc = some v →
    h.covered v ⊆ h.ops (importAll newDoc chunks)
  resync : ∀ (now : UnixSeconds) (rng : Rng) (p : WorkspaceState × Rng) (loro : LoroDoc),
    handle (.resync doc) now (s, rng) = .ok [] p → s.docs.get? doc = some loro →
      h.ops loro ⊆ h.ops (importAll newDoc chunks)

/-! ## One publish -/

section Publish

variable {Op : Type} {h : History Op} {doc : DocumentUuid} {s s' : WorkspaceState}
  {chunks : List Bytes}

/-- What is on record of a document can be had from these chunks. -/
def Backed (h : History Op) (doc : DocumentUuid) (s : WorkspaceState) (chunks : List Bytes) :
    Prop :=
  ∀ v, s.publishedUpTo.get? doc = some v → h.covered v ⊆ h.ops (importAll newDoc chunks)

theorem Backed.of_forgets (hbacked : Backed h doc s chunks) (hforgets : Forgets s s') :
    Backed h doc s' chunks := by
  intro v hv
  rcases hforgets doc with hnone | ⟨hsame, -⟩
  · rw [hnone] at hv
    exact absurd hv (by simp)
  · rw [hsame] at hv
    exact hbacked v hv

/-- A full chunk carries the whole replica. -/
theorem History.Lawful.import_full (hlaws : h.Lawful) {source d : LoroDoc} {content : Bytes}
    (hexport : Loro.exportAs .allUpdates source = .ok content) :
    h.ops source ⊆ h.ops (after (Loro.importBytes content) d) := by
  have hcarried := hlaws.carried_all source content hexport
  refine hlaws.import_export hexport ?_ hcarried.le
  rw [hcarried]
  exact Set.subset_union_right

/-- A delta carries what the version before it does not cover. -/
theorem History.Lawful.import_delta (hlaws : h.Lawful) {source d : LoroDoc} {v content : Bytes}
    (hdecodes : Loro.decodesVv v = true)
    (hexport : Loro.exportAs (.updates v) source = .ok content) (hbase : h.covered v ⊆ h.ops d) :
    h.ops source ⊆ h.ops (after (Loro.importBytes content) d) := by
  have hcarried := hlaws.carried_updates v source content hdecodes hexport
  refine hlaws.import_export hexport ?_ ?_
  · rw [hcarried]
    intro o ho
    by_cases hcovered : o ∈ h.covered v
    · exact Or.inl (hbase hcovered)
    · exact Or.inr ⟨ho, hcovered⟩
  · rw [hcarried]
    exact Set.sdiff_subset

/-- The chunk that went out brings the replica up to what it was exported from. -/
theorem WorkspaceState.Shipped.import_content (hlaws : h.Lawful) {extent : Extent} {content : Bytes}
    {s₀ s₁ : WorkspaceState} {d : LoroDoc} (hshipped : Shipped doc extent content s₀ s₁)
    (hbase : extent = .delta → ∀ v, s₀.publishedUpTo.get? doc = some v → h.covered v ⊆ h.ops d) :
    ∃ replica, s₁.publishedUpTo = s₀.publishedUpTo.set doc (Loro.oplogVv replica) ∧
      h.ops replica ⊆ h.ops (after (Loro.importBytes content) d) := by
  obtain ⟨replica, -, hexport, hversions⟩ := hshipped.content
  refine ⟨replica, hversions, ?_⟩
  cases extent with
  | full => exact hlaws.import_full hexport
  | delta =>
      cases hv : s₀.publishedUpTo.get? doc with
      | none =>
          rw [hv] at hexport
          exact hlaws.import_full hexport
      | some v =>
          rw [hv] at hexport
          by_cases hdecodes : Loro.decodesVv v = true
          · rw [show exportMode (some v) .delta = .updates v from if_pos hdecodes] at hexport
            exact hlaws.import_delta hdecodes hexport (hbase rfl v hv)
          · rw [show exportMode (some v) .delta = .allUpdates from if_neg hdecodes] at hexport
            exact hlaws.import_full hexport

theorem Backed.ship (hbacked : Backed h doc s chunks) (hlaws : h.Lawful)
    {item : Publication} (hdoc : item.doc = doc)
    (hshipped : Shipped item.doc item.extent item.content s s') :
    Backed h doc s' (item.onto chunks) := by
  subst hdoc
  intro v hv
  have hread : ∀ {replica : LoroDoc},
      s'.publishedUpTo = s.publishedUpTo.set item.doc (Loro.oplogVv replica) →
      h.covered v = h.ops replica := by
    intro replica hversions
    rw [hversions, BTreeMap.get?_set, if_pos rfl] at hv
    rw [← Option.some.inj hv]
    exact hlaws.covered_oplogVv replica
  unfold Publication.onto
  cases hextent : item.extent with
  | full =>
      obtain ⟨replica, hversions, hops⟩ := hshipped.import_content (d := newDoc) hlaws
        fun hdelta => absurd (hextent.symm.trans hdelta) (by simp)
      rw [hread hversions]
      exact hops
  | delta =>
      obtain ⟨replica, hversions, hops⟩ := hshipped.import_content (d := importAll newDoc chunks)
        hlaws fun _ => hbacked
      rw [hread hversions]
      dsimp only
      rw [importAll_append]
      exact hops

/-- Whatever a call has published, the books are honest if its chunks are emitted. -/
theorem Backed.accounts {items : List Publication} (haccounts : Accounts items s s')
    (hbacked : Backed h doc s chunks) (hlaws : h.Lawful) :
    Backed h doc s' ((items.filter fun item => item.doc = doc).foldl Publication.onto chunks) := by
  induction haccounts generalizing chunks with
  | none hsame => exact hbacked.of_forgets (.of_record hsame)
  | ship hshipped hextent _ ih =>
      rename_i item rest _
      by_cases hdoc : item.doc = doc
      · rw [List.filter_cons_of_pos (by simpa using hdoc), List.foldl_cons]
        exact ih (hbacked.ship hlaws hdoc hshipped)
      · rw [List.filter_cons_of_neg (by simpa using hdoc)]
        obtain ⟨replica, -, -, hversions⟩ := hshipped.content
        refine ih fun v hv => hbacked v ?_
        rw [hversions, BTreeMap.get?_set, if_neg (Ne.symm hdoc)] at hv
        exact hv

end Publish

/-! ## A change of namespace -/

section Calls

variable {s : WorkspaceState} {rng : Rng}

theorem onNamespaceMinted_adopts (epoch : U32) (ticket : Bytes) (s : WorkspaceState) (rng : Rng) :
    Wp (onNamespaceMinted epoch ticket)
      (fun effects p => adopts effects = true → p.1.publishedUpTo = .empty) (fun _ _ => True)
      (s, rng) := by
  unfold onNamespaceMinted
  rw [wp_bind, wp_self]
  dsimp only
  split_ifs
  · exact fun hadopts => absurd hadopts (by simp [adopts])
  · refine wp_bind.mpr (wp_of_run (fun _ _ _ => ?_) fun _ _ _ => trivial)
    exact fun _ => rfl

theorem onNamespaceArrived_adopts (epoch : U32) (chunk : Chunk OpHash) (s : WorkspaceState)
    (rng : Rng) :
    Wp (onNamespaceArrived epoch chunk)
      (fun effects p => adopts effects = true → p.1.publishedUpTo = .empty) (fun _ _ => True)
      (s, rng) := by
  unfold onNamespaceArrived
  refine wp_bind.mpr (wp_of_run (fun outcome p _ => ?_) fun _ _ _ => trivial)
  cases outcome with
  | awaitingOp => exact fun hadopts => absurd hadopts (by simp [adopts])
  | unreachable => exact fun hadopts => absurd hadopts (by simp [adopts])
  | plaintext ticket =>
      change Wp (self >>= _) _ _ p
      rw [wp_bind, wp_self]
      split_ifs
      · exact fun hadopts => absurd hadopts (by simp [adopts])
      · exact fun _ => rfl

/-- The calls that may move the node to another namespace. -/
theorem Call.announces_or_tells {call : Call} (h : call.aboutNamespace = true) :
    call.reannounces = true ∨
      (∃ epoch ticket now, call = .handle (.namespaceMinted epoch ticket) now) ∨
      (∃ epoch chunk now, call = .handle (.namespaceArrived epoch chunk) now) ∨
      ∃ epoch chunk now, call = .onControl (.namespace_ epoch chunk) now := by
  cases call with
  | handle event now =>
      cases event with
      | namespaceMinted epoch ticket => exact Or.inr (Or.inl ⟨_, _, _, rfl⟩)
      | namespaceArrived epoch chunk => exact Or.inr (Or.inr (Or.inl ⟨_, _, _, rfl⟩))
      | resyncNamespace => exact Or.inl rfl
      | repairRequested requester target epoch =>
          cases target with
          | namespace_ => exact Or.inl rfl
          | _ => exact absurd h (by simp [Call.aboutNamespace, Event.aboutNamespace])
      | _ => exact absurd h (by simp [Call.aboutNamespace, Event.aboutNamespace])
  | onControl msg now =>
      cases msg with
      | namespace_ epoch chunk => exact Or.inr (Or.inr (Or.inr ⟨_, _, _, rfl⟩))
      | repair member target epoch =>
          cases target with
          | namespace_ => exact Or.inl rfl
          | _ => exact absurd h (by simp [Call.aboutNamespace])
      | _ => exact absurd h (by simp [Call.aboutNamespace])
  | _ => exact absurd h (by simp [Call.aboutNamespace])

/-- A call that changes the namespace clears the books. -/
theorem Call.adopts_empty [LawfulBeekem] {call : Call} {effects : List Effect}
    {p : WorkspaceState × Rng} (hrun : call.run (s, rng) = .ok effects p)
    (hadopts : adopts effects = true) : p.1.publishedUpTo = .empty := by
  by_cases hcall : call.aboutNamespace = true
  · rcases Call.announces_or_tells hcall with hagain | ⟨epoch, ticket, now, rfl⟩ |
      ⟨epoch, chunk, now, rfl⟩ | ⟨epoch, chunk, now, rfl⟩
    · -- announcing the capability at hand is no change
      have hannounced := (call.announced hcall s rng).of_ok hrun
      have htold := call.told_of_reannounces hagain s
      cases hannounced with
      | still hrekeyed hsilent hpassed =>
          rw [adopts_quiet hsilent.quiet] at hadopts
          exact absurd hadopts Bool.false_ne_true
      | again ops chunk =>
          rw [adopts_broadcasts] at hadopts
          exact absurd hadopts (by simp [adopts])
      | minted epoch ticket ops chunk htold' => exact absurd (htold.symm.trans htold') (by simp)
      | adopted epoch ticket htold' => exact absurd (htold.symm.trans htold') (by simp)
    · exact (onNamespaceMinted_adopts epoch ticket s rng).of_ok hrun hadopts
    · exact (onNamespaceArrived_adopts epoch chunk s rng).of_ok hrun hadopts
    · exact (onNamespaceArrived_adopts epoch chunk s rng).of_ok hrun hadopts
  · obtain ⟨-, hbumps⟩ := (call.advances (by simpa using hcall) s rng).of_ok hrun
    rw [adopts_rotates hbumps.rotates] at hadopts
    exact absurd hadopts Bool.false_ne_true

/-- A call that fails has published nothing, unless it restores a checkpoint in part. -/
theorem Call.publications_of_error {call : Call} {err : CoreError} {p : WorkspaceState × Rng}
    (hrun : call.run (s, rng) = .error err p) (hok : uninterrupted (.call call rng) s) :
    call.publications (s, rng) = [] := by
  have hplain : published call.run (call.ships? s) (s, rng) = [] := by
    unfold published
    rw [hrun]
    cases call.ships? s with
    | none => rfl
    | some target => rfl
  cases call with
  | restoreCheckpoint digest now =>
      refine hok.resolve_left fun hsucceeds => ?_
      obtain ⟨effects, hdone⟩ := run_of_succeeds hsucceeds
      rw [hrun] at hdone
      exact absurd hdone (by simp)
  | _ => exact hplain

end Calls

/-! ## Runs -/

section Runs

variable {Op : Type} {h : History Op} {doc : DocumentUuid} {s : WorkspaceState}
  {chunks : List Bytes}

theorem Backed.call [LawfulBeekem] (hbacked : Backed h doc s chunks) (hlaws : h.Lawful)
    (made : Call) (rng : Rng) (hok : uninterrupted (.call made rng) s) :
    Backed h doc (after made.run (s, rng)).1 (Turn.chunks doc (.call made rng) s chunks) := by
  have haccounts := made.accounts s rng
  unfold Turn.chunks
  dsimp only
  unfold after at haccounts ⊢
  cases hrun : made.run (s, rng) with
  | error err p =>
      rw [hrun] at haccounts
      rw [Call.publications_of_error hrun hok] at haccounts
      rcases haccounts with hnone | ⟨-, hforgets⟩
      · exact Backed.accounts hnone hbacked hlaws
      · exact hbacked.of_forgets hforgets
  | ok effects p =>
      rw [hrun] at haccounts
      dsimp only
      split_ifs with hadopts
      · intro v hv
        rw [Call.adopts_empty hrun hadopts, BTreeMap.get?_empty] at hv
        exact absurd hv (by simp)
      · rcases haccounts with haccounts | ⟨hnone, hforgets⟩
        · exact hbacked.accounts haccounts hlaws
        · have hemitted : made.emitted doc (s, rng) = [] := by simp [Call.emitted, hnone]
          rw [hemitted]
          exact hbacked.of_forgets hforgets

theorem Backed.restart (hbacked : Backed h doc s chunks) (order : HashOrder) (rng : Rng) :
    Backed h doc (after (WorkspaceState.restart order) (s, rng)).1 chunks := by
  refine Wp.after (P := fun p : WorkspaceState × Rng => Backed h doc p.1 chunks) ?_
  refine (restart_spec order s rng).mono (fun _ p hresumed => ?_) fun _ p hsame => ?_
  · intro v hv
    rw [hresumed.publishedUpTo] at hv
    exact hbacked v hv
  · rw [hsame]
    exact hbacked

/-- Every publish emits a chunk. -/
theorem publishKeyed_emits (doc : DocumentUuid) (keying : Keying) (extent : Extent)
    (p : WorkspaceState × Rng) :
    Wp (publishKeyed doc keying extent) (fun effects _ => effects ≠ []) (fun _ _ => True) p := by
  have hskip : ∀ {α : Type} {x : Run α} {f : α → Run (List Effect)} {p : WorkspaceState × Rng},
      (∀ a p, Wp (f a) (fun effects _ => effects ≠ []) (fun _ _ => True) p) →
      Wp (x >>= f) (fun effects _ => effects ≠ []) (fun _ _ => True) p :=
    fun hf => wp_bind.mpr (wp_of_run (fun a p _ => hf a p) fun _ _ _ => trivial)
  unfold publishKeyed
  refine hskip fun _ _ => hskip fun _ _ => hskip fun _ _ => hskip fun _ _ => hskip fun _ _ =>
    hskip fun _ _ => hskip fun _ _ => ?_
  exact List.append_ne_nil_of_right_ne_nil _ (List.cons_ne_nil _ _)

/-- A resync that emits nothing leaves nothing out. -/
theorem Backed.resync (hbacked : Backed h doc s chunks) (hlaws : h.Lawful) {rng : Rng}
    {p : WorkspaceState × Rng} {loro : LoroDoc} (hrun : onResync doc (s, rng) = .ok [] p)
    (hdoc : s.docs.get? doc = some loro) : h.ops loro ⊆ h.ops (importAll newDoc chunks) := by
  have hspec : Wp (onResync doc) (fun effects _ => effects = [] →
      h.ops loro ⊆ h.ops (importAll newDoc chunks)) (fun _ _ => True) (s, rng) := by
    unfold onResync
    refine (requireWrite_alone (s, rng)).seq (fun _ q hq => ?_) fun _ _ _ => trivial
    obtain rfl : q = (s, rng) := hq
    rw [wp_bind, wp_self, hdoc]
    dsimp only [Option.isNone_some]
    rw [if_neg (by simp), wp_bind]
    unfold isPublished
    rw [wp_bind, wp_self, hdoc]
    cases hv : s.publishedUpTo.get? doc with
    | none =>
        dsimp only
        rw [wp_pure, if_neg (by simp)]
        exact (publishKeyed_emits doc .current .full (s, rng)).mono
          (fun effects p hemits hnil => absurd hnil hemits) fun _ _ => id
    | some v =>
        dsimp only
        rw [wp_bind, wp_update, wp_pure]
        split_ifs with hsame
        · intro _
          have hversion : Loro.oplogVv (Loro.commit loro) = v := by simpa using hsame
          have hcovered := hbacked v hv
          rw [← hversion, hlaws.covered_oplogVv, hlaws.ops_commit] at hcovered
          exact hcovered
        · exact (publishKeyed_emits doc .current .full _).mono
            (fun effects p hemits hnil => absurd hnil hemits) fun _ _ => id
  exact hspec.of_ok hrun rfl

/-- Nothing has been published where a run begins. -/
theorem publishedUpTo_of_start (hstart : Founded s ∨ Joined s) : s.publishedUpTo = .empty := by
  obtain ⟨c, secret, epoch, hsame⟩ := part_of_start WorkspaceState.publishedUpTo
    (fun _ _ => rfl) (fun _ _ => rfl) hstart
  exact hsame

/-- In every run in which no checkpoint is restored in part, what is on record as published
can be had from the chunks in the namespace at hand, and a resync that emits nothing has
nothing to add. -/
theorem published_up_to_honest [LawfulBeekem] (hlaws : h.Lawful)
    (hcourse : (chunkRuns doc uninterrupted).Course s chunks) : HonestBooks h doc s chunks := by
  have hbacked : Backed h doc s chunks := by
    refine hcourse.invariant ?_ ?_
    · rintro s _ ⟨hstart, rfl⟩ v hv
      rw [publishedUpTo_of_start hstart, BTreeMap.get?_empty] at hv
      exact absurd hv (by simp)
    · intro s chunks turn hbacked hok
      cases turn with
      | call made rng => exact hbacked.call hlaws made rng hok
      | restart order rng => exact hbacked.restart order rng
  exact ⟨hbacked, fun now rng p loro hrun hdoc => hbacked.resync hlaws hrun hdoc⟩

end Runs

end IrohBeekem

/-! ## A checkpoint restored in part -/

namespace IrohBeekem

open Library WorkspaceState

section Samples

local instance coveredKeyhive : Keyhive := transparentKeyhive

local instance coveredBeekem : Beekem := listBeekem

local instance coveredLawful : LawfulBeekem := listBeekem_live.toLawfulBeekem

local instance coveredLoro : Loro := clockLoro

local instance coveredPostcard : Postcard := blankPostcard

/-- Two edits, and a restart before the second. -/
@[irreducible] def coveredEdits : WorkspaceState × List Bytes :=
  (chunkRuns 5 uninterrupted).takeAll
    [.call (.handle (.localEdit 5 "a") 0) (1 : Nat), .restart ascendingOrder (1 : Nat),
      .call (.handle (.localEdit 5 "b") 0) (1 : Nat)] (sampleWorkspace 1, [])

theorem published_up_to_honest_coveredEdits :
    coveredEdits.1.publishedUpTo.get? 5 = some [0, 0, 0, 0] ∧
      HonestBooks clockHistory 5 coveredEdits.1 coveredEdits.2 := by
  have hstart : (chunkRuns 5 uninterrupted).Course (sampleWorkspace 1) [] :=
    .start ⟨Or.inl (sampleWorkspace_founded (by decide +kernel)), rfl⟩
  have hcourse : (chunkRuns 5 uninterrupted).Course coveredEdits.1 coveredEdits.2 := by
    unfold coveredEdits
    exact hstart.takeAll (r := (sampleWorkspace 1, [])) _ ⟨trivial, trivial, trivial, trivial⟩
  exact ⟨by decide +kernel, published_up_to_honest clockHistory_lawful hcourse⟩

end Samples

section Samples

local instance limitedKeyhive : Keyhive := transparentKeyhive

/-- A key agreement whose cipher refuses long plaintexts. -/
@[reducible] def limitedCipher : Beekem :=
  { listBeekem with
    tryEncrypt := fun secret plaintext =>
      if 64 < plaintext.length then none else listBeekem.tryEncrypt secret plaintext }

local instance limitedBeekem : Beekem := limitedCipher

local instance limitedLoro : Loro := clockLoro

/-- A checkpoint with no name, of which each entry takes two bytes: the document and the
count its version is. -/
@[reducible] def pairPostcard : Postcard :=
  { blankPostcard with
    encodeCheckpoint := fun c =>
      c.entries.flatMap fun entry => [UInt8.ofNat entry.1.val, UInt8.ofNat entry.2.length]
    decodeCheckpoint := fun bytes =>
      let rec pairs : Bytes → List (DocumentUuid × VersionId)
        | doc :: count :: rest =>
            (Fin.ofNat _ doc.toNat, List.replicate count.toNat 0) :: pairs rest
        | _ => []
      some ⟨"", "", 1, 0, pairs bytes⟩ }

local instance limitedPostcard : Postcard := pairPostcard

def limitedFounder : CgkaController :=
  { cgka := ListCgka.new 1 1 0 1
    signer := 1, memberId := 1, shareSecret := 0, shareKey := 0
    knownMembers := {1}, currentMembers := {1}
    certs := .new 1, parked := [], evictedOps := 0 }

def limitedWorkspace : WorkspaceState :=
  match WorkspaceState.found limitedFounder 9 1 with
  | .ok s => s
  | .error _ => joined limitedFounder 9 0

/-- What naming a state does when the entries come in order. -/
theorem checkpoint_of_sorted {name message : String} {now : UnixSeconds} {s : WorkspaceState}
    {rng : Rng} {l : List (DocumentUuid × VersionId)}
    (hwrite : succeeds requireWrite (s, rng) = true)
    (hentries : (s.manifest.files.filterMap fun entry =>
      (s.documentVersion entry.uuid).map fun version => (entry.uuid, version)) = l)
    (hsorted : l.Pairwise fun a b => decide (a.1 ≤ b.1) = true) :
    Call.run (.checkpoint name message now) (s, rng) = (do
      onManifest (Manifest.addCheckpoint ⟨name, message, s.memberId, now, l⟩)
      publishManifest .current : Run (List Effect)) (s, rng) := by
  obtain ⟨u, hrun⟩ := run_of_succeeds hwrite
  have hsame : after requireWrite (s, rng) = (s, rng) := (requireWrite_alone (s, rng)).of_ok hrun
  rw [hsame] at hrun
  have hskip : Call.run (.checkpoint name message now) (s, rng) = (do
      onManifest (Manifest.addCheckpoint ⟨name, message, s.memberId, now,
        (s.manifest.files.filterMap fun entry =>
          (s.documentVersion entry.uuid).map fun version =>
            (entry.uuid, version)).mergeSort fun a b => a.1 ≤ b.1⟩)
      publishManifest .current : Run (List Effect)) (s, rng) := by
    unfold Call.run checkpoint
    dsimp only
    simp only [bind_assoc, pure_bind, bind_pure]
    change EStateM.bind requireWrite _ (s, rng) = _
    unfold EStateM.bind
    rw [hrun]
    rfl
  rw [hskip, hentries, List.mergeSort_of_pairwise hsorted]

/-- Both documents are edited, and the state is to be named. -/
@[irreducible] def beforeCheckpoint : WorkspaceState × List Bytes :=
  (chunkRuns 5 fun _ _ => True).takeAll
    [.call (.handle (.upsertFile ⟨6, "six", "", none⟩) 0) (1 : Nat),
      .call (.handle (.upsertFile ⟨5, "five", "", none⟩) 0) (1 : Nat),
      .call (.handle (.localEdit 5 "a") 0) (1 : Nat),
      .call (.handle (.localEdit 6 "a") 0) (1 : Nat)]
    (limitedWorkspace, [])

/-- Name the state. -/
def naming : Run (List Effect) := do
  onManifest (Manifest.addCheckpoint ⟨"", "", 1, 0, [(5, [0, 0]), (6, [0, 0])]⟩)
  publishManifest .current

@[irreducible] def afterCheckpoint : WorkspaceState × List Bytes :=
  ((after naming (beforeCheckpoint.1, (1 : Nat))).1, beforeCheckpoint.2)

private theorem checkpoint_beforeCheckpoint :
    Call.run (.checkpoint "" "" 0) (beforeCheckpoint.1, (1 : Nat)) =
      naming (beforeCheckpoint.1, (1 : Nat)) := by
  have hmember : beforeCheckpoint.1.memberId = 1 := by decide +kernel
  rw [checkpoint_of_sorted (l := [(5, [0, 0]), (6, [0, 0])]) (by decide +kernel)
    (by decide +kernel) (by decide), hmember]
  rfl

/-- A checkpoint sends no chunk of a document out. -/
private theorem chunks_checkpoint {doc : DocumentUuid} {name message : String} {now : UnixSeconds}
    {s : WorkspaceState} {rng : Rng} {chunks : List Bytes} {x : Run (List Effect)}
    (hrun : Call.run (.checkpoint name message now) (s, rng) = x (s, rng))
    (hquiet : (match x (s, rng) with
      | .ok effects _ => adopts effects
      | .error _ _ => false) = false) :
    Turn.chunks doc (.call (.checkpoint name message now) rng) s chunks = chunks := by
  unfold Turn.chunks
  dsimp only
  rw [hrun]
  cases hx : x (s, rng) with
  | error err p => rfl
  | ok effects p =>
      rw [hx] at hquiet
      dsimp only at hquiet ⊢
      rw [hquiet]
      rfl

private theorem take_checkpoint :
    (chunkRuns 5 fun _ _ => True).takeAll [.call (.checkpoint "" "" 0) (1 : Nat)]
      beforeCheckpoint = afterCheckpoint := by
  have hstate : Turn.take (.call (.checkpoint "" "" 0) (1 : Nat)) beforeCheckpoint.1 =
      (after naming (beforeCheckpoint.1, (1 : Nat))).1 := by
    unfold Turn.take after
    dsimp only
    rw [checkpoint_beforeCheckpoint]
  have hchunks : Turn.chunks 5 (.call (.checkpoint "" "" 0) (1 : Nat)) beforeCheckpoint.1
      beforeCheckpoint.2 = beforeCheckpoint.2 :=
    chunks_checkpoint checkpoint_beforeCheckpoint (by decide +kernel)
  unfold afterCheckpoint
  rw [← hstate]
  exact Prod.ext rfl hchunks

/-- The last edit does not fit the cipher, and neither does the document put back. -/
@[irreducible] def partialRestore : WorkspaceState × List Bytes :=
  (chunkRuns 5 fun _ _ => True).takeAll
    [.call (.handle (.localEdit 5 "b") 0) (1 : Nat),
      .call (.handle (.localEdit 6 (String.ofList (List.replicate 70 'b'))) 0) (1 : Nat),
      .call (.restoreCheckpoint (Beekem.hashBytes [5, 2, 6, 2]) 0) (1 : Nat)]
    afterCheckpoint

/-- The version on record is one that was never emitted. -/
theorem partialRestore_dishonest :
    ¬ ∀ (Op : Type) (h : History Op) (doc : DocumentUuid) (s : WorkspaceState)
      (chunks : List Bytes), h.Lawful → (chunkRuns doc fun _ _ => True).Course s chunks →
        HonestBooks h doc s chunks := by
  intro hall
  have hstart : (chunkRuns 5 fun _ _ => True).Course limitedWorkspace [] := by
    refine .start ⟨Or.inl ⟨1, 1, 9, 1, (0 : Nat), (1 : Nat), limitedFounder, rfl, ?_⟩, rfl⟩
    have hsome : (WorkspaceState.found limitedFounder 9 1).toOption.isSome = true := by
      decide +kernel
    unfold limitedWorkspace
    cases hfound : WorkspaceState.found limitedFounder 9 1 with
    | ok s => rfl
    | error err =>
        rw [hfound] at hsome
        exact absurd hsome (by simp [Except.toOption])
  have hbefore : (chunkRuns 5 fun _ _ => True).Course beforeCheckpoint.1 beforeCheckpoint.2 := by
    unfold beforeCheckpoint
    exact hstart.takeAll (r := (limitedWorkspace, [])) _
      (Chart.allOk_of_forall (fun _ _ _ _ => trivial) _)
  have hafter : (chunkRuns 5 fun _ _ => True).Course afterCheckpoint.1 afterCheckpoint.2 := by
    rw [← take_checkpoint]
    exact hbefore.takeAll _ (Chart.allOk_of_forall (fun _ _ _ _ => trivial) _)
  have hcourse : (chunkRuns 5 fun _ _ => True).Course partialRestore.1 partialRestore.2 := by
    unfold partialRestore
    exact hafter.takeAll _ (Chart.allOk_of_forall (fun _ _ _ _ => trivial) _)
  have hhonest := hall Nat clockHistory 5 _ _ clockHistory_lawful hcourse
  have hversion : partialRestore.1.publishedUpTo.get? 5 = some [0, 0, 0, 0] := by decide +kernel
  have hclock : (importAll newDoc partialRestore.2 : ListDoc).clock = 3 := by decide +kernel
  have hheld : 3 < (importAll newDoc partialRestore.2 : ListDoc).clock :=
    hhonest.recorded _ hversion (show 3 < [0, 0, 0, 0].length by decide)
  omega

end Samples

end IrohBeekem
