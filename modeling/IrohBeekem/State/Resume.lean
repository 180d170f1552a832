import IrohBeekem.State.CarbonModel
import IrohBeekem.State.Reach

/-!
# Stored and resumed

A snapshot lists some of a node's state and leaves the rest to be recomputed or
forgotten.  `snapshot_round_trip` says that in every state a run reaches the list is
enough: resuming succeeds, what is recomputed is what was there, and nothing is forgotten
but the queues, the counters of the process and what it has carried out itself.

What is recomputed is covered by an invariant each: the capability closure because every
certificate held verifies, the share key because it has always been the public half of
the share secret, the member sets because a member is introduced by an operation.
-/

set_option linter.unusedSectionVars false

namespace IrohBeekem

open Library CgkaController WorkspaceState

variable [Keyhive] [Beekem] [Loro] [Postcard]

/-! ## What is relied on -/

omit [Keyhive] [Beekem] [Postcard] in
/-- A snapshot of a replica can be made, and a new replica that imports it shows what the
replica did. -/
def Lossless {σ : Type} (state : LoroDoc → σ) : Prop :=
  ∀ d, ∃ bytes, Loro.exportAs .snapshot (Loro.commit d) = .ok bytes ∧
    ∀ fresh, fresh = Loro.new ∨ fresh = newDoc →
      ∃ pending d', Loro.importBytes bytes fresh = .ok pending d' ∧ state d' = state d

omit [Loro] [Postcard] in
/-- Whom an operation of a tree introduces is named by a verifying key. -/
def NamesKeys : Prop :=
  ∀ g : Cgka, ∀ op ∈ graph g, ∀ m, op.payload.added? = some m → Keyhive.isPoint m = true

/-! ## The keys of a leaf -/

omit [Loro] [Postcard] in
theorem fromSnapshot_paired {snapshot : CgkaSnapshot} {c : CgkaController}
    (h : CgkaController.fromSnapshot snapshot = .ok c) : PairedKeys c := by
  obtain ⟨known, -, h⟩ := bind_eq_ok.mp h
  obtain ⟨current, -, h⟩ := bind_eq_ok.mp h
  obtain rfl := Except.ok.inj h
  rfl

theorem restart_paired (order : HashOrder) (s : WorkspaceState) (rng : Rng)
    (hs : PairedKeys s.cgka) : PairedKeys (after (restart order) (s, rng)).1.cgka := by
  refine Wp.after (P := fun p : WorkspaceState × Rng => PairedKeys p.1.cgka) ?_
  unfold restart
  rw [wp_bind, wp_self, wp_bind, wp_verdict]
  cases hsnapshot : s.snapshot order with
  | error e => exact hs
  | ok snapshot =>
      dsimp only
      rw [wp_bind, wp_verdict]
      cases hresumed : WorkspaceState.fromSnapshot snapshot with
      | error e => exact hs
      | ok s' =>
          obtain ⟨docs, -, hsnapshot⟩ := bind_eq_ok.mp hsnapshot
          obtain ⟨manifest, -, hsnapshot⟩ := bind_eq_ok.mp hsnapshot
          obtain rfl := Except.ok.inj hsnapshot
          obtain ⟨manifest', -, hresumed⟩ := bind_eq_ok.mp hresumed
          obtain ⟨docs', -, hresumed⟩ := bind_eq_ok.mp hresumed
          obtain ⟨c, hc, hresumed⟩ := bind_eq_ok.mp hresumed
          obtain rfl := Except.ok.inj hresumed
          exact fromSnapshot_paired hc

variable [LawfulBeekem]

/-- In every state a run reaches, the share key is the public half of the share secret. -/
theorem Reachable.paired {s : WorkspaceState} (h : Reachable s) : PairedKeys s.cgka := by
  induction h with
  | @found treeId signer secret threshold rng rng' c s hcreate hfound =>
      refine (found_spec hfound).1.paired ?_
      unfold CgkaController.create at hcreate
      dsimp only at hcreate
      split at hcreate
      · cases hcreate
      · obtain rfl := Except.ok.inj (congrArg Prod.fst hcreate)
        rfl
  | joined secret epoch hjoin =>
      obtain ⟨init, rest, doc, founderId, pk, detail, g, added, offered, -, -, -, -, -, hevolves⟩ :=
        join_inv hjoin
      exact hevolves.paired rfl
  | @call s _ call rng ih =>
      refine Wp.after (P := fun p : WorkspaceState × Rng => PairedKeys p.1.cgka)
        ((call.moves s rng).mono ?_ ?_)
      · intro effects p h
        obtain ⟨added, hevolves⟩ := h.accounted.evolves
        exact hevolves.paired ih
      · intro err p h
        obtain ⟨added, hevolves, -⟩ := h.evolves
        exact hevolves.paired ih
  | @restart s _ order rng ih => exact restart_paired order s rng ih

/-! ## The round trip -/

omit [Beekem] [Loro] [Postcard] [LawfulBeekem] in
/-- Verifying keys are read back from their bytes. -/
theorem mapM_memberFromBytes_ok {l : List Bytes32} (h : ∀ m ∈ l, Keyhive.isPoint m = true) :
    l.mapM memberFromBytes = .ok l := by
  induction l with
  | nil => rfl
  | cons m rest ih =>
      rw [List.mapM_cons]
      have hm : memberFromBytes m = .ok m := if_pos (h m List.mem_cons_self)
      have hrest := ih fun x hx => h x (List.mem_cons_of_mem m hx)
      exact bind_eq_ok.mpr ⟨m, hm, bind_eq_ok.mpr ⟨rest, hrest, rfl⟩⟩

omit [Loro] [Postcard] [LawfulBeekem] in
/-- A controller in a reachable state loses its queue and nothing else. -/
theorem CgkaController.fromSnapshot_snapshot {c : CgkaController} (hc : Upright c)
    (hpaired : PairedKeys c) (hkeys : NamesKeys) (order : HashOrder) :
    CgkaController.fromSnapshot (c.snapshot order) = .ok { c with parked := [] } := by
  have hknown : ∀ m ∈ c.knownMembers, Keyhive.isPoint m = true := by
    intro m hm
    obtain ⟨op, hop, hadded⟩ := (hc.known m).mp hm
    exact hkeys c.cgka op hop m hadded
  have hread : ∀ set : Finset Bytes32, set ⊆ c.knownMembers →
      (order.iter set).mapM memberFromBytes = .ok (order.iter set) := by
    intro set hset
    exact mapM_memberFromBytes_ok fun m hm => hknown m (hset ((order.mem_iter set m).mp hm))
  have hsame : ∀ set : Finset Bytes32, (order.iter set).toFinset = set := by
    intro set
    ext m
    rw [List.mem_toFinset]
    exact order.mem_iter set m
  refine bind_eq_ok.mpr ⟨_, hread c.knownMembers (Finset.Subset.refl _), ?_⟩
  refine bind_eq_ok.mpr ⟨_, hread c.currentMembers hc.current, ?_⟩
  have hcerts := CapabilityStore.extend_certificates hc.verified
  unfold CgkaController.snapshot
  rw [hsame, hsame, hcerts, hc.signer, ← hpaired]
  rfl

omit [Keyhive] [Beekem] [Postcard] [LawfulBeekem] in
/-- A document is stored, and read back into a fresh replica. -/
theorem snapshotDoc_lossless {σ : Type} {state : LoroDoc → σ} (hlossless : Lossless state)
    (d : LoroDoc) : ∃ bytes, snapshotDoc d = .ok bytes ∧
      ∀ fresh, fresh = Loro.new ∨ fresh = newDoc →
        ∃ d', restoreInto fresh bytes = .ok d' ∧ state d' = state d := by
  obtain ⟨bytes, hexport, himport⟩ := hlossless d
  refine ⟨bytes, by unfold snapshotDoc; rw [hexport]; rfl, fun fresh hfresh => ?_⟩
  obtain ⟨pending, d', hd', hstate⟩ := himport fresh hfresh
  exact ⟨d', by unfold restoreInto; rw [hd'], hstate⟩

omit [Keyhive] [Beekem] [Postcard] [LawfulBeekem] in
/-- Stored documents are read back one by one. -/
theorem restoreDocs {σ : Type} {state : LoroDoc → σ} {entries : List (DocumentUuid × LoroDoc)}
    {stored : List (DocumentUuid × Bytes)}
    (h : List.Forall₂ (fun (entry : DocumentUuid × LoroDoc) (kept : DocumentUuid × Bytes) =>
      kept.1 = entry.1 ∧
        ∃ d', restoreInto newDoc kept.2 = .ok d' ∧ state d' = state entry.2) entries stored) :
    ∃ docs, (stored.mapM fun entry => (restoreInto newDoc entry.2).map fun doc =>
        (entry.1, doc)) = .ok docs ∧
      List.Forall₂ (fun a b => b.1 = a.1 ∧ state b.2 = state a.2) entries docs := by
  induction h with
  | nil => exact ⟨[], rfl, .nil⟩
  | @cons entry kept l l' hkept _ ih =>
      obtain ⟨hkey, d', hd', hshown⟩ := hkept
      obtain ⟨docs, hrest, hforall⟩ := ih
      refine ⟨(kept.1, d') :: docs, ?_, .cons ⟨hkey, hshown⟩ hforall⟩
      rw [List.mapM_cons]
      refine bind_eq_ok.mpr ⟨(kept.1, d'), by rw [hd']; rfl, ?_⟩
      exact bind_eq_ok.mpr ⟨docs, hrest, rfl⟩

/-- In every state a run reaches, a snapshot can be made and resumed from, and the node is
then what it was, but for what it had queued, counted and carried out itself. -/
theorem snapshot_round_trip {σ : Type} {state : LoroDoc → σ} (hlossless : Lossless state)
    (hkeys : NamesKeys) {s : WorkspaceState} (hs : Reachable s) (order : HashOrder) :
    ∃ snapshot manifest docs, s.snapshot order = .ok snapshot ∧
      WorkspaceState.fromSnapshot snapshot = .ok { s with
        cgka := { s.cgka with parked := [] }
        manifest, docs
        pendingChunks := []
        pendingBytes := 0
        evictedChunks := 0
        unreadableChunks := 0
        corruptChunks := 0
        repairsAnswered := 0
        deltasSinceFull := .empty
        executedHere := .empty } ∧
      state manifest = state s.manifest ∧
      ∀ doc, (docs.get? doc).map state = (s.docs.get? doc).map state := by
  -- each stored document, by its key, with what a fresh replica reads from it
  have hstored : ∀ entry ∈ s.docs.toList, ∃ stored : DocumentUuid × Bytes,
      ((snapshotDoc entry.2).map fun bytes => (entry.1, bytes)) = .ok stored ∧
        stored.1 = entry.1 ∧ ∃ d', restoreInto newDoc stored.2 = .ok d' ∧ state d' = state entry.2 := by
    intro entry _
    obtain ⟨bytes, hbytes, hrestore⟩ := snapshotDoc_lossless hlossless entry.2
    exact ⟨(entry.1, bytes), by rw [hbytes]; rfl, rfl, hrestore newDoc (Or.inr rfl)⟩
  obtain ⟨stored, hdocs, hall⟩ := exists_mapM hstored
  obtain ⟨bytes, hmanifest, hrestore⟩ := snapshotDoc_lossless hlossless s.manifest
  obtain ⟨manifest, hread, hstate⟩ := hrestore Loro.new (Or.inl rfl)
  obtain ⟨docs, hreadDocs, hforall⟩ := restoreDocs hall
  have hcgka := CgkaController.fromSnapshot_snapshot hs.upright hs.paired hkeys order
  refine ⟨_, manifest, .ofList docs,
    bind_eq_ok.mpr ⟨stored, hdocs, bind_eq_ok.mpr ⟨bytes, hmanifest, rfl⟩⟩, ?_, hstate, ?_⟩
  · unfold WorkspaceState.fromSnapshot
    simp only [ne_eq, not_true, if_false]
    refine bind_eq_ok.mpr ⟨manifest, hread, bind_eq_ok.mpr ⟨docs, hreadDocs, ?_⟩⟩
    refine bind_eq_ok.mpr ⟨_, hcgka, ?_⟩
    rw [BTreeMap.ofList_toList, BTreeMap.ofList_toList]
    rfl
  · intro doc
    have hcongr := BTreeMap.get?_ofList_congr hforall doc
    rwa [BTreeMap.ofList_toList] at hcongr

end IrohBeekem

/-! ## A founder that resumes -/

namespace IrohBeekem

open Library WorkspaceState

section Samples

local instance resumeKeyhive : Keyhive := transparentKeyhive

local instance resumeBeekem : Beekem := listBeekem

local instance resumeLoro : Loro := carbonLoro

local instance resumePostcard : Postcard := blankPostcard

local instance resumeLawful : LawfulBeekem := listBeekem_live.toLawfulBeekem

/-- The whole replica survives being stored. -/
theorem carbon_lossless : Lossless (fun d : LoroDoc => (d : ListDoc)) := by
  intro d
  refine ⟨listDocCodec.encode d, rfl, fun fresh hfresh => ⟨false, d, ?_, rfl⟩⟩
  have hnew : fresh = (⟨[], "", 0⟩ : ListDoc) := by rcases hfresh with rfl | rfl <;> rfl
  rw [hnew]
  exact ListDoc.importBytes_encode d

theorem snapshot_round_trip_founder :
    ∃ snapshot s', (sampleWorkspace 2).snapshot ascendingOrder = .ok snapshot ∧
      WorkspaceState.fromSnapshot snapshot = .ok s' ∧ s'.manifest = (sampleWorkspace 2).manifest ∧
      s'.cgka = (sampleWorkspace 2).cgka := by
  have hfound : (WorkspaceState.found rootedFounder 9 2).toOption.isSome = true := by
    decide +kernel
  obtain ⟨snapshot, manifest, docs, hsnapshot, hresumed, hmanifest, -⟩ :=
    snapshot_round_trip carbon_lossless (fun _ _ _ _ _ => rfl) (sampleWorkspace_reachable hfound)
      ascendingOrder
  have hparked : (sampleWorkspace 2).cgka.parked = [] := by decide +kernel
  refine ⟨snapshot, _, hsnapshot, hresumed, hmanifest, ?_⟩
  dsimp only
  rw [← hparked]

end Samples

end IrohBeekem
