import IrohBeekem.State.Call
import IrohBeekem.State.ListModel

/-!
# Snapshots and hash order

The source keeps the documents of a node, what it published of them and its members in
hash tables, whose iteration order may differ from one process to the next.  `Iteration`
is one such order for every table a snapshot reads, and `snapshotIn` the snapshot as the
source takes it, table by table: the maps are iterated and then sorted, the member sets
are iterated and stored as they come.

`snapshotIn_eq_ok` says that for the maps the order is lost.  For the members it is not,
and `snapshot_deterministic_iff` is exact about it: a snapshot is a function of the content
of the state if and only if neither member set has two elements.
-/

set_option linter.unusedSectionVars false

namespace IrohBeekem

open Library

namespace HashOrder

/-- The same enumeration, read from its end. -/
def reversed (order : HashOrder) : HashOrder where
  iter set := (order.iter set).reverse
  mem_iter set m := by rw [List.mem_reverse, order.mem_iter]
  nodup_iter set := List.nodup_reverse.mpr (order.nodup_iter set)

theorem toFinset_iter (order : HashOrder) (set : Finset Bytes32) :
    (order.iter set).toFinset = set := by
  ext m
  rw [List.mem_toFinset, order.mem_iter]

theorem length_iter (order : HashOrder) (set : Finset Bytes32) :
    (order.iter set).length = set.card := by
  rw [← List.toFinset_card_of_nodup (order.nodup_iter set), order.toFinset_iter]

/-- There is but one way to enumerate a set without two elements. -/
theorem iter_unique {set : Finset Bytes32} (h : set.card ≤ 1) (order order' : HashOrder) :
    order.iter set = order'.iter set := by
  have hperm : (order.iter set).Perm (order'.iter set) :=
    (List.perm_ext_iff_of_nodup (order.nodup_iter set) (order'.nodup_iter set)).mpr fun m => by
      rw [order.mem_iter, order'.mem_iter]
  rw [← order.length_iter] at h
  match hiter : order.iter set, h with
  | [], _ => exact (List.nil_perm.mp (hiter ▸ hperm)).symm
  | [m], _ => exact List.singleton_perm.mp (hiter ▸ hperm) |>.symm ▸ rfl

/-- A list that reads the same from its end and repeats nothing is short. -/
theorem length_le_one_of_reverse {l : List Bytes32} (hnodup : l.Nodup) (h : l.reverse = l) :
    l.length ≤ 1 := by
  cases l with
  | nil => exact Nat.zero_le 1
  | cons a rest =>
      cases hlast : rest.reverse with
      | nil => rw [List.reverse_eq_nil_iff.mp hlast]; exact Nat.le_refl 1
      | cons b front =>
          have hsame : b = a := by
            rw [List.reverse_cons, hlast] at h
            exact (List.cons.inj h).1
          have hmem : b ∈ rest := List.mem_reverse.mp (hlast ▸ List.mem_cons_self)
          exact absurd (hsame ▸ hmem) (List.nodup_cons.mp hnodup).1

theorem iter_reversed_ne {set : Finset Bytes32} (h : 1 < set.card) (order : HashOrder) :
    order.reversed.iter set ≠ order.iter set := fun heq =>
  absurd (length_le_one_of_reverse (order.nodup_iter set) heq)
    (by rw [order.length_iter]; omega)

end HashOrder

variable [Keyhive] [Beekem] [Loro] [Postcard]

namespace WorkspaceState

/-- One order for each hash table of a state that a snapshot iterates. -/
structure Iteration (s : WorkspaceState) where
  sets : HashOrder
  docs : List (DocumentUuid × LoroDoc)
  docs_perm : docs.Perm s.docs.toList
  lastRef : List (DocumentUuid × Bytes32)
  lastRef_perm : lastRef.Perm s.lastRef.toList
  publishedUpTo : List (DocumentUuid × Bytes)
  publishedUpTo_perm : publishedUpTo.Perm s.publishedUpTo.toList

/-- The tables in ascending order, and the member sets in this one. -/
def Iteration.ascending (s : WorkspaceState) (sets : HashOrder) : Iteration s where
  sets := sets
  docs := s.docs.toList
  docs_perm := .refl _
  lastRef := s.lastRef.toList
  lastRef_perm := .refl _
  publishedUpTo := s.publishedUpTo.toList
  publishedUpTo_perm := .refl _

/-- `sort_unstable_by_key`, by the document. -/
def sortByUuid {α : Type} (entries : List (DocumentUuid × α)) : List (DocumentUuid × α) :=
  entries.mergeSort fun a b => a.1 ≤ b.1

/-- Capture a node's entire resumable state, iterating its tables in this order. -/
def snapshotIn (s : WorkspaceState) (order : Iteration s) : Except CoreError WorkspaceSnapshot := do
  let docs ← order.docs.mapM fun entry => (snapshotDoc entry.2).map fun bytes => (entry.1, bytes)
  let manifest ← snapshotDoc s.manifest
  return {
    version := snapshotVersion
    cgka := s.cgka.snapshot order.sets
    secret := s.secret
    manifest
    docs := sortByUuid docs
    lastRef := sortByUuid order.lastRef
    endpointId := s.endpointId
    namespaceEpoch := s.namespaceEpoch
    namespaceTicket := s.namespaceTicket
    publishedUpTo := sortByUuid order.publishedUpTo }

/-! ## The maps -/

omit [Keyhive] [Beekem] [Loro] [Postcard] in
theorem sortByUuid_of_perm {α : Type} {entries : List (DocumentUuid × α)}
    {m : BTreeMap DocumentUuid α} (h : entries.Perm m.toList) : sortByUuid entries = m.toList :=
  Keyed.mergeSort_eq_of_perm h m.ascending

omit [Keyhive] [Beekem] [Postcard] in
/-- A step that carries its key along keeps the keys of a list. -/
theorem map_fst_of_mapM {docs : List (DocumentUuid × LoroDoc)}
    {stored : List (DocumentUuid × Bytes)}
    (h : (docs.mapM fun entry => (snapshotDoc entry.2).map fun bytes => (entry.1, bytes)) =
      .ok stored) : stored.map Prod.fst = docs.map Prod.fst := by
  induction docs generalizing stored with
  | nil => rw [← Except.ok.inj h]; rfl
  | cons entry rest ih =>
      rw [List.mapM_cons] at h
      obtain ⟨b, hb, h⟩ := bind_eq_ok.mp h
      obtain ⟨bs, hbs, h⟩ := bind_eq_ok.mp h
      obtain rfl := Except.ok.inj h
      have hkey : b.1 = entry.1 := by
        cases hdoc : snapshotDoc entry.2 with
        | error e => rw [hdoc] at hb; exact absurd hb (by simp [Except.map])
        | ok bytes => rw [hdoc] at hb; rw [← Except.ok.inj hb]
      rw [List.map_cons, List.map_cons, hkey, ih hbs]

/-- A snapshot depends on the order of the member sets alone. -/
theorem snapshotIn_eq_ok {s : WorkspaceState} {order : Iteration s} {stored : WorkspaceSnapshot} :
    s.snapshotIn order = .ok stored ↔ s.snapshot order.sets = .ok stored := by
  have hsorted : ∀ {docs docs' : List (DocumentUuid × Bytes)}, docs.Perm docs' →
      (s.docs.toList.mapM fun entry => (snapshotDoc entry.2).map fun bytes => (entry.1, bytes)) =
        .ok docs' → sortByUuid docs = docs' := by
    intro docs docs' hperm hdocs'
    refine Keyed.mergeSort_eq_of_perm hperm ?_
    have hkeys : (docs'.map Prod.fst).Pairwise (· < ·) := by
      rw [map_fst_of_mapM hdocs', List.pairwise_map]
      exact s.docs.ascending
    exact List.pairwise_map.mp hkeys
  have hmaps : sortByUuid order.lastRef = s.lastRef.toList ∧
      sortByUuid order.publishedUpTo = s.publishedUpTo.toList :=
    ⟨sortByUuid_of_perm order.lastRef_perm, sortByUuid_of_perm order.publishedUpTo_perm⟩
  constructor
  · intro h
    obtain ⟨docs, hdocs, h⟩ := bind_eq_ok.mp h
    obtain ⟨manifest, hmanifest, h⟩ := bind_eq_ok.mp h
    obtain rfl := Except.ok.inj h
    obtain ⟨docs', hdocs', hperm⟩ := mapM_perm order.docs_perm hdocs
    refine bind_eq_ok.mpr ⟨docs', hdocs', bind_eq_ok.mpr ⟨manifest, hmanifest, ?_⟩⟩
    rw [hsorted hperm hdocs', hmaps.1, hmaps.2]
    rfl
  · intro h
    obtain ⟨docs', hdocs', h⟩ := bind_eq_ok.mp h
    obtain ⟨manifest, hmanifest, h⟩ := bind_eq_ok.mp h
    obtain rfl := Except.ok.inj h
    obtain ⟨docs, hdocs, hperm⟩ := mapM_perm order.docs_perm.symm hdocs'
    refine bind_eq_ok.mpr ⟨docs, hdocs, bind_eq_ok.mpr ⟨manifest, hmanifest, ?_⟩⟩
    rw [hsorted hperm.symm hdocs', hmaps.1, hmaps.2]
    rfl

/-! ## The member sets -/

/-- Two states with the same content, as far as it is stored. -/
structure SameContent (s t : WorkspaceState) : Prop where
  tree : s.cgka.cgka = t.cgka.cgka
  signer : s.cgka.signer = t.cgka.signer
  shareSecret : s.cgka.shareSecret = t.cgka.shareSecret
  knownMembers : s.cgka.knownMembers = t.cgka.knownMembers
  currentMembers : s.cgka.currentMembers = t.cgka.currentMembers
  founder : s.cgka.certs.founder = t.cgka.certs.founder
  certificates : ∀ cert, cert ∈ s.cgka.certs.certs ↔ cert ∈ t.cgka.certs.certs
  evictedOps : s.cgka.evictedOps = t.cgka.evictedOps
  secret : s.secret = t.secret
  manifest : s.manifest = t.manifest
  docs : ∀ entry, entry ∈ s.docs ↔ entry ∈ t.docs
  lastRef : ∀ entry, entry ∈ s.lastRef ↔ entry ∈ t.lastRef
  publishedUpTo : ∀ entry, entry ∈ s.publishedUpTo ↔ entry ∈ t.publishedUpTo
  endpointId : s.endpointId = t.endpointId
  namespaceEpoch : s.namespaceEpoch = t.namespaceEpoch
  namespaceTicket : s.namespaceTicket = t.namespaceTicket

theorem SameContent.refl (s : WorkspaceState) : SameContent s s :=
  ⟨rfl, rfl, rfl, rfl, rfl, rfl, fun _ => .rfl, rfl, rfl, rfl, fun _ => .rfl, fun _ => .rfl,
    fun _ => .rfl, rfl, rfl, rfl⟩

/-- Every replica of the state can be exported. -/
def Exportable (s : WorkspaceState) : Prop :=
  (∀ entry ∈ s.docs, ∃ bytes, snapshotDoc entry.2 = .ok bytes) ∧
    ∃ bytes, snapshotDoc s.manifest = .ok bytes

theorem exists_snapshot {s : WorkspaceState} (h : s.Exportable) (order : HashOrder) :
    ∃ stored, s.snapshot order = .ok stored ∧ stored.cgka = s.cgka.snapshot order := by
  obtain ⟨hdocs, manifest, hmanifest⟩ := h
  have hsteps : ∀ entry ∈ s.docs.toList, ∃ b,
      (snapshotDoc entry.2).map (fun bytes => (entry.1, bytes)) = .ok b ∧ True := by
    intro entry hentry
    obtain ⟨bytes, hbytes⟩ := hdocs entry hentry
    exact ⟨(entry.1, bytes), by rw [hbytes]; rfl, trivial⟩
  obtain ⟨docs, hstored, -⟩ := exists_mapM hsteps
  exact ⟨_, bind_eq_ok.mpr ⟨docs, hstored, bind_eq_ok.mpr ⟨manifest, hmanifest, rfl⟩⟩, rfl⟩

theorem exportable_of_snapshot {s : WorkspaceState} {order : HashOrder}
    {stored : WorkspaceSnapshot} (h : s.snapshot order = .ok stored) : s.Exportable := by
  obtain ⟨docs, hdocs, h⟩ := bind_eq_ok.mp h
  obtain ⟨manifest, hmanifest, -⟩ := bind_eq_ok.mp h
  refine ⟨fun entry hentry => ?_, manifest, hmanifest⟩
  obtain ⟨b, hb⟩ := exists_of_mapM hdocs hentry
  cases hdoc : snapshotDoc entry.2 with
  | error e => rw [hdoc] at hb; exact absurd hb (by simp [Except.map])
  | ok bytes => exact ⟨bytes, rfl⟩

/-- States of the same content store the same, but for the order of their member sets. -/
theorem SameContent.snapshot_eq {s t : WorkspaceState} (h : SameContent s t)
    {order order' : HashOrder}
    (hknown : order.iter s.cgka.knownMembers = order'.iter s.cgka.knownMembers)
    (hcurrent : order.iter s.cgka.currentMembers = order'.iter s.cgka.currentMembers) :
    s.snapshot order = t.snapshot order' := by
  have hcerts : s.cgka.certs.certificates = t.cgka.certs.certificates :=
    congrArg Certificates.toList (Certificates.ext_mem h.certificates)
  have hdocs : s.docs = t.docs := Keyed.ext_mem h.docs
  have hlast : s.lastRef = t.lastRef := Keyed.ext_mem h.lastRef
  have hpublished : s.publishedUpTo = t.publishedUpTo := Keyed.ext_mem h.publishedUpTo
  have hcgka : s.cgka.snapshot order = t.cgka.snapshot order' := by
    unfold CgkaController.snapshot
    rw [h.tree, h.signer, h.shareSecret, hknown, hcurrent, h.knownMembers, h.currentMembers,
      h.founder, hcerts, h.evictedOps]
  unfold WorkspaceState.snapshot
  rw [hcgka, hdocs, h.manifest, h.secret, hlast, h.endpointId, h.namespaceEpoch,
    h.namespaceTicket, hpublished]

/-- Identical state encodes to identical bytes exactly where neither member set has two
elements, or where there are no bytes since a replica cannot be exported. -/
theorem snapshot_deterministic_iff (s : WorkspaceState) :
    (∀ t, SameContent s t → ∀ (order : Iteration s) (order' : Iteration t)
      (stored stored' : WorkspaceSnapshot), s.snapshotIn order = .ok stored →
      t.snapshotIn order' = .ok stored' → stored = stored') ↔
    (s.cgka.knownMembers.card ≤ 1 ∧ s.cgka.currentMembers.card ≤ 1) ∨ ¬ s.Exportable := by
  constructor
  · intro h
    by_cases hexport : s.Exportable
    · refine Or.inl ?_
      let order : HashOrder := ⟨Finset.toList, fun set m => Finset.mem_toList,
        fun set => set.nodup_toList⟩
      obtain ⟨stored, hstored, hcgka⟩ := exists_snapshot hexport order
      obtain ⟨stored', hstored', hcgka'⟩ := exists_snapshot hexport order.reversed
      have heq : stored = stored' := h s (.refl s) (.ascending s order)
        (.ascending s order.reversed) stored stored' (snapshotIn_eq_ok.mpr hstored)
        (snapshotIn_eq_ok.mpr hstored')
      have hsame : s.cgka.snapshot order = s.cgka.snapshot order.reversed := by
        rw [← hcgka, ← hcgka', heq]
      constructor
      · by_contra hcard
        exact HashOrder.iter_reversed_ne (not_le.mp hcard) order
          (congrArg CgkaSnapshot.knownMembers hsame).symm
      · by_contra hcard
        exact HashOrder.iter_reversed_ne (not_le.mp hcard) order
          (congrArg CgkaSnapshot.currentMembers hsame).symm
    · exact Or.inr hexport
  · rintro h t ht order order' stored stored' hstored hstored'
    rw [snapshotIn_eq_ok] at hstored hstored'
    rcases h with ⟨hknown, hcurrent⟩ | hexport
    · have hsame := ht.snapshot_eq (HashOrder.iter_unique hknown order.sets order'.sets)
        (HashOrder.iter_unique hcurrent order.sets order'.sets)
      rw [hsame, hstored'] at hstored
      exact (Except.ok.inj hstored).symm
    · exact absurd (exportable_of_snapshot hstored) hexport

end WorkspaceState

end IrohBeekem

namespace IrohBeekem

open Library WorkspaceState

section Samples

local instance iteratedKeyhive : Keyhive := transparentKeyhive

local instance iteratedBeekem : Beekem := listBeekem

local instance iteratedLoro : Loro := listLoro

local instance iteratedPostcard : Postcard := blankPostcard

/-- The founder of a workspace, once it has admitted a second device. -/
@[irreducible] def accompanied : WorkspaceState :=
  (after (Call.handle (.addUser 2 102 .admin "second" none) 0).run (sampleWorkspace 1, (1 : Nat))).1

/-- What a snapshot lists as the members it knows. -/
def listed (order : HashOrder) : Option (List Bytes32) :=
  (accompanied.snapshotIn (.ascending accompanied order)).toOption.map fun stored =>
    stored.cgka.knownMembers

/-- Two devices have two orders. -/
theorem snapshot_nondeterministic_accompanied :
    ¬ ∀ (s t : WorkspaceState), Reachable s → Reachable t → SameContent s t →
      ∀ (order : Iteration s) (order' : Iteration t) (stored stored' : WorkspaceSnapshot),
      s.snapshotIn order = .ok stored → t.snapshotIn order' = .ok stored' → stored = stored' := by
  intro h
  have hreach : Reachable accompanied := by
    unfold accompanied
    exact .call (sampleWorkspace_reachable (by decide +kernel)) _ _
  have hlisted : ∀ {order : HashOrder} {known : List Bytes32}, listed order = some known →
      ∃ stored, accompanied.snapshotIn (.ascending accompanied order) = .ok stored ∧
        stored.cgka.knownMembers = known := by
    intro order known hlisted
    obtain ⟨stored, hstored, hknown⟩ := Option.map_eq_some_iff.mp hlisted
    cases hrun : accompanied.snapshotIn (.ascending accompanied order) with
    | error e => rw [hrun] at hstored; exact absurd hstored (by simp [Except.toOption])
    | ok stored' => rw [hrun] at hstored; exact ⟨stored', rfl, Option.some.inj hstored ▸ hknown⟩
  have hforth : listed ascendingOrder = some [1, 2] := by decide +kernel
  have hback : listed ascendingOrder.reversed = some [2, 1] := by decide +kernel
  obtain ⟨stored, hstored, hknown⟩ := hlisted hforth
  obtain ⟨stored', hstored', hknown'⟩ := hlisted hback
  have heq := h accompanied accompanied hreach hreach (.refl _) _ _ stored stored' hstored hstored'
  rw [heq, hknown'] at hknown
  exact absurd hknown (by decide)

end Samples

end IrohBeekem
