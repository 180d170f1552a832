import IrohBeekem.Keys.Join
import IrohBeekem.State.Call

/-!
# Replicas as lists

A replica that is a list of entries beside a text, for evaluating the state machine
on concrete inputs together with the key agreement over lists.  Neither ever fails a
call that has begun to change the tree, so the two together are steady, and who
holds a leaf decides what a removal does.
-/

namespace IrohBeekem

open Library WorkspaceState

/-- A replica: what its maps hold, its text, and how often it was written to. -/
structure ListDoc where
  entries : List (MapPath × String × LoroEntry)
  text : String
  clock : Nat

namespace ListDoc

/-- What a map holds under a key. -/
def get (d : ListDoc) (map : MapPath) (key : String) : Option LoroEntry :=
  (d.entries.find? fun e => e.1 = map ∧ e.2.1 = key).map fun e => e.2.2

/-- Write an entry, which replaces the one under its key. -/
def put (map : MapPath) (key : String) (entry : LoroEntry) (d : ListDoc) : ListDoc :=
  { d with entries := (map, key, entry) :: d.entries, clock := d.clock + 1 }

theorem get_put (map map' : MapPath) (key key' : String) (entry : LoroEntry) (d : ListDoc) :
    (d.put map key entry).get map' key' =
      if map = map' ∧ key = key' then some entry else d.get map' key' := by
  unfold get put
  rw [List.find?_cons]
  by_cases h : map = map' ∧ key = key'
  · simp [h]
  · simp [h]

/-- The version: one byte for every write. -/
def version (d : ListDoc) : Bytes := List.replicate d.clock 0

def setText (text : String) (d : ListDoc) : ListDoc := { d with text, clock := d.clock + 1 }

end ListDoc

@[reducible] def listLoro : Loro where
  LoroDoc := ListDoc
  new := ⟨[], "", 0⟩
  setChangeMergeInterval _ d := d
  peerId _ := 0
  get := ListDoc.get
  keys d map := ((d.entries.filter fun e => e.1 = map).map fun e => e.2.1).dedup
  insert map key value := fun d => .ok () (d.put map key (.string value))
  insertContainer name key := fun d => .ok () (d.put (.root name) key .map)
  delete map key := fun d =>
    .ok () { d with entries := d.entries.filter fun e => ¬ (e.1 = map ∧ e.2.1 = key) }
  commit d := d
  commitWith _ d := d
  text := ListDoc.text
  lenUnicode d := d.text.length
  insertText pos text := fun d =>
    .ok () (d.setText (String.ofList (d.text.toList.take pos ++ text.toList ++ d.text.toList.drop pos)))
  deleteText pos len := fun d =>
    .ok () (d.setText (String.ofList (d.text.toList.take pos ++ d.text.toList.drop (pos + len))))
  updateText text := fun d => .ok () (d.setText text)
  exportAs _ d := .ok d.text.toUTF8.data.toList
  importBytes bytes := fun d => .ok false (d.setText (String.ofList (bytes.map fun b => Char.ofNat b.toNat)))
  oplogVv := ListDoc.version
  decodesVv _ := true
  oplogFrontiers := ListDoc.version
  decodesFrontiers _ := true
  revertTo _ := fun d => .ok () { d with clock := d.clock + 1 }

/-- An encoding that keeps nothing: no sample stores a record it covers. -/
@[reducible] def blankPostcard : Postcard where
  encodeMeta _ := []
  decodeMeta _ := none
  encodeVersion _ := []
  decodeVersion _ := none
  encodeCheckpoint _ := []
  decodeCheckpoint _ := none

section Laws

local instance steadyBeekem : Beekem := listBeekem

local instance steadyLoro : Loro := listLoro

private theorem keyable_list (g : Cgka) : Keyable g := by
  intro ref content predRefs signer rng
  change ∃ r p, ListCgka.newAppSecretFor ref content predRefs signer (g, rng) = .ok r p
  unfold ListCgka.newAppSecretFor
  cases hkeyed : ListCgka.keyed g with
  | none => exact ⟨_, _, rfl⟩
  | some id => exact ⟨_, _, rfl⟩

theorem listSteady : Steady where
  encrypts _ _ := ⟨_, rfl⟩
  keyable_update _ _ _ _ _ _ _ := keyable_list _
  keyable_secret _ _ _ _ _ _ _ _ := keyable_list _
  keyable_add _ _ _ _ _ _ _ _ := keyable_list _
  merges := listBeekem_live.mergeConcurrentOperation_ok
  exports _ _ := ⟨_, rfl⟩
  inserts map key value d := by
    refine ⟨_, rfl, fun name key' hne hmap => ?_⟩
    change (ListDoc.put map key (.string value) d).get (.root name) key' = some .map
    rw [ListDoc.get_put, if_neg fun h => hne h.1]
    exact hmap
  insertsContainer name key d := by
    refine ⟨_, rfl, ?_⟩
    change (ListDoc.put (.root name) key .map d).get (.root name) key = some .map
    rw [ListDoc.get_put, if_pos ⟨rfl, rfl⟩]
  commits _ _ _ h := h

/-- Who holds a leaf of a list. -/
def listLeaves (g : ListCgka) : Finset Bytes32 := g.leaves.toFinset

theorem listRoster : WorkspaceState.Roster listLeaves where
  absent member signer g h := by
    refine ⟨g, ?_, rfl⟩
    have hnot : member ∉ ListCgka.leaves g := fun hmem => h (List.mem_toFinset.mpr hmem)
    change ListCgka.removeLeaf member signer g = .ok none g
    unfold ListCgka.removeLeaf
    rw [if_pos hnot]
  last member signer g h := by
    have hmem : member ∈ ListCgka.leaves g := by
      have hmem : member ∈ listLeaves g := h ▸ Finset.mem_singleton_self member
      exact List.mem_toFinset.mp hmem
    have hall : (ListCgka.leaves g).all (· = member) = true := by
      rw [List.all_eq_true]
      intro m hm
      have hm' : m ∈ listLeaves g := List.mem_toFinset.mpr hm
      simpa using Finset.mem_singleton.mp (h ▸ hm')
    refine ⟨.removeLastMember, g, ?_⟩
    change ListCgka.removeLeaf member signer g = _
    unfold ListCgka.removeLeaf
    rw [if_neg (not_not.mpr hmem), if_pos hall]
  present member signer g hmem hlast := by
    have hmem' : member ∈ ListCgka.leaves g := List.mem_toFinset.mp hmem
    have hall : ¬ (ListCgka.leaves g).all (· = member) = true := by
      intro hall
      refine hlast (Finset.eq_singleton_iff_unique_mem.mpr ⟨hmem, fun m hm => ?_⟩)
      simpa using List.all_eq_true.mp hall m (List.mem_toFinset.mp hm)
    refine ⟨_, _, (if_neg (not_not.mpr hmem')).trans (if_neg hall), ?_⟩
    ext m
    simp [listLeaves, ListCgka.mint, ListCgka.push, and_comm]

end Laws

/-- Insertions into an ordered set may be made in any order. -/
local instance insertCommutes :
    LeftCommutative fun (a : Bytes32) (m : BTreeSet Bytes32) => m.insert a where
  left_comm a b m := by
    refine Keyed.ext_mem fun x => ?_
    simp only [BTreeSet.mem_insert]
    exact or_left_comm

/-- Hash sets enumerated in ascending order. -/
def ascendingOrder : HashOrder where
  iter set := (set.val.foldr (fun a (m : BTreeSet Bytes32) => m.insert a) .empty).toList
  mem_iter set m := by
    have hmem : ∀ l : Multiset Bytes32,
        m ∈ l.foldr (fun a (m : BTreeSet Bytes32) => m.insert a) .empty ↔ m ∈ l := by
      intro l
      induction l using Multiset.induction with
      | empty => simp [Keyed.not_mem_empty]
      | cons a l ih =>
          rw [Multiset.foldr_cons, BTreeSet.mem_insert, Multiset.mem_cons, ih]
    exact hmem set.val
  nodup_iter set := (Keyed.ascending _).imp fun h => ne_of_lt h

/-! ## The sample workspace -/

section Samples

local instance sampleKeyhive : Keyhive := transparentKeyhive

local instance sampleBeekem : Beekem := listBeekem

variable [Loro] [Postcard]

/-- The sample founder, device `1`, of a tree named after its key. -/
def rootedFounder : CgkaController := { sampleFounder with cgka := ListCgka.new 1 1 0 1 }

/-- The state it founds at this threshold. -/
def sampleWorkspace (threshold : U32) : WorkspaceState :=
  match WorkspaceState.found rootedFounder 9 threshold with
  | .ok s => s
  | .error _ => joined rootedFounder 9 0

omit [Loro] [Postcard] in
theorem create_rootedFounder :
    CgkaController.create 1 1 (0 : Nat) = (.ok rootedFounder, (1 : Nat)) :=
  rfl

omit [Postcard] in
theorem found_sampleWorkspace {threshold : U32}
    (h : (WorkspaceState.found rootedFounder 9 threshold).toOption.isSome = true) :
    WorkspaceState.found rootedFounder 9 threshold = .ok (sampleWorkspace threshold) := by
  unfold sampleWorkspace
  cases hfound : WorkspaceState.found rootedFounder 9 threshold with
  | ok s => rfl
  | error err =>
      rw [hfound] at h
      exact absurd h (by simp [Except.toOption])

theorem sampleWorkspace_reachable {threshold : U32}
    (h : (WorkspaceState.found rootedFounder 9 threshold).toOption.isSome = true) :
    Reachable (sampleWorkspace threshold) :=
  .found create_rootedFounder (found_sampleWorkspace h)

omit [Postcard] in
theorem sampleWorkspace_founded {threshold : U32}
    (h : (WorkspaceState.found rootedFounder 9 threshold).toOption.isSome = true) :
    Founded (sampleWorkspace threshold) :=
  ⟨_, _, _, _, _, _, _, create_rootedFounder, found_sampleWorkspace h⟩

/-- Whoever holds this key joins from a member's log and certificates, if they let
it. -/
def joinedWorkspace (s : WorkspaceState) (signer secret : Bytes32) : WorkspaceState :=
  match CgkaController.join s.cgka.treeId signer secret s.cgka.cgka.log.reverse
      s.cgka.certs.certificates with
  | .ok c => joined c s.secret s.namespaceEpoch.epoch
  | .error _ => s

theorem Reachable.joinedWorkspace {s : WorkspaceState} (h : Reachable s)
    (signer secret : Bytes32) : Reachable (joinedWorkspace s signer secret) := by
  unfold IrohBeekem.joinedWorkspace
  split
  · next c hjoin => exact .joined _ _ hjoin
  · exact h

omit [Postcard] in
theorem joined_joinedWorkspace {s : WorkspaceState} {signer secret : Bytes32}
    (h : (CgkaController.join s.cgka.treeId signer secret s.cgka.cgka.log.reverse
      s.cgka.certs.certificates).toOption.isSome = true) :
    Joined (joinedWorkspace s signer secret) := by
  unfold IrohBeekem.joinedWorkspace
  split
  · next c hjoin => exact ⟨_, _, _, _, _, _, _, c, hjoin, rfl⟩
  · next err hjoin =>
      rw [hjoin] at h
      exact absurd h (by simp [Except.toOption])

/-- The operations a call broadcasts, with the certificates that go with each. -/
def sentBy (call : Call) (p : WorkspaceState × Rng) : List (ControlOp × List Certificate) :=
  match call.run p with
  | .ok effects _ => sent effects
  | .error _ _ => []

theorem run_of_sentBy {call : Call} {p : WorkspaceState × Rng}
    {x : ControlOp × List Certificate} (h : x ∈ sentBy call p) :
    ∃ effects, call.run p = .ok effects (after call.run p) ∧ .broadcastOp x.1 x.2 ∈ effects := by
  unfold sentBy at h
  unfold after
  cases hrun : call.run p with
  | error err p' =>
      rw [hrun] at h
      exact absurd h List.not_mem_nil
  | ok effects p' =>
      rw [hrun] at h
      exact ⟨effects, rfl, mem_sent.mp h⟩

end Samples

end IrohBeekem
