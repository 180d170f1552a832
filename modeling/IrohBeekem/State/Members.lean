import IrohBeekem.Library.LastWord
import IrohBeekem.State.ListModel
import IrohBeekem.State.Reach

/-!
# Who is a member, and who may connect

`currentMembers` is kept up to date one operation at a time, in the order in which a node
came to hold them.  `Seated` records that order: it is causal, it starts from nothing, and
the members are what it leaves.  Whether somebody is a member is then the last word of
that order, and two nodes that hold the same operations agree on it whenever the causally
latest operations about each member are all additions or all removals.
-/

set_option linter.unusedSectionVars false

namespace IrohBeekem

open Library CgkaController WorkspaceState

variable [Keyhive] [Beekem] [Loro] [Postcard]

namespace WorkspaceState

section Sorting

omit [Keyhive] [Beekem] [Loro] [Postcard]

theorem pairwise_sorted (l : List Bytes32) : (l.mergeSort fun a b => a ≤ b).Pairwise (· ≤ ·) := by
  have htrans : ∀ a b c : Bytes32, decide (a ≤ b) = true → decide (b ≤ c) = true →
      decide (a ≤ c) = true := by
    intro a b c hab hbc
    simpa using (of_decide_eq_true hab).trans (of_decide_eq_true hbc)
  have htotal : ∀ a b : Bytes32, (decide (a ≤ b) || decide (b ≤ a)) = true := by
    intro a b
    simpa using le_total a b
  simpa using List.pairwise_mergeSort htrans htotal l

/-- Sorting and dropping repetitions loses and adds nothing. -/
theorem mem_sorted_dedup {l : List Bytes32} {x : Bytes32} :
    x ∈ (l.mergeSort fun a b => a ≤ b).destutter (· ≠ ·) ↔ x ∈ l := by
  rw [(pairwise_sorted l).destutter_eq_dedup, List.mem_dedup, List.mem_mergeSort]

/-- Sorting and dropping repetitions depends only on which elements there are. -/
theorem sorted_dedup_congr {l l' : List Bytes32} (h : ∀ x, x ∈ l ↔ x ∈ l') :
    (l.mergeSort fun a b => a ≤ b).destutter (· ≠ ·) =
      (l'.mergeSort fun a b => a ≤ b).destutter (· ≠ ·) := by
  have hdedup : ∀ l : List Bytes32, (l.mergeSort fun a b => a ≤ b).dedup.Pairwise (· ≤ ·) :=
    fun l => (pairwise_sorted l).sublist (List.dedup_sublist _)
  rw [(pairwise_sorted l).destutter_eq_dedup, (pairwise_sorted l').destutter_eq_dedup]
  refine List.Perm.eq_of_pairwise' (hdedup l) (hdedup l') ?_
  refine (List.perm_ext_iff_of_nodup (List.nodup_dedup _) (List.nodup_dedup _)).mpr fun x => ?_
  rw [List.mem_dedup, List.mem_dedup, List.mem_mergeSort, List.mem_mergeSort]
  exact h x

end Sorting

/-- The transport addresses to accept connections from: every certified device that is
still a member and has published one. -/
def roster (s : WorkspaceState) : List Bytes32 :=
  let out := ((s.manifest.devices.filter fun device =>
      s.capabilities.isCertifiedDevice device.member).filter fun device =>
      device.member ∈ s.cgka.currentMembers).filterMap DeviceDisplay.endpointId
  (out.mergeSort fun a b => a ≤ b).destutter (· ≠ ·)

theorem mem_roster {s : WorkspaceState} {endpoint : Bytes32} :
    endpoint ∈ s.roster ↔ ∃ device ∈ s.manifest.devices,
      s.capabilities.isCertifiedDevice device.member = true ∧
        device.member ∈ s.cgka.currentMembers ∧ device.endpointId = some endpoint := by
  unfold roster
  rw [mem_sorted_dedup]
  simp only [List.mem_filterMap, List.mem_filter, decide_eq_true_eq]
  constructor
  · rintro ⟨device, ⟨⟨hdevice, hcertified⟩, hmember⟩, hendpoint⟩
    exact ⟨device, hdevice, hcertified, hmember, hendpoint⟩
  · rintro ⟨device, hdevice, hcertified, hmember, hendpoint⟩
    exact ⟨device, ⟨⟨hdevice, hcertified⟩, hmember⟩, hendpoint⟩

/-- Nodes that list and certify the same devices and have the same members have one
roster. -/
theorem roster_congr {s s' : WorkspaceState}
    (hdevices : ∀ device, device ∈ s.manifest.devices ↔ device ∈ s'.manifest.devices)
    (hcerts : ∀ m, s.capabilities.isCertifiedDevice m = s'.capabilities.isCertifiedDevice m)
    (hmembers : s.cgka.currentMembers = s'.cgka.currentMembers) : s.roster = s'.roster := by
  unfold roster
  refine sorted_dedup_congr fun x => ?_
  simp only [List.mem_filterMap, List.mem_filter, hdevices, hcerts, hmembers]

end WorkspaceState

/-! ## One member's operations -/

omit [Keyhive] [Loro] [Postcard] in
/-- Whether an operation makes somebody a member, makes them none, or neither. -/
def seats (m : Bytes32) (op : ControlOp) : Option Bool :=
  match op.payload with
  | .add _ added _ _ _ => if added = m then some true else none
  | .remove _ removed _ _ => if removed = m then some false else none
  | .update _ _ _ => none

omit [Keyhive] [Loro] [Postcard] in
theorem mem_seat_iff (m : Bytes32) (members : Finset Bytes32) (op : ControlOp) :
    m ∈ seat members op ↔ (seats m op).getD (decide (m ∈ members)) = true := by
  unfold seat seats
  cases op.payload with
  | add doc added pk preds detail =>
      by_cases hadded : added = m
      · simp [hadded]
      · simp [hadded, Ne.symm hadded]
  | remove doc removed preds detail =>
      by_cases hremoved : removed = m
      · simp [hremoved]
      · simp [hremoved, Ne.symm hremoved]
  | update doc preds detail => simp

omit [Keyhive] [Loro] [Postcard] in
/-- Whoever the last operation about them added is a member. -/
theorem mem_foldl_seat_iff (m : Bytes32) (ops : List ControlOp) :
    m ∈ ops.foldl seat ∅ ↔ lastWord (seats m) ops = some true := by
  induction ops using List.reverseRecOn with
  | nil => simp
  | append_singleton ops op ih =>
      rw [List.foldl_append, List.foldl_cons, List.foldl_nil, mem_seat_iff, lastWord_concat]
      cases hop : seats m op with
      | some flag => simp
      | none => simp [ih]

omit [Keyhive] [Loro] [Postcard] in
/-- For every member, the causally latest operations about it all add it or all remove
it. -/
def Unrivalled (ops : Set ControlOp) : Prop := ∀ m, Unanimous Before (seats m) ops

/-! ## Causal orders -/

section Orders

variable [LawfulBeekem]

omit [Keyhive] [Loro] [Postcard] in
/-- Whatever precedes an operation is held where predecessors of the held are held. -/
theorem mem_of_before {held : Set ControlOp} {a b : ControlOp} (hbefore : Before a b)
    (hclosed : ∀ op ∈ held, ∀ h ∈ op.payload.predecessors, ∃ p ∈ held, opHash p = h)
    (hb : ∀ h ∈ b.payload.predecessors, ∃ p ∈ held, opHash p = h) : a ∈ held := by
  induction hbefore with
  | direct h =>
      obtain ⟨p, hp, hhash⟩ := hb _ h
      exact LawfulBeekem.opHash_injective hhash ▸ hp
  | step hab h ih =>
      obtain ⟨p, hp, hhash⟩ := hb _ h
      cases LawfulBeekem.opHash_injective hhash
      exact ih (hclosed _ hp)

omit [Keyhive] [Loro] [Postcard] [LawfulBeekem] in
theorem TakenIn.not_mem {held : Set ControlOp} {l : List ControlOp} (h : TakenIn held l) :
    ∀ op ∈ l, op ∉ held := by
  induction l generalizing held with
  | nil => simp
  | cons op rest ih =>
      intro a ha
      rcases List.mem_cons.mp ha with rfl | ha
      · exact h.1.1
      · exact fun hheld => ih h.2 a ha (Set.mem_insert_of_mem _ hheld)

omit [Keyhive] [Loro] [Postcard] [LawfulBeekem] in
theorem TakenIn.nodup {held : Set ControlOp} {l : List ControlOp} (h : TakenIn held l) :
    l.Nodup := by
  induction l generalizing held with
  | nil => exact List.nodup_nil
  | cons op rest ih =>
      refine List.nodup_cons.mpr ⟨fun hmem => ?_, ih h.2⟩
      exact h.2.not_mem op hmem (Set.mem_insert _ _)

omit [Keyhive] [Loro] [Postcard] in
/-- Operations taken in one after the other stand in causal order. -/
theorem TakenIn.respects {held : Set ControlOp} {l : List ControlOp} (h : TakenIn held l)
    (hclosed : ∀ op ∈ held, ∀ h ∈ op.payload.predecessors, ∃ p ∈ held, opHash p = h) :
    Respects Before l ∧ ∀ op ∈ l, ¬ Before op op := by
  induction l generalizing held with
  | nil => exact ⟨List.Pairwise.nil, by simp⟩
  | cons op rest ih =>
      have hnext : ∀ a ∈ insert op held, ∀ h ∈ a.payload.predecessors,
          ∃ p ∈ insert op held, opHash p = h := by
        intro a ha hash hhash
        have hfound : ∃ p ∈ held, opHash p = hash := by
          rcases Set.mem_insert_iff.mp ha with rfl | ha
          · exact h.1.2 hash hhash
          · exact hclosed a ha hash hhash
        obtain ⟨p, hp, hp'⟩ := hfound
        exact ⟨p, Set.mem_insert_of_mem _ hp, hp'⟩
      obtain ⟨hrest, hirrefl⟩ := ih h.2 hnext
      refine ⟨List.pairwise_cons.mpr ⟨fun b hb hbefore => ?_, hrest⟩, fun a ha => ?_⟩
      · have hheld := mem_of_before hbefore hclosed h.1.2
        exact h.2.not_mem b hb (Set.mem_insert_of_mem _ hheld)
      · rcases List.mem_cons.mp ha with rfl | ha
        · exact fun hself => h.1.1 (mem_of_before hself hclosed h.1.2)
        · exact hirrefl a ha

omit [Keyhive] [Loro] [Postcard] [LawfulBeekem] in
/-- Operations in causal order can be taken in one after the other, when what they name is
there or among them. -/
theorem takenIn_of_respects {held : Set ControlOp} {l : List ControlOp} (hnodup : l.Nodup)
    (horder : Respects Before l) (hirrefl : ∀ op ∈ l, ¬ Before op op)
    (hnew : ∀ op ∈ l, op ∉ held)
    (hclosed : ∀ op ∈ l, ∀ h ∈ op.payload.predecessors, ∃ p, (p ∈ held ∨ p ∈ l) ∧ opHash p = h) :
    TakenIn held l := by
  induction l generalizing held with
  | nil => trivial
  | cons op rest ih =>
      obtain ⟨hop, hrest⟩ := List.nodup_cons.mp hnodup
      obtain ⟨hfirst, hlater⟩ := List.pairwise_cons.mp horder
      refine ⟨⟨hnew op List.mem_cons_self, fun h hh => ?_⟩, ?_⟩
      · obtain ⟨p, hp, rfl⟩ := hclosed op List.mem_cons_self h hh
        have hbefore : Before p op := .direct hh
        rcases hp with hp | hp
        · exact ⟨p, hp, rfl⟩
        · rcases List.mem_cons.mp hp with rfl | hp
          · exact absurd hbefore (hirrefl p List.mem_cons_self)
          · exact absurd hbefore (hfirst p hp)
      · refine ih hrest hlater (fun a ha => hirrefl a (List.mem_cons_of_mem _ ha)) ?_ ?_
        · intro a ha hmem
          rcases Set.mem_insert_iff.mp hmem with rfl | hmem
          · exact hop ha
          · exact hnew a (List.mem_cons_of_mem _ ha) hmem
        · intro a ha h hh
          obtain ⟨p, hp, hp'⟩ := hclosed a (List.mem_cons_of_mem _ ha) h hh
          refine ⟨p, ?_, hp'⟩
          rw [List.mem_cons] at hp
          rw [Set.mem_insert_iff]
          tauto

omit [Keyhive] [Loro] [Postcard] [LawfulBeekem] in
theorem TakenIn.closed {held : Set ControlOp} {l : List ControlOp} (h : TakenIn held l) :
    ∀ op ∈ l, ∀ h ∈ op.payload.predecessors, ∃ p, (p ∈ held ∨ p ∈ l) ∧ opHash p = h := by
  induction l generalizing held with
  | nil => simp
  | cons op rest ih =>
      intro a ha hash hhash
      rcases List.mem_cons.mp ha with rfl | ha
      · obtain ⟨p, hp, hp'⟩ := h.1.2 hash hhash
        exact ⟨p, Or.inl hp, hp'⟩
      · obtain ⟨p, hp, hp'⟩ := ih h.2 a ha hash hhash
        refine ⟨p, ?_, hp'⟩
        rw [Set.mem_insert_iff] at hp
        rw [List.mem_cons]
        tauto

/-- A causal order of all operations of a set, from the first one on. -/
structure Arrangement (ops : Set ControlOp) (l : List ControlOp) : Prop where
  order : TakenIn ∅ l
  mem : ∀ op, op ∈ l ↔ op ∈ ops

omit [Keyhive] [Loro] [Postcard] in
theorem Arrangement.respects {ops : Set ControlOp} {l : List ControlOp} (h : Arrangement ops l) :
    Respects Before l ∧ ∀ op ∈ l, ¬ Before op op :=
  h.order.respects fun _ hop => absurd hop (Set.notMem_empty _)

omit [Keyhive] [Loro] [Postcard] in
/-- Another arrangement that respects the causal order is one as well. -/
theorem Arrangement.perm {ops : Set ControlOp} {l l' : List ControlOp} (h : Arrangement ops l)
    (hperm : l'.Perm l) (horder : Respects Before l') : Arrangement ops l' where
  order := by
    refine takenIn_of_respects (hperm.nodup_iff.mpr h.order.nodup) horder ?_ ?_ ?_
    · exact fun op hop => h.respects.2 op (hperm.mem_iff.mp hop)
    · exact fun op _ => Set.notMem_empty op
    · intro op hop hash hhash
      simpa only [hperm.mem_iff] using h.order.closed op (hperm.mem_iff.mp hop) hash hhash
  mem op := hperm.mem_iff.trans (h.mem op)

omit [Keyhive] [Loro] [Postcard] in
/-- Where nothing is rivalled, all causal orders leave the same members. -/
theorem Arrangement.members_eq {ops : Set ControlOp} {l l' : List ControlOp} (h : Arrangement ops l)
    (h' : Arrangement ops l') (hops : Unrivalled ops) : l.foldl seat ∅ = l'.foldl seat ∅ := by
  have hset : { op | op ∈ l } = ops := Set.ext h.mem
  ext m
  rw [mem_foldl_seat_iff, mem_foldl_seat_iff]
  have hword : lastWord (seats m) l = lastWord (seats m) l' :=
    lastWord_congr h.respects.1 h'.respects.1 (fun op => (h.mem op).trans (h'.mem op).symm)
      (hset.symm ▸ hops m)
  rw [hword]

omit [Keyhive] [Loro] [Postcard] in
/-- Where something is, two causal orders leave different members. -/
theorem Arrangement.members_ne {ops : Set ControlOp} {l : List ControlOp} (h : Arrangement ops l)
    (hops : ¬ Unrivalled ops) :
    ∃ l₁ l₂, Arrangement ops l₁ ∧ Arrangement ops l₂ ∧ l₁.foldl seat ∅ ≠ l₂.foldl seat ∅ := by
  have hset : { op | op ∈ l } = ops := Set.ext h.mem
  unfold Unrivalled Unanimous at hops
  push Not at hops
  obtain ⟨m, a, b, ha, hb, hne⟩ := hops
  have htrans : ∀ a b c : ControlOp, Before a b → Before b c → Before a c :=
    fun _ _ _ => Before.trans
  obtain ⟨l₁, hperm₁, horder₁, hword₁⟩ :=
    exists_perm_lastWord htrans h.respects.1 (hset.symm ▸ ha)
  obtain ⟨l₂, hperm₂, horder₂, hword₂⟩ :=
    exists_perm_lastWord htrans h.respects.1 (hset.symm ▸ hb)
  refine ⟨l₁, l₂, h.perm hperm₁ horder₁, h.perm hperm₂ horder₂, fun heq => hne ?_⟩
  have hiff : lastWord (seats m) l₁ = some true ↔ lastWord (seats m) l₂ = some true := by
    rw [← mem_foldl_seat_iff, ← mem_foldl_seat_iff, heq]
  rw [hword₁, hword₂] at hiff
  obtain ⟨v, hv⟩ := Option.isSome_iff_exists.mp ha.speaks
  obtain ⟨w, hw⟩ := Option.isSome_iff_exists.mp hb.speaks
  rw [hv, hw] at hiff ⊢
  cases v <;> cases w <;> simp_all

end Orders

/-! ## Runs -/

omit [Loro] [Postcard] in
/-- The members are those some causal order of the operations leaves. -/
def Seated (c : CgkaController) : Prop :=
  ∃ l, Arrangement (graph c.cgka) l ∧ c.currentMembers = l.foldl seat ∅

omit [Loro] [Postcard] in
theorem Seated.evolve {c c' : CgkaController} {l : List ControlOp} {o : List AuthorizedOp}
    (h : Seated c) (he : Evolves c c' l o) : Seated c' := by
  obtain ⟨first, hfirst, hmembers⟩ := h
  have hheld : { op | op ∈ (∅ : Set ControlOp) ∨ op ∈ first } = graph c.cgka := by
    ext op
    simp [hfirst.mem]
  refine ⟨first ++ l, ⟨hfirst.order.append (hheld ▸ he.order), fun op => ?_⟩, ?_⟩
  · rw [he.tree.mem_graph, List.mem_append, hfirst.mem]
  · rw [he.members, hmembers, List.foldl_append]

omit [Loro] [Postcard] in
/-- A controller whose graph holds one operation that adds its one member. -/
theorem Seated.of_root {c : CgkaController} {root : ControlOp} {doc founder pk : Bytes32}
    {detail : Nat} (hgraph : graph c.cgka = {root})
    (hpayload : root.payload = .add doc founder pk [] detail)
    (hmembers : c.currentMembers = {founder}) : Seated c := by
  refine ⟨[root], ⟨⟨⟨Set.notMem_empty _, ?_⟩, trivial⟩, fun op => ?_⟩, ?_⟩
  · rw [hpayload]
    simp [CgkaOperation.predecessors]
  · rw [hgraph]
    simp
  · rw [hmembers]
    simp [seat, hpayload]

section Runs

variable [LawfulBeekem]

omit [Loro] [Postcard] in
theorem join_seated {treeId signer secret : Bytes32} {ops : List ControlOp}
    {certs : List Certificate} {c : CgkaController}
    (h : CgkaController.join treeId signer secret ops certs = .ok c) : Seated c := by
  obtain ⟨init, rest, doc, founderId, pk, detail, g, added, offered, -, hpayload, -, hgraph, -,
    hevolves⟩ := join_inv h
  have hstart : Seated (joining signer secret founderId g certs) :=
    Seated.of_root hgraph hpayload rfl
  exact hstart.evolve hevolves

/-- In every state a run reaches, the members are those a causal order leaves. -/
theorem Reachable.seated {s : WorkspaceState} (h : Reachable s) : Seated s.cgka := by
  induction h with
  | found hcreate hfound =>
      obtain ⟨pk, detail, hgraph, hpayload, -, -, -, -, -, hcurrent, -⟩ := create_inv hcreate
      exact (Seated.of_root hgraph hpayload hcurrent).evolve (found_spec hfound).1
  | joined secret epoch hjoin => exact join_seated hjoin
  | @call s _ call rng ih =>
      refine Wp.after (P := fun p : WorkspaceState × Rng => Seated p.1.cgka)
        ((call.moves s rng).mono ?_ ?_)
      · intro effects p h
        obtain ⟨added, hevolves⟩ := h.accounted.evolves
        exact ih.evolve hevolves
      · intro err p h
        obtain ⟨added, hevolves, -⟩ := h.evolves
        exact ih.evolve hevolves
  | @restart s _ order rng ih =>
      refine Wp.after (P := fun p : WorkspaceState × Rng => Seated p.1.cgka)
        ((restart_spec order s rng).mono ?_ ?_)
      · rintro _ p h
        obtain ⟨l, hl, hmembers⟩ := ih
        exact ⟨l, by rw [h.cgka]; exact hl, h.current.trans hmembers⟩
      · exact fun _ p h => h ▸ ih

/-- Nodes that hold the same operations have the same members, and the same roster where
they list and certify the same devices, as long as nobody's latest operations contradict
each other.  Where somebody's do, the same operations leave different members in another
causal order. -/
theorem membership_converges {s : WorkspaceState} (hs : Reachable s) :
    (Unrivalled (graph s.cgka.cgka) → ∀ s', Reachable s' →
      graph s'.cgka.cgka = graph s.cgka.cgka →
        s'.cgka.currentMembers = s.cgka.currentMembers ∧
        ((∀ device, device ∈ s'.manifest.devices ↔ device ∈ s.manifest.devices) →
          (∀ m, s'.capabilities.isCertifiedDevice m = s.capabilities.isCertifiedDevice m) →
            s'.roster = s.roster)) ∧
    (¬ Unrivalled (graph s.cgka.cgka) → ∃ l₁ l₂, Arrangement (graph s.cgka.cgka) l₁ ∧
      Arrangement (graph s.cgka.cgka) l₂ ∧ l₁.foldl seat ∅ ≠ l₂.foldl seat ∅) := by
  obtain ⟨l, hl, hmembers⟩ := hs.seated
  refine ⟨fun hops s' hs' hgraph => ?_, fun hops => hl.members_ne hops⟩
  obtain ⟨l', hl', hmembers'⟩ := hs'.seated
  rw [hgraph] at hl'
  have hsame : s'.cgka.currentMembers = s.cgka.currentMembers := by
    rw [hmembers, hmembers']
    exact hl'.members_eq hl hops
  exact ⟨hsame, fun hdevices hcerts => roster_congr hdevices hcerts hsame⟩

end Runs

end IrohBeekem

namespace IrohBeekem

open Library WorkspaceState

section Samples

local instance seatedKeyhive : Keyhive := transparentKeyhive

local instance seatedBeekem : Beekem := listBeekem

local instance seatedLawful : LawfulBeekem := listBeekem_live.toLawfulBeekem

local instance seatedLoro : Loro := listLoro

local instance seatedPostcard : Postcard := blankPostcard

/-- The founder admits a second administrator and user `3`. -/
@[irreducible] def shared : WorkspaceState × Rng :=
  runAll [.handle (.addUser 2 102 .admin "second" none) 0,
    .handle (.addUser 3 103 .viewer "third" none) 0] (sampleWorkspace 1, (1 : Nat))

/-- What a run of calls broadcasts. -/
def sentByAll : List Call → WorkspaceState × Rng → List AuthorizedOp
  | [], _ => []
  | call :: rest, p =>
      (sentBy call p).map (fun x => ⟨x.1, x.2⟩) ++ sentByAll rest (after call.run p)

/-- The founder removes user `3` and admits it again. -/
def wavering : List Call :=
  [.handle (.removeMember 3) 0, .handle (.addUser 3 104 .viewer "third" none) 0]

/-- The second administrator removes it too, without having seen either. -/
def resolute : List Call := [.handle (.removeMember 3) 0]

/-- Who takes in what was broadcast. -/
def hearing (ops : List AuthorizedOp) : List Call := ops.map fun a => .handle (.controlOp a) 0

/-- The founder acts, then hears of the other removal. -/
@[irreducible] def removedLast : WorkspaceState × Rng :=
  runAll (wavering ++ hearing (sentByAll resolute (joinedWorkspace shared.1 2 102, (50 : Nat))))
    shared

/-- The second administrator acts, then hears of the founder's change of mind. -/
@[irreducible] def addedLast : WorkspaceState × Rng :=
  runAll (resolute ++ hearing (sentByAll wavering shared))
    (joinedWorkspace shared.1 2 102, (50 : Nat))

private theorem shared_reachable : Reachable shared.1 := by
  unfold shared
  exact (sampleWorkspace_reachable (by decide +kernel)).calls _

private theorem removedLast_reachable : Reachable removedLast.1 := by
  unfold removedLast
  exact shared_reachable.calls _

private theorem addedLast_reachable : Reachable addedLast.1 := by
  unfold addedLast
  exact Reachable.calls (p := (joinedWorkspace shared.1 2 102, (50 : Nat)))
    (shared_reachable.joinedWorkspace 2 102) _

private theorem graph_addedLast :
    graph addedLast.1.cgka.cgka = graph removedLast.1.cgka.cgka := by
  have hin : ∀ op ∈ addedLast.1.cgka.cgka.log, op ∈ removedLast.1.cgka.cgka.log := by
    decide +kernel
  have hout : ∀ op ∈ removedLast.1.cgka.cgka.log, op ∈ addedLast.1.cgka.cgka.log := by
    decide +kernel
  ext op
  exact ⟨hin op, hout op⟩

/-- An operation that removes nobody. -/
def keepsAll {H : Type} : CgkaOperation H → Bool
  | .remove _ _ _ _ => false
  | _ => true

private theorem seats_of_keepsAll {m : Bytes32} {op : ControlOp} (h : keepsAll op.payload = true)
    (hsome : (seats m op).isSome) : seats m op = some true := by
  unfold seats at hsome ⊢
  cases hpayload : op.payload with
  | add doc added pk preds detail =>
      rw [hpayload] at hsome
      dsimp only at hsome ⊢
      split_ifs at hsome ⊢
      · rfl
      · simp at hsome
  | remove doc removed preds detail =>
      rw [hpayload] at h
      exact absurd h (by simp [keepsAll])
  | update doc preds detail =>
      rw [hpayload] at hsome
      simp at hsome

/-- Nobody was removed, so the second administrator, who holds what the founder holds, has
its three members. -/
theorem membership_converges_shared :
    (joinedWorkspace shared.1 2 102).cgka.currentMembers = {1, 2, 3} := by
  have hstays : ∀ op ∈ shared.1.cgka.cgka.log, keepsAll op.payload = true := by decide +kernel
  have hops : Unrivalled (graph shared.1.cgka.cgka) := by
    intro m a b ha hb
    have hseats : ∀ op ∈ graph shared.1.cgka.cgka, (seats m op).isSome → seats m op = some true :=
      fun op hop => seats_of_keepsAll (hstays op hop)
    rw [hseats a ha.mem ha.speaks, hseats b hb.mem hb.speaks]
  have hin : ∀ op ∈ (joinedWorkspace shared.1 2 102).cgka.cgka.log,
      op ∈ shared.1.cgka.cgka.log := by decide +kernel
  have hout : ∀ op ∈ shared.1.cgka.cgka.log,
      op ∈ (joinedWorkspace shared.1 2 102).cgka.cgka.log := by decide +kernel
  have hgraph : graph (joinedWorkspace shared.1 2 102).cgka.cgka = graph shared.1.cgka.cgka :=
    Set.ext fun op => ⟨hin op, hout op⟩
  have hsame := ((membership_converges shared_reachable).1 hops _
    (shared_reachable.joinedWorkspace 2 102) hgraph).1
  rw [hsame]
  decide +kernel

/-- Two nodes that hold the same operations and disagree on who is a member. -/
theorem rival_removals_diverge :
    ¬ ∀ s s' : WorkspaceState, Reachable s → Reachable s' →
      Beekem.initAddOp s.cgka.cgka = Beekem.initAddOp s'.cgka.cgka →
      graph s.cgka.cgka = graph s'.cgka.cgka →
        s.cgka.currentMembers = s'.cgka.currentMembers := by
  intro h
  have hsame := h addedLast.1 removedLast.1 addedLast_reachable removedLast_reachable
    (by decide +kernel) graph_addedLast
  have hstays : 3 ∈ addedLast.1.cgka.currentMembers := by decide +kernel
  rw [hsame] at hstays
  exact absurd hstays (by decide +kernel)

end Samples

end IrohBeekem
