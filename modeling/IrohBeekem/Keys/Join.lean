import IrohBeekem.Keys.Causal
import IrohBeekem.Keys.ListModel

/-!
# Joining from a member's log

`join` replays a whole history against the certificates of the present.  Every
operation of the history was authorised when it was made, by the certificates of
that time.  The replay does not ask about that time: `join_iff` says that a
member of a workspace of honest members can join from another's log exactly when
every operation of the log is authorised by the certificates that come with it.

The proof follows the loop.  `Replayed` is its invariant: the tree holds exactly
the operations replayed so far, the known members are those they introduced, and
nothing is parked.  The log is in causal order, so the predecessors of the next
operation are there, and its issuer, being introduced by one of them or their
causes, is known; what is left to fail is `authorize`.
-/

namespace IrohBeekem

open Library

variable [Keyhive] [Beekem]

/-! ## Workspaces of honest members -/

namespace CgkaController

/-- The local certificates permit adding this member. -/
def MayAdd (c : CgkaController) (member : Bytes32) : Prop :=
  authorize c.certs (.add 0 member 0 ([] : List OpHash) 0) c.signer = .ok ()

/-- The local certificates permit removing this member. -/
def MayRemove (c : CgkaController) (member : Bytes32) : Prop :=
  authorize c.certs (.remove 0 member ([] : List OpHash) 0) c.signer = .ok ()

instance (c : CgkaController) (member : Bytes32) : Decidable (c.MayAdd member) :=
  inferInstanceAs (Decidable (_ = _))

end CgkaController

open CgkaController

/-- The controllers of the honest members of one workspace: founded, joined from
another honest member's log, and changed by their own permitted methods and by
the operations of other honest members, in whatever order those arrive. -/
inductive Honest (root : ControlOp) : CgkaController → Prop where
  | create {treeId signer : Bytes32} {rng rng' : Rng} {c : CgkaController}
      (h : create treeId signer rng = (.ok c, rng')) (hroot : Beekem.initAddOp c.cgka = root) :
      Honest root c
  | join {c d : CgkaController} {log : List ControlOp} {signer secret : Bytes32}
      (hc : Honest root c) (hlog : c.opLog = .ok log)
      (h : join c.treeId signer secret log c.certs.certificates = .ok d) : Honest root d
  | certify {c : CgkaController} (p : Payload) (hc : Honest root c) :
      Honest root (after (certify p) c)
  | absorb {c : CgkaController} (bundle : List Certificate) (hc : Honest root c) :
      Honest root (after (absorbCertificates bundle) c)
  | add {c : CgkaController} (member key : Bytes32) (hc : Honest root c)
      (hmay : c.MayAdd member) : Honest root (after (addMember member key) c)
  | remove {c : CgkaController} (member : Bytes32) (hc : Honest root c)
      (hmay : c.MayRemove member) : Honest root (after (removeMember member) c)
  | rotate {c : CgkaController} (rng : Rng) (hc : Honest root c) :
      Honest root (after rotate (c, rng)).1
  | merge {c d : CgkaController} (op : ControlOp) (proof : List Certificate)
      (hc : Honest root c) (hd : Honest root d) (hop : op ∈ graph d.cgka) :
      Honest root (after (merge ⟨op, proof⟩) c)
  | pending {c : CgkaController} (hc : Honest root c) : Honest root (after mergePending c)

/-! ## The replay -/

/-- Where the replay stands: exactly the operations `done` are in the tree. -/
structure Replayed (root : ControlOp) (store : CapabilityStore) (member : Bytes32)
    (c : CgkaController) (done : List ControlOp) : Prop where
  initAddOp : Beekem.initAddOp c.cgka = root
  mem_graph : ∀ op, op ∈ graph c.cgka ↔ op ∈ done
  known : ∀ m, m ∈ c.knownMembers ↔ ∃ op ∈ done, op.payload.added? = some m
  current : c.currentMembers ⊆ c.knownMembers
  certs : c.certs = store
  parked : c.parked = []
  signer : c.signer = member
  memberId : c.memberId = member

section Replay

variable {root : ControlOp} {store : CapabilityStore} {member : Bytes32} {c : CgkaController}
variable {done : List ControlOp}

/-- Taking ownership of the tree does not move the replay. -/
theorem Replayed.withOwner [LawfulBeekem] (h : Replayed root store member c done) {g : Cgka}
    (hg : Grows c.cgka g []) : Replayed root store member { c with cgka := g } done :=
  { h with
    initAddOp := hg.initAddOp.trans h.initAddOp
    mem_graph := fun op => by simpa using (hg.mem_graph op).trans (by simp [h.mem_graph]) }

variable [LiveBeekem]

omit [LiveBeekem] in
/-- The two member sets are all that recording an operation touches. -/
private theorem recordMembership_fields (op : CgkaOperation OpHash) (c : CgkaController) :
    (recordMembership op c).cgka = c.cgka ∧ (recordMembership op c).certs = c.certs ∧
      (recordMembership op c).parked = c.parked := by
  cases op <;> exact ⟨rfl, rfl, rfl⟩

/-- With its predecessors present and its issuer known, a new operation is merged
exactly when it is authorised. -/
theorem mergeVerified_live {a : AuthorizedOp}
    (hpreds : ∀ h ∈ a.op.payload.predecessors, ∃ p ∈ graph c.cgka, opHash p = h)
    (hknown : a.op.issuer ∈ c.knownMembers) (hnew : a.op ∉ graph c.cgka) :
    Wp (mergeVerified a)
      (fun _ c' => authorize c.certs a.op.payload a.op.issuer = .ok () ∧
        Evolves c c' [a.op] [] ∧ c'.certs = c.certs ∧ c'.parked = c.parked)
      (fun _ _ => authorize c.certs a.op.payload a.op.issuer ≠ .ok ()) c := by
  have hcontains := (LawfulBeekem.containsPredecessors_iff c.cgka _).mpr hpreds
  unfold mergeVerified
  rw [wp_bind, wp_get]
  dsimp only
  rw [if_neg (not_not.mpr hcontains), if_neg (not_not.mpr hknown), wp_bind, wp_verdict]
  cases hauth : authorize c.certs a.op.payload a.op.issuer with
  | error err => exact fun hok => absurd hok (by simp)
  | ok u =>
      obtain ⟨applied, g, hrun⟩ := LiveBeekem.mergeConcurrentOperation_ok a.op c.cgka hpreds
      have hspec := (LawfulBeekem.mergeConcurrentOperation_spec a.op c.cgka).of_ok hrun
      cases applied with
      | false =>
          simp only [Bool.false_eq_true, if_false] at hspec
          exact absurd hspec.1 hnew
      | true =>
          simp only [if_true] at hspec
          dsimp only
          rw [wp_bind, wp_attempt, onTree, wp_zoom]
          unfold Wp
          rw [hrun]
          obtain ⟨-, hcerts, hparked⟩ :=
            recordMembership_fields a.op.payload { c with cgka := g }
          exact ⟨rfl, recordMembership_evolves c hspec.2 ⟨⟨hnew, hpreds⟩, trivial⟩ [], hcerts, hparked⟩

/-- The next operation of the log passes every check but the last, which decides. -/
theorem Replayed.merge (h : Replayed root store member c done) (hroot : IsRoot store.founder root)
    (hmem : root ∈ done) {op : ControlOp} (hgenuine : Genuine root op) (hnew : op ∉ done)
    (hpreds : ∀ h ∈ op.payload.predecessors, ∃ p ∈ done, opHash p = h) :
    Wp (CgkaController.merge (.bare op))
      (fun _ c' => authorize store op.payload op.issuer = .ok () ∧
        Replayed root store member c' (op :: done))
      (fun _ _ => authorize store op.payload op.issuer ≠ .ok ()) c := by
  have hpreds' : ∀ h ∈ op.payload.predecessors, ∃ p ∈ graph c.cgka, opHash p = h := by
    intro x hx
    obtain ⟨p, hp, hhash⟩ := hpreds x hx
    exact ⟨p, (h.mem_graph p).mpr hp, hhash⟩
  have hknown : op.issuer ∈ c.knownMembers := by
    obtain ⟨a, ha, hadded⟩ :=
      hgenuine.introduced hroot ((h.mem_graph root).mpr hmem) hpreds'
    exact (h.known op.issuer).mpr ⟨a, (h.mem_graph a).mp ha, hadded⟩
  have hbare : (c.certs.extend (AuthorizedOp.bare op).proof).2 = c.certs := by
    simp [CapabilityStore.extend, AuthorizedOp.bare, Certificates.stageAll]
  have hverify : ¬ ¬ verifyOp (AuthorizedOp.bare op).op = true :=
    not_not.mpr (hgenuine.verifies hroot)
  unfold CgkaController.merge
  rw [if_neg hverify, wp_bind, wp_modify, hbare]
  refine (mergeVerified_live (a := .bare op) hpreds' hknown
    fun hop => hnew ((h.mem_graph op).mp hop)).mono ?_ ?_
  · rintro outcome c' ⟨hauth, hevolves, hcerts, hparked⟩
    rw [h.certs] at hauth
    refine ⟨hauth,
      { initAddOp := hevolves.tree.initAddOp.trans h.initAddOp
        mem_graph := fun x => ?_
        known := fun m => ?_
        current := hevolves.current h.current
        certs := hcerts.trans h.certs
        parked := hparked.trans h.parked
        signer := hevolves.signer.trans h.signer
        memberId := hevolves.memberId.trans h.memberId }⟩
    · rw [hevolves.tree.mem_graph, h.mem_graph, List.mem_singleton, List.mem_cons]
      exact or_comm
    · rw [hevolves.known, h.known]
      simp [AuthorizedOp.bare, or_comm]
  · rintro e c' hauth
    rwa [h.certs] at hauth

/-- The conditions on what is left of the log for the replay to go on. -/
structure Replayable (root : ControlOp) (done rest : List ControlOp) : Prop where
  root_mem : root ∈ done
  genuine : ∀ op ∈ rest, Genuine root op
  nodup : (rest.reverse ++ done).Nodup
  causal : CausalOrder (rest.reverse ++ done)

omit [Keyhive] [LiveBeekem] in
theorem Replayable.next {op : ControlOp} {rest : List ControlOp}
    (h : Replayable root done (op :: rest)) :
    op ∉ done ∧ (∀ h ∈ op.payload.predecessors, ∃ p ∈ done, opHash p = h) ∧
      Replayable root (op :: done) rest := by
  have hnodup := h.nodup
  have hcausal := h.causal
  rw [List.reverse_cons, List.append_assoc, List.singleton_append] at hnodup hcausal
  exact ⟨(List.nodup_cons.mp (List.nodup_append.mp hnodup).2.1).1, hcausal.of_append.2,
    ⟨List.mem_cons_of_mem _ h.root_mem, fun x hx => h.genuine x (List.mem_cons_of_mem _ hx),
      hnodup, hcausal⟩⟩

/-- The loop of `join` replays what is left of the log when all of it is
authorised, and fails otherwise. -/
theorem Replayed.replay {rest : List ControlOp} {invited : Bool}
    (h : Replayed root store member c done) (hroot : IsRoot store.founder root)
    (hrest : Replayable root done rest) :
    Wp (CgkaController.replay rest invited)
      (fun invited' c' => (∀ op ∈ rest, authorize store op.payload op.issuer = .ok ()) ∧
        Replayed root store member c' (rest.reverse ++ done) ∧
        (invited' = true ↔ invited = true ∨ ∃ op ∈ rest, op.payload.added? = some member))
      (fun _ _ => ∃ op ∈ rest, authorize store op.payload op.issuer ≠ .ok ()) c := by
  induction rest generalizing c done invited with
  | nil => exact ⟨by simp, h, by simp⟩
  | cons op rest ih =>
      obtain ⟨hnew, hpreds, hnext⟩ := hrest.next
      -- once the operation is merged, the rest of the loop is the induction hypothesis
      have hstep : ∀ (c : CgkaController) (flag : Bool), Replayed root store member c done →
          (flag = true ↔ invited = true ∨ op.payload.added? = some member) →
          Wp (CgkaController.merge (.bare op) >>= fun _ => CgkaController.replay rest flag)
            (fun invited' c' =>
              (∀ x ∈ op :: rest, authorize store x.payload x.issuer = .ok ()) ∧
              Replayed root store member c' ((op :: rest).reverse ++ done) ∧
              (invited' = true ↔
                invited = true ∨ ∃ x ∈ op :: rest, x.payload.added? = some member))
            (fun _ _ => ∃ x ∈ op :: rest, authorize store x.payload x.issuer ≠ .ok ()) c := by
        intro c flag hc hflag
        refine (hc.merge hroot hrest.root_mem (hrest.genuine op List.mem_cons_self) hnew
          hpreds).seq ?_ ?_
        · rintro outcome c' ⟨hauth, hc'⟩
          refine (ih hc' hnext).mono ?_ ?_
          · rintro invited' c'' ⟨hall, hdone, hinvited⟩
            refine ⟨by simpa using ⟨hauth, hall⟩, by simpa using hdone, ?_⟩
            rw [hinvited, hflag]
            simp [or_assoc]
          · rintro e c'' ⟨x, hx, hne⟩
            exact ⟨x, List.mem_cons_of_mem _ hx, hne⟩
        · exact fun e c' hne => ⟨op, List.mem_cons_self, hne⟩
      unfold CgkaController.replay
      rw [wp_bind, wp_get]
      cases hop : op.payload with
      | add doc added pk preds detail =>
          have hadded : op.payload.added? = some added := by rw [hop]; rfl
          dsimp only
          split_ifs with hmine
          · obtain ⟨g, hg⟩ := LiveBeekem.withNewOwner_ok c.memberId pk c.shareSecret c.cgka
            have hgrows := LawfulBeekem.withNewOwner_spec _ _ _ _ _ hg
            rw [wp_bind, wp_verdict, hg]
            dsimp only [Except.mapError]
            rw [wp_bind, wp_set]
            refine hstep _ true (h.withOwner hgrows) ?_
            simp [hadded, hmine, h.memberId]
          · refine hstep c invited h ?_
            rw [h.memberId] at hmine
            simp [hadded, hmine]
      | remove doc removed preds detail =>
          have hnone : op.payload.added? = none := by rw [hop]; rfl
          exact hstep c invited h (by simp [hnone])
      | update doc preds detail =>
          have hnone : op.payload.added? = none := by rw [hop]; rfl
          exact hstep c invited h (by simp [hnone])

omit [LiveBeekem] in
/-- With nothing parked there is nothing to drain. -/
theorem mergePending_of_empty (h : c.parked = []) : mergePending c = .ok 0 c := by
  obtain ⟨cgka, signer, memberId, secret, key, known, current, certs, parked, evicted⟩ := c
  cases h
  rfl

/-- Whether a log introduces a member. -/
def Names (log : List ControlOp) (member : Bytes32) : Prop :=
  ∃ op ∈ log, op.payload.added? = some member

/-- The rest of a join succeeds exactly when the log is authorised throughout and
names the joiner, and leaves what the log says. -/
theorem Replayed.adopt {rest : List ControlOp} {invited : Bool}
    (h : Replayed root store member c [root]) (hroot : IsRoot store.founder root)
    (hrest : Replayable root [root] rest)
    (hinvited : invited = true ↔ root.payload.added? = some member) :
    Wp (CgkaController.adopt rest invited)
      (fun _ c' => (∀ op ∈ rest, authorize store op.payload op.issuer = .ok ()) ∧
        Names (root :: rest) member ∧ Replayed root store member c' (rest.reverse ++ [root]))
      (fun _ _ => (∃ op ∈ rest, authorize store op.payload op.issuer ≠ .ok ()) ∨
        ¬ Names (root :: rest) member) c := by
  unfold CgkaController.adopt
  refine (h.replay hroot hrest).seq ?_ fun _ _ => Or.inl
  rintro invited' c' ⟨hall, hdone, hflag⟩
  have hnames : invited' = true ↔ Names (root :: rest) member := by
    rw [hflag, hinvited]
    simp [Names]
  split_ifs with htrue
  · have hquiet : Wp mergePending (fun _ c'' => c'' = c') (fun _ _ => False) c' := by
      unfold Wp
      rw [mergePending_of_empty hdone.parked]
    refine hquiet.seq ?_ fun _ _ => False.elim
    rintro total c'' rfl
    rw [wp_bind, wp_get, if_neg (by simp [hdone.parked])]
    exact ⟨hall, hnames.mp htrue, hdone⟩
  · exact Or.inr fun hnamed => htrue (hnames.mpr hnamed)

omit [LiveBeekem] in
/-- Where a join starts from. -/
theorem joining_replayed {secret : Bytes32} {g : Cgka} {certs : List Certificate}
    (hstore : ((CapabilityStore.new store.founder).extend certs).2 = store)
    (hroot : IsRoot store.founder root) (hgraph : graph g = {root})
    (hinit : Beekem.initAddOp g = root) :
    Replayed root store member (joining member secret store.founder g certs) [root] where
  initAddOp := hinit
  mem_graph := fun op => by
    change op ∈ graph g ↔ _
    rw [hgraph, List.mem_singleton, Set.mem_singleton_iff]
  known := fun m => by
    obtain ⟨doc, pk, detail, hpayload⟩ := hroot.payload
    change m ∈ ({store.founder} : Finset Bytes32) ↔ _
    simp [hpayload, CgkaOperation.added?, eq_comm]
  current := Finset.Subset.refl _
  certs := hstore
  parked := rfl
  signer := rfl
  memberId := rfl

/-- The log of a coherent controller starts with the founding operation and can be
replayed from it. -/
theorem Coherent.opLog (h : Coherent root c) :
    ∃ rest, c.opLog = .ok (root :: rest) ∧ Replayable root [root] rest ∧
      ∀ op, op ∈ graph c.cgka ↔ op ∈ root :: rest := by
  obtain ⟨epochs, hops, hnodup, hmem, hcausal⟩ := LiveBeekem.ops_spec c.cgka
  have hlog : c.opLog = .ok epochs.flatten := by
    unfold CgkaController.opLog
    rw [hops]
  generalize epochs.flatten = log at hlog hnodup hmem hcausal
  cases log with
  | nil =>
      have hroot := LawfulBeekem.initAddOp_mem c.cgka
      exact absurd ((hmem _).mpr hroot) List.not_mem_nil
  | cons first rest =>
      rw [List.reverse_cons] at hcausal
      -- nothing comes before the first operation, so it names no predecessor
      have hfirst : first = root := by
        have hpreds := hcausal.of_append.2
        rcases h.genuine first ((hmem first).mp List.mem_cons_self) with hroot | ⟨-, a, ha, -⟩
        · exact hroot
        · obtain ⟨x, hx⟩ := List.exists_mem_of_ne_nil _ ha.predecessors_ne_nil
          obtain ⟨p, hp, -⟩ := hpreds x hx
          exact absurd hp List.not_mem_nil
      subst hfirst
      refine ⟨rest, hlog, ⟨List.mem_singleton.mpr rfl, fun op hop => ?_, ?_, hcausal⟩, fun op => ?_⟩
      · exact h.genuine op ((hmem op).mp (List.mem_cons_of_mem _ hop))
      · rw [← List.reverse_cons]
        exact List.nodup_reverse.mpr hnodup
      · exact (hmem op).symm

/-- Joining from the log of a coherent controller: the outcome, and what a
successful join holds. -/
theorem Coherent.join (h : Coherent root c) {rest : List ControlOp}
    (hrest : Replayable root [root] rest) (member secret : Bytes32) :
    match join c.treeId member secret (root :: rest) c.certs.certificates with
    | .ok d => (∀ op ∈ rest, authorize c.certs op.payload op.issuer = .ok ()) ∧
        Names (root :: rest) member ∧ Replayed root c.certs member d (rest.reverse ++ [root])
    | .error _ => (∃ op ∈ rest, authorize c.certs op.payload op.issuer ≠ .ok ()) ∨
        ¬ Names (root :: rest) member := by
  obtain ⟨doc, pk, detail, hpayload⟩ := h.isRoot.payload
  have htree : c.treeId = doc := by
    unfold CgkaController.treeId
    rw [h.initAddOp, hpayload]
    rfl
  obtain ⟨g, hg⟩ := LiveBeekem.newFromInitAdd_ok doc c.certs.founder pk root detail hpayload
  obtain ⟨hgraph, hinit⟩ := LawfulBeekem.newFromInitAdd_spec _ _ _ _ _ hg
  have hstart : Replayed root c.certs member
      (joining member secret c.certs.founder g c.certs.certificates) [root] :=
    joining_replayed (CapabilityStore.extend_certificates h.verified) h.isRoot hgraph hinit
  have hinvited : decide (c.certs.founder = member) = true ↔
      root.payload.added? = some member := by
    simp [hpayload, CgkaOperation.added?]
  have hadopt := hstart.adopt h.isRoot hrest hinvited
  unfold CgkaController.join
  dsimp only
  rw [hpayload, htree]
  dsimp only
  rw [if_neg (by simp), if_neg (not_not.mpr h.isRoot.verifies), if_neg (by simp [h.isRoot.issuer]),
    hg]
  dsimp only
  unfold Wp at hadopt
  cases hrun : CgkaController.adopt rest (decide (c.certs.founder = member))
      (joining member secret c.certs.founder g c.certs.certificates) with
  | ok u d =>
      rw [hrun] at hadopt
      exact hadopt
  | error err d =>
      rw [hrun] at hadopt
      exact hadopt

/-- A controller that joined from a coherent one is coherent. -/
theorem Coherent.of_join (h : Coherent root c) {log : List ControlOp} (hlog : c.opLog = .ok log)
    {d : CgkaController} {secret : Bytes32}
    (hjoin : CgkaController.join c.treeId member secret log c.certs.certificates = .ok d) :
    Coherent root d := by
  obtain ⟨rest, hlog', hrest, hmem⟩ := h.opLog
  obtain rfl : log = root :: rest := by simpa using hlog.symm.trans hlog'
  have hspec := h.join hrest member secret
  rw [hjoin] at hspec
  obtain ⟨-, hnames, hdone⟩ := hspec
  have hgraph : ∀ op, op ∈ rest.reverse ++ [root] ↔ op ∈ root :: rest := by
    intro op
    simp [or_comm]
  exact
    { initAddOp := hdone.initAddOp
      isRoot := hdone.certs ▸ h.isRoot
      genuine := fun op hop =>
        h.genuine op ((hmem op).mpr ((hgraph op).mp ((hdone.mem_graph op).mp hop)))
      parked := fun a ha => absurd (hdone.parked ▸ ha) List.not_mem_nil
      known := fun m => by
        rw [hdone.known]
        simp only [hdone.mem_graph]
      current := hdone.current
      signer := hdone.signer.trans hdone.memberId.symm
      self := by
        rw [hdone.memberId, hdone.known]
        obtain ⟨op, hop, hadded⟩ := hnames
        exact ⟨op, (hgraph op).mpr hop, hadded⟩
      verified := hdone.certs ▸ h.verified }

omit [LiveBeekem] in
/-- A founded controller holds one operation, with which the founder adds itself. -/
theorem create_inv [LawfulBeekem] {treeId signer : Bytes32} {rng rng' : Rng}
    (h : CgkaController.create treeId signer rng = (.ok c, rng')) :
    ∃ pk detail, graph c.cgka = {Beekem.initAddOp c.cgka} ∧
      (Beekem.initAddOp c.cgka).payload = .add treeId signer pk [] detail ∧
      (Beekem.initAddOp c.cgka).issuer = signer ∧
      verifyOp (Beekem.initAddOp c.cgka) = true ∧ c.signer = signer ∧ c.memberId = signer ∧
      c.knownMembers = {signer} ∧ c.currentMembers = {signer} ∧ c.certs = .new signer ∧
      c.parked = [] := by
  unfold CgkaController.create at h
  dsimp only at h
  cases hnew : Beekem.new treeId signer
      (Beekem.shareKey (Beekem.generateShareSecret rng).1) signer with
  | error err =>
      rw [hnew] at h
      exact absurd (congrArg Prod.fst h) (by simp)
  | ok g =>
      rw [hnew] at h
      obtain ⟨hgraph, ⟨detail, hpayload⟩, hissuer, hverifies⟩ :=
        LawfulBeekem.new_spec _ _ _ _ _ hnew
      have hgrows := LawfulBeekem.insertOwnerSk_spec
        (Beekem.shareKey (Beekem.generateShareSecret rng).1)
        (Beekem.generateShareSecret rng).1 g
      obtain rfl := Except.ok.inj (congrArg Prod.fst h)
      dsimp only
      rw [hgrows.initAddOp]
      refine ⟨_, detail, ?_, hpayload, hissuer, hverifies, rfl, rfl, rfl, rfl, rfl, rfl⟩
      ext op
      rw [hgrows.mem_graph, hgraph]
      simp

omit [LiveBeekem] in
/-- A founded controller is coherent. -/
theorem Coherent.of_create [LawfulBeekem] {treeId signer : Bytes32} {rng rng' : Rng}
    (h : CgkaController.create treeId signer rng = (.ok c, rng'))
    (hroot : Beekem.initAddOp c.cgka = root) : Coherent root c := by
  obtain ⟨pk, detail, hgraph, hpayload, hissuer, hverifies, hsigner, hmember, hknown, hcurrent,
    hcerts, hparked⟩ := create_inv h
  rw [hroot] at hgraph hpayload hissuer hverifies
  have hfounder : c.certs.founder = signer := by
    rw [hcerts]
    rfl
  exact
    { initAddOp := hroot
      isRoot := ⟨⟨treeId, pk, detail, hfounder.symm ▸ hpayload⟩, hfounder.symm ▸ hissuer, hverifies⟩
      genuine := fun op hop => Or.inl (by rw [hgraph] at hop; exact hop)
      parked := fun a ha => absurd (hparked ▸ ha) List.not_mem_nil
      known := fun m => by
        rw [hknown, hgraph]
        simp [hpayload, CgkaOperation.added?, eq_comm]
      current := by rw [hcurrent, hknown]
      signer := hsigner.trans hmember.symm
      self := by
        rw [hmember, hknown]
        exact Finset.mem_singleton_self _
      verified := fun cert hcert => by
        rw [hcerts] at hcert
        cases cert <;> exact absurd hcert List.not_mem_nil }

/-- Every controller of a workspace of honest members is coherent. -/
theorem Honest.coherent (h : Honest root c) : Coherent root c := by
  have hnone : ∀ a ∈ ([] : List AuthorizedOp), Genuine root a.op := by simp
  induction h with
  | create h hroot => exact .of_create h hroot
  | join _ hlog h ih => exact ih.of_join hlog h
  | certify p _ ih =>
      exact Wp.after ((certify_evolves _ p).mono
        (fun _ _ h => (Progress.of_nil h).coherent ih hnone)
        fun _ _ h => (Progress.of_nil h).coherent ih hnone)
  | absorb bundle _ ih =>
      exact (Progress.of_nil (Evolves.of_extend _ bundle [])).coherent ih hnone
  | add member key _ _ ih =>
      exact Wp.after ((addMember_spec _ member key).mono
        (fun _ _ h => h.1.coherent ih hnone) fun _ _ h => h.1.coherent ih hnone)
  | remove member _ _ ih =>
      exact Wp.after ((removeMember_spec _ member).mono
        (fun _ _ h => h.1.coherent ih hnone) fun _ _ h => h.1.coherent ih hnone)
  | rotate rng _ ih =>
      refine Wp.after (P := fun p => Coherent root p.1) ((rotate_spec _ rng).mono ?_ ?_)
      · exact fun _ _ h => h.1.progress.coherent ih hnone
      · exact fun _ _ h => h.progress.coherent ih hnone
  | merge op proof _ _ hop ih ihd =>
      have hoffered : ∀ a ∈ [AuthorizedOp.mk op proof], Genuine root a.op := by
        simpa using ihd.genuine op hop
      exact Wp.after ((merge_progress _ ⟨op, proof⟩).mono
        (fun _ _ h => h.1.coherent ih hoffered) fun _ _ h => h.1.coherent ih hoffered)
  | pending _ ih =>
      refine Wp.after ((mergePending_merges _).mono ?_ ?_)
      · exact fun _ _ ⟨_, h, _⟩ => h.progress.coherent ih hnone
      · exact fun _ _ ⟨_, h, _⟩ => h.progress.coherent ih hnone

/-- A current member joins from an honest controller's log, and ends with its known
members, its operations and its capability closure, exactly when every operation
after the founding one is authorised by the certificates of the present. -/
theorem join_iff (h : Honest root c) {log : List ControlOp} (hlog : c.opLog = .ok log)
    (hmember : member ∈ c.currentMembers) (secret : Bytes32) :
    (∃ d, CgkaController.join c.treeId member secret log c.certs.certificates = .ok d ∧
      d.knownMembers = c.knownMembers ∧ graph d.cgka = graph c.cgka ∧ d.certs = c.certs) ↔
    ∀ op ∈ graph c.cgka, op ≠ Beekem.initAddOp c.cgka →
      authorize c.certs op.payload op.issuer = .ok () := by
  have hc := h.coherent
  obtain ⟨rest, hlog', hrest, hmem⟩ := hc.opLog
  obtain rfl : log = root :: rest := by simpa using hlog.symm.trans hlog'
  have hspec := hc.join hrest member secret
  have hnotMem : root ∉ rest := by
    have hnodup := (List.nodup_append.mp hrest.nodup).2.2
    exact fun hmem => hnodup root (List.mem_reverse.mpr hmem) root (by simp) rfl
  rw [hc.initAddOp]
  constructor
  · rintro ⟨d, hjoin, -⟩ op hop hne
    rw [hjoin] at hspec
    exact hspec.1 op ((List.mem_cons.mp ((hmem op).mp hop)).resolve_left hne)
  · intro hall
    have hrestAll : ∀ op ∈ rest, authorize c.certs op.payload op.issuer = .ok () :=
      fun op hop => hall op ((hmem op).mpr (List.mem_cons_of_mem _ hop))
        fun heq => hnotMem (heq ▸ hop)
    have hnames : Names (root :: rest) member := by
      obtain ⟨op, hop, hadded⟩ := (hc.known member).mp (hc.current hmember)
      exact ⟨op, (hmem op).mp hop, hadded⟩
    cases hjoin : CgkaController.join c.treeId member secret (root :: rest)
        c.certs.certificates with
    | error err =>
        rw [hjoin] at hspec
        rcases hspec with ⟨op, hop, hne⟩ | hnot
        · exact absurd (hrestAll op hop) hne
        · exact absurd hnames hnot
    | ok d =>
        rw [hjoin] at hspec
        obtain ⟨-, -, hdone⟩ := hspec
        have hgraph : ∀ op, op ∈ graph d.cgka ↔ op ∈ graph c.cgka := by
          intro op
          rw [hdone.mem_graph, hmem]
          simp [or_comm]
        refine ⟨d, rfl, Finset.ext fun m => ?_, Set.ext hgraph, hdone.certs⟩
        rw [hdone.known, hc.known]
        simp only [← hdone.mem_graph, hgraph]

end Replay

end IrohBeekem

/-! ## A log that was authorised and is not any more -/

namespace IrohBeekem

open Library CgkaController

local instance loggedKeyhive : Keyhive := transparentKeyhive

local instance loggedBeekem : Beekem := listBeekem

local instance loggedLive : LiveBeekem := listBeekem_live

/-- The founder of the sample workspace. -/
def sampleFounder : CgkaController :=
  { cgka := ListCgka.new 7 1 0 1
    signer := 1, memberId := 1, shareSecret := 0, shareKey := 0
    knownMembers := {1}, currentMembers := {1}
    certs := .new 1, parked := [], evictedOps := 0 }

/-- The founder has made user `20` an admin and admitted its device `2`. -/
def sampleAdmitting : CgkaController :=
  after (addMember 2 102) (after (certifyRole 20 .admin 0)
    (after (certifyDevice 2 20 0) sampleFounder))

/-- A member that joined from another's log. -/
def joinedFrom (c : CgkaController) (signer secret : Bytes32) : CgkaController :=
  match join c.treeId signer secret c.cgka.log.reverse c.certs.certificates with
  | .ok d => d
  | .error _ => c

/-- Device `2` joins and admits device `3` of user `30`. -/
def sampleDelegate : CgkaController :=
  after (addMember 3 103) (after (certifyDevice 3 30 1) (joinedFrom sampleAdmitting 2 102))

/-- The operation that admits device `3`. -/
def sampleAdd : ControlOp := sampleDelegate.cgka.log.headD sampleFounder.cgka.init

/-- The founder takes it in. -/
def sampleMerged : CgkaController :=
  after (merge ⟨sampleAdd, sampleDelegate.certs.certificates⟩) sampleAdmitting

/-- The founder demotes user `20`. -/
def sampleDemoted : CgkaController := after (certifyRole 20 .viewer 1) sampleMerged

private theorem opLog_listBeekem (c : CgkaController) : c.opLog = .ok c.cgka.log.reverse := by
  have hflat : (c.cgka.log.reverse.map fun op => [op]).flatten = c.cgka.log.reverse := by
    rw [← List.flatMap_def, List.flatMap_singleton']
  exact congrArg Except.ok hflat

private theorem honest_joinedFrom {root : ControlOp} {c : CgkaController} (h : Honest root c)
    (signer secret : Bytes32) : Honest root (joinedFrom c signer secret) := by
  unfold joinedFrom
  split
  · next d hjoin => exact .join h (opLog_listBeekem c) hjoin
  · exact h

private theorem honest_certifyRole {root : ControlOp} {c : CgkaController} (h : Honest root c)
    (user : Bytes32) (role : Role) (nonce : Bytes16) :
    Honest root (after (certifyRole user role nonce) c) :=
  .certify _ h

private theorem honest_sampleAdmitting : Honest sampleFounder.cgka.init sampleAdmitting := by
  have hcreate : create 7 1 (0 : Nat) = (.ok sampleFounder, (1 : Nat)) := rfl
  have hfounder : Honest sampleFounder.cgka.init sampleFounder := .create hcreate rfl
  have hadmin : Honest sampleFounder.cgka.init
      (after (certifyRole 20 .admin 0) (after (certifyDevice 2 20 0) sampleFounder)) :=
    honest_certifyRole (.certify _ hfounder) 20 .admin 0
  exact .add 2 102 hadmin (by decide +kernel)

private theorem honest_sampleMerged : Honest sampleFounder.cgka.init sampleMerged := by
  have hdelegate : Honest sampleFounder.cgka.init sampleDelegate :=
    .add 3 103 (.certify _ (honest_joinedFrom honest_sampleAdmitting 2 102)) (by decide +kernel)
  have hmem : sampleAdd ∈ sampleDelegate.cgka.log := by decide +kernel
  exact .merge sampleAdd _ honest_sampleAdmitting hdelegate hmem

/-- Before the demotion, device `3` joins. -/
theorem join_iff_sampleMerged :
    ∃ d, join sampleMerged.treeId 3 103 sampleMerged.cgka.log.reverse
        sampleMerged.certs.certificates = .ok d ∧
      d.knownMembers = sampleMerged.knownMembers ∧ graph d.cgka = graph sampleMerged.cgka ∧
      d.certs = sampleMerged.certs := by
  have hall : ∀ op ∈ sampleMerged.cgka.log, op ≠ sampleMerged.cgka.init →
      authorize sampleMerged.certs op.payload op.issuer = .ok () := by decide +kernel
  exact (join_iff honest_sampleMerged (opLog_listBeekem _) (by decide +kernel) 103).mpr hall

/-- After it, device `3` is still a member and cannot join. -/
theorem join_sampleDemoted_refused :
    ¬ ∀ (root : ControlOp) (c : CgkaController) (log : List ControlOp) (member secret : Bytes32),
      Honest root c → c.opLog = .ok log → member ∈ c.currentMembers →
      ∃ d, join c.treeId member secret log c.certs.certificates = .ok d ∧
        d.knownMembers = c.knownMembers ∧ graph d.cgka = graph c.cgka ∧ d.certs = c.certs := by
  intro h
  obtain ⟨d, hjoin, -⟩ := h _ sampleDemoted _ 3 103
    (honest_certifyRole honest_sampleMerged 20 .viewer 1) (opLog_listBeekem _) (by decide +kernel)
  have hrefused : (join sampleDemoted.treeId 3 103 sampleDemoted.cgka.log.reverse
      sampleDemoted.certs.certificates).toOption.isSome = false := by decide +kernel
  rw [hjoin] at hrefused
  exact absurd hrefused (by simp [Except.toOption])

end IrohBeekem
