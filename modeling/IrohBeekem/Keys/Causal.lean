import IrohBeekem.Capability.Growth
import IrohBeekem.Keys.Controller

/-!
# What a controller's methods do

Each method of the controller changes it in a way that `Evolves` describes: the
operation graph grows by a list of operations, the identities those introduce
become known, certificates are only added, and only operations it was offered
end up parked.  Each method has one specification saying which operations these
are, and `Evolves.trans` composes them.

`Coherent` is the invariant this buys.  Every operation in the graph is
*genuine*: it verifies and, unless it is the founding one, it causally follows
the operation that introduced its issuer.  An operation minted locally is
genuine because it names the heads of a graph in which its issuer is known, and
`Coherent.evolve` takes the invariant through any change made of genuine
operations.
-/

namespace IrohBeekem

open Library

variable [Keyhive] [Beekem]

omit [Keyhive] in
/-- Who is a member after an operation. -/
def seat (members : Finset Bytes32) (op : ControlOp) : Finset Bytes32 :=
  match op.payload with
  | .add _ added _ _ _ => insert added members
  | .remove _ removed _ _ => members.erase removed
  | .update _ _ _ => members

omit [Keyhive] in
theorem seat_of_added {op : ControlOp} {m : Bytes32} (h : op.payload.added? = some m)
    (members : Finset Bytes32) : seat members op = insert m members := by
  unfold seat
  cases hpayload : op.payload with
  | add doc added pk preds detail =>
      obtain rfl : added = m := by simpa [hpayload, CgkaOperation.added?] using h
      rfl
  | remove doc removed preds detail => simp [hpayload, CgkaOperation.added?] at h
  | update doc preds detail => simp [hpayload, CgkaOperation.added?] at h

omit [Keyhive] in
/-- Operations taken in one after the other by whoever holds some already: each is new, and
what it names is there. -/
def TakenIn (held : Set ControlOp) : List ControlOp → Prop
  | [] => True
  | op :: rest =>
      (op ∉ held ∧ ∀ h ∈ op.payload.predecessors, ∃ p ∈ held, opHash p = h) ∧
        TakenIn (insert op held) rest

omit [Keyhive] in
theorem TakenIn.append {held : Set ControlOp} {l l' : List ControlOp} (h : TakenIn held l)
    (h' : TakenIn { op | op ∈ held ∨ op ∈ l } l') : TakenIn held (l ++ l') := by
  induction l generalizing held with
  | nil => simpa using h'
  | cons op rest ih =>
      refine ⟨h.1, ih h.2 ?_⟩
      have hsame : { x | x ∈ held ∨ x ∈ op :: rest } = { x | x ∈ insert op held ∨ x ∈ rest } := by
        ext x
        simp only [List.mem_cons, Set.mem_insert_iff, Set.mem_ofPred_eq]
        tauto
      rw [← hsame]
      exact h'

omit [Keyhive] in
theorem Minted.takenIn {signer : Bytes32} {g : Cgka} {op : ControlOp} (h : Minted signer g op) :
    TakenIn (graph g) [op] :=
  ⟨⟨h.fresh, h.predecessors⟩, trivial⟩

/-- The share key is the public half of the share secret. -/
def PairedKeys (c : CgkaController) : Prop := c.shareKey = shareKey c.shareSecret

/-- The controller went from `c` to `c'` by taking in these operations, having
been offered these. -/
structure Evolves (c c' : CgkaController) (added : List ControlOp)
    (offered : List AuthorizedOp) : Prop where
  signer : c'.signer = c.signer
  memberId : c'.memberId = c.memberId
  tree : Grows c.cgka c'.cgka added
  order : TakenIn (graph c.cgka) added
  known : ∀ m, m ∈ c'.knownMembers ↔
    m ∈ c.knownMembers ∨ ∃ op ∈ added, op.payload.added? = some m
  current : c.currentMembers ⊆ c.knownMembers → c'.currentMembers ⊆ c'.knownMembers
  members : c'.currentMembers = added.foldl seat c.currentMembers
  founder : c'.certs.founder = c.certs.founder
  certs : c.certs.certs ⊆ c'.certs.certs
  verified : (∀ cert ∈ c.certs.certs, cert.verify = .ok ()) →
    ∀ cert ∈ c'.certs.certs, cert.verify = .ok ()
  parked : ∀ a ∈ c'.parked, a ∈ c.parked ∨ a ∈ offered
  paired : PairedKeys c → PairedKeys c'

namespace Evolves

variable {c c' c'' : CgkaController} {l l' : List ControlOp} {o o' : List AuthorizedOp}

/-- Only the tree, the local keys and the queue may have changed. -/
theorem of_tree (hsigner : c'.signer = c.signer) (hmember : c'.memberId = c.memberId)
    (htree : Grows c.cgka c'.cgka []) (hknown : c'.knownMembers = c.knownMembers)
    (hcurrent : c'.currentMembers = c.currentMembers) (hcerts : c'.certs = c.certs)
    (hparked : ∀ a ∈ c'.parked, a ∈ c.parked ∨ a ∈ o) (hpaired : PairedKeys c → PairedKeys c') :
    Evolves c c' [] o where
  signer := hsigner
  memberId := hmember
  tree := htree
  order := trivial
  known := by simp [hknown]
  current := by rw [hknown, hcurrent]; exact id
  members := hcurrent
  founder := by rw [hcerts]
  certs := by rw [hcerts]; exact fun _ => id
  verified := by rw [hcerts]; exact id
  parked := hparked
  paired := hpaired

theorem refl (c : CgkaController) : Evolves c c [] o :=
  of_tree rfl rfl (Grows.refl c.cgka) rfl rfl rfl (fun _ => Or.inl) id

theorem trans (h : Evolves c c' l o) (h' : Evolves c' c'' l' o') :
    Evolves c c'' (l ++ l') (o ++ o') where
  signer := h'.signer.trans h.signer
  memberId := h'.memberId.trans h.memberId
  tree := h.tree.trans h'.tree
  order := by
    refine h.order.append ?_
    have hgraph : graph c'.cgka = { op | op ∈ graph c.cgka ∨ op ∈ l } := Set.ext h.tree.mem_graph
    rw [← hgraph]
    exact h'.order
  known := by
    intro m
    rw [h'.known, h.known]
    simp only [List.mem_append, or_and_right, exists_or, or_assoc]
  current := fun hc => h'.current (h.current hc)
  members := by rw [h'.members, h.members, List.foldl_append]
  founder := h'.founder.trans h.founder
  certs := fun x hx => h'.certs x (h.certs x hx)
  verified := fun hv => h'.verified (h.verified hv)
  parked := by
    intro a ha
    rw [List.mem_append]
    rcases h'.parked a ha with ha | ha
    · rcases h.parked a ha with ha | ha
      · exact Or.inl ha
      · exact Or.inr (Or.inl ha)
    · exact Or.inr (Or.inr ha)
  paired := fun hc => h'.paired (h.paired hc)

/-- Being offered more changes nothing. -/
theorem offer (h : Evolves c c' l o) (ho : ∀ a ∈ o, a ∈ o') : Evolves c c' l o' :=
  { h with parked := fun a ha => (h.parked a ha).imp_right (ho a) }

/-- An added member is among the current and the known ones. -/
theorem add {m : Bytes32} {op : ControlOp} {g : Cgka} (hop : op.payload.added? = some m)
    (htree : Grows c.cgka g [op]) (horder : TakenIn (graph c.cgka) [op]) :
    Evolves c { c with
      cgka := g
      knownMembers := insert m c.knownMembers
      currentMembers := insert m c.currentMembers } [op] o where
  signer := rfl
  memberId := rfl
  tree := htree
  order := horder
  known := by
    intro x
    simp only [Finset.mem_insert, List.mem_singleton, exists_eq_left, hop, Option.some.injEq]
    rw [or_comm, eq_comm]
  current := fun h => Finset.insert_subset_insert m h
  members := (seat_of_added hop _).symm
  founder := rfl
  certs := fun _ => id
  verified := id
  parked := fun _ => Or.inl
  paired := id

/-- An operation that introduces nobody leaves the known members alone. -/
theorem shrink {op : ControlOp} {g : Cgka} {s : Finset Bytes32}
    (hop : op.payload.added? = none) (htree : Grows c.cgka g [op])
    (horder : TakenIn (graph c.cgka) [op]) (hseat : seat c.currentMembers op = s)
    (hs : s ⊆ c.currentMembers) :
    Evolves c { c with cgka := g, currentMembers := s } [op] o where
  signer := rfl
  memberId := rfl
  tree := htree
  order := horder
  known := by simp [hop]
  current := fun h => hs.trans h
  members := hseat.symm
  founder := rfl
  certs := fun _ => id
  verified := id
  parked := fun _ => Or.inl
  paired := id

end Evolves

/-! ## Introduced issuers -/

omit [Keyhive] in
/-- An operation that causally follows the one that introduced its issuer. -/
def Introduced (op : ControlOp) : Prop :=
  ∃ intro : ControlOp, Before intro op ∧ intro.payload.added? = some op.issuer

/-- The invariant of any controller, whatever it was offered: the known members are
those its graph introduces. -/
structure Tracked (c : CgkaController) : Prop where
  known : ∀ m, m ∈ c.knownMembers ↔ ∃ op ∈ graph c.cgka, op.payload.added? = some m
  signer : c.signer = c.memberId

theorem Tracked.evolve {c c' : CgkaController} {l : List ControlOp} {o : List AuthorizedOp}
    (h : Tracked c) (he : Evolves c c' l o) : Tracked c' where
  known := by
    intro m
    rw [he.known, h.known]
    simp only [he.tree.mem_graph, or_and_right, exists_or]
  signer := by rw [he.signer, he.memberId, h.signer]

/-- A controller whose own member its graph introduces. -/
structure Placed (c : CgkaController) : Prop extends Tracked c where
  self : c.memberId ∈ c.knownMembers

theorem Placed.evolve {c c' : CgkaController} {l : List ControlOp} {o : List AuthorizedOp}
    (h : Placed c) (he : Evolves c c' l o) : Placed c' where
  toTracked := h.toTracked.evolve he
  self := by
    rw [he.memberId, he.known]
    exact Or.inl h.self

/-- What the local member mints comes after its own introduction. -/
theorem Placed.introduced {c : CgkaController} {op : ControlOp} (h : Placed c)
    (hop : Minted c.signer c.cgka op) : Introduced op := by
  obtain ⟨intro, hmem, hadded⟩ := (h.known c.memberId).mp h.self
  refine ⟨intro, hop.after intro hmem, ?_⟩
  rw [hadded, hop.issuer, h.signer]

/-- Whoever holds the predecessors of an operation whose issuer was introduced
knows the issuer. -/
theorem Tracked.knows [LawfulBeekem] {c : CgkaController} {op : ControlOp} (h : Tracked c)
    (hop : Introduced op)
    (hpreds : ∀ h ∈ op.payload.predecessors, ∃ p ∈ graph c.cgka, opHash p = h) :
    op.issuer ∈ c.knownMembers := by
  obtain ⟨intro, hbefore, hadded⟩ := hop
  exact (h.known op.issuer).mpr ⟨intro, mem_graph_of_before hbefore hpreds, hadded⟩

/-! ## Genuine operations -/

omit [Keyhive] in
/-- An operation of the workspace founded by `root`: the founding one, or one that
verifies and causally follows the operation that introduced its issuer. -/
def Genuine (root op : ControlOp) : Prop :=
  op = root ∨ verifyOp op = true ∧ Introduced op

/-- The founding operation is the founder's own, and verifies. -/
structure IsRoot (founder : Bytes32) (root : ControlOp) : Prop where
  payload : ∃ doc pk detail, root.payload = .add doc founder pk [] detail
  issuer : root.issuer = founder
  verifies : verifyOp root = true

/-- The invariant of a controller in a workspace of honest members. -/
structure Coherent (root : ControlOp) (c : CgkaController) : Prop extends Placed c where
  initAddOp : Beekem.initAddOp c.cgka = root
  isRoot : IsRoot c.certs.founder root
  genuine : ∀ op ∈ graph c.cgka, Genuine root op
  parked : ∀ a ∈ c.parked, Genuine root a.op
  current : c.currentMembers ⊆ c.knownMembers
  verified : ∀ cert ∈ c.certs.certs, cert.verify = .ok ()

/-- The invariant survives a change made of genuine operations. -/
theorem Coherent.evolve {root : ControlOp} {c c' : CgkaController} {l : List ControlOp}
    {o : List AuthorizedOp} (h : Coherent root c) (he : Evolves c c' l o)
    (hl : ∀ op ∈ l, Genuine root op) (ho : ∀ a ∈ o, Genuine root a.op) : Coherent root c' where
  initAddOp := he.tree.initAddOp.trans h.initAddOp
  isRoot := he.founder ▸ h.isRoot
  genuine := by
    intro op hop
    rcases (he.tree.mem_graph op).mp hop with hop | hop
    · exact h.genuine op hop
    · exact hl op hop
  parked := by
    intro a ha
    rcases he.parked a ha with ha | ha
    · exact h.parked a ha
    · exact ho a ha
  toPlaced := h.toPlaced.evolve he
  current := he.current h.current
  verified := he.verified h.verified

/-- What the local member mints is genuine. -/
theorem Coherent.genuine_of_minted {root : ControlOp} {c : CgkaController} {op : ControlOp}
    (h : Coherent root c) (hop : Minted c.signer c.cgka op) : Genuine root op :=
  Or.inr ⟨hop.verifies, h.toPlaced.introduced hop⟩

omit [Keyhive] in
theorem Genuine.verifies {root op : ControlOp} {founder : Bytes32} (hroot : IsRoot founder root)
    (h : Genuine root op) : verifyOp op = true := by
  rcases h with rfl | ⟨h, -⟩
  · exact hroot.verifies
  · exact h

omit [Keyhive] in
/-- Whoever holds the predecessors of a genuine operation knows its issuer. -/
theorem Genuine.introduced [LawfulBeekem] {root op : ControlOp} {founder : Bytes32} {g : Cgka}
    (hroot : IsRoot founder root) (hmem : root ∈ graph g) (h : Genuine root op)
    (hpreds : ∀ h ∈ op.payload.predecessors, ∃ p ∈ graph g, opHash p = h) :
    ∃ a ∈ graph g, a.payload.added? = some op.issuer := by
  rcases h with rfl | ⟨-, intro, hbefore, hadded⟩
  · obtain ⟨doc, pk, detail, hpayload⟩ := hroot.payload
    refine ⟨op, hmem, ?_⟩
    rw [hpayload, hroot.issuer]
    rfl
  · exact ⟨intro, mem_graph_of_before hbefore hpreds, hadded⟩

/-! ## Specifications of the methods -/

/-- A change of an honest controller: what it takes in is genuine if what it was
offered is. -/
structure Progress (c c' : CgkaController) (added : List ControlOp)
    (offered : List AuthorizedOp) : Prop where
  evolves : Evolves c c' added offered
  genuine : ∀ root, Coherent root c → (∀ a ∈ offered, Genuine root a.op) →
    ∀ op ∈ added, Genuine root op

namespace Progress

variable {c c' c'' : CgkaController} {l l' : List ControlOp} {o o' : List AuthorizedOp}

theorem coherent (h : Progress c c' l o) {root : ControlOp} (hc : Coherent root c)
    (ho : ∀ a ∈ o, Genuine root a.op) : Coherent root c' :=
  hc.evolve h.evolves (h.genuine root hc ho) ho

theorem of_nil (h : Evolves c c' [] o) : Progress c c' [] o :=
  ⟨h, fun _ _ _ _ hop => absurd hop List.not_mem_nil⟩

theorem of_minted (h : Evolves c c' l o) (hl : ∀ op ∈ l, Minted c.signer c.cgka op) :
    Progress c c' l o :=
  ⟨h, fun _ hc _ op hop => hc.genuine_of_minted (hl op hop)⟩

theorem refl (c : CgkaController) : Progress c c [] o := .of_nil (.refl c)

theorem trans (h : Progress c c' l o) (h' : Progress c' c'' l' o') :
    Progress c c'' (l ++ l') (o ++ o') where
  evolves := h.evolves.trans h'.evolves
  genuine := by
    intro root hc ho op hop
    have hleft : ∀ a ∈ o, Genuine root a.op := fun a ha => ho a (List.mem_append_left _ ha)
    have hright : ∀ a ∈ o', Genuine root a.op := fun a ha => ho a (List.mem_append_right _ ha)
    rcases List.mem_append.mp hop with hop | hop
    · exact h.genuine root hc hleft op hop
    · exact h'.genuine root (h.coherent hc hleft) hright op hop

theorem offer (h : Progress c c' l o) (ho : ∀ a ∈ o, a ∈ o') : Progress c c' l o' :=
  ⟨h.evolves.offer ho, fun root hc hg => h.genuine root hc fun a ha => hg a (ho a ha)⟩

/-- Taking the whole queue off and offering it again offers nothing new. -/
theorem of_queue (h : Progress { c with parked := [] } c' l c.parked) : Progress c c' l [] where
  evolves :=
    { signer := h.evolves.signer
      memberId := h.evolves.memberId
      tree := h.evolves.tree
      order := h.evolves.order
      known := h.evolves.known
      current := h.evolves.current
      members := h.evolves.members
      founder := h.evolves.founder
      certs := h.evolves.certs
      verified := h.evolves.verified
      parked := fun a ha => Or.inl
        ((h.evolves.parked a ha).elim (fun ha => absurd ha List.not_mem_nil) id)
      paired := h.evolves.paired }
  genuine := by
    intro root hc _
    have hempty : Coherent root { c with parked := [] } :=
      { hc with parked := fun a ha => absurd ha List.not_mem_nil }
    exact h.genuine root hempty hc.parked

end Progress

/-- Certificates were added, all of which verify. -/
theorem Evolves.of_certs {c : CgkaController} {s : CapabilityStore} {o : List AuthorizedOp}
    (hfounder : s.founder = c.certs.founder) (hcerts : c.certs.certs ⊆ s.certs)
    (hverified : ∀ x ∈ s.certs, x ∈ c.certs.certs ∨ x.verify = .ok ()) :
    Evolves c { c with certs := s } [] o where
  signer := rfl
  memberId := rfl
  tree := Grows.refl c.cgka
  order := trivial
  known := by simp
  current := id
  members := rfl
  founder := hfounder
  certs := hcerts
  verified := fun h x hx => (hverified x hx).elim (h x) id
  parked := fun _ => Or.inl
  paired := id

theorem Evolves.of_extend (c : CgkaController) (bundle : List Certificate)
    (o : List AuthorizedOp) : Evolves c { c with certs := (c.certs.extend bundle).2 } [] o :=
  .of_certs (c.certs.extend_founder bundle) (c.certs.subset_extend bundle)
    fun _ => CapabilityStore.verify_of_mem_extend

namespace CgkaController

variable (c : CgkaController)

/-- What `certify` returns is signed by the local key and was inserted. -/
theorem certify_run (p : Payload) :
    Wp (certify p)
      (fun cert c' => p.sign c.signer = .ok cert ∧
        ∃ isNew s, c.certs.insert cert = .ok (isNew, s) ∧ c' = { c with certs := s })
      (fun _ c' => c' = c) c := by
  unfold certify
  rw [wp_bind, wp_get, wp_bind, wp_verdict]
  cases hsign : p.sign c.signer with
  | error err => rfl
  | ok cert =>
      dsimp only
      rw [wp_bind, wp_verdict]
      cases hinsert : c.certs.insert cert with
      | error err => rfl
      | ok r =>
          obtain ⟨isNew, s⟩ := r
          exact ⟨rfl, isNew, s, hinsert, rfl⟩

theorem certify_evolves (p : Payload) :
    Wp (certify p) (fun _ c' => Evolves c c' [] []) (fun _ c' => Evolves c c' [] []) c := by
  refine (certify_run c p).mono ?_ ?_
  · rintro cert c' ⟨-, isNew, s, hinsert, rfl⟩
    obtain ⟨hfounder, hcerts, hverify, hmem⟩ := CapabilityStore.insert_cases hinsert
    refine .of_certs hfounder hcerts fun x hx => ?_
    rcases hmem x hx with hx | rfl
    · exact Or.inl hx
    · exact Or.inr hverify
  · rintro err c' rfl
    exact .refl c'

/-- A call on the tree leaves everything else of the controller alone. -/
theorem wp_onTree {α : Type} {x : EStateM CgkaError Cgka α} {Q : α → Cgka → Prop}
    {E : CgkaError → Cgka → Prop} (h : Wp x Q E c.cgka) :
    Wp (onTree x) (fun a c' => ∃ g, Q a g ∧ c' = { c with cgka := g })
      (fun e c' => ∃ err g, e = .cgka err ∧ E err g ∧ c' = { c with cgka := g }) c := by
  unfold onTree
  rw [wp_zoom]
  exact h.mono (fun a g hq => ⟨g, hq, rfl⟩) fun e g he => ⟨e, g, rfl, he, rfl⟩

theorem wp_onTreeRng {α : Type} {x : EStateM CgkaError (Cgka × Rng) α} {rng : Rng}
    {Q : α → Cgka × Rng → Prop} {E : CgkaError → Cgka × Rng → Prop}
    (h : Wp x Q E (c.cgka, rng)) :
    Wp (onTreeRng x) (fun a p => ∃ q, Q a q ∧ p = ({ c with cgka := q.1 }, q.2))
      (fun e p => ∃ err q, e = .cgka err ∧ E err q ∧ p = ({ c with cgka := q.1 }, q.2))
      (c, rng) := by
  unfold onTreeRng
  rw [wp_zoom]
  exact h.mono (fun a q hq => ⟨q, hq, rfl⟩) fun e q he => ⟨e, q, rfl, he, rfl⟩

/-- A call on the tree that took in nothing. -/
private theorem evolves_of_grows {g : Cgka} (h : Grows c.cgka g []) (o : List AuthorizedOp) :
    Evolves c { c with cgka := g } [] o :=
  .of_tree rfl rfl h rfl rfl rfl (fun _ => Or.inl) id

variable [LawfulBeekem]

theorem addMember_spec (member key : Bytes32) :
    Wp (addMember member key)
      (fun op c' => Progress c c' op.toList [] ∧ c'.certs = c.certs ∧
        (op = none → c'.currentMembers = c.currentMembers) ∧
        ∀ o ∈ op, Minted c.signer c.cgka o ∧ o.payload.added? = some member)
      (fun _ c' => Progress c c' [] [] ∧ c'.certs = c.certs ∧
        c'.currentMembers = c.currentMembers) c := by
  unfold addMember
  rw [wp_bind, wp_get]
  refine (wp_onTree c (LawfulBeekem.add_spec member key c.signer c.cgka)).seq ?_ ?_
  · rintro op c' ⟨g, ⟨hgrows, hop⟩, rfl⟩
    cases op with
    | none => exact ⟨.of_nil (evolves_of_grows c hgrows []), rfl, fun _ => rfl, by simp⟩
    | some op =>
        obtain ⟨hminted, hadded⟩ := hop op rfl
        have hall : ∀ o ∈ some op, Minted c.signer c.cgka o ∧ o.payload.added? = some member :=
          fun o ho => Option.some.inj ho ▸ ⟨hminted, hadded⟩
        exact ⟨.of_minted (.add hadded hgrows hminted.takenIn) (by simpa using hminted), rfl, by simp, hall⟩
  · rintro e c' ⟨err, g, -, hgrows, rfl⟩
    exact ⟨.of_nil (evolves_of_grows c hgrows []), rfl, rfl⟩

theorem removeMember_spec (member : Bytes32) :
    Wp (removeMember member)
      (fun op c' => Progress c c' op.toList [] ∧ c'.certs = c.certs ∧
        (op = none → c'.currentMembers = c.currentMembers) ∧
        ∀ o ∈ op, Minted c.signer c.cgka o ∧
          ∃ doc preds detail, o.payload = .remove doc member preds detail)
      (fun _ c' => Progress c c' [] [] ∧ c'.certs = c.certs ∧
        c'.currentMembers = c.currentMembers) c := by
  unfold removeMember
  rw [wp_bind, wp_get]
  refine (wp_onTree c (LawfulBeekem.remove_spec member c.signer c.cgka)).seq ?_ ?_
  · rintro op c' ⟨g, ⟨hgrows, hop⟩, rfl⟩
    cases op with
    | none => exact ⟨.of_nil (evolves_of_grows c hgrows []), rfl, fun _ => rfl, by simp⟩
    | some op =>
        obtain ⟨hminted, hremove⟩ := hop op rfl
        obtain ⟨doc, preds, detail, hpayload⟩ := hremove
        have hnone : op.payload.added? = none := by rw [hpayload]; rfl
        have hseat : seat c.currentMembers op = c.currentMembers.erase member := by
          rw [seat, hpayload]
        exact ⟨.of_minted (.shrink hnone hgrows hminted.takenIn hseat (Finset.erase_subset _ _))
          (by simpa using hminted), rfl, by simp,
          fun o ho => Option.some.inj ho ▸ ⟨hminted, doc, preds, detail, hpayload⟩⟩
  · rintro e c' ⟨err, g, -, hgrows, rfl⟩
    exact ⟨.of_nil (evolves_of_grows c hgrows []), rfl, rfl⟩

omit [Keyhive] [LawfulBeekem] in
/-- An operation that changes only its issuer's own key. -/
def IsUpdate (op : ControlOp) : Prop :=
  ∃ doc preds detail, op.payload = .update doc preds detail

omit [Keyhive] [LawfulBeekem] in
theorem foldl_seat_updates {l : List ControlOp} (h : ∀ op ∈ l, IsUpdate op)
    (members : Finset Bytes32) : l.foldl seat members = members := by
  induction l with
  | nil => rfl
  | cons op rest ih =>
      obtain ⟨doc, preds, detail, hpayload⟩ := h op List.mem_cons_self
      have hseat : seat members op = members := by rw [seat, hpayload]
      rw [List.foldl_cons, hseat]
      exact ih fun op hop => h op (List.mem_cons_of_mem _ hop)

omit [LawfulBeekem] in
/-- What a program that draws randomness does: it takes in updates, and nothing but
the local key changes beside the tree. -/
structure Rekeys (c c' : CgkaController) (added : List ControlOp) : Prop where
  progress : Progress c c' added []
  updates : ∀ op ∈ added, IsUpdate op
  issued : ∀ op ∈ added, op.issuer = c.signer
  introduced : Placed c → ∀ op ∈ added, Introduced op
  certs : c'.certs = c.certs
  current : c'.currentMembers = c.currentMembers

omit [LawfulBeekem] in
theorem Rekeys.trans {c c' c'' : CgkaController} {l l' : List ControlOp} (h : Rekeys c c' l)
    (h' : Rekeys c' c'' l') : Rekeys c c'' (l ++ l') where
  progress := h.progress.trans h'.progress
  updates := fun op hop => (List.mem_append.mp hop).elim (h.updates op) (h'.updates op)
  issued := fun op hop => (List.mem_append.mp hop).elim (h.issued op) fun hop =>
    (h'.issued op hop).trans h.progress.evolves.signer
  introduced := fun hc op hop => (List.mem_append.mp hop).elim (h.introduced hc op)
    (h'.introduced (hc.evolve h.progress.evolves) op)
  certs := h'.certs.trans h.certs
  current := h'.current.trans h.current

omit [LawfulBeekem] in
theorem Rekeys.of_grows {c c' : CgkaController} {g : Cgka} {l : List ControlOp}
    (hgrows : Grows c.cgka g l) (horder : TakenIn (graph c.cgka) l)
    (hl : ∀ op ∈ l, Minted c.signer c.cgka op ∧ IsUpdate op)
    (hc : c' = { c with cgka := g, shareSecret := c'.shareSecret, shareKey := c'.shareKey })
    (hpaired : PairedKeys c → PairedKeys c') : Rekeys c c' l := by
  have hadded : ∀ op ∈ l, op.payload.added? = none := by
    intro op hop
    obtain ⟨doc, preds, detail, hpayload⟩ := (hl op hop).2
    rw [hpayload]
    rfl
  refine
    { progress := .of_minted ?_ fun op hop => (hl op hop).1
      updates := fun op hop => (hl op hop).2
      issued := fun op hop => (hl op hop).1.issuer
      introduced := fun hplaced op hop => hplaced.introduced (hl op hop).1
      certs := by rw [hc]
      current := by rw [hc] }
  rw [hc] at hpaired ⊢
  exact
    { signer := rfl
      memberId := rfl
      tree := hgrows
      order := horder
      known := by
        intro m
        simp only [iff_self_or]
        rintro ⟨op, hop, h⟩
        rw [hadded op hop] at h
        exact absurd h (by simp)
      current := id
      members := (foldl_seat_updates (fun op hop => (hl op hop).2) _).symm
      founder := rfl
      certs := fun _ => id
      verified := id
      parked := fun _ => Or.inl
      paired := hpaired }

omit [LawfulBeekem] in
theorem Rekeys.refl (c : CgkaController) : Rekeys c c [] :=
  .of_grows (Grows.refl c.cgka) trivial (by simp) rfl id

theorem rotate_spec (rng : Rng) :
    Wp rotate
      (fun op p => Rekeys c p.1 [op] ∧ ∃ newKey newSecret q,
        Beekem.update newKey newSecret c.signer q = .ok op (p.1.cgka, p.2))
      (fun _ p => Rekeys c p.1 []) (c, rng) := by
  unfold rotate
  rw [wp_bind, wp_get]
  dsimp only
  rw [wp_bind, wp_set]
  have hspec := LawfulBeekem.update_spec (Beekem.shareKey (Beekem.generateShareSecret rng).1)
    (Beekem.generateShareSecret rng).1 c.signer c.cgka (Beekem.generateShareSecret rng).2
  unfold onTreeRng
  rw [wp_bind, wp_zoom]
  unfold Wp at hspec ⊢
  cases hrun : Beekem.update (Beekem.shareKey (Beekem.generateShareSecret rng).1)
      (Beekem.generateShareSecret rng).1 c.signer
      (c.cgka, (Beekem.generateShareSecret rng).2) with
  | ok op p =>
      rw [hrun] at hspec
      obtain ⟨hgrows, hminted, hupdate⟩ := hspec
      exact ⟨.of_grows hgrows hminted.takenIn (by simpa using ⟨hminted, hupdate⟩) rfl fun _ => rfl,
        _, _, _, hrun⟩
  | error e p =>
      rw [hrun] at hspec
      exact .of_grows hspec trivial (by simp) rfl id

theorem encrypt_spec (plaintext : Bytes) (predRefs : List Bytes32) (rng : Rng) :
    Wp (encrypt plaintext predRefs)
      (fun r p => Rekeys c p.1 r.2.toList ∧
        (∃ secret, Beekem.tryEncrypt secret plaintext = some r.1) ∧
        ∃ ref content signer q a,
          Beekem.newAppSecretFor ref content predRefs signer q = .ok a (p.1.cgka, p.2))
      (fun _ p => ∃ op : Option ControlOp, Rekeys c p.1 op.toList ∧
        (op = none ∧ ¬ Keyable c.cgka ∨
          ∃ secret, Beekem.tryEncrypt secret plaintext = none)) (c, rng) := by
  unfold encrypt onTreeRng
  rw [wp_bind, wp_get, wp_bind, wp_zoom]
  have hspec := LawfulBeekem.newAppSecretFor_spec (Beekem.hashBytes plaintext) plaintext predRefs
    c.signer c.cgka rng
  unfold Wp at hspec ⊢
  dsimp only
  cases hrun : Beekem.newAppSecretFor (Beekem.hashBytes plaintext) plaintext predRefs c.signer
      (c.cgka, rng) with
  | ok r q =>
      obtain ⟨secret, op⟩ := r
      rw [hrun] at hspec
      obtain ⟨hgrows, hop⟩ := hspec
      have horder : TakenIn (graph c.cgka) op.toList := by
        cases op with
        | none => exact trivial
        | some o => exact (hop o rfl).1.takenIn
      have hrekeys : Rekeys c { c with cgka := q.1 } op.toList :=
        .of_grows hgrows horder (fun o ho => hop o (Option.mem_toList.mp ho)) rfl id
      dsimp only
      cases hchunk : Beekem.tryEncrypt secret plaintext with
      | none => exact ⟨op, hrekeys, Or.inr ⟨secret, hchunk⟩⟩
      | some chunk => exact ⟨hrekeys, ⟨secret, hchunk⟩, _, _, _, _, _, hrun⟩
  | error e q =>
      rw [hrun] at hspec
      refine ⟨none, .of_grows hspec trivial (by simp) rfl id, Or.inl ⟨rfl, fun hkeyable => ?_⟩⟩
      obtain ⟨r, p, hok⟩ := hkeyable (Beekem.hashBytes plaintext) plaintext predRefs c.signer rng
      exact absurd (hok.symm.trans hrun) (by simp)

/-- A failed fresh encryption took nothing in, or the cipher failed, or the tree
could not key a chunk after the rotation. -/
theorem encryptFresh_spec (plaintext : Bytes) (predRefs : List Bytes32) (rng : Rng) :
    Wp (encryptFresh plaintext predRefs)
      (fun r p => Rekeys c p.1 r.2 ∧ ∃ secret, Beekem.tryEncrypt secret plaintext = some r.1)
      (fun _ p => ∃ ops, Rekeys c p.1 ops ∧
        (ops = [] ∨ (∃ secret, Beekem.tryEncrypt secret plaintext = none) ∨
          ∃ newKey newSecret signer q op q',
            Beekem.update newKey newSecret signer q = .ok op q' ∧ ¬ Keyable q'.1)) (c, rng) := by
  unfold encryptFresh
  refine (rotate_spec c rng).seq ?_ ?_
  · rintro rotation ⟨c', rng'⟩ ⟨hrotate, newKey, newSecret, q, hupdate⟩
    refine (encrypt_spec c' plaintext predRefs rng').seq ?_ ?_
    · rintro ⟨chunk, implicit⟩ p ⟨hencrypt, hchunk, -⟩
      exact ⟨hrotate.trans hencrypt, hchunk⟩
    · rintro e p ⟨op, hencrypt, ⟨-, hkeyable⟩ | hcipher⟩
      · exact ⟨_, hrotate.trans hencrypt, Or.inr (Or.inr ⟨_, _, _, _, _, _, hupdate, hkeyable⟩)⟩
      · exact ⟨_, hrotate.trans hencrypt, Or.inr (Or.inl hcipher)⟩
  · intro e p h
    exact ⟨[], h, Or.inl rfl⟩

theorem decrypt_spec (chunk : Chunk OpHash) :
    Wp (decrypt chunk) (fun _ c' => ∃ g, Grows c.cgka g [] ∧ c' = { c with cgka := g })
      (fun _ c' => ∃ g, Grows c.cgka g [] ∧ c' = { c with cgka := g }) c := by
  unfold decrypt
  rw [wp_bind, wp_attempt]
  refine (wp_onTree c (LawfulBeekem.decryptionKeyFor_spec chunk c.cgka)).mono ?_ ?_
  · rintro key c' h
    dsimp only
    cases Beekem.tryDecrypt chunk key with
    | none => exact h
    | some plaintext => exact h
  · rintro e c' ⟨err, g, -, hgrows, rfl⟩
    dsimp only
    rw [wp_bind, wp_get]
    split_ifs
    · exact ⟨g, hgrows, rfl⟩
    · exact ⟨g, hgrows, rfl⟩

/-! ### Merging -/

omit [LawfulBeekem] in
theorem park_evolves (a : AuthorizedOp) : Evolves c (c.park a) [] [a] := by
  unfold park
  split_ifs
  · refine .of_tree rfl rfl (Grows.refl c.cgka) rfl rfl rfl (fun x hx => ?_) id
    rw [List.mem_append] at hx
    exact hx.imp_left List.mem_of_mem_tail
  · refine .of_tree rfl rfl (Grows.refl c.cgka) rfl rfl rfl (fun x hx => ?_) id
    rwa [List.mem_append] at hx

omit [LawfulBeekem] in
theorem recordMembership_evolves {op : ControlOp} {g : Cgka} (h : Grows c.cgka g [op])
    (horder : TakenIn (graph c.cgka) [op]) (o : List AuthorizedOp) :
    Evolves c (recordMembership op.payload { c with cgka := g }) [op] o := by
  cases hop : op.payload with
  | add doc added pk preds detail =>
      have hadded : op.payload.added? = some added := by rw [hop]; rfl
      exact .add hadded h horder
  | remove doc removed preds detail =>
      have hnone : op.payload.added? = none := by rw [hop]; rfl
      have hseat : seat c.currentMembers op = c.currentMembers.erase removed := by rw [seat, hop]
      exact .shrink hnone h horder hseat (Finset.erase_subset _ _)
  | update doc preds detail =>
      have hnone : op.payload.added? = none := by rw [hop]; rfl
      have hseat : seat c.currentMembers op = c.currentMembers := by rw [seat, hop]
      exact .shrink hnone h horder hseat (Finset.Subset.refl _)

/-- What an applied operation had to pass. -/
structure Accepted (c : CgkaController) (op : ControlOp) : Prop where
  predecessors : ∀ h ∈ op.payload.predecessors, ∃ p ∈ graph c.cgka, opHash p = h
  known : op.issuer ∈ c.knownMembers
  authorized : authorize c.certs op.payload op.issuer = .ok ()
  fresh : op ∉ graph c.cgka

theorem mergeVerified_spec (a : AuthorizedOp) :
    Wp (mergeVerified a)
      (fun outcome c' => c'.certs = c.certs ∧
        (outcome = .applied ∧ Accepted c a.op ∧ Evolves c c' [a.op] [a] ∨
          outcome ≠ .applied ∧ Evolves c c' [] [a]))
      (fun _ c' => c'.certs = c.certs ∧ c'.currentMembers = c.currentMembers ∧
        Evolves c c' [] []) c := by
  unfold mergeVerified
  rw [wp_bind, wp_get]
  dsimp only
  split_ifs with hpreds hknown
  · have hpreds' := (LawfulBeekem.containsPredecessors_iff c.cgka _).mp hpreds
    rw [wp_bind, wp_verdict]
    cases hauth : authorize c.certs a.op.payload a.op.issuer with
    | error err => exact ⟨rfl, rfl, .refl c⟩
    | ok u =>
        dsimp only
        rw [wp_bind, wp_attempt]
        refine (wp_onTree c (LawfulBeekem.mergeConcurrentOperation_spec a.op c.cgka)).mono ?_ ?_
        · rintro applied c' ⟨g, hg, rfl⟩
          cases applied with
          | false =>
              simp only [Bool.false_eq_true, if_false] at hg
              exact ⟨rfl, Or.inr ⟨by simp, evolves_of_grows c hg.2 [a]⟩⟩
          | true =>
              simp only [if_true] at hg
              have hcerts : (recordMembership a.op.payload { c with cgka := g }).certs =
                  c.certs := by
                unfold recordMembership
                cases a.op.payload <;> rfl
              exact ⟨hcerts, Or.inl ⟨rfl, ⟨hpreds', hknown, hauth, hg.1⟩,
                recordMembership_evolves c hg.2 ⟨⟨hg.1, hpreds'⟩, trivial⟩ [a]⟩⟩
        · rintro e c' ⟨err, g, rfl, hg, rfl⟩
          have hevolves := evolves_of_grows c hg
          cases err with
          | outOfOrderOperation => exact ⟨rfl, Or.inr ⟨by simp, hevolves [a]⟩⟩
          | removeLastMember => exact ⟨rfl, rfl, hevolves []⟩
          | identifierNotFound => exact ⟨rfl, rfl, hevolves []⟩
          | other code => exact ⟨rfl, rfl, hevolves []⟩
  · exact ⟨rfl, rfl, .refl c⟩
  · refine ⟨?_, Or.inr ⟨by simp, park_evolves c a⟩⟩
    unfold park
    split_ifs <;> rfl

/-- A change made by merging: the certificates stay as they are. -/
structure Merges (c c' : CgkaController) (added : List ControlOp) (offered : List AuthorizedOp) :
    Prop where
  progress : Progress c c' added offered
  certs : c'.certs = c.certs

omit [LawfulBeekem] in
theorem Merges.refl {o : List AuthorizedOp} : Merges c c [] o := ⟨.refl c, rfl⟩

omit [LawfulBeekem] in
theorem Merges.trans {c c' c'' : CgkaController} {l l' : List ControlOp} {o o' : List AuthorizedOp}
    (h : Merges c c' l o) (h' : Merges c' c'' l' o') : Merges c c'' (l ++ l') (o ++ o') :=
  ⟨h.progress.trans h'.progress, h'.certs.trans h.certs⟩

/-- Merging an operation takes it in or takes in nothing. -/
theorem mergeVerified_merges (a : AuthorizedOp) :
    Wp (mergeVerified a)
      (fun outcome c' => Merges c c' (if outcome = .applied then [a.op] else []) [a])
      (fun _ c' => Merges c c' [] [a] ∧ c'.currentMembers = c.currentMembers) c := by
  refine (mergeVerified_spec c a).mono ?_ ?_
  · rintro outcome c' ⟨hcerts, ⟨rfl, -, h⟩ | ⟨hnot, h⟩⟩
    · refine ⟨⟨h, fun root _ ho op hop => ?_⟩, hcerts⟩
      exact List.mem_singleton.mp hop ▸ ho a List.mem_cons_self
    · rw [if_neg hnot]
      exact ⟨.of_nil h, hcerts⟩
  · rintro e c' ⟨hcerts, hcurrent, h⟩
    exact ⟨⟨.of_nil (h.offer fun _ hx => absurd hx List.not_mem_nil), hcerts⟩, hcurrent⟩

theorem merge_progress (a : AuthorizedOp) :
    Wp (merge a)
      (fun outcome c' => Progress c c' (if outcome = .applied then [a.op] else []) [a] ∧
        c'.certs = (c.certs.extend a.proof).2)
      (fun _ c' => Progress c c' [] [a] ∧ c'.currentMembers = c.currentMembers ∧
        (c'.certs = c.certs ∨ c'.certs = (c.certs.extend a.proof).2)) c := by
  unfold merge
  split_ifs with hverify
  · rw [wp_bind, wp_modify]
    have hext := Progress.of_nil (Evolves.of_extend c a.proof [])
    refine (mergeVerified_merges { c with certs := (c.certs.extend a.proof).2 } a).mono ?_ ?_
    · exact fun outcome c' h => ⟨hext.trans h.progress, h.certs⟩
    · rintro e c' ⟨h, hcurrent⟩
      exact ⟨hext.trans h.progress, hcurrent, Or.inr h.certs⟩
  · exact ⟨.refl c, rfl, Or.inl rfl⟩

/-- A round over parked operations takes in some of them. -/
theorem pendingRound_merges (queue : List AuthorizedOp) (total : Nat)
    (firstError : Option CoreError) :
    Wp (pendingRound queue total firstError)
      (fun _ c' => ∃ added, Merges c c' added queue ∧ ∀ op ∈ added, ∃ a ∈ queue, a.op = op)
      (fun _ _ => False) c := by
  induction queue generalizing c total firstError with
  | nil => exact ⟨[], .refl c, by simp⟩
  | cons a rest ih =>
      have hnext : ∀ (c' : CgkaController) (head : List ControlOp) (total : Nat)
          (firstError : Option CoreError), (∀ op ∈ head, op = a.op) →
          Merges c c' head [a] →
          Wp (pendingRound rest total firstError)
            (fun _ c'' => ∃ added, Merges c c'' added (a :: rest) ∧
              ∀ op ∈ added, ∃ b ∈ a :: rest, b.op = op) (fun _ _ => False) c' := by
        intro c' head total firstError hhead hmerges
        refine (ih c' total firstError).mono ?_ fun _ _ => id
        rintro r c'' ⟨added, hadded, hmem⟩
        refine ⟨head ++ added, hmerges.trans hadded, fun op hop => ?_⟩
        rcases List.mem_append.mp hop with hop | hop
        · exact ⟨a, List.mem_cons_self, (hhead op hop).symm⟩
        · obtain ⟨b, hb, hbop⟩ := hmem op hop
          exact ⟨b, List.mem_cons_of_mem _ hb, hbop⟩
      have hnil : ∀ op ∈ ([] : List ControlOp), op = a.op := by simp
      unfold pendingRound
      rw [wp_bind, wp_attempt]
      refine (mergeVerified_merges c a).mono ?_ ?_
      · intro outcome c' h
        cases outcome with
        | applied => exact hnext c' [a.op] _ _ (by simp) h
        | duplicate => exact hnext c' [] _ _ hnil h
        | deferred => exact hnext c' [] _ _ hnil h
      · rintro e c' ⟨h, -⟩
        cases e <;> exact hnext c' [] _ _ hnil h

theorem pendingRounds_merges (fuel total : Nat) (firstError : Option CoreError) :
    Wp (pendingRounds fuel total firstError)
      (fun _ c' => ∃ added, Merges c c' added [] ∧ ∀ op ∈ added, ∃ a ∈ c.parked, a.op = op)
      (fun _ c' => ∃ added, Merges c c' added [] ∧ ∀ op ∈ added, ∃ a ∈ c.parked, a.op = op)
      c := by
  induction fuel generalizing c total firstError with
  | zero => exact ⟨[], .refl c, by simp⟩
  | succ fuel ih =>
      unfold pendingRounds
      rw [wp_bind, wp_get, wp_bind, wp_set]
      refine (pendingRound_merges { c with parked := [] } c.parked total firstError).seq ?_
        fun _ _ => False.elim
      rintro ⟨total', firstError'⟩ c' ⟨added, hmerges, hadded⟩
      have hround : Merges c c' added [] := ⟨hmerges.progress.of_queue, hmerges.certs⟩
      dsimp only
      split_ifs
      · cases firstError' with
        | none => exact ⟨added, hround, hadded⟩
        | some err => exact ⟨added, hround, hadded⟩
      · have hmore : ∀ c'' : CgkaController,
            (∃ later, Merges c' c'' later [] ∧ ∀ op ∈ later, ∃ a ∈ c'.parked, a.op = op) →
            ∃ all, Merges c c'' all [] ∧ ∀ op ∈ all, ∃ a ∈ c.parked, a.op = op := by
          rintro c'' ⟨later, hlater, hmem⟩
          refine ⟨added ++ later, hround.trans hlater, fun op hop => ?_⟩
          rcases List.mem_append.mp hop with hop | hop
          · exact hadded op hop
          · obtain ⟨a, ha, rfl⟩ := hmem op hop
            have hparked := hround.progress.evolves.parked a ha
            exact ⟨a, hparked.elim id (absurd · List.not_mem_nil), rfl⟩
        exact (ih c' total' firstError').mono (fun _ => hmore) fun _ => hmore

/-- Draining the queue takes in some of what was parked. -/
theorem mergePending_merges :
    Wp mergePending
      (fun _ c' => ∃ added, Merges c c' added [] ∧ ∀ op ∈ added, ∃ a ∈ c.parked, a.op = op)
      (fun _ c' => ∃ added, Merges c c' added [] ∧ ∀ op ∈ added, ∃ a ∈ c.parked, a.op = op)
      c := by
  unfold mergePending
  rw [wp_bind, wp_get]
  exact pendingRounds_merges c _ _ _

end CgkaController

end IrohBeekem
