import IrohBeekem.Keys.Beekem

/-!
# A list model of the key agreement

The smallest group state that keeps the laws: the operations merged so far, latest
first and in causal order, the members that hold a leaf, and whether the root
carries a key.  A new operation names the heads of the list.  A ciphertext is its
plaintext under the name of the epoch.

It shows that the laws hold together, and it computes, so a run of the controller
over it can be evaluated.
-/

namespace IrohBeekem

open Library

/-! ## Identities of operations -/

/-- An operation spelled out with everything it follows, as a digest that cannot
collide; lists are spelled with `nil` and `cons`. -/
inductive OpId where
  | nil
  | cons (head tail : OpId)
  | op (kind : Nat) (doc a b : Bytes32) (detail : Nat) (issuer : Bytes32)
      (signature : Bytes64) (predecessors : OpId)
  deriving DecidableEq

/-- A list of identities, spelled as one. -/
def OpId.ofList : List OpId → OpId
  | [] => .nil
  | h :: t => .cons h (ofList t)

theorem OpId.ofList_injective : Function.Injective OpId.ofList := by
  intro l
  induction l with
  | nil =>
      intro l' h
      cases l' with
      | nil => rfl
      | cons a t => exact absurd h (by simp [ofList])
  | cons x rest ih =>
      intro l' h
      cases l' with
      | nil => exact absurd h (by simp [ofList])
      | cons a t =>
          simp only [ofList, OpId.cons.injEq] at h
          rw [h.1, ih h.2]

/-- Spell an operation out. -/
def OpId.of (op : Signed (CgkaOperation OpId)) : OpId :=
  match op.payload with
  | .add doc id pk preds detail =>
      .op 0 doc id pk detail op.issuer op.signature (ofList preds)
  | .remove doc id preds detail =>
      .op 1 doc id 0 detail op.issuer op.signature (ofList preds)
  | .update doc preds detail =>
      .op 2 doc 0 0 detail op.issuer op.signature (ofList preds)

theorem OpId.of_injective : Function.Injective OpId.of := by
  rintro ⟨p, issuer, signature⟩ ⟨p', issuer', signature'⟩ h
  cases p <;> cases p' <;>
    simp only [OpId.of, OpId.op.injEq, OpId.ofList_injective.eq_iff] at h <;> grind

/-! ## The list -/

/-- Operations latest first, each after those it names, with none twice. -/
structure ListCgka where
  log : List (Signed (CgkaOperation OpId))
  init : Signed (CgkaOperation OpId)
  init_mem : init ∈ log
  nodup : log.Nodup
  causal : CausalBy OpId.of (fun op => op.payload.predecessors) log
  /-- Who holds a leaf. -/
  leaves : List Bytes32
  /-- The update that keyed the root, if nothing has blanked it since. -/
  keyed : Option OpId

namespace ListCgka

/-- The operations no other one follows. -/
def heads (g : ListCgka) : List (Signed (CgkaOperation OpId)) :=
  g.log.filter fun h => g.log.all fun op => OpId.of h ∉ op.payload.predecessors

/-- Whether every digest names an operation of the list. -/
def has (g : ListCgka) (hs : List OpId) : Bool :=
  hs.all fun h => g.log.any fun op => OpId.of op = h

theorem has_iff {g : ListCgka} {hs : List OpId} :
    g.has hs = true ↔ ∀ h ∈ hs, ∃ p ∈ g.log, OpId.of p = h := by
  simp [has]

/-- Take in an operation that is new and whose predecessors are there. -/
def push (g : ListCgka) (op : Signed (CgkaOperation OpId)) (leaves : List Bytes32)
    (keyed : Option OpId) (hnew : op ∉ g.log)
    (hpreds : ∀ h ∈ op.payload.predecessors, ∃ p ∈ g.log, OpId.of p = h) : ListCgka where
  log := op :: g.log
  init := g.init
  init_mem := List.mem_cons_of_mem _ g.init_mem
  nodup := List.nodup_cons.mpr ⟨hnew, g.nodup⟩
  causal := ⟨g.causal, hpreds⟩
  leaves := leaves
  keyed := keyed

/-- The digests of the heads. -/
def headHashes (g : ListCgka) : List OpId := g.heads.map OpId.of

theorem headHashes_mem (g : ListCgka) : ∀ h ∈ g.headHashes, ∃ p ∈ g.log, OpId.of p = h := by
  intro h hh
  obtain ⟨p, hp, rfl⟩ := List.mem_map.mp hh
  exact ⟨p, (List.mem_filter.mp hp).1, rfl⟩

/-- In a causal list, nothing names a later operation. -/
private theorem not_named_of_later {l : List (Signed (CgkaOperation OpId))} {op x}
    (hcausal : CausalBy OpId.of (fun op => op.payload.predecessors) (op :: l))
    (hnodup : (op :: l).Nodup) (hx : x ∈ op :: l) : OpId.of op ∉ x.payload.predecessors := by
  have hop : op ∉ l := (List.nodup_cons.mp hnodup).1
  -- wherever `x` stands, what it names stands before it, within `l`
  have hnamed : ∀ later earlier, l = later ++ x :: earlier →
      OpId.of op ∉ x.payload.predecessors := by
    rintro later earlier rfl hmem
    obtain ⟨p, hp, hhash⟩ := hcausal.1.of_append.2 _ hmem
    refine hop ?_
    rw [← OpId.of_injective hhash]
    exact List.mem_append_right _ (List.mem_cons_of_mem _ hp)
  rcases List.mem_cons.mp hx with rfl | hx
  · intro hmem
    obtain ⟨p, hp, hhash⟩ := hcausal.2 _ hmem
    exact hop (OpId.of_injective hhash ▸ hp)
  · obtain ⟨later, earlier, heq⟩ := List.append_of_mem hx
    exact hnamed later earlier heq

/-- There is always a head, so an operation that names the heads is new. -/
theorem not_mem_of_heads {g : ListCgka} {op : Signed (CgkaOperation OpId)}
    (hop : op.payload.predecessors = g.headHashes) : op ∉ g.log := by
  intro hmem
  obtain ⟨latest, rest, hlog⟩ := List.exists_cons_of_ne_nil (List.ne_nil_of_mem g.init_mem)
  have hhead : latest ∈ g.heads := by
    refine List.mem_filter.mpr ⟨by simp [hlog], ?_⟩
    rw [List.all_eq_true]
    intro x hx
    have hcausal := g.causal
    have hnodup := g.nodup
    rw [hlog] at hcausal hnodup hx
    simpa using not_named_of_later hcausal hnodup hx
  have hnamed : OpId.of latest ∈ op.payload.predecessors := by
    rw [hop]
    exact List.mem_map.mpr ⟨latest, hhead, rfl⟩
  have hall := List.all_eq_true.mp (List.mem_filter.mp hhead).2 op hmem
  simp [hnamed] at hall

/-- Mint an operation that names the heads. -/
def mint (g : ListCgka) (payload : List OpId → Nat → CgkaOperation OpId)
    (hpayload : ∀ preds detail, (payload preds detail).predecessors = preds) (signer : Bytes32)
    (leaves : List Bytes32) (keyed : OpId → Option OpId) :
    Signed (CgkaOperation OpId) × ListCgka :=
  let op : Signed (CgkaOperation OpId) :=
    ⟨payload g.headHashes g.log.length, signer, (signer, 0)⟩
  (op, g.push op leaves (keyed (OpId.of op)) (not_mem_of_heads (hpayload _ _))
    fun h hh => g.headHashes_mem h (by simpa [op, hpayload] using hh))

/-- The tree that holds nothing but a founding operation. -/
def founded (init : Signed (CgkaOperation OpId)) (founder : Bytes32)
    (h : init.payload.predecessors = []) : ListCgka where
  log := [init]
  init := init
  init_mem := List.mem_singleton_self init
  nodup := by simp
  causal := ⟨trivial, by simp [h]⟩
  leaves := [founder]
  keyed := none

def new (treeId memberId shareKey signer : Bytes32) : ListCgka :=
  founded ⟨.add treeId memberId shareKey [] 0, signer, (signer, 0)⟩ memberId rfl

def newFromInitAdd (treeId founderId founderPk : Bytes32) (init : Signed (CgkaOperation OpId)) :
    Except CgkaError ListCgka :=
  match h : init.payload with
  | .add doc id pk [] detail =>
      if doc = treeId ∧ id = founderId ∧ pk = founderPk then
        .ok (founded init founderId (by rw [h]; rfl))
      else .error (.other 0)
  | _ => .error (.other 0)

def addLeaf (memberId shareKey signer : Bytes32) :
    EStateM CgkaError ListCgka (Option (Signed (CgkaOperation OpId))) := fun g =>
  if memberId ∈ g.leaves then .ok none g
  else
    let r := g.mint (.add (CgkaOperation.docId g.init.payload) memberId shareKey) (fun _ _ => rfl)
      signer (memberId :: g.leaves) fun _ => none
    .ok (some r.1) r.2

def removeLeaf (memberId signer : Bytes32) :
    EStateM CgkaError ListCgka (Option (Signed (CgkaOperation OpId))) := fun g =>
  if memberId ∉ g.leaves then .ok none g
  else if g.leaves.all (· = memberId) then .error .removeLastMember g
  else
    let r := g.mint (.remove (CgkaOperation.docId g.init.payload) memberId) (fun _ _ => rfl)
      signer (g.leaves.filter (· ≠ memberId)) fun _ => none
    .ok (some r.1) r.2

/-- Key the root with a new update. -/
def rekey (signer : Bytes32) (g : ListCgka) : Signed (CgkaOperation OpId) × ListCgka :=
  g.mint (.update (CgkaOperation.docId g.init.payload)) (fun _ _ => rfl) signer g.leaves some

def update (_newKey _newSecret signer : Bytes32) :
    EStateM CgkaError (ListCgka × Nat) (Signed (CgkaOperation OpId)) := fun p =>
  .ok (rekey signer p.1).1 ((rekey signer p.1).2, p.2)

/-- The name of the epoch an update established. -/
def epochOf : OpId → Bytes32
  | .op _ _ _ _ detail _ _ _ => Fin.ofNat _ detail
  | _ => 0

/-- A secret for one chunk under the current epoch, which is established first if
there is none. -/
def newAppSecretFor (contentRef : Bytes32) (_content : Bytes) (predRefs : List Bytes32)
    (signer : Bytes32) :
    EStateM CgkaError (ListCgka × Nat)
      ((Bytes32 × List Bytes32 × OpId) × Option (Signed (CgkaOperation OpId))) := fun p =>
  match p.1.keyed with
  | some id => .ok ((contentRef, predRefs, id), none) p
  | none =>
      .ok ((contentRef, predRefs, OpId.of (rekey signer p.1).1), some (rekey signer p.1).1)
        ((rekey signer p.1).2, p.2)

def mergeConcurrentOperation (op : Signed (CgkaOperation OpId)) :
    EStateM CgkaError ListCgka Bool := fun g =>
  if hpreds : ∀ h ∈ op.payload.predecessors, ∃ p ∈ g.log, OpId.of p = h then
    if hnew : op ∈ g.log then .ok false g
    else
      .ok true (match op.payload with
        | .add _ id _ _ _ => g.push op (id :: g.leaves.erase id) none hnew hpreds
        | .remove _ id _ _ => g.push op (g.leaves.erase id) none hnew hpreds
        | .update _ _ _ => g.push op g.leaves (some (OpId.of op)) hnew hpreds)
  else .error .outOfOrderOperation g

def decryptionKeyFor (chunk : Chunk OpId) : EStateM CgkaError ListCgka Bytes32 := fun g =>
  if g.has [chunk.pcsUpdateOpHash] then .ok chunk.pcsKeyHash g
  else .error .identifierNotFound g

end ListCgka

/-- The key agreement over lists. -/
@[reducible] def listBeekem : Beekem where
  OpHash := OpId
  Cgka := ListCgka
  Rng := Nat
  AppSecret := Bytes32 × List Bytes32 × OpId
  opHash := OpId.of
  verifyOp op := op.signature = (op.issuer, 0)
  graph g := { op | op ∈ g.log }
  shareKey secret := secret
  generateShareSecret rng := (Fin.ofNat _ rng, rng + 1)
  randomNonce rng := (Fin.ofNat _ rng, rng + 1)
  randomKey rng := (Fin.ofNat _ rng, rng + 1)
  hashBytes bytes := bytes.foldl (fun h b => h * 257 + Fin.ofNat _ (b.toNat + 1)) 0
  keyedHash key bytes := bytes.foldl (fun h b => h * 257 + Fin.ofNat _ (b.toNat + 1)) key
  new treeId memberId shareKey signer := .ok (.new treeId memberId shareKey signer)
  newFromInitAdd := ListCgka.newFromInitAdd
  insertOwnerSk _ _ g := g
  withNewOwner _ _ _ g := .ok g
  initAddOp g := g.init
  groupSize g := Fin.ofNat _ g.leaves.length
  ops g := .ok (g.log.reverse.map fun op => [op])
  containsPredecessors g hs := g.has hs
  add := ListCgka.addLeaf
  remove := ListCgka.removeLeaf
  update := ListCgka.update
  newAppSecretFor := ListCgka.newAppSecretFor
  mergeConcurrentOperation := ListCgka.mergeConcurrentOperation
  decryptionKeyFor := ListCgka.decryptionKeyFor
  tryEncrypt secret plaintext :=
    some ⟨plaintext, secret.1, secret.2.1, ListCgka.epochOf secret.2.2, secret.2.2⟩
  tryDecrypt chunk key := if key = chunk.pcsKeyHash then some chunk.ciphertext else none

section Laws

local instance listModelBeekem : Beekem := listBeekem

private theorem grows_push {g : ListCgka} {op : Signed (CgkaOperation OpId)}
    {leaves : List Bytes32} {keyed : Option OpId} (hnew : op ∉ g.log)
    (hpreds : ∀ h ∈ op.payload.predecessors, ∃ p ∈ g.log, OpId.of p = h) :
    Grows (g : Cgka) (g.push op leaves keyed hnew hpreds : ListCgka) [op] :=
  ⟨rfl, fun x => by
    change x ∈ op :: g.log ↔ x ∈ g.log ∨ x ∈ [op]
    rw [List.mem_cons, List.mem_singleton, or_comm]⟩

/-- Everything in the list comes before an operation that names the heads. -/
private theorem before_of_heads {g : ListCgka} {op : ControlOp}
    (hop : op.payload.predecessors = g.headHashes) : ∀ a ∈ g.log, Before a op := by
  -- by the number of operations that are later in the list
  suffices h : ∀ (n : Nat) (later earlier : List (Signed (CgkaOperation OpId))) (a),
      later.length = n → g.log = later ++ a :: earlier → Before a op by
    intro a ha
    obtain ⟨later, earlier, heq⟩ := List.append_of_mem ha
    exact h later.length later earlier a rfl heq
  intro n
  induction n using Nat.strong_induction_on with
  | _ n ih =>
      intro later earlier a hn hlog
      have hmem : a ∈ g.log := by simp [hlog]
      by_cases hhead : a ∈ g.heads
      · refine .direct ?_
        rw [hop]
        exact List.mem_map.mpr ⟨a, hhead, rfl⟩
      · -- something names `a`, and it is later
        obtain ⟨x, hx, hnamed⟩ : ∃ x ∈ g.log, OpId.of a ∈ x.payload.predecessors := by
          by_contra hnone
          refine hhead (List.mem_filter.mpr ⟨hmem, List.all_eq_true.mpr fun x hx => ?_⟩)
          simpa using fun h => hnone ⟨x, hx, h⟩
        have hlater : x ∈ later := by
          by_contra hnot
          have hrest : x ∈ a :: earlier := by
            rw [hlog] at hx
            exact (List.mem_append.mp hx).resolve_left hnot
          have hcausal := g.causal
          have hnodup := g.nodup
          rw [hlog] at hcausal hnodup
          exact ListCgka.not_named_of_later hcausal.of_append (List.nodup_append.mp hnodup).2.1
            hrest hnamed
        obtain ⟨later', between, heq⟩ := List.append_of_mem hlater
        have hbefore : Before x op := by
          refine ih later'.length ?_ later' (between ++ a :: earlier) x rfl ?_
          · rw [← hn, heq]
            simp
          · rw [hlog, heq]
            simp
        exact Before.trans (.direct hnamed) hbefore

private theorem listMint_spec (g : ListCgka) (payload : List OpId → Nat → CgkaOperation OpId)
    (hpayload : ∀ preds detail, (payload preds detail).predecessors = preds) (signer : Bytes32)
    (leaves : List Bytes32) (keyed : OpId → Option OpId) :
    Minted signer (g : Cgka) (g.mint payload hpayload signer leaves keyed).1 ∧
      Grows (g : Cgka) (g.mint payload hpayload signer leaves keyed).2
        [(g.mint payload hpayload signer leaves keyed).1] := by
  have hop : (g.mint payload hpayload signer leaves keyed).1.payload.predecessors =
      g.headHashes := hpayload _ _
  have hpreds : ∀ h ∈ (g.mint payload hpayload signer leaves keyed).1.payload.predecessors,
      ∃ p ∈ g.log, OpId.of p = h := by
    rw [hop]
    exact g.headHashes_mem
  have hnew := ListCgka.not_mem_of_heads hop
  exact ⟨⟨rfl, decide_eq_true rfl, hnew, hpreds, before_of_heads hop⟩, grows_push hnew hpreds⟩

private theorem newFromInitAdd_inv {treeId founderId pk : Bytes32} {init : ControlOp}
    {g : ListCgka} (h : ListCgka.newFromInitAdd treeId founderId pk init = .ok g) :
    graph (g : Cgka) = {init} ∧ Beekem.initAddOp (g : Cgka) = init := by
  unfold ListCgka.newFromInitAdd at h
  split at h
  · split_ifs at h
    cases h
    exact ⟨by ext; simp [graph, ListCgka.founded], rfl⟩
  · exact absurd h (by simp)

private theorem addLeaf_spec (memberId key signer : Bytes32) (g : ListCgka) :
    Wp (ListCgka.addLeaf memberId key signer)
      (fun op g' => Grows (g : Cgka) g' op.toList ∧
        ∀ o ∈ op, Minted signer (g : Cgka) o ∧ o.payload.added? = some memberId)
      (fun _ g' => Grows (g : Cgka) g' []) g := by
  unfold Wp ListCgka.addLeaf
  split_ifs with hleaf
  · exact ⟨Grows.refl _, by simp⟩
  · obtain ⟨hminted, hgrows⟩ := listMint_spec g
      (.add (CgkaOperation.docId g.init.payload) memberId key) (fun _ _ => rfl)
      signer (memberId :: g.leaves) fun _ => none
    exact ⟨hgrows, fun o ho => Option.some.inj ho ▸ ⟨hminted, rfl⟩⟩

private theorem removeLeaf_spec (memberId signer : Bytes32) (g : ListCgka) :
    Wp (ListCgka.removeLeaf memberId signer)
      (fun op g' => Grows (g : Cgka) g' op.toList ∧ ∀ o ∈ op, Minted signer (g : Cgka) o ∧
        ∃ doc preds detail, o.payload = .remove doc memberId preds detail)
      (fun _ g' => Grows (g : Cgka) g' []) g := by
  unfold Wp ListCgka.removeLeaf
  split_ifs with hleaf hlast
  · exact Grows.refl _
  · obtain ⟨hminted, hgrows⟩ := listMint_spec g
      (.remove (CgkaOperation.docId g.init.payload) memberId) (fun _ _ => rfl)
      signer (g.leaves.filter (· ≠ memberId)) fun _ => none
    exact ⟨hgrows, fun o ho => Option.some.inj ho ▸ ⟨hminted, _, _, _, rfl⟩⟩
  · exact ⟨Grows.refl _, by simp⟩

private theorem rekey_spec (signer : Bytes32) (g : ListCgka) :
    Minted signer (g : Cgka) (g.rekey signer).1 ∧
      Grows (g : Cgka) (g.rekey signer).2 [(g.rekey signer).1] :=
  listMint_spec g _ (fun _ _ => rfl) signer g.leaves some

private theorem newAppSecretFor_grows (ref : Bytes32) (content : Bytes)
    (predRefs : List Bytes32) (signer : Bytes32) (g : ListCgka) (rng : Nat) :
    Wp (ListCgka.newAppSecretFor ref content predRefs signer)
      (fun r p => Grows (g : Cgka) p.1 r.2.toList ∧ ∀ o ∈ r.2, Minted signer (g : Cgka) o ∧
        ∃ doc preds detail, o.payload = .update doc preds detail)
      (fun _ p => Grows (g : Cgka) p.1 []) (g, rng) := by
  unfold Wp ListCgka.newAppSecretFor
  dsimp only
  cases g.keyed with
  | some id => exact ⟨Grows.refl _, by simp⟩
  | none =>
      obtain ⟨hminted, hgrows⟩ := rekey_spec signer g
      exact ⟨hgrows, fun o ho => Option.some.inj ho ▸ ⟨hminted, _, _, _, rfl⟩⟩

private theorem mergeConcurrentOperation_grows (op : ControlOp) (g : ListCgka) :
    Wp (ListCgka.mergeConcurrentOperation op)
      (fun applied g' => if applied then op ∉ graph (g : Cgka) ∧ Grows (g : Cgka) g' [op]
        else op ∈ graph (g : Cgka) ∧ Grows (g : Cgka) g' [])
      (fun _ g' => Grows (g : Cgka) g' []) g := by
  unfold Wp ListCgka.mergeConcurrentOperation
  split_ifs with hpreds hnew
  · exact ⟨hnew, Grows.refl _⟩
  · refine ⟨hnew, ?_⟩
    cases op.payload <;> exact grows_push hnew hpreds
  · exact Grows.refl _

private theorem decryptionKeyFor_grows (chunk : Chunk OpHash) (g : ListCgka) :
    Wp (ListCgka.decryptionKeyFor chunk) (fun _ g' => Grows (g : Cgka) g' [])
      (fun _ g' => Grows (g : Cgka) g' []) g := by
  unfold Wp ListCgka.decryptionKeyFor
  split_ifs
  · exact Grows.refl _
  · exact Grows.refl _

private theorem predecessors_mem_log (g : ListCgka) (op : ControlOp) (hop : op ∈ g.log) :
    ∀ h ∈ op.payload.predecessors, ∃ p ∈ g.log, OpId.of p = h := by
  intro h hh
  obtain ⟨later, earlier, heq⟩ := List.append_of_mem hop
  have hcausal := g.causal
  rw [heq] at hcausal
  obtain ⟨p, hp, hhash⟩ := hcausal.of_append.2 h hh
  exact ⟨p, heq ▸ List.mem_append_right _ (List.mem_cons_of_mem _ hp), hhash⟩

private theorem mergeConcurrentOperation_isOk (op : ControlOp) (g : ListCgka)
    (hpreds : ∀ h ∈ op.payload.predecessors, ∃ p ∈ g.log, OpId.of p = h) :
    ∃ applied g', ListCgka.mergeConcurrentOperation op g = .ok applied g' := by
  unfold ListCgka.mergeConcurrentOperation
  split_ifs with hready hnew
  · exact ⟨_, _, rfl⟩
  · exact ⟨_, _, rfl⟩
  · exact absurd hpreds hready

private theorem newFromInitAdd_isOk (treeId founderId pk : Bytes32) (init : ControlOp)
    (detail : Nat) (h : init.payload = .add treeId founderId pk [] detail) :
    ∃ g, ListCgka.newFromInitAdd treeId founderId pk init = .ok g := by
  obtain ⟨payload, issuer, signature⟩ := init
  cases h
  exact ⟨_, if_pos ⟨rfl, rfl, rfl⟩⟩

private theorem ops_causal (g : ListCgka) :
    (g.log.reverse.map fun op => [op]).flatten.Nodup ∧
      (∀ op, op ∈ (g.log.reverse.map fun op => [op]).flatten ↔ op ∈ g.log) ∧
      CausalBy OpId.of (fun op => op.payload.predecessors)
        (g.log.reverse.map fun op => [op]).flatten.reverse := by
  have hflat : (g.log.reverse.map fun op => [op]).flatten = g.log.reverse := by
    rw [← List.flatMap_def, List.flatMap_singleton']
  rw [hflat, List.reverse_reverse]
  exact ⟨List.nodup_reverse.2 g.nodup, fun op => List.mem_reverse, g.causal⟩

/-- The list model keeps every law. -/
theorem listBeekem_live : LiveBeekem where
  opHash_injective := OpId.of_injective
  initAddOp_mem g := ListCgka.init_mem g
  predecessors_mem := predecessors_mem_log
  containsPredecessors_iff _ _ := ListCgka.has_iff
  new_spec treeId memberId key signer g h := by
    cases h
    exact ⟨Set.ext fun op => List.mem_singleton, ⟨0, rfl⟩, rfl, decide_eq_true rfl⟩
  newFromInitAdd_spec _ _ _ _ _ h := newFromInitAdd_inv h
  insertOwnerSk_spec _ _ g := Grows.refl g
  withNewOwner_spec _ _ _ g g' h := by
    cases h
    exact Grows.refl g
  add_spec := addLeaf_spec
  remove_spec := removeLeaf_spec
  update_spec newKey newSecret signer g rng := by
    obtain ⟨hminted, hgrows⟩ := rekey_spec signer g
    exact ⟨hgrows, hminted, _, _, _, rfl⟩
  newAppSecretFor_spec := newAppSecretFor_grows
  mergeConcurrentOperation_spec := mergeConcurrentOperation_grows
  decryptionKeyFor_spec := decryptionKeyFor_grows
  ops_spec g := ⟨_, rfl, ops_causal g⟩
  newFromInitAdd_ok := newFromInitAdd_isOk
  withNewOwner_ok _ _ _ g := ⟨g, rfl⟩
  mergeConcurrentOperation_ok := mergeConcurrentOperation_isOk

end Laws

end IrohBeekem
