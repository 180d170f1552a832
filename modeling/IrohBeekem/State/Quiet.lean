import IrohBeekem.Keys.Causal
import IrohBeekem.State.Handle

/-!
# What publishing does

Most handlers change neither the membership nor the namespace: they change
documents, and encrypt.  `Harmless` is a program that touches neither the
operation graph nor the namespace, `Publishes` one that may re-key the tree and
broadcasts every operation this took.  Both compose, so each handler's
specification follows the shape of its program.
-/

set_option linter.unusedSectionVars false

namespace IrohBeekem

open Library CgkaController

variable [Keyhive] [Beekem] [Loro] [Postcard]

/-! ## Effects -/

omit [Loro] [Postcard] in
/-- The operation an effect broadcasts, with its proof. -/
def Effect.sent? : Effect → Option (ControlOp × List Certificate)
  | .broadcastOp op proof => some (op, proof)
  | _ => none

omit [Loro] [Postcard] in
/-- The operations that effects broadcast, with their proofs. -/
def sent (effects : List Effect) : List (ControlOp × List Certificate) :=
  effects.filterMap Effect.sent?

omit [Loro] [Postcard] in
/-- Whether an effect is about the namespace. -/
def Effect.aboutNamespace : Effect → Bool
  | .rotateNamespace _ => true
  | .publishNamespace _ _ => true
  | .adoptNamespace _ _ => true
  | _ => false

section Effects

omit [Loro] [Postcard]

@[simp] theorem sent_nil : sent ([] : List Effect) = [] := rfl

@[simp] theorem sent_append (l l' : List Effect) : sent (l ++ l') = sent l ++ sent l' :=
  List.filterMap_append

theorem mem_sent {effects : List Effect} {op : ControlOp} {proof : List Certificate} :
    (op, proof) ∈ sent effects ↔ Effect.broadcastOp op proof ∈ effects := by
  simp only [sent, List.mem_filterMap]
  constructor
  · rintro ⟨effect, hmem, hsent⟩
    cases effect with
    | broadcastOp op' proof' =>
        simp only [Effect.sent?, Option.some.injEq, Prod.mk.injEq] at hsent
        rw [← hsent.1, ← hsent.2]
        exact hmem
    | _ => exact absurd hsent (by simp [Effect.sent?])
  · exact fun hmem => ⟨_, hmem, rfl⟩

@[simp] theorem sent_map_broadcast (ops : List ControlOp) :
    sent (ops.map Effect.broadcast) = ops.map fun op => (op, []) := by
  induction ops with
  | nil => rfl
  | cons op rest ih => exact congrArg (List.cons (op, [])) ih

/-- Effects that broadcast no operation and are not about the namespace. -/
structure Silent (effects : List Effect) : Prop where
  sent : sent effects = []
  quiet : ∀ e ∈ effects, e.aboutNamespace = false

theorem Silent.nil : Silent ([] : List Effect) := ⟨rfl, by simp⟩

theorem Silent.append {l l' : List Effect} (h : Silent l) (h' : Silent l') : Silent (l ++ l') where
  sent := by rw [sent_append, h.sent, h'.sent]; rfl
  quiet := fun e he => (List.mem_append.mp he).elim (h.quiet e) (h'.quiet e)

/-- Effects that broadcast these operations, which need no proof, and are not about
the namespace. -/
structure Announces (effects : List Effect) (ops : List ControlOp) : Prop where
  sent : sent effects = ops.map fun op => (op, [])
  quiet : ∀ e ∈ effects, e.aboutNamespace = false

theorem Silent.announces {l : List Effect} (h : Silent l) : Announces l [] := ⟨h.sent, h.quiet⟩

theorem Announces.append {l l' : List Effect} {ops ops' : List ControlOp}
    (h : Announces l ops) (h' : Announces l' ops') : Announces (l ++ l') (ops ++ ops') where
  sent := by rw [sent_append, h.sent, h'.sent, List.map_append]
  quiet := fun e he => (List.mem_append.mp he).elim (h.quiet e) (h'.quiet e)

theorem Announces.broadcasts (ops : List ControlOp) :
    Announces (ops.map Effect.broadcast) ops where
  sent := sent_map_broadcast ops
  quiet := by
    intro e he
    obtain ⟨op, -, rfl⟩ := List.mem_map.mp he
    rfl

end Effects

/-! ## The state -/

/-- The state changed beside the membership and the namespace, and the tree took in
updates of the local member. -/
structure Rekeyed (s s' : WorkspaceState) (ops : List ControlOp) : Prop where
  cgka : Rekeys s.cgka s'.cgka ops
  namespaceEpoch : s'.namespaceEpoch = s.namespaceEpoch
  namespaceTicket : s'.namespaceTicket = s.namespaceTicket
  executedHere : s'.executedHere = s.executedHere

namespace Rekeyed

variable {s s' s'' : WorkspaceState} {ops ops' : List ControlOp}

/-- The controller and the namespace are as they were. -/
theorem of_same (hcgka : s'.cgka = s.cgka) (hepoch : s'.namespaceEpoch = s.namespaceEpoch)
    (hticket : s'.namespaceTicket = s.namespaceTicket)
    (hexecuted : s'.executedHere = s.executedHere) : Rekeyed s s' [] where
  cgka := hcgka ▸ .refl s.cgka
  namespaceEpoch := hepoch
  namespaceTicket := hticket
  executedHere := hexecuted

theorem refl (s : WorkspaceState) : Rekeyed s s [] := of_same rfl rfl rfl rfl

theorem trans (h : Rekeyed s s' ops) (h' : Rekeyed s' s'' ops') :
    Rekeyed s s'' (ops ++ ops') where
  cgka := h.cgka.trans h'.cgka
  namespaceEpoch := h'.namespaceEpoch.trans h.namespaceEpoch
  namespaceTicket := h'.namespaceTicket.trans h.namespaceTicket
  executedHere := h'.executedHere.trans h.executedHere

end Rekeyed

/-! ## Steady libraries -/

omit [Keyhive] [Postcard] in
/-- The libraries do not fail a call that has begun to change the tree: encryption
succeeds, a tree that keys chunks goes on to and one that was just updated does,
an operation whose predecessors are there merges, and a replica takes what is
written to it and can be exported. -/
structure Steady : Prop where
  encrypts : ∀ secret plaintext, ∃ chunk, Beekem.tryEncrypt secret plaintext = some chunk
  keyable_update : ∀ newKey newSecret signer p op p',
    Beekem.update newKey newSecret signer p = .ok op p' → Keyable p'.1
  keyable_secret : ∀ ref content predRefs signer p r p',
    Beekem.newAppSecretFor ref content predRefs signer p = .ok r p' → Keyable p'.1
  keyable_add : ∀ member key signer g op g', Beekem.add member key signer g = .ok op g' →
    Keyable g → Keyable g'
  merges : ∀ (op : ControlOp) (g : Cgka),
    (∀ h ∈ op.payload.predecessors, ∃ p ∈ graph g, opHash p = h) →
      ∃ applied g', Beekem.mergeConcurrentOperation op g = .ok applied g'
  exports : ∀ mode (d : LoroDoc), ∃ bytes, Loro.exportAs mode d = .ok bytes
  inserts : ∀ map key value (d : LoroDoc), ∃ d', Loro.insert map key value d = .ok () d' ∧
    ∀ name key, map ≠ .root name → Loro.get d (.root name) key = some .map →
      Loro.get d' (.root name) key = some .map
  insertsContainer : ∀ name key (d : LoroDoc), ∃ d', Loro.insertContainer name key d = .ok () d' ∧
    Loro.get d' (.root name) key = some .map
  commits : ∀ (d : LoroDoc) name key, Loro.get d (.root name) key = some .map →
    Loro.get (Loro.commit d) (.root name) key = some .map

/-! ## Access -/

namespace WorkspaceState

section Access

variable {α : Type} {p : WorkspaceState × Rng}

@[simp] theorem wp_self {Q : WorkspaceState → WorkspaceState × Rng → Prop}
    {E : CoreError → WorkspaceState × Rng → Prop} : Wp self Q E p ↔ Q p.1 p := Iff.rfl

@[simp] theorem wp_update {f : WorkspaceState → WorkspaceState}
    {Q : Unit → WorkspaceState × Rng → Prop} {E : CoreError → WorkspaceState × Rng → Prop} :
    Wp (update f) Q E p ↔ Q () (f p.1, p.2) := Iff.rfl

theorem wp_onCgka {x : EStateM CoreError CgkaController α}
    {Q : α → WorkspaceState × Rng → Prop} {E : CoreError → WorkspaceState × Rng → Prop} :
    Wp (onCgka x) Q E p ↔
      Wp x (fun a c => Q a ({ p.1 with cgka := c }, p.2))
        (fun e c => E e ({ p.1 with cgka := c }, p.2)) p.1.cgka :=
  wp_zoom

theorem wp_onCgkaRng {x : EStateM CoreError (CgkaController × Rng) α}
    {Q : α → WorkspaceState × Rng → Prop} {E : CoreError → WorkspaceState × Rng → Prop} :
    Wp (onCgkaRng x) Q E p ↔
      Wp x (fun a q => Q a ({ p.1 with cgka := q.1 }, q.2))
        (fun e q => E e ({ p.1 with cgka := q.1 }, q.2)) (p.1.cgka, p.2) :=
  wp_zoom

end Access

/-! ## Programs that touch neither the membership nor the namespace -/

/-- The program takes no operation in and leaves the namespace alone. -/
def Harmless {α : Type} (x : Run α) : Prop :=
  ∀ s rng, Wp x (fun _ p => Rekeyed s p.1 []) (fun _ p => Rekeyed s p.1 []) (s, rng)

/-- The program is harmless and does not fail. -/
def Sure {α : Type} (x : Run α) : Prop :=
  ∀ s rng, Wp x (fun _ p => Rekeyed s p.1 []) (fun _ _ => False) (s, rng)

/-- The program is harmless, and so are the effects it returns. -/
def Quiet (x : Run (List Effect)) : Prop :=
  ∀ s rng, Wp x (fun effects p => Rekeyed s p.1 [] ∧ Silent effects)
    (fun _ p => Rekeyed s p.1 []) (s, rng)

/-- The program broadcasts the operations it takes in, which are updates, and
leaves the namespace alone.  If it fails although the libraries are steady, it
has taken none in. -/
def Emits {α : Type} (out : α → List Effect) (x : Run α) : Prop :=
  ∀ s rng, Wp x (fun a p => ∃ ops, Rekeyed s p.1 ops ∧ Announces (out a) ops)
    (fun _ p => ∃ ops, Rekeyed s p.1 ops ∧ (Steady → ops = [])) (s, rng)

/-- A program that emits what it returns. -/
abbrev Publishes (x : Run (List Effect)) : Prop := Emits id x

section Rules

variable {α β : Type} {x : Run α} {f : α → Run β} {g : α → Run (List Effect)}

theorem Harmless.pure (a : α) : Harmless (pure a : Run α) := fun s _ => Rekeyed.refl s

theorem Harmless.throw (e : CoreError) : Harmless (throw e : Run α) := fun s _ => Rekeyed.refl s

theorem Harmless.bind (hx : Harmless x) (hf : ∀ a, Harmless (f a)) : Harmless (x >>= f) := by
  intro s rng
  refine (hx s rng).seq ?_ fun _ _ h => h
  intro a p h
  exact (hf a p.1 p.2).mono (fun _ _ h' => h.trans h') fun _ _ h' => h.trans h'

theorem Harmless.self : Harmless self := fun s _ => Rekeyed.refl s

theorem Sure.harmless (hx : Sure x) : Harmless x := fun s rng =>
  (hx s rng).mono (fun _ _ h => h) fun _ _ => False.elim

theorem Sure.pure (a : α) : Sure (pure a : Run α) := fun s _ => Rekeyed.refl s

theorem Sure.bind (hx : Sure x) (hf : ∀ a, Sure (f a)) : Sure (x >>= f) := by
  intro s rng
  refine (hx s rng).seq ?_ fun _ _ => id
  intro a p h
  exact (hf a p.1 p.2).mono (fun _ _ h' => h.trans h') fun _ _ => id

theorem Sure.self : Sure self := fun s _ => Rekeyed.refl s

theorem Harmless.sure (hx : Harmless x) :
    Sure (Library.attempt x : Run (Except CoreError α)) := by
  intro s rng
  rw [wp_attempt]
  exact hx s rng

/-- A change that leaves the controller and the namespace alone. -/
theorem Sure.update {h : WorkspaceState → WorkspaceState} (hcgka : ∀ s, (h s).cgka = s.cgka)
    (hepoch : ∀ s, (h s).namespaceEpoch = s.namespaceEpoch)
    (hticket : ∀ s, (h s).namespaceTicket = s.namespaceTicket)
    (hexecuted : ∀ s, (h s).executedHere = s.executedHere) : Sure (WorkspaceState.update h) :=
  fun s _ => .of_same (hcgka s) (hepoch s) (hticket s) (hexecuted s)

theorem Harmless.update {h : WorkspaceState → WorkspaceState} (hcgka : ∀ s, (h s).cgka = s.cgka)
    (hepoch : ∀ s, (h s).namespaceEpoch = s.namespaceEpoch)
    (hticket : ∀ s, (h s).namespaceTicket = s.namespaceTicket)
    (hexecuted : ∀ s, (h s).executedHere = s.executedHere) :
    Harmless (WorkspaceState.update h) :=
  (Sure.update hcgka hepoch hticket hexecuted).harmless

theorem Harmless.attempt (hx : Harmless x) :
    Harmless (Library.attempt x : Run (Except CoreError α)) := hx.sure.harmless

theorem Harmless.onManifest (y : EStateM CoreError Manifest α) : Harmless (onManifest y) := by
  intro s rng
  unfold WorkspaceState.onManifest
  rw [wp_zoom]
  unfold Wp
  split <;> exact .of_same rfl rfl rfl rfl

theorem Harmless.onDoc (doc : DocumentUuid) (rename : String → CoreError)
    (y : EStateM String LoroDoc α) : Harmless (onDoc doc rename y) := by
  intro s rng
  unfold WorkspaceState.onDoc
  rw [wp_zoom]
  unfold Wp
  split <;> exact .of_same rfl rfl rfl rfl

theorem Quiet.pure {effects : List Effect} (h : Silent effects) : Quiet (Pure.pure effects) :=
  fun s _ => ⟨Rekeyed.refl s, h⟩

theorem Harmless.quiet (hx : Harmless x) (hg : ∀ a, Quiet (g a)) : Quiet (x >>= g) := by
  intro s rng
  refine (hx s rng).seq ?_ fun _ _ h => h
  intro a p h
  exact (hg a p.1 p.2).mono (fun _ _ h' => ⟨h.trans h'.1, h'.2⟩) fun _ _ h' => h.trans h'

theorem Quiet.publishes {y : Run (List Effect)} (h : Quiet y) : Publishes y := by
  intro s rng
  exact (h s rng).mono (fun _ _ h => ⟨[], h.1, h.2.announces⟩) fun _ _ h => ⟨[], h, fun _ => rfl⟩

theorem Emits.throw {out : α → List Effect} (e : CoreError) : Emits out (throw e) :=
  fun s _ => ⟨[], Rekeyed.refl s, fun _ => rfl⟩

theorem Harmless.emits {out : β → List Effect} (hx : Harmless x) (hf : ∀ a, Emits out (f a)) :
    Emits out (x >>= f) := by
  intro s rng
  refine (hx s rng).seq ?_ fun _ _ h => ⟨[], h, fun _ => rfl⟩
  intro a p h
  refine (hf a p.1 p.2).mono ?_ ?_
  · rintro b p' ⟨ops, h', hsent⟩
    exact ⟨ops, h.trans h', hsent⟩
  · rintro e p' ⟨ops, h', hnone⟩
    exact ⟨ops, h.trans h', hnone⟩

/-- What follows an emission may be harmless, as long as it emits the same. -/
theorem Emits.andThen {out : α → List Effect} {out' : β → List Effect} (hx : Emits out x)
    (hf : ∀ a s rng, Wp (f a)
      (fun b p => Rekeyed s p.1 [] ∧ ∃ l, Silent l ∧ out' b = l ++ out a)
      (fun _ _ => False) (s, rng)) : Emits out' (x >>= f) := by
  intro s rng
  refine (hx s rng).seq ?_ fun _ _ h => h
  rintro a p ⟨ops, h, hsent⟩
  refine (hf a p.1 p.2).mono ?_ fun _ _ => False.elim
  rintro b p' ⟨h', l, hl, hout⟩
  refine ⟨ops, by simpa using h.trans h', ?_⟩
  rw [hout]
  exact hl.announces.append hsent

end Rules

end WorkspaceState

end IrohBeekem
