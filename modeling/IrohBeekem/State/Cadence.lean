import IrohBeekem.State.Books
import IrohBeekem.State.ListModel

/-!
# How often a document goes out in full

An edit is published as a delta until sixteen of them have gone out since the last full
export.  What a call publishes is read off the program (`Call.publications`), and every
call accounts for its publications in the books (`Call.accounts`).

The version on record survives a restart and the count of deltas does not: after one,
the next publish is a delta again and a new run of them begins.  Runs in which a node
restarts only while nothing of the document is on record keep the cadence
(`full_publish_cadence`).
-/

set_option linter.unusedSectionVars false

namespace IrohBeekem

open Library WorkspaceState

variable [Keyhive] [Beekem] [Loro] [Postcard]

/-! ## What a call publishes -/

/-- A chunk of a document that went out. -/
structure Publication where
  doc : DocumentUuid
  extent : Extent
  content : Bytes

/-- The document a repair publishes, in full. -/
def RepairTarget.ships? : RepairTarget → Option (DocumentUuid × Extent)
  | .document doc => some (doc, .full)
  | .documentHistory doc => some (doc, .full)
  | _ => none

/-- The document an event publishes, and to what extent. -/
def Event.ships? (s : WorkspaceState) : Event → Option (DocumentUuid × Extent)
  | .localEdit doc _ => some (doc, s.publishExtent doc)
  | .writeFile doc _ => some (doc, s.publishExtent doc)
  | .insertText doc _ _ => some (doc, s.publishExtent doc)
  | .removeText doc _ _ => some (doc, s.publishExtent doc)
  | .revertDocument doc _ => some (doc, s.publishExtent doc)
  | .resync doc => some (doc, .full)
  | .repairRequested _ target _ => target.ships?
  | _ => none

/-- The document a call publishes, and to what extent, if it publishes one at most. -/
def Call.ships? (s : WorkspaceState) : Call → Option (DocumentUuid × Extent)
  | .handle event _ => event.ships? s
  | .onControl (.repair _ target _) _ => target.ships?
  | _ => none

/-- What a program has published that publishes one chunk at most, if it has effects. -/
def published (x : Run (List Effect)) (target : Option (DocumentUuid × Extent))
    (p : WorkspaceState × Rng) : List Publication :=
  match target, x p with
  | some (doc, extent), .ok (_ :: _) p' => [⟨doc, extent, shippedContent doc extent p.1 p'.1⟩]
  | _, _ => []

local instance documentIds : LawfulBEq DocumentUuid := inferInstance

/-- What the loop of `restore_checkpoint` has published, entry by entry. -/
def restorePublications (live : List DocumentUuid) (now : UnixSeconds) :
    List (DocumentUuid × VersionId) → WorkspaceState × Rng → List Publication
  | [], _ => []
  | (doc, version) :: rest, p =>
      if doc ∉ live then restorePublications live now rest p
      else if p.1.documentVersion doc = some version then restorePublications live now rest p
      else
        published (onRevert doc version now) (some (doc, p.1.publishExtent doc)) p ++
          match onRevert doc version now p with
          | .ok _ p' => restorePublications live now rest p'
          | .error (.unknownVersion _) p' => restorePublications live now rest p'
          | .error .unknownDocument p' => restorePublications live now rest p'
          | .error _ _ => []

/-- What a call has published, whether or not its effects were returned. -/
def Call.publications (p : WorkspaceState × Rng) : Call → List Publication
  | .restoreCheckpoint digest now =>
      match requireWrite p, p.1.manifest.checkpoint digest with
      | .ok _ _, some found =>
          restorePublications (p.1.manifest.files.map FileEntry.uuid) now found.entries p
      | _, _ => []
  | call => published call.run (call.ships? p.1) p

/-! ## Accounts -/

/-- These publications lead from one state of the books to the other: each is what an edit
calls for, or is in full. -/
inductive Accounts : List Publication → WorkspaceState → WorkspaceState → Prop where
  | none {s s' : WorkspaceState} (h : s'.record = s.record) : Accounts [] s s'
  | ship {s s₁ s' : WorkspaceState} {item : Publication} {rest : List Publication}
      (hshipped : Shipped item.doc item.extent item.content s s₁)
      (hextent : item.extent = s.publishExtent item.doc ∨ item.extent = .full)
      (hrest : Accounts rest s₁ s') : Accounts (item :: rest) s s'

/-- Nothing is on record any more about some documents, and the rest is as it was. -/
def Forgets (s s' : WorkspaceState) : Prop :=
  ∀ doc, s'.publishedUpTo.get? doc = none ∨
    s'.publishedUpTo.get? doc = s.publishedUpTo.get? doc ∧
      s'.deltasSinceFull.get? doc = s.deltasSinceFull.get? doc

section Calls

variable {s s' : WorkspaceState} {rng : Rng}

theorem Accounts.append {l l' : List Publication} {s₁ : WorkspaceState} (h : Accounts l s s₁)
    (h' : Accounts l' s₁ s') : Accounts (l ++ l') s s' := by
  induction h with
  | none h =>
      cases h' with
      | none h' => exact .none (h'.trans h)
      | ship hshipped hextent hrest =>
          refine .ship (hshipped.of_books h) ?_ hrest
          rw [← publishExtent_of_books h]
          exact hextent
  | ship hshipped hextent _ ih => exact .ship hshipped hextent (ih h')

/-- A program that ships accounts for what it has published. -/
theorem WorkspaceState.Ships.accounts {doc : DocumentUuid} {extent : WorkspaceState → Extent}
    {x : Run (List Effect)} (h : Ships doc extent x)
    (hextent : extent s = s.publishExtent doc ∨ extent s = .full) :
    Accounts (published x (some (doc, extent s)) (s, rng)) s (after x (s, rng)).1 := by
  have hrun := h s rng
  unfold Wp at hrun
  unfold published Library.after
  cases hx : x (s, rng) with
  | error err p =>
      rw [hx] at hrun
      exact .none hrun
  | ok effects p =>
      rw [hx] at hrun
      cases effects with
      | nil =>
          rcases hrun with ⟨-, hsame⟩ | ⟨hne, -⟩
          · exact .none hsame
          · exact absurd rfl hne
      | cons effect more =>
          rcases hrun with ⟨hnil, -⟩ | ⟨-, hshipped⟩
          · exact absurd hnil (by simp)
          · exact .ship hshipped hextent (.none rfl)

/-- The events after which something is no longer on record. -/
def Event.clears : Event → Bool
  | .deleteFile _ => true
  | .namespaceMinted _ _ => true
  | .namespaceArrived _ _ => true
  | _ => false

/-- The events that try the waiting chunks again. -/
def Event.drains : Event → Bool
  | .controlOp _ => true
  | .certsArrived _ => true
  | .chunkArrived _ _ => true
  | _ => false

/-- Every other event that publishes no document leaves the books and the queue alone. -/
theorem handle_aside {event : Event} (now : UnixSeconds) (hships : event.ships? s = none)
    (hclears : event.clears = false) (hdrains : event.drains = false) :
    Keeps ledgers (handle event now) := by
  cases event with
  | controlOp op => exact absurd hdrains (by simp [Event.drains])
  | certsArrived certs => exact absurd hdrains (by simp [Event.drains])
  | chunkArrived doc chunk => exact absurd hdrains (by simp [Event.drains])
  | localEdit doc text => exact absurd hships (by simp [Event.ships?])
  | writeFile doc text => exact absurd hships (by simp [Event.ships?])
  | insertText doc pos text => exact absurd hships (by simp [Event.ships?])
  | removeText doc pos len => exact absurd hships (by simp [Event.ships?])
  | revertDocument doc version => exact absurd hships (by simp [Event.ships?])
  | resync doc => exact absurd hships (by simp [Event.ships?])
  | deleteFile doc => exact absurd hclears (by simp [Event.clears])
  | namespaceMinted epoch ticket => exact absurd hclears (by simp [Event.clears])
  | namespaceArrived epoch chunk => exact absurd hclears (by simp [Event.clears])
  | addUser member shareKey role displayName endpoint =>
      exact requireAdmin_aside.bind fun _ => onAddUser_aside _ _ _ _ _
  | addDevice member shareKey user label endpoint =>
      exact (requireMayAddDeviceTo_aside _).bind fun _ => onAddDevice_aside _ _ _ _ _
  | removeMember member =>
      exact (requireQuorum_aside _).bind fun _ => performRemoval_aside _
  | leave =>
      exact self_aside.bind fun _ => (requireNotLastAdmin_aside _).bind fun _ =>
        removeDevices_aside _ _
  | propose action expires =>
      exact requireAdmin_aside.bind fun _ => self_aside.bind fun _ =>
        randomNonce_aside.bind fun _ => (onCgka_aside _).bind fun _ => .pure _
  | approve proposal =>
      exact requireAdmin_aside.bind fun _ => randomNonce_aside.bind fun _ =>
        (onCgka_aside _).bind fun _ => runQuorumActions_aside.bind fun _ => .pure _
  | resyncCertificates => exact self_aside.bind fun _ => .pure _
  | rotate => exact (onCgkaRng_aside _).bind fun _ => .pure _
  | manifestArrived chunk => exact onManifestArrived_aside chunk
  | upsertFile entry =>
      exact requireWrite_aside.bind fun _ => (onManifest_aside _).bind fun _ =>
        publishManifest_aside _
  | renameFile doc path =>
      exact requireWrite_aside.bind fun _ => (onManifest_aside _).bind fun _ =>
        publishManifest_aside _
  | setRole user role => exact onSetRole_aside user role
  | setInfo info =>
      exact requireAdmin_aside.bind fun _ => (onManifest_aside _).bind fun _ =>
        publishManifest_aside _
  | setDisplayName displayName =>
      refine self_aside.bind fun s => ?_
      split
      · exact .throw _
      · exact (onManifest_aside _).bind fun _ => publishManifest_aside _
  | announceAuthor author =>
      exact self_aside.bind fun _ => (onManifest_aside _).bind fun _ => publishManifest_aside _
  | resyncManifest => exact publishManifest_aside _
  | resyncNamespace => exact republishNamespace_aside _
  | repairRequested requester target epoch =>
      have hanswer : ∀ {x : Run (List Effect)}, Keeps ledgers x → Keeps ledgers (do
          let effects ← x
          if effects ≠ [] then
            update fun s => { s with repairsAnswered := s.repairsAnswered + 1 }
          return effects) := by
        intro x hx
        refine hx.bind fun effects => ?_
        dsimp only
        split_ifs
        · exact (update_aside fun _ => rfl).bind fun _ => .pure _
        · exact .pure _
      refine self_aside.bind fun s => .ite (.throw _) ?_
      cases target with
      | namespace_ => exact hanswer (republishNamespace_aside _)
      | manifest => exact hanswer (publishManifest_aside _)
      | assetKey asset => exact .pure _
      | document doc => exact absurd hships (by simp [Event.ships?, RepairTarget.ships?])
      | documentHistory doc => exact absurd hships (by simp [Event.ships?, RepairTarget.ships?])
  | announceEndpoint endpointId =>
      exact (update_aside fun _ => rfl).bind fun _ => recordEndpoint_aside.bind fun _ =>
        .ite (publishManifest_aside _) (.pure _)

/-- The chunks that wait may be tried, and the books are still left alone. -/
theorem handle_books {event : Event} (now : UnixSeconds) (hships : event.ships? s = none)
    (hclears : event.clears = false) : Keeps books (handle event now) := by
  cases hdrains : event.drains with
  | false => exact (handle_aside now hships hclears hdrains).books
  | true =>
      cases event with
      | controlOp op => exact onControlOp_books op
      | certsArrived certs => exact onCertsArrived_books certs
      | chunkArrived doc chunk => exact onChunkArrived_books doc chunk
      | _ => exact absurd hdrains (by simp [Event.drains])

/-- Counting the answer changes nothing about it. -/
theorem WorkspaceState.Ships.answer {doc : DocumentUuid} {extent : WorkspaceState → Extent}
    {x : Run (List Effect)} (h : Ships doc extent x) : Ships doc extent (do
      let effects ← x
      if effects ≠ [] then
        update fun s => { s with repairsAnswered := s.repairsAnswered + 1 }
      return effects) := by
  intro s rng
  refine (h s rng).seq (fun effects p hshipped => ?_) fun _ _ => id
  rcases hshipped with ⟨rfl, hsame⟩ | ⟨hne, hshipped⟩
  · exact Or.inl ⟨rfl, hsame⟩
  · dsimp only
    rw [if_pos hne]
    exact Or.inr ⟨hne, hshipped.content, hshipped.deltas⟩

theorem repair_ships (requester : Bytes32) {target : RepairTarget} {doc : DocumentUuid}
    {extent : Extent} (h : target.ships? = some (doc, extent)) :
    extent = .full ∧ Ships doc (fun _ => .full) (onRepairRequested requester target) := by
  cases target with
  | document doc' =>
      obtain ⟨rfl, rfl⟩ := Prod.mk.inj (Option.some.inj h)
      refine ⟨rfl, .after_full self_aside fun s => ?_⟩
      split_ifs
      · exact (repairDocument_ships doc' .fresh).answer
      · exact .throw _
  | documentHistory doc' =>
      obtain ⟨rfl, rfl⟩ := Prod.mk.inj (Option.some.inj h)
      refine ⟨rfl, .after_full self_aside fun s => ?_⟩
      split_ifs
      · exact (repairDocument_ships doc' .current).answer
      · exact .throw _
  | namespace_ => exact absurd h (by simp [RepairTarget.ships?])
  | manifest => exact absurd h (by simp [RepairTarget.ships?])
  | assetKey asset => exact absurd h (by simp [RepairTarget.ships?])

/-- Every event that publishes a document publishes one chunk of it. -/
theorem handle_ships {event : Event} (now : UnixSeconds) {doc : DocumentUuid} {extent : Extent}
    (h : event.ships? s = some (doc, extent)) :
    ∃ calledFor, Ships doc calledFor (handle event now) ∧ calledFor s = extent ∧
      (extent = s.publishExtent doc ∨ extent = .full) := by
  have hedit : ∀ {doc' : DocumentUuid} {x : Run (List Effect)},
      Ships doc' (fun s => s.publishExtent doc') x →
      ∃ calledFor, Ships doc' calledFor x ∧ calledFor s = s.publishExtent doc' ∧
        (s.publishExtent doc' = s.publishExtent doc' ∨ s.publishExtent doc' = .full) :=
    fun hx => ⟨_, hx, rfl, Or.inl rfl⟩
  cases event with
  | localEdit doc' text =>
      obtain ⟨rfl, rfl⟩ := Prod.mk.inj (Option.some.inj h)
      exact hedit (onTextEdit_ships _ _ _)
  | writeFile doc' text =>
      obtain ⟨rfl, rfl⟩ := Prod.mk.inj (Option.some.inj h)
      exact hedit (onTextEdit_ships _ _ _)
  | insertText doc' pos text =>
      obtain ⟨rfl, rfl⟩ := Prod.mk.inj (Option.some.inj h)
      exact hedit (onTextEdit_ships _ _ _)
  | removeText doc' pos len =>
      obtain ⟨rfl, rfl⟩ := Prod.mk.inj (Option.some.inj h)
      exact hedit (onTextEdit_ships _ _ _)
  | revertDocument doc' version =>
      obtain ⟨rfl, rfl⟩ := Prod.mk.inj (Option.some.inj h)
      exact hedit (onRevert_ships _ _ _)
  | resync doc' =>
      obtain ⟨rfl, rfl⟩ := Prod.mk.inj (Option.some.inj h)
      exact ⟨_, onResync_ships _, rfl, Or.inr rfl⟩
  | repairRequested requester target epoch =>
      obtain ⟨rfl, hships⟩ := repair_ships requester h
      exact ⟨_, hships, rfl, Or.inr rfl⟩
  | _ => exact absurd h (by simp [Event.ships?])

/-- Every event that publishes a document accounts for it. -/
theorem handle_accounts {event : Event} (now : UnixSeconds) {doc : DocumentUuid} {extent : Extent}
    (h : event.ships? s = some (doc, extent)) :
    Accounts (published (handle event now) (some (doc, extent)) (s, rng)) s
      (after (handle event now) (s, rng)).1 := by
  obtain ⟨calledFor, hships, rfl, hextent⟩ := handle_ships now h
  exact hships.accounts hextent

/-! ## Clearing the books -/

theorem Forgets.of_record (h : s'.record = s.record) : Forgets s s' := by
  obtain ⟨hversions, hdeltas⟩ := Prod.mk.inj h
  intro doc
  rw [hversions, hdeltas]
  exact Or.inr ⟨rfl, rfl⟩

theorem Forgets.of_empty (h : s'.publishedUpTo = .empty) : Forgets s s' := by
  intro doc
  rw [h]
  exact Or.inl (BTreeMap.get?_empty doc)

theorem Forgets.then_record {s₁ : WorkspaceState} (h : Forgets s s₁)
    (hsame : s'.record = s₁.record) : Forgets s s' := by
  obtain ⟨hversions, hdeltas⟩ := Prod.mk.inj hsame
  intro doc
  rw [hversions, hdeltas]
  exact h doc

/-- Before the books are cleared they are left alone. -/
theorem Keeps.forgets {α : Type} {x : Run α} {f : α → Run (List Effect)} (hx : Keeps books x)
    (hf : ∀ a s₁ rng₁, Wp (f a) (fun _ p => Forgets s₁ p.1) (fun _ p => Forgets s₁ p.1) (s₁, rng₁))
    (s : WorkspaceState) (rng : Rng) :
    Wp (x >>= f) (fun _ p => Forgets s p.1) (fun _ p => Forgets s p.1) (s, rng) := by
  refine (hx (s, rng)).seq (fun a p hp => ?_) fun _ p hp => .of_record hp
  have hsame : ∀ {s'}, Forgets p.1 s' → Forgets s s' := by
    intro s' hforgets doc
    obtain ⟨hversions, hdeltas⟩ := Prod.mk.inj (show p.1.record = s.record from hp)
    rw [← hversions, ← hdeltas]
    exact hforgets doc
  exact (hf a p.1 p.2).mono (fun _ _ => hsame) fun _ _ => hsame

theorem onDeleteFile_forgets (doc : DocumentUuid) (s : WorkspaceState) (rng : Rng) :
    Wp (onDeleteFile doc) (fun _ p => Forgets s p.1) (fun _ p => Forgets s p.1) (s, rng) := by
  refine Keeps.forgets requireWrite_aside.books (fun _ => Keeps.forgets self_aside.books fun s₁ =>
    Keeps.forgets (onManifest_aside _).books fun _ s₂ rng₂ => ?_) s rng
  -- the books lose the document, and what follows leaves them alone
  have hdropped : Forgets s₂ (dropDoc doc s₂) := by
    intro doc'
    unfold dropDoc
    dsimp only
    rw [BTreeMap.get?_erase, BTreeMap.get?_erase]
    split_ifs
    · exact Or.inl rfl
    · exact Or.inr ⟨rfl, rfl⟩
  rw [wp_bind, wp_update]
  refine ((publishManifest_aside .current).books (dropDoc doc s₂, rng₂)).seq (fun _ p hp => ?_)
    fun _ p hp => ?_
  · exact hdropped.then_record hp
  · exact hdropped.then_record hp

theorem onNamespaceMinted_forgets (epoch : U32) (ticket : Bytes) (s : WorkspaceState) (rng : Rng) :
    Wp (onNamespaceMinted epoch ticket) (fun _ p => Forgets s p.1) (fun _ p => Forgets s p.1)
      (s, rng) := by
  refine Keeps.forgets self_aside.books (fun s₁ s₂ rng₂ => ?_) s rng
  split_ifs
  · exact .of_record rfl
  · refine Keeps.forgets (onCgkaRng_aside _).books (fun _ s₃ rng₃ => ?_) s₂ rng₂
    exact Forgets.of_empty rfl

theorem onNamespaceArrived_forgets (epoch : U32) (chunk : Chunk OpHash) (s : WorkspaceState)
    (rng : Rng) :
    Wp (onNamespaceArrived epoch chunk) (fun _ p => Forgets s p.1) (fun _ p => Forgets s p.1)
      (s, rng) := by
  refine Keeps.forgets (onCgka_aside _).books (fun outcome s₁ rng₁ => ?_) s rng
  split
  · exact Forgets.of_record rfl
  · exact Forgets.of_record rfl
  · refine Keeps.forgets self_aside.books (fun s₂ s₃ rng₃ => ?_) s₁ rng₁
    split_ifs
    · exact Forgets.of_record rfl
    · exact Forgets.of_empty rfl

/-- Whatever an event does, it accounts for what it has published, or publishes nothing and
clears some of the books. -/
theorem handle_accounts_or_forgets (event : Event) (now : UnixSeconds) (s : WorkspaceState)
    (rng : Rng) :
    Accounts (published (handle event now) (event.ships? s) (s, rng)) s
        (after (handle event now) (s, rng)).1 ∨
      published (handle event now) (event.ships? s) (s, rng) = [] ∧
        Forgets s (after (handle event now) (s, rng)).1 := by
  cases hships : event.ships? s with
  | some target => exact Or.inl (handle_accounts now hships)
  | none =>
      have hnone : published (handle event now) none (s, rng) = [] := rfl
      rw [hnone]
      by_cases hclears : event.clears = true
      · refine Or.inr ⟨rfl, ?_⟩
        cases event with
        | deleteFile doc =>
            exact Wp.after (P := fun p : WorkspaceState × Rng => Forgets s p.1)
              (onDeleteFile_forgets doc s rng)
        | namespaceMinted epoch ticket =>
            exact Wp.after (P := fun p : WorkspaceState × Rng => Forgets s p.1)
              (onNamespaceMinted_forgets epoch ticket s rng)
        | namespaceArrived epoch chunk =>
            exact Wp.after (P := fun p : WorkspaceState × Rng => Forgets s p.1)
              (onNamespaceArrived_forgets epoch chunk s rng)
        | _ => exact absurd hclears (by simp [Event.clears])
      · left
        have hkeeps := handle_books now hships (Bool.eq_false_iff.mpr hclears) (s, rng)
        exact .none (Wp.after (P := fun p : WorkspaceState × Rng => p.1.record = s.record) hkeeps)

/-! ## Restoring a checkpoint -/

theorem restoreEntries_accounts (live : List DocumentUuid) (now : UnixSeconds)
    (entries : List (DocumentUuid × VersionId)) (effects : List Effect)
    (outcomes : List RestoreOutcome) (s : WorkspaceState) (rng : Rng) :
    Wp (restoreEntries live now entries effects outcomes)
      (fun _ p => Accounts (restorePublications live now entries (s, rng)) s p.1)
      (fun _ p => Accounts (restorePublications live now entries (s, rng)) s p.1) (s, rng) := by
  induction entries generalizing effects outcomes s rng with
  | nil => exact .none rfl
  | cons entry rest ih =>
      obtain ⟨doc, version⟩ := entry
      unfold restoreEntries restorePublications
      rw [wp_bind, wp_self]
      dsimp only
      split_ifs with hlive hsame
      · exact ih _ _ s rng
      · -- the entry is reverted, and what follows starts from where this ends
        have hship : Accounts (published (onRevert doc version now)
            (some (doc, s.publishExtent doc)) (s, rng)) s
            (after (onRevert doc version now) (s, rng)).1 :=
          (onRevert_ships doc version now).accounts (Or.inl rfl)
        unfold Library.after at hship
        have hthen : ∀ (effects' : List Effect) (outcomes' : List RestoreOutcome)
            (p : WorkspaceState × Rng),
            Accounts (published (onRevert doc version now) (some (doc, s.publishExtent doc))
              (s, rng)) s p.1 →
            Wp (restoreEntries live now rest effects' outcomes')
              (fun _ p' => Accounts (published (onRevert doc version now)
                (some (doc, s.publishExtent doc)) (s, rng) ++
                  restorePublications live now rest p) s p'.1)
              (fun _ p' => Accounts (published (onRevert doc version now)
                (some (doc, s.publishExtent doc)) (s, rng) ++
                  restorePublications live now rest p) s p'.1) p := by
          intro effects' outcomes' p hp
          exact (ih effects' outcomes' p.1 p.2).mono (fun _ _ h => hp.append h)
            fun _ _ h => hp.append h
        rw [wp_bind, wp_attempt]
        unfold Wp
        cases hrun : onRevert doc version now (s, rng) with
        | ok produced p =>
            rw [hrun] at hship
            exact hthen _ _ p hship
        | error err p =>
            rw [hrun] at hship
            cases err with
            | unknownVersion display => exact hthen _ _ p hship
            | unknownDocument => exact hthen _ _ p hship
            | _ =>
                refine Accounts.append hship (.none rfl)
      · exact ih _ _ s rng

theorem restoreCheckpoint_accounts (digest : Bytes32) (now : UnixSeconds) (s : WorkspaceState)
    (rng : Rng) :
    Accounts (Call.publications (s, rng) (.restoreCheckpoint digest now)) s
      (after (Call.run (.restoreCheckpoint digest now)) (s, rng)).1 := by
  refine Wp.after (P := fun p : WorkspaceState × Rng =>
    Accounts (Call.publications (s, rng) (.restoreCheckpoint digest now)) s p.1) ?_
  have hwrite := requireWrite_alone (s, rng)
  unfold Call.run restoreCheckpoint Call.publications
  dsimp only
  rw [wp_bind, wp_bind]
  refine wp_of_run (fun u p hrun => ?_) fun err p hrun => ?_
  · obtain rfl : p = (s, rng) := hwrite.of_ok hrun
    rw [hrun, wp_bind, wp_self]
    cases s.manifest.checkpoint digest with
    | none => exact .none rfl
    | some found =>
        exact (restoreEntries_accounts _ now found.entries [] [] s rng).mono
          (fun _ _ h => h) fun _ _ h => h
  · obtain rfl : p = (s, rng) := hwrite.of_error hrun
    rw [hrun]
    exact .none rfl

theorem onControl_accounts (msg : ControlMsg) (now : UnixSeconds) (s : WorkspaceState) (rng : Rng) :
    Accounts (Call.publications (s, rng) (.onControl msg now)) s
        (after (Call.run (.onControl msg now)) (s, rng)).1 ∨
      Call.publications (s, rng) (.onControl msg now) = [] ∧
        Forgets s (after (Call.run (.onControl msg now)) (s, rng)).1 := by
  have haside : ∀ {x : Run (List Effect)}, Keeps books x →
      Accounts [] s (after x (s, rng)).1 := fun hx =>
    .none (Wp.after (P := fun p : WorkspaceState × Rng => p.1.record = s.record) (hx (s, rng)))
  have hsized : ∀ ops certs, Keeps books (refuseOversized ops certs) := by
    intro ops certs
    unfold refuseOversized
    exact .ite (.throw _) (.pure _)
  cases msg with
  | op op proof => exact Or.inl (haside (onControlOp_books ⟨op, proof⟩))
  | certs certs =>
      exact Or.inl (haside ((hsized _ _).bind fun _ => onCertsArrived_books certs))
  | log ops certs =>
      exact Or.inl (haside ((hsized _ _).bind fun _ => (onCertsArrived_books certs).bind fun _ =>
        handleLog_books now ops _))
  | announce announced => exact Or.inl (.none rfl)
  | namespace_ epoch chunk =>
      refine Or.inr ⟨rfl, ?_⟩
      exact Wp.after (P := fun p : WorkspaceState × Rng => Forgets s p.1)
        (onNamespaceArrived_forgets epoch chunk s rng)
  | repair member target epoch =>
      left
      change Accounts (published (do
        let requester ← verdict (memberFromBytes member)
        handle (.repairRequested requester target epoch) now) target.ships? (s, rng)) s _
      cases hships : target.ships? with
      | none =>
          have hrepair : ∀ requester, Keeps ledgers
              (handle (.repairRequested requester target epoch) now) := fun requester =>
            handle_aside (s := s) now hships rfl rfl
          exact haside ((Keeps.verdict _).bind fun requester => (hrepair requester).books)
      | some shipped =>
          obtain ⟨doc, extent⟩ := shipped
          obtain ⟨rfl, -⟩ := repair_ships member hships
          have hrepair : Ships doc (fun _ => .full) (do
              let requester ← verdict (memberFromBytes member)
              handle (.repairRequested requester target epoch) now) :=
            .after_full (.verdict _) fun requester => (repair_ships requester hships).2
          exact hrepair.accounts (Or.inr rfl)

/-- Every call accounts for what it has published, or publishes nothing and clears some of
the books. -/
theorem Call.accounts (call : Call) (s : WorkspaceState) (rng : Rng) :
    Accounts (call.publications (s, rng)) s (after call.run (s, rng)).1 ∨
      call.publications (s, rng) = [] ∧ Forgets s (after call.run (s, rng)).1 := by
  have haside : ∀ {x : Run (List Effect)}, Keeps books x →
      Accounts [] s (after x (s, rng)).1 := fun hx =>
    .none (Wp.after (P := fun p : WorkspaceState × Rng => p.1.record = s.record) (hx (s, rng)))
  cases call with
  | handle event now => exact handle_accounts_or_forgets event now s rng
  | onControl msg now => exact onControl_accounts msg now s rng
  | checkpoint name message now =>
      exact Or.inl (haside ((checkpoint_aside name message now).bind fun _ => .pure _).books)
  | restoreCheckpoint digest now => exact Or.inl (restoreCheckpoint_accounts digest now s rng)
  | addAssetVersion doc content assetMeta now =>
      exact Or.inl (haside (addAssetVersion_aside doc content assetMeta now).books)
  | revertAsset doc content now => exact Or.inl (haside (revertAsset_aside doc content now).books)
  | sealAssetKey asset => exact Or.inl (haside ((sealAssetKey_aside asset).bind fun _ => .pure _).books)
  | openAssetKey keyChunk =>
      exact Or.inl (haside ((openAssetKey_aside keyChunk).bind fun _ => .pure _).books)
  | resealAssetKey requester asset keyChunk =>
      exact Or.inl (haside (resealAssetKey_aside requester asset keyChunk).books)

end Calls

/-! ## The cadence -/

/-- What a run shows of a document: that it went out, and that the node came back from a
snapshot. -/
inductive Mark where
  | published (extent : Extent)
  | imported
  deriving DecidableEq

/-- What a turn shows of a document, in order. -/
def Turn.marks (doc : DocumentUuid) (s : WorkspaceState) : Turn → List Mark
  | .call made rng =>
      ((made.publications (s, rng)).filter fun item => item.doc = doc).map
        fun item => .published item.extent
  | .restart order rng => if Library.succeeds (WorkspaceState.restart order) (s, rng) then [.imported] else []

/-- Between two full publishes there are at most `FULL_PUBLISH_EVERY` deltas, and the first
publish after an import is full. -/
structure Cadence (trace : List Mark) : Prop where
  between : ∀ before between after,
    trace = before ++ .published .full :: (between ++ .published .full :: after) →
      .published .full ∉ between → between.count (.published .delta) ≤ fullPublishEvery
  first : ∀ before between extent after,
    trace = before ++ .imported :: (between ++ .published extent :: after) →
      (∀ e, .published e ∉ between) → extent = .full

/-- The runs of a node in which it restarts only while nothing of the document is on
record, with what they show of it. -/
def cadenceRuns (doc : DocumentUuid) : Chart WorkspaceState Turn (List Mark) where
  init s trace := (Founded s ∨ Joined s) ∧ trace = []
  step := Turn.take
  note turn s trace := trace ++ turn.marks doc s
  ok turn s _ := match turn with
    | .call _ _ => True
    | .restart _ _ => s.publishedUpTo.get? doc = none

/-- The last mark of a trace that is split is the last mark of its second part. -/
theorem snoc_eq_split {α : Type} {l x y : List α} {m : α} (h : l ++ [m] = x ++ y) :
    y = [] ∨ ∃ y', y = y' ++ [m] ∧ l = x ++ y' := by
  rcases List.eq_nil_or_concat y with rfl | ⟨y', m', rfl⟩
  · exact Or.inl rfl
  · rw [List.concat_eq_append, ← List.append_assoc] at h
    obtain ⟨hl, hm⟩ := List.append_inj' h rfl
    obtain rfl := List.singleton_injective hm
    exact Or.inr ⟨y', List.concat_eq_append, hl⟩

/-- Where the books of a document stand after such a run. -/
structure Paced (doc : DocumentUuid) (s : WorkspaceState) (trace : List Mark) : Prop where
  cadence : Cadence trace
  /-- The deltas since the last full publish. -/
  tail : ∀ before between, trace = before ++ .published .full :: between →
    .published .full ∉ between → between.count (.published .delta) ≤ fullPublishEvery ∧
      ((s.publishedUpTo.get? doc).isSome →
        between.count (.published .delta) = (s.deltasSinceFull.get? doc).getD 0)
  /-- Since the last import nothing went out, so nothing is on record. -/
  fresh : ∀ before between, trace = before ++ .imported :: between →
    (∀ e, .published e ∉ between) → s.publishedUpTo.get? doc = none

section Paced

variable {doc : DocumentUuid} {s s' : WorkspaceState} {trace : List Mark}

theorem Paced.of_same (h : Paced doc s trace)
    (hversion : s'.publishedUpTo.get? doc = s.publishedUpTo.get? doc)
    (hdeltas : s'.deltasSinceFull.get? doc = s.deltasSinceFull.get? doc) : Paced doc s' trace := by
  refine ⟨h.cadence, fun before between htrace hbetween => ?_, fun before between htrace hnone => ?_⟩
  · rw [hversion, hdeltas]
    exact h.tail before between htrace hbetween
  · rw [hversion]
    exact h.fresh before between htrace hnone

/-- What is on record of this document is as it was, or gone. -/
theorem Paced.of_forgets (h : Paced doc s trace) (hforgets : Forgets s s') : Paced doc s' trace := by
  rcases hforgets doc with hnone | ⟨hversion, hdeltas⟩
  · refine ⟨h.cadence, fun before between htrace hbetween => ?_, fun _ _ _ _ => hnone⟩
    refine ⟨(h.tail before between htrace hbetween).1, fun hsome => ?_⟩
    rw [hnone] at hsome
    exact absurd hsome (by simp)
  · exact h.of_same hversion hdeltas

/-- One more publish keeps the cadence, if it is the one an edit calls for or is full. -/
theorem Cadence.publish (h : Paced doc s trace) {extent : Extent}
    (hextent : extent = s.publishExtent doc ∨ extent = .full) :
    Cadence (trace ++ [.published extent]) := by
  have hfull : s.publishedUpTo.get? doc = none → extent = .full := by
    intro hnone
    refine hextent.elim (fun heq => heq.trans ?_) id
    unfold publishExtent
    rw [hnone]
    exact if_neg fun hboth => absurd hboth.1 (by simp)
  refine ⟨fun before between after htrace hbetween => ?_, fun before between e after htrace hnone => ?_⟩
  · have hsplit : trace ++ [.published extent] =
        (before ++ .published .full :: between) ++ .published .full :: after := by
      rw [htrace]
      simp
    obtain hnil | ⟨last, hlast, hrest⟩ := snoc_eq_split hsplit
    · exact absurd hnil (by simp)
    · cases last with
      | nil => exact (h.tail before between (by simpa using hrest) hbetween).1
      | cons mark last =>
          obtain ⟨rfl, rfl⟩ := List.cons.inj hlast
          exact h.cadence.between before between last (by simpa using hrest) hbetween
  · have hsplit : trace ++ [.published extent] =
        (before ++ .imported :: between) ++ .published e :: after := by
      rw [htrace]
      simp
    obtain hnil | ⟨last, hlast, hrest⟩ := snoc_eq_split hsplit
    · exact absurd hnil (by simp)
    · cases last with
      | nil =>
          obtain ⟨heq, -⟩ := List.cons.inj hlast
          obtain rfl := Mark.published.inj heq
          exact hfull (h.fresh before between (by simpa using hrest) hnone)
      | cons mark last =>
          obtain ⟨rfl, rfl⟩ := List.cons.inj hlast
          exact h.cadence.first before between e last (by simpa using hrest) hnone

/-- One more publish of the document. -/
theorem Paced.publish (h : Paced doc s trace) {extent : Extent} {content : Bytes}
    (hshipped : Shipped doc extent content s s')
    (hextent : extent = s.publishExtent doc ∨ extent = .full) :
    Paced doc s' (trace ++ [.published extent]) := by
  have hcount : s'.deltasSinceFull.get? doc =
      some (nextDeltas ((s.deltasSinceFull.get? doc).getD 0) extent) := by
    rw [hshipped.deltas, BTreeMap.get?_set, if_pos rfl]
  refine ⟨.publish h hextent, fun before between htrace hbetween => ?_, fun before between htrace hnone => ?_⟩
  · obtain hnil | ⟨last, hlast, hrest⟩ := snoc_eq_split htrace
    · exact absurd hnil (by simp)
    · rw [hcount, Option.getD_some]
      cases last with
      | nil =>
          -- the publish is the full one itself
          obtain ⟨heq, rfl⟩ := List.cons.inj hlast
          obtain rfl := Mark.published.inj heq
          exact ⟨by simp, fun _ => rfl⟩
      | cons mark last =>
          obtain ⟨rfl, rfl⟩ := List.cons.inj hlast
          have hdelta : extent = .delta := by
            cases extent with
            | delta => rfl
            | full => exact absurd (by simp) hbetween
          subst hdelta
          have hcalled : Extent.delta = s.publishExtent doc := hextent.resolve_right (by simp)
          have hmore : (s.publishedUpTo.get? doc).isSome ∧
              (s.deltasSinceFull.get? doc).getD 0 < fullPublishEvery := by
            by_contra hnot
            unfold publishExtent at hcalled
            rw [if_neg hnot] at hcalled
            exact absurd hcalled (by simp)
          obtain ⟨-, hlast⟩ := h.tail before last (by simpa using hrest)
            fun hmem => hbetween (List.mem_append_left _ hmem)
          rw [show last.append [Mark.published .delta] = last ++ [.published .delta] from rfl,
            List.count_append, hlast hmore.1]
          refine ⟨?_, fun _ => ?_⟩
          · simp
            omega
          · simp [nextDeltas]
  · obtain hnil | ⟨last, hlast, hrest⟩ := snoc_eq_split htrace
    · exact absurd hnil (by simp)
    · cases last with
      | nil => exact absurd hlast (by simp)
      | cons mark last =>
          obtain ⟨rfl, rfl⟩ := List.cons.inj hlast
          exact absurd (List.mem_append_right last (List.mem_singleton_self _)) (hnone extent)

/-- One more import, while nothing is on record. -/
theorem Paced.imported (h : Paced doc s trace) (hnone : s'.publishedUpTo.get? doc = none) :
    Paced doc s' (trace ++ [.imported]) := by
  refine ⟨⟨fun before between after htrace hbetween => ?_, fun before between e after htrace hpub => ?_⟩,
    fun before between htrace hbetween => ?_, fun _ _ _ _ => hnone⟩
  · have hsplit : trace ++ [.imported] =
        (before ++ .published .full :: between) ++ .published .full :: after := by
      rw [htrace]
      simp
    obtain hnil | ⟨last, hlast, hrest⟩ := snoc_eq_split hsplit
    · exact absurd hnil (by simp)
    · cases last with
      | nil => exact absurd hlast (by simp)
      | cons mark last =>
          obtain ⟨rfl, rfl⟩ := List.cons.inj hlast
          exact h.cadence.between before between last (by simpa using hrest) hbetween
  · have hsplit : trace ++ [.imported] =
        (before ++ .imported :: between) ++ .published e :: after := by
      rw [htrace]
      simp
    obtain hnil | ⟨last, hlast, hrest⟩ := snoc_eq_split hsplit
    · exact absurd hnil (by simp)
    · cases last with
      | nil => exact absurd hlast (by simp)
      | cons mark last =>
          obtain ⟨rfl, rfl⟩ := List.cons.inj hlast
          exact h.cadence.first before between e last (by simpa using hrest) hpub
  · rw [hnone]
    obtain hnil | ⟨last, hlast, hrest⟩ := snoc_eq_split htrace
    · exact absurd hnil (by simp)
    · cases last with
      | nil => exact absurd hlast (by simp)
      | cons mark last =>
          obtain ⟨rfl, rfl⟩ := List.cons.inj hlast
          obtain ⟨hbound, -⟩ := h.tail before last (by simpa using hrest)
            fun hmem => hbetween (List.mem_append_left _ hmem)
          refine ⟨?_, fun hsome => absurd hsome (by simp)⟩
          rw [show last.append [Mark.imported] = last ++ [.imported] from rfl, List.count_append]
          simpa using hbound

/-- Whatever a call has published, the books keep pace. -/
theorem Paced.accounts {items : List Publication} (haccounts : Accounts items s s')
    (h : Paced doc s trace) :
    Paced doc s' (trace ++ (items.filter fun item => item.doc = doc).map
      fun item => .published item.extent) := by
  induction haccounts generalizing trace with
  | none hsame =>
      obtain ⟨hversions, hdeltas⟩ := Prod.mk.inj hsame
      rw [List.filter_nil, List.map_nil, List.append_nil]
      exact h.of_same (by rw [hversions]) (by rw [hdeltas])
  | ship hshipped hextent _ ih =>
      rename_i item rest _
      by_cases hdoc : item.doc = doc
      · subst hdoc
        rw [List.filter_cons_of_pos (by simp), List.map_cons,
          ← List.singleton_append, ← List.append_assoc]
        exact ih (h.publish hshipped hextent)
      · rw [List.filter_cons_of_neg (by simpa using hdoc)]
        obtain ⟨replica, -, -, hversions⟩ := hshipped.content
        refine ih (h.of_same ?_ ?_)
        · rw [hversions, BTreeMap.get?_set, if_neg (Ne.symm hdoc)]
        · rw [hshipped.deltas, BTreeMap.get?_set, if_neg (Ne.symm hdoc)]

end Paced

/-- In every run in which a node restarts only while nothing of the document is on record,
the document goes out in full as often as it should. -/
theorem full_publish_cadence {doc : DocumentUuid} {s : WorkspaceState} {trace : List Mark}
    (h : (cadenceRuns doc).Course s trace) : Cadence trace := by
  refine (h.invariant (P := Paced doc) ?_ ?_).cadence
  · rintro s trace ⟨-, rfl⟩
    refine ⟨⟨?_, ?_⟩, ?_, ?_⟩
    · intro before between after htrace
      exact absurd htrace.symm (by simp)
    · intro before between extent after htrace
      exact absurd htrace.symm (by simp)
    · intro before between htrace
      exact absurd htrace.symm (by simp)
    · intro before between htrace
      exact absurd htrace.symm (by simp)
  · intro s trace turn hpaced hok
    cases turn with
    | call made rng =>
        rcases made.accounts s rng with haccounts | ⟨hnone, hforgets⟩
        · exact hpaced.accounts haccounts
        · have hmarks : Turn.marks doc s (.call made rng) = [] := by
            simp only [Turn.marks, hnone, List.filter_nil, List.map_nil]
          change Paced doc _ (trace ++ Turn.marks doc s (.call made rng))
          rw [hmarks, List.append_nil]
          exact hpaced.of_forgets hforgets
    | restart order rng =>
        have hrestart := restart_spec order s rng
        change Paced doc (after (WorkspaceState.restart order) (s, rng)).1
          (trace ++ if Library.succeeds (WorkspaceState.restart order) (s, rng) then [.imported]
            else [])
        unfold Wp at hrestart
        unfold Library.after Library.succeeds
        cases hrun : WorkspaceState.restart order (s, rng) with
        | ok effects p =>
            rw [hrun] at hrestart
            refine hpaced.imported ?_
            rw [hrestart.publishedUpTo]
            exact hok
        | error err p =>
            rw [hrun] at hrestart
            simp only [Bool.false_eq_true, if_false, List.append_nil]
            rw [hrestart]
            exact hpaced

end IrohBeekem

/-! ## A restart in between -/

namespace IrohBeekem

open Library WorkspaceState

section Samples

local instance pacedKeyhive : Keyhive := transparentKeyhive

local instance pacedBeekem : Beekem := listBeekem

local instance pacedLoro : Loro := listLoro

local instance pacedPostcard : Postcard := blankPostcard

/-- The founder writes into document `5`. -/
def scribble (text : String) : Turn := .call (.handle (.localEdit 5 text) 0) (1 : Nat)

def reopen : Turn := .restart ascendingOrder (1 : Nat)

/-- A restart before the first publish, and two edits. -/
@[irreducible] def pacedEdits : WorkspaceState × List Mark :=
  (cadenceRuns 5).takeAll [reopen, scribble "a", scribble "b"] (sampleWorkspace 1, [])

private theorem pacedEdits_trace :
    pacedEdits.2 = [.imported, .published .full, .published .delta] := by decide +kernel

theorem full_publish_cadence_pacedEdits :
    Cadence [.imported, .published .full, .published .delta] := by
  have hstart : (cadenceRuns 5).Course (sampleWorkspace 1) [] :=
    .start ⟨Or.inl (sampleWorkspace_founded (by decide +kernel)), rfl⟩
  have hcourse : (cadenceRuns 5).Course pacedEdits.1 pacedEdits.2 := by
    unfold pacedEdits
    refine hstart.takeAll (r := (sampleWorkspace 1, [])) _ ⟨?_, trivial, trivial, trivial⟩
    change (sampleWorkspace 1).publishedUpTo.get? 5 = none
    decide +kernel
  rw [← pacedEdits_trace]
  exact full_publish_cadence hcourse

/-- All runs of a node, with what they show of a document. -/
def markedRuns (doc : DocumentUuid) : Chart WorkspaceState Turn (List Mark) :=
  { cadenceRuns doc with ok := fun _ _ _ => True }

/-- A restart between two edits. -/
@[irreducible] def unpacedEdits : WorkspaceState × List Mark :=
  (markedRuns 5).takeAll [scribble "a", reopen, scribble "b"] (sampleWorkspace 1, [])

/-- The first publish after the import is a delta. -/
theorem unpacedEdits_delta :
    ¬ ∀ (doc : DocumentUuid) (s : WorkspaceState) (trace : List Mark),
      (markedRuns doc).Course s trace → Cadence trace := by
  intro h
  have hstart : (markedRuns 5).Course (sampleWorkspace 1) [] :=
    .start ⟨Or.inl (sampleWorkspace_founded (by decide +kernel)), rfl⟩
  have hcourse : (markedRuns 5).Course unpacedEdits.1 unpacedEdits.2 := by
    unfold unpacedEdits
    exact hstart.takeAll (r := (sampleWorkspace 1, [])) _
      (Chart.allOk_of_forall (fun _ _ _ _ => trivial) _)
  have htrace : unpacedEdits.2 = [.published .full, .imported, .published .delta] := by
    decide +kernel
  have hcadence := h 5 _ _ hcourse
  rw [htrace] at hcadence
  have hfull := hcadence.first [.published .full] [] .delta [] rfl (by simp)
  exact absurd hfull (by decide)

end Samples

end IrohBeekem
