import IrohBeekem.Library.Course
import IrohBeekem.State.ListModel

/-!
# Snapshots of a running node

Several tasks change one workspace's state, each under its lock, and each writes a snapshot
when it is done.  A snapshot is captured under the lock and written outside it: to a
temporary file the tasks share, which is then renamed.  So captures and writes interleave,
and a write can land after that of a newer capture; the node then forgets, at the next
restart, an event whose caller was told that it is on disk (`overtaken_forgets`).
`acknowledged_survive` says that it remembers every acknowledged event as long as writes do
not overlap and land in the order of their captures.
-/

set_option linter.unusedSectionVars false

namespace IrohBeekem

open Library

variable [Keyhive] [Beekem] [Loro] [Postcard]

/-! ## Files and tasks -/

/-- A captured snapshot, with what the state had been through. -/
structure Export where
  turns : List Turn
  order : HashOrder
  snapshot : WorkspaceSnapshot

/-- How far a task has come. -/
inductive Phase where
  /-- Changing the state. -/
  | busy
  | exported (record : Export)
  /-- It has created or truncated the temporary file. -/
  | opened (record : Export) (file : Nat)
  /-- It has written the temporary file. -/
  | filled (record : Export) (file : Nat)
  /-- It has renamed the temporary file. -/
  | written

/-- Whether the task is between opening the temporary file and renaming it. -/
def Phase.writing : Phase → Bool
  | .opened _ _ | .filled _ _ => true
  | _ => false

/-- An event that is being handled, by what the state had been through once it was. -/
structure Task where
  event : List Turn
  phase : Phase

/-- A running node with one workspace open, and its directory. -/
structure Host where
  state : WorkspaceState
  /-- What the state has been through since the workspace was set up. -/
  turns : List Turn
  tasks : BTreeMap Nat Task
  /-- What is in a file; `none` is a file that was truncated. -/
  files : Nat → Option Export
  /-- The first file that does not exist. -/
  next : Nat
  /-- The file with the temporary name. -/
  tmp : Option Nat
  /-- The file with the snapshot's name. -/
  target : Option Nat

/-- A state after what happened to it. -/
def replayTurns (turns : List Turn) (s : WorkspaceState) : WorkspaceState :=
  turns.foldl (fun s turn => turn.take s) s

namespace Host

/-- The snapshot on disk. -/
def record (n : Host) : Option Export := n.target.bind n.files

def setTask (id : Nat) (task : Task) (n : Host) : Host :=
  { n with tasks := n.tasks.set id task }

def dropTask (id : Nat) (n : Host) : Host := { n with tasks := n.tasks.erase id }

/-- A task changes the state under its lock.  One that begins with a call that fails returns
the error. -/
def change (id : Nat) (call : Call) (rng : Rng) (n : Host) : Host :=
  let changed := { n with
    state := (Turn.call call rng).take n.state
    turns := n.turns ++ [.call call rng] }
  match n.tasks.get? id, call.run (n.state, rng) with
  | none, .ok _ _ => changed.setTask id ⟨changed.turns, .busy⟩
  | _, _ => changed

/-- `persist` captures the state under its lock; what cannot be captured is not written. -/
def capture (id : Nat) (order : HashOrder) (n : Host) : Host :=
  match n.tasks.get? id with
  | some ⟨event, .busy⟩ =>
      match n.state.snapshot order with
      | .ok snapshot => n.setTask id ⟨event, .exported ⟨n.turns, order, snapshot⟩⟩
      | .error _ => n.dropTask id
  | _ => n

/-- `std::fs::write` opens the temporary file, which it creates or truncates. -/
def openTmp (id : Nat) (n : Host) : Host :=
  match n.tasks.get? id with
  | some ⟨event, .exported record⟩ =>
      let file := n.tmp.getD n.next
      { n with
        files := Function.update n.files file none
        next := max n.next (file + 1)
        tmp := some file
        tasks := n.tasks.set id ⟨event, .opened record file⟩ }
  | _ => n

/-- It writes the snapshot into the file it has opened, whatever that is called by now. -/
def fill (id : Nat) (n : Host) : Host :=
  match n.tasks.get? id with
  | some ⟨event, .opened record file⟩ =>
      { n with
        files := Function.update n.files file (some record)
        tasks := n.tasks.set id ⟨event, .filled record file⟩ }
  | _ => n

/-- `std::fs::rename` puts in place what has the temporary name, and fails if nothing has. -/
def rename (id : Nat) (n : Host) : Host :=
  match n.tasks.get? id with
  | some ⟨event, .filled _ _⟩ =>
      match n.tmp with
      | some file =>
          { n with target := some file, tmp := none, tasks := n.tasks.set id ⟨event, .written⟩ }
      | none => n.dropTask id
  | _ => n

/-- The process ends, and the workspace is opened again from the disk. -/
def reopen (rng : Rng) (n : Host) : Host :=
  let stopped := { n with tasks := .empty }
  match n.record with
  | none => stopped
  | some record =>
      match WorkspaceState.fromSnapshot record.snapshot with
      | .ok s => { stopped with state := s, turns := record.turns ++ [.restart record.order rng] }
      | .error _ => stopped

/-- Whether a task has written its snapshot. -/
def Wrote (id : Nat) (n : Host) : Option (List Turn) :=
  match n.tasks.get? id with
  | some ⟨event, .written⟩ => some event
  | _ => none

end Host

/-! ## Runs -/

/-- What happens on a running node: the steps of its tasks, in any interleaving. -/
inductive HostStep where
  | change (id : Nat) (call : Call) (rng : Rng)
  | capture (id : Nat) (order : HashOrder)
  | openTmp (id : Nat)
  | fill (id : Nat)
  | rename (id : Nat)
  /-- Storage fails; the task logs it and goes on without. -/
  | giveUp (id : Nat)
  /-- The task returns. -/
  | finish (id : Nat)
  | reopen (rng : Rng)

namespace HostStep

def apply : HostStep → Host → Host
  | .change id call rng, n => n.change id call rng
  | .capture id order, n => n.capture id order
  | .openTmp id, n => n.openTmp id
  | .fill id, n => n.fill id
  | .rename id, n => n.rename id
  | .giveUp id, n => n.dropTask id
  | .finish id, n => n.dropTask id
  | .reopen rng, n => n.reopen rng

/-- The events whose tasks returned after they had written their snapshot. -/
def acknowledge : HostStep → Host → List (List Turn) → List (List Turn)
  | .finish id, n, acked => (n.Wrote id).toList ++ acked
  | _, _, acked => acked

/-- No write begins while another is under way, or after the write of a newer capture. -/
def Orderly (n : Host) : HostStep → Prop
  | .openTmp id => (∀ item ∈ n.tasks, item.2.phase.writing = false) ∧
      ∀ event record, n.tasks.get? id = some ⟨event, .exported record⟩ →
        ∀ stored, n.record = some stored → stored.turns.length ≤ record.turns.length
  | _ => True

end HostStep

/-- The runs of a node from when a workspace is set up, whose steps meet a condition. -/
def hostRuns (start : WorkspaceState) (ok : HostStep → Host → Prop) :
    Chart Host HostStep (List (List Turn)) where
  init n acked := n = ⟨start, [], .empty, fun _ => none, 0, none, none⟩ ∧ acked = []
  step step n := step.apply n
  note step n acked := step.acknowledge n acked
  ok step n _ := ok step n

/-- An export is of a state this one has been through. -/
structure Host.Captured (start : WorkspaceState) (n : Host) (record : Export) : Prop where
  past : record.turns <+: n.turns
  snapshot : (replayTurns record.turns start).snapshot record.order = .ok record.snapshot

/-- The snapshot on disk is of a state that had been through this. -/
def Host.Safe (n : Host) (event : List Turn) : Prop :=
  ∃ record, n.record = some record ∧ event <+: record.turns

/-! ## What orderly writes keep -/

variable {start : WorkspaceState} {n n' : Host} {acked : List (List Turn)} {event : List Turn}

/-- What is known of a task by how far it has come. -/
def Host.Fits (start : WorkspaceState) (n : Host) (task : Task) : Prop :=
  match task.phase with
  | .busy => task.event <+: n.turns
  | .exported record => n.Captured start record ∧ task.event <+: record.turns
  | .opened record file => n.Captured start record ∧ task.event <+: record.turns ∧
      n.tmp = some file ∧ ∀ stored, n.record = some stored → stored.turns <+: record.turns
  | .filled record file => n.Captured start record ∧ task.event <+: record.turns ∧
      n.tmp = some file ∧ (∀ stored, n.record = some stored → stored.turns <+: record.turns) ∧
      n.files file = some record
  | .written => n.Safe task.event

/-- The invariant of orderly runs. -/
structure Host.Sound (start : WorkspaceState) (n : Host) (acked : List (List Turn)) : Prop where
  state : n.state = replayTurns n.turns start
  target : ∀ file, n.target = some file → file < n.next ∧ n.tmp ≠ some file ∧
    ∃ record, n.files file = some record ∧ n.Captured start record
  tmp : ∀ file, n.tmp = some file → file < n.next
  task : ∀ item ∈ n.tasks, n.Fits start item.2
  alone : ∀ item ∈ n.tasks, ∀ other ∈ n.tasks, item.2.phase.writing = true →
    other.2.phase.writing = true → item.1 = other.1
  acked : ∀ event ∈ acked, n.Safe event

theorem Host.record_eq {file : Nat} (h : n.target = some file) : n.record = n.files file := by
  unfold Host.record
  rw [h]
  rfl

/-- What is on disk is of a state the node has been through. -/
theorem Host.Sound.stored (h : n.Sound start acked) {record : Export}
    (hrecord : n.record = some record) : n.Captured start record := by
  cases htarget : n.target with
  | none =>
      unfold Host.record at hrecord
      rw [htarget] at hrecord
      exact absurd hrecord (by simp)
  | some file =>
      obtain ⟨-, -, stored, hfile, hstored⟩ := h.target file htarget
      rw [Host.record_eq htarget, hfile] at hrecord
      exact Option.some.inj hrecord ▸ hstored

theorem Host.Captured.mono {record : Export} (h : n.Captured start record)
    (hturns : n.turns <+: n'.turns) : n'.Captured start record :=
  ⟨h.past.trans hturns, h.snapshot⟩

/-- Changing the state or the tasks leaves what is known of the other tasks alone. -/
theorem Host.Fits.mono {task : Task} (h : n.Fits start task) (hturns : n.turns <+: n'.turns)
    (htmp : n'.tmp = n.tmp) (hfiles : n'.files = n.files) (htarget : n'.target = n.target) :
    n'.Fits start task := by
  have hrecord : n'.record = n.record := by
    unfold Host.record
    rw [htarget, hfiles]
  unfold Host.Fits Host.Safe at h ⊢
  rw [hrecord, htmp, hfiles]
  cases hphase : task.phase with
  | busy =>
      rw [hphase] at h
      exact h.trans hturns
  | exported record =>
      rw [hphase] at h
      exact ⟨h.1.mono hturns, h.2⟩
  | opened record file =>
      rw [hphase] at h
      exact ⟨h.1.mono hturns, h.2⟩
  | filled record file =>
      rw [hphase] at h
      exact ⟨h.1.mono hturns, h.2⟩
  | written =>
      rw [hphase] at h
      exact h

/-- What is known of a task that is not writing is about the snapshot on disk at most. -/
theorem Host.Fits.idle {task : Task} (h : n.Fits start task) (hidle : task.phase.writing = false)
    (hturns : n.turns <+: n'.turns) (hsafe : ∀ event, n.Safe event → n'.Safe event) :
    n'.Fits start task := by
  unfold Host.Fits at h ⊢
  cases hphase : task.phase with
  | busy =>
      rw [hphase] at h
      exact h.trans hturns
  | exported record =>
      rw [hphase] at h
      exact ⟨h.1.mono hturns, h.2⟩
  | opened record file =>
      rw [hphase] at hidle
      cases hidle
  | filled record file =>
      rw [hphase] at hidle
      cases hidle
  | written =>
      rw [hphase] at h
      exact hsafe task.event h

/-- A step of a task that leaves the files alone. -/
theorem Host.Sound.update (h : n.Sound start acked) (hstate : n'.state = replayTurns n'.turns start)
    (hturns : n.turns <+: n'.turns) (htmp : n'.tmp = n.tmp) (hfiles : n'.files = n.files)
    (htarget : n'.target = n.target) (hnext : n'.next = n.next)
    (htasks : ∀ item ∈ n'.tasks, item ∈ n.tasks ∨
      item.2.phase.writing = false ∧ n'.Fits start item.2) :
    n'.Sound start acked := by
  have hrecord : n'.record = n.record := by
    unfold Host.record
    rw [htarget, hfiles]
  refine ⟨hstate, ?_, ?_, ?_, ?_, ?_⟩
  · intro file hfile
    rw [htarget] at hfile
    obtain ⟨hlt, hne, record, hcontent, hcaptured⟩ := h.target file hfile
    rw [hnext, htmp, hfiles]
    exact ⟨hlt, hne, record, hcontent, hcaptured.mono hturns⟩
  · intro file hfile
    rw [htmp] at hfile
    rw [hnext]
    exact h.tmp file hfile
  · intro item hitem
    rcases htasks item hitem with hold | ⟨-, hfits⟩
    · exact (h.task item hold).mono hturns htmp hfiles htarget
    · exact hfits
  · intro item hitem other hother hwriting hwriting'
    have hkept : ∀ item ∈ n'.tasks, item.2.phase.writing = true → item ∈ n.tasks := by
      intro item hitem hwriting
      refine (htasks item hitem).resolve_right fun hnot => ?_
      rw [hnot.1] at hwriting
      exact absurd hwriting (by decide)
    exact h.alone item (hkept item hitem hwriting) other (hkept other hother hwriting') hwriting
      hwriting'
  · intro event hevent
    unfold Host.Safe
    rw [hrecord]
    exact h.acked event hevent

theorem Host.Sound.dropTask (h : n.Sound start acked) (id : Nat) :
    (n.dropTask id).Sound start acked := by
  refine h.update h.state (List.prefix_refl _) rfl rfl rfl rfl fun item hitem => Or.inl ?_
  exact (Keyed.mem_filter.mp hitem).1

theorem Host.Sound.setTask (h : n.Sound start acked) (id : Nat) {task : Task}
    (hphase : task.phase.writing = false) (hfits : n.Fits start task) :
    (n.setTask id task).Sound start acked := by
  refine h.update h.state (List.prefix_refl _) rfl rfl rfl rfl fun item hitem => ?_
  rcases Keyed.mem_insert.mp hitem with rfl | ⟨hold, -⟩
  · exact Or.inr ⟨hphase, hfits.mono (List.prefix_refl _) rfl rfl rfl⟩
  · exact Or.inl hold

/-! ## One lemma for each step -/

theorem Host.Sound.change (h : n.Sound start acked) (id : Nat) (call : Call) (rng : Rng) :
    (n.change id call rng).Sound start acked := by
  have hextends : n.turns <+: n.turns ++ [.call call rng] := List.prefix_append _ _
  have hstate : (Turn.call call rng).take n.state =
      replayTurns (n.turns ++ [.call call rng]) start := by
    unfold replayTurns
    rw [List.foldl_append, h.state]
    rfl
  have hchanged : Host.Sound start { n with
      state := (Turn.call call rng).take n.state
      turns := n.turns ++ [.call call rng] } acked :=
    h.update hstate hextends rfl rfl rfl rfl fun item => Or.inl
  unfold Host.change
  dsimp only
  split
  · exact hchanged.setTask id rfl (List.prefix_refl _)
  · exact hchanged

theorem Host.Sound.fits (h : n.Sound start acked) {id : Nat} {task : Task}
    (htask : n.tasks.get? id = some task) : n.Fits start task :=
  h.task (id, task) (BTreeMap.get?_eq_some.mp htask)

theorem Host.Sound.capture (h : n.Sound start acked) (id : Nat) (order : HashOrder) :
    (n.capture id order).Sound start acked := by
  unfold Host.capture
  split
  · next event htask =>
      cases hsnapshot : n.state.snapshot order with
      | error err => exact h.dropTask id
      | ok snapshot =>
          have hbusy : event <+: n.turns := h.fits htask
          refine h.setTask id rfl ⟨⟨List.prefix_refl _, ?_⟩, hbusy⟩
          rw [← h.state]
          exact hsnapshot
  · exact h

/-- A truncated temporary file is not the snapshot on disk, and nobody else is writing. -/
theorem Host.Sound.openTmp (h : n.Sound start acked) (id : Nat)
    (hok : (HostStep.openTmp id).Orderly n) : (n.openTmp id).Sound start acked := by
  unfold Host.openTmp
  split
  · next event record htask =>
      obtain ⟨hquiet, hnewest⟩ := hok
      obtain ⟨hcaptured, hevent⟩ : n.Captured start record ∧ event <+: record.turns := h.fits htask
      have hother : ∀ file, n.target = some file → file ≠ n.tmp.getD n.next := by
        intro file hfile
        obtain ⟨hlt, hne, -⟩ := h.target file hfile
        cases htmp : n.tmp with
        | none => exact Nat.ne_of_lt hlt
        | some tmp =>
            rw [htmp] at hne
            exact fun heq => hne (congrArg some heq.symm)
      have hrecord : ∀ tasks, Host.record { n with
          files := Function.update n.files (n.tmp.getD n.next) none
          next := max n.next (n.tmp.getD n.next + 1)
          tmp := some (n.tmp.getD n.next)
          tasks := tasks } = n.record := by
        intro tasks
        cases htarget : n.target with
        | none => simp [Host.record, htarget]
        | some file =>
            simp only [Host.record, htarget, Option.bind_some]
            exact Function.update_of_ne (hother file htarget) _ _
      refine ⟨h.state, ?_, ?_, ?_, ?_, ?_⟩
      · intro file hfile
        obtain ⟨hlt, -, stored, hcontent, hstored⟩ := h.target file hfile
        refine ⟨lt_max_of_lt_left hlt, fun heq => ?_, stored, ?_, hstored.mono (List.prefix_refl _)⟩
        · exact hother file hfile (Option.some.inj heq).symm
        · exact (Function.update_of_ne (hother file hfile) _ _).trans hcontent
      · intro file hfile
        rw [← Option.some.inj hfile]
        exact lt_max_of_lt_right (Nat.lt_succ_self _)
      · intro item hitem
        rcases Keyed.mem_insert.mp hitem with rfl | ⟨hold, -⟩
        · refine ⟨hcaptured.mono (List.prefix_refl _), hevent, rfl, fun stored hstored => ?_⟩
          rw [hrecord] at hstored
          exact List.prefix_of_prefix_length_le (h.stored hstored).past hcaptured.past
            (hnewest event record htask stored hstored)
        · have hidle := hquiet item hold
          refine (h.task item hold).idle hidle (List.prefix_refl _) fun event hsafe => ?_
          unfold Host.Safe at hsafe ⊢
          rwa [hrecord]
      · intro item hitem other hother' hwriting hwriting'
        have hnew : ∀ item ∈ n.tasks.set id ⟨event, .opened record (n.tmp.getD n.next)⟩,
            item.2.phase.writing = true → item.1 = id := by
          intro item hitem hwriting
          rcases Keyed.mem_insert.mp hitem with rfl | ⟨hold, -⟩
          · rfl
          · rw [hquiet item hold] at hwriting
            exact absurd hwriting (by decide)
        exact (hnew item hitem hwriting).trans (hnew other hother' hwriting').symm
      · intro acknowledged hacked
        unfold Host.Safe
        rw [hrecord]
        exact h.acked acknowledged hacked
  · exact h

/-- Nobody else writes while a task does. -/
theorem Host.Sound.idle (h : n.Sound start acked) {id : Nat} {task : Task}
    (htask : n.tasks.get? id = some task) (hwriting : task.phase.writing = true)
    {item : Nat × Task} (hitem : item ∈ n.tasks) (hne : item.1 ≠ id) :
    item.2.phase.writing = false := by
  cases hitem' : item.2.phase.writing with
  | false => rfl
  | true =>
      exact absurd (h.alone item hitem (id, task) (BTreeMap.get?_eq_some.mp htask) hitem' hwriting) hne

theorem Host.Sound.fill (h : n.Sound start acked) (id : Nat) : (n.fill id).Sound start acked := by
  unfold Host.fill
  split
  · next event record file htask =>
      obtain ⟨hcaptured, hevent, htmp, hnewest⟩ : n.Captured start record ∧ event <+: record.turns ∧
        n.tmp = some file ∧ ∀ stored, n.record = some stored → stored.turns <+: record.turns :=
        h.fits htask
      have hother : ∀ target, n.target = some target → target ≠ file := by
        intro target htarget heq
        obtain ⟨-, hne, -⟩ := h.target target htarget
        exact hne (heq ▸ htmp)
      have hrecord : ∀ tasks, Host.record { n with
          files := Function.update n.files file (some record), tasks := tasks } = n.record := by
        intro tasks
        cases htarget : n.target with
        | none => simp [Host.record, htarget]
        | some target =>
            simp only [Host.record, htarget, Option.bind_some]
            exact Function.update_of_ne (hother target htarget) _ _
      refine ⟨h.state, ?_, h.tmp, ?_, ?_, ?_⟩
      · intro target htarget
        obtain ⟨hlt, hne, stored, hcontent, hstored⟩ := h.target target htarget
        refine ⟨hlt, hne, stored, ?_, hstored.mono (List.prefix_refl _)⟩
        exact (Function.update_of_ne (hother target htarget) _ _).trans hcontent
      · intro item hitem
        rcases Keyed.mem_insert.mp hitem with rfl | ⟨hold, hne⟩
        · refine ⟨hcaptured.mono (List.prefix_refl _), hevent, htmp, ?_,
            Function.update_self file _ _⟩
          rw [hrecord]
          exact hnewest
        · refine (h.task item hold).idle (h.idle htask rfl hold hne) (List.prefix_refl _)
            fun event hsafe => ?_
          unfold Host.Safe at hsafe ⊢
          rwa [hrecord]
      · intro item hitem other hother' hwriting hwriting'
        have hnew : ∀ item ∈ n.tasks.set id ⟨event, .filled record file⟩,
            item.2.phase.writing = true → item.1 = id := by
          intro item hitem hwriting
          rcases Keyed.mem_insert.mp hitem with rfl | ⟨hold, hne⟩
          · rfl
          · rw [h.idle htask rfl hold hne] at hwriting
            cases hwriting
        exact (hnew item hitem hwriting).trans (hnew other hother' hwriting').symm
      · intro acknowledged hacked
        unfold Host.Safe
        rw [hrecord]
        exact h.acked acknowledged hacked
  · exact h

/-- What a rename puts in place is at least as new as what it replaces. -/
theorem Host.Sound.rename (h : n.Sound start acked) (id : Nat) :
    (n.rename id).Sound start acked := by
  unfold Host.rename
  split
  · next event record file htask =>
      obtain ⟨hcaptured, hevent, htmp, hnewest, hcontent⟩ : n.Captured start record ∧
        event <+: record.turns ∧ n.tmp = some file ∧
        (∀ stored, n.record = some stored → stored.turns <+: record.turns) ∧
        n.files file = some record := h.fits htask
      simp only [htmp]
      have hsafe : ∀ tasks event, n.Safe event → Host.Safe { n with
          target := some file, tmp := none, tasks := tasks } event := by
        rintro tasks event ⟨stored, hstored, hpast⟩
        exact ⟨record, hcontent, hpast.trans (hnewest stored hstored)⟩
      refine ⟨h.state, ?_, fun file hfile => (by simp at hfile), ?_, ?_, ?_⟩
      · intro target htarget
        obtain rfl := Option.some.inj htarget
        exact ⟨h.tmp file htmp, by simp, record, hcontent, hcaptured.mono (List.prefix_refl _)⟩
      · intro item hitem
        rcases Keyed.mem_insert.mp hitem with rfl | ⟨hold, hne⟩
        · exact ⟨record, hcontent, hevent⟩
        · exact (h.task item hold).idle (h.idle htask rfl hold hne) (List.prefix_refl _) (hsafe _)
      · intro item hitem other _ hwriting _
        rcases Keyed.mem_insert.mp hitem with rfl | ⟨hold, hne⟩
        · cases hwriting
        · rw [h.idle htask rfl hold hne] at hwriting
          cases hwriting
      · exact fun acknowledged hacked => hsafe _ _ (h.acked acknowledged hacked)
  · exact h

/-- Opening the workspace again goes on from what is on disk. -/
theorem Host.Sound.reopen (h : n.Sound start acked) (rng : Rng) :
    (n.reopen rng).Sound start acked := by
  have hstopped : Host.Sound start { n with tasks := .empty } acked :=
    h.update h.state (List.prefix_refl _) rfl rfl rfl rfl fun item hitem =>
      absurd hitem (Keyed.not_mem_empty _)
  unfold Host.reopen
  dsimp only
  cases hrecord : n.record with
  | none => exact hstopped
  | some record =>
      dsimp only
      cases hresumed : WorkspaceState.fromSnapshot record.snapshot with
      | error err => exact hstopped
      | ok s =>
          have hcaptured := h.stored hrecord
          refine ⟨?_, ?_, h.tmp, ?_, ?_, h.acked⟩
          · unfold replayTurns
            rw [List.foldl_append]
            change s = (after (WorkspaceState.restart record.order)
              (replayTurns record.turns start, rng)).1
            refine (Wp.after (P := fun p : WorkspaceState × Rng => p.1 = s) ?_).symm
            unfold WorkspaceState.restart
            rw [wp_bind, WorkspaceState.wp_self, wp_bind, wp_verdict, hcaptured.snapshot]
            dsimp only
            rw [wp_bind, wp_verdict, hresumed]
            rfl
          · intro file hfile
            obtain ⟨hlt, hne, stored, hcontent, hstored⟩ := h.target file hfile
            have htarget : n.target = some file := hfile
            have hsame : stored = record := by
              rw [Host.record_eq htarget, hcontent] at hrecord
              exact Option.some.inj hrecord
            refine ⟨hlt, hne, stored, hcontent, ?_, hstored.snapshot⟩
            rw [hsame]
            exact List.prefix_append _ _
          · exact fun item hitem => absurd hitem (Keyed.not_mem_empty _)
          · exact fun item hitem => absurd hitem (Keyed.not_mem_empty _)

/-! ## Acknowledged events -/

theorem Host.Sound.acknowledge (h : n.Sound start acked) (step : HostStep) :
    n.Sound start (step.acknowledge n acked) := by
  cases step with
  | finish id =>
      refine ⟨h.state, h.target, h.tmp, h.task, h.alone, fun event hevent => ?_⟩
      rcases List.mem_append.mp hevent with hnew | hold
      · have hwrote : n.Wrote id = some event := Option.mem_toList.mp hnew
        unfold Host.Wrote at hwrote
        split at hwrote
        · next written htask =>
            obtain rfl := Option.some.inj hwrote
            exact h.fits htask
        · exact absurd hwrote (by simp)
      · exact h.acked event hold
  | _ => exact h

theorem HostStep.sound (step : HostStep) (h : n.Sound start acked) (hok : step.Orderly n) :
    (step.apply n).Sound start (step.acknowledge n acked) := by
  have hacked := h.acknowledge step
  cases step with
  | change id call rng => exact hacked.change id call rng
  | capture id order => exact hacked.capture id order
  | openTmp id => exact hacked.openTmp id hok
  | fill id => exact hacked.fill id
  | rename id => exact hacked.rename id
  | giveUp id => exact hacked.dropTask id
  | finish id => exact hacked.dropTask id
  | reopen rng => exact hacked.reopen rng

/-- In every run in which writes are orderly, the snapshot on disk is, from when an event has
been acknowledged, that of a state which had been through the event. -/
theorem acknowledged_survive
    (h : (hostRuns start fun step n => step.Orderly n).Course n acked) :
    ∀ event ∈ acked, ∃ record, n.record = some record ∧ event <+: record.turns ∧
      (replayTurns record.turns start).snapshot record.order = .ok record.snapshot := by
  have hsound : n.Sound start acked := by
    refine h.invariant (P := fun n acked => n.Sound start acked) ?_
      fun n acked step hn hok => step.sound hn hok
    rintro n acked ⟨rfl, rfl⟩
    refine ⟨rfl, ?_, ?_, ?_, ?_, ?_⟩ <;> simp [Keyed.not_mem_empty]
  intro event hevent
  obtain ⟨record, hrecord, hpast⟩ := hsound.acked event hevent
  exact ⟨record, hrecord, hpast, (hsound.stored hrecord).snapshot⟩

end IrohBeekem

/-! ## Two tasks -/

namespace IrohBeekem

open Library

section Samples

local instance hostKeyhive : Keyhive := transparentKeyhive

local instance hostBeekem : Beekem := listBeekem

local instance hostLoro : Loro := listLoro

local instance hostPostcard : Postcard := blankPostcard

def startHost : Host := ⟨sampleWorkspace 1, [], .empty, fun _ => none, 0, none, none⟩

/-- Task 1 changes the state and captures it before task 2 does. -/
def captures : List HostStep :=
  [.change 1 (.handle .rotate 0) (1 : Nat), .capture 1 ascendingOrder,
    .change 2 (.handle .rotate 0) (2 : Nat), .capture 2 ascendingOrder]

/-- A task writes its snapshot and returns. -/
def lands (id : Nat) : List HostStep := [.openTmp id, .fill id, .rename id, .finish id]

@[irreducible] def outrun : Host × List (List Turn) :=
  (hostRuns (sampleWorkspace 1) fun _ _ => True).takeAll (captures ++ lands 2 ++ lands 1)
    (startHost, [])

theorem outrun_older :
    (outrun.1.record.map fun record => record.turns.length) = some 1 ∧
      outrun.2.map List.length = [1, 2] := by
  decide +kernel

/-- The snapshot of task 1 replaces that of task 2, whose event has been acknowledged. -/
theorem overtaken_forgets :
    ¬ ∀ (n : Host) (acked : List (List Turn)),
      (hostRuns (sampleWorkspace 1) fun _ _ => True).Course n acked →
        ∀ event ∈ acked, ∃ record, n.record = some record ∧ event <+: record.turns := by
  intro hclaim
  have hstart : (hostRuns (sampleWorkspace 1) fun _ _ => True).Course startHost [] :=
    .start ⟨rfl, rfl⟩
  have hcourse : (hostRuns (sampleWorkspace 1) fun _ _ => True).Course outrun.1 outrun.2 := by
    unfold outrun
    exact hstart.takeAll (r := (startHost, [])) _ (Chart.allOk_of_forall (fun _ _ _ _ => trivial) _)
  obtain ⟨holder, hlengths⟩ := outrun_older
  have hlong : 2 ∈ outrun.2.map List.length := by rw [hlengths]; decide
  obtain ⟨event, hevent, hlength⟩ := List.mem_map.mp hlong
  obtain ⟨record, hrecord, hpast⟩ := hclaim _ _ hcourse event hevent
  rw [hrecord] at holder
  have hone : record.turns.length = 1 := Option.some.inj holder
  have hshort := hpast.length_le
  rw [hlength, hone] at hshort
  exact absurd hshort (by decide)

/-- One task has changed the state and captured it. -/
@[irreducible] def captured : Host × List (List Turn) :=
  (hostRuns (sampleWorkspace 1) fun step n => step.Orderly n).takeAll (captures.take 2)
    (startHost, [])

@[irreducible] def landed : Host × List (List Turn) :=
  (hostRuns (sampleWorkspace 1) fun step n => step.Orderly n).takeAll (lands 1) captured

theorem captured_idle :
    captured.1.record.isNone = true ∧ (∀ item ∈ captured.1.tasks, item.2.phase.writing = false) ∧
      landed.2.map List.length = [1] := by
  decide +kernel

theorem acknowledged_survive_landed :
    ∃ event record, landed.1.record = some record ∧ event <+: record.turns ∧
      event.length = 1 := by
  obtain ⟨hnone, hidle, hlengths⟩ := captured_idle
  have hstart : (hostRuns (sampleWorkspace 1) fun step n => step.Orderly n).Course startHost [] :=
    .start ⟨rfl, rfl⟩
  have hcaptured : (hostRuns (sampleWorkspace 1) fun step n => step.Orderly n).Course
      captured.1 captured.2 := by
    unfold captured
    exact hstart.takeAll (r := (startHost, [])) _ ⟨trivial, trivial, trivial⟩
  have hlanded : (hostRuns (sampleWorkspace 1) fun step n => step.Orderly n).Course
      landed.1 landed.2 := by
    unfold landed
    refine hcaptured.takeAll (r := captured) _
      ⟨⟨hidle, fun _ _ _ stored hstored => ?_⟩, trivial, trivial, trivial, trivial⟩
    rw [hstored] at hnone
    cases hnone
  have hmem : 1 ∈ landed.2.map List.length := by rw [hlengths]; decide
  obtain ⟨event, hevent, hlength⟩ := List.mem_map.mp hmem
  obtain ⟨record, hrecord, hpast, -⟩ := acknowledged_survive hlanded event hevent
  exact ⟨event, record, hrecord, hpast, hlength⟩

end Samples

end IrohBeekem
