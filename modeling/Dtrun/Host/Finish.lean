import Dtrun.Host.Ownership

/-! # What the end of a supervising process leaves behind

A supervising process ends in one step, whatever makes it end. Whether the record is then one that
`delete` accepts, and the output is in the trace, depends on how that step comes out.
-/
namespace Dtrun.Lifecycle
set_option autoImplicit false
open FiniteMap StateExcept Transition Host

variable {o : Outcomes} {w w' : World} {s : Nat} {id : Id} {c : Container} {l : Label}

/-- It says `Stopped`, if there is one. -/
def Record.Quiet (r : Record) : Prop := r = .missing ∨ ∃ st, r = .holds st ∧ st.status = .stopped

namespace World

def Quiet (w : World) (id : Id) : Prop := ∀ d, w.dirs.get id = some d → d.record.Quiet

def keeper (w : World) : Label → Option Nat
  | .create _ _ | .run _ _ => some w.spawned
  | .opens _ s | .releases _ s | .reports _ s _ | .finishes _ s _ _ _ => some s
  | _ => none

/-- The step from `w` to `w'` is the last one of the process that supervises `s`. -/
def Ended (w : World) (l : Label) (w' : World) (s : Nat) : Prop :=
  w.keeper l = some s ∧ s < w'.spawned ∧ w'.stages.get s = none

end World

/-- The output that the relays have captured by the end of supervision. -/
def Label.captured : Label → List Line
  | .finishes _ _ _ stdout stderr => stdout.map .stdout ++ stderr.map .stderr
  | _ => []

/-- The record, if it is there, can be deleted without force, and the trace has got the output. -/
structure Settled (w w' : World) (id : Id) (captured : List Line) : Prop where
  quiet : w'.Quiet id
  deletes : ∀ o d, w'.dirs.get id = some d → d.record ≠ .missing →
    deleteContainer o id false w' = removeState o id w'
  appended : captured ≠ [] → ∀ d d', w.dirs.get id = some d → w'.dirs.get id = some d' →
    d'.trace = d.trace ++ captured

/-- What the record and the trace need of the last step. -/
def World.Settles (w : World) (id : Id) : Label → Prop
  | .create o _ | .run o _ => o.write = .notOpened ∧ w.Quiet id
  | .opens _ _ => w.Quiet id
  | .releases o _ => w.dirs.get id = none ∨ o.write = .notOpened ∧ w.Quiet id
  | .finishes o _ (.ok _) stdout stderr => w.dirs.get id = none ∨
    (o.write = .done ∨ o.write = .notOpened ∧ w.Quiet id) ∧
      ∀ line ∈ stdout.map .stdout ++ stderr.map .stderr, o.append line = true
  | .finishes _ _ (.error _) stdout stderr => w.dirs.get id = none ∨
    w.Quiet id ∧ stdout = [] ∧ stderr = []
  | _ => True

theorem World.Quiet.deletes (h : w.Quiet id) {d : Dir} (hDir : w.dirs.get id = some d)
    (hRecord : d.record ≠ .missing) (o : Outcomes) :
    deleteContainer o id false w = removeState o id w := by
  rcases h d hDir with hMissing | ⟨st, hHolds, hStatus⟩
  · exact absurd hMissing hRecord
  · have hRead : readState id w = .ok st w := by
      rw [readState, bind_of_ok (get_apply w)]
      simp [hDir, hHolds]
    rw [deleteContainer, bind_of_ok hRead]
    simp [hStatus]

theorem settled_nil : Settled w w' id [] ↔ w'.Quiet id :=
  ⟨Settled.quiet, fun h => ⟨h, fun o _ hDir hRecord => h.deletes hDir hRecord o,
    fun hNil => absurd rfl hNil⟩⟩

theorem settled_of_map {captured : List Line} {r : Record → Record} {p : Line → Bool}
    (hDirs : w'.dirs.get id = (w.dirs.get id).map fun d =>
      { d with record := r d.record, trace := d.trace ++ captured.filter p }) :
    Settled w w' id captured ↔ ∀ d, w.dirs.get id = some d →
      (r d.record).Quiet ∧ ∀ line ∈ captured, p line = true := by
  constructor
  · intro h d hDir
    rw [hDir] at hDirs
    refine ⟨h.quiet _ hDirs, ?_⟩
    cases captured with
    | nil => exact fun line hLine => by cases hLine
    | cons first rest =>
      have hTrace := h.appended (List.cons_ne_nil _ _) d _ hDir hDirs
      exact List.filter_eq_self.mp (List.append_cancel_left hTrace)
  · intro h
    have hQuiet : w'.Quiet id := by
      intro d' hDir'
      rw [hDirs] at hDir'
      obtain ⟨d, hDir, rfl⟩ := Option.map_eq_some_iff.mp hDir'
      exact (h d hDir).1
    refine ⟨hQuiet, fun o _ hDir hRecord => hQuiet.deletes hDir hRecord o,
      fun _ d d' hDir hDir' => ?_⟩
    rw [hDirs, hDir] at hDir'
    cases hDir'
    rw [List.filter_eq_self.mpr (h d hDir).2]

def Outcomes.written (o : Outcomes) (st : ContainerState) (r : Record) : Record :=
  match o.write with
  | .done => .holds st
  | .notOpened => r
  | .cutShort => .broken

theorem quiet_written {st : ContainerState} {r : Record} :
    (o.written st r).Quiet ↔
      (o.write = .done ∧ st.status = .stopped) ∨ (o.write = .notOpened ∧ r.Quiet) := by
  cases hWrite : o.write with
  | done => simp [Outcomes.written, hWrite, Record.Quiet]
  | notOpened => simp [Outcomes.written, hWrite]
  | cutShort => simp [Outcomes.written, hWrite, Record.Quiet]

/-- It succeeds if and only if there is a directory and everything is written. -/
theorem writeState_ends (st : ContainerState) (w : World) :
    Ends (fun _ w' => o.write = .done ∧ (∃ d, w.dirs.get st.id = some d) ∧ w'.spawned = w.spawned)
      (fun w' => (w.dirs.get st.id = none ∨ o.write ≠ .done) ∧ w'.containers = w.containers ∧
        w'.dirs.get st.id = (w.dirs.get st.id).map fun d =>
          { d with record := o.written st d.record }) (writeState o st w) := by
  rw [writeState, bind_of_ok (get_apply w)]
  cases hDir : w.dirs.get st.id with
  | none => exact ⟨.inl rfl, rfl, hDir⟩
  | some d =>
    cases hWrite : o.write with
    | done => exact ⟨rfl, ⟨d, rfl⟩, rfl⟩
    | notOpened => exact ⟨.inr (by simp), rfl, by simp [hDir, Outcomes.written, hWrite]⟩
    | cutShort =>
      refine ⟨.inr (by simp), rfl, ?_⟩
      simp [World.setDir, Map.get_insert_self, Outcomes.written, hWrite]

theorem writeState_caught (st : ContainerState) (w : World) :
    Ends (fun _ w' => w'.containers = w.containers ∧
        w'.dirs.get st.id = (w.dirs.get st.id).map fun d =>
          { d with record := o.written st d.record }) (fun _ => False)
      ((tryCatch (writeState o st) fun _ => pure () : HostM Unit) w) := by
  rw [tryCatch_apply, writeState, bind_of_ok (get_apply w)]
  cases hDir : w.dirs.get st.id with
  | none => exact ⟨rfl, hDir⟩
  | some d =>
    cases hWrite : o.write with
    | done => exact ⟨rfl, by simp [World.setDir, Map.get_insert_self, Outcomes.written, hWrite]⟩
    | notOpened => exact ⟨rfl, by simp [hDir, Outcomes.written, hWrite]⟩
    | cutShort =>
      exact ⟨rfl, by simp [World.setDir, Map.get_insert_self, Outcomes.written, hWrite]⟩

/-- The lines that could be written are in the trace. -/
theorem traceEvents_adds (hContainer : (w.containers.get s).map Container.id = some id)
    (lines : List String) (f : String → Line) :
    Ends (fun _ w' => (w'.containers.get s).map Container.id = some id ∧
        w'.dirs.get id = (w.dirs.get id).map fun d =>
          { d with trace := d.trace ++ (lines.map f).filter o.append }) (fun _ => False)
      ((lines.forM fun line => traceEvent o s (f line) : HostM Unit) w) := by
  induction lines generalizing w with
  | nil => exact ⟨hContainer, by simp⟩
  | cons line rest ih =>
    obtain ⟨c, hc, rfl⟩ := Option.map_eq_some_iff.mp hContainer
    have hFirst : Ends (fun _ w' => (w'.containers.get s).map Container.id = some c.id ∧
        w'.dirs.get c.id = (w.dirs.get c.id).map fun d =>
          { d with trace := d.trace ++ [f line].filter o.append }) (fun _ => False)
        (traceEvent o s (f line) w) := by
      rw [traceEvent, bind_of_ok (get_apply w)]
      simp only [hc]
      cases hDir : w.dirs.get c.id with
      | none => exact ⟨hContainer, hDir⟩
      | some d =>
        cases hAppend : o.append (f line) with
        | false => exact ⟨hContainer, by simp [hDir, hAppend]⟩
        | true =>
          simp [Ends, World.setDir, Map.get_insert_self, hAppend]
    refine Ends.bind (hFirst.mono (fun _ w₁ h₁ => ?_) fun _ => False.elim)
    refine (ih h₁.1).mono (fun _ w₂ h₂ => ⟨h₂.1, ?_⟩) fun _ => False.elim
    rw [h₂.2, h₁.2, Option.map_map]
    refine congrArg (Option.map · _) (funext fun d => ?_)
    simp [List.filter_cons]
    split
    · simp
    · rfl

theorem orEnd_ends {x : HostM Unit} {Q : World → Prop} {E : World → Prop}
    (h : Ends (fun _ => Q) E (x w)) :
    Ends (fun _ => Q) (fun w' => ∃ v, E v ∧ w' = v.endKeeper s) (orEnd s x w) := by
  rw [orEnd]
  cases hRun : x w with
  | ok a w' =>
    rw [hRun] at h
    exact h
  | error e w' =>
    rw [hRun] at h
    exact ⟨w', h, rfl⟩

theorem enter_stages (stage : Stage) (w : World) :
    Ends (fun _ w' => w'.stages.get s ≠ none) (fun _ => False) (enter s stage w) := by
  simp [enter, Ends, Map.get_insert_self]

theorem openFifo_ends (s : Nat) (id : Id) (w : World) :
    Ends (fun _ w' => w'.stages.get s ≠ none) (fun w' => w' = w.endKeeper s)
      (openFifo o s id w) := by
  rw [openFifo]
  refine (orEnd_ends (E := fun v => v = w) ?_).mono (fun _ _ h => h) fun w' h => ?_
  · rw [bind_of_ok (get_apply w)]
    cases (w.dirs.get id).bind Dir.fifo with
    | none => exact rfl
    | some fifo =>
      cases o.openFifo with
      | error e => exact rfl
      | ok u => exact (enter_stages _ w).mono (fun _ _ h => h) fun _ => False.elim
  · obtain ⟨v, rfl, rfl⟩ := h
    rfl

theorem released_ends (hNamed : Formed w) (s : Nat) (id : Id) (child : Pid) (fifo : Nat) :
    Ends (fun _ w' => w'.stages.get s ≠ none)
      (fun w' => (w.dirs.get id = none ∨ o.write ≠ .done) ∧ w'.containers = w.containers ∧
        ∃ st, st.status = .running ∧ w'.dirs.get id = (w.dirs.get id).map fun d =>
          { d with record := o.written st d.record }) (released o s id child fifo w) := by
  rw [released]
  refine (orEnd_ends (E := fun v => (w.dirs.get id = none ∨ o.write ≠ .done) ∧
    v.containers = w.containers ∧ ∃ st, st.status = .running ∧ v.dirs.get id =
      (w.dirs.get id).map fun d => { d with record := o.written st d.record }) ?_).mono
    (fun _ _ h => h) fun w' h => ?_
  · rw [bind_of_ok (modify_apply _ w)]
    obtain ⟨st, hRead, hWhich⟩ := readState_or id
      { w with unread := w.unread.filter fun i => i ≠ fifo } (mkState id .created child)
    rw [bind_of_ok hRead]
    have hId : st.id = id := by
      rcases hWhich with rfl | ⟨d, hDir, hRecord⟩
      · rfl
      · exact hNamed.named id d st hDir hRecord
    subst hId
    refine Ends.bind ((writeState_ends { st with status := .running, pid := child } _).mono
      (fun _ v _ => (enter_stages _ v).mono (fun _ _ h => h) fun _ => False.elim) fun v hv => ?_)
    exact ⟨hv.1, hv.2.1, _, rfl, hv.2.2⟩
  · obtain ⟨v, hv, rfl⟩ := h
    exact hv

/-- Every part of `d` that could be written has been written. -/
def Finished (o : Outcomes) (s : Nat) (id : Id) (st : ContainerState) (captured : List Line)
    (w w' : World) : Prop :=
  (w'.containers.get s).map Container.id = some id ∧ w'.dirs.get id = (w.dirs.get id).map fun d =>
    { d with record := o.written st d.record, trace := d.trace ++ captured.filter o.append }

theorem finish_ok_ends {st : ContainerState}
    (hContainer : (w.containers.get s).map Container.id = some st.id) (code : Int)
    (stdout stderr : List String) :
    Ends (fun _ => Finished o s st.id { st with status := .stopped, exitCode := some code }
      (stdout.map .stdout ++ stderr.map .stderr) w) (fun _ => False)
      (finish o s st (.ok code) stdout stderr w) := by
  rw [finish]
  refine (orEnd_ends (E := fun _ => False) ?_).mono (fun _ _ h => h) fun w' h => ?_
  · have hWrite := writeState_caught (o := o)
      { st with status := .stopped, exitCode := some code } w
    refine Ends.bind (x := hostResult _) (s := w) ?_
    refine Ends.bind (x := tryCatch _ _) (s := w) (hWrite.mono (fun _ w₁ h₁ => ?_) fun _ => id)
    obtain ⟨hContainers, hDir₁⟩ := h₁
    rw [← hContainers] at hContainer
    refine Ends.bind ((traceEvents_adds hContainer stdout .stdout).mono (fun _ w₂ h₂ => ?_)
      fun _ => id)
    refine Ends.bind ((traceEvents_adds h₂.1 stderr .stderr).mono (fun _ w₃ h₃ => ?_) fun _ => id)
    refine ⟨h₃.1, ?_⟩
    change w₃.dirs.get st.id = _
    rw [h₃.2, h₂.2, hDir₁, Option.map_map, Option.map_map]
    refine congrArg (Option.map · _) (funext fun d => ?_)
    simp
  · obtain ⟨v, hFalse, _⟩ := h
    exact hFalse

/-! ### Before there is a record -/

/-- Nothing has been spawned yet, and what the record says is as before. -/
structure Prepared (id : Id) (w w' : World) : Prop where
  spawned : w'.spawned = w.spawned
  quiet : w'.Quiet id ↔ w.Quiet id

/-- What the step that spawned a container has left if it was also the last one of its process. -/
def Left (o : Outcomes) (id : Id) (w w' : World) : Prop :=
  w.spawned < w'.spawned → w'.stages.get w.spawned = none →
    (w'.containers.get w.spawned).map Container.id = some id ∧
      (w'.Quiet id ↔ o.write = .notOpened ∧ w.Quiet id)

namespace Prepared

theorem left (h : Prepared id w w') : Left o id w w' := by
  intro hSpawned
  rw [h.spawned] at hSpawned
  exact absurd hSpawned (lt_irrefl _)

theorem setDir (h : Prepared id w w') {d : Dir} (hDir : w'.dirs.get id = some d) (d' : Dir)
    (hRecord : d'.record = d.record) : Prepared id w (w'.setDir id d') := by
  refine ⟨h.spawned, Iff.trans ?_ h.quiet⟩
  simp [World.Quiet, World.setDir, Map.get_insert_self, hDir, hRecord]

theorem hostResult {α : Type} (h : Prepared id w w') (r : Except HostError α) :
    Ends (fun _ v => v = w') (Prepared id w) (hostResult r w') := by
  cases r with
  | ok a => exact rfl
  | error e => exact h

theorem initContainerDir (h : Prepared id w w') :
    Ends (fun _ v => Prepared id w v ∧ ∃ d, v.dirs.get id = some d) (Prepared id w)
      (initContainerDir o id w') := by
  rw [Lifecycle.initContainerDir, bind_of_ok (get_apply w')]
  cases o.createDirAll with
  | error e => exact h
  | ok u =>
    cases hDir : w'.dirs.get id with
    | some d => exact ⟨h, d, hDir⟩
    | none =>
      refine ⟨⟨h.spawned, Iff.trans ?_ h.quiet⟩, _, Map.get_insert_self _ _ _⟩
      simp [World.Quiet, World.setDir, Map.get_insert_self, hDir, Record.Quiet]

theorem resetTrace (h : Prepared id w w') {d : Dir} (hDir : w'.dirs.get id = some d) :
    Ends (fun _ v => Prepared id w v ∧ ∃ d, v.dirs.get id = some d) (Prepared id w)
      (resetTrace o id w') := by
  rw [Lifecycle.resetTrace, bind_of_ok (get_apply w')]
  simp only [hDir]
  cases o.resetTrace with
  | true => exact ⟨h.setDir hDir _ rfl, _, Map.get_insert_self _ _ _⟩
  | false => exact ⟨h, d, hDir⟩

theorem makeFifo (h : Prepared id w w') {d : Dir} (hDir : w'.dirs.get id = some d) :
    Ends (fun _ v => Prepared id w v ∧ ∃ d, v.dirs.get id = some d) (Prepared id w)
      (makeFifo o id w') := by
  rw [Lifecycle.makeFifo, bind_of_ok (get_apply w')]
  simp only [hDir]
  cases d.fifo with
  | some fifo => exact ⟨h, d, hDir⟩
  | none =>
    cases o.mkfifo with
    | error e => exact h
    | ok u =>
      have hSet := h.setDir hDir { d with fifo := some w'.inodes } rfl
      exact ⟨⟨hSet.spawned, hSet.quiet⟩, _, Map.get_insert_self _ _ _⟩

theorem spawns (h : Prepared id w w') {d : Dir} (hDir : w'.dirs.get id = some d)
    (status : Status) (stage : Pid → Stage) :
    Ends (fun _ => Left o id w) (Left o id w) ((do
      let (s, child) ← spawnCreated o id
      orEnd s do
        writeState o (mkState id status child)
        enter s (stage child) : HostM Unit) w') := by
  cases hSpawn : o.spawn with
  | error e =>
    refine Ends.bind ?_
    rw [spawnCreated, hSpawn]
    exact h.left
  | ok child =>
    refine Ends.bind ?_
    rw [spawnCreated, hSpawn]
    change Ends _ _ (orEnd w'.spawned _ _)
    rw [h.spawned]
    let v : World := { w' with
      procs := w'.procs.insert child ⟨some w.spawned, false⟩
      containers := w'.containers.insert w.spawned ⟨id, child, false, []⟩
      spawned := w.spawned + 1 }
    have hRun : Ends (fun _ v' => v'.stages.get w.spawned ≠ none) (fun v' => o.write ≠ .done ∧
        v'.containers = v.containers ∧ v'.dirs.get id = some { d with
          record := o.written (mkState id status child) d.record })
        ((do
          writeState o (mkState id status child)
          enter w.spawned (stage child) : HostM Unit) v) := by
      refine Ends.bind ((writeState_ends (mkState id status child) v).mono (fun _ v' _ =>
        (enter_stages (stage child) v').mono (fun _ _ h => h) fun _ => False.elim) fun v' hv => ?_)
      have hNamed : (mkState id status child).id = id := rfl
      have hBefore : v.dirs.get id = some d := hDir
      rw [hNamed, hBefore] at hv
      exact ⟨hv.1.resolve_left (by simp), hv.2⟩
    refine (orEnd_ends hRun).mono (fun _ _ hStage _ hNone => absurd hNone hStage)
      fun v' hv _ _ => ?_
    obtain ⟨v', ⟨hWrite, hContainers, hLeft⟩, rfl⟩ := hv
    refine ⟨by simp [World.endKeeper, hContainers, v, Map.get_insert_self], ?_⟩
    have hQuiet : (v'.endKeeper w.spawned).Quiet id ↔
        (o.written (mkState id status child) d.record).Quiet := by
      simp [World.Quiet, World.endKeeper, hLeft]
    rw [hQuiet, quiet_written, ← h.quiet]
    simp [hWrite, World.Quiet, hDir]

end Prepared

theorem create_left : Ends (fun _ => Left o id w) (Left o id w) (create o id w) := by
  have h : Prepared id w w := ⟨rfl, .rfl⟩
  have left {v : World} (h : Prepared id w v) : Left o id w v := h.left
  refine Ends.bind ((h.hostResult o.validate).mono (fun _ v₁ h₁ => ?_) fun _ => left)
  subst h₁
  refine Ends.bind (h.initContainerDir.mono (fun _ v₂ h₂ => ?_) fun _ => left)
  obtain ⟨h₂, _, hDir₂⟩ := h₂
  refine Ends.bind ((h₂.resetTrace hDir₂).mono (fun _ v₃ h₃ => ?_) fun _ => left)
  obtain ⟨h₃, _, hDir₃⟩ := h₃
  refine Ends.bind ((h₃.makeFifo hDir₃).mono (fun _ v₄ h₄ => ?_) fun _ => left)
  obtain ⟨h₄, _, hDir₄⟩ := h₄
  refine Ends.bind ((h₄.hostResult o.detach).mono (fun _ v₅ h₅ => ?_) fun _ => left)
  subst h₅
  exact h₄.spawns hDir₄ .created fun _ => .opening

theorem run_left : Ends (fun _ => Left o id w) (Left o id w) (run o id w) := by
  have h : Prepared id w w := ⟨rfl, .rfl⟩
  have left {v : World} (h : Prepared id w v) : Left o id w v := h.left
  refine Ends.bind ((h.hostResult o.validate).mono (fun _ v₁ h₁ => ?_) fun _ => left)
  subst h₁
  refine Ends.bind (h.initContainerDir.mono (fun _ v₂ h₂ => ?_) fun _ => left)
  obtain ⟨h₂, _, hDir₂⟩ := h₂
  refine Ends.bind ((h₂.resetTrace hDir₂).mono (fun _ v₃ h₃ => ?_) fun _ => left)
  obtain ⟨h₃, _, hDir₃⟩ := h₃
  exact h₃.spawns hDir₃ .running fun child => .supervising (mkState id .running child)

theorem traceEvent_stages (line : Line) : Keeps World.stages (traceEvent o s line) := by
  refine fun w => .get_bind ?_
  cases w.containers.get s with
  | none => rfl
  | some c =>
    simp only []
    cases w.dirs.get c.id with
    | none => rfl
    | some d =>
      cases o.append line with
      | true => rfl
      | false => rfl

theorem Left.settled (h : Left o id w w') (hSpawned : w.spawned < w'.spawned)
    (hNone : w'.stages.get w.spawned = none) :
    ∃ id, (w'.containers.get w.spawned).map Container.id = some id ∧
      (Settled w w' id [] ↔ o.write = .notOpened ∧ w.Quiet id) := by
  obtain ⟨hContainer, hQuiet⟩ := h hSpawned hNone
  exact ⟨id, hContainer, settled_nil.trans hQuiet⟩

theorem released_settled (hFormed : Formed w) {child : Pid} {fifo : Nat}
    (hContainer : w.containers.get s = some c)
    (hNone : (final (released o s c.id child fifo w)).stages.get s = none) :
    ∃ id, ((final (released o s c.id child fifo w)).containers.get s).map Container.id = some id ∧
      (Settled w (final (released o s c.id child fifo w)) id [] ↔
        w.dirs.get id = none ∨ o.write = .notOpened ∧ w.Quiet id) := by
  have hEnds := released_ends (o := o) hFormed s c.id child fifo
  cases hRun : released o s c.id child fifo w with
  | ok a v =>
    rw [hRun] at hEnds hNone
    exact absurd hNone hEnds
  | error e v =>
    rw [hRun] at hEnds
    obtain ⟨hFailed, hContainers, st, hStatus, hDirs⟩ := hEnds
    refine ⟨c.id, by simp [final, hContainers, hContainer], ?_⟩
    refine Iff.trans (settled_of_map (p := fun _ => true) (r := o.written st)
      (by simpa [final] using hDirs)) ?_
    simp only [quiet_written, hStatus]
    cases hDir : w.dirs.get c.id with
    | none => simp
    | some d => simp [World.Quiet, hDir]

theorem finish_settled (hContainer : w.containers.get s = some c) {st : ContainerState}
    (hId : st.id = c.id) (result : Except SuperviseError Int) (stdout stderr : List String) :
    ∃ id, ((final (finish o s st result stdout stderr w)).containers.get s).map Container.id =
        some id ∧
      (Settled w (final (finish o s st result stdout stderr w)) id
        (stdout.map .stdout ++ stderr.map .stderr) ↔
          w.Settles id (.finishes o s result stdout stderr)) := by
  cases result with
  | error e =>
    refine ⟨c.id, by simp [finish, orEnd, bind_apply, hostResult, final, World.endKeeper,
      Except.mapError, hContainer], ?_⟩
    refine (settled_of_map (r := id) (p := fun _ => false) ?_).trans ?_
    · simp [finish, orEnd, bind_apply, hostResult, final, World.endKeeper, Except.mapError]
    · cases hDir : w.dirs.get c.id with
      | none => simp [World.Settles, hDir]
      | some d =>
        have hNone : (∀ line ∈ stdout.map Line.stdout ++ stderr.map Line.stderr, False) ↔
            stdout = [] ∧ stderr = [] := by
          rw [← List.map_eq_nil_iff (f := Line.stdout), ← List.map_eq_nil_iff (f := Line.stderr),
            ← List.append_eq_nil_iff, List.eq_nil_iff_forall_not_mem]
        simp only [World.Settles, World.Quiet, hDir, Option.some.injEq, forall_eq', hNone,
          reduceCtorEq, false_or, Bool.false_eq_true, id_eq]
  | ok code =>
    have hNamed : (w.containers.get s).map Container.id = some st.id := by
      rw [hContainer, hId]
      rfl
    have hEnds := finish_ok_ends (o := o) hNamed code stdout stderr
    cases hRun : finish o s st (.ok code) stdout stderr w with
    | error e v =>
      rw [hRun] at hEnds
      exact hEnds.elim
    | ok a v =>
      rw [hRun] at hEnds
      refine ⟨st.id, hEnds.1, (settled_of_map hEnds.2).trans ?_⟩
      simp only [quiet_written, World.Settles]
      cases hDir : w.dirs.get st.id with
      | none => simp
      | some d => simp [World.Quiet, hDir]

/-- What the last step of a supervising process leaves behind, of any run. -/
theorem settled_iff (h : system.Reach System.free w) (hStep : w.step l = some w')
    (hEnded : w.Ended l w' s) : ∃ id, (w'.containers.get s).map Container.id = some id ∧
      (Settled w w' id l.captured ↔ w.Settles id l) := by
  have hFormed := formed h
  obtain ⟨hKeeper, hSpawned, hNone⟩ := hEnded
  cases l with
  | create o id =>
    cases hKeeper
    simp only [World.step] at hStep
    split at hStep
    · cases hStep
      exact create_left.final.settled hSpawned hNone
    · cases hStep
  | run o id =>
    cases hKeeper
    simp only [World.step] at hStep
    split at hStep
    · cases hStep
      exact run_left.final.settled hSpawned hNone
    · cases hStep
  | opens o s =>
    cases hKeeper
    obtain ⟨c, hContainer, _, rfl⟩ := step_opens hStep
    have hEnds := openFifo_ends (o := o) s c.id w
    cases hRun : openFifo o s c.id w with
    | ok a v =>
      rw [hRun] at hEnds hNone
      exact absurd hNone hEnds
    | error e v =>
      rw [hRun] at hEnds
      obtain rfl : v = _ := hEnds
      exact ⟨c.id, by simp [final, World.endKeeper, hContainer], settled_nil⟩
  | releases o s =>
    cases hKeeper
    obtain ⟨c, fifo, hContainer, _, _, rfl⟩ := step_releases hStep
    exact released_settled hFormed hContainer hNone
  | reports o s text =>
    cases hKeeper
    obtain ⟨c, st, _, hStage, rfl⟩ := step_reports hStep
    have hKept : (final (traceEvent o s (.event text) w)).stages = w.stages :=
      traceEvent_stages _ w
    rw [hKept, hStage] at hNone
    cases hNone
  | finishes o s result stdout stderr =>
    cases hKeeper
    obtain ⟨c, st, hContainer, hStage, _, rfl⟩ := step_finishes hStep
    obtain ⟨c', hContainer', hId, _⟩ := hFormed.stage s st hStage
    cases hContainer.symm.trans hContainer'
    exact finish_settled hContainer hId result stdout stderr
  | _ => cases hKeeper

theorem settled_iff_run : ∃ w w',
    system.exec System.free .empty [.run { spawn := .ok 100 } "a", .exits 100] = some w ∧
      w.step (.finishes {} 0 (.ok 0) ["hello"] []) = some w' ∧
      Settled w w' "a" [.stdout "hello"] := by
  have hRun : (system.exec System.free .empty
      [.run { spawn := .ok 100 } "a", .exits 100]).bind (fun w =>
        (w.step (.finishes {} 0 (.ok 0) ["hello"] [])).map fun w' =>
          (w'.spawned, w'.stages.get 0, w'.containers.get 0)) =
      some (1, none, some ⟨"a", 100, false, [.stdout "hello"]⟩) := by decide +kernel
  obtain ⟨w, hExec, hRest⟩ := Option.bind_eq_some_iff.mp hRun
  obtain ⟨w', hStep, hw⟩ := Option.map_eq_some_iff.mp hRest
  simp only [Prod.mk.injEq] at hw
  obtain ⟨hSpawned, hStage, hContainer⟩ := hw
  have hReach : system.Reach System.free w := System.reach_of_exec rfl hExec
  obtain ⟨id, hId, hSettled⟩ := settled_iff hReach hStep ⟨rfl, by simp [hSpawned], hStage⟩
  rw [hContainer] at hId
  cases hId
  exact ⟨w, w', hExec, hStep, hSettled.mpr (.inr ⟨.inl rfl, by simp⟩)⟩

/-- Supervision ends with a deadlock and the record still says `Running`. -/
theorem not_settled : ¬ ∀ w l w' s, system.Reach System.free w → w.step l = some w' →
    w.Ended l w' s → ∃ id, (w'.containers.get s).map Container.id = some id ∧
      Settled w w' id l.captured := by
  intro hAll
  have hRun : (system.exec System.free .empty [.run { spawn := .ok 100 } "a"]).bind (fun w =>
        (w.step (.finishes {} 0 (.error .deadlock) [] [])).map fun w' =>
          (w'.spawned, w'.stages.get 0, w'.containers.get 0,
            (w'.dirs.get "a").map Dir.record)) =
      some (1, none, some ⟨"a", 100, false, []⟩,
        some (.holds ⟨"a", .running, 100, none⟩)) := by decide +kernel
  obtain ⟨w, hExec, hRest⟩ := Option.bind_eq_some_iff.mp hRun
  obtain ⟨w', hStep, hw⟩ := Option.map_eq_some_iff.mp hRest
  simp only [Prod.mk.injEq] at hw
  obtain ⟨hSpawned, hStage, hContainer, hRecord⟩ := hw
  obtain ⟨id, hId, hSettled⟩ := hAll w _ w' 0 (System.reach_of_exec rfl hExec) hStep
    ⟨rfl, by simp [hSpawned], hStage⟩
  rw [hContainer] at hId
  cases hId
  obtain ⟨d, hDir, hHolds⟩ := Option.map_eq_some_iff.mp hRecord
  rcases hSettled.quiet d hDir with hMissing | ⟨st, hStopped, hStatus⟩
  · rw [hHolds] at hMissing
    cases hMissing
  · cases hHolds.symm.trans hStopped
    cases hStatus

end Dtrun.Lifecycle
