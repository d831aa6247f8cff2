import Dtrun.Host.Ownership

/-! # Whom the signals reach

`kill` and a forced `delete` go by the recorded pid and look neither at the status nor at who has
the pid by now. They reach the init of the container named as long as that is still alive.
-/
namespace Dtrun.Lifecycle
set_option autoImplicit false
open FiniteMap StateExcept Transition Host

variable {o : Outcomes} {w w' : World} {s : Nat} {id : Id}

theorem hostResult_signals {α : Type} (r : Except HostError α) :
    Keeps World.signals (hostResult r) := by
  cases r with
  | ok a => exact .pure a
  | error e => exact .throw e

theorem initContainerDir_signals : Keeps World.signals (initContainerDir o id) := by
  refine fun w => .get_bind ?_
  cases o.createDirAll with
  | error e => rfl
  | ok u =>
    cases w.dirs.get id with
    | some d => rfl
    | none => rfl

theorem resetTrace_signals : Keeps World.signals (resetTrace o id) := by
  refine fun w => .get_bind ?_
  cases w.dirs.get id with
  | none => rfl
  | some d =>
    cases o.resetTrace with
    | true => rfl
    | false => rfl

theorem makeFifo_signals : Keeps World.signals (makeFifo o id) := by
  refine fun w => .get_bind ?_
  cases w.dirs.get id with
  | none => rfl
  | some d =>
    obtain ⟨record, fifo, trace⟩ := d
    cases fifo with
    | some fifo => rfl
    | none =>
      cases o.mkfifo with
      | error e => rfl
      | ok u => rfl

theorem writeState_signals (st : ContainerState) : Keeps World.signals (writeState o st) := by
  refine fun w => .get_bind ?_
  cases w.dirs.get st.id with
  | none => rfl
  | some d =>
    cases o.write with
    | done => rfl
    | notOpened => rfl
    | cutShort => rfl

theorem readState_signals : Keeps World.signals (readState id) := by
  refine fun w => .get_bind ?_
  cases w.dirs.get id with
  | none => rfl
  | some d =>
    obtain ⟨record, fifo, trace⟩ := d
    cases record with
    | missing => rfl
    | broken => rfl
    | holds st => rfl

theorem removeState_signals : Keeps World.signals (removeState o id) := by
  refine fun w => .get_bind ?_
  cases w.dirs.get id with
  | none => rfl
  | some d =>
    cases o.remove with
    | done => rfl
    | refused => rfl
    | cutShort record fifo trace => rfl

theorem traceEvent_signals (line : Line) : Keeps World.signals (traceEvent o s line) := by
  refine fun w => .get_bind ?_
  cases w.containers.get s with
  | none => rfl
  | some c =>
    simp only []
    cases w.dirs.get c.id with
    | none => rfl
    | some d =>
      cases o.append line with
      | true => rfl
      | false => rfl

theorem orEnd_signals {x : HostM Unit} (hx : Keeps World.signals x) :
    Keeps World.signals (orEnd s x) := by
  intro w
  have hKept := hx w
  rw [KeepsAt, orEnd]
  cases hRun : x w with
  | ok a w' => exact hKept.ok hRun
  | error e w' =>
    rw [KeepsAt, hRun] at hKept
    exact hKept

theorem spawnCreated_signals : Keeps World.signals (spawnCreated o id) :=
  .bind (hostResult_signals _) fun _ _ => rfl

theorem create_signals : Keeps World.signals (create o id) := by
  refine .bind (hostResult_signals _) fun _ => .bind initContainerDir_signals fun _ =>
    .bind resetTrace_signals fun _ => .bind makeFifo_signals fun _ =>
    .bind (hostResult_signals _) fun _ => .bind spawnCreated_signals fun _ => orEnd_signals ?_
  exact .bind (writeState_signals _) fun _ => .modify fun _ => rfl

theorem run_signals : Keeps World.signals (run o id) := by
  refine .bind (hostResult_signals _) fun _ => .bind initContainerDir_signals fun _ =>
    .bind resetTrace_signals fun _ => .bind spawnCreated_signals fun _ => orEnd_signals ?_
  exact .bind (writeState_signals _) fun _ => .modify fun _ => rfl

theorem openFifo_signals : Keeps World.signals (openFifo o s id) := by
  refine orEnd_signals fun w => .get_bind ?_
  cases (w.dirs.get id).bind Dir.fifo with
  | none => rfl
  | some fifo =>
    cases o.openFifo with
    | error e => rfl
    | ok u => rfl

theorem released_signals (child : Pid) (fifo : Nat) :
    Keeps World.signals (released o s id child fifo) := by
  refine orEnd_signals (.bind (.modify fun _ => rfl) fun _ =>
    .bind (.tryCatch readState_signals fun _ => .pure _) fun st => ?_)
  exact .bind (writeState_signals _) fun _ => .modify fun _ => rfl

theorem finish_signals (st : ContainerState) (result : Except SuperviseError Int)
    (stdout stderr : List String) :
    Keeps World.signals (finish o s st result stdout stderr) := by
  refine orEnd_signals (.bind (hostResult_signals _) fun code =>
    .bind (.tryCatch (writeState_signals _) fun _ => .pure _) fun _ => ?_)
  exact .bind (.forM (fun line => traceEvent_signals _) stdout) fun _ =>
    .bind (.forM (fun line => traceEvent_signals _) stderr) fun _ => .modify fun _ => rfl

theorem startContainer_signals : Keeps World.signals (startContainer o id) := by
  refine .bind readState_signals fun st => ?_
  dsimp only
  split
  · exact .throw _
  · refine fun w => .get_bind ?_
    cases (w.dirs.get id).bind Dir.fifo with
    | none => rfl
    | some fifo =>
      cases o.openFifo with
      | error e => rfl
      | ok u =>
        dsimp only
        split
        · rfl
        · rfl

namespace World

/-- The container that the operation is about to send a signal for. -/
def aims (w : World) : Label → Option Id
  | .kill o id => match (w.dirs.get id).map Dir.record with
    | some (.holds st) => if 0 < st.pid ∧ o.signal.isOk then some id else none
    | _ => none
  | .delete _ id true => match (w.dirs.get id).map Dir.record with
    | some (.holds st) => if 0 < st.pid then some id else none
    | _ => none
  | _ => none

/-- Ids are used by one living container at a time, and a signal is sent only for a container that
is alive and not deleted. -/
def Aimed (w : World) (l : Label) : Prop :=
  w.Exclusive l ∧ (w.aims l).all (fun id => w.current id ≠ []) = true

instance (w : World) (l : Label) : Decidable (w.Aimed l) :=
  inferInstanceAs (Decidable (_ ∧ _))

/-- Every signal was sent to the live init of the container named, which was not `Stopped`. -/
def Reached (w : World) : Prop :=
  ∀ sent ∈ w.signals, sent.target = some sent.id ∧ sent.status ≠ .stopped

end World

theorem Owned.reaches (h : Owned True w) {d : Dir} {st : ContainerState}
    (hDir : w.dirs.get id = some d) (hRecord : d.record = .holds st) (hCurrent : w.current id ≠ []) :
    w.initOf st.pid = some id ∧ st.status ≠ .stopped := by
  obtain ⟨s, hs⟩ := List.exists_mem_of_ne_nil _ hCurrent
  obtain ⟨c, hNow, hId⟩ := World.mem_current.mp hs
  obtain ⟨d', st', _, hDir', hRecord', hPid, hStatus, _⟩ := h.holds trivial s c hNow
  rw [hId, hDir] at hDir'
  cases hDir'
  cases hRecord.symm.trans hRecord'
  refine ⟨?_, hStatus⟩
  have hAlive : w.procs.get c.pid = some ⟨some s, false⟩ := hNow.2.2
  simp [World.initOf, hPid, hAlive, hNow.1, hId]

theorem World.Reached.signal (h : w.Reached) (hOwned : Owned True w) {d : Dir} {st : ContainerState}
    (hDir : w.dirs.get id = some d) (hRecord : d.record = .holds st)
    (hCurrent : w.current id ≠ []) (sig : Nat) : (w.signal id st sig).Reached := by
  intro sent hSent
  rcases List.mem_append.mp hSent with hOld | hNew
  · exact h sent hOld
  · rw [List.mem_singleton.mp hNew]
    exact hOwned.reaches hDir hRecord hCurrent

theorem World.Reached.step {l : Label} (h : w.Reached) (hOwned : Owned True w) (hOk : w.Aimed l)
    (hStep : w.step l = some w') : w'.Reached := by
  have same {v : World} (hSame : v.signals = w.signals) : v.Reached := by
    rwa [World.Reached, hSame]
  have done {x : HostM Unit} (hx : Keeps World.signals x) (hDone : w.done x = some w') :
      w'.Reached := by
    cases hDone
    exact same (hx w)
  have aimed {id : Id} (hAims : w.aims l = some id) : w.current id ≠ [] := by
    simpa [hAims] using hOk.2
  cases l with
  | create o id =>
    simp only [World.step] at hStep
    split at hStep
    · exact done create_signals hStep
    · cases hStep
  | run o id =>
    simp only [World.step] at hStep
    split at hStep
    · exact done run_signals hStep
    · cases hStep
  | start o id => exact done startContainer_signals hStep
  | kill o id =>
    cases hStep
    have hEnds : Ends (fun _ => World.Reached) World.Reached (killContainer o id w) := by
      have sent {v : World} (hSent : ∃ d st sig, w.dirs.get id = some d ∧ d.record = .holds st ∧
          0 < st.pid ∧ o.signal = .ok sig ∧ v = w.signal id st sig) : v.Reached := by
        obtain ⟨d, st, sig, hDir, hRecord, hPid, hSignal, rfl⟩ := hSent
        refine h.signal hOwned hDir hRecord (aimed ?_) sig
        simp [World.aims, hDir, hRecord, hPid, hSignal, Except.isOk, Except.toBool]
      refine (killContainer_ends id w).mono (fun _ v hv => sent hv) fun v hv => ?_
      rcases hv with rfl | hv
      · exact h
      · exact sent hv
    exact hEnds.final
  | delete o id force =>
    cases hStep
    refine Ends.final (deleteContainer_ends force h fun v hv => Ends.of_final ?_)
    have hKept : (final (removeState o id v)).signals = v.signals := removeState_signals v
    rw [World.Reached, hKept]
    rcases hv with rfl | ⟨d, st, rfl, hDir, hRecord, hPid, rfl⟩
    · exact h
    · refine h.signal hOwned hDir hRecord (aimed ?_) SIGKILL
      simp [World.aims, hDir, hRecord, hPid]
  | opens o s =>
    obtain ⟨c, _, _, rfl⟩ := step_opens hStep
    exact same (openFifo_signals w)
  | releases o s =>
    obtain ⟨c, fifo, _, _, _, rfl⟩ := step_releases hStep
    exact same (released_signals _ _ w)
  | reports o s text =>
    obtain ⟨c, st, _, _, rfl⟩ := step_reports hStep
    exact same (traceEvent_signals _ w)
  | finishes o s result stdout stderr =>
    obtain ⟨c, st, _, _, _, rfl⟩ := step_finishes hStep
    exact same (finish_signals st result stdout stderr w)
  | spawns p =>
    simp only [World.step] at hStep
    split at hStep
    · cases hStep
      exact same rfl
    · cases hStep
  | exits p =>
    simp only [World.step] at hStep
    split at hStep
    · cases hStep
      exact same rfl
    · cases hStep
  | reaps p =>
    simp only [World.step] at hStep
    split at hStep
    · split at hStep
      · cases hStep
        exact same rfl
      · cases hStep
    · cases hStep

/-- Signals reach nobody but the live init of the container named. -/
theorem signals_reach (h : system.Reach World.Aimed w) : w.Reached := by
  refine System.Reach.invariant (I := World.Reached) ?_ (fun v l v' hReach hReached hOk hStep =>
    hReached.step (owned (hReach.mono fun _ _ hBoth => hBoth.1)) hOk hStep) h
  rintro _ rfl sent hSent
  cases hSent

theorem signals_reach_created : ∃ w,
    system.exec World.Aimed .empty [.create { spawn := .ok 100 } "a", .kill {} "a"] = some w ∧
      ⟨"a", .created, 100, some "a"⟩ ∈ w.signals ∧ w.Reached := by
  have hRun : (system.exec World.Aimed .empty
      [.create { spawn := .ok 100 } "a", .kill {} "a"]).map World.signals =
      some [⟨"a", .created, 100, some "a"⟩] := by decide +kernel
  obtain ⟨w, hExec, hw⟩ := Option.map_eq_some_iff.mp hRun
  refine ⟨w, hExec, ?_, signals_reach (System.reach_of_exec rfl hExec)⟩
  rw [hw]
  exact List.mem_singleton_self _

/-- The init has ended and another process has its pid when the container is killed. -/
theorem not_signals_reach : ¬ ∀ w, system.Reach System.free w → w.Reached := by
  intro hAll
  have hRun : (system.exec System.free .empty
      [.run { spawn := .ok 100 } "a", .exits 100, .finishes {} 0 (.ok 0) [] [], .reaps 100,
        .spawns 100, .kill {} "a"]).map World.signals =
      some [⟨"a", .stopped, 100, none⟩] := by decide +kernel
  obtain ⟨w, hExec, hw⟩ := Option.map_eq_some_iff.mp hRun
  have hSent := hAll w (System.reach_of_exec rfl hExec) ⟨"a", .stopped, 100, none⟩ (by simp [hw])
  cases hSent.1

end Dtrun.Lifecycle
