import Dtrun.Supervisor.Hostings

/-! # Pids given out again do not show

A host that gives pids out again goes the way of one that numbers its threads on, from one naming of
the threads to the next. When a pid is given out nobody knows whom it named before.
-/
namespace Dtrun
set_option autoImplicit false
open FiniteMap StateExcept Transition Supervisor

theorem Answers.rename_refl (k : Answers) : k.rename (Equiv.refl Pid) = k := by
  have hChild (p : Pid) : (k.getevent p).map (Equiv.refl Pid) = k.getevent p := by
    cases k.getevent p with
    | ok c => rfl
    | error e => rfl
  obtain ⟨syscallInfo, getevent, getregs, setregs, syscall, readMem, writeMem⟩ := k
  simp only [Answers.rename, Equiv.refl_symm, Equiv.refl_apply]
  congr 1
  funext p
  exact hChild p

theorem WaitStatus.rename_refl (status : WaitStatus) :
    status.rename (Equiv.refl Pid).toEmbedding = status := by
  cases status <;> rfl

theorem Report.rename_refl (r : Report) : r.rename (Equiv.refl Pid) = r := by
  obtain ⟨status, k⟩ := r
  simp only [Report.rename, Answers.rename_refl]
  cases status with
  | ok status => exact congrArg (fun status => Report.mk (.ok status) k) status.rename_refl
  | error e => rfl

namespace Position

/-- A host that numbers its threads on has come to `y`. -/
abbrev Counts {P : Program} (y : Position P) (seed : U64) : Prop :=
  (P.on (Equiv.refl Pid) seed).Reach (Fair (Equiv.refl Pid)) y

variable {P : Program} {ρ : Equiv.Perm Pid} {x y : Position P} {status : WaitStatus} {S : P.State}

theorem requests_refl {w w' : World} (h : Machine.Asks ρ w.machine w'.machine) :
    requests ρ w' = requests (Equiv.refl Pid) w := by
  have hBack (e : Effect) : Effect.rename ρ.symm.toEmbedding (e.rename ρ.toEmbedding) = e := by
    cases e <;> simp [Effect.rename]
  have hSame (e : Effect) : Effect.rename (Equiv.refl Pid).symm.toEmbedding e = e := by
    cases e <;> rfl
  rw [requests, requests, h, List.map_map]
  exact (List.map_congr_left fun e _ => (hBack e).trans (hSame e).symm)

/-- A report on the renamed host is the same report on the other one. -/
theorem report_alike (h : y.world.Alike ρ x.world) (hBorn : x.born = y.born) {x' : Position P}
    (hShares : Machine.Shares ρ y.world.machine x.world.machine ⟨.ok status, P.answers S⟩)
    (hStep : x.report ρ status S = some x') : ∃ y', y.report (Equiv.refl Pid) status S = some y' ∧
      y'.world.Alike ρ x'.world ∧ x'.state = y'.state ∧ x'.born = y'.born := by
  obtain ⟨hObserve, hState, hBorn'⟩ := report_eq_some hStep
  obtain ⟨v, hView, hAlike, hAsks⟩ := h.observe (Report.renames_rename ρ _) hShares hObserve
  refine ⟨⟨v, P.settle S (requests (Equiv.refl Pid) v), y.born⟩, ?_, hAlike, ?_,
    hBorn'.trans hBorn⟩
  · rw [report, Report.rename_refl, hView]
    rfl
  · rw [hState, requests_refl hAsks]

end Position

/-! ## The arguments of a call for a thread -/

theorem Answers.call_rename (σ : Equiv.Perm Pid) (k : Answers) (p : Pid) :
    ((k.rename σ).entry (σ p)).bind (cloneCall (k.rename σ) (σ p)) =
      (k.entry p).bind (cloneCall k p) := by
  have hEntry : (k.rename σ).entry (σ p) = k.entry p := by simp [Answers.entry, Answers.rename]
  have hCall : cloneCall (k.rename σ) (σ p) = cloneCall k p := by
    funext regs
    simp [cloneCall, cloneArgs, Answers.rename]
  rw [hEntry, hCall]

theorem Machine.step_stash {m : Machine} {r : Report} {status : WaitStatus}
    (hOpen : m.result = none) (hStatus : r.status = .ok status) :
    (m.step r).sv.clonePending = stashAfter r.answers m.sv status := by
  rw [Machine.step_sv hOpen hStatus, pass_stash]
  rfl

theorem Report.renames_back (σ : Equiv.Perm Pid) (r : Report) :
    (r.rename σ.symm).Renames σ.toEmbedding r := by
  have hStatus (status : WaitStatus) :
      (status.rename σ.symm.toEmbedding).rename σ.toEmbedding = status := by
    cases status <;> simp [WaitStatus.rename]
  constructor
  · change r.status = (r.status.map _).map _
    cases r.status with
    | error e => rfl
    | ok status => exact congrArg Except.ok (hStatus status).symm
  · constructor
    all_goals
      intro p
      simp only [Report.rename, Answers.rename, Equiv.symm_symm, Equiv.coe_toEmbedding]
    cases r.answers.getevent (σ p) with
    | error e => rfl
    | ok c => simp [Except.map]

/-- A request that is refused at an exit stop ends the supervision. -/
theorem pass_refused {k : Answers} {p : Pid} {e : Errno} (hRefused : k.syscall p = .error e)
    (sig : Signal) (awaits : List Await) (s : Supervisor) :
    ∃ t, pass k awaits (.ptraceEvent p sig .exit) s = .error (.ptrace e) t := by
  have hResume : resumeThread k p s =
      .error (.ptrace e) { s with sigPending := s.sigPending.erase p } := by
    rw [resumeThread, bind_of_ok (get_apply s), bind_of_ok (set_apply _ _), ptraceSyscall, hRefused]
    rfl
  have hDispatch : dispatch k (.ptraceEvent p sig .exit) s =
      .error (.ptrace e) { s with sigPending := s.sigPending.erase p } := by
    rw [dispatch, bind_apply, hResume]
  refine ⟨{ s with sigPending := s.sigPending.erase p }, ?_⟩
  cases awaits with
  | nil => rw [pass, runPass, bind_apply, hDispatch]
  | cons w outer => rw [pass, awaitPass, if_neg (by simp), bind_apply, hDispatch]

/-- Call arguments of `p` have been stashed in its last stop. -/
theorem Machine.step_calls {m : Machine} {r : Report} {p : Pid} {info : CloneInfo}
    (hOpen : m.result = none) (hStatus : r.status = .ok (.ptraceSyscall p))
    (hCall : (r.answers.entry p).bind (cloneCall r.answers p) = some info) :
    (m.step r).sv.clonePending.get p = some info := by
  rw [step_stash hOpen hStatus, stashAfter, hCall]
  exact Map.get_insert_self _ _ _

namespace Hosting

variable {P : Program} {seed : U64} {h h' : Hosting P} {y y' : Position P} {a : Choice}

/-- A host that numbers its threads on is where `h` is, under the names that `h` has now. -/
structure Level (h : Hosting P) (y : Position P) : Prop where
  alike : y.world.Alike h.names h.position.world
  state : h.position.state = y.state
  born : h.position.born = y.born
  plain : ∀ q, y.world.machine.sv.sigPending.get q = none
  caller : ∀ p, h.caller = some p → p < y.born ∧ (y.world.tracees.phase p ≠ none →
    y.world.machine.sv.notesThread p ∧ h.position.world.machine.sv.clonePending.get (h.names p) =
      y.world.machine.sv.clonePending.get p)

/-- The host goes the way of one that numbers its threads on, unless a request to a thread of the
ended group was refused. -/
inductive Follows (seed : U64) (h : Hosting P) : Prop
  | level {y : Position P} (hReach : y.Counts seed)
      (hLevel : h.Level y) (hOpen : y.world.machine.result = none)
  | finished {y : Position P} {result : Except SuperviseError Int}
      (hReach : y.Counts seed)
      (hResult : h.result = some result) (hResult' : y.world.machine.result = some result)
      (hTrace : h.trace = y.world.machine.sv.trace)
  | refused {e : SuperviseError} (hEnded : h.position.Ended) (hError : h.result = some (.error e))

theorem Leaves.stashAfter_eq {status : WaitStatus} {k : Answers} {s : Supervisor}
    (hLeaves : h.Leaves status) : stashAfter k s status = s.clonePending := by
  cases status with
  | ptraceEvent p sig event =>
    cases event with
    | exit => rfl
    | _ => exact hLeaves.elim
  | ptraceSyscall p => exact hLeaves.elim
  | _ => rfl

theorem Leaves.stashAfter_rename {ρ : Pid ↪ Pid} {status : WaitStatus} {k : Answers}
    {s : Supervisor} (hLeaves : h.Leaves status) :
    stashAfter k s (status.rename ρ) = s.clonePending := by
  cases status with
  | ptraceEvent p sig event =>
    cases event with
    | exit => rfl
    | _ => exact hLeaves.elim
  | ptraceSyscall p => exact hLeaves.elim
  | _ => rfl

namespace Level

theorem ended_iff (hLevel : h.Level y) : h.position.Ended ↔ y.Ended := by
  rw [Position.Ended, Position.Ended, hLevel.alike.machine.groupExiting]

theorem creating_iff (hLevel : h.Level y) (p : Pid) :
    h.position.Creating p ↔ y.Creating p := by
  rw [Position.Creating, Position.Creating, hLevel.state]

theorem runs_iff (hLevel : h.Level y) (p : Pid) :
    h.position.Runs h.names p ↔ y.Runs (Equiv.refl Pid) p := by
  rw [Position.Runs, Position.Runs, hLevel.alike.tracees.phase]
  rfl

/-- A step that leads to alike worlds leads on. -/
theorem follows (hReach : y.Counts seed)
    (hAlike : y.world.Alike h.names h.position.world) (hState : h.position.state = y.state)
    (hBorn : h.position.born = y.born)
    (hPlain : y.world.machine.result = none → ∀ q, y.world.machine.sv.sigPending.get q = none)
    (hCaller : y.world.machine.result = none → ∀ p, h.caller = some p → p < y.born ∧
      (y.world.tracees.phase p ≠ none → y.world.machine.sv.notesThread p ∧
        h.position.world.machine.sv.clonePending.get (h.names p) =
          y.world.machine.sv.clonePending.get p)) : Follows seed h := by
  cases hResult : y.world.machine.result with
  | none => exact .level hReach ⟨hAlike, hState, hBorn, hPlain hResult, hCaller hResult⟩ hResult
  | some result =>
    exact .finished hReach (hAlike.machine.result.trans hResult) hResult
      hAlike.machine.trace

end Level

/-- Who called for a thread in its last stop was at a system call there. -/
theorem called_stop {p q : Pid} {status : WaitStatus} {S : P.State}
    (hNext : P.next h.position.state p = some (status, S))
    (hCalled : h.called (.stop p) = some q) : q = p ∧ status = .ptraceSyscall p ∧ ∃ info,
      ((P.answers S).entry p).bind (cloneCall (P.answers S) p) = some info ∧
        info.flags &&& CLONE_THREAD ≠ 0 := by
  simp only [called, hNext] at hCalled
  split at hCalled
  · rename_i q' S' hSyscall
    cases hSyscall
    split at hCalled
    · rename_i hThread
      cases hCalled
      obtain rfl : q' = p := by
        rcases P.own _ p _ S hNext with hStop | hDeath
        · exact Option.some.inj hStop
        · cases hDeath
      obtain ⟨info, hCall, hInfo⟩ := (Option.any_eq_true _ _).mp hThread
      exact ⟨rfl, rfl, info, hCall, of_decide_eq_true hInfo⟩
    · cases hCalled
  · cases hCalled

/-- No signal is kept for later while none but attach stops are reported. -/
theorem plain_observe {w w' : World} {r : Report} {status : WaitStatus}
    (hPlain : ∀ q, w.machine.sv.sigPending.get q = none) (hStep : w.observe r = some w')
    (hStatus : r.status = .ok status)
    (hNone : ∀ p sig, status = .stopped p sig → sig = .SIGSTOP)
    (hOpen : w'.machine.result = none) (q : Pid) : w'.machine.sv.sigPending.get q = none := by
  obtain ⟨hRunning, _, hMachine, _⟩ := World.observe_eq_some hStep
  rw [hMachine] at hOpen ⊢
  obtain ⟨status', hSame, hPass⟩ := Machine.step_pass hRunning hOpen
  cases hStatus.symm.trans hSame
  have hUnsigned : ({ w.machine.sv with effects := [] } : Supervisor).Unsigned :=
    ⟨hPlain, fun _ _ hMem => absurd hMem List.not_mem_nil⟩
  exact (Unsigned.pass hNone _ _ _ hPass hUnsigned).pending q

namespace Level

variable {status status' : WaitStatus} {w w' : World} {r r' : Report}

/-- The arguments of a call stay where they are over a report that is about no call. -/
theorem caller_kept (hLevel : h.Level y) (hStep : y.world.observe r = some w)
    (hStep' : h.position.world.observe r' = some w') (hStatus : r.status = .ok status)
    (hStatus' : r'.status = .ok status')
    (hSame : ∀ k s, stashAfter k s status = s.clonePending)
    (hSame' : ∀ k s, stashAfter k s status' = s.clonePending) (p : Pid) (hp : h.caller = some p) :
    p < y.born ∧ (w.tracees.phase p ≠ none → w.machine.sv.notesThread p ∧
      w'.machine.sv.clonePending.get (h.names p) = w.machine.sv.clonePending.get p) := by
  obtain ⟨hOpen, _, hMachine, _⟩ := World.observe_eq_some hStep
  obtain ⟨hOpen', _, hMachine', _⟩ := World.observe_eq_some hStep'
  have hStash : w.machine.sv.clonePending = y.world.machine.sv.clonePending := by
    rw [hMachine, Machine.step_stash hOpen hStatus, hSame]
  have hStash' : w'.machine.sv.clonePending = h.position.world.machine.sv.clonePending := by
    rw [hMachine', Machine.step_stash hOpen' hStatus', hSame']
  obtain ⟨hBorn, hCalls⟩ := hLevel.caller p hp
  refine ⟨hBorn, fun hLives => ?_⟩
  have hLived : y.world.tracees.phase p ≠ none := fun hGone =>
    hLives (Position.gone_observe hStep hGone)
  rw [notesThread, hStash, hStash']
  exact hCalls hLived

theorem follows_attach {p : Pid} (hLevel : h.Level y)
    (hReach : y.Counts seed)
    (hFair : h.Fair (.attach p)) (hStep : h.step (.attach p) = some h') : Follows seed h' := by
  obtain ⟨x, hReport, rfl⟩ := Option.map_eq_some_iff.mp hStep
  have hShares : Machine.Shares h.names y.world.machine h.position.world.machine
      ⟨.ok (.stopped p .SIGSTOP), P.answers h.position.state⟩ := by
    intro q sig event hStatus
    cases hStatus
  obtain ⟨y', hReport', hAlike, hState, hBorn⟩ :=
    Position.report_alike hLevel.alike hLevel.born hShares hReport
  have hNext : y.step (Equiv.refl Pid) (.attach p) = some y' := by
    rw [hLevel.state] at hReport'
    exact hReport'
  have hFair' : ¬ y.Ended := hLevel.ended_iff.not.mp hFair
  have hReach' := hReach.step (Move.attach p) hFair' hNext
  obtain ⟨hObserve, _, hSame⟩ := Position.report_eq_some hReport'
  have hObserve' := (Position.report_eq_some hReport).1
  refine follows hReach' hAlike hState hBorn (fun hOpen => ?_) fun _ q hq => ?_
  · exact plain_observe hLevel.plain hObserve rfl (by
      rintro _ _ ⟨⟩
      rfl) hOpen
  · rw [hSame]
    exact hLevel.caller_kept hObserve hObserve' rfl rfl (fun _ _ => rfl) (fun _ _ => rfl) q hq

theorem follows_exec {p : Pid} (hLevel : h.Level y)
    (hReach : y.Counts seed)
    (hStep : h.step (.exec p) = some h') : Follows seed h' := by
  obtain ⟨x, hMove, rfl⟩ := Option.map_eq_some_iff.mp hStep
  obtain ⟨w, hExec, rfl⟩ := Option.map_eq_some_iff.mp hMove
  obtain ⟨v, hExec', hAlike⟩ := hLevel.alike.exec hExec
  have hNext : y.step (Equiv.refl Pid) (.exec p) = some ⟨v, y.state, y.born⟩ :=
    Option.map_eq_some_iff.mpr ⟨v, hExec', rfl⟩
  have hReach' := hReach.step (Move.exec p) trivial hNext
  refine follows hReach' hAlike hLevel.state hLevel.born (fun _ => ?_) fun _ q hq => ?_
  · change ∀ q, v.machine.sv.sigPending.get q = none
    rw [World.exec_machine hExec']
    exact hLevel.plain
  · obtain ⟨hBorn, hCalls⟩ := hLevel.caller q hq
    refine ⟨hBorn, fun hLives => ?_⟩
    change v.tracees.phase q ≠ none at hLives
    rw [World.exec_phase hExec'] at hLives
    change v.machine.sv.notesThread q ∧ w.machine.sv.clonePending.get (h.names q) =
      v.machine.sv.clonePending.get q
    rw [World.exec_machine hExec', World.exec_machine hExec]
    exact hCalls hLives

theorem follows_stop {p : Pid} (hLevel : h.Level y) (hReach : y.Counts seed)
    (hFair : h.Fair (.stop p)) (hStep : h.step (.stop p) = some h') : Follows seed h' := by
  obtain ⟨x, hMove, rfl⟩ := Option.map_eq_some_iff.mp hStep
  obtain ⟨status, S, hNext, hReport⟩ := Position.stop_eq_some hMove
  obtain ⟨hNot, hRuns, hCalls, hPlain⟩ := hFair
  have hOwn := P.own _ p status S hNext
  have hLives : y.world.tracees.phase p ≠ none := by
    intro hGone
    rcases (hLevel.runs_iff p).mp hRuns with hRan | hRan
    · cases hGone.symm.trans hRan
    · cases hGone.symm.trans hRan
  have hStatus (q : Pid) (sig : Signal) : status ≠ .stopped q sig := by
    rintro rfl
    cases hPlain _ hNext
  -- who creates a thread has called for one in the stop before
  have hArgs (hCreating : y.Creating p) : y.world.machine.sv.notesThread p ∧
      h.position.world.machine.sv.clonePending.get (h.names p) =
        y.world.machine.sv.clonePending.get p :=
    (hLevel.caller p (hCalls ((hLevel.creating_iff p).mpr hCreating))).2 hLives
  have hShares : Machine.Shares h.names y.world.machine h.position.world.machine
      ⟨.ok status, P.answers S⟩ := by
    rintro q sig event hEvent hCreates
    cases hEvent
    rcases hOwn with hStop | hDeath
    · cases hStop
      exact (hArgs ((hLevel.creating_iff _).mp ⟨_, sig, event, S, hNext, hCreates⟩)).2
    · cases hDeath
  obtain ⟨y', hReport', hAlike, hState, hBorn⟩ :=
    Position.report_alike hLevel.alike hLevel.born hShares hReport
  have hNext' : P.next y.state p = some (status, S) := hLevel.state ▸ hNext
  have hMove' : y.step (Equiv.refl Pid) (.stop p) = some y' :=
    Option.bind_eq_some_iff.mpr ⟨_, hNext', hReport'⟩
  have hReach' := hReach.step (Move.stop p) ⟨hLevel.ended_iff.not.mp hNot,
    (hLevel.runs_iff p).mp hRuns, fun hCreating => (hArgs hCreating).1⟩ hMove'
  obtain ⟨hObserve, _, hSame⟩ := Position.report_eq_some hReport'
  obtain ⟨hRunning, _, hMachine, _⟩ := World.observe_eq_some hObserve
  obtain ⟨hRunning', _, hMachine', _⟩ := World.observe_eq_some (Position.report_eq_some hReport).1
  refine follows hReach' hAlike hState hBorn (fun hOpen => ?_) fun _ q hq => ?_
  · refine plain_observe hLevel.plain hObserve rfl (fun q sig hStopped => ?_) hOpen
    rw [WaitStatus.rename_refl] at hStopped
    exact absurd hStopped (hStatus q sig)
  · rw [hSame]
    change h.called (.stop p) = some q at hq
    obtain ⟨rfl, rfl, info, hCall, hThread⟩ := called_stop hNext hq
    have hStash : y'.world.machine.sv.clonePending.get q = some info := by
      rw [hMachine]
      exact Machine.step_calls hRunning rfl
        ((Answers.call_rename (Equiv.refl Pid) _ q).trans hCall)
    have hStash' : x.world.machine.sv.clonePending.get (h.names q) = some info := by
      rw [hMachine']
      exact Machine.step_calls hRunning' rfl ((Answers.call_rename h.names _ q).trans hCall)
    refine ⟨Position.numbered hReach q hLives, fun _ => ⟨?_, hStash'.trans hStash.symm⟩⟩
    rw [notesThread, hStash]
    exact hThread

theorem follows_last {r : Report} (hLevel : h.Level y) (hReach : y.Counts seed)
    (hFair : h.Fair (.last r)) (hStep : h.step (.last r) = some h') : Follows seed h' := by
  obtain ⟨x, hMove, rfl⟩ := Option.map_eq_some_iff.mp hStep
  obtain ⟨w, hObserve, rfl⟩ := Option.map_eq_some_iff.mp hMove
  obtain ⟨hEnded, hLast, status, hStatus, hLeaves⟩ := hFair
  have hRenames := Report.renames_back h.names r
  have hShares : Machine.Shares h.names y.world.machine h.position.world.machine
      (r.rename h.names.symm) := by
    intro p sig event hEvent hCreates
    simp only [Report.rename, hStatus, Except.map, Except.ok.injEq] at hEvent
    cases status with
    | ptraceEvent q sig' event' =>
      cases hEvent
      cases event with
      | exit => cases hCreates
      | _ => exact hLeaves.elim
    | _ => cases hEvent
  obtain ⟨v, hObserve', hAlike, _⟩ := hLevel.alike.observe hRenames hShares hObserve
  have hNext : y.step (Equiv.refl Pid) (.last (r.rename h.names.symm)) =
      some ⟨v, y.state, y.born⟩ := Option.map_eq_some_iff.mpr ⟨v, hObserve', rfl⟩
  have hStatus' : (r.rename h.names.symm).status =
      .ok (status.rename h.names.symm.toEmbedding) := by
    simp only [Report.rename, hStatus, Except.map]
  by_cases hLeft : y.Leaves (Equiv.refl Pid) (r.rename h.names.symm).answers
      (status.rename h.names.symm.toEmbedding)
  · have hReach' := hReach.step (Move.last (r.rename h.names.symm))
      ⟨hLevel.ended_iff.mp hEnded, hLevel.alike.leaderLast hRenames hLast, _, hStatus', hLeft⟩ hNext
    refine follows hReach' hAlike hLevel.state hLevel.born (fun hOpen => ?_) fun _ q hq => ?_
    · refine plain_observe hLevel.plain hObserve' hStatus' (fun p sig hStopped => ?_) hOpen
      cases status with
      | stopped p sig => exact hLeaves.elim
      | _ => cases hStopped
    · exact hLevel.caller_kept hObserve' hObserve hStatus' hStatus
        (fun _ _ => hLeaves.stashAfter_rename) (fun _ _ => hLeaves.stashAfter_eq) q hq
  · obtain ⟨hRunning, _, hMachine, _⟩ := World.observe_eq_some hObserve
    cases status with
    | ptraceEvent p sig event =>
      cases event with
      | exit =>
        cases hRefused : r.answers.syscall p with
        | ok u =>
          refine absurd ?_ hLeft
          simp [Position.Leaves, WaitStatus.rename, Report.rename, Answers.rename, hRefused]
        | error e =>
          obtain ⟨t, hPass⟩ := pass_refused hRefused sig h.position.world.machine.awaits
            { h.position.world.machine.sv with effects := [] }
          refine .refused (e := .ptrace e) ?_ ?_
          · by_contra hNot
            exact Position.not_ended hObserve hNot hEnded
          · change w.machine.result = _
            rw [hMachine, Machine.step_settle hRunning hStatus, hPass]
            rfl
      | _ => exact hLeaves.elim
    | exited p code =>
      refine absurd (fun hInit => ?_) hLeft
      rw [← hLevel.state]
      exact hLeaves (by rw [← h.names.symm_apply_eq]; exact hInit)
    | signaled p sig core =>
      refine absurd (fun hInit => ?_) hLeft
      exact hLeaves (by rw [← h.names.symm_apply_eq]; exact hInit)
    | _ => exact hLeaves.elim

/-- A new name for a number that is not in use, and for the one that had that name, changes the name
of no task. -/
theorem named_eq {p c q : Pid} (hLevel : h.Level y) (hReach : y.Counts seed)
    (hFree : h.position.world.tracees.task c = none) (hLives : y.world.tracees.phase q ≠ none) :
    h.named (.spawn p c) q = h.names q := by
  have hBorn : h.names q ≠ h.names h.position.born := by
    intro hEq
    have hLess := Position.numbered hReach q hLives
    rw [h.names.injective hEq, hLevel.born] at hLess
    exact lt_irrefl _ hLess
  have hOther : h.names q ≠ c := by
    rintro rfl
    rw [hLevel.alike.tracees.task, Option.map_eq_none_iff] at hFree
    exact hLives (by rw [Tracees.phase, hFree]; rfl)
  exact Equiv.swap_apply_of_ne_of_ne hBorn hOther

/-- The creator is a task that runs and is creating no other. -/
theorem creator_runs {p c : Pid} {w : World} (hLevel : h.Level y) (hReach : y.Counts seed)
    (hSpawn : h.position.world.spawn (h.named (.spawn p c) p) c true true = some w) :
    y.world.tracees.phase p = some .released ∧ y.world.tracees.cloned p = none := by
  obtain ⟨x', hParent, hFree, hRan, hIdle, _⟩ := World.spawn_eq_some hSpawn
  have hOld := hLevel.alike.tracees.task (h.names.symm (h.named (.spawn p c) p))
  rw [h.names.apply_symm_apply, hParent] at hOld
  obtain ⟨t, hTask, rfl⟩ := Option.map_eq_some_iff.mp hOld.symm
  have hLives : y.world.tracees.phase (h.names.symm (h.named (.spawn p c) p)) ≠ none := by
    simp [Tracees.phase, hTask]
  have hSame := hLevel.named_eq (p := p) hReach hFree hLives
  rw [h.names.apply_symm_apply] at hSame
  rw [(h.named (.spawn p c)).injective hSame] at hTask
  constructor
  · rw [Tracees.phase, hTask]
    exact congrArg some hRan
  · rw [Tracees.cloned, hTask]
    exact Option.map_eq_none_iff.mp hIdle

theorem follows_spawn {p c : Pid} (hLevel : h.Level y) (hReach : y.Counts seed)
    (hOpen : y.world.machine.result = none) (hFair : h.Fair (.spawn p c))
    (hStep : h.step (.spawn p c) = some h') : Follows seed h' := by
  obtain ⟨x, hMove, rfl⟩ := Option.map_eq_some_iff.mp hStep
  obtain ⟨w, hSpawn, rfl⟩ := Option.map_eq_some_iff.mp hMove
  have hNot := hLevel.ended_iff.not.mp hFair.1
  have hNew : h.named (.spawn p c) h.position.born = c := Equiv.swap_apply_left _ _
  have hGiven := hSpawn
  rw [hNew] at hGiven
  obtain ⟨_, _, hFree, _⟩ := World.spawn_eq_some hGiven
  have named {q : Pid} (hLives : y.world.tracees.phase q ≠ none) :
      h.names q = h.named (.spawn p c) q := (hLevel.named_eq hReach hFree hLives).symm
  obtain ⟨hRan, hIdle⟩ := hLevel.creator_runs hReach hGiven
  obtain ⟨hNone, hWithin⟩ := Position.within hReach hOpen hNot hRan hLevel.plain
  have hCloned := Position.cloned_eq_none hReach hOpen hNot hRan hIdle
  -- under the new names the worlds are alike before the thread is there, and so they are after
  have hAlike := hLevel.alike.congr hWithin hNone (fun q g hGroup => by
    rw [Position.grouped hReach q g hGroup]
    exact Position.init_lives hReach hOpen) hCloned fun q hLives => named hLives
  obtain ⟨v, hSpawn', hAlike'⟩ := hAlike.spawn hSpawn
  rw [hLevel.born] at hSpawn'
  have hNext : y.step (Equiv.refl Pid) (.spawn p) = some ⟨v, y.state, y.born + 1⟩ :=
    Option.map_eq_some_iff.mpr ⟨v, hSpawn', rfl⟩
  have hFresh : y.world.tracees.phase y.born = none := by
    by_contra hLives
    exact lt_irrefl _ (Position.numbered hReach _ hLives)
  have hUnheld : y.world.Unheld (.spawn p y.born true true) :=
    Position.unheld hWithin hNone hCloned hFresh
  have hReach' := hReach.step (Move.spawn p)
    ⟨hNot, (hLevel.creating_iff p).mp hFair.2, hUnheld⟩ hNext
  refine follows hReach' hAlike' hLevel.state (congrArg (· + 1) hLevel.born) (fun _ => ?_)
    fun _ q hq => ?_
  · change ∀ q, v.machine.sv.sigPending.get q = none
    rw [World.spawn_machine hSpawn']
    exact hLevel.plain
  · obtain ⟨hBorn, hCalls⟩ := hLevel.caller q hq
    refine ⟨hBorn.trans (Int.lt_succ _), fun hLives => ?_⟩
    change v.tracees.phase q ≠ none at hLives
    rw [World.spawn_phase hSpawn', if_neg hBorn.ne] at hLives
    change v.machine.sv.notesThread q ∧ w.machine.sv.clonePending.get (h.named (.spawn p c) q) =
      v.machine.sv.clonePending.get q
    rw [World.spawn_machine hSpawn', World.spawn_machine hSpawn, ← named hLives]
    exact hCalls hLives

end Level

theorem alone_renames (σ : Equiv.Perm Pid) : (World.alone 0).Renames σ (World.alone (σ 0)) := by
  refine ⟨fun p => ?_, rfl⟩
  simp only [Tracees.task, World.alone, Map.get_singleton, σ.apply_eq_iff_eq]
  split
  · rfl
  · rfl

theorem alike_start (σ : Equiv.Perm Pid) (seed : U64) (k : Answers) :
    (World.start 0 seed k).Alike σ (World.start (σ 0) seed (k.rename σ)) := by
  have hMachine : Machine.start (σ 0) seed (k.rename σ) =
      (Machine.start 0 seed k).rename σ.toEmbedding :=
    Machine.start_rename 0 seed (Answers.renames_rename σ k)
  constructor
  · change (Machine.start 0 seed k).Alike σ (Machine.start (σ 0) seed (k.rename σ))
    rw [hMachine]
    exact Machine.alike_rename _
  · change Tracees.Renames σ ((World.alone 0).applyAll _)
      ((World.alone (σ 0)).applyAll (Machine.start (σ 0) seed (k.rename σ)).sv.effects)
    rw [hMachine]
    exact (alone_renames σ).applyAll _

theorem follows_start (σ : Equiv.Perm Pid) (seed : U64) :
    Follows seed (start σ seed : Hosting P) := by
  have hSame : (Position.start (Equiv.refl Pid) seed : Position P).world =
      World.start 0 seed (P.answers P.start) :=
    congrArg (World.start 0 seed) (P.answers P.start).rename_refl
  have hAlike : (Position.start (Equiv.refl Pid) seed : Position P).world.Alike σ
      (start σ seed : Hosting P).position.world := by
    rw [hSame]
    exact alike_start σ seed _
  have hAsks : Machine.Asks σ (Position.start (Equiv.refl Pid) seed : Position P).world.machine
      (start σ seed : Hosting P).position.world.machine := by
    rw [hSame]
    exact congrArg (fun m : Machine => m.sv.effects)
      (Machine.start_rename 0 seed (Answers.renames_rename σ (P.answers P.start)))
  refine Level.follows (.init rfl) hAlike (congrArg (P.settle P.start) ?_) rfl
    (fun hOpen => ?_) fun _ p hp => (by cases hp)
  · exact Position.requests_refl hAsks
  · rw [hSame] at hOpen ⊢
    obtain ⟨_, hPicks⟩ := Machine.start_wait hOpen
    have hFresh : (Machine.fresh 0 seed).Unsigned := ⟨fun _ => rfl, by simp [Machine.fresh]⟩
    exact (hFresh.picks hPicks).pending

/-- Once `supervise` has returned, what still happens to the tasks changes nothing. -/
theorem step_over (hStep : h.step a = some h') (hDone : h.result ≠ none) :
    h'.position.world.machine = h.position.world.machine := by
  obtain ⟨x, hMove, rfl⟩ := Option.map_eq_some_iff.mp hStep
  have observed {r : Report} {w : World} (hObserve : h.position.world.observe r = some w) :
      False := hDone (World.observe_eq_some hObserve).1
  cases a with
  | spawn p c =>
    obtain ⟨w, hSpawn, rfl⟩ := Option.map_eq_some_iff.mp hMove
    exact World.spawn_machine hSpawn
  | exec p =>
    obtain ⟨w, hExec, rfl⟩ := Option.map_eq_some_iff.mp hMove
    exact World.exec_machine hExec
  | attach p => exact (observed (Position.report_eq_some hMove).1).elim
  | stop p =>
    obtain ⟨_, _, _, hReport⟩ := Position.stop_eq_some hMove
    exact (observed (Position.report_eq_some hReport).1).elim
  | last r =>
    obtain ⟨w, hLast, rfl⟩ := Option.map_eq_some_iff.mp hMove
    exact (observed hLast).elim

theorem follows {σ : Equiv.Perm Pid} (hReach : (P.hosted σ seed).Reach Fair h) :
    Follows seed h := by
  refine System.Reach.invariant (I := Follows seed) ?_ ?_ hReach
  · rintro _ rfl
    exact follows_start σ seed
  · intro h a h' _ hFollows hFair hStep
    cases hFollows with
    | level hCounts hLevel hOpen =>
      cases a with
      | spawn p c => exact hLevel.follows_spawn hCounts hOpen hFair hStep
      | exec p => exact hLevel.follows_exec hCounts hStep
      | attach p => exact hLevel.follows_attach hCounts hFair hStep
      | stop p => exact hLevel.follows_stop hCounts hFair hStep
      | last r => exact hLevel.follows_last hCounts hFair hStep
    | finished hCounts hResult hResult' hTrace =>
      have hSame := step_over hStep (by simp [hResult])
      refine .finished hCounts ?_ hResult' ?_
      · rwa [result, hSame]
      · rwa [trace, hSame]
    | @refused e hEnded hError =>
      have hSame := step_over hStep (by simp [hError])
      refine .refused (e := e) ?_ ?_
      · rwa [Position.Ended, hSame]
      · rwa [result, hSame]

/-- `supervise` has returned; if the group had been ended, then with a code. -/
structure Returns (h : Hosting P) (result : Except SuperviseError Int) : Prop where
  returned : h.result = some result
  code : h.position.Ended → ∃ code, result = Except.ok code

/-- Whatever pids two hosts give out, and whichever of them they give out again, whenever they
report the attach stops and in whatever order the threads of the ended group leave, a program run
from one seed writes the same trace on both and `supervise` returns the same. -/
theorem runs_agree {σ τ : Equiv.Perm Pid} {x y : Hosting P}
    {result result' : Except SuperviseError Int} (hx : (P.hosted σ seed).Reach Fair x)
    (hy : (P.hosted τ seed).Reach Fair y) (hResult : x.Returns result)
    (hResult' : y.Returns result') :
    result = result' ∧ x.trace = y.trace := by
  have counts {h : Hosting P} {result : Except SuperviseError Int} (hFollows : Follows seed h)
      (hReturns : h.Returns result) : ∃ z : Position P, z.Counts seed ∧
        z.world.machine.result = some result ∧ z.world.machine.sv.trace = h.trace := by
    cases hFollows with
    | level hCounts hLevel hOpen =>
      have hNone := hLevel.alike.machine.result.trans hOpen
      cases hNone.symm.trans hReturns.returned
    | finished hCounts hDone hDone' hTrace =>
      cases hDone.symm.trans hReturns.returned
      exact ⟨_, hCounts, hDone', hTrace.symm⟩
    | refused hEnded hError =>
      obtain ⟨code, rfl⟩ := hReturns.code hEnded
      cases hError.symm.trans hReturns.returned
  obtain ⟨z, hCounts, hDone, hTrace⟩ := counts (follows hx) hResult
  obtain ⟨z', hCounts', hDone', hTrace'⟩ := counts (follows hy) hResult'
  obtain ⟨hSame, hBoth⟩ := Position.results_agree hCounts hCounts' hDone hDone'
  exact ⟨hSame, hTrace.symm.trans (hBoth.trans hTrace')⟩

/-- The init creates a thread, which leaves, and then another one, which ends the group. -/
def heirs : Program where
  State := Nat
  start := 0
  next S p := match S with
    | 0 | 2 | 5 | 7 | 8 => some (.ptraceSyscall p, S + 1)
    | 1 | 6 => some (.ptraceEvent p .SIGTRAP .clone, S + 1)
    | 3 => some (.ptraceEvent p .SIGTRAP .exit, 4)
    | 4 => some (.exited p 0, 5)
    | _ => none
  own S p status S' h := by
    split at h
    all_goals
      cases h
      try first | exact .inl rfl | exact .inr rfl
  answers S := match S with
    | 1 | 6 => (Report.enters 0 { origRax := 56, rdi := threadFlags }).answers
    | 2 => (Report.created 0 .clone 1).answers
    | 7 => (Report.created 0 .clone 2).answers
    | 3 | 8 => (Report.leaves 0).answers
    | 9 => (Report.enters 2 { origRax := 231 }).answers
    | _ => {}
  absorb S _ := S
  exitCode _ := 7

/-- The second thread gets the pid that the first one had. -/
def inherits : List Choice :=
  [.stop 0, .spawn 0 101, .stop 0, .attach 1, .stop 0, .stop 1, .stop 1,
   .stop 0, .spawn 0 101, .stop 0, .attach 2, .stop 0, .stop 2,
   .last (.plain (.ptraceEvent 101 .SIGTRAP .exit)),
   .last (.plain (.ptraceEvent 100 .SIGTRAP .exit)), .last (.plain (.exited 101 0)),
   .last (.plain (.exited 100 7))]

/-- Each thread gets a pid of its own, and its attach stop comes first. -/
def numbers : List Choice :=
  [.stop 0, .spawn 0 150, .attach 1, .stop 0, .stop 0, .stop 1, .stop 1,
   .stop 0, .spawn 0 120, .attach 2, .stop 0, .stop 0, .stop 2,
   .last (.plain (.ptraceEvent 200 .SIGTRAP .exit)),
   .last (.plain (.signaled 120 .SIGKILL false)), .last (.plain (.exited 200 7))]

theorem runs_agree_heirs : ∃ x y : Hosting heirs,
    (heirs.hosted Position.upwards 1).Reach Fair x ∧
      (heirs.hosted Position.downwards 1).Reach Fair y ∧
      x.trace.length = 12 ∧ x.trace = y.trace := by
  have hInherits : ((heirs.hosted Position.upwards 1).exec Fair (start Position.upwards 1)
      inherits).map (fun x => (x.trace.length, x.result)) = some (12, some (.ok 7)) := by
    decide +kernel
  have hNumbers : ((heirs.hosted Position.downwards 1).exec Fair (start Position.downwards 1)
      numbers).map Hosting.result = some (some (.ok 7)) := by decide +kernel
  obtain ⟨x, hExec, hx⟩ := Option.map_eq_some_iff.mp hInherits
  obtain ⟨y, hExec', hy⟩ := Option.map_eq_some_iff.mp hNumbers
  simp only [Prod.mk.injEq] at hx
  obtain ⟨hLength, hDone⟩ := hx
  have hReach := System.reach_of_exec rfl hExec
  have hReach' := System.reach_of_exec rfl hExec'
  exact ⟨x, y, hReach, hReach', hLength,
    (runs_agree hReach hReach' ⟨hDone, fun _ => ⟨7, rfl⟩⟩ ⟨hy, fun _ => ⟨7, rfl⟩⟩).2⟩

end Hosting

end Dtrun
