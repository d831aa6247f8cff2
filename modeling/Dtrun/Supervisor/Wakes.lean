import Dtrun.Library.Fifo
import Dtrun.Supervisor.Waits

/-! # The futex queues as waiting lines

A wake takes the head of one queue to the end of the run queue. Over a whole run a futex queue is
joined by those that park, left by those that die, and served at its head by every other way out,
so that a parked thread waits for those ahead of it and for nobody else.
-/
namespace Dtrun
set_option autoImplicit false
open FiniteMap StateExcept Transition Supervisor Fifo

variable {k : Answers} {p q : Pid} {s s' t v : Supervisor} {addr : U64} {gone : List Pid} {m : Nat}

/-- A wake of `n` has moved the head of the queue, and returned how many that were. -/
structure WakesHead (s : Supervisor) (addr : U64) (n woken : Nat) (t : Supervisor) : Prop where
  woken : woken = min n (s.parkedOn addr).length
  runnable : t.runnable = s.runnable ++ (s.parkedOn addr).take n
  blocked : t.blocked = s.blocked \ ((s.parkedOn addr).take n).toFinset
  left : t.parkedOn addr = (s.parkedOn addr).drop n
  elsewhere : ∀ a, a ≠ addr → t.parkedOn a = s.parkedOn a

theorem Supervisor.Queued.wakesHead (h : s.Queued) (addr val : U64) :
    WakesHead s addr val.toInt.toNat (s.wake addr val).1 (s.wake addr val).2 := by
  have hMoved := wake_unparked h addr val
  constructor
  · exact wake_fst h addr val
  · rw [hMoved.runnable, take_wakeCount]
  · rw [hMoved.blocked, take_wakeCount]
  · rw [hMoved.parked, drop_wakeCount]
  · exact fun a ha => hMoved.parkedOn_ne ha

/-- The thread is current, or `schedule_next` will come to it. -/
structure Supervisor.Ready (s : Supervisor) (q : Pid) : Prop where
  registered : s.registered q = true
  unblocked : q ∉ s.blocked
  place : q ∈ s.runnable ∨ s.current = some q

namespace Supervisor.Ready

theorem congr (h : s.Ready q) (hThreads : t.threads = s.threads) (hBlocked : t.blocked = s.blocked)
    (hRunnable : t.runnable = s.runnable) (hCurrent : t.current = s.current) : t.Ready q := by
  constructor
  · rw [Supervisor.registered, hThreads]
    exact h.registered
  · rw [hBlocked]
    exact h.unblocked
  · rw [hRunnable, hCurrent]
    exact h.place

theorem quiet (h : s.Ready q) (hQuiet : Quiet s t) : t.Ready q :=
  h.congr hQuiet.threads hQuiet.blocked hQuiet.runnable hQuiet.current

theorem picks (h : s.Ready q) (hFree : s.current = none) (hPicks : Picks k s t) : t.Ready q := by
  have hQueued : q ∈ s.runnable := by
    refine h.place.resolve_right fun hNow => ?_
    rw [hFree] at hNow
    cases hNow
  have hNot : ¬ s.Skips q := by
    rintro (hNone | hBlocked)
    · rw [h.registered] at hNone
      cases hNone
    · exact h.unblocked hBlocked
  cases hPicks with
  | idle hSkips _ => exact absurd (hSkips q hQueued) hNot
  | @run skipped rest tid thread hQueue hSkips hLookup hBlocked hOk =>
    have hFrame := scheduled_frame { s with runnable := rest } tid thread
    rw [hQueue, List.mem_append, List.mem_cons] at hQueued
    constructor
    · rw [hFrame]
      exact h.registered
    · rw [hFrame]
      exact h.unblocked
    · rw [hFrame]
      rcases hQueued with hSkipped | rfl | hRest
      · exact absurd (hSkips q hSkipped) hNot
      · exact .inr rfl
      · exact .inl hRest

theorem runsOn (h : s.Ready q) (hTail : RunsOn k s t) : t.Ready q := by
  rcases hTail with ⟨hFree, hPicks⟩ | ⟨_, rfl⟩
  · exact h.picks hFree hPicks
  · exact h

end Supervisor.Ready

theorem Picks.waiting (h : Picks k s t) : t.waiting = s.waiting := by
  cases h with
  | idle => rfl
  | @run skipped rest tid thread =>
    rw [scheduled_frame]
    rfl

theorem RunsOn.waiting (h : RunsOn k s t) : t.waiting = s.waiting := by
  rcases h with ⟨_, hPicks⟩ | ⟨_, rfl⟩
  · exact hPicks.waiting
  · rfl

theorem Supervisor.Unparked.drop (h : Unparked addr m s t) (a : U64) :
    t.parkedOn a = (s.parkedOn a).drop (if a = addr then m else 0) := by
  split
  · rename_i hEq
    rw [hEq, h.parked]
  · rename_i hNe
    rw [h.parkedOn_ne hNe, List.drop_zero]

/-- The head of one queue has been made ready, the dead are taken out, and whoever parks stands at
the back. -/
inductive Turnover (gone : List Pid) (s t : Supervisor) : Prop
  | mk (addr : U64) (m : Nat) (joined : U64 → List Pid)
      (hParked : ∀ a, t.parkedOn a =
        (((s.parkedOn a).drop (if a = addr then m else 0)).filter fun q => q ∉ gone) ++ joined a)
      (hNew : ∀ a, ∀ q ∈ joined a, q ∉ s.blocked)
      (hReady : ∀ q ∈ (s.parkedOn addr).take m, q ∉ gone → t.Ready q)

namespace Turnover

theorem same (h : t.waiting = s.waiting) : Turnover [] s t := by
  refine .mk 0 0 (fun _ => []) (fun a => ?_) (fun _ _ => nofun) (by simp)
  simp [parkedOn, h]

theorem parks (h : t.waiting = (s.block p addr).waiting) (hNew : p ∉ s.blocked) :
    Turnover [] s t := by
  refine .mk 0 0 (fun a => if a = addr then [p] else []) (fun a => ?_) (fun a q hq => ?_) (by simp)
  · have hBlock := parkedOn_block s p addr a
    rw [parkedOn, ← h] at hBlock
    rw [parkedOn, hBlock]
    split
    · rename_i hEq
      simp [hEq]
    · simp
  · split at hq
    · rw [List.mem_singleton.mp hq]
      exact hNew
    · cases hq

theorem wakes (hMoved : ∀ a, v.parkedOn a = (s.parkedOn a).drop (if a = addr then m else 0))
    (hParked : ∀ a, t.parkedOn a = (v.parkedOn a).filter fun q => q ∉ gone)
    (hReady : ∀ q ∈ (s.parkedOn addr).take m, q ∉ gone → t.Ready q) : Turnover gone s t := by
  refine .mk addr m (fun _ => []) (fun a => ?_) (fun _ _ => nofun) hReady
  rw [hParked, List.append_nil, hMoved]

theorem then_same (h : Turnover gone s v) (hWaiting : t.waiting = v.waiting)
    (hReady : ∀ q, v.Ready q → t.Ready q) : Turnover gone s t := by
  obtain ⟨addr, m, joined, hParked, hNew, hMoved⟩ := h
  refine .mk addr m joined (fun a => ?_) hNew fun q hq hAlive => hReady q (hMoved q hq hAlive)
  rw [← hParked, parkedOn, hWaiting]
  rfl

theorem runsOn (h : Turnover gone s v) (hTail : RunsOn k v t) : Turnover gone s t :=
  h.then_same hTail.waiting fun _ hReady => hReady.runsOn hTail

/-- A queue is served at its head: who left it and has not died was woken. -/
theorem step (h : Turnover gone s t) (hs : s.Queued) (addr : U64) :
    Step gone ((s.parkedOn addr).filter fun q => q ∉ t.parkedOn addr ∧ q ∉ gone)
      (s.parkedOn addr) (t.parkedOn addr) := by
  obtain ⟨_, _, joined, hParked, hNew, _⟩ := h
  refine Step.of_drop (hs.nodup addr) (fun b hb hOld => ?_) (hParked addr)
  exact hNew addr b hb (hs.mem_blocked hOld)

theorem ready (h : Turnover gone s t) (hq : q ∈ s.parkedOn addr) (hLeft : q ∉ t.parkedOn addr)
    (hAlive : q ∉ gone) : t.Ready q := by
  obtain ⟨addr', m, joined, hParked, _, hReady⟩ := h
  rw [hParked, List.mem_append, List.mem_filter, not_or, not_and] at hLeft
  have hTaken : q ∉ (s.parkedOn addr).drop (if addr = addr' then m else 0) :=
    fun hStays => hLeft.1 hStays (decide_eq_true hAlive)
  split at hTaken
  · rename_i hEq
    rw [← List.take_append_drop m (s.parkedOn addr), List.mem_append] at hq
    rw [hEq] at hq hTaken
    exact hReady q (hq.resolve_right hTaken) hAlive
  · exact absurd hq hTaken

end Turnover

theorem Entered.turnover {w : Tracees} {b : Bool} (h : Entered k p s b v) (hs : Parked s w)
    (hNew : p ∉ s.blocked) : Turnover [] s v := by
  cases h with
  | quiet hQuiet => exact .same hQuiet.waiting
  | wait _ _ hQuiet => exact .parks hQuiet.waiting hNew
  | @wake _ regs vals _ _ hQuiet =>
    obtain ⟨m, hMoved⟩ := hs.queued.wakes regs.rdi vals
    refine .wakes hMoved.drop (fun a => ?_) fun q hq _ => ?_
    · rw [parkedOn, hQuiet.waiting]
      simp [parkedOn]
    · have hBlocked : q ∈ s.blocked := hs.queued.mem_blocked (List.mem_of_mem_take hq)
      refine Ready.quiet ⟨?_, ?_, .inl ?_⟩ hQuiet
      · rw [Supervisor.registered, hMoved.threads]
        exact registered_of_isScheduled (hs.scheduled q hBlocked)
      · rw [hMoved.blocked, Finset.mem_sdiff, List.mem_toFinset, not_and, not_not]
        exact fun _ => hq
      · rw [hMoved.runnable]
        exact List.mem_append_right _ hq

theorem SyscallHandled.turnover {w : Tracees} (h : SyscallHandled k p s t) (hs : Parked s w)
    (hNew : p ∉ s.blocked) : Turnover [] s t := by
  cases h with
  | concurrent _ hQuiet _ => exact .same hQuiet.waiting
  | @wait v _ hEntered =>
    cases hEntered with
    | wait _ _ hQuiet => exact .parks hQuiet.waiting hNew
  | entry _ _ hEntered _ =>
    exact (hEntered.turnover hs hNew).then_same rfl fun _ hReady => hReady.congr rfl rfl rfl rfl
  | stay _ _ hEntered => exact hEntered.turnover hs hNew
  | yield _ _ hQuiet hPicks => exact .same (hPicks.waiting.trans hQuiet.waiting)
  | pick _ _ hQuiet hPicks => exact .same (hPicks.waiting.trans hQuiet.waiting)

theorem onThreadExit_turnover {w : Tracees} (hs : Parked s w) (p : Pid) (record : Bool)
    (current : Option Pid) :
    Turnover [p] s { s.onThreadExit p record with current := current } := by
  obtain ⟨addr, m, v, hMoved, hQuiet⟩ := onThreadExit_spec hs.queued p record
  refine .wakes (fun a => hMoved.drop a) (fun a => ?_) fun q hq hAlive => ⟨?_, ?_, .inl ?_⟩
  · have hForget := parkedOn_forget v p a
    rw [parkedOn, ← hQuiet.waiting] at hForget
    simp only [List.mem_singleton]
    exact hForget
  · have hNe : q ≠ p := by simpa using hAlive
    have hBlocked : q ∈ s.blocked := hs.queued.mem_blocked (List.mem_of_mem_take hq)
    have hKnown : (s.threads.get q).isSome :=
      registered_of_isScheduled (hs.scheduled q hBlocked)
    change ((s.onThreadExit p record).threads.get q).isSome
    rwa [onThreadExit_frame, Map.get_erase_ne _ hNe]
  · change q ∉ (s.onThreadExit p record).blocked
    rw [hQuiet.blocked]
    change q ∉ v.blocked.erase p
    rw [hMoved.blocked]
    intro hStill
    exact (Finset.mem_sdiff.mp (Finset.mem_of_mem_erase hStill)).2 (List.mem_toFinset.mpr hq)
  · change q ∈ (s.onThreadExit p record).runnable
    rw [hQuiet.runnable]
    refine List.mem_filter.mpr ⟨?_, by simpa using hAlive⟩
    rw [hMoved.runnable]
    exact List.mem_append_right _ hq

theorem dispatch_turnover {w : Tracees} {r : Report} {status : WaitStatus} {flow : Flow}
    (hDispatch : dispatch r.answers status s = .ok flow v) (hs : Parked s w)
    (hStatus : r.status = .ok status) (hAllows : w.allows r = true)
    (hFlow : ∀ code, flow ≠ .exit code) : Turnover status.death.toList s v := by
  have still (hCall : ∀ p, status ≠ .ptraceSyscall p) (hAlive : status.death = none) :
      Turnover status.death.toList s v := by
    have hQueues := dispatch_queues (k := r.answers) hCall hAlive s
    rw [hDispatch] at hQueues
    rw [hAlive]
    exact .same hQueues.2
  cases dispatch_ok hDispatch with
  | finished => exact absurd rfl (hFlow _)
  | @died _ p _ hDeath hOther hExit =>
    rw [hDeath]
    rcases dispatchExit_ok hExit with ⟨_, _, hPicks⟩ | ⟨_, rfl⟩
    · have hVacant := onThreadExit_turnover hs p true none
      exact hVacant.then_same hPicks.waiting fun _ hReady => hReady.picks rfl hPicks
    · exact onThreadExit_turnover hs p _ (s.onThreadExit p _).current
  | @syscall p _ hHandled =>
    have hPhase := Tracees.allows_syscall hStatus hAllows
    exact hHandled.turnover hs (hs.not_blocked (by simp [Tracees.Still, hPhase]))
  | idle hIdle =>
    rcases hIdle with ⟨p, rfl⟩ | rfl
    · exact still (by simp) rfl
    · exact still (by simp) rfl
  | clone => exact still (by simp) rfl
  | dying => exact still (by simp) rfl
  | event => exact still (by simp) rfl
  | stopped => exact still (by simp) rfl

theorem pass_turnover {w : Tracees} {r : Report} {status : WaitStatus} {awaits awaits' : List Await}
    (hPass : pass r.answers awaits status s = .ok (.wait awaits') t) (hs : Parked s w)
    (hStatus : r.status = .ok status) (hAllows : w.allows r = true) :
    Turnover r.death.toList s t := by
  have hGone : r.death = status.death := by rw [Report.death, hStatus]
  rw [hGone]
  rcases pass_wait hPass with ⟨flow, v, hDispatch, hFlow, hTail⟩ |
    ⟨a, outer, v, v', rfl, rfl, hRelease, hResume, hTail⟩
  · have hTurnover := dispatch_turnover hDispatch hs hStatus hAllows hFlow
    rcases hTail with rfl | hTail
    · exact hTurnover
    · exact hTurnover.runsOn hTail
  · have hBase := congrArg Base.waiting (release_base (k := r.answers) (p := a.child)
      { s with pendingStart := s.pendingStart.erase a.child })
    have hBase' := congrArg Base.waiting (resumeTask_base (k := r.answers) (p := a.parent) v)
    rw [hRelease] at hBase
    rw [hResume] at hBase'
    have hSame : Turnover [] s v' := .same (hBase'.trans hBase)
    rcases hTail with rfl | hTail
    · exact hSame
    · exact hSame.runsOn hTail

def Label.death : Label → Option Pid
  | .report r => r.death
  | _ => none

namespace World

variable {pid : Pid} {seed : U64} {w w' : World} {l : Label}

/-- An observer of one futex queue writes down who leaves it, and whether it was woken or died. -/
def wakesOn (addr : U64) (h : List (Departure Pid)) (w : World) : Label → List (Departure Pid)
  | .report r => h ++ departures r.death.toList ((w.machine.sv.parkedOn addr).filter fun q =>
      q ∉ (w.machine.step r).sv.parkedOn addr ∧ q ∉ r.death.toList)
  | _ => h

theorem running_of_step (hStep : w.step l = some w') (hOpen : w'.machine.result = none) :
    w.machine.result = none := by
  cases l with
  | spawn p c thread vm => rwa [← spawn_machine hStep]
  | exec p => rwa [← exec_machine hStep]
  | report r => exact (observe_eq_some hStep).1

theorem running_of_run {G : Type} {note : G → World → Label → G} {first : G}
    {ok : World × G → Label → Prop} {x y : World × G} {labels : List Label}
    (h : ((system pid seed).observed note first).Run ok x labels y)
    (hOpen : y.1.machine.result = none) : x.1.machine.result = none := by
  induction h with
  | nil _ => exact hOpen
  | cons _ hStep _ ih => exact running_of_step (System.observed_step hStep).1 (ih hOpen)

theorem report_turnover {r : Report} (hReach : (system pid seed).Reach System.free w)
    (hStep : w.observe r = some w') (hOpen : w'.machine.result = none) :
    Turnover r.death.toList w.machine.sv w'.machine.sv := by
  obtain ⟨hRunning, hAllows, hMachine, _⟩ := observe_eq_some hStep
  rw [hMachine] at hOpen ⊢
  obtain ⟨status, hStatus, hPass⟩ := Machine.step_pass hRunning hOpen
  have hRead : Parked { w.machine.sv with effects := [] } w.tracees :=
    (parked hReach hRunning).congr rfl rfl rfl (.inl rfl)
  obtain ⟨addr, m, joined, hParked, hNew, hReady⟩ := pass_turnover hPass hRead hStatus hAllows
  exact ⟨addr, m, joined, hParked, hNew, hReady⟩

/-- Whoever leaves a queue alive is ready. -/
theorem ready_of_left (hReach : (system pid seed).Reach System.free w) (hStep : w.step l = some w')
    (hOpen : w'.machine.result = none) {addr : U64} (hq : q ∈ w.machine.sv.parkedOn addr)
    (hLeft : q ∉ w'.machine.sv.parkedOn addr) (hAlive : l.death ≠ some q) :
    w'.machine.sv.Ready q := by
  cases l with
  | spawn p c thread vm =>
    rw [spawn_machine hStep] at hLeft
    exact absurd hq hLeft
  | exec p =>
    rw [exec_machine hStep] at hLeft
    exact absurd hq hLeft
  | report r =>
    refine (report_turnover hReach hStep hOpen).ready hq hLeft ?_
    rw [Option.mem_toList]
    exact hAlive

theorem wakesOn_standing {addr : U64} {ahead : List Pid} {x y : World × List (Departure Pid)}
    (hReach : (system pid seed).Reach System.free x.1)
    (hStep : ((system pid seed).observed (wakesOn addr) []).step x l = some y)
    (hOpen : y.1.machine.result = none) (hAlive : l.death ≠ some p)
    (h : Standing ahead p x.2 (x.1.machine.sv.parkedOn addr)) :
    Standing ahead p y.2 (y.1.machine.sv.parkedOn addr) := by
  obtain ⟨hNext, hNote⟩ := System.observed_step hStep
  rw [hNote]
  cases l with
  | spawn p' c thread vm =>
    rw [spawn_machine hNext]
    exact h
  | exec p' =>
    rw [exec_machine hNext]
    exact h
  | report r =>
    have hTurnover := report_turnover hReach hNext hOpen
    obtain ⟨hRunning, _, hMachine, _⟩ := observe_eq_some hNext
    rw [hMachine] at hTurnover ⊢
    refine h.step ?_ fun _ => hTurnover.step (parked hReach hRunning).queued addr
    rw [Option.mem_toList]
    exact hAlive

/-- In every reachable world and for every word: a wake moves the head of its queue; whoever leaves
the queue alive, at whatever status, is ready; and whatever happens later, a thread that stands in
the queue and stays alive leaves it after no more others than stood ahead of it, and after all of
them that did not die. -/
theorem wakes_in_turn (hReach : (system pid seed).Reach System.free w)
    (hOpen : w.machine.result = none) (addr : U64) :
    (∀ val : U64, WakesHead w.machine.sv addr val.toInt.toNat (w.machine.sv.wake addr val).1
      (w.machine.sv.wake addr val).2) ∧
    (∀ l w', w.step l = some w' → w'.machine.result = none →
      ∀ q ∈ w.machine.sv.parkedOn addr, q ∉ w'.machine.sv.parkedOn addr → l.death ≠ some q →
        w'.machine.sv.Ready q) ∧
    ∀ ahead p behind, w.machine.sv.parkedOn addr = ahead ++ p :: behind → ∀ labels x,
      ((system pid seed).observed (wakesOn addr) []).Run (fun _ l => l.death ≠ some p) (w, [])
        labels x → x.1.machine.result = none → Fair ahead p x.2 := by
  have hQueued := (parked hReach hOpen).queued
  refine ⟨fun val => hQueued.wakesHead addr val, fun l w' hStep hStill q hq hLeft hAlive =>
    ready_of_left hReach hStep hStill hq hLeft hAlive, ?_⟩
  intro ahead p behind hParked labels x hRun hStill
  have hAhead : p ∉ ahead := by
    have hNodup := hQueued.nodup addr
    rw [hParked] at hNodup
    exact fun hp => List.disjoint_of_nodup_append hNodup hp List.mem_cons_self
  suffices hStanding : (system pid seed).Reach System.free x.1 ∧
      (x.1.machine.result = none → Standing ahead p x.2 (x.1.machine.sv.parkedOn addr)) from
    (hStanding.2 hStill).fair
  refine hRun.invariant (I := fun x => (system pid seed).Reach System.free x.1 ∧
    (x.1.machine.result = none → Standing ahead p x.2 (x.1.machine.sv.parkedOn addr))) ?_ ?_
  · refine ⟨hReach, fun _ => ?_⟩
    change Standing ahead p [] (w.machine.sv.parkedOn addr)
    rw [hParked]
    exact .start ahead behind p hAhead
  · rintro x l y ⟨hBefore, hStands⟩ hAlive hStep
    have hNext := (System.observed_step hStep).1
    refine ⟨hBefore.step l trivial hNext, fun hGoesOn => ?_⟩
    exact wakesOn_standing hBefore hStep hGoesOn hAlive
      (hStands (running_of_step hNext hGoesOn))

def threeThreads : List Label :=
  twoThreads ++ [.report (.enters 2 { origRax := 56, rdi := threadFlags }),
    .spawn 2 3 true true, .report (.created 2 .clone 3), .report (.plain (.stopped 3 .SIGSTOP)),
    .report (.leaves 2), .report (.leaves 1)]

/-- Thread 3 and then thread 2 wait on the word at 4096. -/
def bothParked : List Label :=
  threeThreads ++ [calls 3 { origRax := 202, rdi := 4096 }, calls 2 { origRax := 202, rdi := 4096 }]

def wakeBoth : Label := calls 1 { origRax := 202, rdi := 4096, rsi := 1, rdx := 2 }

theorem wake_both_run : ∃ (w : World) (x : World × List (Departure Pid)),
    (system 1 0).Reach System.free w ∧ w.machine.sv.parkedOn 4096 = [3, 2] ∧
      ((system 1 0).observed (wakesOn 4096) []).exec System.free (w, []) [wakeBoth] = some x ∧
      x.1.machine.result = none ∧ x.1.machine.sv.parkedOn 4096 = [] ∧
      x.2 = [.served 3, .served 2] := by
  have hRun : ((system 1 0).exec System.free (start 1 0 {}) bothParked).bind (fun w =>
      (((system 1 0).observed (wakesOn 4096) []).exec System.free (w, []) [wakeBoth]).map fun x =>
        (w.machine.sv.parkedOn 4096, x.1.machine.result.isNone, x.1.machine.sv.parkedOn 4096,
          x.2)) =
      some ([3, 2], true, [], [.served 3, .served 2]) := by decide +kernel
  obtain ⟨w, hExec, hw⟩ := Option.bind_eq_some_iff.mp hRun
  obtain ⟨x, hWake, hx⟩ := Option.map_eq_some_iff.mp hw
  simp only [Prod.mk.injEq, Option.isNone_iff_eq_none] at hx
  obtain ⟨hParked, hLater⟩ := hx
  exact ⟨w, x, System.reach_of_exec ⟨{}, rfl⟩ hExec, hParked, hWake, hLater⟩

theorem wakes_in_turn_both : ∃ (w : World) (x : World × List (Departure Pid)),
    (system 1 0).Reach System.free w ∧ w.machine.sv.parkedOn 4096 = [3, 2] ∧
      WakesHead w.machine.sv 4096 2 (w.machine.sv.wake 4096 2).1 (w.machine.sv.wake 4096 2).2 ∧
      x.2 = [.served 3, .served 2] ∧ x.1.machine.sv.Ready 2 ∧ Fair [3] 2 x.2 := by
  obtain ⟨w, x, hReach, hParked, hWake, hStill, hEmpty, hHistory⟩ := wake_both_run
  have hSteps : ((system 1 0).observed (wakesOn 4096) []).Run (fun _ l => l.death ≠ some 2)
      (w, []) [wakeBoth] x :=
    (System.run_of_exec_mem (P := fun l => l.death ≠ some 2) hWake (by decide +kernel)).mono
      fun _ _ => And.right
  have hStep : w.step wakeBoth = some x.1 := by
    cases hSteps with
    | cons _ hNext hRest =>
      cases hRest
      exact (System.observed_step hNext).1
  obtain ⟨hWakes, hReady, hFair⟩ := wakes_in_turn hReach (running_of_run hSteps hStill) 4096
  refine ⟨w, x, hReach, hParked, hWakes 2, hHistory, ?_,
    hFair [3] 2 [] hParked [wakeBoth] x hSteps hStill⟩
  refine hReady wakeBoth x.1 hStep hStill 2 ?_ ?_ (by decide +kernel)
  · rw [hParked]
    decide
  · rw [hEmpty]
    decide

end World

end Dtrun
