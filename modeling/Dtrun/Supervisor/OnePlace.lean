import Dtrun.Supervisor.Deadlock
import Dtrun.Supervisor.Places

/-! # One place for each scheduled thread

`current`, `runnable`, the futex queues and `pending_start` divide the scheduled threads among
them, and nobody else is in any of them. So only one scheduled thread runs at a time, and
`Deadlock` is returned only when every task that is left is parked.
-/
namespace Dtrun
set_option autoImplicit false
open FiniteMap Transition Supervisor

variable {k : Answers} {p : Pid} {s v : Supervisor} {t : Tracees} {awaits : List Await}

inductive Place where
  | current | runnable | parked | starting
  deriving DecidableEq

namespace Supervisor

/-- Some collection of that place names the task. -/
def Names (s : Supervisor) (p : Pid) : Place → Prop
  | .current => s.current = some p
  | .runnable => p ∈ s.runnable
  | .parked => p ∈ s.blocked ∨ ∃ a, p ∈ s.parkedOn a
  | .starting => p ∈ s.pendingStart

/-- The task is at that place as it should be: once in `runnable`; or in `blocked` and once in
exactly one queue. -/
def At (s : Supervisor) (p : Pid) : Place → Prop
  | .current => s.current = some p
  | .runnable => s.runnable.count p = 1
  | .parked => p ∈ s.blocked ∧
      ∃ a, (s.parkedOn a).count p = 1 ∧ ∀ b, p ∈ s.parkedOn b → b = a
  | .starting => p ∈ s.pendingStart

/-- The task is at one place and no other place names it. -/
def AtOnePlace (s : Supervisor) (p : Pid) : Prop :=
  ∃ place, s.At p place ∧ ∀ place', s.Names p place' → place' = place

end Supervisor

namespace Placed

theorem at_parked (h : Placed s awaits t) (hp : p ∈ s.blocked) : s.At p .parked := by
  obtain ⟨a, ha⟩ := (h.parked.queued.blocked p).mp hp
  refine ⟨hp, a, ?_, fun b hb => h.parked.queued.apart b a p hb ha⟩
  exact List.count_eq_one_of_mem (h.parked.queued.nodup a) ha

/-- A scheduled thread is at exactly one of the four places. -/
theorem atOnePlace (h : Placed s awaits t) (hp : s.isScheduled p = true) : s.AtOnePlace p := by
  have parked {q : Pid} : (q ∈ s.blocked ∨ ∃ a, q ∈ s.parkedOn a) ↔ q ∈ s.blocked :=
    ⟨fun hq => hq.elim id fun ⟨_, ha⟩ => h.parked.queued.mem_blocked ha, .inl⟩
  have current (hCurrent : s.current = some p) : p ∉ s.pendingStart := by
    rcases h.current p hCurrent with ⟨_, hStart⟩ | ⟨hNot, _⟩
    · exact hStart
    · exact absurd hp (not_isScheduled hNot)
  rcases h.placed p hp with hCurrent | hQueue | hBlocked | hStart
  · refine ⟨.current, hCurrent, fun place hNames => ?_⟩
    cases place with
    | current => rfl
    | runnable => exact absurd hCurrent (h.runnable p hNames).2.1
    | parked => exact absurd hCurrent (h.parked.current p (parked.mp hNames))
    | starting => exact absurd hNames (current hCurrent)
  · obtain ⟨_, hCurrent, hBlocked, hStart, _⟩ := h.runnable p hQueue
    refine ⟨.runnable, List.count_eq_one_of_mem h.nodup hQueue, fun place hNames => ?_⟩
    cases place with
    | current => exact absurd hNames hCurrent
    | runnable => rfl
    | parked => exact absurd (parked.mp hNames) hBlocked
    | starting => exact absurd hNames hStart
  · refine ⟨.parked, h.at_parked hBlocked, fun place hNames => ?_⟩
    cases place with
    | current => exact absurd hNames (h.parked.current p hBlocked)
    | runnable => exact absurd hBlocked (h.runnable p hNames).2.2.1
    | parked => rfl
    | starting => exact absurd hBlocked (h.starting p hNames).2.1
  · refine ⟨.starting, hStart, fun place hNames => ?_⟩
    cases place with
    | current => exact absurd hStart (current hNames)
    | runnable => exact absurd hStart (h.runnable p hNames).2.2.2.1
    | parked => exact absurd (parked.mp hNames) (h.starting p hStart).2.1
    | starting => rfl

theorem nowhere (h : Placed s awaits t) (hp : s.registered p = false) :
    p ∉ s.runnable ∧ p ∉ s.blocked ∧ ∀ a, p ∉ s.parkedOn a := by
  obtain ⟨hQueue, hBlocked, _⟩ := h.unknown hp
  exact ⟨hQueue, hBlocked, fun a ha => hBlocked (h.parked.queued.mem_blocked ha)⟩

theorem searched {r : Report} {status : WaitStatus} (h : Placed s awaits t)
    (hEffects : s.effects = []) (hStatus : r.status = .ok status) (hAllows : t.allows r = true)
    (hSearches : Searches s status v) :
    Placed v awaits ((t.observe r).after v) ∧ v.current = none := by
  cases hSearches with
  | @yield p v hScheduled hCurrent hLeft =>
    have hPhase := Tracees.allows_syscall hStatus hAllows
    have hObserved := h.observe hStatus rfl (by simp) hAllows
    refine ⟨?_, rfl⟩
    change Placed _ awaits ((t.observe r).after v)
    rw [Tracees.after_of_quiet hLeft, Tracees.after_nil hEffects]
    refine (hObserved.quiet hLeft).yield hCurrent ((hLeft.isScheduled p).trans hScheduled) ?_
    rw [Tracees.Still, Tracees.phase_observe_syscall hStatus, Tracees.phase_setPhase, if_pos rfl,
      hPhase]
    exact .inl rfl
  | @pick p v hScheduled hCurrent hLeft =>
    obtain ⟨_, hNow⟩ := h.ran (Tracees.allows_syscall hStatus hAllows)
    exact absurd (hLeft.current.trans (hNow hScheduled)) hCurrent
  | @died _ p hDeath hCurrent =>
    refine ⟨h.vacated hEffects ?_ (fun q hq => ?_) (fun q c hq => Tracees.cloned_observe hq)
      hCurrent, rfl⟩
    · rw [Tracees.phase_observe_death hStatus hDeath, if_pos rfl]
    · rw [Tracees.phase_observe_death hStatus hDeath, if_neg hq]

theorem deadlock (h : Placed v awaits t) (hFree : v.current = none)
    (hNext : scheduleNext k v = .error .deadlock s) (hp : s.registered p = true) :
    s.isScheduled p = true ∧ s.At p .parked := by
  obtain ⟨hSkips, hStart, hConcurrent, rfl⟩ := scheduleNext_deadlock hNext
  have hQueue : v.runnable = [] :=
    List.eq_nil_iff_forall_not_mem.mpr fun q hq => h.not_skips q hq (hSkips q hq)
  have hScheduled : v.isScheduled p = true := by
    cases hLookup : v.threads.get p with
    | none => simp [Supervisor.registered, hLookup] at hp
    | some thread =>
      have hNot := List.any_eq_false.mp hConcurrent ⟨p, thread⟩ (Map.get_eq_some_iff.mp hLookup)
      simpa [isScheduled, hLookup] using hNot
  refine ⟨hScheduled, ?_⟩
  rcases h.placed p hScheduled with hNow | hNow | hNow | hNow
  · rw [hFree] at hNow
    cases hNow
  · rw [hQueue] at hNow
    cases hNow
  · exact h.at_parked hNow
  · rw [hStart] at hNow
    cases hNow

end Placed

namespace World

/-- `Deadlock` is returned only when every task left is a parked scheduled thread. -/
theorem deadlock_parked {pid : Pid} {seed : U64} {w : World}
    (h : (system pid seed).Reach Unheld w) :
    w.machine.result = some (.error .deadlock) → ∀ p, w.machine.sv.registered p = true →
      w.machine.sv.isScheduled p = true ∧ w.machine.sv.At p .parked := by
  refine System.Reach.invariant (I := fun w => w.machine.result = some (.error .deadlock) →
    ∀ p, w.machine.sv.registered p = true →
      w.machine.sv.isScheduled p = true ∧ w.machine.sv.At p .parked) ?_ ?_ h
  · rintro _ ⟨k, rfl⟩ hResult p hp
    exact (Placed.fresh pid seed).deadlock rfl (Machine.start_deadlock hResult) hp
  · intro w l w' hReach hParked hOk hStep hResult
    cases l with
    | spawn p c thread vm =>
      have hMachine := spawn_machine hStep
      rw [hMachine] at hResult ⊢
      exact hParked hResult
    | exec p =>
      have hMachine := exec_machine hStep
      rw [hMachine] at hResult ⊢
      exact hParked hResult
    | report r =>
      obtain ⟨hRunning, hAllows, hMachine, _⟩ := observe_eq_some hStep
      rw [hMachine] at hResult ⊢
      intro p hp
      obtain ⟨status, hStatus, hPass⟩ := Machine.step_deadlock hRunning hResult
      have hRead : Placed { w.machine.sv with effects := [] } w.machine.awaits w.tracees :=
        (placed hReach hRunning).congr rfl rfl rfl rfl rfl rfl rfl
      obtain ⟨v, hNext, hHow⟩ := pass_deadlock hPass
      rcases hHow with ⟨hSearches, _⟩ | ⟨hAwaits, hDispatched, hFree⟩ |
        ⟨a, v₀, hAwaits, rfl, hRelease, hResume, hFree⟩
      · obtain ⟨hv, hFree⟩ := hRead.searched rfl hStatus hAllows hSearches
        exact hv.deadlock hFree hNext hp
      · have hv := hRead.dispatched (announced hReach) rfl hStatus hAllows
          (dispatch_ok hDispatched) (by simp)
        exact hv.deadlock hFree hNext hp
      · rw [hAwaits] at hRead
        exact (hRead.returned rfl hStatus hAllows hRelease hResume).deadlock hFree hNext hp

/-- Every scheduled thread is at one place, no other task is in the queues, no futex queue is empty,
one scheduled thread at most is released, and a deadlock leaves parked threads only. -/
theorem one_place_each {pid : Pid} {seed : U64} {w : World}
    (h : (system pid seed).Reach Unheld w) :
    (w.machine.result = none →
      (∀ p, w.machine.sv.isScheduled p = true → w.machine.sv.AtOnePlace p) ∧
      (∀ p, w.machine.sv.registered p = false → p ∉ w.machine.sv.runnable ∧
        p ∉ w.machine.sv.blocked ∧ ∀ a, p ∉ w.machine.sv.parkedOn a) ∧
      (∀ a, w.machine.sv.waiting.get a ≠ some []) ∧
      ∀ p q, w.machine.sv.isScheduled p = true → w.machine.sv.isScheduled q = true →
        w.tracees.phase p = some .released → w.tracees.phase q = some .released → p = q) ∧
    (w.machine.result = some (.error .deadlock) → ∀ p, w.machine.sv.registered p = true →
      w.machine.sv.isScheduled p = true ∧ w.machine.sv.At p .parked) := by
  refine ⟨fun hOpen => ?_, deadlock_parked h⟩
  have hPlaced := placed h hOpen
  refine ⟨fun p => hPlaced.atOnePlace, fun p => hPlaced.nowhere, hPlaced.parked.queued.nonempty,
    fun p q hp hq hRunP hRunQ => ?_⟩
  have hCurrent := hPlaced.single p hp hRunP
  rw [hPlaced.single q hq hRunQ] at hCurrent
  exact (Option.some.inj hCurrent).symm

/-- The init and a thread of it, which has just been made current. -/
def twoThreads : List Label :=
  [.report (.enters 1 { origRax := 56, rdi := threadFlags }), .spawn 1 2 true true,
   .report (.created 1 .clone 2), .report (.plain (.stopped 2 .SIGSTOP)), .report (.leaves 1)]

theorem one_place_each_two_threads : ∃ w,
    (system 1 0).exec Unheld (start 1 0 {}) twoThreads = some w ∧
      w.machine.sv.AtOnePlace 1 ∧ w.machine.sv.AtOnePlace 2 := by
  have hRun : ((system 1 0).exec Unheld (start 1 0 {}) twoThreads).map (fun w =>
      (w.machine.result.isNone, w.machine.sv.isScheduled 1, w.machine.sv.isScheduled 2)) =
      some (true, true, true) := by decide +kernel
  obtain ⟨w, hExec, hw⟩ := Option.map_eq_some_iff.mp hRun
  simp only [Prod.mk.injEq, Option.isNone_iff_eq_none] at hw
  have hReach : (system 1 0).Reach Unheld w := System.reach_of_exec ⟨{}, rfl⟩ hExec
  obtain ⟨hPlaces, _⟩ := (one_place_each hReach).1 hw.1
  exact ⟨w, hExec, hPlaces 1 hw.2.1, hPlaces 2 hw.2.2⟩

/-- An `exit_group` leaves `current` naming its thread for good. When the kernel gives that pid to a
thread of a forked process, the new thread is in two places before it has run. -/
def reusedPid : List Label :=
  [.spawn 1 2 false false, .report (.created 1 .fork 2), .report (.plain (.stopped 2 .SIGSTOP)),
   .report (.enters 1 { origRax := 56, rdi := threadFlags }), .spawn 1 3 true true,
   .report (.created 1 .clone 3), .report (.plain (.stopped 3 .SIGSTOP)), .report (.leaves 1),
   .report (.enters 3 { origRax := 231 }), .report (.plain (.exited 3 0)),
   .report (.enters 2 { origRax := 56, rdi := threadFlags }), .spawn 2 3 true true,
   .report (.created 2 .clone 3)]

theorem not_one_place_each : ¬ ∀ (pid : Pid) (seed : U64) (w : World),
    (system pid seed).Reach System.free w → w.machine.result = none →
      ∀ p, w.machine.sv.isScheduled p = true → w.machine.sv.AtOnePlace p := by
  intro hAll
  have hRun : ((system 1 0).exec System.free (start 1 0 {}) reusedPid).map (fun w =>
      (w.machine.result.isNone, w.machine.sv.isScheduled 3, w.machine.sv.current,
        decide ((3 : Pid) ∈ w.machine.sv.pendingStart))) =
      some (true, true, some 3, true) := by decide +kernel
  obtain ⟨w, hExec, hw⟩ := Option.map_eq_some_iff.mp hRun
  simp only [Prod.mk.injEq, Option.isNone_iff_eq_none, decide_eq_true_eq] at hw
  obtain ⟨hOpen, hScheduled, hCurrent, hStart⟩ := hw
  obtain ⟨place, _, hOnly⟩ :=
    hAll 1 0 w (System.reach_of_exec ⟨{}, rfl⟩ hExec) hOpen 3 hScheduled
  have hPlace := hOnly .current hCurrent
  rw [← hOnly .starting hStart] at hPlace
  cases hPlace

end World

end Dtrun
