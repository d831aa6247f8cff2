import Dtrun.Supervisor.Base

/-! # The core, and the table of tasks

The core of the bookkeeping changes in system calls, and at a death by the entry of the task that
died. The table of tasks grows by a clone event and shrinks by a death.
-/
namespace Dtrun
set_option autoImplicit false
open FiniteMap StateExcept Supervisor

variable {k : Answers} {p : Pid}

theorem keeps_core {α : Type} {x : SupM α} (h : Keeps Supervisor.base x) :
    Keeps Supervisor.core x := fun s => congrArg Base.core (h s)

theorem core_wake (s : Supervisor) (addr val : U64) : (s.wake addr val).2.core = s.core := by
  rw [wake_frame]
  rfl

theorem core_onThreadExit (s : Supervisor) (p : Pid) (record : Bool) :
    (s.onThreadExit p record).core =
      { s.core with pending := if s.registered p then s.pending.erase p else s.pending } := by
  cases hLookup : s.threads.get p with
  | none =>
    have hNot : s.registered p = false := by simp [registered, hLookup]
    simp only [onThreadExit, hLookup, hNot]
    rfl
  | some thread =>
    have hKnown : s.registered p = true := by simp [registered, hLookup]
    simp only [onThreadExit, hLookup, hKnown, if_true]
    rw [clearTidWake_frame]
    cases record with
    | true => rfl
    | false => rfl

theorem dispatch_core {status : WaitStatus} (hStatus : ∀ p, status ≠ .ptraceSyscall p)
    (s : Supervisor) :
    ((∀ p, status.death = some p → p = s.pid) ∧ (final (dispatch k status s)).core = s.core) ∨
      ∃ p, status.death = some p ∧ p ≠ s.pid ∧ (final (dispatch k status s)).core =
        { s.core with pending := if s.registered p then s.pending.erase p else s.pending } := by
  have hBase := congrArg Base.core (dispatch_base (k := k) status s)
  have death {q : Pid} (hDeath : status.death = some q)
      (hCore : (final (dispatch k status s)).core = (if q = s.pid then s.base
        else (s.onThreadExit q (s.current = some q)).base).core) :
      ((∀ p, status.death = some p → p = s.pid) ∧ (final (dispatch k status s)).core = s.core) ∨
        ∃ p, status.death = some p ∧ p ≠ s.pid ∧ (final (dispatch k status s)).core =
          { s.core with pending := if s.registered p then s.pending.erase p else s.pending } := by
    rw [hCore]
    split
    · rename_i hInit
      exact .inl ⟨fun p hp => (Option.some.inj (hp.symm.trans hDeath)).trans hInit, rfl⟩
    · rename_i hOther
      exact .inr ⟨q, hDeath, hOther, core_onThreadExit s q _⟩
  cases status with
  | ptraceSyscall p => exact absurd rfl (hStatus p)
  | ptraceEvent p sig event =>
    refine .inl ⟨fun q hq => (by cases hq), hBase.trans ?_⟩
    dsimp only
    split
    · rw [dispatchClone_base]
      cases k.getevent p with
      | ok child => rfl
      | error e => rfl
    · rfl
  | stopped p sig => exact .inl ⟨fun q hq => (by cases hq), hBase⟩
  | exited p code => exact death rfl hBase
  | signaled p sig core => exact death rfl hBase
  | continued p => exact .inl ⟨fun q hq => (by cases hq), hBase⟩
  | stillAlive => exact .inl ⟨fun q hq => (by cases hq), hBase⟩

theorem pass_core (awaits : List Await) (status : WaitStatus) (s : Supervisor) :
    (final (pass k awaits status s)).core = (final (dispatch k status s)).core :=
  congrArg Base.core (pass_base awaits status s)

variable {s t : Supervisor} {q : Pid}

theorem Picks.threads (h : Picks k s t) : t.threads = s.threads := by
  cases h with
  | idle => rfl
  | run =>
    rw [scheduled_frame]
    rfl

theorem RunsOn.threads (h : RunsOn k s t) : t.threads = s.threads := by
  rcases h with ⟨_, hPicks⟩ | ⟨_, rfl⟩
  · exact hPicks.threads
  · rfl

theorem resumeTask_threads {u : Unit} (h : resumeTask k p s = .ok u t) : t.threads = s.threads := by
  rcases resumeTask_ok h with ⟨_, rfl, _⟩ | ⟨_, _, rfl⟩
  · rfl
  · rfl

theorem resumeTask_current {u : Unit} (h : resumeTask k p s = .ok u t) : t.current = s.current := by
  rcases resumeTask_ok h with ⟨_, rfl, _⟩ | ⟨_, _, rfl⟩
  · rfl
  · rfl

theorem wakes_threads (s : Supervisor) (addr : U64) (vals : List U64) :
    (s.wakes addr vals).threads = s.threads := by
  induction vals generalizing s with
  | nil => rfl
  | cons val rest ih =>
    refine (ih (s.wake addr val).2).trans ?_
    rw [wake_frame]

theorem Entered.threads {b : Bool} (h : Entered k p s b t) : t.threads = s.threads := by
  cases h with
  | quiet hQuiet => exact hQuiet.threads
  | wake vals _ _ hQuiet => exact hQuiet.threads.trans (wakes_threads _ _ _)
  | wait _ _ hQuiet => exact hQuiet.threads

theorem SyscallHandled.threads (h : SyscallHandled k p s t) : t.threads = s.threads := by
  cases h with
  | concurrent _ hQuiet _ => exact hQuiet.threads
  | wait _ hEntered => exact hEntered.threads
  | entry _ _ hEntered _ => exact hEntered.threads
  | stay _ _ hEntered => exact hEntered.threads
  | yield _ _ hQuiet hPicks => exact hPicks.threads.trans hQuiet.threads
  | pick _ _ hQuiet hPicks => exact hPicks.threads.trans hQuiet.threads

theorem StopHandled.threads {sig : Signal} (h : StopHandled k p sig s t) :
    t.threads = s.threads := by
  cases h with
  | current => rfl
  | attached _ _ _ hRelease => exact (release_frame hRelease).1
  | early => rfl
  | again => rfl
  | signal => rfl
  | noted _ _ _ hQuiet => exact hQuiet.threads

theorem Registered.lookup {info : CloneInfo} (h : Registered k p info s t) (q : Pid) :
    t.threads.get q = s.threads.get q ∨ (q = p ∧ s.registered p = false) := by
  have entered {thread : Thread} {v : Supervisor} (hFresh : s.registered p = false)
      (hThreads : v.threads = s.threads.insert p thread) :
      v.threads.get q = s.threads.get q ∨ (q = p ∧ s.registered p = false) := by
    rw [hThreads, Map.get_insert]
    split
    · rename_i hEq
      exact .inr ⟨hEq, hFresh⟩
    · exact .inl rfl
  cases h with
  | again => exact .inl rfl
  | released hFresh _ hRelease hQuiet =>
    exact entered hFresh (hQuiet.threads.trans (release_frame hRelease).1)
  | expected hFresh _ hQuiet => exact entered hFresh hQuiet.threads

/-- The entry of a task changes only when its creation or its death is reported. -/
theorem Dispatched.lookup {status : WaitStatus} {flow : Flow} (h : Dispatched k s status flow t)
    (q : Pid) :
    t.threads.get q = s.threads.get q ∨ status.death = some q ∨
      (s.registered q = false ∧ ∃ p sig event, status = .ptraceEvent p sig event ∧
        event.creates = true ∧ k.getevent p = .ok q) := by
  have same (hThreads : t.threads = s.threads) : t.threads.get q = s.threads.get q := by
    rw [hThreads]
  cases h with
  | syscall hHandled => exact .inl (same hHandled.threads)
  | @clone p child sig event v _ flow hEvent hChild hRegister hFlow =>
    have hThreads : t.threads = v.threads := by
      rcases hFlow with ⟨_, _, rfl⟩ | ⟨_, _, hResume⟩
      · rfl
      · exact resumeTask_threads hResume
    rw [hThreads]
    rcases hRegister.lookup q with hSame | ⟨rfl, hFresh⟩
    · exact .inl hSame
    · exact .inr (.inr ⟨hFresh, p, sig, event, rfl, hEvent, hChild⟩)
  | dying => exact .inl rfl
  | event _ _ hResume => exact .inl (same (resumeTask_threads hResume))
  | stopped hStop => exact .inl (same hStop.threads)
  | finished _ hQuiet => exact .inl (same hQuiet.threads)
  | @died status p _ hDeath _ hExit =>
    by_cases hEq : q = p
    · exact .inr (.inl (hEq ▸ hDeath))
    · have hErased {record : Bool} (hThreads : t.threads = (s.onThreadExit p record).threads) :
          t.threads.get q = s.threads.get q := by
        rw [hThreads, onThreadExit_frame, Map.get_erase, if_neg hEq]
      rcases dispatchExit_ok hExit with ⟨_, _, hPicks⟩ | ⟨_, rfl⟩
      · exact .inl (hErased hPicks.threads)
      · exact .inl (hErased rfl)
  | idle => exact .inl rfl

theorem Passed.lookup {awaits awaits' : List Await} {status : WaitStatus}
    (h : Passed k s awaits status (.wait awaits') t) (q : Pid) :
    t.threads.get q = s.threads.get q ∨ status.death = some q ∨
      (s.registered q = false ∧ ∃ p sig event, status = .ptraceEvent p sig event ∧
        event.creates = true ∧ k.getevent p = .ok q) := by
  cases h with
  | next hDispatched hTail =>
    rw [hTail.threads]
    exact hDispatched.lookup q
  | again _ hDispatched => exact hDispatched.lookup q
  | await hDispatched => exact hDispatched.lookup q
  | attached hRelease hResume hTail =>
    have hThreads := (resumeTask_threads hResume).trans (release_frame hRelease).1
    rcases hTail with ⟨_, hTail⟩ | ⟨_, rfl⟩
    · exact .inl (congrArg (Map.get · q) (hTail.threads.trans hThreads))
    · exact .inl (congrArg (Map.get · q) hThreads)

theorem Dispatched.registered_mono {status : WaitStatus} {flow : Flow}
    (h : Dispatched k s status flow t) (hq : s.registered q = true)
    (hDeath : status.death ≠ some q) : t.registered q = true := by
  rcases h.lookup q with hSame | hDied | ⟨hFresh, _⟩
  · rwa [registered, hSame]
  · exact absurd hDied hDeath
  · rw [hFresh] at hq
    cases hq

theorem Passed.registered_mono {awaits awaits' : List Await} {status : WaitStatus}
    (h : Passed k s awaits status (.wait awaits') t) (hq : s.registered q = true)
    (hDeath : status.death ≠ some q) : t.registered q = true := by
  rcases h.lookup q with hSame | hDied | ⟨hFresh, _⟩
  · rwa [registered, hSame]
  · exact absurd hDied hDeath
  · rw [hFresh] at hq
    cases hq

end Dtrun
