import Dtrun.Supervisor.Parking

/-! # Every scheduled thread has one place

Between two statuses a scheduled thread is current, or waits once in `runnable`, or is parked in one
futex queue, or has still to report its attach stop; and only the current one has been released.
The bookkeeping is keyed by pid, and a pid outlives its task in three places: `current` after an
`exit_group`, the children and parents of open `await_attach` calls, and the clone event of a parent
whose child died first. The invariant is therefore kept as long as the kernel gives no new task a
pid that one of these still names.
-/
namespace Dtrun
set_option autoImplicit false
open FiniteMap Transition Supervisor

variable {k : Answers} {s s' : Supervisor} {t t' : Tracees} {p : Pid} {awaits : List Await}

structure Placed (s : Supervisor) (awaits : List Await) (t : Tracees) : Prop where
  parked : Parked s t
  nodup : s.runnable.Nodup
  runnable : ∀ q ∈ s.runnable, s.isScheduled q = true ∧ s.current ≠ some q ∧ q ∉ s.blocked ∧
    q ∉ s.pendingStart ∧ t.Still q
  current : ∀ q, s.current = some q → (s.isScheduled q = true ∧ q ∉ s.pendingStart) ∨
    (s.registered q = false ∧ t.phase q = none)
  starting : ∀ q ∈ s.pendingStart, s.registered q = true ∧ q ∉ s.blocked ∧
    t.phase q ≠ some .held ∧ t.phase q ≠ some .released
  placed : ∀ q, s.isScheduled q = true →
    s.current = some q ∨ q ∈ s.runnable ∨ q ∈ s.blocked ∨ q ∈ s.pendingStart
  single : ∀ q, s.isScheduled q = true → t.phase q = some .released → s.current = some q
  newborn : ∀ q, s.registered q = true → t.phase q = some .newborn → q ∈ s.pendingStart
  unregistered : ∀ q, s.registered q = false →
    t.phase q ≠ some .released ∧ (t.phase q = some .held → q ∈ s.stoppedPending)
  early : ∀ q ∈ s.stoppedPending, s.registered q = false ∧ t.Still q
  /-- A registered task that is gone is one whose attach stop is awaited in vain. -/
  absent : ∀ q, s.registered q = true → t.phase q = none → ∃ w ∈ awaits, w.child = q
  awaited : ∀ w ∈ awaits, (s.registered w.child = true ∨ t.phase w.child = none) ∧
    (s.registered w.parent = true ∨ t.phase w.parent = none)
  /-- A child that is still to be reported is not known yet. -/
  expected : ∀ q c, t.cloned q = some c → s.registered c = false ∧ s.current ≠ some c

/-- No two tasks have the same child to report. -/
def Tracees.Announced (t : Tracees) : Prop :=
  ∀ q q' c, t.cloned q = some c → t.cloned q' = some c → q = q'

theorem registered_of_isScheduled (h : s.isScheduled p = true) : s.registered p = true := by
  cases hLookup : s.threads.get p with
  | none => simp [isScheduled, hLookup] at h
  | some thread => simp [registered, hLookup]

theorem not_isScheduled (h : s.registered p = false) : ¬ s.isScheduled p = true := by
  intro hScheduled
  rw [registered_of_isScheduled hScheduled] at h
  cases h

theorem mem_joining {b : Bool} {q : Pid} :
    q ∈ (if b = true then [p] else []) ↔ q = p ∧ b = true := by
  cases b with
  | true => simp
  | false => simp

theorem nodup_joining {b : Bool} {queue : List Pid} (hNodup : queue.Nodup) (hNew : p ∉ queue) :
    (queue ++ if b = true then [p] else []).Nodup := by
  cases b with
  | true => exact List.Nodup.append hNodup (List.nodup_singleton p) (by simpa using hNew)
  | false => simpa using hNodup

theorem Tracees.Still.ne_none (h : t.Still p) : t.phase p ≠ none := by
  rcases h with h | h | h
  · simp [h]
  · simp [h]
  · simp [h]

theorem Tracees.Still.ne_newborn (h : t.Still p) : t.phase p ≠ some .newborn := by
  rcases h with h | h | h
  · simp [h]
  · simp [h]
  · simp [h]

theorem Tracees.Still.ne_released (h : t.Still p) : t.phase p ≠ some .released := by
  rcases h with h | h | h
  · simp [h]
  · simp [h]
  · simp [h]

namespace Placed

theorem congr (h : Placed s awaits t) (hThreads : s'.threads = s.threads)
    (hRunnable : s'.runnable = s.runnable) (hStart : s'.pendingStart = s.pendingStart)
    (hStopped : s'.stoppedPending = s.stoppedPending) (hBlocked : s'.blocked = s.blocked)
    (hWaiting : s'.waiting = s.waiting) (hCurrent : s'.current = s.current) :
    Placed s' awaits t := by
  have hIs (q : Pid) : s'.isScheduled q = s.isScheduled q := by
    simp only [isScheduled, hThreads]
  have hReg (q : Pid) : s'.registered q = s.registered q := by
    simp only [registered, hThreads]
  refine ⟨h.parked.congr hBlocked hWaiting hThreads (.inl hCurrent), ?_, ?_, ?_, ?_, ?_, ?_, ?_, ?_,
    ?_, ?_, ?_, ?_⟩
  · rw [hRunnable]
    exact h.nodup
  · simp only [hRunnable, hIs, hCurrent, hBlocked, hStart]
    exact h.runnable
  · simp only [hCurrent, hIs, hReg, hStart]
    exact h.current
  · simp only [hStart, hReg, hBlocked]
    exact h.starting
  · simp only [hIs, hCurrent, hRunnable, hBlocked, hStart]
    exact h.placed
  · simp only [hIs, hCurrent]
    exact h.single
  · simp only [hReg, hStart]
    exact h.newborn
  · simp only [hReg, hStopped]
    exact h.unregistered
  · simp only [hStopped, hReg]
    exact h.early
  · simp only [hReg]
    exact h.absent
  · simp only [hReg]
    exact h.awaited
  · simp only [hReg, hCurrent]
    exact h.expected

theorem quiet (h : Placed s awaits t) (hQuiet : Quiet s s') : Placed s' awaits t :=
  h.congr hQuiet.threads hQuiet.runnable hQuiet.pendingStart hQuiet.stoppedPending hQuiet.blocked
    hQuiet.waiting hQuiet.current

/-- A resume keeps the places if a held task that it lets go is registered, and current when it is a
scheduled thread. -/
theorem resume (h : Placed s awaits t) (hp : t.phase p = some .held →
    s.registered p = true ∧ (s.isScheduled p = true → s.current = some p)) :
    Placed s awaits (t.resume p) := by
  have phase_none (q : Pid) : (t.resume p).phase q = none ↔ t.phase q = none := by
    rw [Tracees.phase_resume]
    split
    · rename_i hEq
      simp [hEq]
    · rfl
  have still {q : Pid} (hStill : t.Still q) (hHeld : t.phase p = some .held → q ≠ p) :
      (t.resume p).Still q := by
    refine hStill.resume ?_
    rintro rfl hNow
    exact hHeld hNow rfl
  refine { h with
    parked := h.parked.resume fun hBlocked hHeld => ?_
    runnable := fun q hq => ?_
    current := fun q hq => ?_
    starting := fun q hq => ?_
    single := fun q hScheduled hPhase => ?_
    newborn := fun q hRegistered hPhase => ?_
    unregistered := fun q hNot => ?_
    early := fun q hq => ?_
    absent := fun q hRegistered hPhase => h.absent q hRegistered ((phase_none q).mp hPhase)
    awaited := fun w hw => ?_
    expected := fun q c hq => h.expected q c (t.cloned_resume p q ▸ hq) }
  · exact h.parked.current p hBlocked ((hp hHeld).2 (h.parked.scheduled p hBlocked))
  · obtain ⟨hScheduled, hCurrent, hBlocked, hStart, hStill⟩ := h.runnable q hq
    refine ⟨hScheduled, hCurrent, hBlocked, hStart, still hStill ?_⟩
    rintro hHeld rfl
    exact hCurrent ((hp hHeld).2 hScheduled)
  · simp only [phase_none]
    exact h.current q hq
  · obtain ⟨hRegistered, hBlocked, hHeld, hReleased⟩ := h.starting q hq
    refine ⟨hRegistered, hBlocked, ?_⟩
    rcases t.resume_cases p q with hSame | ⟨_, hOld, _⟩ | ⟨_, _, hNew⟩
    · rw [hSame]
      exact ⟨hHeld, hReleased⟩
    · exact absurd hOld hHeld
    · simp [hNew]
  · rcases t.resume_cases p q with hSame | ⟨rfl, hOld, _⟩ | ⟨_, _, hNew⟩
    · exact h.single q hScheduled (hSame ▸ hPhase)
    · exact (hp hOld).2 hScheduled
    · simp [hNew] at hPhase
  · rcases t.resume_cases p q with hSame | ⟨_, _, hNew⟩ | ⟨_, _, hNew⟩
    · exact h.newborn q hRegistered (hSame ▸ hPhase)
    · simp [hNew] at hPhase
    · simp [hNew] at hPhase
  · rcases t.resume_cases p q with hSame | ⟨rfl, hOld, _⟩ | ⟨_, _, hNew⟩
    · rw [hSame]
      exact h.unregistered q hNot
    · rw [(hp hOld).1] at hNot
      cases hNot
    · simp [hNew]
  · obtain ⟨hNot, hStill⟩ := h.early q hq
    refine ⟨hNot, still hStill ?_⟩
    rintro hHeld rfl
    rw [(hp hHeld).1] at hNot
    cases hNot
  · simp only [phase_none]
    exact h.awaited w hw

theorem resumed (h : Placed s awaits (t.after s)) (hp : (t.after s).phase p = some .held →
    s.registered p = true ∧ (s.isScheduled p = true → s.current = some p)) :
    Placed (s.resumed p) awaits (t.after (s.resumed p)) := by
  rw [Tracees.after_resumed]
  exact (h.resume hp).congr rfl rfl rfl rfl rfl rfl rfl

theorem delivered (h : Placed s awaits (t.after s)) (sig : Signal)
    (hp : (t.after s).phase p = some .held →
      s.registered p = true ∧ (s.isScheduled p = true → s.current = some p)) :
    Placed (s.delivered p sig) awaits (t.after (s.delivered p sig)) := by
  rw [Tracees.after_delivered]
  exact (h.resume hp).congr rfl rfl rfl rfl rfl rfl rfl

theorem turn {x : Phase} (h : Placed s awaits t)
    (hOld : (t.phase p = some .released ∧ x = .held) ∨ (t.phase p ≠ none ∧ x = .exitStop))
    (hNew : t'.phase p = some x) (hElse : ∀ q, q ≠ p → t'.phase q = t.phase q)
    (hCloned : ∀ q c, t'.cloned q = some c → t.cloned q = some c) (hParked : Parked s t') :
    Placed s awaits t' := by
  have hAlive : t.phase p ≠ none := by
    rcases hOld with ⟨hOld, _⟩ | ⟨hOld, _⟩
    · simp [hOld]
    · exact hOld
  have hStop : x = .held ∨ x = .exitStop := hOld.imp And.right And.right
  have hBusy : t'.phase p ≠ some .newborn ∧ t'.phase p ≠ some .released ∧ t'.Still p := by
    rcases hStop with rfl | rfl
    · simp [Tracees.Still, hNew]
    · simp [Tracees.Still, hNew]
  have phase_none (q : Pid) : t'.phase q = none ↔ t.phase q = none := by
    by_cases hEq : q = p
    · rw [hEq, hNew]
      simp [hAlive]
    · rw [hElse q hEq]
  have still {q : Pid} (hStill : t.Still q) : t'.Still q := by
    by_cases hEq : q = p
    · rw [hEq]
      exact hBusy.2.2
    · exact hStill.congr (hElse q hEq)
  have held {q : Pid} (hHeld : t'.phase q = some .held) :
      t.phase q = some .held ∨ (q = p ∧ t.phase p = some .released) := by
    by_cases hEq : q = p
    · rw [hEq, hNew] at hHeld
      rcases hOld with ⟨hOld, _⟩ | ⟨_, rfl⟩
      · exact .inr ⟨hEq, hOld⟩
      · cases hHeld
    · exact .inl (hElse q hEq ▸ hHeld)
  have released {q : Pid} (hReleased : t'.phase q = some .released) :
      t.phase q = some .released := by
    by_cases hEq : q = p
    · rw [hEq] at hReleased
      exact absurd hReleased hBusy.2.1
    · exact hElse q hEq ▸ hReleased
  refine { h with
    parked := hParked
    runnable := fun q hq => ?_
    current := fun q hq => ?_
    starting := fun q hq => ?_
    single := fun q hScheduled hPhase => h.single q hScheduled (released hPhase)
    newborn := fun q hRegistered hPhase => ?_
    unregistered := fun q hNot => ?_
    early := fun q hq => ?_
    absent := fun q hRegistered hPhase => h.absent q hRegistered ((phase_none q).mp hPhase)
    awaited := fun w hw => ?_
    expected := fun q c hq => h.expected q c (hCloned q c hq) }
  · obtain ⟨hScheduled, hCurrent, hBlocked, hStart, hStill⟩ := h.runnable q hq
    exact ⟨hScheduled, hCurrent, hBlocked, hStart, still hStill⟩
  · simp only [phase_none]
    exact h.current q hq
  · obtain ⟨hRegistered, hBlocked, hHeld, hReleased⟩ := h.starting q hq
    refine ⟨hRegistered, hBlocked, fun hNow => ?_, fun hNow => hReleased (released hNow)⟩
    rcases held hNow with hSame | ⟨rfl, hRan⟩
    · exact hHeld hSame
    · exact hReleased hRan
  · refine h.newborn q hRegistered ?_
    by_cases hEq : q = p
    · rw [hEq] at hPhase
      exact absurd hPhase hBusy.1
    · exact hElse q hEq ▸ hPhase
  · obtain ⟨hReleased, hHeld⟩ := h.unregistered q hNot
    refine ⟨fun hNow => hReleased (released hNow), fun hNow => ?_⟩
    rcases held hNow with hSame | ⟨rfl, hRan⟩
    · exact hHeld hSame
    · exact absurd hRan hReleased
  · obtain ⟨hNot, hStill⟩ := h.early q hq
    exact ⟨hNot, still hStill⟩
  · simp only [phase_none]
    exact h.awaited w hw

theorem vacate (h : Placed s awaits t) (hp : ∀ q, s.current = some q → s.registered q = false) :
    Placed { s with current := none } awaits t := by
  refine { h with
    parked := h.parked.congr rfl rfl rfl (.inr rfl)
    runnable := fun q hq => ?_
    current := fun q hq => absurd hq.symm (Option.some_ne_none q)
    placed := fun q hScheduled => ?_
    single := fun q hScheduled hPhase => ?_
    expected := fun q c hq => ⟨(h.expected q c hq).1, (Option.some_ne_none c).symm⟩ }
  · obtain ⟨hScheduled, _, hRest⟩ := h.runnable q hq
    exact ⟨hScheduled, (Option.some_ne_none q).symm, hRest⟩
  · rcases h.placed q hScheduled with hCurrent | hRest
    · exact absurd hScheduled (not_isScheduled (hp q hCurrent))
    · exact .inr hRest
  · exact absurd hScheduled (not_isScheduled (hp q (h.single q hScheduled hPhase)))

theorem yield (h : Placed s awaits t) (hCurrent : s.current = some p)
    (hScheduled : s.isScheduled p = true) (hStill : t.Still p) :
    Placed (({ s with current := none } : Supervisor).enqueue p) awaits t := by
  have hStart : p ∉ s.pendingStart := by
    rcases h.current p hCurrent with ⟨_, hStart⟩ | ⟨hNot, _⟩
    · exact hStart
    · exact absurd hScheduled (not_isScheduled hNot)
  have hBlocked : p ∉ s.blocked := fun hp => h.parked.current p hp hCurrent
  have hNew : p ∉ s.runnable := fun hp => (h.runnable p hp).2.1 hCurrent
  refine { h with
    parked := h.parked.congr rfl rfl rfl (.inr rfl)
    nodup := ?_
    runnable := fun q hq => ?_
    current := fun q hq => absurd hq.symm (Option.some_ne_none q)
    placed := fun q hScheduled => ?_
    single := fun q hScheduled hPhase => ?_
    expected := fun q c hq => ⟨(h.expected q c hq).1, (Option.some_ne_none c).symm⟩ }
  · exact List.Nodup.append h.nodup (List.nodup_singleton p) (by simpa using hNew)
  · rcases List.mem_append.mp hq with hq | hq
    · obtain ⟨hScheduled, _, hRest⟩ := h.runnable q hq
      exact ⟨hScheduled, (Option.some_ne_none q).symm, hRest⟩
    · rw [List.mem_singleton.mp hq]
      exact ⟨hScheduled, (Option.some_ne_none p).symm, hBlocked, hStart, hStill⟩
  · rcases h.placed q hScheduled with hNow | hQueue | hRest
    · rw [hCurrent] at hNow
      cases hNow
      exact .inr (.inl (List.mem_append_right _ (List.mem_singleton_self p)))
    · exact .inr (.inl (List.mem_append_left _ hQueue))
    · exact .inr (.inr hRest)
  · have hNow := h.single q hScheduled hPhase
    rw [hCurrent] at hNow
    cases hNow
    exact absurd hPhase hStill.ne_released

theorem not_skips (h : Placed s awaits t) : ∀ q ∈ s.runnable, ¬ s.Skips q := by
  rintro q hq (hNot | hBlocked)
  · exact not_isScheduled hNot (h.runnable q hq).1
  · exact (h.runnable q hq).2.2.1 hBlocked

theorem picks (h : Placed s awaits (t.after s)) (hFree : s.current = none)
    (hPicks : Picks k s s') : Placed s' awaits (t.after s') := by
  cases hPicks with
  | idle hSkips hExpected =>
    have hEmpty : s.runnable = [] :=
      List.eq_nil_iff_forall_not_mem.mpr fun q hq => h.not_skips q hq (hSkips q hq)
    exact h.congr rfl hEmpty.symm rfl rfl rfl rfl rfl
  | @run skipped rest tid thread hQueue hSkips hLookup hBlocked hOk =>
    obtain rfl : skipped = [] := List.eq_nil_iff_forall_not_mem.mpr fun q hq =>
      h.not_skips q (hQueue ▸ List.mem_append_left _ hq) (hSkips q hq)
    simp only [List.nil_append] at hQueue
    have hMem : tid ∈ s.runnable := hQueue ▸ List.mem_cons_self
    obtain ⟨hScheduled, _, _, hStart, hStill⟩ := h.runnable tid hMem
    have hNodup := h.nodup
    rw [hQueue] at hNodup
    obtain ⟨hNew, hRest⟩ := List.nodup_cons.mp hNodup
    have hRun : Placed (({ s with runnable := rest } : Supervisor).scheduled tid thread) awaits
        (t.after s) := by
      have hCurrent : Placed { s with runnable := rest, current := some tid } awaits (t.after s) := by
        refine { h with
          parked := ?_
          nodup := hRest
          runnable := fun q hq => ?_
          current := fun q hq => ?_
          placed := fun q hScheduled => ?_
          single := fun q hScheduled hPhase => ?_
          expected := fun q c hq => ?_ }
        · refine { h.parked with
            queued := h.parked.queued.congr rfl rfl
            current := fun q hq => ?_ }
          rintro ⟨⟩
          exact hBlocked hq
        · obtain ⟨hScheduled, _, hPlaces⟩ := h.runnable q (hQueue ▸ List.mem_cons_of_mem _ hq)
          refine ⟨hScheduled, ?_, hPlaces⟩
          rintro ⟨⟩
          exact hNew hq
        · cases hq
          exact .inl ⟨hScheduled, hStart⟩
        · rcases h.placed q hScheduled with hNow | hOld | hPlaces
          · rw [hFree] at hNow
            cases hNow
          · rw [hQueue] at hOld
            rcases List.mem_cons.mp hOld with rfl | hOld
            · exact .inl rfl
            · exact .inr (.inl hOld)
          · exact .inr (.inr hPlaces)
        · have hNow := h.single q hScheduled hPhase
          rw [hFree] at hNow
          cases hNow
        · obtain ⟨hNot, _⟩ := h.expected q c hq
          refine ⟨hNot, ?_⟩
          rintro ⟨⟩
          exact not_isScheduled hNot hScheduled
      rw [scheduled_frame]
      exact hCurrent.congr rfl rfl rfl rfl rfl rfl rfl
    have hSame : t.after (({ s with runnable := rest } : Supervisor).scheduled tid thread) =
        t.after s := by
      rw [scheduled_frame]
      rfl
    rw [← hSame] at hRun
    refine hRun.resumed fun _ => ?_
    rw [scheduled_frame]
    exact ⟨registered_of_isScheduled hScheduled, fun _ => rfl⟩

theorem wait (h : Placed s awaits t) (hCurrent : s.current = some p)
    (hScheduled : s.isScheduled p = true) (hStill : t.Still p) (addr : U64) :
    Placed { s.block p addr with current := none } awaits t := by
  have hStart : p ∉ s.pendingStart := by
    rcases h.current p hCurrent with ⟨_, hStart⟩ | ⟨hNot, _⟩
    · exact hStart
    · exact absurd hScheduled (not_isScheduled hNot)
  have hNew : p ∉ s.blocked := fun hp => h.parked.current p hp hCurrent
  have hQueue : p ∉ s.runnable := fun hp => (h.runnable p hp).2.1 hCurrent
  refine { h with
    parked := h.parked.wait hNew hScheduled hStill addr
    runnable := fun q hq => ?_
    current := fun q hq => absurd hq.symm (Option.some_ne_none q)
    starting := fun q hq => ?_
    placed := fun q hScheduled => ?_
    single := fun q hScheduled hPhase => ?_
    expected := fun q c hq => ⟨(h.expected q c hq).1, (Option.some_ne_none c).symm⟩ }
  · obtain ⟨hScheduled, _, hBlocked, hRest⟩ := h.runnable q hq
    refine ⟨hScheduled, (Option.some_ne_none q).symm, fun hNow => ?_, hRest⟩
    rcases Finset.mem_insert.mp hNow with rfl | hNow
    · exact hQueue hq
    · exact hBlocked hNow
  · obtain ⟨hRegistered, hBlocked, hPhase⟩ := h.starting q hq
    refine ⟨hRegistered, fun hNow => ?_, hPhase⟩
    rcases Finset.mem_insert.mp hNow with rfl | hNow
    · exact hStart hq
    · exact hBlocked hNow
  · rcases h.placed q hScheduled with hNow | hOld | hBlocked | hRest
    · rw [hCurrent] at hNow
      cases hNow
      exact .inr (.inr (.inl (Finset.mem_insert_self p _)))
    · exact .inr (.inl hOld)
    · exact .inr (.inr (.inl (Finset.mem_insert_of_mem hBlocked)))
    · exact .inr (.inr (.inr hRest))
  · have hNow := h.single q hScheduled hPhase
    rw [hCurrent] at hNow
    cases hNow
    exact absurd hPhase hStill.ne_released

theorem unparked {addr : U64} {m : Nat} (h : Placed s awaits t) (hMoved : Unparked addr m s s') :
    Placed s' awaits t := by
  have hQueued := h.parked.queued
  have hTaken : ∀ q ∈ (s.parkedOn addr).take m, q ∈ s.blocked := fun q hq =>
    hQueued.mem_blocked (List.mem_of_mem_take hq)
  have hIs (q : Pid) : s'.isScheduled q = s.isScheduled q := by
    simp only [isScheduled, hMoved.threads]
  have hReg (q : Pid) : s'.registered q = s.registered q := by
    simp only [registered, hMoved.threads]
  have mem_blocked {q : Pid} :
      q ∈ s'.blocked ↔ q ∈ s.blocked ∧ q ∉ (s.parkedOn addr).take m := by
    rw [hMoved.blocked, Finset.mem_sdiff, List.mem_toFinset]
  refine ⟨h.parked.unparked hMoved, ?_, fun q hq => ?_, ?_, fun q hq => ?_, fun q hScheduled => ?_,
    ?_, ?_, ?_, ?_, ?_, ?_, ?_⟩
  · rw [hMoved.runnable]
    refine List.Nodup.append h.nodup ((hQueued.nodup addr).sublist (List.take_sublist m _)) ?_
    intro q hq hNow
    exact (h.runnable q hq).2.2.1 (hTaken q hNow)
  · rw [hMoved.runnable] at hq
    rw [hIs, hMoved.current, mem_blocked, hMoved.pendingStart]
    rcases List.mem_append.mp hq with hOld | hNow
    · obtain ⟨hScheduled, hCurrent, hBlocked, hRest⟩ := h.runnable q hOld
      exact ⟨hScheduled, hCurrent, fun hb => hBlocked hb.1, hRest⟩
    · have hBlocked := hTaken q hNow
      exact ⟨h.parked.scheduled q hBlocked, h.parked.current q hBlocked, fun hb => hb.2 hNow,
        fun hStart => (h.starting q hStart).2.1 hBlocked, h.parked.still q hBlocked⟩
  · simp only [hMoved.current, hIs, hReg, hMoved.pendingStart]
    exact h.current
  · rw [hMoved.pendingStart] at hq
    obtain ⟨hRegistered, hBlocked, hPhase⟩ := h.starting q hq
    exact ⟨(hReg q).trans hRegistered, fun hb => hBlocked (mem_blocked.mp hb).1, hPhase⟩
  · rw [hIs] at hScheduled
    rw [hMoved.current, hMoved.runnable, mem_blocked, hMoved.pendingStart, List.mem_append]
    rcases h.placed q hScheduled with hCurrent | hOld | hBlocked | hStart
    · exact .inl hCurrent
    · exact .inr (.inl (.inl hOld))
    · by_cases hNow : q ∈ (s.parkedOn addr).take m
      · exact .inr (.inl (.inr hNow))
      · exact .inr (.inr (.inl ⟨hBlocked, hNow⟩))
    · exact .inr (.inr (.inr hStart))
  · simp only [hIs, hMoved.current]
    exact h.single
  · simp only [hReg, hMoved.pendingStart]
    exact h.newborn
  · simp only [hReg, hMoved.stoppedPending]
    exact h.unregistered
  · simp only [hMoved.stoppedPending, hReg]
    exact h.early
  · simp only [hReg]
    exact h.absent
  · simp only [hReg]
    exact h.awaited
  · simp only [hReg, hMoved.current]
    exact h.expected

theorem forget (h : Placed s awaits t) (hDead : t'.phase p = none)
    (hElse : ∀ q, q ≠ p → t'.phase q = t.phase q)
    (hCloned : ∀ q c, t'.cloned q = some c → t.cloned q = some c) :
    Placed { s.forget p with threads := s.threads.erase p } awaits t' := by
  have hLookup (q : Pid) (hq : q ≠ p) : Map.get (s.threads.erase p) q = s.threads.get q :=
    Map.get_erase_ne _ hq
  have scheduled {q : Pid} (hq : ({ s.forget p with threads := s.threads.erase p } :
      Supervisor).isScheduled q = true) : q ≠ p ∧ s.isScheduled q = true := by
    have hne : q ≠ p := by
      rintro rfl
      simp [isScheduled] at hq
    exact ⟨hne, by simpa only [isScheduled, hLookup q hne] using hq⟩
  have isScheduled {q : Pid} (hne : q ≠ p) (hq : s.isScheduled q = true) :
      ({ s.forget p with threads := s.threads.erase p } : Supervisor).isScheduled q = true := by
    simpa only [Supervisor.isScheduled, hLookup q hne] using hq
  have registered {q : Pid} (hne : q ≠ p) :
      ({ s.forget p with threads := s.threads.erase p } : Supervisor).registered q =
        s.registered q := by
    simp only [Supervisor.registered, hLookup q hne]
  have gone : ({ s.forget p with threads := s.threads.erase p } : Supervisor).registered p =
      false := by
    simp [Supervisor.registered]
  have known {q : Pid} (hq : ({ s.forget p with threads := s.threads.erase p } :
      Supervisor).registered q = true) : q ≠ p := by
    rintro rfl
    rw [gone] at hq
    cases hq
  refine ⟨?_, ?_, fun q hq => ?_, fun q hq => ?_, fun q hq => ?_, fun q hq => ?_,
    fun q hq hPhase => ?_, fun q hq hPhase => ?_, fun q hq => ?_, fun q hq => ?_,
    fun q hq hPhase => ?_, fun w hw => ?_, fun q c hq => ?_⟩
  · refine ⟨(h.parked.queued.forget p).congr rfl rfl, fun q hq => ?_, fun q hq => ?_,
      fun q hq => ?_⟩
    · obtain ⟨hne, hq⟩ := Finset.mem_erase.mp hq
      exact isScheduled hne (h.parked.scheduled q hq)
    · exact h.parked.current q (Finset.mem_of_mem_erase hq)
    · obtain ⟨hne, hq⟩ := Finset.mem_erase.mp hq
      exact (h.parked.still q hq).congr (hElse q hne)
  · exact h.nodup.filter _
  · obtain ⟨hq, hne⟩ := List.mem_filter.mp hq
    have hne : q ≠ p := by simpa using hne
    obtain ⟨hScheduled, hCurrent, hBlocked, hStart, hStill⟩ := h.runnable q hq
    exact ⟨isScheduled hne hScheduled, hCurrent, fun hb => hBlocked (Finset.mem_of_mem_erase hb),
      fun hb => hStart (Finset.mem_of_mem_erase hb), hStill.congr (hElse q hne)⟩
  · by_cases hne : q = p
    · rw [hne]
      exact .inr ⟨gone, hDead⟩
    · rw [registered hne, hElse q hne]
      rcases h.current q hq with ⟨hScheduled, hStart⟩ | hRest
      · exact .inl ⟨isScheduled hne hScheduled, fun hb => hStart (Finset.mem_of_mem_erase hb)⟩
      · exact .inr hRest
  · obtain ⟨hne, hq⟩ := Finset.mem_erase.mp hq
    obtain ⟨hRegistered, hBlocked, hPhase⟩ := h.starting q hq
    rw [registered hne, hElse q hne]
    exact ⟨hRegistered, fun hb => hBlocked (Finset.mem_of_mem_erase hb), hPhase⟩
  · obtain ⟨hne, hScheduled⟩ := scheduled hq
    rcases h.placed q hScheduled with hCurrent | hOld | hBlocked | hStart
    · exact .inl hCurrent
    · exact .inr (.inl (List.mem_filter.mpr ⟨hOld, by simpa using hne⟩))
    · exact .inr (.inr (.inl (Finset.mem_erase.mpr ⟨hne, hBlocked⟩)))
    · exact .inr (.inr (.inr (Finset.mem_erase.mpr ⟨hne, hStart⟩)))
  · obtain ⟨hne, hScheduled⟩ := scheduled hq
    exact h.single q hScheduled (hElse q hne ▸ hPhase)
  · have hne := known hq
    rw [registered hne] at hq
    rw [hElse q hne] at hPhase
    exact Finset.mem_erase.mpr ⟨hne, h.newborn q hq hPhase⟩
  · by_cases hne : q = p
    · rw [hne, hDead]
      simp
    · rw [registered hne] at hq
      rw [hElse q hne]
      obtain ⟨hReleased, hHeld⟩ := h.unregistered q hq
      exact ⟨hReleased, fun hNow => Finset.mem_erase.mpr ⟨hne, hHeld hNow⟩⟩
  · obtain ⟨hne, hq⟩ := Finset.mem_erase.mp hq
    obtain ⟨hNot, hStill⟩ := h.early q hq
    exact ⟨(registered hne).trans hNot, hStill.congr (hElse q hne)⟩
  · have hne := known hq
    rw [registered hne] at hq
    exact h.absent q hq (hElse q hne ▸ hPhase)
  · have keep {q : Pid} (hq : s.registered q = true ∨ t.phase q = none) :
        ({ s.forget p with threads := s.threads.erase p } : Supervisor).registered q = true ∨
          t'.phase q = none := by
      by_cases hne : q = p
      · exact .inr (hne ▸ hDead)
      · rwa [registered hne, hElse q hne]
    exact ⟨keep (h.awaited w hw).1, keep (h.awaited w hw).2⟩
  · obtain ⟨hNot, hCurrent⟩ := h.expected q c (hCloned q c hq)
    refine ⟨?_, hCurrent⟩
    by_cases hne : c = p
    · rw [hne]
      exact gone
    · exact (registered hne).trans hNot

theorem exited (h : Placed s awaits t) (record : Bool) (hDead : t'.phase p = none)
    (hElse : ∀ q, q ≠ p → t'.phase q = t.phase q)
    (hCloned : ∀ q c, t'.cloned q = some c → t.cloned q = some c) :
    Placed (s.onThreadExit p record) awaits t' := by
  obtain ⟨addr, m, v, hMoved, hQuiet⟩ := onThreadExit_spec h.parked.queued p record
  have hWake : Unparked addr m s { v with threads := s.threads } :=
    ⟨hMoved.runnable, hMoved.blocked, hMoved.nonempty, hMoved.parked, hMoved.elsewhere, by
      rw [hMoved.frame]⟩
  have hForgotten := (h.unparked hWake).forget hDead hElse hCloned
  refine hForgotten.congr ?_ hQuiet.runnable hQuiet.pendingStart hQuiet.stoppedPending
    hQuiet.blocked hQuiet.waiting hQuiet.current
  exact hQuiet.threads.trans hMoved.threads

theorem attach (h : Placed s awaits t) (hStart : p ∈ s.pendingStart)
    (hNew : t'.phase p = some .held) (hElse : ∀ q, q ≠ p → t'.phase q = t.phase q)
    (hCloned : ∀ q c, t'.cloned q = some c → t.cloned q = some c) (hParked : Parked s t')
    (hAlive : t.phase p ≠ none) :
    Placed { s with
      pendingStart := s.pendingStart.erase p
      runnable := s.runnable ++ if s.isScheduled p then [p] else [] } awaits t' := by
  obtain ⟨hRegistered, hBlocked, _⟩ := h.starting p hStart
  have hCurrent : s.current ≠ some p := by
    intro hCurrent
    rcases h.current p hCurrent with ⟨_, hNot⟩ | ⟨_, hGone⟩
    · exact hNot hStart
    · exact hAlive hGone
  have hQueue : p ∉ s.runnable := fun hp => (h.runnable p hp).2.2.2.1 hStart
  have phase_none (q : Pid) : t'.phase q = none ↔ t.phase q = none := by
    by_cases hEq : q = p
    · rw [hEq, hNew]
      simp [hAlive]
    · rw [hElse q hEq]
  refine ⟨hParked.congr rfl rfl rfl (.inl rfl), ?_, fun q hq => ?_, fun q hq => ?_, fun q hq => ?_,
    fun q hScheduled => ?_, fun q hScheduled hPhase => ?_, fun q hKnown hPhase => ?_,
    fun q hNot => ?_, fun q hq => ?_, fun q hKnown hPhase => ?_, fun w hw => ?_,
    fun q c hq => h.expected q c (hCloned q c hq)⟩
  · exact nodup_joining h.nodup hQueue
  · rcases List.mem_append.mp hq with hq | hq
    · have hne : q ≠ p := fun hEq => hQueue (hEq ▸ hq)
      obtain ⟨hScheduled, hFree, hOut, hGo, hStill⟩ := h.runnable q hq
      exact ⟨hScheduled, hFree, hOut, fun hNow => hGo (Finset.mem_of_mem_erase hNow),
        hStill.congr (hElse q hne)⟩
    · obtain ⟨rfl, hScheduled⟩ := mem_joining.mp hq
      exact ⟨hScheduled, hCurrent, hBlocked, Finset.notMem_erase q _, .inl hNew⟩
  · rw [phase_none]
    rcases h.current q hq with ⟨hScheduled, hGo⟩ | hGone
    · exact .inl ⟨hScheduled, fun hNow => hGo (Finset.mem_of_mem_erase hNow)⟩
    · exact .inr hGone
  · obtain ⟨hne, hq⟩ := Finset.mem_erase.mp hq
    rw [hElse q hne]
    exact h.starting q hq
  · rcases h.placed q hScheduled with hNow | hOld | hNow | hNow
    · exact .inl hNow
    · exact .inr (.inl (List.mem_append_left _ hOld))
    · exact .inr (.inr (.inl hNow))
    · by_cases hEq : q = p
      · rw [hEq] at hScheduled ⊢
        have hYes : s.isScheduled p = true := hScheduled
        refine .inr (.inl (List.mem_append_right _ ?_))
        simp [hYes]
      · exact .inr (.inr (.inr (Finset.mem_erase.mpr ⟨hEq, hNow⟩)))
  · by_cases hEq : q = p
    · rw [hEq, hNew] at hPhase
      cases hPhase
    · exact h.single q hScheduled (hElse q hEq ▸ hPhase)
  · by_cases hEq : q = p
    · rw [hEq, hNew] at hPhase
      cases hPhase
    · exact Finset.mem_erase.mpr ⟨hEq, h.newborn q hKnown (hElse q hEq ▸ hPhase)⟩
  · have hne : q ≠ p := by
      rintro rfl
      have hNot : s.registered q = false := hNot
      rw [hRegistered] at hNot
      cases hNot
    rw [hElse q hne]
    exact h.unregistered q hNot
  · obtain ⟨hNot, hStill⟩ := h.early q hq
    have hne : q ≠ p := by
      rintro rfl
      rw [hRegistered] at hNot
      cases hNot
    exact ⟨hNot, hStill.congr (hElse q hne)⟩
  · exact h.absent q hKnown ((phase_none q).mp hPhase)
  · simp only [phase_none]
    exact h.awaited w hw

theorem registered_insert {thread : Thread} (hThreads : s'.threads = s.threads.insert p thread)
    (q : Pid) : s'.registered q = true ↔ q = p ∨ s.registered q = true := by
  simp only [registered, hThreads, Map.get_insert]
  split
  · rename_i hEq
    simp [hEq]
  · rename_i hEq
    simp [hEq]

theorem isScheduled_insert {thread : Thread} (hThreads : s'.threads = s.threads.insert p thread)
    (q : Pid) : s'.isScheduled q = if q = p then thread.scheduled else s.isScheduled q := by
  simp only [isScheduled, hThreads, Map.get_insert]
  by_cases hEq : q = p
  · simp [hEq]
  · simp [hEq]

/-- An unregistered task that nothing names is in no queue. -/
theorem unknown (h : Placed s awaits t) (hFresh : s.registered p = false) :
    p ∉ s.runnable ∧ p ∉ s.blocked ∧ p ∉ s.pendingStart := by
  refine ⟨fun hp => not_isScheduled hFresh (h.runnable p hp).1,
    fun hp => not_isScheduled hFresh (h.parked.scheduled p hp), fun hp => ?_⟩
  rw [(h.starting p hp).1] at hFresh
  cases hFresh

theorem register {thread : Thread} {awaits' : List Await} (h : Placed s awaits t)
    (hFresh : s.registered p = false) (hCurrent : s.current ≠ some p)
    (hReported : ∀ q, t.cloned q ≠ some p) (hThreads : s'.threads = s.threads.insert p thread)
    (hSame : s'.blocked = s.blocked ∧ s'.waiting = s.waiting ∧ s'.current = s.current)
    (hRunnable : ∀ q, q ∈ s'.runnable ↔
      q ∈ s.runnable ∨ (q = p ∧ thread.scheduled = true ∧ p ∈ s.stoppedPending))
    (hNodup : s'.runnable.Nodup)
    (hStart : ∀ q, q ∈ s'.pendingStart ↔ q ∈ s.pendingStart ∨ (q = p ∧ p ∉ s.stoppedPending))
    (hStopped : s'.stoppedPending = s.stoppedPending.erase p)
    (hAwaits : ∀ w ∈ awaits', w ∈ awaits ∨ (w.child = p ∧ s.registered w.parent = true))
    (hGone : ∀ w ∈ awaits, w ∈ awaits')
    (hCalled : p ∉ s.stoppedPending → ∃ w ∈ awaits', w.child = p) : Placed s' awaits' t := by
  obtain ⟨hOut, hFree, hNone⟩ := h.unknown hFresh
  obtain ⟨hBlocked, hWaiting, hNow⟩ := hSame
  have hIs {q : Pid} (hne : q ≠ p) : s'.isScheduled q = s.isScheduled q := by
    rw [isScheduled_insert hThreads, if_neg hne]
  have hReg (q : Pid) : s'.registered q = true ↔ q = p ∨ s.registered q = true :=
    registered_insert hThreads q
  have hKeep {q : Pid} (hne : q ≠ p) : s'.registered q = s.registered q := by
    rw [Bool.eq_iff_iff, hReg]
    simp [hne]
  refine ⟨?_, hNodup, fun q hq => ?_, fun q hq => ?_, fun q hq => ?_, fun q hScheduled => ?_,
    fun q hScheduled hPhase => ?_, fun q hKnown hPhase => ?_, fun q hUnknown => ?_, fun q hq => ?_,
    fun q hKnown hPhase => ?_, fun w hw => ?_, fun q c hq => ?_⟩
  · refine ⟨h.parked.queued.congr hBlocked hWaiting, fun q hq => ?_, fun q hq => ?_, fun q hq => ?_⟩
    · rw [hBlocked] at hq
      rw [hIs (fun hEq => hFree (hEq ▸ hq))]
      exact h.parked.scheduled q hq
    · rw [hNow]
      exact h.parked.current q (hBlocked ▸ hq)
    · exact h.parked.still q (hBlocked ▸ hq)
  · rw [hNow, hBlocked, hStart]
    rcases (hRunnable q).mp hq with hq | ⟨rfl, hScheduled, hSeen⟩
    · obtain ⟨hScheduled, hElse, hPark, hGo, hStill⟩ := h.runnable q hq
      have hne : q ≠ p := fun hEq => hOut (hEq ▸ hq)
      rw [hIs hne]
      exact ⟨hScheduled, hElse, hPark, fun hb => hb.elim hGo fun hb => hne hb.1, hStill⟩
    · rw [isScheduled_insert hThreads, if_pos rfl]
      exact ⟨hScheduled, hCurrent, hFree, fun hb => hb.elim hNone fun hb => hb.2 hSeen,
        (h.early q hSeen).2⟩
  · rw [hNow] at hq
    have hne : q ≠ p := fun hEq => hCurrent (hEq ▸ hq)
    rw [hIs hne, hStart]
    rcases h.current q hq with ⟨hScheduled, hGo⟩ | ⟨hUnknown, hPhase⟩
    · exact .inl ⟨hScheduled, fun hb => hb.elim hGo fun hb => hne hb.1⟩
    · exact .inr ⟨(hKeep hne).trans hUnknown, hPhase⟩
  · rw [hReg, hBlocked]
    rcases (hStart q).mp hq with hq | ⟨rfl, hUnseen⟩
    · obtain ⟨hKnown, hRest⟩ := h.starting q hq
      exact ⟨.inr hKnown, hRest⟩
    · obtain ⟨hReleased, hHeld⟩ := h.unregistered q hFresh
      exact ⟨.inl rfl, hFree, fun hb => hUnseen (hHeld hb), hReleased⟩
  · rw [hNow, hRunnable, hBlocked, hStart]
    by_cases hEq : q = p
    · rw [hEq, isScheduled_insert hThreads, if_pos rfl] at hScheduled
      by_cases hSeen : p ∈ s.stoppedPending
      · exact .inr (.inl (.inr ⟨hEq, hScheduled, hSeen⟩))
      · exact .inr (.inr (.inr (.inr ⟨hEq, hSeen⟩)))
    · rw [hIs hEq] at hScheduled
      rcases h.placed q hScheduled with hb | hb | hb | hb
      · exact .inl hb
      · exact .inr (.inl (.inl hb))
      · exact .inr (.inr (.inl hb))
      · exact .inr (.inr (.inr (.inl hb)))
  · rw [hNow]
    by_cases hEq : q = p
    · exact absurd (hEq ▸ hPhase) (h.unregistered p hFresh).1
    · exact h.single q (hIs hEq ▸ hScheduled) hPhase
  · rw [hStart]
    rcases (hReg q).mp hKnown with rfl | hKnown
    · exact .inr ⟨rfl, fun hSeen => (h.early q hSeen).2.ne_newborn hPhase⟩
    · exact .inl (h.newborn q hKnown hPhase)
  · have hne : q ≠ p := by
      rintro rfl
      rw [(hReg q).mpr (.inl rfl)] at hUnknown
      cases hUnknown
    obtain ⟨hReleased, hHeld⟩ := h.unregistered q ((hKeep hne).symm.trans hUnknown)
    rw [hStopped]
    exact ⟨hReleased, fun hb => Finset.mem_erase.mpr ⟨hne, hHeld hb⟩⟩
  · rw [hStopped] at hq
    obtain ⟨hne, hq⟩ := Finset.mem_erase.mp hq
    obtain ⟨hUnknown, hStill⟩ := h.early q hq
    exact ⟨(hKeep hne).trans hUnknown, hStill⟩
  · rcases (hReg q).mp hKnown with rfl | hKnown
    · exact hCalled fun hSeen => (h.early q hSeen).2.ne_none hPhase
    · obtain ⟨w, hw, hChild⟩ := h.absent q hKnown hPhase
      exact ⟨w, hGone w hw, hChild⟩
  · rw [hReg, hReg]
    rcases hAwaits w hw with hw | ⟨hChild, hParent⟩
    · obtain ⟨hChild, hParent⟩ := h.awaited w hw
      exact ⟨hChild.imp_left .inr, hParent.imp_left .inr⟩
    · exact ⟨.inl (.inl hChild), .inl (.inr hParent)⟩
  · obtain ⟨hUnknown, hElse⟩ := h.expected q c hq
    rw [hNow]
    have hne : c ≠ p := by
      rintro rfl
      exact hReported q hq
    exact ⟨(hKeep hne).trans hUnknown, hElse⟩

theorem seen (h : Placed s awaits t) (hFresh : s.registered p = false)
    (hOld : t.phase p = some .newborn) (hNew : t'.phase p = some .held)
    (hElse : ∀ q, q ≠ p → t'.phase q = t.phase q)
    (hCloned : ∀ q c, t'.cloned q = some c → t.cloned q = some c) (hParked : Parked s t') :
    Placed { s with stoppedPending := insert p s.stoppedPending } awaits t' := by
  obtain ⟨hOut, hFree, hNone⟩ := h.unknown hFresh
  have phase_none (q : Pid) : t'.phase q = none ↔ t.phase q = none := by
    by_cases hEq : q = p
    · rw [hEq, hNew, hOld]
      simp
    · rw [hElse q hEq]
  have known {q : Pid} (hq : s.registered q = true) : q ≠ p := by
    rintro rfl
    rw [hq] at hFresh
    cases hFresh
  refine { h with
    parked := hParked.congr rfl rfl rfl (.inl rfl)
    runnable := fun q hq => ?_
    current := fun q hq => ?_
    starting := fun q hq => ?_
    single := fun q hScheduled hPhase => ?_
    newborn := fun q hKnown hPhase => ?_
    unregistered := fun q hUnknown => ?_
    early := fun q hq => ?_
    absent := fun q hKnown hPhase => h.absent q hKnown ((phase_none q).mp hPhase)
    awaited := fun w hw => ?_
    expected := fun q c hq => h.expected q c (hCloned q c hq) }
  · obtain ⟨hScheduled, hCurrent, hBlocked, hStart, hStill⟩ := h.runnable q hq
    have hne := known (registered_of_isScheduled hScheduled)
    exact ⟨hScheduled, hCurrent, hBlocked, hStart, hStill.congr (hElse q hne)⟩
  · rw [phase_none]
    exact h.current q hq
  · have hne := known (h.starting q hq).1
    rw [hElse q hne]
    exact h.starting q hq
  · have hne := known (registered_of_isScheduled hScheduled)
    exact h.single q hScheduled (hElse q hne ▸ hPhase)
  · exact h.newborn q hKnown (hElse q (known hKnown) ▸ hPhase)
  · by_cases hEq : q = p
    · rw [hEq, hNew]
      exact ⟨by simp, fun _ => Finset.mem_insert_self p _⟩
    · rw [hElse q hEq]
      obtain ⟨hReleased, hHeld⟩ := h.unregistered q hUnknown
      exact ⟨hReleased, fun hb => Finset.mem_insert_of_mem (hHeld hb)⟩
  · rcases Finset.mem_insert.mp hq with rfl | hq
    · exact ⟨hFresh, .inl hNew⟩
    · obtain ⟨hUnknown, hStill⟩ := h.early q hq
      by_cases hEq : q = p
      · exact ⟨hUnknown, .inl (hEq ▸ hNew)⟩
      · exact ⟨hUnknown, hStill.congr (hElse q hEq)⟩
  · simp only [phase_none]
    exact h.awaited w hw

theorem pop {w : Await} (h : Placed s (w :: awaits) t) (hAlive : t.phase w.child ≠ none) :
    Placed s awaits t := by
  refine { h with
    absent := fun q hKnown hPhase => ?_
    awaited := fun w' hw => h.awaited w' (List.mem_cons_of_mem _ hw) }
  obtain ⟨w', hw, hChild⟩ := h.absent q hKnown hPhase
  rcases List.mem_cons.mp hw with rfl | hw
  · exact absurd (hChild ▸ hPhase) hAlive
  · exact ⟨w', hw, hChild⟩

end Placed

end Dtrun
