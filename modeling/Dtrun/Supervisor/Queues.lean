import Dtrun.Supervisor.Handlers

/-! # The queues of parked threads

`waiting` and `blocked` say the same thing twice: a thread is blocked when it stands in a queue, it
stands in one queue only and only once there, and an empty queue is not kept. Under that invariant a
wake moves the head of one queue to the end of `runnable`, and a thread's exit takes it out of
everything.
-/
namespace Dtrun.Supervisor
set_option autoImplicit false
open FiniteMap

variable {s t v : Supervisor} {p q : Pid} {addr : U64}

/-- What `blocked` and `waiting` have to agree on. -/
structure Queued (s : Supervisor) : Prop where
  nonempty : ∀ a, s.waiting.get a ≠ some []
  nodup : ∀ a, (s.parkedOn a).Nodup
  blocked : ∀ q, q ∈ s.blocked ↔ ∃ a, q ∈ s.parkedOn a
  apart : ∀ a b q, q ∈ s.parkedOn a → q ∈ s.parkedOn b → a = b

/-- The first `m` threads parked on `addr` have been moved to `runnable`. -/
structure Unparked (addr : U64) (m : Nat) (s t : Supervisor) : Prop where
  runnable : t.runnable = s.runnable ++ (s.parkedOn addr).take m
  blocked : t.blocked = s.blocked \ ((s.parkedOn addr).take m).toFinset
  nonempty : t.waiting.get addr ≠ some []
  parked : t.parkedOn addr = (s.parkedOn addr).drop m
  elsewhere : ∀ a, a ≠ addr → t.waiting.get a = s.waiting.get a
  frame : t = { s with runnable := t.runnable, blocked := t.blocked, waiting := t.waiting }

theorem parkedOn_of_get {queue : List Pid} (h : s.waiting.get addr = some queue) :
    s.parkedOn addr = queue := by
  simp [parkedOn, h]

theorem Queued.mem_blocked (h : Queued s) (hq : q ∈ s.parkedOn addr) : q ∈ s.blocked :=
  (h.blocked q).mpr ⟨addr, hq⟩

theorem Queued.congr (h : Queued s) (hBlocked : t.blocked = s.blocked)
    (hWaiting : t.waiting = s.waiting) : Queued t := by
  have hParked (a : U64) : t.parkedOn a = s.parkedOn a := by simp only [parkedOn, hWaiting]
  refine ⟨fun a => ?_, fun a => ?_, fun q => ?_, fun a b q => ?_⟩
  · rw [hWaiting]
    exact h.nonempty a
  · rw [hParked]
    exact h.nodup a
  · simp only [hParked, hBlocked]
    exact h.blocked q
  · simp only [hParked]
    exact h.apart a b q

namespace Unparked

variable {m n : Nat}

theorem parkedOn_ne (h : Unparked addr m s t) {a : U64} (ha : a ≠ addr) :
    t.parkedOn a = s.parkedOn a := by
  simp only [parkedOn, h.elsewhere a ha]

theorem threads (h : Unparked addr m s t) : t.threads = s.threads := by rw [h.frame]

theorem pendingStart (h : Unparked addr m s t) : t.pendingStart = s.pendingStart := by rw [h.frame]

theorem stoppedPending (h : Unparked addr m s t) : t.stoppedPending = s.stoppedPending := by
  rw [h.frame]

theorem current (h : Unparked addr m s t) : t.current = s.current := by rw [h.frame]

theorem effects (h : Unparked addr m s t) : t.effects = s.effects := by rw [h.frame]

theorem none (hQueue : s.waiting.get addr ≠ some []) : Unparked addr 0 s s := by
  refine ⟨?_, ?_, hQueue, rfl, fun a _ => rfl, rfl⟩
  · simp
  · simp

theorem trans (h : Unparked addr m s t) (h' : Unparked addr n t v) : Unparked addr (m + n) s v := by
  refine ⟨?_, ?_, h'.nonempty, ?_, fun a ha => ?_, ?_⟩
  · rw [h'.runnable, h.parked, h.runnable, List.append_assoc, List.take_add]
  · rw [h'.blocked, h.parked, h.blocked, List.take_add, List.toFinset_append,
      sdiff_sdiff_left]
    rfl
  · rw [h'.parked, h.parked, List.drop_drop]
  · rw [h'.elsewhere a ha, h.elsewhere a ha]
  · rw [h'.frame, h.frame]

end Unparked

theorem wakeLoop_frame (cap : Nat) (queue : List Pid) (woken : Nat) (s : Supervisor) :
    (wakeLoop cap queue woken s).2.2 = { s with
      runnable := (wakeLoop cap queue woken s).2.2.runnable
      blocked := (wakeLoop cap queue woken s).2.2.blocked } := by
  induction queue generalizing woken s with
  | nil => rfl
  | cons head rest ih =>
    simp only [wakeLoop]
    split
    · split
      · rw [ih]
        rfl
      · exact ih woken s
    · rfl

theorem wake_frame (s : Supervisor) (addr val : U64) :
    (s.wake addr val).2 = { s with
      runnable := (s.wake addr val).2.runnable
      blocked := (s.wake addr val).2.blocked
      waiting := (s.wake addr val).2.waiting } := by
  simp only [wake]
  split
  · rfl
  · split
    · rfl
    · rename_i queue _
      have hLoop := wakeLoop_frame val.toInt.toNat queue 0
        { s with waiting := s.waiting.erase addr }
      split
      · rw [hLoop]
      · rw [hLoop]

theorem clearTidWake_frame (s : Supervisor) (thread : Thread) :
    s.clearTidWake thread = { s with
      runnable := (s.clearTidWake thread).runnable
      blocked := (s.clearTidWake thread).blocked
      waiting := (s.clearTidWake thread).waiting } := by
  simp only [clearTidWake]
  split
  · exact wake_frame s thread.childTid 1
  · rfl

/-! None of it depends on what was asked of the kernel. -/

theorem wakeLoop_effects (cap : Nat) (effects : List Effect) (parked : List Pid) (woken : Nat)
    (s : Supervisor) : wakeLoop cap parked woken { s with effects := effects } =
      ((wakeLoop cap parked woken s).1, (wakeLoop cap parked woken s).2.1,
        { (wakeLoop cap parked woken s).2.2 with effects := effects }) := by
  induction parked generalizing woken s with
  | nil => rfl
  | cons q parked ih =>
    simp only [wakeLoop]
    split
    · split
      · exact ih (woken + 1) ({ s with blocked := s.blocked.erase q }.enqueue q)
      · exact ih woken s
    · rfl

theorem wake_effects (effects : List Effect) (addr val : U64) (s : Supervisor) :
    ({ s with effects := effects } : Supervisor).wake addr val =
      ((s.wake addr val).1, { (s.wake addr val).2 with effects := effects }) := by
  simp only [wake]
  split
  · rfl
  cases hParked : s.waiting.get addr with
  | none => rfl
  | some parked =>
    have hLoop := wakeLoop_effects val.toInt.toNat effects parked 0
      { s with waiting := s.waiting.erase addr }
    simp only [hLoop]
    split
    · rfl
    · rfl

theorem onThreadExit_effects (effects : List Effect) (p : Pid) (record : Bool) (s : Supervisor) :
    ({ s with effects := effects } : Supervisor).onThreadExit p record =
      { s.onThreadExit p record with effects := effects } := by
  simp only [onThreadExit]
  cases s.threads.get p with
  | none => rfl
  | some thread =>
    have hWake : ({ s with threads := s.threads.erase p, effects := effects } :
        Supervisor).clearTidWake thread =
        { { s with threads := s.threads.erase p }.clearTidWake thread with effects := effects } := by
      simp only [clearTidWake]
      split
      · exact congrArg Prod.snd
          (wake_effects effects thread.childTid 1 { s with threads := s.threads.erase p })
      · rfl
    dsimp only
    rw [hWake]
    cases record with
    | true => rfl
    | false => rfl

/-- The loop takes threads off the queue until the count or the queue is used up; every thread of
the queue is blocked, so none is passed over. -/
theorem wakeLoop_eq (cap : Nat) (queue : List Pid) (woken : Nat) (hNodup : queue.Nodup)
    (hBlocked : ∀ q ∈ queue, q ∈ s.blocked) :
    wakeLoop cap queue woken s =
      (woken + (queue.take (cap - woken)).length, queue.drop (cap - woken),
        { s with
          runnable := s.runnable ++ queue.take (cap - woken)
          blocked := s.blocked \ (queue.take (cap - woken)).toFinset }) := by
  induction queue generalizing woken s with
  | nil => simp [wakeLoop]
  | cons head rest ih =>
    obtain ⟨hHead, hRest⟩ := List.nodup_cons.mp hNodup
    by_cases hCap : woken < cap
    · obtain ⟨left, hLeft⟩ : ∃ left, cap - woken = left + 1 := ⟨cap - woken - 1, by omega⟩
      have hLeft' : cap - (woken + 1) = left := by omega
      have hStill : ∀ q ∈ rest, q ∈ (({ s with blocked := s.blocked.erase head } :
          Supervisor).enqueue head).blocked := by
        intro q hq
        refine Finset.mem_erase.mpr ⟨?_, hBlocked q (List.mem_cons_of_mem _ hq)⟩
        rintro rfl
        exact hHead hq
      rw [wakeLoop, if_pos hCap, if_pos (hBlocked head List.mem_cons_self),
        ih (woken + 1) hRest hStill, hLeft, hLeft']
      simp only [enqueue, List.take_succ_cons, List.drop_succ_cons, List.length_cons,
        List.append_assoc, List.singleton_append, List.toFinset_cons, Finset.sdiff_insert,
        Finset.erase_sdiff_comm]
      congr 1
      omega
    · have hNone : cap - woken = 0 := by omega
      simp [wakeLoop, hCap, hNone]

/-- The number of threads that `wake(addr, val)` wakes. -/
def wakeCount (s : Supervisor) (addr val : U64) : Nat :=
  min val.toInt.toNat (s.parkedOn addr).length

theorem wake_fst (h : Queued s) (addr val : U64) :
    (s.wake addr val).1 = s.wakeCount addr val := by
  simp only [wake, wakeCount]
  split
  · rename_i hCap
    simp [hCap]
  · cases hGet : s.waiting.get addr with
    | none => simp [parkedOn, hGet]
    | some queue =>
      have hQueue := parkedOn_of_get hGet
      have hNodup := h.nodup addr
      have hBlocked : ∀ q ∈ s.parkedOn addr, q ∈ s.blocked := fun q hq => h.mem_blocked hq
      rw [hQueue] at hNodup hBlocked
      have hLoop := wakeLoop_eq (s := { s with waiting := s.waiting.erase addr }) val.toInt.toNat
        queue 0 hNodup hBlocked
      simp [hLoop, hQueue]

theorem take_wakeCount (s : Supervisor) (addr val : U64) :
    (s.parkedOn addr).take (s.wakeCount addr val) = (s.parkedOn addr).take val.toInt.toNat := by
  simp [wakeCount, List.take_eq_take_iff]

theorem drop_wakeCount (s : Supervisor) (addr val : U64) :
    (s.parkedOn addr).drop (s.wakeCount addr val) = (s.parkedOn addr).drop val.toInt.toNat := by
  simp [wakeCount, List.drop_eq_drop_iff]

theorem wake_unparked (h : Queued s) (addr val : U64) :
    Unparked addr (s.wakeCount addr val) s (s.wake addr val).2 := by
  simp only [wake, wakeCount]
  split
  · rename_i hCap
    rw [hCap, Nat.zero_min]
    exact .none (h.nonempty addr)
  · cases hGet : s.waiting.get addr with
    | none =>
      have hQueue : s.parkedOn addr = [] := by simp [parkedOn, hGet]
      simp only [hQueue, List.length_nil, Nat.min_zero]
      exact .none (h.nonempty addr)
    | some queue =>
      have hQueue := parkedOn_of_get hGet
      have hNodup := h.nodup addr
      have hBlocked : ∀ q ∈ s.parkedOn addr, q ∈ s.blocked := fun q hq => h.mem_blocked hq
      rw [hQueue] at hNodup hBlocked
      have hLoop := wakeLoop_eq (s := { s with waiting := s.waiting.erase addr }) val.toInt.toNat
        queue 0 hNodup hBlocked
      have hTake (n : Nat) : queue.take (min n queue.length) = queue.take n := by
        simp [List.take_eq_take_iff]
      have hDrop (n : Nat) : queue.drop (min n queue.length) = queue.drop n := by
        simp [List.drop_eq_drop_iff]
      simp only [hLoop, Nat.sub_zero]
      split
      · rename_i hRest
        refine ⟨?_, ?_, ?_, ?_, fun a ha => ?_, rfl⟩
        · simp only [hQueue, hTake]
        · simp only [hQueue, hTake]
        · simp
        · simp only [parkedOn, Map.get_erase_self, Option.getD_none, hGet, Option.getD_some, hDrop,
            hRest]
        · exact Map.get_erase_ne _ ha
      · rename_i hRest
        refine ⟨?_, ?_, ?_, ?_, fun a ha => ?_, rfl⟩
        · simp only [hQueue, hTake]
        · simp only [hQueue, hTake]
        · simpa using hRest
        · simp only [parkedOn, Map.get_insert_self, Option.getD_some, hGet, hDrop]
        · simp only [Map.get_insert_ne _ _ ha, Map.get_erase_ne _ ha]

theorem clearTidWake_unparked (h : Queued s) (thread : Thread) :
    ∃ m, Unparked thread.childTid m s (s.clearTidWake thread) := by
  simp only [clearTidWake]
  split
  · exact ⟨_, wake_unparked h thread.childTid 1⟩
  · exact ⟨0, .none (h.nonempty thread.childTid)⟩

theorem parkedOn_block (s : Supervisor) (p : Pid) (addr a : U64) :
    (s.block p addr).parkedOn a = if a = addr then s.parkedOn addr ++ [p] else s.parkedOn a := by
  simp only [block, parkedOn, Map.get_insert]
  split <;> rfl

theorem mem_parkedOn_block {a : U64} :
    q ∈ (s.block p addr).parkedOn a ↔ q ∈ s.parkedOn a ∨ (a = addr ∧ q = p) := by
  rw [parkedOn_block]
  split
  · rename_i h
    simp [h]
  · rename_i h
    simp [h]

theorem parkedOn_forget (s : Supervisor) (p : Pid) (a : U64) :
    (s.forget p).parkedOn a = (s.parkedOn a).filter fun q => q ≠ p := by
  simp only [forget, parkedOn, get_filterMapValues]
  cases s.waiting.get a with
  | none => rfl
  | some queue =>
    simp only [Option.bind_some, dropFrom, Option.getD_some]
    split
    · rename_i hEmpty
      simp only [Option.getD_none, hEmpty]
    · rfl

theorem mem_parkedOn_forget {a : U64} :
    q ∈ (s.forget p).parkedOn a ↔ q ∈ s.parkedOn a ∧ q ≠ p := by
  rw [parkedOn_forget]
  simp

namespace Queued

theorem empty (hBlocked : s.blocked = ∅) (hWaiting : s.waiting = ∅) : Queued s := by
  have hParked (a : U64) : s.parkedOn a = [] := by simp [parkedOn, hWaiting]
  refine ⟨fun a => ?_, fun a => ?_, fun q => ?_, fun a b q hq => ?_⟩
  · simp [hWaiting]
  · simp [hParked]
  · simp [hParked, hBlocked]
  · simp [hParked] at hq

theorem block (h : Queued s) (hNew : p ∉ s.blocked) (addr : U64) : Queued (s.block p addr) := by
  have hFresh (a : U64) : p ∉ s.parkedOn a := fun hp => hNew (h.mem_blocked hp)
  refine ⟨fun a => ?_, fun a => ?_, fun q => ?_, fun a b q hqa hqb => ?_⟩
  · simp only [Supervisor.block, Map.get_insert]
    split
    · simp
    · exact h.nonempty a
  · rw [parkedOn_block]
    split
    · refine List.Nodup.append (h.nodup addr) (List.nodup_singleton p) ?_
      simpa using hFresh addr
    · exact h.nodup a
  · simp only [mem_parkedOn_block]
    constructor
    · intro hq
      rcases Finset.mem_insert.mp hq with rfl | hq
      · exact ⟨addr, .inr ⟨rfl, rfl⟩⟩
      · obtain ⟨a, ha⟩ := (h.blocked q).mp hq
        exact ⟨a, .inl ha⟩
    · rintro ⟨a, hq | ⟨_, rfl⟩⟩
      · exact Finset.mem_insert_of_mem (h.mem_blocked hq)
      · exact Finset.mem_insert_self q s.blocked
  · rcases mem_parkedOn_block.mp hqa with hOldA | ⟨hA, hqp⟩
    · rcases mem_parkedOn_block.mp hqb with hOldB | ⟨_, hqp⟩
      · exact h.apart a b q hOldA hOldB
      · exact absurd (hqp ▸ hOldA) (hFresh a)
    · rcases mem_parkedOn_block.mp hqb with hOldB | ⟨hB, _⟩
      · exact absurd (hqp ▸ hOldB) (hFresh b)
      · rw [hA, hB]

theorem unparked {m : Nat} (h : Queued s) (hMoved : Unparked addr m s t) : Queued t := by
  have hSub (a : U64) : (t.parkedOn a).Sublist (s.parkedOn a) := by
    by_cases ha : a = addr
    · rw [ha, hMoved.parked]
      exact List.drop_sublist m _
    · rw [hMoved.parkedOn_ne ha]
  refine ⟨fun a => ?_, fun a => (h.nodup a).sublist (hSub a), fun q => ?_, fun a b q hqa hqb =>
    h.apart a b q ((hSub a).subset hqa) ((hSub b).subset hqb)⟩
  · by_cases ha : a = addr
    · rw [ha]
      exact hMoved.nonempty
    · rw [hMoved.elsewhere a ha]
      exact h.nonempty a
  · have hSplit : (s.parkedOn addr).take m ++ (s.parkedOn addr).drop m = s.parkedOn addr :=
      List.take_append_drop m _
    have hDisjoint : ((s.parkedOn addr).take m).Disjoint ((s.parkedOn addr).drop m) :=
      List.disjoint_of_nodup_append (hSplit.symm ▸ h.nodup addr)
    rw [hMoved.blocked, Finset.mem_sdiff, List.mem_toFinset]
    constructor
    · rintro ⟨hq, hStay⟩
      obtain ⟨a, ha⟩ := (h.blocked q).mp hq
      refine ⟨a, ?_⟩
      by_cases hEq : a = addr
      · rw [hEq, ← hSplit, List.mem_append] at ha
        rw [hEq, hMoved.parked]
        exact ha.resolve_left hStay
      · rwa [hMoved.parkedOn_ne hEq]
    · rintro ⟨a, ha⟩
      have hq := (hSub a).subset ha
      refine ⟨h.mem_blocked hq, fun hTaken => ?_⟩
      have hEq : a = addr := h.apart a addr q hq (List.mem_of_mem_take hTaken)
      rw [hEq, hMoved.parked] at ha
      exact hDisjoint hTaken ha

theorem forget (h : Queued s) (p : Pid) : Queued (s.forget p) := by
  refine ⟨fun a => ?_, fun a => ?_, fun q => ?_, fun a b q hqa hqb => ?_⟩
  · simp only [Supervisor.forget, get_filterMapValues]
    cases s.waiting.get a with
    | none => simp
    | some queue =>
      simp only [Option.bind_some, dropFrom]
      split
      · simp
      · rename_i hSome
        simpa using hSome
  · rw [parkedOn_forget]
    exact (h.nodup a).filter _
  · simp only [mem_parkedOn_forget]
    change q ∈ s.blocked.erase p ↔ _
    rw [Finset.mem_erase, h.blocked q]
    constructor
    · rintro ⟨hne, a, ha⟩
      exact ⟨a, ha, hne⟩
    · rintro ⟨a, ha, hne⟩
      exact ⟨hne, a, ha⟩
  · exact h.apart a b q (mem_parkedOn_forget.mp hqa).1 (mem_parkedOn_forget.mp hqb).1

end Queued

/-- The exit of a task leaves the queues consistent, and takes the task out of all of them. -/
theorem Queued.onThreadExit (h : Queued s) (p : Pid) (record : Bool) :
    Queued (s.onThreadExit p record) := by
  simp only [Supervisor.onThreadExit]
  cases s.threads.get p with
  | none => exact h.forget p
  | some thread =>
    have hErased : Queued { s with threads := s.threads.erase p } := h.congr rfl rfl
    obtain ⟨m, hWake⟩ := clearTidWake_unparked hErased thread
    have hWoken := hErased.unparked hWake
    refine Queued.forget (hWoken.congr ?_ ?_) p
    · cases record <;> rfl
    · cases record <;> rfl

end Dtrun.Supervisor
