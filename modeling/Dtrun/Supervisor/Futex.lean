import Dtrun.Supervisor.Parking

/-! # What a futex call owes its waiters

`futex(2)` on one side, with the threads that the supervisor has parked in the place of the kernel's
own waiters; `intercept_futex` on the other. The two differ on the width of the counts, on
`FUTEX_WAKE_OP`, and on the priority-inheritance commands, which are left to the kernel.
-/
namespace Dtrun
set_option autoImplicit false
open FiniteMap StateExcept Transition Supervisor

def FUTEX_WAKE_OP : U32 := 5
def FUTEX_LOCK_PI : U32 := 6
def FUTEX_WAIT_REQUEUE_PI : U32 := 11
def FUTEX_LOCK_PI2 : U32 := 13
def FUTEX_PRIVATE_FLAG : U32 := 128
def FUTEX_CLOCK_REALTIME : U32 := 256
def FUTEX_TID_MASK : U32 := 0x3fffffff

namespace FutexCall

variable (regs : Regs)

/-! The arguments as `futex(2)` takes them; the counts are 32 bits wide. -/

def uaddr : U64 := regs.rdi
def uaddr2 : U64 := regs.r8
def op : U32 := regs.rsi.setWidth 32
def cmd : U32 := op regs &&& ~~~(FUTEX_PRIVATE_FLAG ||| FUTEX_CLOCK_REALTIME)
def val : U32 := regs.rdx.setWidth 32
def val2 : U32 := regs.r10.setWidth 32
def val3 : U32 := regs.r9.setWidth 32

/-- The futex is looked up in the caller's address space alone. -/
def isPrivate : Bool := op regs &&& FUTEX_PRIVATE_FLAG ≠ 0

/-- The kernel refuses `FUTEX_CLOCK_REALTIME` for most commands. -/
def Admitted : Prop :=
  op regs &&& FUTEX_CLOCK_REALTIME ≠ 0 → cmd regs = FUTEX_WAIT_BITSET ∨
    cmd regs = FUTEX_WAIT_REQUEUE_PI ∨ cmd regs = FUTEX_LOCK_PI2

end FutexCall

open FutexCall

/-- The comparison that `FUTEX_WAKE_OP` encodes in its last argument, applied to the old value of
the second word. -/
def wakeOpTest (encoded old : U32) : Option Bool :=
  let op := (encoded >>> 28 &&& 7).toNat
  let cmparg := ((encoded.setWidth 12).signExtend 32).toInt
  if 4 < op then none
  else match (encoded >>> 24 &&& 15).toNat with
    | 0 => some (old.toInt = cmparg)
    | 1 => some (old.toInt ≠ cmparg)
    | 2 => some (old.toInt < cmparg)
    | 3 => some (cmparg ≤ old.toInt)
    | 4 => some (old.toInt ≤ cmparg)
    | 5 => some (cmparg < old.toInt)
    | _ => none

/-- What the kernel finds when the call gets to it. A process outside the schedule may have written
to a shared word since the supervisor read it, and one word may lie at several addresses.

* `word`: the contents of memory.
* `futex`: the parked threads that wait on the futex of an address, in the kernel's order; private
  and shared futexes are told apart, and an address that is not aligned or not mapped is refused.
* `mask`: the bit set a thread waits with.
* `self`, `alive`: the caller's own thread id, and which ids are in use.
* `lasting`: whether the timeout at an address is well formed and not over yet. -/
structure FutexContext where
  word : U64 → Option U32
  futex : Bool → U64 → Option (List Pid)
  mask : Pid → U32
  self : U32
  alive : U32 → Bool
  lasting : U64 → Bool

variable (c : FutexContext) (k : Answers) (p : Pid) (s : Supervisor) (regs : Regs)

def FutexContext.waiters (addr : U64) : Option (List Pid) := c.futex (isPrivate regs) addr

/-- A wake compares the count only after it has woken a waiter. -/
def wakeLimit (count : U32) : Nat := max 1 count.toInt.toNat

/-- `futex(2)` would wake the thread, if the parked threads were the kernel's own waiters. -/
inductive Rouses : Pid → Prop
  | wake {queue : List Pid} {q : Pid} (hAdmitted : Admitted regs) (hCmd : cmd regs = FUTEX_WAKE)
      (hQueue : c.waiters regs (uaddr regs) = some queue)
      (hFirst : q ∈ queue.take (wakeLimit (val regs))) : Rouses q
  | wakeBitset {queue : List Pid} {q : Pid} (hAdmitted : Admitted regs)
      (hCmd : cmd regs = FUTEX_WAKE_BITSET) (hQueue : c.waiters regs (uaddr regs) = some queue)
      (hFirst : q ∈ (queue.filter fun x => c.mask x &&& val3 regs ≠ 0).take
        (wakeLimit (val regs))) : Rouses q
  | requeue {queue : List Pid} {q : Pid} (hAdmitted : Admitted regs)
      (hCmd : cmd regs = FUTEX_REQUEUE ∨
        (cmd regs = FUTEX_CMP_REQUEUE ∧ c.word (uaddr regs) = some (val3 regs)))
      (hCount : 0 ≤ (val regs).toInt) (hCount2 : 0 ≤ (val2 regs).toInt)
      (hQueue : c.waiters regs (uaddr regs) = some queue)
      (hTarget : (c.waiters regs (uaddr2 regs)).isSome = true)
      (hFirst : q ∈ queue.take (val regs).toInt.toNat) : Rouses q
  | wakeOp {queue : List Pid} {q : Pid} {old : U32} {test : Bool} (hAdmitted : Admitted regs)
      (hCmd : cmd regs = FUTEX_WAKE_OP) (hQueue : c.waiters regs (uaddr regs) = some queue)
      (hSecond : (c.waiters regs (uaddr2 regs)).isSome = true)
      (hOld : c.word (uaddr2 regs) = some old) (hTest : wakeOpTest (val3 regs) old = some test)
      (hFirst : q ∈ queue.take (wakeLimit (val regs))) : Rouses q
  | wakeOp2 {queue : List Pid} {q : Pid} {old : U32} (hAdmitted : Admitted regs)
      (hCmd : cmd regs = FUTEX_WAKE_OP) (hFirst : (c.waiters regs (uaddr regs)).isSome = true)
      (hQueue : c.waiters regs (uaddr2 regs) = some queue)
      (hOld : c.word (uaddr2 regs) = some old) (hTest : wakeOpTest (val3 regs) old = some true)
      (hSecond : q ∈ queue.take (wakeLimit (val2 regs))) : Rouses q

/-- A waiter of the word that the supervisor has filed under `a` would be woken. -/
def WouldWake (a : U64) : Prop := ∃ q ∈ s.parkedOn a, Rouses c regs q

def Patient : Prop := regs.r10 = 0 ∨ c.lasting regs.r10 = true

/-- `futex(2)` may put its caller to sleep. -/
inductive MayBlock : Prop
  | wait (hAdmitted : Admitted regs) (hCmd : cmd regs = FUTEX_WAIT)
      (hKey : (c.waiters regs (uaddr regs)).isSome = true)
      (hWord : c.word (uaddr regs) = some (val regs)) (hPatient : Patient c regs) : MayBlock
  | waitBitset (hAdmitted : Admitted regs) (hCmd : cmd regs = FUTEX_WAIT_BITSET)
      (hMask : val3 regs ≠ 0) (hKey : (c.waiters regs (uaddr regs)).isSome = true)
      (hWord : c.word (uaddr regs) = some (val regs)) (hPatient : Patient c regs) : MayBlock
  | lockPi {word : U32} (hAdmitted : Admitted regs)
      (hCmd : cmd regs = FUTEX_LOCK_PI ∨ cmd regs = FUTEX_LOCK_PI2)
      (hKey : (c.waiters regs (uaddr regs)).isSome = true) (hWord : c.word (uaddr regs) = some word)
      (hOwner : word &&& FUTEX_TID_MASK ≠ 0 ∧ word &&& FUTEX_TID_MASK ≠ c.self)
      (hAlive : c.alive (word &&& FUTEX_TID_MASK) = true) (hPatient : Patient c regs) : MayBlock
  | waitRequeuePi (hAdmitted : Admitted regs) (hCmd : cmd regs = FUTEX_WAIT_REQUEUE_PI)
      (hApart : uaddr regs ≠ uaddr2 regs)
      (hKey : (c.waiters regs (uaddr regs)).isSome = true)
      (hTarget : (c.waiters regs (uaddr2 regs)).isSome = true)
      (hWord : c.word (uaddr regs) = some (val regs)) (hPatient : Patient c regs) : MayBlock

/-- No wake-up is lost and nobody stalls: whoever `futex(2)` would wake on an address, a thread
parked there is moved to `runnable`; and a call that is left to the kernel, its registers as they
were, does not block there. -/
def Served (t : Supervisor) : Prop :=
  (∀ a, WouldWake c s regs a → ∃ q ∈ s.parkedOn a, q ∈ t.runnable ∧ q ∉ t.parkedOn a) ∧
  (t.effects = s.effects → ¬ MayBlock c regs)

/-- The supervisor reads another word than the one that the call compares with, or none. -/
def Mismatch (expected : U32) : Prop := readU32 k p (uaddr regs) ≠ some expected

/-- The waiter filed under `a` stays parked. -/
inductive Lost (a : U64) : Prop
  /-- It is filed under another address of the word, or the count register is not positive as 64
  bits. -/
  | wake (hCmd : cmd regs = FUTEX_WAKE ∨ cmd regs = FUTEX_WAKE_BITSET)
      (hWhy : a ≠ uaddr regs ∨ regs.rdx.toInt ≤ 0) : Lost a
  | requeue (hCmd : cmd regs = FUTEX_REQUEUE ∨ cmd regs = FUTEX_CMP_REQUEUE)
      (hWhy : a ≠ uaddr regs ∨ regs.rdx.toInt ≤ 0 ∧ regs.r10.toInt ≤ 0) : Lost a
  /-- The word got its expected value only after the supervisor had read it. -/
  | late (hCmd : cmd regs = FUTEX_CMP_REQUEUE) (hRead : Mismatch k p regs (val3 regs)) : Lost a
  | wakeOp (hCmd : cmd regs = FUTEX_WAKE_OP) : Lost a

/-- The calls that wait and are left to the kernel. -/
inductive Left : Prop
  | wait (hCmd : cmd regs = FUTEX_WAIT ∨ cmd regs = FUTEX_WAIT_BITSET)
      (hRead : Mismatch k p regs (val regs)) : Left
  | pi (hCmd : cmd regs = FUTEX_LOCK_PI ∨ cmd regs = FUTEX_LOCK_PI2 ∨
      cmd regs = FUTEX_WAIT_REQUEUE_PI) : Left

/-- The calls that are not served. -/
def Missed : Prop :=
  (∃ a, WouldWake c s regs a ∧ Lost k p regs a) ∨ (MayBlock c regs ∧ Left k p regs)

variable {c k p s regs} {t : Supervisor}

/-- Where the kernel knows the command, the supervisor reads the same one. -/
theorem cmd_masked {x : U32} (h : cmd regs = x) (hx : x &&& FUTEX_CMD_MASK = x) :
    regs.rsi.setWidth 32 &&& FUTEX_CMD_MASK = x := by
  have hMask : ~~~(FUTEX_PRIVATE_FLAG ||| FUTEX_CLOCK_REALTIME) &&& FUTEX_CMD_MASK =
      FUTEX_CMD_MASK := by decide
  calc regs.rsi.setWidth 32 &&& FUTEX_CMD_MASK = cmd regs &&& FUTEX_CMD_MASK := by
        rw [cmd, op, BitVec.and_assoc, hMask]
    _ = x := by rw [h, hx]

/-- What `intercept_futex` does for a scheduled caller among others. -/
inductive FutexHandled (k : Answers) (p : Pid) (s : Supervisor) (regs : Regs) (cmd : U32) :
    Supervisor → Prop
  | passed {t : Supervisor} (hQuiet : Quiet s t) (hSame : t.effects = s.effects)
      (hWait : cmd = FUTEX_WAIT ∨ cmd = FUTEX_WAIT_BITSET →
        readU32 k p regs.rdi ≠ some (regs.rdx.setWidth 32))
      (hWake : ¬ (cmd = FUTEX_WAKE ∨ cmd = FUTEX_WAKE_BITSET))
      (hRequeue : cmd = FUTEX_REQUEUE ∨ cmd = FUTEX_CMP_REQUEUE → cmd = FUTEX_CMP_REQUEUE ∧
        readU32 k p regs.rdi ≠ some (regs.r9.setWidth 32)) : FutexHandled k p s regs cmd t
  | parked {t : Supervisor} (hCmd : cmd = FUTEX_WAIT ∨ cmd = FUTEX_WAIT_BITSET)
      (hRead : readU32 k p regs.rdi = some (regs.rdx.setWidth 32))
      (hSkipped : t.effects ≠ s.effects) : FutexHandled k p s regs cmd t
  | woken {t : Supervisor} (vals : List U64)
      (hCmd : ((cmd = FUTEX_WAKE ∨ cmd = FUTEX_WAKE_BITSET) ∧ vals = [regs.rdx]) ∨
        ((cmd = FUTEX_REQUEUE ∨ cmd = FUTEX_CMP_REQUEUE) ∧ vals = [regs.rdx, regs.r10]))
      (hRead : cmd = FUTEX_CMP_REQUEUE → readU32 k p regs.rdi = some (regs.r9.setWidth 32))
      (hQuiet : Quiet (s.wakes regs.rdi vals) t) (hSkipped : t.effects ≠ s.effects) :
      FutexHandled k p s regs cmd t

theorem skipSyscall_effects {syscall : Int} {retval : U64} {u : Unit}
    (h : skipSyscall k p syscall retval s = .ok u t) : t.effects ≠ s.effects := by
  obtain ⟨regs, _, _, rfl⟩ := skipSyscall_ok.mp h
  simp

theorem wake_effects (s : Supervisor) (addr val : U64) : (s.wake addr val).2.effects = s.effects := by
  rw [wake_frame]

theorem interceptFutex_handled {b : Bool} (hScheduled : s.isScheduled p = true)
    (hMany : 2 ≤ s.scheduledCount) (h : interceptFutex k p regs s = .ok b t) :
    FutexHandled k p s regs (regs.rsi.setWidth 32 &&& FUTEX_CMD_MASK) t := by
  have pass {name : String} {b : Bool}
      (h : (do modify (·.traceFutex p name "pass"); pure false : SupM Bool) s = .ok b t) :
      Quiet s t ∧ t.effects = s.effects := by
    simp only [bind_ok_iff, modify_apply] at h
    obtain ⟨_, _, ⟨⟩, ⟨⟩⟩ := h
    exact ⟨.traceJson _ _ _, rfl⟩
  simp only [interceptFutex, bind_ok_iff, get_apply] at h
  obtain ⟨_, _, ⟨⟩, h⟩ := h
  rw [if_neg (by simp only [hScheduled, not_true_eq_false, false_or]; omega)] at h
  split at h
  · rename_i hWait
    have hNotWake : ¬ (regs.rsi.setWidth 32 &&& FUTEX_CMD_MASK = FUTEX_WAKE ∨
        regs.rsi.setWidth 32 &&& FUTEX_CMD_MASK = FUTEX_WAKE_BITSET) := by
      rcases hWait with hCmd | hCmd <;> rw [hCmd] <;> decide
    have hNotRequeue : ¬ (regs.rsi.setWidth 32 &&& FUTEX_CMD_MASK = FUTEX_REQUEUE ∨
        regs.rsi.setWidth 32 &&& FUTEX_CMD_MASK = FUTEX_CMP_REQUEUE) := by
      rcases hWait with hCmd | hCmd <;> rw [hCmd] <;> decide
    split at h
    · rename_i hWord
      simp only [bind_ok_iff, modify_apply] at h
      obtain ⟨_, skipped, hSkip, _, _, ⟨⟩, ⟨⟩⟩ := h
      have hEffects := skipSyscall_effects hSkip
      exact .parked hWait hWord hEffects
    · rename_i hWord
      obtain ⟨hQuiet, hSame⟩ := pass h
      exact .passed hQuiet hSame (fun _ => hWord) hNotWake fun hb => absurd hb hNotRequeue
  · rename_i hWait
    split at h
    · rename_i hWake
      simp only [bind_ok_iff, set_apply, modify_apply] at h
      obtain ⟨_, _, ⟨⟩, _, skipped, hSkip, _, _, ⟨⟩, ⟨⟩⟩ := h
      have hNotCmp : regs.rsi.setWidth 32 &&& FUTEX_CMD_MASK ≠ FUTEX_CMP_REQUEUE := by
        rcases hWake with hCmd | hCmd <;> rw [hCmd] <;> decide
      refine .woken [regs.rdx] (.inl ⟨hWake, rfl⟩) (absurd · hNotCmp)
        ((skipSyscall_quiet hSkip).trans (.traceJson _ _ _)) ?_
      have hEffects := skipSyscall_effects hSkip
      rwa [wake_effects] at hEffects
    · rename_i hWake
      split at h
      · rename_i hRequeue
        split at h
        · rename_i hWord
          obtain ⟨hQuiet, hSame⟩ := pass h
          exact .passed hQuiet hSame (fun hb => absurd hb hWait) hWake fun _ => hWord
        · rename_i hWord
          simp only [bind_ok_iff, set_apply, modify_apply] at h
          obtain ⟨_, _, ⟨⟩, _, skipped, hSkip, _, _, ⟨⟩, ⟨⟩⟩ := h
          have hRead (hCmp : regs.rsi.setWidth 32 &&& FUTEX_CMD_MASK = FUTEX_CMP_REQUEUE) :
              readU32 k p regs.rdi = some (regs.r9.setWidth 32) := by
            by_contra hOther
            exact hWord ⟨hCmp, hOther⟩
          refine .woken [regs.rdx, regs.r10] (.inr ⟨hRequeue, rfl⟩) hRead
            ((skipSyscall_quiet hSkip).trans (.traceJson _ _ _)) ?_
          have hEffects := skipSyscall_effects hSkip
          rwa [wake_effects, wake_effects] at hEffects
      · rename_i hRequeue
        obtain ⟨hQuiet, hSame⟩ := pass h
        exact .passed hQuiet hSame (fun hb => absurd hb hWait) hWake fun hb => absurd hb hRequeue

theorem interceptFutex_succeeds {other : Regs} (hGet : k.getregs p = .ok other)
    (hSet : k.setregs p = .ok ()) (regs : Regs) : Succeeds (interceptFutex k p regs) := by
  have skip (syscall : Int) (retval : U64) : Succeeds (skipSyscall k p syscall retval) :=
    fun v => ⟨(), _, skipSyscall_ok.mpr ⟨other, hGet, hSet, rfl⟩⟩
  have pass (name : String) : Succeeds
      (do modify (·.traceFutex p name "pass"); pure false : SupM Bool) :=
    .bind (.modify _) fun _ => .pure _
  refine .bind .get fun s => ?_
  split
  · exact pass _
  · split
    · split
      · exact .bind (skip _ _) fun _ => .bind (.modify _) fun _ => .pure _
      · exact pass _
    · split
      · exact .bind (.set _) fun _ => .bind (skip _ _) fun _ => .bind (.modify _) fun _ => .pure _
      · split
        · split
          · exact pass _
          · exact .bind (.set _) fun _ => .bind (skip _ _) fun _ =>
              .bind (.modify _) fun _ => .pure _
        · exact pass _

theorem wakes_moved (h : s.Queued) {addr : U64} (hParked : s.parkedOn addr ≠ []) (vals : List U64) :
    ∃ m, Unparked addr m s (s.wakes addr vals) ∧ (0 < m ↔ ∃ v ∈ vals, 0 < v.toInt) := by
  induction vals generalizing s with
  | nil => exact ⟨0, .none (h.nonempty addr), by simp⟩
  | cons v rest ih =>
    have hFirst := wake_unparked h addr v
    have hLength : 0 < (s.parkedOn addr).length := List.length_pos_iff.mpr hParked
    by_cases hCount : 0 < v.toInt
    · obtain ⟨m, hRest⟩ := (h.unparked hFirst).wakes addr rest
      refine ⟨_, hFirst.trans hRest, ?_⟩
      have hSome : 0 < s.wakeCount addr v := by
        simp only [wakeCount]
        omega
      constructor
      · exact fun _ => ⟨v, List.mem_cons_self, hCount⟩
      · exact fun _ => by omega
    · have hNone : s.wakeCount addr v = 0 := by
        simp only [wakeCount]
        omega
      rw [hNone] at hFirst
      have hStill : (s.wake addr v).2.parkedOn addr ≠ [] := by
        rw [hFirst.parked]
        exact hParked
      obtain ⟨m, hRest, hMoved⟩ := ih (h.unparked hFirst) hStill
      refine ⟨_, hFirst.trans hRest, ?_⟩
      rw [Nat.zero_add, hMoved]
      simp [hCount]

def Moved (s t : Supervisor) (a : U64) : Prop :=
  ∃ q ∈ s.parkedOn a, q ∈ t.runnable ∧ q ∉ t.parkedOn a

theorem not_moved_of_parkedOn {a : U64} (h : t.parkedOn a = s.parkedOn a) : ¬ Moved s t a := by
  rintro ⟨q, hq, _, hNot⟩
  exact hNot (h ▸ hq)

theorem moved_iff (h : s.Queued) {addr : U64} {m : Nat} (hParked : s.parkedOn addr ≠ [])
    (hMoved : Unparked addr m s t) : Moved s t addr ↔ 0 < m := by
  constructor
  · intro hSome
    by_contra hNone
    obtain rfl : m = 0 := by omega
    exact not_moved_of_parkedOn hMoved.parked hSome
  · intro hPos
    obtain ⟨q, rest, hQueue⟩ := List.exists_cons_of_ne_nil hParked
    have hTake : q ∈ (s.parkedOn addr).take m := by
      obtain ⟨n, rfl⟩ : ∃ n, m = n + 1 := ⟨m - 1, by omega⟩
      rw [hQueue]
      exact List.mem_cons_self
    refine ⟨q, List.mem_of_mem_take hTake, ?_, ?_⟩
    · rw [hMoved.runnable]
      exact List.mem_append_right _ hTake
    · rw [hMoved.parked]
      have hSplit := List.take_append_drop m (s.parkedOn addr)
      exact fun hDrop => List.disjoint_of_nodup_append (hSplit.symm ▸ h.nodup addr) hTake hDrop

theorem Moved.congr {v : Supervisor} {a : U64} (hQuiet : Quiet v t) : Moved s t a ↔ Moved s v a := by
  simp only [Moved, parkedOn, hQuiet.runnable, hQuiet.waiting]

/-- A wake reaches the threads filed under its own address, and none filed under another. -/
theorem moved_wakes_iff (h : s.Queued) {addr a : U64} {vals : List U64}
    (hQuiet : Quiet (s.wakes addr vals) t) (hParked : s.parkedOn a ≠ []) :
    Moved s t a ↔ a = addr ∧ ∃ v ∈ vals, 0 < v.toInt := by
  rw [Moved.congr hQuiet]
  by_cases ha : a = addr
  · subst ha
    obtain ⟨m, hMoved, hPos⟩ := wakes_moved h hParked vals
    rw [moved_iff h hParked hMoved, hPos]
    simp
  · obtain ⟨m, hMoved⟩ := h.wakes addr vals
    have hStill : (s.wakes addr vals).parkedOn a = s.parkedOn a := by
      simp only [parkedOn, hMoved.elsewhere a ha]
    exact iff_of_false (not_moved_of_parkedOn hStill) fun hBoth => ha hBoth.1

/-! ## Which calls are served -/

theorem Rouses.cases_cmd {q : Pid} (h : Rouses c regs q) :
    (cmd regs = FUTEX_WAKE ∨ cmd regs = FUTEX_WAKE_BITSET) ∨
      (cmd regs = FUTEX_REQUEUE ∨ cmd regs = FUTEX_CMP_REQUEUE) ∨ cmd regs = FUTEX_WAKE_OP := by
  cases h with
  | wake hAdmitted hCmd => exact .inl (.inl hCmd)
  | wakeBitset hAdmitted hCmd => exact .inl (.inr hCmd)
  | requeue hAdmitted hCmd => exact .inr (.inl (hCmd.imp_right And.left))
  | wakeOp hAdmitted hCmd => exact .inr (.inr hCmd)
  | wakeOp2 hAdmitted hCmd => exact .inr (.inr hCmd)

theorem MayBlock.cases_cmd (h : MayBlock c regs) :
    (cmd regs = FUTEX_WAIT ∨ cmd regs = FUTEX_WAIT_BITSET) ∨
      (cmd regs = FUTEX_LOCK_PI ∨ cmd regs = FUTEX_LOCK_PI2 ∨ cmd regs = FUTEX_WAIT_REQUEUE_PI) := by
  cases h with
  | wait hAdmitted hCmd => exact .inl (.inl hCmd)
  | waitBitset hAdmitted hCmd => exact .inl (.inr hCmd)
  | lockPi hAdmitted hCmd => exact .inr (hCmd.imp_right .inl)
  | waitRequeuePi hAdmitted hCmd => exact .inr (.inr (.inr hCmd))

namespace FutexHandled

variable {sc : U32}

theorem of_wake (h : FutexHandled k p s regs sc t)
    (hCmd : sc = FUTEX_WAKE ∨ sc = FUTEX_WAKE_BITSET) :
    Quiet (s.wakes regs.rdi [regs.rdx]) t ∧ t.effects ≠ s.effects := by
  cases h with
  | passed hQuiet hSame hWait hWake hRequeue => exact absurd hCmd hWake
  | parked hPark hRead hSkipped =>
    rcases hCmd with rfl | rfl
    · exact absurd hPark (by decide)
    · exact absurd hPark (by decide)
  | woken vals hWhich hRead hQuiet hSkipped =>
    rcases hWhich with ⟨_, rfl⟩ | ⟨hOther, _⟩
    · exact ⟨hQuiet, hSkipped⟩
    · rcases hCmd with rfl | rfl
      · exact absurd hOther (by decide)
      · exact absurd hOther (by decide)

theorem of_requeue (h : FutexHandled k p s regs sc t)
    (hCmd : sc = FUTEX_REQUEUE ∨ (sc = FUTEX_CMP_REQUEUE ∧
      readU32 k p regs.rdi = some (regs.r9.setWidth 32))) :
    Quiet (s.wakes regs.rdi [regs.rdx, regs.r10]) t ∧ t.effects ≠ s.effects := by
  cases h with
  | passed hQuiet hSame hWait hWake hRequeue =>
    obtain ⟨hCmp, hWord⟩ := hRequeue (hCmd.imp_right And.left)
    rcases hCmd with hCmd | ⟨_, hMatch⟩
    · rw [hCmd] at hCmp
      exact absurd hCmp (by decide)
    · exact absurd hMatch hWord
  | parked hPark hRead hSkipped =>
    rcases hCmd with rfl | ⟨rfl, _⟩
    · exact absurd hPark (by decide)
    · exact absurd hPark (by decide)
  | woken vals hWhich hRead hQuiet hSkipped =>
    rcases hWhich with ⟨hOther, _⟩ | ⟨_, rfl⟩
    · rcases hCmd with rfl | ⟨rfl, _⟩
      · exact absurd hOther (by decide)
      · exact absurd hOther (by decide)
    · exact ⟨hQuiet, hSkipped⟩

theorem of_other (h : FutexHandled k p s regs sc t)
    (hWait : ¬ (sc = FUTEX_WAIT ∨ sc = FUTEX_WAIT_BITSET))
    (hWake : ¬ (sc = FUTEX_WAKE ∨ sc = FUTEX_WAKE_BITSET))
    (hRequeue : ¬ (sc = FUTEX_REQUEUE ∨ sc = FUTEX_CMP_REQUEUE)) :
    Quiet s t ∧ t.effects = s.effects := by
  cases h with
  | passed hQuiet hSame _ _ _ => exact ⟨hQuiet, hSame⟩
  | parked hPark _ _ => exact absurd hPark hWait
  | woken vals hWhich _ _ _ =>
    rcases hWhich with ⟨hOther, _⟩ | ⟨hOther, _⟩
    · exact absurd hOther hWake
    · exact absurd hOther hRequeue

theorem of_mismatch (h : FutexHandled k p s regs sc t) (hCmd : sc = FUTEX_CMP_REQUEUE)
    (hRead : readU32 k p regs.rdi ≠ some (regs.r9.setWidth 32)) : Quiet s t := by
  cases h with
  | passed hQuiet _ _ _ _ => exact hQuiet
  | parked hPark _ _ =>
    subst hCmd
    exact absurd hPark (by decide)
  | woken vals hWhich hMatch _ _ => exact absurd (hMatch hCmd) hRead

theorem of_wait (h : FutexHandled k p s regs sc t) (hCmd : sc = FUTEX_WAIT ∨ sc = FUTEX_WAIT_BITSET) :
    t.effects = s.effects ↔ readU32 k p regs.rdi ≠ some (regs.rdx.setWidth 32) := by
  cases h with
  | passed _ hSame hWait _ _ => exact iff_of_true hSame (hWait hCmd)
  | parked _ hRead hSkipped => exact iff_of_false hSkipped (not_not_intro hRead)
  | woken vals hWhich _ _ _ =>
    rcases hWhich with ⟨hOther, _⟩ | ⟨hOther, _⟩
    all_goals
      rcases hCmd with rfl | rfl <;> exact absurd hOther (by decide)

end FutexHandled

section

variable {a : U64} (hHandled : FutexHandled k p s regs (regs.rsi.setWidth 32 &&& FUTEX_CMD_MASK) t)

include hHandled

theorem lost_of_wake (h : s.Queued) (hParked : s.parkedOn a ≠ [])
    (hCmd : cmd regs = FUTEX_WAKE ∨ cmd regs = FUTEX_WAKE_BITSET) :
    Moved s t a ↔ ¬ Lost k p regs a := by
  have hQuiet := (hHandled.of_wake (hCmd.imp (cmd_masked · (by decide))
    (cmd_masked · (by decide)))).1
  rw [moved_wakes_iff h hQuiet hParked]
  simp only [List.mem_singleton, exists_eq_left]
  constructor
  · rintro ⟨rfl, hCount⟩ (⟨_, hWhy⟩ | ⟨hOther, _⟩ | ⟨hOther, _⟩ | hOther)
    · rcases hWhy with hNot | hWhy
      · exact hNot rfl
      · omega
    all_goals
      rcases hCmd with hCmd | hCmd <;> rw [hCmd] at hOther <;> exact absurd hOther (by decide)
  · intro hKept
    by_contra hNot
    refine hKept (.wake hCmd ?_)
    rw [not_and_or] at hNot
    exact hNot.imp_right Int.not_lt.mp

theorem lost_of_requeue (h : s.Queued) (hParked : s.parkedOn a ≠ [])
    (hCmd : cmd regs = FUTEX_REQUEUE ∨ cmd regs = FUTEX_CMP_REQUEUE) :
    Moved s t a ↔ ¬ Lost k p regs a := by
  by_cases hLate : cmd regs = FUTEX_CMP_REQUEUE ∧ Mismatch k p regs (val3 regs)
  · have hQuiet := hHandled.of_mismatch (cmd_masked hLate.1 (by decide)) hLate.2
    exact iff_of_false (not_moved_of_parkedOn (by simp only [parkedOn, hQuiet.waiting]))
      fun hKept => hKept (.late hLate.1 hLate.2)
  · have hMatch : cmd regs = FUTEX_REQUEUE ∨ (cmd regs = FUTEX_CMP_REQUEUE ∧
        readU32 k p (uaddr regs) = some (val3 regs)) :=
      hCmd.imp_right fun hCmp => ⟨hCmp, by_contra fun hRead => hLate ⟨hCmp, hRead⟩⟩
    have hQuiet := (hHandled.of_requeue (hMatch.imp (cmd_masked · (by decide))
      (And.imp_left (cmd_masked · (by decide))))).1
    rw [moved_wakes_iff h hQuiet hParked]
    simp only [List.mem_cons, List.not_mem_nil, or_false, exists_eq_or_imp, exists_eq_left]
    constructor
    · rintro ⟨rfl, hCount⟩ (⟨hOther, _⟩ | ⟨_, hWhy⟩ | ⟨hCmp, hRead⟩ | hOther)
      · rcases hCmd with hCmd | hCmd <;> rw [hCmd] at hOther <;> exact absurd hOther (by decide)
      · rcases hWhy with hNot | hWhy
        · exact hNot rfl
        · omega
      · exact hLate ⟨hCmp, hRead⟩
      · rcases hCmd with hCmd | hCmd <;> rw [hCmd] at hOther <;> exact absurd hOther (by decide)
    · intro hKept
      by_contra hNot
      refine hKept (.requeue hCmd ?_)
      rw [not_and_or] at hNot
      exact hNot.imp_right fun hCount => by omega

/-- A waiter that would be woken is moved, unless it is lost. -/
theorem moved_iff_not_lost (h : s.Queued) (hWould : WouldWake c s regs a) :
    Moved s t a ↔ ¬ Lost k p regs a := by
  obtain ⟨q, hq, hRouses⟩ := hWould
  have hParked := List.ne_nil_of_mem hq
  rcases hRouses.cases_cmd with hCmd | hCmd | hCmd
  · exact lost_of_wake hHandled h hParked hCmd
  · exact lost_of_requeue hHandled h hParked hCmd
  · obtain ⟨hQuiet, _⟩ := hHandled.of_other (by rw [cmd_masked hCmd (by decide)]; decide)
      (by rw [cmd_masked hCmd (by decide)]; decide) (by rw [cmd_masked hCmd (by decide)]; decide)
    exact iff_of_false (not_moved_of_parkedOn (by simp only [parkedOn, hQuiet.waiting]))
      fun hKept => hKept (.wakeOp hCmd)

theorem same_iff_left (hBlock : MayBlock c regs) : t.effects = s.effects ↔ Left k p regs := by
  rcases hBlock.cases_cmd with hCmd | hCmd
  · have hMasked : regs.rsi.setWidth 32 &&& FUTEX_CMD_MASK = FUTEX_WAIT ∨
        regs.rsi.setWidth 32 &&& FUTEX_CMD_MASK = FUTEX_WAIT_BITSET :=
      hCmd.imp (cmd_masked · (by decide)) (cmd_masked · (by decide))
    rw [hHandled.of_wait hMasked]
    constructor
    · exact fun hRead => .wait hCmd hRead
    · rintro (⟨_, hRead⟩ | hOther)
      · exact hRead
      · rcases hCmd with hCmd | hCmd <;> rw [hCmd] at hOther <;> exact absurd hOther (by decide)
  · refine iff_of_true ?_ (.pi hCmd)
    obtain ⟨x, hx, hApart⟩ : ∃ x, regs.rsi.setWidth 32 &&& FUTEX_CMD_MASK = x ∧
        ¬ (x = FUTEX_WAIT ∨ x = FUTEX_WAIT_BITSET) ∧ ¬ (x = FUTEX_WAKE ∨ x = FUTEX_WAKE_BITSET) ∧
        ¬ (x = FUTEX_REQUEUE ∨ x = FUTEX_CMP_REQUEUE) := by
      rcases hCmd with hCmd | hCmd | hCmd
      · exact ⟨_, cmd_masked hCmd (by decide), by decide⟩
      · exact ⟨_, cmd_masked hCmd (by decide), by decide⟩
      · exact ⟨_, cmd_masked hCmd (by decide), by decide⟩
    rw [hx] at hHandled
    exact (hHandled.of_other hApart.1 hApart.2.1 hApart.2.2).2

end

/-- In a state whose queues are consistent, a call of a scheduled thread among others is served
exactly when it is not one of the missed ones. -/
theorem served_iff {b : Bool} (h : s.Queued) (hScheduled : s.isScheduled p = true)
    (hMany : 2 ≤ s.scheduledCount) (hCall : interceptFutex k p regs s = .ok b t) :
    Served c s regs t ↔ ¬ Missed c k p s regs := by
  have hHandled := interceptFutex_handled hScheduled hMany hCall
  rw [Missed, not_or, not_exists, not_and]
  refine and_congr (forall_congr' fun a => ?_) ?_
  · rw [not_and]
    exact imp_congr_right fun hWould => moved_iff_not_lost hHandled h hWould
  · rw [← not_and, ← not_and, and_comm]
    exact not_congr (and_congr_right fun hBlock => same_iff_left hHandled hBlock)

/-- The init creates a thread, which waits on the word at 4096; all memory reads as zero. -/
def waitingThread : List Label :=
  [.report (.enters 1 { origRax := 56, rdi := threadFlags }), .spawn 1 2 true true,
   .report (.created 1 .clone 2), .report (.plain (.stopped 2 .SIGSTOP)), .report (.leaves 1),
   .report ⟨.ok (.ptraceSyscall 2), {
      syscallInfo := fun _ => .ok .entry
      getregs := fun _ => .ok { origRax := 202, rdi := 4096 }
      readMem := fun _ _ n => .ok (List.replicate n 0) }⟩]

/-- Registers of a futex call on that word, with a count of one. -/
def callOn (futexOp : U64) : Regs :=
  { origRax := 202, rdi := 4096, rsi := futexOp, rdx := 1, r8 := 8192 }

def zeroMemory : Answers := { readMem := fun _ _ n => .ok (List.replicate n 0) }

theorem waitingThread_run : ∃ w,
    (World.system 1 0).exec System.free (World.start 1 0 {}) waitingThread = some w ∧
      w.machine.result = none ∧ w.machine.sv.isScheduled 1 = true ∧
      w.machine.sv.scheduledCount = 2 ∧ w.machine.sv.parkedOn 4096 = [2] := by
  have hRun : ((World.system 1 0).exec System.free (World.start 1 0 {}) waitingThread).map
      (fun w => (w.machine.result.isNone, w.machine.sv.isScheduled 1,
        w.machine.sv.scheduledCount, w.machine.sv.parkedOn 4096)) =
      some (true, true, 2, [2]) := by decide +kernel
  obtain ⟨w, hExec, hw⟩ := Option.map_eq_some_iff.mp hRun
  simp only [Prod.mk.injEq, Option.isNone_iff_eq_none] at hw
  exact ⟨w, hExec, hw⟩

/-- The kernel reads zeros as well, and finds the thread on the one word. -/
def sharedWord : FutexContext where
  word := fun _ => some 0
  futex := fun _ addr => some (if addr = 4096 then [2] else [])
  mask := fun _ => 0xffffffff
  self := 1
  alive := fun _ => false
  lasting := fun _ => true

end Dtrun
