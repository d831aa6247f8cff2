import Dtrun.Supervisor.Futex
import Dtrun.Supervisor.OnePlace
import Dtrun.Supervisor.Services

/-! # What a wait asks for and the queue forgets

A futex wait names a bit set and a timeout beside the word. `block` keeps the pid and the address
and nothing else, so a wake takes no notice of the bit sets and the deadlock test none of the
timeouts. An observer who writes down each wait as it is made can say what follows.
-/
namespace Dtrun
set_option autoImplicit false
open FiniteMap StateExcept Transition Supervisor

variable {k : Answers} {p : Pid} {s t : Supervisor} {regs : Regs}

/-- The command of a futex call, as `intercept_futex` reads it. -/
def futexCommand (regs : Regs) : U32 := regs.rsi.setWidth 32 &&& FUTEX_CMD_MASK

def IsWait (regs : Regs) : Prop :=
  regs.origRax.toInt = SYS_futex ∧
    (futexCommand regs = FUTEX_WAIT ∨ futexCommand regs = FUTEX_WAIT_BITSET)

instance (regs : Regs) : Decidable (IsWait regs) := inferInstanceAs (Decidable (_ ∧ _))

/-- The bit set of a wait: its own, or every bit. -/
def waitMask (regs : Regs) : U32 :=
  if futexCommand regs = FUTEX_WAIT_BITSET then regs.r9.setWidth 32 else BitVec.allOnes 32

/-- The wait names a time at which it returns by itself. -/
def Timed (regs : Regs) : Prop := regs.r10 ≠ 0

/-- The last wait of each task. -/
abbrev Waits := PidMap Regs

namespace Waits

def mask (g : Waits) (q : Pid) : U32 := ((g.get q).map waitMask).getD (BitVec.allOnes 32)

def note (g : Waits) (_ : World) : Label → Waits
  | .report r => match r.entry with
    | some (p, regs) => if IsWait regs then g.insert p regs else g
    | none => g
  | _ => g

end Waits

/-- `FUTEX_WAKE_BITSET` as `futex(2)` has it: the first `n` of those parked on the word whose bit set
meets `mask` are woken, in order, and everybody else stays. -/
def WokenByMask (g : Waits) (s t : Supervisor) (addr : U64) (n : Nat) (mask : U32) : Prop :=
  ∃ woken, woken = ((s.parkedOn addr).filter fun q => g.mask q &&& mask ≠ 0).take n ∧
    t.runnable = s.runnable ++ woken ∧
    t.parkedOn addr = (s.parkedOn addr).filter fun q => q ∉ woken

theorem take_filter_eq_take_iff {α : Type} {P : α → Bool} (queue : List α) (n : Nat) :
    (queue.filter P).take n = queue.take n ↔ ∀ q ∈ queue.take n, P q = true := by
  constructor
  · intro h q hq
    rw [← h] at hq
    exact (List.mem_filter.mp (List.mem_of_mem_take hq)).2
  · induction queue generalizing n with
    | nil => simp
    | cons head rest ih =>
      intro h
      cases n with
      | zero => simp
      | succ n =>
        have hHead : P head = true := h head List.mem_cons_self
        rw [List.filter_cons_of_pos hHead, List.take_succ_cons, List.take_succ_cons]
        exact congrArg (head :: ·) (ih n fun q hq => h q (List.mem_cons_of_mem _ hq))

theorem filter_not_mem_take {queue : List Pid} (h : queue.Nodup) (n : Nat) :
    (queue.filter fun q => q ∉ queue.take n) = queue.drop n := by
  have hSplit := List.take_append_drop n queue
  have hDisjoint := List.disjoint_of_nodup_append (hSplit.symm ▸ h)
  calc (queue.filter fun q => q ∉ queue.take n)
      = ((queue.take n ++ queue.drop n).filter fun q => q ∉ queue.take n) := by rw [hSplit]
    _ = queue.drop n := by
      rw [List.filter_append, List.filter_eq_nil_iff.mpr, List.filter_eq_self.mpr, List.nil_append]
      · exact fun q hq => decide_eq_true fun hTaken => hDisjoint hTaken hq
      · exact fun q hq => by simp [hq]

/-- The code wakes the head of the queue, which is right when all of it is meant. -/
theorem wokenByMask_iff (h : s.Queued) (g : Waits) {addr val : U64} {mask : U32}
    (hQuiet : Quiet (s.wakes addr [val]) t) :
    WokenByMask g s t addr val.toInt.toNat mask ↔
      ∀ q ∈ (s.parkedOn addr).take val.toInt.toNat, g.mask q &&& mask ≠ 0 := by
  have hMoved := wake_unparked h addr val
  have hRunnable : t.runnable = s.runnable ++ (s.parkedOn addr).take val.toInt.toNat := by
    rw [hQuiet.runnable, ← take_wakeCount]
    exact hMoved.runnable
  have hParked : t.parkedOn addr = (s.parkedOn addr).drop val.toInt.toNat := by
    rw [parkedOn, hQuiet.waiting, ← drop_wakeCount]
    exact hMoved.parked
  have hIff := take_filter_eq_take_iff (P := fun q => decide (g.mask q &&& mask ≠ 0))
    (s.parkedOn addr) val.toInt.toNat
  simp only [decide_eq_true_eq] at hIff
  rw [← hIff]
  constructor
  · rintro ⟨woken, rfl, hJoined, _⟩
    exact List.append_cancel_left (hJoined.symm.trans hRunnable)
  · intro hSame
    refine ⟨_, rfl, ?_, ?_⟩
    · rw [hSame]
      exact hRunnable
    · rw [hSame, filter_not_mem_take (h.nodup addr)]
      exact hParked

namespace World

variable {pid : Pid} {seed : U64}

/-- In every reachable world, a simulated `FUTEX_WAKE_BITSET` wakes whom it should exactly when
nobody within its count at the head of the queue is left out by the bit sets. -/
theorem wakeBitset_iff {x : World × Waits}
    (h : ((system pid seed).observed Waits.note ∅).Reach System.free x)
    (hOpen : x.1.machine.result = none) (k : Answers) (p : Pid) (regs : Regs) (b : Bool)
    (t : Supervisor) (hScheduled : x.1.machine.sv.isScheduled p = true)
    (hMany : 2 ≤ x.1.machine.sv.scheduledCount) (hCmd : futexCommand regs = FUTEX_WAKE_BITSET)
    (hCall : interceptFutex k p regs x.1.machine.sv = .ok b t) :
    WokenByMask x.2 x.1.machine.sv t regs.rdi regs.rdx.toInt.toNat (regs.r9.setWidth 32) ↔
      ∀ q ∈ (x.1.machine.sv.parkedOn regs.rdi).take regs.rdx.toInt.toNat,
        x.2.mask q &&& regs.r9.setWidth 32 ≠ 0 := by
  have hReach : (system pid seed).Reach System.free x.1 := h.unobserved fun _ _ => id
  have hHandled := interceptFutex_handled hScheduled hMany hCall
  exact wokenByMask_iff (parked hReach hOpen).queued x.2 (hHandled.of_wake (.inr hCmd)).1

/-- A task enters a system call; all memory reads as zero. -/
def calls (p : Pid) (regs : Regs) : Label :=
  .report ⟨.ok (.ptraceSyscall p), { zeroMemory with
    syscallInfo := fun _ => .ok .entry
    getregs := fun _ => .ok regs }⟩

/-- A futex call on the word at 4096 with the bit set 1. -/
def masked (futexOp count : U64) : Regs :=
  { origRax := 202, rdi := 4096, rsi := futexOp, rdx := count, r9 := 1 }

theorem masked_run : ∃ x : World × Waits,
    ((system 1 0).observed Waits.note ∅).Reach System.free x ∧ x.1.machine.result = none ∧
      x.1.machine.sv.isScheduled 1 = true ∧ x.1.machine.sv.scheduledCount = 2 ∧
      x.1.machine.sv.parkedOn 4096 = [2] ∧ x.2.mask 2 = 1 := by
  have hRun : (((system 1 0).observed Waits.note ∅).exec System.free (start 1 0 {}, ∅)
      (twoThreads ++ [calls 2 (masked 9 0)])).map (fun x =>
        (x.1.machine.result.isNone, x.1.machine.sv.isScheduled 1, x.1.machine.sv.scheduledCount,
          x.1.machine.sv.parkedOn 4096, x.2.mask 2)) =
      some (true, true, 2, [2], 1) := by decide +kernel
  obtain ⟨x, hExec, hx⟩ := Option.map_eq_some_iff.mp hRun
  simp only [Prod.mk.injEq, Option.isNone_iff_eq_none] at hx
  have hInit : ((system 1 0).observed Waits.note ∅).init (start 1 0 {}, ∅) := ⟨⟨{}, rfl⟩, rfl⟩
  exact ⟨x, System.reach_of_exec hInit hExec, hx⟩

theorem wakeBitset_iff_masked : ∃ (x : World × Waits) (b : Bool) (t : Supervisor),
    ((system 1 0).observed Waits.note ∅).Reach System.free x ∧
      interceptFutex zeroMemory 1 (masked 10 1) x.1.machine.sv = .ok b t ∧
      (WokenByMask x.2 x.1.machine.sv t 4096 1 1 ↔
        ∀ q ∈ (x.1.machine.sv.parkedOn 4096).take 1, x.2.mask q &&& 1 ≠ 0) := by
  obtain ⟨x, hReach, hOpen, hScheduled, hCount, _, _⟩ := masked_run
  obtain ⟨b, t, hCall⟩ :=
    interceptFutex_succeeds (k := zeroMemory) (p := 1) rfl rfl (masked 10 1) x.1.machine.sv
  have hMany : 2 ≤ x.1.machine.sv.scheduledCount := hCount.ge
  exact ⟨x, b, t, hReach, hCall, wakeBitset_iff hReach hOpen zeroMemory 1 (masked 10 1) b t
    hScheduled hMany (by decide) hCall⟩

/-- A wake with the bit set 2 wakes the thread that waits with the bit set 1. -/
theorem not_wakeBitset : ¬ ∀ (pid : Pid) (seed : U64) (x : World × Waits),
    ((system pid seed).observed Waits.note ∅).Reach System.free x →
    x.1.machine.result = none → ∀ (k : Answers) (p : Pid) (regs : Regs) (b : Bool) (t : Supervisor),
      x.1.machine.sv.isScheduled p = true → 2 ≤ x.1.machine.sv.scheduledCount →
      futexCommand regs = FUTEX_WAKE_BITSET → interceptFutex k p regs x.1.machine.sv = .ok b t →
      WokenByMask x.2 x.1.machine.sv t regs.rdi regs.rdx.toInt.toNat (regs.r9.setWidth 32) := by
  intro hAll
  obtain ⟨x, hReach, hOpen, hScheduled, hCount, hParked, hMask⟩ := masked_run
  have hMany : 2 ≤ x.1.machine.sv.scheduledCount := hCount.ge
  obtain ⟨b, t, hCall⟩ := interceptFutex_succeeds (k := zeroMemory) (p := 1) rfl rfl
    { masked 10 1 with r9 := 2 } x.1.machine.sv
  have hWoken := hAll 1 0 x hReach hOpen zeroMemory 1 { masked 10 1 with r9 := 2 } b t hScheduled
    hMany (by decide) hCall
  have hWorld : (system 1 0).Reach System.free x.1 := hReach.unobserved fun _ _ => id
  have hQuiet := ((interceptFutex_handled hScheduled hMany hCall).of_wake (.inr (by decide))).1
  have hMeant := (wokenByMask_iff (parked hWorld hOpen).queued x.2 hQuiet).mp hWoken 2
  change 2 ∈ (x.1.machine.sv.parkedOn 4096).take 1 → x.2.mask 2 &&& 2 ≠ 0 at hMeant
  rw [hParked, hMask] at hMeant
  exact hMeant List.mem_cons_self (by decide)

end World

end Dtrun
