import Dtrun.Supervisor.Replay
import Dtrun.Supervisor.Seeds

/-! # The virtual clock over a run

The clocks that advance share one counter, which is multiplied by the step before the quotient is
taken. The product leaves the 64 bits with the read numbered 18446744073710, and the clock starts
again near zero.
-/
namespace Dtrun
set_option autoImplicit false
open FiniteMap StateExcept Transition Supervisor

def nanos (v : U64 × U64) : Nat := v.1.toNat * 1000000000 + v.2.toNat

def clockAt (i : Nat) : U64 × U64 :=
  (BitVec.ofNat 64 i * MONO_STEP_NS / 1000000000, BitVec.ofNat 64 i * MONO_STEP_NS % 1000000000)

/-- The task that is reported to read a clock that advances, if the kernel takes the registers that
skip the call. -/
def Report.readsMonotonic (r : Report) : Option Pid :=
  r.entry.bind fun e => match Draw.of e.2, r.answers.setregs e.1 with
    | some (.clock _ clk), .ok () =>
      if clk = CLOCK_MONOTONIC ∨ clk = CLOCK_MONOTONIC_COARSE ∨ clk = CLOCK_BOOTTIME then some e.1
      else none
    | _, _ => none

def Label.readsMonotonic : Label → Bool
  | .report r => r.readsMonotonic.isSome
  | _ => false

/-- What a read leaves: the bytes put into its task, and the result that the call is to return. -/
structure Reading where
  bytes : List Byte
  answer : Option U64

namespace Reading

/-- The `timespec` that the task finds in its buffer. -/
def time (v : Reading) : U64 × U64 := (leU64 v.bytes, leU64 (v.bytes.drop 8))

def of (i : Nat) : Reading := ⟨toLeBytes (clockAt i).1 ++ toLeBytes (clockAt i).2, some 0⟩

end Reading

/-- What such reads of a run leave, in their order. -/
def readings (values : List Reading) (w : World) : Label → List Reading
  | .report r => values ++ (r.readsMonotonic.map fun p =>
      ⟨(w.machine.step r).sv.written,
        ((w.machine.step r).sv.pending.get p).map PendingInject.retval⟩).toList
  | _ => values

/-- Every read is answered, which one that broke off would not be, and the clock runs by one step a
read. -/
structure Steady (values : List Reading) : Prop where
  answered : ∀ v ∈ values, v.bytes.length = 16 ∧ v.answer = some 0
  nsec : ∀ v ∈ values, v.time.2.toNat < 1000000000
  steps : ∀ i v, values[i]? = some v → nanos v.time = 1000000 * i
  increasing : values.Pairwise fun v v' => nanos v.time < nanos v'.time

variable {r : Report} {p pid : Pid} {seed : U64} {values : List Reading}

theorem toNat_product (i : Nat) :
    (BitVec.ofNat 64 i * MONO_STEP_NS).toNat = i * 1000000 % 2 ^ 64 := by
  have hStep : MONO_STEP_NS.toNat = 1000000 := by decide
  rw [BitVec.toNat_mul, BitVec.toNat_ofNat, hStep, Nat.mod_mul_mod]

theorem clockAt_sec (i : Nat) : (clockAt i).1.toNat = i * 1000000 % 2 ^ 64 / 1000000000 := by
  rw [clockAt, BitVec.toNat_udiv, toNat_product]
  rfl

theorem clockAt_nsec (i : Nat) : (clockAt i).2.toNat = i * 1000000 % 2 ^ 64 % 1000000000 := by
  rw [clockAt, BitVec.toNat_umod, toNat_product]
  rfl

theorem nanos_clockAt (i : Nat) : nanos (clockAt i) = i * 1000000 % 2 ^ 64 := by
  rw [nanos, clockAt_sec, clockAt_nsec, Nat.div_add_mod']

theorem Reading.time_of (i : Nat) : (Reading.of i).time = clockAt i := by
  have hFirst : leU64 (toLeBytes (clockAt i).1 ++ toLeBytes (clockAt i).2) = (clockAt i).1 := by
    rw [leU64, List.take_left' (toLeBytes_length _),
      ← List.take_of_length_le (Nat.le_of_eq (toLeBytes_length (clockAt i).1))]
    exact leU64_toLeBytes _
  rw [time, Reading.of, hFirst, List.drop_left' (toLeBytes_length _), leU64_toLeBytes]

/-- The reads up to the one at which the product is cut off. -/
theorem steady_range_iff (n : Nat) :
    Steady ((List.range n).map Reading.of) ↔ n ≤ 18446744073710 := by
  constructor
  · intro hSteady
    by_contra hMore
    obtain ⟨i, hi⟩ : ∃ i, i = 18446744073710 := ⟨_, rfl⟩
    have hCut : ((List.range n).map Reading.of)[i]? = some (Reading.of i) := by
      rw [List.getElem?_map, List.getElem?_range (by omega), Option.map_some]
    have hNanos := hSteady.steps _ _ hCut
    rw [Reading.time_of, nanos_clockAt] at hNanos
    omega
  · intro hFew
    have whole (i : Nat) (hi : i < n) : nanos (Reading.of i).time = 1000000 * i := by
      rw [Reading.time_of, nanos_clockAt]
      omega
    constructor
    · intro v hv
      obtain ⟨i, _, rfl⟩ := List.mem_map.mp hv
      simp [Reading.of]
    · intro v hv
      obtain ⟨i, _, rfl⟩ := List.mem_map.mp hv
      rw [Reading.time_of, clockAt_nsec]
      exact Nat.mod_lt _ (Nat.succ_pos _)
    · intro i v hv
      rw [List.getElem?_map] at hv
      obtain ⟨j, hj, rfl⟩ := Option.map_eq_some_iff.mp hv
      obtain ⟨hi, rfl⟩ := List.getElem?_eq_some_iff.mp hj
      rw [List.getElem_range]
      exact whole i (by simpa using hi)
    · rw [List.pairwise_map]
      refine List.Pairwise.imp_of_mem (fun {a b} ha hb hLess => ?_) List.pairwise_lt_range
      rw [whole a (List.mem_range.mp ha), whole b (List.mem_range.mp hb)]
      omega

theorem Report.readsMonotonic_eq_some (h : r.readsMonotonic = some p) : ∃ regs ts clk,
    r.entry = some (p, regs) ∧ Draw.of regs = some (.clock ts clk) ∧
      r.answers.setregs p = .ok () ∧
      (clk = CLOCK_MONOTONIC ∨ clk = CLOCK_MONOTONIC_COARSE ∨ clk = CLOCK_BOOTTIME) := by
  obtain ⟨⟨q, regs⟩, hEntry, hRead⟩ := Option.bind_eq_some_iff.mp h
  split at hRead
  · rename_i ts clk hDraw hSet
    split at hRead
    · rename_i hClk
      cases hRead
      exact ⟨regs, ts, clk, hEntry, hDraw, hSet, hClk⟩
    · cases hRead
  · cases hRead

theorem Services.observe_tick (v : Services) (hGranted : ∀ p regs d, r.entry = some (p, regs) →
    Draw.of regs = some d → r.answers.setregs p = .ok ()) : (v.observe r).tick =
      v.tick + BitVec.ofNat 64 (if r.readsMonotonic.isSome then 1 else 0) := by
  cases hEntry : r.entry with
  | none => simp [observe, Report.readsMonotonic, hEntry]
  | some e =>
    obtain ⟨p, regs⟩ := e
    simp only [observe, Report.readsMonotonic, hEntry, Option.bind_some, entered]
    cases hDraw : Draw.of regs with
    | none =>
      change (if _ then ({ v with groupExiting := true } : Services) else v).tick = _
      split
      · simp
      · simp
    | some d =>
      rw [hGranted p regs d hEntry hDraw]
      cases d with
      | random buf len => simp [draw, Draw.ticks]
      | timeofday tv => simp [draw, Draw.ticks]
      | clock ts clk =>
        simp only [draw, Draw.ticks]
        split
        · rfl
        · rfl

namespace Machine

variable {m : Machine}

theorem step_injection {regs : Regs} {d : Draw} (hOpen : m.result = none)
    (hWhole : r.answers.Whole) (hEntry : r.entry = some (p, regs)) (hDraw : Draw.of regs = some d)
    (hSet : r.answers.setregs p = .ok ()) :
    ((m.step r).sv.pending.get p).map PendingInject.retval = some d.retval := by
  obtain ⟨hStatus, hAnswer⟩ := Report.entry_eq_some.mp hEntry
  have hRegs := Answers.getregs_of_entry hAnswer
  obtain ⟨v, nr, event, detail, _, hRun⟩ := onSyscallEntry_injects hRegs hDraw
    ({ m.sv with effects := [] } : Supervisor)
  obtain ⟨t, hInject, _, hPending, _⟩ := @inject_taken r.answers p regs d.addr
    (d.bytes m.sv.rng m.sv.tick) nr d.retval event detail _ hRegs hSet
    (fun _ => hWhole p d.addr _) v
  have hEntered : onSyscallEntry r.answers p { m.sv with effects := [] } = .ok false t :=
    hRun.trans (bind_of_ok hInject)
  have hBase : (m.step r).sv.base = t.base := by
    rw [step_sv hOpen hStatus, pass_base, dispatch_base]
    simp only [dispatchSyscall_base, Answers.op_of_entry hAnswer, hEntered]
    rfl
  have hSame : (m.step r).sv.pending = t.pending :=
    congrArg (fun b => b.core.pending) hBase
  rw [hSame, hPending, Map.get_insert_self]
  rfl

/-- The read numbered `n` finds the clock at `n` in its buffer. -/
theorem step_reading {n : Nat} (hOpen : m.result = none) (hWhole : r.answers.Whole)
    (hRead : r.readsMonotonic = some p) (hTick : m.sv.tick = BitVec.ofNat 64 n) :
    (⟨(m.step r).sv.written, ((m.step r).sv.pending.get p).map PendingInject.retval⟩ : Reading) =
      Reading.of n := by
  obtain ⟨regs, ts, clk, hEntry, hDraw, hSet, hClk⟩ := Report.readsMonotonic_eq_some hRead
  rw [step_drawn hOpen hWhole hEntry hDraw, step_injection hOpen hWhole hEntry hDraw hSet,
    Draw.bytes, if_pos hClk, hTick]
  rfl

theorem step_tick (hOpen : m.result = none) (hNext : (m.step r).result = none) :
    (m.step r).sv.tick =
      m.sv.tick + BitVec.ofNat 64 (if r.readsMonotonic.isSome then 1 else 0) := by
  have hServices := congrArg Services.tick (step_services (r := r) hOpen)
  refine hServices.trans (Services.observe_tick m.services fun p regs d hEntry hDraw => ?_)
  exact step_granted hOpen hNext hEntry hDraw

end Machine

namespace World

/-- The `i`-th read has left what the clock shows at `i`, and the counter is their number. -/
theorem readings_eq {x : World × List Reading}
    (h : ((system pid seed).observed readings []).Reach (fun _ l => l.Whole) x) :
    x.2 = (List.range x.2.length).map Reading.of ∧
      (x.1.machine.result = none → x.1.machine.sv.tick = BitVec.ofNat 64 x.2.length) := by
  induction h with
  | @init x hInit =>
    obtain ⟨⟨k, hStart⟩, hNone⟩ := hInit
    have hServices : x.1.machine.services = ⟨pid, false, Prng.new seed, 0, []⟩ := by
      rw [hStart]
      exact Machine.start_services
    rw [hNone]
    exact ⟨rfl, fun _ => congrArg Services.tick hServices⟩
  | @step x y l hReach hWhole hNext ih =>
    obtain ⟨hStep, hNote⟩ := System.observed_step hNext
    obtain ⟨hValues, hTick⟩ := ih
    cases l with
    | spawn p c thread vm =>
      rw [spawn_machine hStep, hNote]
      exact ⟨hValues, hTick⟩
    | exec p =>
      rw [exec_machine hStep, hNote]
      exact ⟨hValues, hTick⟩
    | report r =>
      obtain ⟨hOpen, _, hMachine, _⟩ := observe_eq_some hStep
      rw [hMachine, hNote]
      simp only [readings]
      cases hRead : r.readsMonotonic with
      | none =>
        simp only [Option.map_none, Option.toList_none, List.append_nil]
        refine ⟨hValues, fun hStill => ?_⟩
        rw [Machine.step_tick hOpen hStill, hTick hOpen, hRead]
        exact BitVec.add_zero _
      | some p =>
        simp only [Option.map_some, Option.toList_some, List.length_append, List.length_singleton]
        refine ⟨?_, fun hStill => ?_⟩
        · rw [Machine.step_reading hOpen hWhole hRead (hTick hOpen), List.range_succ,
            List.map_append, ← hValues]
          rfl
        · rw [Machine.step_tick hOpen hStill, hTick hOpen, hRead, BitVec.ofNat_add]
          rfl

theorem readings_length {ok : World × List Reading → Label → Prop}
    {x y : World × List Reading} {labels : List Label}
    (h : ((system pid seed).observed readings []).Run ok x labels y) :
    y.2.length = x.2.length + (labels.filter Label.readsMonotonic).length := by
  induction h with
  | nil _ => rfl
  | @cons x u y l labels _ hNext _ ih =>
    have hNote : u.2.length = x.2.length + if l.readsMonotonic then 1 else 0 := by
      rw [(System.observed_step hNext).2]
      cases l with
      | spawn p c thread vm => rfl
      | exec p => rfl
      | report r =>
        cases hRead : r.readsMonotonic with
        | none => simp [readings, Label.readsMonotonic, hRead]
        | some p => simp [readings, Label.readsMonotonic, hRead]
    rw [ih, hNote, List.filter_cons]
    split
    · rw [List.length_cons]
      omega
    · rfl

/-- The monotonic clock is steady in a run exactly as long as it is read that often at most. -/
theorem steady_iff {x : World × List Reading}
    (h : ((system pid seed).observed readings []).Reach (fun _ l => l.Whole) x) :
    Steady x.2 ↔ x.2.length ≤ 18446744073710 := by
  rw [(readings_eq h).1, List.length_map, List.length_range]
  exact steady_range_iff _

/-- The init reads the monotonic clock and returns from the call. -/
def readsClock : List Label :=
  [.report (.enters 1 { origRax := 228, rdi := 1, rsi := 4096 }), .report (.leaves 1)]

/-- The init alone and running, with no call under way. -/
structure Solitary (w : World) : Prop where
  result : w.machine.result = none
  awaits : w.machine.awaits = []
  threads : w.machine.sv.threads = AList.singleton 1 ⟨0, 0, 0, true⟩
  runnable : w.machine.sv.runnable = []
  blocked : w.machine.sv.blocked = ∅
  current : w.machine.sv.current = some 1
  lastVtid : w.machine.sv.lastVtid = some 0
  sigPending : w.machine.sv.sigPending = ∅
  pending : w.machine.sv.pending = ∅
  tracees : w.tracees = (alone 1).setPhase 1 .released

theorem solitary_start : Solitary (start 1 0 {}) := by
  constructor
  all_goals rfl

theorem Solitary.reads {w : World} (h : Solitary w) : ∃ w',
    (system 1 0).exec System.free w readsClock = some w' ∧ Solitary w' := by
  obtain ⟨⟨sv, awaits, result, log⟩, tracees⟩ := w
  obtain ⟨pid, rng, tick, pending, seq, threads, vtidNext, runnable, pendingStart, stoppedPending,
    blocked, waiting, current, lastVtid, sigPending, clonePending, groupExiting, trace,
    effects⟩ := sv
  obtain ⟨hResult, hAwaits, hThreads, hRunnable, hBlocked, hCurrent, hLast, hSig, hPending,
    hTracees⟩ := h
  simp only at hResult hAwaits hThreads hRunnable hBlocked hCurrent hLast hSig hPending hTracees
  subst hResult hAwaits hThreads hRunnable hBlocked hCurrent hLast hSig hPending hTracees
  refine ⟨_, rfl, ?_⟩
  constructor
  all_goals rfl

theorem readsClock_whole : ∀ l ∈ readsClock, l.Whole := by
  simp [readsClock, Label.Whole, Answers.Whole, Report.enters, Report.leaves]

theorem solitary_run (n : Nat) : ∃ x : World × List Reading,
    ((system 1 0).observed readings []).Run (fun _ l => l.Whole) (start 1 0 {}, [])
      (List.replicate n readsClock).flatten x ∧ Solitary x.1 ∧ x.2.length = n := by
  induction n with
  | zero => exact ⟨_, .nil _, solitary_start, rfl⟩
  | succ n ih =>
    obtain ⟨⟨w, values⟩, hRun, hSolitary, hLength⟩ := ih
    obtain ⟨w', hExec, hNext⟩ := hSolitary.reads
    obtain ⟨values', hRead⟩ : ∃ values', ((system 1 0).observed readings []).Run
        (fun _ l => l.Whole) (w, values) readsClock (w', values') :=
      ((System.run_of_exec_mem hExec readsClock_whole).mono fun _ _ => And.right).observed values
    refine ⟨(w', values'), ?_, hNext, ?_⟩
    · rw [List.replicate_succ', List.flatten_append, List.flatten_singleton]
      exact hRun.append hRead
    · have hOne : (readsClock.filter Label.readsMonotonic).length = 1 := rfl
      have hMore := readings_length hRead
      rw [hOne] at hMore
      exact hMore.trans (congrArg (· + 1) hLength)

theorem solitary_reach (n : Nat) : ∃ x : World × List Reading,
    ((system 1 0).observed readings []).Reach (fun _ l => l.Whole) x ∧ x.2.length = n := by
  obtain ⟨x, hRun, _, hLength⟩ := solitary_run n
  have hInit : ((system 1 0).observed readings []).init (start 1 0 {}, []) := ⟨⟨{}, rfl⟩, rfl⟩
  exact ⟨x, (System.Reach.init hInit).run hRun, hLength⟩

theorem steady_iff_one_read : ∃ x : World × List Reading,
    ((system 1 0).observed readings []).Reach (fun _ l => l.Whole) x ∧ x.2.length = 1 ∧
      (Steady x.2 ↔ x.2.length ≤ 18446744073710) := by
  obtain ⟨x, hReach, hLength⟩ := solitary_reach 1
  exact ⟨x, hReach, hLength, steady_iff hReach⟩

/-- The init reads the clock 18446744073711 times. -/
theorem not_steady : ¬ ∀ (pid : Pid) (seed : U64) (x : World × List Reading),
    ((system pid seed).observed readings []).Reach (fun _ l => l.Whole) x → Steady x.2 := by
  intro hAll
  obtain ⟨x, hReach, hLength⟩ := solitary_reach 18446744073711
  have hBound := (steady_iff hReach).mp (hAll 1 0 x hReach)
  rw [hLength] at hBound
  omega

end World

end Dtrun
