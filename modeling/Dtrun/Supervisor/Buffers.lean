import Dtrun.Library.Memory
import Dtrun.Supervisor.Granted
import Dtrun.Supervisor.Services

/-! # Buffers of the calls that draw

The answer to `getrandom`, `clock_gettime` and `gettimeofday` is written into the caller through
`/proc/<pid>/mem`. What a caller gets to see depends on whether all of its buffer is there; a caller
whose buffer does not begin at a mapped address ends `supervise`.
-/
namespace Dtrun
set_option autoImplicit false
open FiniteMap StateExcept Supervisor Memory

/-- `-EFAULT`, as it stands in `rax`. -/
def EFAULT : U64 := -14

/-- What is asked of a tracee that has entered a call with registers `regs`. -/
def enteredWith (regs : Regs) (m : Space) : Answers where
  syscallInfo := fun _ => .ok .entry
  getregs := fun _ => .ok regs
  writeMem := fun _ => m.pwrite

/-- What is asked of it when it leaves the call. -/
def leftWith (regs : Regs) : Answers where
  syscallInfo := fun _ => .ok .exit
  getregs := fun _ => .ok regs

def Effect.task : Effect → Pid
  | .resume p _ | .setregs p _ | .write p _ _ => p

def bytesWritten (effects : List Effect) : Nat :=
  ((effects.filterMap Effect.written).map fun e => e.2.length).sum

theorem bytesWritten_snoc (effects : List Effect) (p : Pid) (regs : Regs) :
    bytesWritten (effects ++ [.setregs p regs]) = bytesWritten effects := by
  rw [bytesWritten, List.filterMap_append]
  change ((effects.filterMap Effect.written ++ []).map _).sum = _
  rw [List.append_nil, bytesWritten]

namespace Draw

def retval : Draw → U64
  | .random _ len => BitVec.ofNat 64 len
  | _ => 0

def size : Draw → Nat
  | .random _ len => len
  | _ => 16

/-- What the call may return when `count` bytes were written: `-EFAULT` where the buffer is bad,
never more than was written, and success for a null `tv`. -/
def Answered (m : Space) (count : Nat) (answer : U64) : Draw → Prop
  | .random buf len => answer = EFAULT ∨ answer.toNat ≤ count ∧ (len = 0 ∨ m.writable buf = true)
  | .clock ts _ => m.Admits ts 16 ∨ answer = EFAULT
  | .timeofday tv => if tv = 0 then answer = 0 else m.Admits tv 16 ∨ answer = EFAULT

/-- The buffers that are written as the call asks. -/
def Sound (m : Space) : Draw → Prop
  | .random buf len => len = 0 ∨ m.writable buf = true ∧ m.Covers buf len
  | .clock ts _ => m.Admits ts 16
  | .timeofday tv => if tv = 0 then m.mapped 0 = true else m.Admits tv 16

end Draw

variable {k : Answers} {p : Pid} {s t : Supervisor} {regs : Regs} {m : Space} {d : Draw}

theorem Draw.bytes_length (d : Draw) (rng : Prng) (tick : U64) :
    (d.bytes rng tick).length = d.size := by
  cases d with
  | random buf len => exact rng.fill_length len
  | clock ts clk =>
    simp only [bytes]
    split
    · simp [size]
    · simp [size]
  | timeofday tv => simp [bytes, size]

/-- The end that the three handlers share. -/
def inject (k : Answers) (p : Pid) (addr : U64) (data : List Byte) (nr : Int) (answer : U64)
    (event : String) (detail : List (String × Value)) : SupM Unit := do
  if data ≠ [] then
    writeProcMem k p addr data
  skipSyscall k p nr answer
  modify (·.traceJson event detail)

/-- What a handler leaves as it was when it draws. -/
structure Draws (s v : Supervisor) : Prop where
  quiet : Quiet s v
  pending : v.pending = s.pending
  effects : v.effects = s.effects

theorem virtualClock_draws (s : Supervisor) (clk : U32) : Draws s (s.virtualClock clk).2 := by
  simp only [virtualClock]
  split
  · exact ⟨Quiet.refl s, rfl, rfl⟩
  · split
    · exact ⟨{ Quiet.refl s with }, rfl, rfl⟩
    · exact ⟨Quiet.refl s, rfl, rfl⟩

theorem interceptGetrandom_injects (regs : Regs) (s : Supervisor) :
    ∃ v detail, Draws s v ∧ interceptGetrandom k p regs s =
      inject k p regs.rdi (s.rng.fill (min regs.rsi.toNat (1 <<< 20))).1 SYS_getrandom
        (BitVec.ofNat 64 (min regs.rsi.toNat (1 <<< 20))) "getrandom" detail v := by
  generalize hLen : min regs.rsi.toNat (1 <<< 20) = len
  refine ⟨{ s with rng := (s.rng.fill len).2 },
    [("nbytes", .num len), ("bytes", .str (hexBytes (s.rng.fill len).1))],
    ⟨{ Quiet.refl s with }, rfl, rfl⟩, ?_⟩
  have hData : (s.rng.fill len).1 ≠ [] ↔ len > 0 := by
    rw [← List.length_pos_iff, s.rng.fill_length len]
  simp only [interceptGetrandom, inject, hLen, hData]
  rfl

theorem interceptClockGettime_injects (regs : Regs) (s : Supervisor) :
    ∃ v detail, Draws s v ∧ interceptClockGettime k p regs s =
      inject k p regs.rsi ((Draw.clock regs.rsi (regs.rdi.setWidth 32)).bytes s.rng s.tick)
        SYS_clock_gettime 0 "clock_gettime" detail v := by
  have hDraws := virtualClock_draws s (regs.rdi.setWidth 32)
  have hBytes := (virtualClock_services s regs.rsi (regs.rdi.setWidth 32)).2
  rw [interceptClockGettime, bind_of_ok (get_apply s)]
  generalize s.virtualClock (regs.rdi.setWidth 32) = now at hDraws hBytes ⊢
  obtain ⟨⟨sec, nsec⟩, v⟩ := now
  refine ⟨v, [("clock", .num (regs.rdi.setWidth 32).toInt), ("sec", .num sec.toNat),
    ("nsec", .num nsec.toNat)], hDraws, ?_⟩
  rw [← hBytes, inject, if_pos (List.ne_nil_of_length_pos (by simp))]
  rfl

theorem interceptGettimeofday_injects (regs : Regs) (s : Supervisor) :
    ∃ v detail, Draws s v ∧ interceptGettimeofday k p regs s =
      inject k p regs.rdi ((Draw.timeofday regs.rdi).bytes s.rng s.tick) SYS_gettimeofday 0
        "gettimeofday" detail v := by
  have hClock : s.virtualClock CLOCK_REALTIME = ((VIRTUAL_EPOCH, 0), s) := by simp [virtualClock]
  rw [interceptGettimeofday, bind_of_ok (get_apply s), hClock]
  refine ⟨s, [("sec", .num VIRTUAL_EPOCH.toNat), ("usec", .num (0 / 1000 : U64).toNat)],
    ⟨Quiet.refl s, rfl, rfl⟩, ?_⟩
  rw [inject, if_pos (List.ne_nil_of_length_pos (by simp [Draw.bytes]))]
  rfl

theorem onSyscallEntry_injects (hRegs : k.getregs p = .ok regs) (hDraw : Draw.of regs = some d)
    (s : Supervisor) : ∃ v nr event detail, Draws s v ∧
      onSyscallEntry k p s = (do
        inject k p d.addr (d.bytes s.rng s.tick) nr d.retval event detail
        pure false : SupM Bool) v := by
  rw [onSyscallEntry, bind_of_ok (ptraceResult_ok.mpr ⟨hRegs, rfl⟩)]
  simp only [Draw.of] at hDraw
  split at hDraw
  · rename_i hNr
    cases hDraw
    obtain ⟨v, detail, hDraws, hRun⟩ := interceptGetrandom_injects (k := k) (p := p) regs s
    refine ⟨v, SYS_getrandom, "getrandom", detail, hDraws, ?_⟩
    rw [if_pos hNr, bind_apply, hRun]
    rfl
  · rename_i hRandom
    split at hDraw
    · rename_i hNr
      cases hDraw
      obtain ⟨v, detail, hDraws, hRun⟩ :=
        interceptClockGettime_injects (k := k) (p := p) regs s
      refine ⟨v, SYS_clock_gettime, "clock_gettime", detail, hDraws, ?_⟩
      rw [if_neg hRandom, if_pos hNr, bind_apply, hRun]
      rfl
    · rename_i hClock
      split at hDraw
      · rename_i hNr
        cases hDraw
        obtain ⟨v, detail, hDraws, hRun⟩ :=
          interceptGettimeofday_injects (k := k) (p := p) regs s
        refine ⟨v, SYS_gettimeofday, "gettimeofday", detail, hDraws, ?_⟩
        rw [if_neg hRandom, if_neg hClock, if_pos hNr, bind_apply, hRun]
        rfl
      · cases hDraw

section

variable {addr : U64} {data : List Byte} {nr : Int} {answer : U64} {event : String}
  {detail : List (String × Value)}

theorem inject_refused {e : Errno} (hData : data ≠ []) (hWrite : k.writeMem p addr data = .error e)
    (s : Supervisor) : inject k p addr data nr answer event detail s = .error (.io e) s := by
  simp only [inject, if_pos hData, writeProcMem, hWrite]
  rfl

theorem inject_taken {n : Nat} (hRegs : k.getregs p = .ok regs) (hSet : k.setregs p = .ok ())
    (hWrite : data ≠ [] → k.writeMem p addr data = .ok n) (s : Supervisor) :
    ∃ t, inject k p addr data nr answer event detail s = .ok () t ∧ Quiet s t ∧
      t.pending = s.pending.insert p ⟨nr, answer⟩ ∧
      t.effects = s.effects ++ (if data = [] then [] else [.write p addr (data.take n)]) ++
        [.setregs p { regs with origRax := -1 }] := by
  have skip (v : Supervisor) : ∃ t, (do
      skipSyscall k p nr answer
      modify (·.traceJson event detail) : SupM Unit) v = .ok () t ∧ Quiet v t ∧
        t.pending = v.pending.insert p ⟨nr, answer⟩ ∧
        t.effects = v.effects ++ [.setregs p { regs with origRax := -1 }] := by
    obtain ⟨w, hSkip⟩ : ∃ w, skipSyscall k p nr answer v = .ok () w :=
      ⟨_, skipSyscall_ok.mpr ⟨regs, hRegs, hSet, rfl⟩⟩
    refine ⟨w.traceJson event detail, ?_,
      (skipSyscall_quiet hSkip).trans (Quiet.traceJson w _ _), ?_⟩
    · rw [bind_of_ok hSkip]
      rfl
    · obtain ⟨regs', hRegs', _, rfl⟩ := skipSyscall_ok.mp hSkip
      cases hRegs.symm.trans hRegs'
      exact ⟨rfl, rfl⟩
  by_cases hData : data = []
  · obtain ⟨t, hRun, hQuiet, hPending, hEffects⟩ := skip s
    refine ⟨t, ?_, hQuiet, hPending, ?_⟩
    · rw [inject, if_neg (not_not_intro hData)]
      exact hRun
    · simpa [hData] using hEffects
  · have hWritten := writeProcMem_ok (s := s) (u := ()).mpr ⟨n, hWrite hData, rfl⟩
    obtain ⟨t, hRun, hQuiet, hPending, hEffects⟩ := skip _
    refine ⟨t, ?_, (writeProcMem_quiet hWritten).trans hQuiet, hPending, ?_⟩
    · rw [inject, if_pos hData]
      exact (bind_of_ok hWritten).trans hRun
    · simpa [hData] using hEffects

end

def SuperviseError.NotIo (e : SuperviseError) : Prop := ∀ n, e ≠ .io n

theorem leftWith_errors (regs : Regs) : (leftWith regs).Errors SuperviseError.NotIo := by
  constructor <;> simp [leftWith, SuperviseError.NotIo]

theorem dispatchSyscall_notIo {b : Bool} {e : SuperviseError} {v : Supervisor}
    (hEntry : onSyscallEntry (enteredWith regs m) p s = .ok b t)
    (h : dispatchSyscall (enteredWith regs m) p s = .error e v) : e.NotIo := by
  have hThread : FailsWith SuperviseError.NotIo (resumeThread (leftWith regs) p) :=
    resumeThread_fails (leftWith_errors regs)
  have hCurrent : FailsWith SuperviseError.NotIo (resumeCurrent (leftWith regs) p) :=
    resumeCurrent_fails (leftWith_errors regs)
  have hOp : (enteredWith regs m).syscallInfo p = .ok .entry := rfl
  rw [dispatchSyscall, bind_of_ok (ptraceResult_ok.mpr ⟨hOp, rfl⟩), bind_of_ok (get_apply s)] at h
  split at h
  · have hRest : resumeThread (enteredWith regs m) p t = .error e v :=
      (bind_of_ok (discard_ok_iff (u := ()).mpr ⟨b, hEntry⟩)).symm.trans h
    exact hThread _ _ _ hRest
  · rcases bind_error_iff.mp h with h | ⟨b', w, hEntry', h⟩
    · cases hEntry.symm.trans h
    · cases b' with
      | true => cases h
      | false => exact hCurrent _ _ _ h

theorem scheduleLoop_asks {k k' : Answers} (h : k.syscall = k'.syscall) (queue : List Pid) :
    scheduleLoop k queue = scheduleLoop k' queue := by
  induction queue with
  | nil => rfl
  | cons tid rest ih =>
    simp only [scheduleLoop, runThread, resumeThread, ptraceSyscall, h, ih]

theorem pass_notIo {b : Bool} {e : SuperviseError} {v : Supervisor} {awaits : List Await}
    (hEntry : onSyscallEntry (enteredWith regs m) p s = .ok b t)
    (h : pass (enteredWith regs m) awaits (.ptraceSyscall p) s = .error e v) : e.NotIo := by
  have hTail : FailsWith SuperviseError.NotIo (runTail (enteredWith regs m)) := by
    have hFails := runTail_fails (leftWith_errors regs) (by simp [SuperviseError.NotIo])
    have hAsks (queue : List Pid) :
        scheduleLoop (enteredWith regs m) queue = scheduleLoop (leftWith regs) queue :=
      scheduleLoop_asks (show (enteredWith regs m).syscall = (leftWith regs).syscall from rfl) queue
    rw [runTail, scheduleNext] at hFails ⊢
    simpa only [hAsks] using hFails
  have hDispatch {e : SuperviseError} {v : Supervisor}
      (h : dispatch (enteredWith regs m) (.ptraceSyscall p) s = .error e v) : e.NotIo := by
    rcases bind_error_iff.mp h with h | ⟨_, _, _, ⟨⟩⟩
    exact dispatchSyscall_notIo hEntry h
  have hFlow {flow : Flow} {w : Supervisor}
      (h : dispatch (enteredWith regs m) (.ptraceSyscall p) s = .ok flow w) : flow = .next := by
    obtain ⟨_, _, _, ⟨⟩⟩ := bind_ok_iff.mp h
    rfl
  cases awaits with
  | nil =>
    rcases bind_error_iff.mp h with h | ⟨flow, w, hNext, h⟩
    · exact hDispatch h
    · rw [hFlow hNext] at h
      rcases bind_error_iff.mp h with h | ⟨_, _, _, ⟨⟩⟩
      exact hTail _ _ _ h
  | cons a outer =>
    rcases bind_error_iff.mp h with h | ⟨flow, w, hNext, h⟩
    · exact hDispatch h
    · rw [hFlow hNext] at h
      cases h

theorem Draw.size_le (h : Draw.of regs = some d) : d.size ≤ 2 ^ 20 := by
  simp only [Draw.of] at h
  split at h
  · cases h
    simp only [size]
    omega
  · split at h
    · cases h
      simp [size]
    · split at h
      · cases h
        simp [size]
      · cases h

/-- The call is answered in the caller alone, and as its buffer asks. -/
structure Contained (s : Supervisor) (p : Pid) (regs : Regs) (m : Space) (d : Draw) : Prop where
  noIo : ∀ awaits log n,
    (Machine.step ⟨s, awaits, none, log⟩ ⟨.ok (.ptraceSyscall p), enteredWith regs m⟩).result ≠
      some (.error (.io n))
  answered : ∃ t, onSyscallEntry (enteredWith regs m) p { s with effects := [] } = .ok false t ∧
    Quiet { s with effects := [] } t ∧ (∀ q, q ≠ p → t.pending.get q = s.pending.get q) ∧
    (∀ e ∈ t.effects, e.task = p) ∧
    ∃ answer, d.Answered m (bytesWritten t.effects) answer ∧
      ∀ after, ∃ v, onSyscallExit (leftWith after) p t = .ok () v ∧
        v.effects = t.effects ++ [.setregs p { after with rax := answer }]

theorem onSyscallExit_answers {inject : PendingInject} (h : t.pending.get p = some inject)
    (after : Regs) : ∃ v, onSyscallExit (leftWith after) p t = .ok () v ∧
      v.effects = t.effects ++ [.setregs p { after with rax := inject.retval }] := by
  rw [onSyscallExit, bind_of_ok (get_apply t)]
  simp only [h]
  exact ⟨_, rfl, rfl⟩

/-- A write that arrives in part is answered as if all of it had. -/
theorem entry_taken {n : Nat} (hDraw : Draw.of regs = some d)
    (hWrite : d.bytes s.rng s.tick ≠ [] → m.pwrite d.addr (d.bytes s.rng s.tick) = .ok n) :
    ∃ t, onSyscallEntry (enteredWith regs m) p { s with effects := [] } = .ok false t ∧
      Quiet { s with effects := [] } t ∧ (∀ q, q ≠ p → t.pending.get q = s.pending.get q) ∧
      (∀ e ∈ t.effects, e.task = p) ∧
      bytesWritten t.effects = (if d.size = 0 then 0 else min n d.size) ∧
      ∃ inject, t.pending.get p = some inject ∧ inject.retval = d.retval := by
  obtain ⟨v, nr, event, detail, hDraws, hRun⟩ := onSyscallEntry_injects
    (k := enteredWith regs m) (p := p) rfl hDraw { s with effects := [] }
  obtain ⟨t, hInject, hQuiet, hPending, hEffects⟩ := @inject_taken (enteredWith regs m) p
    regs d.addr (d.bytes s.rng s.tick) nr d.retval event detail n rfl rfl hWrite v
  have hEffects : t.effects = (if d.bytes s.rng s.tick = [] then [] else
      [.write p d.addr ((d.bytes s.rng s.tick).take n)]) ++
      [.setregs p { regs with origRax := -1 }] := by
    rw [hEffects, hDraws.effects]
    rfl
  have hEmpty : d.bytes s.rng s.tick = [] ↔ d.size = 0 := by
    rw [← List.length_eq_zero_iff, Draw.bytes_length]
  refine ⟨t, hRun.trans (bind_of_ok hInject), hDraws.quiet.trans hQuiet, ?_, ?_, ?_, ?_⟩
  · intro q hq
    rw [hPending, hDraws.pending, FiniteMap.Map.get_insert_ne _ _ hq]
  · rw [hEffects]
    split
    · simp [Effect.task]
    · simp [Effect.task]
  · rw [hEffects, bytesWritten_snoc]
    simp only [hEmpty]
    split
    · rfl
    · simp [bytesWritten, Effect.written, Draw.bytes_length]
  · exact ⟨⟨nr, d.retval⟩, by rw [hPending, FiniteMap.Map.get_insert_self], rfl⟩

theorem entry_refused (hDraw : Draw.of regs = some d) (hSize : d.size ≠ 0)
    (hFirst : m.mapped d.addr = false) : ∃ e t,
      onSyscallEntry (enteredWith regs m) p { s with effects := [] } = .error (.io e) t := by
  obtain ⟨v, nr, event, detail, _, hRun⟩ := onSyscallEntry_injects
    (k := enteredWith regs m) (p := p) rfl hDraw { s with effects := [] }
  have hData : d.bytes s.rng s.tick ≠ [] := by
    intro hNil
    exact hSize ((d.bytes_length s.rng s.tick).symm.trans (congrArg List.length hNil))
  obtain ⟨e, hWrite⟩ := Space.pwrite_refused hData hFirst
  exact ⟨e, v, hRun.trans (bind_error_iff.mpr (.inl (inject_refused hData hWrite v)))⟩

/-- The answer a call gets is the one its buffer asks for exactly when the buffer is sound. -/
theorem Draw.answered_iff (hDraw : Draw.of regs = some d) (m : Space)
    (hFirst : d.size = 0 ∨ m.mapped d.addr = true) :
    d.Answered m (if d.size = 0 then 0 else reach m.mapped d.addr d.size) d.retval ↔
      d.Sound m := by
  have hSmall := size_le hDraw
  cases d with
  | random buf len =>
    have hRetval : (BitVec.ofNat 64 len).toNat = len := by
      simp only [size] at hSmall
      simp only [BitVec.toNat_ofNat]
      omega
    have hNot : BitVec.ofNat 64 len ≠ EFAULT := by
      intro h
      have hLen := congrArg BitVec.toNat h
      have hLarge : 2 ^ 20 < EFAULT.toNat := by decide
      rw [hRetval] at hLen
      simp only [size] at hSmall
      omega
    by_cases hZero : len = 0
    · simp [Answered, Sound, hZero, retval]
    · have hReach := Space.reach_le m buf len
      have hCovers : reach m.mapped buf len = len ↔ m.Covers buf len := Space.reach_eq_iff
      simp only [Answered, Sound, retval, size, addr, hNot, hZero, hRetval, if_false, false_or,
        ← hCovers]
      constructor
      · rintro ⟨hLe, hWritable⟩
        exact ⟨hWritable, by omega⟩
      · rintro ⟨hWritable, hAll⟩
        exact ⟨by omega, hWritable⟩
  | clock ts clk =>
    have hNot : (0 : U64) ≠ EFAULT := by decide
    simp only [Answered, Sound, retval, hNot, or_false]
  | timeofday tv =>
    have hNot : (0 : U64) ≠ EFAULT := by decide
    by_cases hNull : tv = 0
    · subst hNull
      simpa [Answered, Sound, retval, size, addr] using hFirst
    · simp only [Answered, Sound, retval, if_neg hNull, hNot, or_false]

theorem Draw.Sound.first (h : d.Sound m) : d.size = 0 ∨ m.mapped d.addr = true := by
  cases d with
  | random buf len =>
    rcases h with hZero | ⟨hWritable, _⟩
    · exact .inl hZero
    · exact .inr (m.mapped_of_writable buf hWritable)
  | clock ts clk =>
    have hFirst := h.covers 0 (by decide)
    exact .inr (by simpa [addr] using hFirst)
  | timeofday tv =>
    right
    simp only [Sound] at h
    split at h
    · rename_i hNull
      rw [addr, hNull]
      exact h
    · have hFirst := h.covers 0 (by decide)
      simpa [addr] using hFirst

theorem contained_of_answered (hDraw : Draw.of regs = some d)
    (hFirst : d.size = 0 ∨ m.mapped d.addr = true) : Contained s p regs m d ↔ d.Sound m := by
  have hWrite : d.bytes s.rng s.tick ≠ [] → m.pwrite d.addr (d.bytes s.rng s.tick) =
      .ok (reach m.mapped d.addr d.size) := by
    intro hData
    have hSize : d.size ≠ 0 := by
      rw [← d.bytes_length s.rng s.tick]
      exact fun h => hData (List.eq_nil_of_length_eq_zero h)
    have hMapped := hFirst.resolve_left hSize
    rw [(Space.pwrite_ok_iff hData).mpr ⟨hMapped, rfl⟩, d.bytes_length]
  obtain ⟨t, hRun, hQuiet, hOthers, hOwn, hCount, inject, hPending, hRetval⟩ :=
    entry_taken (p := p) hDraw hWrite
  rw [Nat.min_eq_left (Space.reach_le m d.addr d.size)] at hCount
  have hAnswers := onSyscallExit_answers hPending
  rw [← Draw.answered_iff hDraw m hFirst, ← hCount, ← hRetval]
  constructor
  · intro h
    obtain ⟨u, hRun', _, _, _, answer, hAnswered, hExit⟩ := h.answered
    cases hRun.symm.trans hRun'
    obtain ⟨v, hLeave, hEffects⟩ := hAnswers regs
    obtain ⟨v', hLeave', hEffects'⟩ := hExit regs
    cases hLeave.symm.trans hLeave'
    have hSame : inject.retval = answer := by
      simpa using hEffects.symm.trans hEffects'
    rw [hSame]
    exact hAnswered
  · intro hAnswered
    refine ⟨?_, t, hRun, hQuiet, hOthers, hOwn, inject.retval, hAnswered, hAnswers⟩
    intro awaits log n hStep
    rw [Machine.step_settle rfl rfl] at hStep
    cases hPass : pass (enteredWith regs m) awaits (.ptraceSyscall p) { s with effects := [] } with
    | error e v =>
      have hNot := pass_notIo hRun hPass n
      rw [hPass] at hStep
      cases hStep
      exact hNot rfl
    | ok turn v =>
      rw [hPass] at hStep
      cases turn with
      | wait awaits => cases hStep
      | done code => cases hStep

/-- A call from the generator or the clock stays the caller's own affair exactly when its buffer is
sound: empty, or there from its first byte to its last, and the caller's to write. -/
theorem contained_iff (s : Supervisor) (p : Pid) (regs : Regs) (m : Space) (d : Draw)
    (hDraw : Draw.of regs = some d) : Contained s p regs m d ↔ d.Sound m := by
  by_cases hFirst : d.size = 0 ∨ m.mapped d.addr = true
  · exact contained_of_answered hDraw hFirst
  · constructor
    · intro h
      obtain ⟨t, hRun, _⟩ := h.answered
      simp only [not_or, Bool.not_eq_true] at hFirst
      obtain ⟨e, u, hFails⟩ := entry_refused (p := p) hDraw hFirst.1 hFirst.2
      cases hRun.symm.trans hFails
    · intro h
      exact absurd h.first hFirst

def onePage : Space where
  mapped := fun a => decide (a.toNat / 4096 = 1)
  writable := fun a => decide (a.toNat / 4096 = 1)
  mapped_of_writable := fun _ h => h
  lower := by
    intro a h
    have hPage : a.toNat / 4096 = 1 := of_decide_eq_true h
    omega

theorem contained_iff_random :
    Draw.of { origRax := 318, rdi := 4096, rsi := 8 } = some (.random 4096 8) ∧
      Contained (Machine.fresh 1 0) 1 { origRax := 318, rdi := 4096, rsi := 8 } onePage
        (.random 4096 8) := by
  refine ⟨by decide, (contained_iff _ _ _ _ _ (by decide)).mpr (.inr ⟨by decide, ?_⟩)⟩
  decide

/-- `gettimeofday(NULL, &tz)` ends the container. -/
theorem not_contained : ¬ ∀ (s : Supervisor) (p : Pid) (regs : Regs) (m : Space) (d : Draw),
    Draw.of regs = some d → Contained s p regs m d := by
  intro h
  have hContained := h (Machine.fresh 1 0) 1 { origRax := 96 } onePage (.timeofday 0) (by decide)
  exact hContained.noIo [] [] EIO rfl

end Dtrun
