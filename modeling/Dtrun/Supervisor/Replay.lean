import Dtrun.Supervisor.Buffers
import Dtrun.Supervisor.Injections
import Dtrun.Supervisor.Notes

/-! # Replaying the injected randomness

Every answered `getrandom` leaves one record that carries its bytes in hex. The bytes are cut from
one stream of words, each request starting at a fresh word; so they can be read off the trace, and
computed from the seed and the lengths alone.
-/
namespace Dtrun
set_option autoImplicit false
open FiniteMap StateExcept Transition Supervisor

def hexValue (c : Char) : Option Nat := "0123456789abcdef".toList.idxOf? c

def unhexDigits : List Char → Option (List Byte)
  | [] => some []
  | [_] => none
  | high :: low :: rest =>
    match hexValue high, hexValue low with
    | some a, some b => (unhexDigits rest).map fun bytes => BitVec.ofNat 8 (16 * a + b) :: bytes
    | _, _ => none

/-- What `hex_bytes` writes, read back. -/
def unhex (s : String) : Option (List Byte) := unhexDigits s.toList

theorem hexValue_hexDigit {n : Nat} (h : n < 16) : hexValue (hexDigit n) = some n := by
  have hAll : ∀ m : Fin 16, hexValue (hexDigit m) = some m.val := by decide
  exact hAll ⟨n, h⟩

theorem byte_halves (b : Byte) :
    b.toNat >>> 4 = b.toNat / 16 ∧ b.toNat &&& 0xf = b.toNat % 16 := by
  constructor
  · rw [Nat.shiftRight_eq_div_pow]
  · exact Nat.and_two_pow_sub_one_eq_mod b.toNat 4

theorem unhex_hexBytes (bytes : List Byte) : unhex (hexBytes bytes) = some bytes := by
  rw [unhex, hexBytes, String.toList_ofList]
  induction bytes with
  | nil => rfl
  | cons b rest ih =>
    obtain ⟨hHigh, hLow⟩ := byte_halves b
    have hByte := b.isLt
    have hJoin : BitVec.ofNat 8 (16 * (b.toNat / 16) + b.toNat % 16) = b := by
      rw [Nat.div_add_mod, BitVec.ofNat_toNat, BitVec.setWidth_eq]
    rw [List.flatMap_cons, List.cons_append, List.cons_append, List.nil_append, unhexDigits, hHigh,
      hLow, hexValue_hexDigit (by omega), hexValue_hexDigit (by omega), ih]
    exact congrArg (fun first => some (first :: rest)) hJoin

namespace Prng

/-- The word drawn after `j` others. -/
def word (r : Prng) (j : Nat) : U64 := (r.after j).nextU64.1

/-- The first `n` bytes of the words from the one numbered `start` on. -/
def cut (r : Prng) (start n : Nat) : List Byte :=
  ((List.range (blocks n)).flatMap fun j => toLeBytes (r.word (start + j))).take n

theorem word_after (r : Prng) (start j : Nat) : (r.after start).word j = r.word (start + j) := by
  rw [word, word, after_add]

theorem word_succ (r : Prng) (j : Nat) : r.nextU64.2.word j = r.word (j + 1) := by
  have hOne : r.nextU64.2 = r.after 1 := rfl
  rw [hOne, word_after, Nat.add_comm]

theorem fillChunks_words (r : Prng) (m : Nat) (rest : List Nat) :
    (r.fillChunks (List.replicate m 8 ++ rest)).1 =
      ((List.range m).flatMap fun j => toLeBytes (r.word j)) ++ ((r.after m).fillChunks rest).1 := by
  induction m generalizing r with
  | zero => rfl
  | succ m ih =>
    have hWhole : (toLeBytes r.nextU64.1).take 8 = toLeBytes r.nextU64.1 :=
      List.take_of_length_le (by simp)
    have hFirst : (r.fillChunks (List.replicate (m + 1) 8 ++ rest)).1 =
        (toLeBytes r.nextU64.1).take 8 ++
          (r.nextU64.2.fillChunks (List.replicate m 8 ++ rest)).1 := rfl
    have hAfter : r.nextU64.2.after m = r.after (m + 1) := by
      rw [Nat.add_comm, after_add]
      rfl
    rw [hFirst, hWhole, ih, List.range_succ_eq_map, List.flatMap_cons, List.flatMap_map, hAfter,
      List.append_assoc]
    simp only [word_succ]
    rfl

theorem words_length (r : Prng) (m : Nat) :
    ((List.range m).flatMap fun j => toLeBytes (r.word j)).length = 8 * m := by
  simp [List.length_flatMap, Nat.mul_comm]

/-- The last chunk may end within a word. -/
theorem fill_eq_cut (r : Prng) (n : Nat) : (r.fill n).1 = r.cut 0 n := by
  simp only [fill, chunkLengths, fillChunks_words, cut, Nat.zero_add]
  have hLength := r.words_length (n / 8)
  split
  · have hBlocks : blocks n = n / 8 := by
      rw [blocks]
      omega
    rw [hBlocks, fillChunks, List.append_nil, List.take_of_length_le (by omega)]
  · have hBlocks : blocks n = n / 8 + 1 := by
      rw [blocks]
      omega
    have hShort : n - 8 * (n / 8) = n % 8 := by omega
    rw [hBlocks, List.range_succ, List.flatMap_append, List.take_append, hLength, hShort,
      List.take_of_length_le (by omega), List.flatMap_singleton]
    simp only [fillChunks, List.append_nil]
    rfl

theorem fill_after (r : Prng) (start n : Nat) : ((r.after start).fill n).1 = r.cut start n := by
  rw [fill_eq_cut, cut, cut]
  simp only [word_after, Nat.zero_add]

end Prng

def Record.bytes (r : Record) : Option String :=
  if r.event = "getrandom" then
    match r.value "bytes" with
    | some (.str text) => some text
    | _ => none
  else none

namespace Supervisor

def handedOut (s : Supervisor) : List String := s.trace.filterMap Record.bytes

theorem handedOut_overlooks : Overlooks handedOut where
  same := fun _ _ hTrace _ => congrArg (List.filterMap Record.bytes) hTrace
  note := fun s event detail _ hEvent => by simp [handedOut, traceJson, Record.bytes, hEvent]
  traceSyscall := fun s nr kind => by
    simp [handedOut, Supervisor.traceSyscall, traceJson, Record.bytes, Record.value, List.lookup_cons]

theorem handedOut_getrandom (s : Supervisor) (len : Nat) (out : List Byte) :
    (s.traceJson "getrandom" [("nbytes", .num len), ("bytes", .str (hexBytes out))]).handedOut =
      s.handedOut ++ [hexBytes out] := by
  simp [handedOut, traceJson, Record.bytes, Record.value, List.lookup_cons]

theorem handedOut_onThreadExit (s : Supervisor) (p : Pid) (record : Bool) :
    (s.onThreadExit p record).handedOut = s.handedOut := by
  cases hLookup : s.threads.get p with
  | none =>
    simp only [onThreadExit, hLookup]
    rfl
  | some thread =>
    simp only [onThreadExit, hLookup]
    rw [clearTidWake_frame]
    cases record with
    | true => simp [handedOut, forget, traceJson, Record.bytes]
    | false => simp [handedOut, forget]

end Supervisor

variable {k : Answers} {p : Pid} {s : Supervisor} {status : WaitStatus} {r : Report}
  {pid : Pid} {seed : U64}

/-- The kernel takes every memory write whole. -/
def Answers.Whole (k : Answers) : Prop := ∀ p addr data, k.writeMem p addr data = .ok data.length

theorem Answers.Whole.taken (h : k.Whole) (p : Pid) (addr : U64) (data : List Byte) :
    (k.taken p addr data).flatMap Prod.snd = data := by
  simp only [Answers.taken]
  split
  · rename_i hNone
    rw [hNone]
    rfl
  · simp [h p addr data]

/-- The record is written once the kernel has taken the registers that skip the call. -/
theorem interceptGetrandom_handedOut {regs : Regs} (hWhole : k.Whole)
    (hRegs : k.getregs p = .ok regs) (s : Supervisor) :
    (final (interceptGetrandom k p regs s)).handedOut = s.handedOut ++
      if k.setregs p = .ok () then
        [hexBytes (s.rng.fill (min regs.rsi.toNat (1 <<< 20))).1] else [] := by
  generalize hLen : min regs.rsi.toNat (1 <<< 20) = len
  have skip (v : Supervisor) (hv : v.handedOut = s.handedOut) : (final ((do
      skipSyscall k p SYS_getrandom (BitVec.ofNat 64 len)
      modify (·.traceJson "getrandom"
        [("nbytes", .num len), ("bytes", .str (hexBytes (s.rng.fill len).1))]) : SupM Unit)
        v)).handedOut = s.handedOut ++ if k.setregs p = .ok () then
          [hexBytes (s.rng.fill len).1] else [] := by
    cases hSet : k.setregs p with
    | error e =>
      have hSkip : skipSyscall k p SYS_getrandom (BitVec.ofNat 64 len) v =
          .error (.ptrace e) v := by
        rw [skipSyscall, bind_of_ok (ptraceResult_ok.mpr ⟨hRegs, rfl⟩), bind_apply, ptraceSetregs,
          bind_apply, hSet]
        rfl
      rw [bind_apply, hSkip, if_neg (by simp), List.append_nil]
      exact hv
    | ok u =>
      obtain ⟨w, hSkip⟩ : ∃ w, skipSyscall k p SYS_getrandom (BitVec.ofNat 64 len) v = .ok () w :=
        ⟨_, skipSyscall_ok.mpr ⟨regs, hRegs, hSet, rfl⟩⟩
      have hKept := (handedOut_overlooks.of_ledger (skipSyscall_ledger _ _) v).ok hSkip
      rw [bind_of_ok hSkip, if_pos rfl]
      exact (handedOut_getrandom w len _).trans (congrArg (· ++ _) (hKept.trans hv))
  simp only [interceptGetrandom, hLen]
  change (final ((if len > 0 then _ else _ : SupM Unit)
    { s with rng := (s.rng.fill len).2 })).handedOut = _
  split
  · have hWrite := writeProcMem_ok (k := k) (p := p) (u := ())
      (s := { s with rng := (s.rng.fill len).2 }).mpr ⟨_, hWhole p regs.rdi (s.rng.fill len).1, rfl⟩
    rw [bind_of_ok hWrite]
    exact skip _ rfl
  · exact skip _ rfl

/-- The length of the `getrandom` request that is reported, if the kernel takes the registers that
skip the call. -/
def Report.random (r : Report) : Option Nat :=
  r.entry.bind fun e => match Draw.of e.2, r.answers.setregs e.1 with
    | some (.random _ len), .ok () => some len
    | _, _ => none

theorem Draw.of_getrandom {regs : Regs} (h : regs.origRax.toInt = SYS_getrandom) :
    Draw.of regs = some (.random regs.rdi (min regs.rsi.toNat (1 <<< 20))) := if_pos h

theorem Report.random_of_entry {regs : Regs} (hEntry : r.entry = some (p, regs))
    (hNr : regs.origRax.toInt = SYS_getrandom) : r.random =
      if r.answers.setregs p = .ok () then some (min regs.rsi.toNat (1 <<< 20)) else none := by
  simp only [Report.random, hEntry, Option.bind_some, Draw.of_getrandom hNr]
  cases r.answers.setregs p with
  | error e => simp
  | ok u => simp

theorem Report.random_of_other {regs : Regs} (hEntry : r.entry = some (p, regs))
    (hNr : regs.origRax.toInt ≠ SYS_getrandom) : r.random = none := by
  simp only [Report.random, hEntry, Option.bind_some]
  cases hDraw : Draw.of regs with
  | none => rfl
  | some d =>
    cases d with
    | random buf len =>
      simp only [Draw.of, if_neg hNr] at hDraw
      split at hDraw
      · cases hDraw
      · split at hDraw
        · cases hDraw
        · cases hDraw
    | clock ts clk => rfl
    | timeofday tv => rfl

/-- What the report adds to the bytes handed out, from the generator it finds. -/
def Report.hands (r : Report) (rng : Prng) : List String :=
  (r.random.map fun len => hexBytes (rng.fill len).1).toList

theorem pass_handedOut (hWhole : r.answers.Whole) (hStatus : r.status = .ok status)
    (awaits : List Await) (s : Supervisor) :
    (final (pass r.answers awaits status s)).handedOut = s.handedOut ++ r.hands s.rng := by
  have none (hNone : r.random = none) : s.handedOut = s.handedOut ++ r.hands s.rng := by
    rw [Report.hands, hNone]
    exact (List.append_nil _).symm
  rw [pass_overlooks handedOut_overlooks handedOut_onThreadExit]
  split
  · rename_i p
    rw [dispatchSyscall_overlooks handedOut_overlooks]
    split
    · rename_i hOp
      rw [onSyscallEntry_overlooks handedOut_overlooks]
      split
      · rename_i regs hRegs
        have hEntry : r.entry = some (p, regs) :=
          Report.entry_eq_some.mpr ⟨hStatus, by simp [Answers.entry, hOp, hRegs]⟩
        split
        · rename_i hNr
          rw [interceptGetrandom_handedOut hWhole hRegs, Report.hands,
            Report.random_of_entry hEntry hNr]
          split
          · rfl
          · rfl
        · rename_i hNr
          exact none (Report.random_of_other hEntry hNr)
      · rename_i hRegs
        exact none (by simp [Report.random, Report.entry, hStatus, Answers.entry, hOp, hRegs])
    · rename_i hOp
      refine none ?_
      have hEntry : r.answers.entry p = Option.none := by
        simp only [Answers.entry]
        split
        · rename_i hOp' _
          exact absurd hOp' hOp
        · rfl
      simp [Report.random, Report.entry, hStatus, hEntry]
  · rename_i hOther
    refine none ?_
    have hEntry : r.entry = Option.none := by
      cases status with
      | ptraceSyscall p => exact absurd rfl (hOther p)
      | _ => simp [Report.entry, hStatus]
    simp [Report.random, hEntry]

theorem pass_entry_ok {regs : Regs} {awaits : List Await} {turn : Turn} {t : Supervisor}
    (hEntry : r.entry = some (p, regs)) (hStatus : r.status = .ok status)
    (hPass : pass r.answers awaits status s = .ok turn t) :
    ∃ b v, onSyscallEntry r.answers p s = .ok b v := by
  obtain ⟨hCall, hAnswer⟩ := Report.entry_eq_some.mp hEntry
  cases hStatus.symm.trans hCall
  have hOp := Answers.op_of_entry hAnswer
  have hDispatch : ∃ flow v, dispatch r.answers (.ptraceSyscall p) s = .ok flow v := by
    cases awaits with
    | nil =>
      obtain ⟨flow, v, hRun, _⟩ := bind_ok_iff.mp hPass
      exact ⟨flow, v, hRun⟩
    | cons w outer =>
      simp only [pass, awaitPass, reduceCtorEq, if_false] at hPass
      obtain ⟨flow, v, hRun, _⟩ := bind_ok_iff.mp hPass
      exact ⟨flow, v, hRun⟩
  obtain ⟨_, _, hRun⟩ := hDispatch
  obtain ⟨_, v, hCallRun, _⟩ := bind_ok_iff.mp hRun
  simp only [dispatchSyscall, hOp, bind_ok_iff, ptraceResult_ok, get_apply] at hCallRun
  obtain ⟨_, _, ⟨⟨⟩, rfl⟩, _, _, ⟨⟩, hCallRun⟩ := hCallRun
  split at hCallRun
  · obtain ⟨_, u, hDiscard, _⟩ := bind_ok_iff.mp hCallRun
    obtain ⟨b, hEntered⟩ := discard_ok_iff.mp hDiscard
    exact ⟨b, u, hEntered⟩
  · obtain ⟨b, u, hEntered, _⟩ := bind_ok_iff.mp hCallRun
    exact ⟨b, u, hEntered⟩

theorem inject_granted {addr answer : U64} {data : List Byte} {nr : Int} {event : String}
    {detail : List (String × Value)} {v : Supervisor}
    (h : inject k p addr data nr answer event detail s = .ok () v) : k.setregs p = .ok () := by
  have skipped {u : Supervisor} (h : (do
      skipSyscall k p nr answer
      modify (·.traceJson event detail) : SupM Unit) u = .ok () v) : k.setregs p = .ok () := by
    obtain ⟨_, _, hSkip, _⟩ := bind_ok_iff.mp h
    obtain ⟨_, _, hSet, _⟩ := skipSyscall_ok.mp hSkip
    exact hSet
  rw [inject] at h
  split at h
  · obtain ⟨_, _, _, hRest⟩ := bind_ok_iff.mp h
    exact skipped hRest
  · exact skipped h

theorem Machine.step_granted {m : Machine} {regs : Regs} {d : Draw} (hOpen : m.result = none)
    (hNext : (m.step r).result = none) (hEntry : r.entry = some (p, regs))
    (hDraw : Draw.of regs = some d) : r.answers.setregs p = .ok () := by
  obtain ⟨status, hStatus, hPass⟩ := step_pass hOpen hNext
  obtain ⟨b, v, hEntered⟩ := pass_entry_ok hEntry hStatus hPass
  have hRegs := Answers.getregs_of_entry (Report.entry_eq_some.mp hEntry).2
  obtain ⟨u, nr, event, detail, _, hRun⟩ := onSyscallEntry_injects hRegs hDraw
    ({ m.sv with effects := [] } : Supervisor)
  obtain ⟨_, _, hInject, _⟩ := bind_ok_iff.mp (hRun.symm.trans hEntered)
  exact inject_granted hInject

theorem Machine.step_handedOut {m : Machine} (hOpen : m.result = none)
    (hWhole : r.answers.Whole) :
    (m.step r).sv.handedOut = m.sv.handedOut ++ r.hands m.sv.rng := by
  cases hStatus : r.status with
  | error e =>
    have hEntry : r.entry = none := by simp [Report.entry, hStatus]
    have hSame : (m.step r).sv.handedOut = m.sv.handedOut := by
      simp only [step, hOpen, handle, hStatus, settle_sv]
      rfl
    rw [hSame, Report.hands, Report.random, hEntry]
    exact (List.append_nil _).symm
  | ok status =>
    rw [step_sv hOpen hStatus]
    exact pass_handedOut hWhole hStatus m.awaits { m.sv with effects := [] }

/-- The bytes that the last pass has put into a task. -/
def Supervisor.written (s : Supervisor) : List Byte :=
  (s.effects.filterMap Effect.written).flatMap Prod.snd

theorem Report.random_eq_some {len : Nat} (h : r.random = some len) : ∃ p regs,
    r.entry = some (p, regs) ∧ Draw.of regs = some (.random regs.rdi len) := by
  obtain ⟨⟨p, regs⟩, hEntry, _⟩ := Option.bind_eq_some_iff.mp h
  by_cases hNr : regs.origRax.toInt = SYS_getrandom
  · refine ⟨p, regs, hEntry, ?_⟩
    rw [Report.random_of_entry hEntry hNr] at h
    split at h
    · cases h
      exact Draw.of_getrandom hNr
    · cases h
  · rw [Report.random_of_other hEntry hNr] at h
    cases h

theorem Machine.step_drawn {m : Machine} {regs : Regs} {d : Draw} (hOpen : m.result = none)
    (hWhole : r.answers.Whole) (hEntry : r.entry = some (p, regs))
    (hDraw : Draw.of regs = some d) : (m.step r).sv.written = d.bytes m.sv.rng m.sv.tick := by
  have hStatus := (Report.entry_eq_some.mp hEntry).1
  have hServices := congrArg Services.written
    (pass_services hStatus m.awaits ({ m.sv with effects := [] } : Supervisor))
  rw [← step_sv hOpen hStatus] at hServices
  change (m.step r).sv.effects.filterMap Effect.written = _ at hServices
  rw [Supervisor.written, hServices]
  simp only [Services.observe, hEntry, Services.entered, hDraw]
  exact hWhole.taken p d.addr (d.bytes m.sv.rng m.sv.tick)

theorem Machine.step_written {m : Machine} {len : Nat} (hOpen : m.result = none)
    (hWhole : r.answers.Whole) (hRandom : r.random = some len) :
    (m.step r).sv.written = (m.sv.rng.fill len).1 := by
  obtain ⟨p, regs, hEntry, hDraw⟩ := Report.random_eq_some hRandom
  exact step_drawn hOpen hWhole hEntry hDraw

theorem Machine.step_rng {m : Machine} (hOpen : m.result = none)
    (hNext : (m.step r).result = none) :
    (m.step r).sv.rng = m.sv.rng.after ((r.random.map Prng.blocks).getD 0) := by
  have hRng : (m.step r).sv.rng = (m.services.observe r).rng :=
    congrArg Services.rng (step_services hOpen)
  rw [hRng, Services.observe]
  cases hEntry : r.entry with
  | none =>
    simp only [Report.random, hEntry]
    rfl
  | some e =>
    obtain ⟨p, regs⟩ := e
    by_cases hNr : regs.origRax.toInt = SYS_getrandom
    · rw [Report.random_of_entry hEntry hNr, 
        if_pos (step_granted hOpen hNext hEntry (Draw.of_getrandom hNr))]
      simp only [Services.entered, Draw.of_getrandom hNr]
      rfl
    · rw [Report.random_of_other hEntry hNr]
      simp only [Services.entered]
      split
      · rename_i d hDraw
        cases d with
        | random buf len =>
          have hNone := Report.random_of_other hEntry hNr
          simp only [Draw.of, if_neg hNr] at hDraw
          split at hDraw
          · cases hDraw
          · split at hDraw
            · cases hDraw
            · cases hDraw
        | clock ts clk => rfl
        | timeofday tv => rfl
      · split
        · rfl
        · rfl

/-- The answered requests of a run, each with its length and the bytes put into its task. -/
def givenOut (given : List (Nat × List Byte)) (w : World) : Label → List (Nat × List Byte)
  | .report r => given ++ (r.random.map fun len => (len, (w.machine.step r).sv.written)).toList
  | _ => given

def wordsOf (given : List (Nat × List Byte)) : Nat := (given.map fun e => Prng.blocks e.1).sum

/-- The kernel takes every memory write of the step whole. -/
def Label.Whole : Label → Prop
  | .report r => r.answers.Whole
  | _ => True

/-- The records hold what was given out, and each string is cut where the words before it end. -/
structure Replays (seed : U64) (s : Supervisor) (given : List (Nat × List Byte)) : Prop where
  records : s.handedOut.map unhex = given.map fun e => some e.2
  strings : ∀ i e, given[i]? = some e → e.2 = (Prng.new seed).cut (wordsOf (given.take i)) e.1

theorem wordsOf_append (given given' : List (Nat × List Byte)) :
    wordsOf (given ++ given') = wordsOf given + wordsOf given' := by
  simp [wordsOf]

theorem Replays.snoc {s s' : Supervisor} {given : List (Nat × List Byte)} {len : Nat}
    {bytes : List Byte} (h : Replays seed s given)
    (hRecord : s'.handedOut = s.handedOut ++ [hexBytes bytes])
    (hBytes : bytes = (Prng.new seed).cut (wordsOf given) len) :
    Replays seed s' (given ++ [(len, bytes)]) := by
  constructor
  · rw [hRecord, List.map_append, List.map_append, h.records]
    simp [unhex_hexBytes]
  · intro i e he
    rcases Nat.lt_trichotomy i given.length with hLess | rfl | hMore
    · rw [List.getElem?_append_left hLess] at he
      rw [List.take_append_of_le_length (by omega)]
      exact h.strings i e he
    · rw [List.getElem?_append_right (by omega), Nat.sub_self] at he
      cases he
      rw [List.take_left']
      · exact hBytes
      · rfl
    · rw [List.getElem?_eq_none (by simp; omega)] at he
      cases he

namespace World

theorem replays_step {w w' : World} {l : Label} {given : List (Nat × List Byte)}
    (hStep : (system pid seed).step w l = some w') (hWhole : l.Whole)
    (hOld : Replays seed w.machine.sv given)
    (hRng : w.machine.result = none →
      w.machine.sv.rng = (Prng.new seed).after (wordsOf given)) :
    Replays seed w'.machine.sv (givenOut given w l) ∧ (w'.machine.result = none →
      w'.machine.sv.rng = (Prng.new seed).after (wordsOf (givenOut given w l))) := by
  cases l with
  | spawn p c thread vm =>
    rw [spawn_machine hStep]
    exact ⟨hOld, hRng⟩
  | exec p =>
    rw [exec_machine hStep]
    exact ⟨hOld, hRng⟩
  | report r =>
    obtain ⟨hOpen, _, hMachine, _⟩ := observe_eq_some hStep
    rw [hMachine]
    have hRecords := Machine.step_handedOut hOpen hWhole
    constructor
    · cases hRandom : r.random with
      | none =>
        simp only [givenOut, hRandom, Option.map_none, Option.toList_none, List.append_nil]
        have hSame : (w.machine.step r).sv.handedOut = w.machine.sv.handedOut := by
          simpa [Report.hands, hRandom] using hRecords
        exact ⟨by rw [hSame]; exact hOld.records, hOld.strings⟩
      | some len =>
        have hWritten := Machine.step_written hOpen hWhole hRandom
        simp only [givenOut, hRandom, Option.map_some, Option.toList_some]
        apply hOld.snoc
        · rw [hRecords, hWritten]
          simp [Report.hands, hRandom]
        · rw [hWritten, hRng hOpen, Prng.fill_after]
    · intro hNext
      rw [Machine.step_rng hOpen hNext, hRng hOpen, ← Prng.after_add]
      simp only [givenOut, wordsOf_append]
      cases r.random with
      | none => rfl
      | some len => simp [wordsOf]

/-- The records of a run that carry bytes decode, in their order, to the strings put into the
tasks; and these are cut from the stream of the seed, one after the other. -/
theorem replays {x : World × List (Nat × List Byte)}
    (h : ((system pid seed).observed givenOut []).Reach (fun _ l => l.Whole) x) :
    Replays seed x.1.machine.sv x.2 := by
  have hBoth : Replays seed x.1.machine.sv x.2 ∧ (x.1.machine.result = none →
      x.1.machine.sv.rng = (Prng.new seed).after (wordsOf x.2)) := by
    induction h with
    | @init x hInit =>
      obtain ⟨⟨k, hStart⟩, hNone⟩ := hInit
      have hBoot : (Machine.start pid seed k).sv.handedOut = [] := by
        have hKept : Keeps handedOut (boot k) :=
          .bind (scheduleNext_overlooks handedOut_overlooks) fun _ => .pure _
        rw [Machine.start, Machine.settle_sv]
        exact hKept (Machine.fresh pid seed)
      have hServices : x.1.machine.services = ⟨pid, false, Prng.new seed, 0, []⟩ := by
        rw [hStart]
        exact Machine.start_services
      rw [hNone]
      refine ⟨⟨?_, fun i e he => ?_⟩, fun _ => congrArg Services.rng hServices⟩
      · rw [hStart]
        exact congrArg (List.map unhex) hBoot
      · cases he
    | @step x y l _ hWhole hNext ih =>
      obtain ⟨hStep, hNote⟩ := System.observed_step hNext
      rw [hNote]
      exact replays_step hStep hWhole ih.1 ih.2
  exact hBoth.1

/-- Two processes ask for five and for eight bytes. -/
theorem replays_two_processes : ∃ x : World × List (Nat × List Byte),
    ((system 1 0).observed givenOut []).Reach (fun _ l => l.Whole) x ∧
      x.2.map Prod.fst = [5, 8] ∧ Replays 0 x.1.machine.sv x.2 := by
  have hRun : (((system 1 0).observed givenOut []).exec System.free (start 1 0 {}, [])
      (twoProcesses ++ [.report (.enters 3 { origRax := 318, rdi := 4096, rsi := 5 }),
        asksBytes 2])).map (fun x => x.2.map Prod.fst) = some [5, 8] := by decide +kernel
  obtain ⟨x, hExec, hLengths⟩ := Option.map_eq_some_iff.mp hRun
  have hWhole : ∀ l ∈ twoProcesses ++ [.report (.enters 3 { origRax := 318, rdi := 4096, rsi := 5 }),
      asksBytes 2], l.Whole := by
    simp [twoProcesses, asksBytes, Label.Whole, Answers.Whole, Report.enters, Report.plain,
      Report.created]
  have hInit : ((system 1 0).observed givenOut []).init (start 1 0 {}, []) := ⟨⟨{}, rfl⟩, rfl⟩
  have hReach : ((system 1 0).observed givenOut []).Reach (fun _ l => l.Whole) x :=
    (System.Reach.init hInit).run
      ((System.run_of_exec_mem hExec hWhole).mono fun _ _ => And.right)
  exact ⟨x, hReach, hLengths, replays hReach⟩

end World

end Dtrun
