import Dtrun.Supervisor.OnePlace

/-! # The recorded history

Each record must fit the records before it: its number, the next virtual thread id, the thread that
control comes from, and the threads it names. The invariant ties the history to the fields that
write it; every handler keeps it, and where one fails the history it leaves still fits.
-/
namespace Dtrun
set_option autoImplicit false
open FiniteMap StateExcept Transition Supervisor

variable {k : Answers} {s s' : Supervisor} {p : Pid} {event : String}
  {detail : List (String × Value)} {records : List Record} {r : Record}

namespace Record

def value (r : Record) (key : String) : Option Value := r.detail.lookup key

def created (records : List Record) : Nat := records.countP fun r => r.event = "thread_create"

/-- The thread that has control once the `schedule` records are folded. -/
def lastTo (records : List Record) : Value :=
  records.foldl (fun v r => if r.event = "schedule" then (r.value "to").getD .null else v) .null

/-- The id is the init's or a created thread's, and no `thread_exit` has named it. -/
def Live (records : List Record) (v : Value) : Prop :=
  (v = .num 0 ∨ ∃ r ∈ records, r.event = "thread_create" ∧ r.value "tid" = some v) ∧
    ∀ r ∈ records, r.event = "thread_exit" → r.value "tid" ≠ some v

/-- The record may follow the records before it. -/
structure Continues (records : List Record) (r : Record) : Prop where
  seq : r.seq = records.length + 1
  creation : r.event = "thread_create" → r.value "tid" = some (.num (created records + 1))
  control : r.event = "schedule" → r.value "from" = some (lastTo records) ∧
    ∃ v, r.value "to" = some v ∧ v ≠ lastTo records ∧ Live records v ∧
      (lastTo records = .null → v = .num 0)
  named : r.event = "futex" ∨ r.event = "thread_exit" →
    ∀ v, r.value "tid" = some v → Live records v

def WellFormed (records : List Record) : Prop :=
  ∀ before r after, records = before ++ r :: after → Continues before r

theorem WellFormed.nil : WellFormed [] := by
  intro before r after h
  simp at h

theorem WellFormed.snoc (h : WellFormed records) (hNext : Continues records r) :
    WellFormed (records ++ [r]) := by
  intro before r' after hSplit
  rcases List.eq_nil_or_concat after with rfl | ⟨rest, last, rfl⟩
  · obtain ⟨rfl, hLast⟩ := List.append_inj' hSplit rfl
    cases hLast
    exact hNext
  · rw [List.concat_eq_append, ← List.cons_append, ← List.append_assoc] at hSplit
    obtain ⟨hSame, _⟩ := List.append_inj' hSplit rfl
    exact h before r' rest hSame

theorem created_snoc (records : List Record) (r : Record) :
    created (records ++ [r]) =
      if r.event = "thread_create" then created records + 1 else created records := by
  simp only [created, List.countP_append, List.countP_singleton, decide_eq_true_eq]
  split
  · rfl
  · rfl

theorem lastTo_snoc (records : List Record) (r : Record) :
    lastTo (records ++ [r]) =
      if r.event = "schedule" then (r.value "to").getD .null else lastTo records :=
  List.foldl_append

theorem Live.snoc {v : Value} (h : Live records v)
    (hLeft : r.event = "thread_exit" → r.value "tid" ≠ some v) : Live (records ++ [r]) v := by
  obtain ⟨hKnown, hStays⟩ := h
  refine ⟨hKnown.imp_right fun ⟨r', hr, hRest⟩ => ⟨r', List.mem_append_left _ hr, hRest⟩, ?_⟩
  intro r' hr
  rcases List.mem_append.mp hr with hr | hr
  · exact hStays r' hr
  · rw [List.mem_singleton.mp hr]
    exact hLeft

end Record

open Record

/-- The fields that the history is tied to. -/
structure Ledger where
  trace : List Record
  seq : Nat
  vtidNext : Nat
  lastVtid : Option Nat
  threads : PidMap Thread
  current : Option Pid

def Supervisor.ledger (s : Supervisor) : Ledger :=
  ⟨s.trace, s.seq, s.vtidNext, s.lastVtid, s.threads, s.current⟩

/-- The new entry that `register_thread` makes. -/
def Supervisor.joined (s : Supervisor) (p : Pid) (info : CloneInfo) : Supervisor :=
  { s with
    vtidNext := s.vtidNext + 1
    threads := s.threads.insert p
      ⟨s.vtidNext, info.childTid, info.flags, info.flags &&& CLONE_THREAD ≠ 0⟩ }

/-- What holds wherever the supervisor waits or ends. -/
structure Told (s : Supervisor) : Prop where
  formed : WellFormed s.trace
  current : ∀ p t, s.current = some p → s.threads.get p = some t → lastTo s.trace = .num t.vtid

structure Recorded (s : Supervisor) : Prop where
  formed : WellFormed s.trace
  seq : s.seq = s.trace.length
  next : s.vtidNext = created s.trace + 1
  begun : s.lastVtid ≠ none
  last : lastTo s.trace = vtidOf s.lastVtid
  live : ∀ p t, s.threads.get p = some t → Live s.trace (.num t.vtid)
  issued : ∀ p t, s.threads.get p = some t → t.vtid < s.vtidNext
  distinct : ∀ p q t u, s.threads.get p = some t → s.threads.get q = some u →
    t.vtid = u.vtid → p = q
  ended : ∀ r ∈ s.trace, r.event = "thread_exit" → ∀ n : Nat, r.value "tid" = some (.num n) →
    n < s.vtidNext
  current : ∀ p t, s.current = some p → s.threads.get p = some t → s.lastVtid = some t.vtid

namespace Recorded

theorem told (h : Recorded s) : Told s where
  formed := h.formed
  current := fun p t hCurrent hLookup => by rw [h.last, h.current p t hCurrent hLookup, vtidOf]

theorem congr (h : Recorded s) (hLedger : s'.ledger = s.ledger) : Recorded s' := by
  obtain ⟨hTrace, hSeq, hNext, hLast, hThreads, hCurrent⟩ := Ledger.mk.inj hLedger
  refine ⟨?_, ?_, ?_, ?_, ?_, ?_, ?_, ?_, ?_, ?_⟩
  · exact hTrace ▸ h.formed
  · rw [hSeq, hTrace]
    exact h.seq
  · rw [hNext, hTrace]
    exact h.next
  · exact hLast ▸ h.begun
  · rw [hTrace, hLast]
    exact h.last
  · rw [hThreads, hTrace]
    exact h.live
  · rw [hThreads, hNext]
    exact h.issued
  · rw [hThreads]
    exact h.distinct
  · rw [hTrace, hNext]
    exact h.ended
  · rw [hCurrent, hThreads, hLast]
    exact h.current

theorem vacate (h : Recorded s) : Recorded { s with current := none } :=
  { h with current := fun p _ hCurrent => absurd hCurrent.symm (Option.some_ne_none p) }

theorem note (h : Recorded s)
    (hPlain : event ∉ ["thread_create", "schedule", "thread_exit"])
    (hNamed : event = "futex" → ∀ v, detail.lookup "tid" = some v → Live s.trace v) :
    Recorded (s.traceJson event detail) := by
  simp only [List.mem_cons, List.not_mem_nil, or_false, not_or] at hPlain
  obtain ⟨hCreate, hSchedule, hExit⟩ := hPlain
  have hNext : Continues s.trace ⟨s.seq + 1, event, detail⟩ := by
    refine ⟨by rw [h.seq], fun hEvent => absurd hEvent hCreate,
      fun hEvent => absurd hEvent hSchedule, fun hEvent => ?_⟩
    exact hNamed (hEvent.resolve_right hExit)
  refine ⟨h.formed.snoc hNext, ?_, ?_, h.begun, ?_, fun p t hLookup => ?_, h.issued, h.distinct,
    fun r hr hEvent => ?_, h.current⟩
  · simp [traceJson, h.seq]
  · simp only [traceJson, created_snoc, if_neg hCreate]
    exact h.next
  · simp only [traceJson, lastTo_snoc, if_neg hSchedule]
    exact h.last
  · exact (h.live p t hLookup).snoc fun hEvent => absurd hEvent hExit
  · rcases List.mem_append.mp hr with hr | hr
    · exact h.ended r hr hEvent
    · rw [List.mem_singleton.mp hr] at hEvent
      exact absurd hEvent hExit

theorem scheduled {thread : Thread} (h : Recorded s) (hLookup : s.threads.get p = some thread) :
    Recorded (s.scheduled p thread) := by
  have hCurrent (q : Pid) (t : Thread) (hq : some p = some q) (ht : s.threads.get q = some t) :
      some thread.vtid = some t.vtid := by
    cases hq
    rw [hLookup] at ht
    rw [Option.some.inj ht]
  by_cases hSame : s.lastVtid = some thread.vtid
  · have hState : s.scheduled p thread =
        { s with lastVtid := s.lastVtid, current := some p } := by
      rw [Supervisor.scheduled, if_neg (not_not_intro hSame), hSame]
    rw [hState]
    exact { h with current := fun q t hq ht => hSame.trans (hCurrent q t hq ht) }
  · have hState : s.scheduled p thread = { s.traceJson "schedule"
        [("from", vtidOf s.lastVtid), ("to", .num thread.vtid)] with
        lastVtid := some thread.vtid
        current := some p } := by
      rw [Supervisor.scheduled, if_pos hSame]
    obtain ⟨last, hLast⟩ := Option.ne_none_iff_exists'.mp h.begun
    have hNext : Continues s.trace ⟨s.seq + 1, "schedule",
        [("from", vtidOf s.lastVtid), ("to", .num thread.vtid)]⟩ := by
      refine ⟨by rw [h.seq], fun hEvent => ?_, fun _ => ⟨by rw [h.last]; rfl, .num thread.vtid, rfl,
        ?_, h.live p thread hLookup, fun hNull => ?_⟩, fun hEvent => ?_⟩
      · simp at hEvent
      · rw [h.last, hLast, vtidOf]
        intro hEq
        have hVtid : (thread.vtid : Int) = last := Value.num.inj hEq
        rw [hLast] at hSame
        exact hSame (congrArg some (by omega))
      · rw [h.last, hLast] at hNull
        cases hNull
      · simp at hEvent
    rw [hState]
    refine ⟨h.formed.snoc hNext, ?_, ?_, (Option.some_ne_none _), ?_, fun q t ht => ?_, h.issued,
      h.distinct, fun r hr hEvent => ?_, hCurrent⟩
    · simp [traceJson, h.seq]
    · simp only [traceJson, created_snoc]
      exact h.next
    · simp only [traceJson, lastTo_snoc]
      rfl
    · exact (h.live q t ht).snoc fun hEvent => by simp at hEvent
    · rcases List.mem_append.mp hr with hr | hr
      · exact h.ended r hr hEvent
      · rw [List.mem_singleton.mp hr] at hEvent
        simp at hEvent

theorem joined (info : CloneInfo) (scheduled : Value) (h : Recorded s)
    (hFresh : s.registered p = false) (hCurrent : s.current ≠ some p) :
    Recorded ((s.joined p info).traceJson "thread_create"
      [("tid", .num s.vtidNext), ("scheduled", scheduled)]) := by
  have hNext : Continues s.trace ⟨s.seq + 1, "thread_create",
      [("tid", .num s.vtidNext), ("scheduled", scheduled)]⟩ := by
    refine ⟨by rw [h.seq], fun _ => ?_, fun hEvent => ?_, fun hEvent => ?_⟩
    · rw [h.next]
      rfl
    · simp at hEvent
    · simp at hEvent
  have entry {q : Pid} {t : Thread} (hq : Map.get (s.joined p info).threads q = some t) :
      (q = p ∧ t.vtid = s.vtidNext) ∨ (q ≠ p ∧ s.threads.get q = some t) := by
    rw [Supervisor.joined, Map.get_insert] at hq
    split at hq
    · rename_i hEq
      exact .inl ⟨hEq, congrArg Thread.vtid (Option.some.inj hq).symm⟩
    · rename_i hne
      exact .inr ⟨hne, hq⟩
  have hLive : Live (s.trace ++ [⟨s.seq + 1, "thread_create",
      [("tid", .num s.vtidNext), ("scheduled", scheduled)]⟩]) (.num s.vtidNext) := by
    refine ⟨.inr ⟨_, List.mem_append_right _ (List.mem_singleton_self _), rfl, rfl⟩, ?_⟩
    intro r hr hEvent hTid
    rcases List.mem_append.mp hr with hr | hr
    · exact absurd (h.ended r hr hEvent s.vtidNext hTid) (by omega)
    · rw [List.mem_singleton.mp hr] at hEvent
      simp at hEvent
  refine ⟨h.formed.snoc hNext, ?_, ?_, h.begun, ?_, fun q t hq => ?_, fun q t hq => ?_,
    fun q q' t t' hq hq' hSame => ?_, fun r hr hEvent n hTid => ?_, fun q t hNow hq => ?_⟩
  · simp [traceJson, Supervisor.joined, h.seq]
  · simp only [traceJson, Supervisor.joined, created_snoc]
    rw [h.next]
    rfl
  · simp only [traceJson, Supervisor.joined, lastTo_snoc]
    exact h.last
  · rcases entry hq with ⟨_, hVtid⟩ | ⟨_, hOld⟩
    · exact hVtid ▸ hLive
    · exact (h.live q t hOld).snoc fun hEvent => by simp at hEvent
  · rcases entry hq with ⟨_, hVtid⟩ | ⟨_, hOld⟩
    · rw [hVtid]
      exact Nat.lt_succ_self _
    · exact Nat.lt_succ_of_lt (h.issued q t hOld)
  · rcases entry hq with ⟨rfl, hVtid⟩ | ⟨_, hOld⟩
    · rcases entry hq' with ⟨rfl, _⟩ | ⟨_, hOld'⟩
      · rfl
      · exact absurd (h.issued q' t' hOld') (by omega)
    · rcases entry hq' with ⟨_, hVtid⟩ | ⟨_, hOld'⟩
      · exact absurd (h.issued q t hOld) (by omega)
      · exact h.distinct q q' t t' hOld hOld' hSame
  · rcases List.mem_append.mp hr with hr | hr
    · exact Nat.lt_succ_of_lt (h.ended r hr hEvent n hTid)
    · rw [List.mem_singleton.mp hr] at hEvent
      simp at hEvent
  · rcases entry hq with ⟨rfl, _⟩ | ⟨_, hOld⟩
    · exact absurd hNow hCurrent
    · exact h.current q t hNow hOld

theorem erased (h : Recorded s) (p : Pid) :
    Recorded { s with threads := s.threads.erase p } := by
  have entry {q : Pid} {t : Thread} (hq : Map.get (s.threads.erase p) q = some t) :
      s.threads.get q = some t := by
    rw [Map.get_erase] at hq
    split at hq
    · cases hq
    · exact hq
  exact { h with
    live := fun q t hq => h.live q t (entry hq)
    issued := fun q t hq => h.issued q t (entry hq)
    distinct := fun q q' t t' hq hq' => h.distinct q q' t t' (entry hq) (entry hq')
    current := fun q t hNow hq => h.current q t hNow (entry hq) }

theorem left {thread : Thread} (h : Recorded s) (hLookup : s.threads.get p = some thread) :
    Recorded (({ s with threads := s.threads.erase p } : Supervisor).traceJson "thread_exit"
      [("tid", .num thread.vtid)]) := by
  have hNext : Continues s.trace ⟨s.seq + 1, "thread_exit", [("tid", .num thread.vtid)]⟩ := by
    refine ⟨by rw [h.seq], fun hEvent => ?_, fun hEvent => ?_, fun _ v hTid => ?_⟩
    · simp at hEvent
    · simp at hEvent
    · have hValue : Value.num thread.vtid = v := Option.some.inj hTid
      exact hValue ▸ h.live p thread hLookup
  have hRest := h.erased p
  refine ⟨h.formed.snoc hNext, ?_, ?_, h.begun, ?_, fun q t hq => ?_, hRest.issued, hRest.distinct,
    fun r hr hEvent n hTid => ?_, hRest.current⟩
  · simp [traceJson, h.seq]
  · simp only [traceJson, created_snoc]
    exact h.next
  · simp only [traceJson, lastTo_snoc]
    exact h.last
  · refine (hRest.live q t hq).snoc fun _ hTid => ?_
    have hVtid : (thread.vtid : Int) = t.vtid := Value.num.inj (Option.some.inj hTid)
    rw [show (traceJson { s with threads := s.threads.erase p } "thread_exit"
      [("tid", .num thread.vtid)]).threads = s.threads.erase p from rfl, Map.get_erase] at hq
    split at hq
    · cases hq
    · rename_i hne
      exact hne (h.distinct q p t thread hq hLookup (by omega))
  · rcases List.mem_append.mp hr with hr | hr
    · exact h.ended r hr hEvent n hTid
    · rw [List.mem_singleton.mp hr] at hTid
      have hVtid : (thread.vtid : Int) = n := Value.num.inj (Option.some.inj hTid)
      have hIssued := h.issued p thread hLookup
      exact (by omega : n < s.vtidNext)

theorem exited (h : Recorded s) (p : Pid) (record : Bool) :
    Recorded (s.onThreadExit p record) := by
  simp only [onThreadExit]
  cases hLookup : s.threads.get p with
  | none => exact h.congr rfl
  | some thread =>
    simp only []
    rw [clearTidWake_frame]
    cases record with
    | true => exact (h.left hLookup).congr rfl
    | false => exact (h.erased p).congr rfl

end Recorded

/-! ## The handlers -/

theorem ptraceResult_ledger {α : Type} (r : Except Errno α) :
    Keeps Supervisor.ledger (ptraceResult r) := by
  cases r with
  | ok a => exact .pure a
  | error e => exact .throw _

theorem ptraceSyscall_ledger (sig : Option Signal) :
    Keeps Supervisor.ledger (ptraceSyscall k p sig) :=
  .bind (ptraceResult_ledger _) fun _ => .modify fun _ => rfl

theorem resumeThread_ledger : Keeps Supervisor.ledger (resumeThread k p) :=
  fun _ => .get_bind (.set_bind rfl (ptraceSyscall_ledger _))

theorem resumeCurrent_ledger : Keeps Supervisor.ledger (resumeCurrent k p) := by
  refine .bind .get fun s => ?_
  split
  · exact resumeThread_ledger
  · exact .pure _

theorem resumeTask_ledger : Keeps Supervisor.ledger (resumeTask k p) := by
  refine .bind .get fun s => ?_
  split
  · exact resumeCurrent_ledger
  · exact resumeThread_ledger

theorem release_ledger : Keeps Supervisor.ledger (release k p) := by
  refine .bind .get fun s => ?_
  split
  · exact .modify fun _ => rfl
  · exact resumeThread_ledger

theorem skipSyscall_ledger (syscall : Int) (retval : U64) :
    Keeps Supervisor.ledger (skipSyscall k p syscall retval) :=
  .bind (ptraceResult_ledger _) fun _ =>
    .bind (.bind (ptraceResult_ledger _) fun _ => .modify fun _ => rfl) fun _ =>
      .modify fun _ => rfl

theorem writeProcMem_ledger (addr : U64) (data : List Byte) :
    Keeps Supervisor.ledger (writeProcMem k p addr data) := by
  simp only [writeProcMem]
  cases k.writeMem p addr data with
  | ok n => exact .modify fun _ => rfl
  | error e => exact .throw _

theorem syscallName_plain (nr : Int) :
    syscallName nr ∉ ["thread_create", "schedule", "thread_exit"] := by
  have hNames : ∀ e ∈ syscallNames, e.2 ∉ ["thread_create", "schedule", "thread_exit"] := by
    decide
  rw [syscallName]
  cases hLookup : syscallNames.lookup nr with
  | none => decide
  | some name =>
    obtain ⟨before, rest, hSplit, _⟩ := List.lookup_eq_some_iff.mp hLookup
    exact hNames (nr, name) (hSplit ▸ List.mem_append_right _ List.mem_cons_self)

/-- From `s` the program goes on with the history and its fields in step. -/
def RecordsAt {α : Type} (x : SupM α) (s : Supervisor) : Prop :=
  Ends (fun _ => Recorded) Told (x s)

namespace RecordsAt

variable {α β : Type} {x : SupM α} {f : α → SupM β}

theorem get_bind {g : Supervisor → SupM β} (h : RecordsAt (g s) s) : RecordsAt (get >>= g) s := h

theorem set_bind {t : Supervisor} {g : Unit → SupM β} (h : RecordsAt (g ()) t) :
    RecordsAt (set t >>= g) s := h

theorem pure {a : α} (h : Recorded s) : RecordsAt (pure a) s := h

theorem throw {e : SuperviseError} (h : Recorded s) :
    RecordsAt (throw e : SupM α) s := h.told

theorem modify {g : Supervisor → Supervisor} (h : Recorded (g s)) :
    RecordsAt (modify g) s := h

theorem kept (h : Recorded s) (hx : Keeps Supervisor.ledger x) : RecordsAt x s :=
  (Ends.of_keeps (hx s)).mono (fun _ _ hLedger => h.congr hLedger) fun _ hLedger =>
    (h.congr hLedger).told

theorem bind (hx : RecordsAt x s) (hf : ∀ a t, Recorded t → RecordsAt (f a) t) :
    RecordsAt (x >>= f) s :=
  Ends.bind (hx.mono hf fun _ hTold => hTold)

theorem after (h : Recorded s) (hx : Keeps Supervisor.ledger x)
    (hf : ∀ a t, t.ledger = s.ledger → Recorded t → RecordsAt (f a) t) : RecordsAt (x >>= f) s :=
  Ends.bind ((Ends.of_keeps (hx s)).mono (fun a t hLedger => hf a t hLedger (h.congr hLedger))
    fun _ hLedger => (h.congr hLedger).told)

end RecordsAt

namespace Recorded

theorem noteSyscall (h : Recorded s) (nr : Int) (kind : String) :
    Recorded (s.traceSyscall nr kind) :=
  h.note (syscallName_plain nr) fun _ v hTid => by simp [List.lookup_cons] at hTid

theorem noteFutex (h : Recorded s) (hKnown : s.registered p = true) (op kind : String) :
    Recorded (s.traceFutex p op kind) := by
  refine h.note (by decide) fun _ v hTid => ?_
  obtain ⟨thread, hLookup⟩ := Option.isSome_iff_exists.mp hKnown
  simp only [hLookup, Option.map_some, vtidOf, List.lookup_cons] at hTid
  have hValue : Value.num thread.vtid = v := by simpa using hTid
  exact hValue ▸ h.live p thread hLookup

theorem noteLifecycle (h : Recorded s) {event : String} (hEvent : event = "exit" ∨ event = "signal")
    (code : Int) : Recorded (s.traceLifecycle event code) := by
  refine h.note ?_ fun hFutex => ?_
  · rcases hEvent with rfl | rfl
    · decide
    · decide
  · rcases hEvent with rfl | rfl
    · simp at hFutex
    · simp at hFutex

theorem scheduleLoop (h : Recorded s) (queue : List Pid) : RecordsAt (scheduleLoop k queue) s := by
  induction queue generalizing s with
  | nil =>
    change RecordsAt (if s.pendingStart.Nonempty ∨ s.anyConcurrent = true then pure () else
      throw .deadlock) s
    split
    · exact .pure h
    · exact .throw h
  | cons tid rest ih =>
    have hRest : Recorded { s with runnable := rest } := h.congr rfl
    refine .bind (.modify hRest) fun _ t ht => ?_
    refine .get_bind ?_
    cases hLookup : t.threads.get tid with
    | none => exact ih ht
    | some thread =>
      dsimp only
      split
      · exact ih ht
      · have hRun : runThread k tid thread t = resumeThread k tid (t.scheduled tid thread) := rfl
        rw [RecordsAt, hRun]
        exact RecordsAt.kept (ht.scheduled hLookup) resumeThread_ledger

theorem scheduleNext (h : Recorded s) : RecordsAt (scheduleNext k) s := h.scheduleLoop s.runnable

theorem yieldCurrent (h : Recorded s) : RecordsAt (yieldCurrent k p) s := by
  refine .bind (.modify ?_) fun _ t ht => ht.scheduleNext
  split
  · exact h.vacate.congr rfl
  · exact h

theorem registerThread {info : CloneInfo} (h : Recorded s)
    (hCurrent : s.registered p = false → s.current ≠ some p) :
    RecordsAt (registerThread k p info) s := by
  have run : ∀ b, s.registered p = b → RecordsAt (Dtrun.registerThread k p info) s := by
    intro b hb
    cases b with
    | true =>
      have hRun : Dtrun.registerThread k p info s = .ok () s := by
        rw [Dtrun.registerThread, bind_of_ok (get_apply s), if_pos hb]
        rfl
      rw [RecordsAt, hRun]
      exact h
    | false =>
      have hNew (t : Supervisor) (hLedger : t.ledger = (s.joined p info).ledger) :
          Recorded (t.traceJson "thread_create" [("tid", .num s.vtidNext),
            ("scheduled", .bool (info.flags &&& CLONE_THREAD ≠ 0))]) := by
        refine (h.joined info (.bool (info.flags &&& CLONE_THREAD ≠ 0)) hb (hCurrent hb)).congr ?_
        obtain ⟨hTrace, hSeq, hNext, hLast, hThreads, hNow⟩ := Ledger.mk.inj hLedger
        simp only [ledger, traceJson, hTrace, hSeq, hNext, hLast, hThreads, hNow]
      have hEnd (t : Supervisor) (hLedger : t.ledger = (s.joined p info).ledger) : Told t := by
        obtain ⟨hTrace, _, _, _, hThreads, hNow⟩ := Ledger.mk.inj hLedger
        refine ⟨hTrace ▸ h.formed, fun q u hq hu => ?_⟩
        rw [hNow] at hq
        have hne : q ≠ p := by
          rintro rfl
          exact hCurrent hb hq
        rw [hThreads, Supervisor.joined, Map.get_insert, if_neg hne] at hu
        rw [hTrace]
        exact h.told.current q u hq hu
      rw [RecordsAt, Dtrun.registerThread, bind_of_ok (get_apply s), if_neg (by simp [hb]),
        bind_of_ok (set_apply _ _)]
      split
      · rw [bind_of_ok (modify_apply _ _)]
        exact .bind ((Ends.of_keeps (release_ledger _)).mono (fun _ t hLedger => hNew t hLedger) hEnd)
      · rw [bind_of_ok (modify_apply _ _)]
        exact hNew _ rfl
  exact run _ rfl

theorem interceptGetrandom (h : Recorded s) (regs : Regs) :
    RecordsAt (interceptGetrandom k p regs) s := by
  have skip (v : Supervisor) (hv : Recorded v) (retval : U64) (n : Nat) (out : List Byte) :
      RecordsAt (do
        skipSyscall k p SYS_getrandom retval
        modify (·.traceJson "getrandom"
          [("nbytes", .num n), ("bytes", .str (hexBytes out))])) v :=
    .after hv (skipSyscall_ledger _ _) fun _ t _ ht => .modify (ht.note (by decide) (by simp))
  have hDrawn : Recorded { s with rng := (s.rng.fill (min regs.rsi.toNat (1 <<< 20))).2 } :=
    h.congr rfl
  refine .get_bind (.set_bind ?_)
  dsimp only
  split
  · exact .after hDrawn (writeProcMem_ledger _ _) fun _ t _ ht => skip t ht _ _ _
  · exact skip _ hDrawn _ _ _

theorem interceptClockGettime (h : Recorded s) (regs : Regs) :
    RecordsAt (interceptClockGettime k p regs) s := by
  have hRead : Recorded (s.virtualClock (regs.rdi.setWidth 32)).2 := by
    refine h.congr ?_
    simp only [virtualClock]
    split
    · rfl
    · split
      · rfl
      · rfl
  exact .get_bind (.set_bind (.after hRead (writeProcMem_ledger _ _) fun _ t _ ht =>
    .after ht (skipSyscall_ledger _ _) fun _ v _ hv => .modify (hv.note (by decide) (by simp))))

theorem interceptGettimeofday (h : Recorded s) (regs : Regs) :
    RecordsAt (interceptGettimeofday k p regs) s := by
  exact .get_bind (.set_bind (.after h (writeProcMem_ledger _ _) fun _ t _ ht =>
    .after ht (skipSyscall_ledger _ _) fun _ v _ hv => .modify (hv.note (by decide) (by simp))))

theorem interceptFutex (h : Recorded s) (hKnown : s.registered p = true) (regs : Regs) :
    RecordsAt (interceptFutex k p regs) s := by
  have known {v : Supervisor} (hLedger : v.ledger = s.ledger) : v.registered p = true := by
    rw [← hKnown, Supervisor.registered, Supervisor.registered]
    exact congrArg (fun l => (Map.get l.threads p).isSome) hLedger
  have note {v : Supervisor} (hLedger : v.ledger = s.ledger) (op kind : String) (b : Bool) :
      RecordsAt (do modify (·.traceFutex p op kind); pure b) v :=
    .bind (.modify ((h.congr hLedger).noteFutex (known hLedger) _ _)) fun _ _ ht => .pure ht
  have skip {v : Supervisor} (hLedger : v.ledger = s.ledger) (retval : U64) (op kind : String) :
      RecordsAt (do
        skipSyscall k p SYS_futex retval
        modify (·.traceFutex p op kind)
        pure false) v :=
    .after (h.congr hLedger) (skipSyscall_ledger _ _) fun _ t ht _ =>
      note (ht.trans hLedger) _ _ _
  have woken (v : Supervisor) (addr val : U64) : (v.wake addr val).2.ledger = v.ledger := by
    rw [wake_frame]
    rfl
  refine .get_bind ?_
  dsimp only
  split
  · exact note rfl _ _ _
  split
  · split
    · refine .after h (skipSyscall_ledger _ _) fun _ t ht _ => ?_
      have hParked : (t.block p regs.rdi).ledger = s.ledger := ht
      exact .bind (.modify ((h.congr hParked).noteFutex (known hParked) _ _)) fun _ _ ht => .pure ht
    · exact note rfl _ _ _
  split
  · exact .set_bind (skip (woken _ _ _) _ _ _)
  split
  · split
    · exact note rfl _ _ _
    · exact .set_bind (skip ((woken _ _ _).trans (woken _ _ _)) _ _ _)
  · exact note rfl _ _ _

theorem onSyscallEntry (h : Recorded s) (hKnown : s.registered p = true) :
    RecordsAt (onSyscallEntry k p) s := by
  have answer {x : SupM Unit} {v : Supervisor} (hx : RecordsAt x v) :
      RecordsAt (do x; pure false) v := .bind hx fun _ _ ht => .pure ht
  refine .after h (ptraceResult_ledger _) fun regs t ht hRecorded => ?_
  dsimp only
  split
  · exact answer (hRecorded.interceptGetrandom regs)
  split
  · exact answer (hRecorded.interceptClockGettime regs)
  split
  · exact answer (hRecorded.interceptGettimeofday regs)
  split
  · refine hRecorded.interceptFutex ?_ regs
    rw [← hKnown, Supervisor.registered, Supervisor.registered]
    exact congrArg (fun l => (Map.get l.threads p).isSome) ht
  split
  · have hExiting : Recorded { t with groupExiting := true } := hRecorded.congr rfl
    exact answer (.modify (hExiting.noteSyscall _ _))
  split
  · have hStashed : Recorded { t with
        clonePending := t.clonePending.insert p (cloneArgs k p regs.origRax.toInt regs) } :=
      hRecorded.congr rfl
    exact .bind (.modify hStashed) fun _ _ hv => answer (.modify (hv.noteSyscall _ _))
  · exact answer (.modify (hRecorded.noteSyscall _ _))

theorem onSyscallExit (h : Recorded s) : RecordsAt (onSyscallExit k p) s := by
  have hTaken : Recorded { s with pending := s.pending.erase p } := h.congr rfl
  refine .get_bind (.set_bind ?_)
  split
  · exact .pure hTaken
  · exact .after hTaken (ptraceResult_ledger _) fun regs t _ ht =>
      .after ht (.bind (ptraceResult_ledger _) fun _ => .modify fun _ => rfl) fun _ v _ hv =>
        .modify (hv.noteSyscall _ _)

theorem dispatchSyscall (h : Recorded s) (hKnown : s.registered p = true) :
    RecordsAt (dispatchSyscall k p) s := by
  refine .after h (ptraceResult_ledger _) fun op t ht hRecorded => .get_bind ?_
  have hStill : t.registered p = true := by
    rw [← hKnown, Supervisor.registered, Supervisor.registered]
    exact congrArg (fun l => (Map.get l.threads p).isSome) ht
  have resume {v : Supervisor} (hv : Recorded v) : RecordsAt (resumeThread k p) v :=
    .kept hv resumeThread_ledger
  have goOn {v : Supervisor} (hv : Recorded v) : RecordsAt (resumeCurrent k p) v :=
    .kept hv resumeCurrent_ledger
  split
  · cases op with
    | entry =>
      refine .bind (Ends.discard (hRecorded.onSyscallEntry hStill)) fun _ _ hv => resume hv
    | exit => exact .bind hRecorded.onSyscallExit fun _ _ hv => resume hv
    | none => exact resume hRecorded
    | seccomp => exact resume hRecorded
  · cases op with
    | entry =>
      refine .bind (hRecorded.onSyscallEntry hStill) fun parked v hv => ?_
      cases parked with
      | true => exact .modify hv.vacate
      | false => exact goOn hv
    | exit => exact .bind hRecorded.onSyscallExit fun _ _ hv => hv.yieldCurrent
    | none => exact goOn hRecorded
    | seccomp => exact goOn hRecorded

theorem dispatchClone (h : Recorded s) (hChild : ∀ child, k.getevent p = .ok child →
    s.registered child = false → s.current ≠ some child) : RecordsAt (dispatchClone k p) s := by
  rw [RecordsAt, Dtrun.dispatchClone]
  cases hEvent : k.getevent p with
  | error e => exact h.told
  | ok child =>
    have hTaken : Recorded { s with clonePending := s.clonePending.erase p } := h.congr rfl
    refine Ends.bind (RecordsAt.get_bind (.set_bind ?_))
    refine .bind (hTaken.registerThread (hChild child hEvent)) fun _ v hv => .get_bind ?_
    split
    · exact .pure hv
    · exact .bind (.kept hv resumeTask_ledger) fun _ _ ht => .pure ht

theorem dispatchStopped (h : Recorded s) (sig : Signal) :
    RecordsAt (dispatchStopped k p sig) s := by
  refine .get_bind ?_
  split
  · split
    · exact .kept h resumeThread_ledger
    split
    · have hSeen : Recorded { s with pendingStart := s.pendingStart.erase p } := h.congr rfl
      exact .set_bind (.kept hSeen release_ledger)
    split
    · have hSeen : Recorded { s with stoppedPending := insert p s.stoppedPending } := h.congr rfl
      exact .modify (g := fun _ => _) hSeen
    · exact .pure h
  · split
    · exact .kept h (ptraceSyscall_ledger _)
    split
    · have hNoted : Recorded { s with sigPending := s.sigPending.insert p sig } := h.congr rfl
      exact .modify (g := fun _ => _) hNoted
    split
    · exact .kept h (ptraceSyscall_ledger _)
    · exact .pure h

theorem dispatchExit (h : Recorded s) : RecordsAt (dispatchExit k p) s := by
  refine .get_bind (.set_bind (.get_bind ?_))
  split
  · exact .bind (.modify (h.exited p _).vacate) fun _ _ ht => ht.scheduleNext
  · exact .pure (h.exited p _)

theorem dispatch {status : WaitStatus} (h : Recorded s)
    (hKnown : ∀ p, status = .ptraceSyscall p → s.registered p = true)
    (hChild : ∀ p sig event child, status = .ptraceEvent p sig event → event.creates = true →
      k.getevent p = .ok child → s.registered child = false → s.current ≠ some child) :
    RecordsAt (dispatch k status) s := by
  have next {x : SupM Unit} (hx : RecordsAt x s) : RecordsAt (do x; pure Flow.next) s :=
    .bind hx fun _ _ ht => .pure ht
  have death {p : Pid} {event : String} {code code' : Int}
      (hEvent : event = "exit" ∨ event = "signal") : RecordsAt (do
        if p = (← get).pid then
          modify (·.traceLifecycle event code)
          pure (Flow.exit code')
        else
          Dtrun.dispatchExit k p
          pure Flow.next) s := by
    refine .get_bind ?_
    split
    · exact .bind (.modify (h.noteLifecycle hEvent code)) fun _ _ ht => .pure ht
    · exact next h.dispatchExit
  cases status with
  | ptraceSyscall p => exact next (h.dispatchSyscall (hKnown p rfl))
  | ptraceEvent p sig event =>
    cases event with
    | clone => exact h.dispatchClone fun child => hChild p sig .clone child rfl rfl
    | fork => exact h.dispatchClone fun child => hChild p sig .fork child rfl rfl
    | vfork => exact h.dispatchClone fun child => hChild p sig .vfork child rfl rfl
    | exit => exact next (.kept h resumeThread_ledger)
    | exec => exact next (.kept h resumeTask_ledger)
    | vforkDone => exact next (.kept h resumeTask_ledger)
    | seccomp => exact next (.kept h resumeTask_ledger)
    | stop => exact next (.kept h resumeTask_ledger)
  | stopped p sig => exact next (h.dispatchStopped sig)
  | exited p code => exact death (.inl rfl)
  | signaled p sig core => exact death (.inr rfl)
  | continued p => exact .pure h
  | stillAlive => exact .pure h

theorem runTail (h : Recorded s) : RecordsAt (runTail k) s := by
  refine .get_bind ?_
  split
  · exact h.scheduleNext
  · exact .pure h

theorem pass {awaits : List Await} {status : WaitStatus} (h : Recorded s)
    (hKnown : ∀ p, status = .ptraceSyscall p → s.registered p = true)
    (hChild : ∀ p sig event child, status = .ptraceEvent p sig event → event.creates = true →
      k.getevent p = .ok child → s.registered child = false → s.current ≠ some child) :
    RecordsAt (pass k awaits status) s := by
  have tail {v : Supervisor} (hv : Recorded v) (turn : Turn) :
      RecordsAt (do Dtrun.runTail k; Pure.pure turn) v := .bind hv.runTail fun _ _ ht => .pure ht
  cases awaits with
  | nil =>
    refine .bind (h.dispatch hKnown hChild) fun flow v hv => ?_
    cases flow with
    | next => exact tail hv _
    | exit code => exact .pure hv
    | await w => exact .pure hv
  | cons w outer =>
    simp only [Dtrun.pass, awaitPass]
    split
    · have hSeen : Recorded { s with pendingStart := s.pendingStart.erase w.child } := h.congr rfl
      refine .bind (.modify hSeen) fun _ _ ht => .bind (.kept ht release_ledger) fun _ _ ht =>
        .bind (.kept ht resumeTask_ledger) fun _ v hv => ?_
      split
      · exact tail hv _
      · exact .pure hv
    · refine .bind (h.dispatch hKnown hChild) fun flow v hv => ?_
      cases flow with
      | next => exact .pure hv
      | exit code => exact .pure hv
      | await inner => exact .pure hv

end Recorded

/-! ## Along a run -/

theorem Machine.settle_recorded {log : List Effect}
    {result : EStateM.Result SuperviseError Supervisor Turn}
    (h : Ends (fun _ => Recorded) Told result) :
    ((settle log result).result = none → Recorded (settle log result).sv) ∧
      Told (settle log result).sv := by
  cases result with
  | error e s => exact ⟨fun hOpen => absurd hOpen.symm (Option.some_ne_none _).symm, h⟩
  | ok turn s =>
    have hRecorded : Recorded s := h
    cases turn with
    | wait awaits => exact ⟨fun _ => hRecorded, hRecorded.told⟩
    | done code => exact ⟨fun _ => hRecorded, hRecorded.told⟩

theorem Machine.boot_recorded (pid : Pid) (seed : U64) :
    RecordsAt (boot k) (fresh pid seed) := by
  have hLookup : (fresh pid seed).threads.get pid = some ⟨0, 0, 0, true⟩ := by
    simp [fresh, Map.get_singleton]
  have hRun : scheduleLoop k (fresh pid seed).runnable (fresh pid seed) =
      resumeThread k pid (({ fresh pid seed with runnable := [] } : Supervisor).scheduled pid
        ⟨0, 0, 0, true⟩) := by
    change scheduleLoop k [pid] (fresh pid seed) = _
    rw [scheduleLoop, bind_of_ok (modify_apply _ _), bind_of_ok (get_apply _)]
    simp only [hLookup]
    rfl
  have hNext : Continues [] ⟨1, "schedule", [("from", .null), ("to", .num 0)]⟩ := by
    refine ⟨rfl, fun hEvent => ?_, fun _ => ⟨rfl, .num 0, rfl, ?_, ?_, fun _ => rfl⟩, fun hEvent => ?_⟩
    · simp at hEvent
    · decide
    · exact ⟨.inl rfl, fun r hr => absurd hr List.not_mem_nil⟩
    · simp at hEvent
  have entry {q : Pid} {t : Thread} (hq : (fresh pid seed).threads.get q = some t) :
      q = pid ∧ t.vtid = 0 := by
    simp only [fresh, Map.get_singleton] at hq
    split at hq
    · rename_i hEq
      cases hq
      exact ⟨hEq, rfl⟩
    · cases hq
  have hFirst : Recorded (({ fresh pid seed with runnable := [] } : Supervisor).scheduled pid
      ⟨0, 0, 0, true⟩) := by
    refine ⟨WellFormed.nil.snoc hNext, rfl, rfl, Option.some_ne_none _, rfl, fun q t hq => ?_,
      fun q t hq => ?_, fun q q' t t' hq hq' _ => ?_, fun r hr hEvent => ?_, fun q t _ hq => ?_⟩
    · rw [(entry hq).2]
      refine ⟨.inl rfl, fun r hr hEvent => ?_⟩
      rw [List.mem_singleton.mp hr] at hEvent
      simp at hEvent
    · exact (entry hq).2 ▸ Nat.one_pos
    · rw [(entry hq).1, (entry hq').1]
    · rw [List.mem_singleton.mp hr] at hEvent
      simp at hEvent
    · exact congrArg some (entry hq).2.symm
  refine RecordsAt.bind ?_ fun _ _ ht => .pure ht
  change Ends _ _ (scheduleLoop k (fresh pid seed).runnable (fresh pid seed))
  rw [hRun]
  exact RecordsAt.kept hFirst resumeThread_ledger

namespace World

variable {pid : Pid} {seed : U64} {w : World}

theorem recorded (h : (system pid seed).Reach Unheld w) :
    (w.machine.result = none → Recorded w.machine.sv) ∧ Told w.machine.sv := by
  refine System.Reach.invariant (I := fun w =>
    (w.machine.result = none → Recorded w.machine.sv) ∧ Told w.machine.sv) ?_ ?_ h
  · rintro _ ⟨k, rfl⟩
    exact Machine.settle_recorded (Machine.boot_recorded pid seed)
  · intro w l w' hReach hOld _ hStep
    cases l with
    | spawn p c thread vm => rwa [spawn_machine hStep]
    | exec p => rwa [exec_machine hStep]
    | report r =>
      obtain ⟨hRunning, hAllows, hMachine, _⟩ := observe_eq_some hStep
      have hPlaced := placed hReach hRunning
      have hRecorded : Recorded { w.machine.sv with effects := [] } := (hOld.1 hRunning).congr rfl
      rw [hMachine, Machine.step, hRunning]
      refine Machine.settle_recorded ?_
      simp only [handle]
      cases hStatus : r.status with
      | error e => exact hRecorded.told
      | ok status =>
        refine hRecorded.pass (fun p hSyscall => ?_) fun p sig event child hEvent hCreates hChild _ =>
          ?_
        · subst hSyscall
          exact (hPlaced.ran (Tracees.allows_syscall hStatus hAllows)).1
        · subst hEvent
          exact (hPlaced.expected p child (Tracees.allows_creates hStatus hCreates hChild hAllows)).2

/-- Every record of a run continues the records before it, and folding the `schedule` records gives
the current thread. -/
theorem trace_continues (h : (system pid seed).Reach Unheld w) :
    WellFormed w.machine.sv.trace ∧
      ∀ p t, w.machine.sv.current = some p → w.machine.sv.threads.get p = some t →
        lastTo w.machine.sv.trace = .num t.vtid :=
  ⟨(recorded h).2.formed, (recorded h).2.current⟩

theorem trace_continues_two_threads : ∃ w,
    (system 1 0).exec Unheld (start 1 0 {}) twoThreads = some w ∧
      WellFormed w.machine.sv.trace ∧ lastTo w.machine.sv.trace = .num 1 := by
  have hRun : ((system 1 0).exec Unheld (start 1 0 {}) twoThreads).map (fun w =>
      (w.machine.sv.current, (w.machine.sv.threads.get 2).map Thread.vtid)) =
      some (some 2, some 1) := by decide +kernel
  obtain ⟨w, hExec, hw⟩ := Option.map_eq_some_iff.mp hRun
  simp only [Prod.mk.injEq] at hw
  obtain ⟨hCurrent, hVtid⟩ := hw
  obtain ⟨t, hLookup, hOne⟩ := Option.map_eq_some_iff.mp hVtid
  have hReach : (system 1 0).Reach Unheld w := System.reach_of_exec ⟨{}, rfl⟩ hExec
  obtain ⟨hFormed, hFold⟩ := trace_continues hReach
  have hLast := hFold 2 t hCurrent hLookup
  rw [hOne] at hLast
  exact ⟨w, hExec, hFormed, hLast⟩

/-- In the run that gives the pid of the dead current thread to a new one, the history still ends
with the dead thread. -/
theorem not_trace_continues : ¬ ∀ (pid : Pid) (seed : U64) (w : World),
    (system pid seed).Reach System.free w → WellFormed w.machine.sv.trace ∧
      ∀ p t, w.machine.sv.current = some p → w.machine.sv.threads.get p = some t →
        lastTo w.machine.sv.trace = .num t.vtid := by
  intro hAll
  have hRun : ((system 1 0).exec System.free (start 1 0 {}) reusedPid).map (fun w =>
      (w.machine.sv.current, (w.machine.sv.threads.get 3).map Thread.vtid,
        lastTo w.machine.sv.trace)) = some (some 3, some 3, .num 2) := by decide +kernel
  obtain ⟨w, hExec, hw⟩ := Option.map_eq_some_iff.mp hRun
  simp only [Prod.mk.injEq] at hw
  obtain ⟨hCurrent, hVtid, hLast⟩ := hw
  obtain ⟨t, hLookup, hThree⟩ := Option.map_eq_some_iff.mp hVtid
  have hFold := (hAll 1 0 w (System.reach_of_exec ⟨{}, rfl⟩ hExec)).2 3 t hCurrent hLookup
  rw [hLast, hThree] at hFold
  exact absurd hFold (by decide)

end World

end Dtrun
