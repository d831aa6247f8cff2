import Dtrun.Supervisor.Notes

/-! # The lines of trace.jsonl

Two writers append to the file: the supervisor its records, and `supervise_and_finish`, after it,
the output that the relays have captured. Only the first of them numbers its lines. A write that
fails is passed over.
-/
namespace Dtrun.TraceFile
set_option autoImplicit false
open Transition World

inductive Field where
  | value (v : Value)
  | object (fields : List (String × Value))
  deriving DecidableEq

/-- What is handed to `trace_event`. -/
inductive Entry where
  | record (r : Record)
  | output (stream line : String)
  deriving DecidableEq

def Entry.json : Entry → List (String × Field)
  | .record r => [("seq", .value (.num r.seq)), ("event", .value (.str r.event)),
      ("detail", .object r.detail)]
  | .output stream line => [("event", .value (.str stream)), ("line", .value (.str line))]

/-- How the writes to the file come out: its truncation, and each append. -/
structure Writes where
  reset : Bool
  append : Nat → Bool

def Writes.appended (o : Writes) (n : Nat) : List Entry → List Entry
  | [] => []
  | e :: rest =>
    if o.append n then e :: o.appended (n + 1) rest else o.appended (n + 1) rest

/-- `if let [stdout, stderr] = captured.as_slice()` -/
def outputs : List (List String) → List Entry
  | [stdout, stderr] => stdout.map (.output "stdout") ++ stderr.map (.output "stderr")
  | _ => []

/-- The file after a run that has ended with `sv`, on top of the lines that were there before. -/
def traceFile (o : Writes) (before : List Entry) (sv : Supervisor) (captured : List (List String)) :
    List Entry :=
  (if o.reset then [] else before) ++ o.appended 0 (sv.trace.map .record ++ outputs captured)

/-- The documented form of line `n`. -/
structure Documented (n : Nat) (e : Entry) : Prop where
  seq : e.json.lookup "seq" = some (.value (.num n))
  event : ∃ name, e.json.lookup "event" = some (.value (.str name))
  detail : ∃ fields, e.json.lookup "detail" = some (.object fields) ∧
    ∀ stream line, e = .output stream line → fields.lookup "line" = some (.str line)

/-- The lines of a file that begins with line `n`. -/
def DocumentedFrom (n : Nat) (file : List Entry) : Prop :=
  ∀ e ∈ file.zipIdx n, Documented e.2 e.1

variable {o : Writes} {n m : Nat} {file file' : List Entry}

theorem documented_record {r : Record} : Documented n (.record r) ↔ r.seq = n := by
  constructor
  · intro h
    have hSeq := h.seq
    simp only [Entry.json, List.lookup_cons, beq_self_eq_true, Option.some.injEq, Field.value.injEq,
      Value.num.injEq] at hSeq
    omega
  · rintro rfl
    refine ⟨rfl, ⟨r.event, rfl⟩, r.detail, rfl, ?_⟩
    rintro stream line ⟨⟩

theorem not_documented_output {stream line : String} : ¬ Documented n (.output stream line) := by
  intro h
  have hSeq := h.seq
  simp [Entry.json, List.lookup_cons] at hSeq

theorem documentedFrom_append : DocumentedFrom n (file ++ file') ↔
    DocumentedFrom n file ∧ DocumentedFrom (n + file.length) file' := by
  simp only [DocumentedFrom, List.zipIdx_append, List.mem_append, or_imp, forall_and]

theorem documentedFrom_cons {e : Entry} :
    DocumentedFrom n (e :: file) ↔ Documented n e ∧ DocumentedFrom (n + 1) file := by
  simp [DocumentedFrom, List.zipIdx_cons]

/-- How many of the appends `n`, …, `n + i - 1` reach the file. -/
def Writes.kept (o : Writes) (n : Nat) : Nat → Nat
  | 0 => 0
  | i + 1 => (if o.append n then 1 else 0) + o.kept (n + 1) i

theorem appended_append (n : Nat) (a b : List Entry) :
    o.appended n (a ++ b) = o.appended n a ++ o.appended (n + a.length) b := by
  induction a generalizing n with
  | nil => rfl
  | cons e rest ih =>
    have hRest := ih (n + 1)
    rw [Nat.add_assoc, Nat.add_comm 1] at hRest
    simp only [List.cons_append, Writes.appended, hRest, List.length_cons]
    split
    · rfl
    · rfl

theorem appended_eq_nil {entries : List Entry} :
    o.appended n entries = [] ↔ ∀ i < entries.length, o.append (n + i) = false := by
  induction entries generalizing n with
  | nil => simp [Writes.appended]
  | cons e rest ih =>
    simp only [Writes.appended, List.length_cons]
    constructor
    · intro h i hi
      split at h
      · cases h
      · rename_i hFirst
        cases i with
        | zero => simpa using hFirst
        | succ i =>
          have hRest := ih.mp h i (by omega)
          rwa [Nat.add_right_comm, Nat.add_assoc] at hRest
    · intro h
      have hFirst := h 0 (by omega)
      rw [Nat.add_zero] at hFirst
      rw [hFirst]
      refine ih.mpr fun i hi => ?_
      rw [Nat.add_right_comm, Nat.add_assoc]
      exact h (i + 1) (by omega)

theorem mem_of_mem_appended {e : Entry} {entries : List Entry} (h : e ∈ o.appended n entries) :
    e ∈ entries := by
  induction entries generalizing n with
  | nil => exact h
  | cons first rest ih =>
    simp only [Writes.appended] at h
    split at h
    · rcases List.mem_cons.mp h with rfl | hRest
      · exact List.mem_cons_self
      · exact List.mem_cons_of_mem _ (ih hRest)
    · exact List.mem_cons_of_mem _ (ih h)

theorem mem_outputs {e : Entry} {captured : List (List String)} (h : e ∈ outputs captured) :
    ∃ stream line, e = .output stream line := by
  unfold outputs at h
  split at h
  · rcases List.mem_append.mp h with hOut | hErr
    · obtain ⟨line, _, rfl⟩ := List.mem_map.mp hOut
      exact ⟨_, line, rfl⟩
    · obtain ⟨line, _, rfl⟩ := List.mem_map.mp hErr
      exact ⟨_, line, rfl⟩
  · cases h

theorem documentedFrom_outputs {captured : List (List String)} :
    DocumentedFrom m (o.appended n (outputs captured)) ↔
      ∀ i < (outputs captured).length, o.append (n + i) = false := by
  rw [← appended_eq_nil]
  constructor
  · intro h
    cases hFile : o.appended n (outputs captured) with
    | nil => rfl
    | cons e rest =>
      rw [hFile] at h
      have hMem : e ∈ o.appended n (outputs captured) := hFile ▸ List.mem_cons_self
      obtain ⟨stream, line, rfl⟩ := mem_outputs (mem_of_mem_appended hMem)
      exact absurd (documentedFrom_cons.mp h).1 not_documented_output
  · intro h
    rw [h]
    intro e he
    cases he

/-- A record has the number of its line if as many appends before it failed as there were lines
before the first one. -/
theorem documentedFrom_records {records : List Record}
    (hSeq : records.map Record.seq = List.range' (n + 1) records.length) :
    DocumentedFrom (m + 1) (o.appended n (records.map .record)) ↔
      ∀ i < records.length, o.append (n + i) = true → m + o.kept n i = n + i := by
  induction records generalizing n m with
  | nil => simp [Writes.appended, DocumentedFrom]
  | cons r rest ih =>
    simp only [List.map_cons, List.length_cons, List.range'_succ, List.cons.injEq] at hSeq
    obtain ⟨hFirst, hRest⟩ := hSeq
    have hShift (i : Nat) : n + 1 + i = n + (i + 1) := by omega
    simp only [List.map_cons, Writes.appended, List.length_cons]
    cases hAppend : o.append n with
    | true =>
      rw [if_pos rfl, documentedFrom_cons, documented_record, ih hRest, hFirst]
      constructor
      · rintro ⟨hHere, hLater⟩ i hi hKept
        cases i with
        | zero =>
          simp only [Writes.kept]
          omega
        | succ i =>
          have hNext := hLater i (by omega) (by rwa [hShift])
          simp only [Writes.kept, hAppend, if_pos]
          omega
      · intro h
        constructor
        · have hHere := h 0 (by omega) hAppend
          simp only [Writes.kept] at hHere
          omega
        · intro i hi hKept
          have hNext := h (i + 1) (by omega) (by rwa [← hShift])
          simp only [Writes.kept, hAppend, if_pos] at hNext
          omega
    | false =>
      rw [if_neg Bool.false_ne_true, ih hRest]
      constructor
      · intro hLater i hi hKept
        cases i with
        | zero =>
          rw [Nat.add_zero, hAppend] at hKept
          cases hKept
        | succ i =>
          have hNext := hLater i (by omega) (by rwa [hShift])
          simp only [Writes.kept, hAppend]
          simp only [Bool.false_eq_true, if_false]
          omega
      · intro h i hi hKept
        have hNext := h (i + 1) (by omega) (by rwa [← hShift])
        simp only [Writes.kept, hAppend, Bool.false_eq_true, if_false] at hNext
        omega

/-- What was there before has the form, no output reaches the file, and a record that does was
preceded by as many failed appends as there were lines. -/
structure InStep (o : Writes) (before : List Entry) (count : Nat)
    (captured : List (List String)) : Prop where
  leftover : DocumentedFrom 1 (if o.reset then [] else before)
  records : ∀ i < count, o.append i = true →
    (if o.reset then [] else before).length + o.kept 0 i = i
  output : ∀ i < (TraceFile.outputs captured).length, o.append (count + i) = false

/-- The file has the documented form throughout exactly when nothing of the output gets into it and
the numbers keep pace with the lines; whether the run has completed by then makes no difference. -/
theorem documented_iff {pid : Pid} {seed : U64} {w : World}
    (h : (system pid seed).Reach System.free w) (o : Writes) (before : List Entry) (captured : List (List String)) :
    DocumentedFrom 1 (traceFile o before w.machine.sv captured) ↔
      InStep o before w.machine.sv.trace.length captured := by
  have hNumbered := numbered h
  have hLength : w.machine.sv.trace.length = w.machine.sv.seq := by
    simpa using congrArg List.length hNumbered
  have hSeq : w.machine.sv.trace.map Record.seq =
      List.range' (0 + 1) w.machine.sv.trace.length := by
    rw [hLength]
    exact hNumbered
  generalize hOld : (if o.reset then [] else before) = old
  rw [traceFile, hOld, documentedFrom_append, appended_append, documentedFrom_append,
    Nat.add_comm 1, documentedFrom_records hSeq, documentedFrom_outputs]
  simp only [Nat.zero_add, List.length_map]
  constructor
  · rintro ⟨hBefore, hRecords, hOutputs⟩
    exact ⟨hOld ▸ hBefore, hOld ▸ hRecords, hOutputs⟩
  · intro hStep
    exact ⟨hOld ▸ hStep.leftover, hOld ▸ hStep.records, hStep.output⟩

def allWritten : Writes := ⟨true, fun _ => true⟩

/-- The init writes what it writes and exits. -/
def exitsAtOnce : List Label := [.report (.plain (.exited 1 0))]

theorem documented_iff_silent : ∃ w,
    (system 1 0).exec System.free (start 1 0 {}) exitsAtOnce = some w ∧
      w.machine.result = some (.ok 0) ∧
      DocumentedFrom 1 (traceFile allWritten [] w.machine.sv [[], []]) := by
  have hRun : ((system 1 0).exec System.free (start 1 0 {}) exitsAtOnce).map (fun w =>
      (w.machine.result, w.machine.sv.trace.length)) = some (some (.ok 0), 2) := by decide +kernel
  obtain ⟨w, hExec, hw⟩ := Option.map_eq_some_iff.mp hRun
  simp only [Prod.mk.injEq] at hw
  obtain ⟨hDone, hLength⟩ := hw
  have hReach : (system 1 0).Reach System.free w := System.reach_of_exec ⟨{}, rfl⟩ hExec
  refine ⟨w, hExec, hDone, (documented_iff hReach _ _ _).mpr ⟨?_, ?_, ?_⟩⟩
  · intro e he
    cases he
  · rw [hLength]
    decide
  · intro i hi
    exact absurd hi (Nat.not_lt_zero i)

/-- One line of output is enough. -/
theorem not_documented : ¬ ∀ (pid : Pid) (seed : U64) (w : World) (code : Int) (o : Writes)
    (before : List Entry) (captured : List (List String)),
    (system pid seed).Reach System.free w → w.machine.result = some (.ok code) →
      DocumentedFrom 1 (traceFile o before w.machine.sv captured) := by
  intro hAll
  have hRun : ((system 1 0).exec System.free (start 1 0 {}) exitsAtOnce).map (fun w =>
      (w.machine.result, (traceFile allWritten [] w.machine.sv [["hello"], []])[2]?)) =
        some (some (.ok 0), some (.output "stdout" "hello")) := by decide +kernel
  obtain ⟨w, hExec, hw⟩ := Option.map_eq_some_iff.mp hRun
  simp only [Prod.mk.injEq] at hw
  obtain ⟨hDone, hLine⟩ := hw
  have hFile := hAll 1 0 w 0 allWritten [] [["hello"], []] (System.reach_of_exec ⟨{}, rfl⟩ hExec)
    hDone
  refine not_documented_output (hFile (.output "stdout" "hello", 3) ?_)
  exact List.mk_mem_zipIdx_iff_le_and_getElem?_sub.mpr ⟨by omega, hLine⟩

end Dtrun.TraceFile
