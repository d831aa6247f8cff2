import Dtrun.Supervisor.Services
import Dtrun.Supervisor.Tracees

/-! # What a task is given, and when

All tasks draw on one generator and one clock. What is injected into a task depends on its own calls
and on how much was drawn before each of them, by whomever: two runs in which that agrees inject the
same, and two runs in which the kernel reports independent processes in another order may not.
-/
namespace Dtrun
set_option autoImplicit false
open FiniteMap Transition Supervisor

/-- A call that draws, with what the kernel takes of each answer. -/
structure Call where
  draw : Draw
  accepts : List Byte → Except Errno Nat

/-- The bytes injected for the call, when so many words and clock steps were drawn before it. -/
def Call.inject (c : Call) (rng : Prng) (words ticks : Nat) : Option (List Byte) :=
  let data := c.draw.bytes (rng.after words) (BitVec.ofNat 64 ticks)
  if data = [] then none else
    match c.accepts data with
    | .ok n => some (data.take n)
    | .error _ => none

def Report.call (r : Report) : Option (Pid × Call) :=
  r.entry.bind fun e => (Draw.of e.2).map fun d => (e.1, ⟨d, r.answers.writeMem e.1 d.addr⟩)

/-- The calls of `p`, each with the words and the clock steps that all tasks together have drawn
before it. -/
def history (p : Pid) (words ticks : Nat) : List Report → List (Call × Nat × Nat)
  | [] => []
  | r :: rest =>
    match r.call with
    | none => history p words ticks rest
    | some (q, c) =>
      let later := history p (words + c.draw.blocks) (ticks + c.draw.ticks) rest
      if q = p then (c, words, ticks) :: later else later

def injected (p : Pid) (written : List (Pid × List Byte)) : List (List Byte) :=
  written.filterMap fun e => if e.1 = p then some e.2 else none

/-- One call made at two points between which nothing it draws on has moved. -/
def SamePlace (a b : Call × Nat × Nat) : Prop :=
  a.1 = b.1 ∧ (a.1.draw.blocks ≠ 0 → a.2.1 = b.2.1) ∧ (a.1.draw.ticks ≠ 0 → a.2.2 = b.2.2)

variable {p : Pid} {v : Services} {r : Report}

theorem Draw.bytes_congr (d : Draw) {rng rng' : Prng} {tick tick' : U64}
    (hRng : d.blocks ≠ 0 → rng = rng') (hTick : d.ticks ≠ 0 → tick = tick') :
    d.bytes rng tick = d.bytes rng' tick' := by
  cases d with
  | random buf len =>
    by_cases hZero : len = 0
    · subst hZero
      rfl
    · rw [hRng (by simp only [blocks, Prng.blocks]; omega)]
      rfl
  | clock ts clk =>
    simp only [bytes]
    split
    · rename_i hClk
      rw [hTick (by simp [ticks, hClk])]
    · rfl
  | timeofday tv => rfl

theorem Call.inject_congr {rng : Prng} {a b : Call × Nat × Nat} (h : SamePlace a b) :
    a.1.inject rng a.2.1 a.2.2 = b.1.inject rng b.2.1 b.2.2 := by
  obtain ⟨hCall, hWords, hTicks⟩ := h
  have hBytes : a.1.draw.bytes (rng.after a.2.1) (BitVec.ofNat 64 a.2.2) =
      b.1.draw.bytes (rng.after b.2.1) (BitVec.ofNat 64 b.2.2) := by
    rw [← hCall]
    exact Draw.bytes_congr _ (fun hb => by rw [hWords hb]) fun hb => by rw [hTicks hb]
  simp only [inject]
  rw [hBytes]
  simp only [hCall]

theorem filterMap_inject_congr {rng : Prng} {a b : List (Call × Nat × Nat)}
    (h : List.Forall₂ SamePlace a b) :
    a.filterMap (fun e => e.1.inject rng e.2.1 e.2.2) =
      b.filterMap (fun e => e.1.inject rng e.2.1 e.2.2) := by
  induction h with
  | nil => rfl
  | cons hSame _ ih => rw [List.filterMap_cons, List.filterMap_cons, Call.inject_congr hSame, ih]

theorem injected_append (p : Pid) (a b : List (Pid × List Byte)) :
    injected p (a ++ b) = injected p a ++ injected p b := List.filterMap_append

namespace Services

theorem observe_of_call_none (h : r.call = none) : (v.observe r).rng = v.rng ∧
    (v.observe r).tick = v.tick ∧ (v.observe r).written = v.written := by
  simp only [observe]
  split
  · rename_i q regs hEntry
    have hDraw : Draw.of regs = none := by simpa [Report.call, hEntry] using h
    simp only [entered, hDraw]
    split
    · exact ⟨rfl, rfl, rfl⟩
    · exact ⟨rfl, rfl, rfl⟩
  · exact ⟨rfl, rfl, rfl⟩

theorem observe_of_call {q : Pid} {c : Call} {rng : Prng} {words ticks : Nat}
    (h : r.call = some (q, c)) (hRng : v.rng = rng.after words)
    (hTick : v.tick = BitVec.ofNat 64 ticks) :
    (v.observe r).rng = rng.after (words + c.draw.blocks) ∧
      (v.observe r).tick = BitVec.ofNat 64 (ticks + c.draw.ticks) ∧
      (v.observe r).written =
        v.written ++ ((c.inject rng words ticks).map fun data => (q, data)).toList := by
  obtain ⟨⟨p, regs⟩, hEntry, hCall⟩ := Option.bind_eq_some_iff.mp h
  obtain ⟨d, hDraw, hEq⟩ := Option.map_eq_some_iff.mp hCall
  cases hEq
  simp only [observe, hEntry, entered, hDraw, draw]
  refine ⟨?_, ?_, ?_⟩
  · rw [hRng, Prng.after_add]
  · rw [hTick, BitVec.ofNat_add]
  · rw [hRng, hTick]
    simp only [Call.inject, Answers.taken]
    split
    · rfl
    · cases r.answers.writeMem p d.addr
        (d.bytes (rng.after words) (BitVec.ofNat 64 ticks)) with
      | ok n => rfl
      | error e => rfl

/-- What a run injects into a task is what its history says. -/
theorem injected_observe {rng : Prng} (reports : List Report) {words ticks : Nat}
    (hRng : v.rng = rng.after words) (hTick : v.tick = BitVec.ofNat 64 ticks) :
    injected p (reports.foldl observe v).written = injected p v.written ++
      (history p words ticks reports).filterMap fun e => e.1.inject rng e.2.1 e.2.2 := by
  induction reports generalizing v words ticks with
  | nil => simp [history]
  | cons r rest ih =>
    rw [List.foldl_cons]
    cases hCall : r.call with
    | none =>
      obtain ⟨hRng', hTick', hWritten⟩ := observe_of_call_none (v := v) hCall
      rw [ih (hRng'.trans hRng) (hTick'.trans hTick), hWritten]
      simp only [history, hCall]
    | some call =>
      obtain ⟨q, c⟩ := call
      obtain ⟨hRng', hTick', hWritten⟩ := observe_of_call hCall hRng hTick
      rw [ih hRng' hTick', hWritten, injected_append, List.append_assoc]
      congr 1
      simp only [history, hCall]
      split
      · rename_i hEq
        rw [List.filterMap_cons]
        cases c.inject rng words ticks with
        | none => rfl
        | some data => simp [injected, hEq]
      · rename_i hne
        cases c.inject rng words ticks with
        | none => rfl
        | some data => simp [injected, hne]

end Services

def Label.read : Label → Option Report
  | .report r => some r
  | _ => none

namespace World

variable {pid : Pid} {seed : U64} {ok : World → Label → Prop} {w w' : World} {labels : List Label}

theorem services_run (hRun : (system pid seed).Run ok w labels w') :
    w'.machine.services = (labels.filterMap Label.read).foldl Services.observe w.machine.services := by
  induction hRun with
  | nil w => rfl
  | @cons w u w' l labels hOk hStep hRest ih =>
    rw [ih]
    cases l with
    | spawn p c thread vm => rw [spawn_machine hStep]; rfl
    | exec p => rw [exec_machine hStep]; rfl
    | report r =>
      obtain ⟨hRunning, _, hMachine, _⟩ := observe_eq_some hStep
      rw [hMachine, Machine.step_services hRunning]
      rfl

/-- Two runs from one seed inject the same into two tasks that make the same calls, each after as
many words and clock steps as the other. -/
theorem injected_eq {pid' : Pid} {k k' : Answers} {labels' : List Label} {v v' : World} {p p' : Pid}
    (hRun : (system pid seed).Run ok (start pid seed k) labels v)
    (hRun' : (system pid' seed).Run ok (start pid' seed k') labels' v')
    (hSame : List.Forall₂ SamePlace (history p 0 0 (labels.filterMap Label.read))
      (history p' 0 0 (labels'.filterMap Label.read))) :
    injected p v.machine.services.written = injected p' v'.machine.services.written := by
  have hStart (pid : Pid) (k : Answers) : (start pid seed k).machine.services =
      ⟨pid, false, Prng.new seed, 0, []⟩ := Machine.start_services
  have given (pid : Pid) (p : Pid) (reports : List Report) :
      injected p (reports.foldl Services.observe ⟨pid, false, Prng.new seed, 0, []⟩).written =
        (history p 0 0 reports).filterMap fun e => e.1.inject (Prng.new seed) e.2.1 e.2.2 :=
    Services.injected_observe reports rfl rfl
  rw [services_run hRun, services_run hRun', hStart, hStart, given, given]
  exact filterMap_inject_congr hSame

def twoProcesses : List Label :=
  [.spawn 1 2 false false, .report (.created 1 .fork 2), .report (.plain (.stopped 2 .SIGSTOP)),
   .spawn 1 3 false false, .report (.created 1 .fork 3), .report (.plain (.stopped 3 .SIGSTOP))]

def asksBytes (p : Pid) : Label := .report (.enters p { origRax := 318, rdi := 4096, rsi := 8 })

def asksClock (p : Pid) : Label := .report (.enters p { origRax := 228, rdi := 1, rsi := 4096 })

theorem injected_eq_two_processes : ∃ v v',
    (system 1 0).exec System.free (start 1 0 {}) (twoProcesses ++ [asksBytes 2, asksClock 3]) =
        some v ∧
      (system 1 0).exec System.free (start 1 0 {}) (twoProcesses ++ [asksClock 3, asksBytes 2]) =
        some v' ∧
      injected 2 v.machine.services.written = injected 2 v'.machine.services.written := by
  have hRun : ((system 1 0).exec System.free (start 1 0 {})
      (twoProcesses ++ [asksBytes 2, asksClock 3])).isSome = true := by decide +kernel
  have hRun' : ((system 1 0).exec System.free (start 1 0 {})
      (twoProcesses ++ [asksClock 3, asksBytes 2])).isSome = true := by decide +kernel
  obtain ⟨v, hExec⟩ := Option.isSome_iff_exists.mp hRun
  obtain ⟨v', hExec'⟩ := Option.isSome_iff_exists.mp hRun'
  refine ⟨v, v', hExec, hExec', ?_⟩
  have hSame : List.Forall₂ SamePlace
      (history 2 0 0 ((twoProcesses ++ [asksBytes 2, asksClock 3]).filterMap Label.read))
      (history 2 0 0 ((twoProcesses ++ [asksClock 3, asksBytes 2]).filterMap Label.read)) :=
    .cons ⟨rfl, fun _ => rfl, fun h => absurd rfl h⟩ .nil
  exact injected_eq (System.run_of_exec hExec) (System.run_of_exec hExec') hSame

/-- The call of `asksBytes`, all of whose answer is taken. -/
def eightBytes : Call := ⟨.random 4096 8, fun data => .ok data.length⟩

theorem calls_two_processes (a b p : Pid) :
    (history p 0 0 ((twoProcesses ++ [asksBytes a, asksBytes b]).filterMap Label.read)).map Prod.fst =
      (if a = p then [eightBytes] else []) ++ if b = p then [eightBytes] else [] := by
  have hCall (q : Pid) : (Report.enters q { origRax := 318, rdi := 4096, rsi := 8 }).call =
      some (q, eightBytes) := rfl
  change List.map Prod.fst (history p 0 0 [Report.enters a { origRax := 318, rdi := 4096, rsi := 8 },
    Report.enters b { origRax := 318, rdi := 4096, rsi := 8 }]) = _
  simp only [history, hCall]
  by_cases ha : a = p
  · by_cases hb : b = p
    · simp [ha, hb]
    · simp [ha, hb]
  · by_cases hb : b = p
    · simp [ha, hb]
    · simp [ha, hb]

/-- The kernel reports two processes in one order and in the other: the calls of each task are the
same, what it is given is not. -/
theorem not_injected_eq : ¬ ∀ (pid : Pid) (seed : U64) (k : Answers) (labels labels' : List Label)
    (v v' : World), (system pid seed).Run System.free (start pid seed k) labels v →
      (system pid seed).Run System.free (start pid seed k) labels' v' → labels.Perm labels' →
      (∀ p, (history p 0 0 (labels.filterMap Label.read)).map Prod.fst =
        (history p 0 0 (labels'.filterMap Label.read)).map Prod.fst) →
      ∀ p, injected p v.machine.services.written = injected p v'.machine.services.written := by
  intro hAll
  have hRun : ((system 1 0).exec System.free (start 1 0 {})
      (twoProcesses ++ [asksBytes 2, asksBytes 3])).map (fun v =>
        injected 2 v.machine.services.written) =
        some [[29, 221, 108, 137, 75, 206, 228, 71]] := by decide +kernel
  have hRun' : ((system 1 0).exec System.free (start 1 0 {})
      (twoProcesses ++ [asksBytes 3, asksBytes 2])).map (fun v =>
        injected 2 v.machine.services.written) =
        some [[29, 101, 121, 224, 168, 166, 207, 171]] := by decide +kernel
  obtain ⟨v, hExec, hFirst⟩ := Option.map_eq_some_iff.mp hRun
  obtain ⟨v', hExec', hSecond⟩ := Option.map_eq_some_iff.mp hRun'
  have hPerm : (twoProcesses ++ [asksBytes 2, asksBytes 3]).Perm
      (twoProcesses ++ [asksBytes 3, asksBytes 2]) := .append_left _ (.swap _ _ _)
  have hSame := hAll 1 0 {} _ _ v v' (System.run_of_exec hExec) (System.run_of_exec hExec') hPerm
    (fun p => ?_) 2
  · rw [hFirst, hSecond] at hSame
    revert hSame
    decide
  · rw [calls_two_processes, calls_two_processes]
    by_cases h2 : 2 = p
    · subst h2
      rfl
    · simp [h2]

end World

end Dtrun
