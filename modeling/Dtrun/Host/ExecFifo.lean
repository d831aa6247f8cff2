import Mathlib.Data.Finset.Insert
import Mathlib.Data.Finset.Erase
import Mathlib.Data.BitVec
import Dtrun.Library.Transition

/-! # Starting a created container

The daemon that `create_detached` forks and a client in `start_container` meet at `exec.fifo`. Both
open it for reading and writing, so that neither blocks in `open` and the daemon's read waits for a
byte instead of seeing an end of file; what is unread when the last descriptor is closed is lost.
The steps below are the system calls of the two, in their order; any `state.json` may be left over
from an earlier container of that name.
-/
namespace Dtrun.Host
set_option autoImplicit false
open Transition

inductive Status where
  | creating | created | running | stopped
  deriving DecidableEq

/-- What a reader of `state.json` finds; `File::create` leaves it empty until the write. -/
inductive StateFile where
  | missing
  | truncated
  | holds (status : Status)
  deriving DecidableEq

inductive StartError where
  | missing | parse | notCreated
  deriving DecidableEq

def readState : StateFile → Except StartError Status
  | .missing => .error .missing
  | .truncated => .error .parse
  | .holds status => .ok status

inductive Party where
  | daemon | client
  deriving DecidableEq

structure Fifo where
  unread : List (BitVec 8)
  holders : Finset Party
  deriving DecidableEq

namespace Fifo

def opened (f : Fifo) (p : Party) : Fifo := { f with holders := insert p f.holders }

def wrote (f : Fifo) (data : List (BitVec 8)) : Fifo := { f with unread := f.unread ++ data }

def consumed (f : Fifo) (n : Nat) : Fifo := { f with unread := f.unread.drop n }

def closed (f : Fifo) (p : Party) : Fifo where
  unread := if f.holders.erase p = ∅ then [] else f.unread
  holders := f.holders.erase p

end Fifo

/-- Where the daemon is: `supervisor_created`, then `supervisor_wait_and_run` with the byte read. -/
inductive Daemon where
  | createState | writeState | announce
  /-- The line that `create_detached` writes once more. -/
  | confirm
  | openFifo | readByte
  | closeFifo (byte : BitVec 8)
  | recreateState (byte : BitVec 8)
  | rewriteState (byte : BitVec 8)
  | supervise (byte : BitVec 8)
  deriving DecidableEq

/-- Where the client is in `start_container`. -/
inductive Client where
  | readState | openFifo | writeByte | closeFifo
  | returned (result : Option StartError)
  deriving DecidableEq

structure Startup where
  file : StateFile
  fifo : Fifo
  /-- The lines written to the ready pipe. -/
  ready : Nat
  daemon : Daemon
  client : Client
  deriving DecidableEq

/-- The capacity of a `BufReader`. -/
def BUFFER : Nat := 8192

namespace Startup

def daemonStep (s : Startup) : Option Startup :=
  match s.daemon with
  | .createState => some { s with file := .truncated, daemon := .writeState }
  | .writeState => some { s with file := .holds .created, daemon := .announce }
  | .announce => some { s with ready := s.ready + 1, daemon := .confirm }
  | .confirm => some { s with ready := s.ready + 1, daemon := .openFifo }
  | .openFifo => some { s with fifo := s.fifo.opened .daemon, daemon := .readByte }
  | .readByte => match s.fifo.unread with
    | [] => none
    | byte :: _ => some { s with fifo := s.fifo.consumed BUFFER, daemon := .closeFifo byte }
  | .closeFifo byte => some { s with fifo := s.fifo.closed .daemon, daemon := .recreateState byte }
  | .recreateState byte => some { s with file := .truncated, daemon := .rewriteState byte }
  | .rewriteState byte => some { s with file := .holds .running, daemon := .supervise byte }
  | .supervise _ => none

def clientStep (s : Startup) : Option Startup :=
  match s.client with
  | .readState => match readState s.file with
    | .error e => some { s with client := .returned (some e) }
    | .ok .created => some { s with client := .openFifo }
    | .ok _ => some { s with client := .returned (some .notCreated) }
  | .openFifo => some { s with fifo := s.fifo.opened .client, client := .writeByte }
  | .writeByte => some { s with fifo := s.fifo.wrote [0x78], client := .closeFifo }
  | .closeFifo => some { s with fifo := s.fifo.closed .client, client := .returned none }
  | .returned _ => none

def step (s : Startup) : Party → Option Startup
  | .daemon => s.daemonStep
  | .client => s.clientStep

def start (file : StateFile) : Startup where
  file := file
  fifo := ⟨[], ∅⟩
  ready := 0
  daemon := .createState
  client := .readState

def system : System Startup Party where
  init s := ∃ file, s = start file
  step := step

/-- Nobody can go on. -/
def Stuck (s : Startup) : Prop := ∀ p, s.step p = none

/-- The daemon has read the client's byte and supervises the container. -/
def Released (s : Startup) : Prop := s.daemon = .supervise 0x78

instance (s : Startup) : Decidable s.Stuck :=
  decidable_of_iff (s.step .daemon = none ∧ s.step .client = none)
    ⟨fun ⟨hDaemon, hClient⟩ p => by cases p <;> assumption, fun h => ⟨h _, h _⟩⟩

instance (s : Startup) : Decidable s.Released := inferInstanceAs (Decidable (_ = _))

end Startup

def Daemon.hasOpened : Daemon → Bool
  | .createState | .writeState | .announce | .confirm | .openFifo => false
  | _ => true

/-- The client closes the FIFO only once the daemon has opened it. -/
def InTime (s : Startup) (p : Party) : Prop :=
  p = .client → s.client = .closeFifo → s.daemon.hasOpened = true

instance (s : Startup) (p : Party) : Decidable (InTime s p) :=
  inferInstanceAs (Decidable (_ → _ → _))

def Daemon.byte : Daemon → Option (BitVec 8)
  | .closeFifo byte | .recreateState byte | .rewriteState byte | .supervise byte => some byte
  | _ => none

def Client.wrote : Client → Bool
  | .closeFifo | .returned none => true
  | _ => false

/-- Where the byte is, as long as the client closes in time: not written yet, unread, or with the
daemon. -/
structure Timely (s : Startup) : Prop where
  holds : s.daemon = .readByte → .daemon ∈ s.fifo.holders
  unopened : s.daemon.hasOpened = false → .daemon ∉ s.fifo.holders
  before : s.client.wrote = false → s.fifo.unread = [] ∧ s.daemon.byte = none
  after : s.client.wrote = true →
    (s.fifo.unread = [0x78] ∧ s.daemon.byte = none ∧
      (s.client = .returned none → s.daemon = .readByte)) ∨ s.daemon.byte = some 0x78

structure Lost (s : Startup) : Prop where
  returned : s.client = .returned none
  empty : s.fifo.unread = []
  unread : s.daemon.byte = none

namespace Timely

variable {s t : Startup}

theorem start (file : StateFile) : Timely (Startup.start file) where
  holds h := by cases h
  unopened _ := Finset.notMem_empty _
  before _ := ⟨rfl, rfl⟩
  after h := by cases h

theorem daemon_moves (h : Timely s) (hClient : t.client = s.client)
    (hUnread : t.fifo.unread = s.fifo.unread) (hByte : t.daemon.byte = s.daemon.byte)
    (hHolds : t.daemon = .readByte → .daemon ∈ t.fifo.holders)
    (hUnopened : t.daemon.hasOpened = false → .daemon ∉ t.fifo.holders)
    (hStays : s.daemon = .readByte → t.daemon = .readByte) : Timely t := by
  refine ⟨hHolds, hUnopened, fun hWrote => ?_, fun hWrote => ?_⟩
  · rw [hUnread, hByte]
    exact h.before (hClient ▸ hWrote)
  · rw [hUnread, hByte, hClient]
    rcases h.after (hClient ▸ hWrote) with ⟨hFull, hNone, hOpen⟩ | hRead
    · exact .inl ⟨hFull, hNone, fun hReturned => hStays (hOpen hReturned)⟩
    · exact .inr hRead

theorem of_byte {byte : BitVec 8} (h : s.client.wrote = true ∧ byte = 0x78)
    (hClient : t.client = s.client) (hByte : t.daemon.byte = some byte) : Timely t := by
  refine ⟨fun hRead => ?_, fun hNot => ?_, fun hNot => ?_, fun _ => .inr (by rw [hByte, h.2])⟩
  · rw [hRead] at hByte
    cases hByte
  · cases hDaemon : t.daemon <;> simp_all [Daemon.hasOpened, Daemon.byte]
  · rw [hClient, h.1] at hNot
    cases hNot

theorem byte_eq {byte : BitVec 8} (h : Timely s) (hByte : s.daemon.byte = some byte) :
    s.client.wrote = true ∧ byte = 0x78 := by
  have hWrote : s.client.wrote = true := by
    by_contra hNot
    obtain ⟨_, hNone⟩ := h.before (by simpa using hNot)
    cases hNone.symm.trans hByte
  refine ⟨hWrote, ?_⟩
  rcases h.after hWrote with ⟨_, hNone, _⟩ | hRead
  · cases hNone.symm.trans hByte
  · exact Option.some.inj (hByte.symm.trans hRead)

theorem daemonStep (h : Timely s) (hStep : s.daemonStep = some t) : Timely t := by
  simp only [Startup.daemonStep] at hStep
  cases hDaemon : s.daemon with
  | createState | writeState | announce | confirm =>
    simp only [hDaemon] at hStep
    cases hStep
    exact h.daemon_moves rfl rfl (by rw [hDaemon]; rfl) (by rintro ⟨⟩)
      (fun _ => h.unopened (by rw [hDaemon]; rfl)) (by simp [hDaemon])
  | openFifo =>
    simp only [hDaemon] at hStep
    cases hStep
    exact h.daemon_moves rfl rfl (by rw [hDaemon]; rfl)
      (fun _ => Finset.mem_insert_self _ _) (by rintro ⟨⟩) (by simp [hDaemon])
  | readByte =>
    simp only [hDaemon] at hStep
    cases hUnread : s.fifo.unread with
    | nil => simp [hUnread] at hStep
    | cons byte rest =>
      simp only [hUnread] at hStep
      cases hStep
      have hWrote : s.client.wrote = true := by
        by_contra hNot
        obtain ⟨hEmpty, _⟩ := h.before (by simpa using hNot)
        cases hEmpty.symm.trans hUnread
      refine of_byte ⟨hWrote, ?_⟩ rfl rfl
      rcases h.after hWrote with ⟨hFull, _⟩ | hRead
      · cases hUnread.symm.trans hFull
        rfl
      · rw [hDaemon] at hRead
        cases hRead
  | closeFifo byte | recreateState byte | rewriteState byte =>
    simp only [hDaemon] at hStep
    cases hStep
    exact of_byte (h.byte_eq (by rw [hDaemon]; rfl)) rfl rfl
  | supervise byte =>
    simp only [hDaemon] at hStep
    cases hStep

theorem clientStep (h : Timely s) (hInTime : InTime s .client) (hStep : s.clientStep = some t) :
    Timely t := by
  simp only [Startup.clientStep] at hStep
  -- While the client has written nothing, only its place may change.
  have waits (hBefore : s.client.wrote = false) (hAfter : t.client.wrote = false)
      (hDaemon : t.daemon = s.daemon) (hUnread : t.fifo.unread = s.fifo.unread)
      (hHolders : .daemon ∈ t.fifo.holders ↔ .daemon ∈ s.fifo.holders) : Timely t := by
    refine ⟨fun hRead => hHolders.mpr (h.holds (hDaemon ▸ hRead)), fun hNot hHeld =>
      h.unopened (hDaemon ▸ hNot) (hHolders.mp hHeld), fun _ => ?_, fun hWrote => ?_⟩
    · rw [hUnread, hDaemon]
      exact h.before hBefore
    · rw [hAfter] at hWrote
      cases hWrote
  cases hClient : s.client with
  | readState =>
    simp only [hClient] at hStep
    have hBefore : s.client.wrote = false := by rw [hClient]; rfl
    split at hStep
    · cases hStep
      exact waits hBefore rfl rfl rfl .rfl
    · cases hStep
      exact waits hBefore rfl rfl rfl .rfl
    · cases hStep
      exact waits hBefore rfl rfl rfl .rfl
  | openFifo =>
    simp only [hClient] at hStep
    cases hStep
    exact waits (by rw [hClient]; rfl) rfl rfl rfl (by simp [Fifo.opened])
  | writeByte =>
    simp only [hClient] at hStep
    cases hStep
    obtain ⟨hEmpty, hNone⟩ := h.before (by rw [hClient]; rfl)
    refine ⟨h.holds, h.unopened, fun hNot => ?_, fun _ => .inl ⟨?_, hNone, fun hReturned => ?_⟩⟩
    · cases hNot
    · simp [Fifo.wrote, hEmpty]
    · cases hReturned
  | closeFifo =>
    simp only [hClient] at hStep
    cases hStep
    have hOpened := hInTime rfl hClient
    have hKeeps : s.daemon = .readByte → .daemon ∈ s.fifo.holders.erase .client := fun hRead =>
      Finset.mem_erase.mpr ⟨by decide, h.holds hRead⟩
    refine ⟨hKeeps, fun hNot => ?_, fun hNot => ?_, fun _ => ?_⟩
    · rw [hOpened] at hNot
      cases hNot
    · cases hNot
    · rcases h.after (by rw [hClient]; rfl) with ⟨hFull, hNone, _⟩ | hRead
      · have hReading : s.daemon = .readByte := by
          cases hDaemon : s.daemon <;> simp_all [Daemon.hasOpened, Daemon.byte]
        refine .inl ⟨?_, hNone, fun _ => hReading⟩
        rw [Fifo.closed, if_neg (Finset.ne_empty_of_mem (hKeeps hReading))]
        exact hFull
      · exact .inr hRead
  | returned result =>
    simp only [hClient] at hStep
    cases hStep

theorem run {labels : List Party} (h : Timely s)
    (hRun : Startup.system.Run InTime s labels t) : Timely t := by
  induction hRun with
  | nil s => exact h
  | @cons s u t p labels hInTime hStep hRest ih =>
    refine ih ?_
    cases p with
    | daemon => exact h.daemonStep hStep
    | client => exact h.clientStep hInTime hStep

/-- Once nobody can go on, a successful client has released the container. -/
theorem released (h : Timely s) (hStuck : s.Stuck) (hOk : s.client = .returned none) :
    s.Released := by
  have hDaemon := hStuck .daemon
  simp only [Startup.step, Startup.daemonStep] at hDaemon
  rcases h.after (by rw [hOk]; rfl) with ⟨hFull, _, hReading⟩ | hRead
  · simp [hReading hOk, hFull] at hDaemon
  · cases hAt : s.daemon <;> simp_all [Daemon.byte, Startup.Released]

end Timely

namespace Lost

variable {s t : Startup}

theorem step {p : Party} (h : Lost s) (hStep : s.step p = some t) : Lost t := by
  cases p with
  | client =>
    simp only [Startup.step, Startup.clientStep, h.returned] at hStep
    cases hStep
  | daemon =>
    have hNone := h.unread
    simp only [Startup.step, Startup.daemonStep] at hStep
    cases hDaemon : s.daemon with
    | createState | writeState | announce | confirm | openFifo =>
      simp only [hDaemon] at hStep
      cases hStep
      exact ⟨h.returned, h.empty, rfl⟩
    | readByte => simp [hDaemon, h.empty] at hStep
    | closeFifo byte | recreateState byte | rewriteState byte | supervise byte =>
      rw [hDaemon] at hNone
      cases hNone

theorem run {labels : List Party} (h : Lost s) (hRun : Startup.system.Run System.free s labels t) :
    Lost t := by
  induction hRun with
  | nil s => exact h
  | cons _ hStep _ ih => exact ih (h.step hStep)

theorem unreleased (h : Lost s) : ¬ s.Released := by
  intro hReleased
  have hNone := h.unread
  rw [hReleased] at hNone
  cases hNone

end Lost

namespace Startup

variable {s t : Startup} {file : StateFile} {labels : List Party}

/-- A client that closes the FIFO too early takes its byte with it. -/
theorem lost_of_early (h : Timely s) {p : Party} (hEarly : ¬ InTime s p)
    (hStep : s.step p = some t) : Lost t := by
  simp only [InTime, Classical.not_imp, Bool.not_eq_true] at hEarly
  obtain ⟨rfl, hClient, hNot⟩ := hEarly
  simp only [step, clientStep, hClient] at hStep
  cases hStep
  have hAlone : s.fifo.holders.erase .client = ∅ := by
    refine Finset.eq_empty_of_forall_notMem fun p hp => ?_
    cases p with
    | daemon => exact h.unopened hNot (Finset.mem_of_mem_erase hp)
    | client => exact Finset.notMem_erase _ _ hp
  refine ⟨rfl, ?_, ?_⟩
  · rw [Fifo.closed, if_pos hAlone]
  · cases hDaemon : s.daemon <;> simp_all [Daemon.hasOpened, Daemon.byte]

/-- In every complete interleaving in which `start_container` succeeds, the daemon reads the byte
and goes on exactly when it had opened the FIFO before the client closed it. -/
theorem released_iff_inTime {file : StateFile} {labels : List Party} {s : Startup}
    (hRun : system.Run System.free (start file) labels s) (hStuck : s.Stuck)
    (hOk : s.client = .returned none) :
    s.Released ↔ system.Run InTime (start file) labels s := by
  constructor
  · intro hReleased
    have hStart := Timely.start file
    generalize start file = s₀ at hRun hStart
    induction hRun with
    | nil s => exact .nil s
    | @cons s u t p labels _ hStep hRest ih =>
      by_cases hInTime : InTime s p
      · have hNext : Timely u := hStart.run (.cons hInTime hStep (.nil u))
        exact .cons hInTime hStep (ih hStuck hOk hReleased hNext)
      · exact absurd hReleased ((lost_of_early hStart hInTime hStep).run hRest).unreleased
  · intro hRun
    exact ((Timely.start file).run hRun).released hStuck hOk

/-- The daemon opens the FIFO, then the client starts the container. -/
def timely : List Party :=
  .replicate 5 .daemon ++ .replicate 4 .client ++ .replicate 4 .daemon

theorem released_iff_inTime_timely : ∃ s, system.Run System.free (start .missing) timely s ∧
    (s.Released ↔ system.Run InTime (start .missing) timely s) := by
  have hRun : (system.exec System.free (start .missing) timely).map (fun s =>
      (decide s.Stuck, s.client)) = some (true, .returned none) := by decide
  obtain ⟨s, hExec, hs⟩ := Option.map_eq_some_iff.mp hRun
  simp only [Prod.mk.injEq, decide_eq_true_eq] at hs
  exact ⟨s, System.run_of_exec hExec,
    released_iff_inTime (System.run_of_exec hExec) hs.1 hs.2⟩

/-- The daemon has announced the container but not opened the FIFO; the client starts the container
meanwhile, and the daemon then waits for good. -/
def early : List Party := .replicate 4 .daemon ++ .replicate 4 .client ++ [.daemon]

theorem not_released : ¬ ∀ (file : StateFile) (labels : List Party) (s : Startup),
    system.Run System.free (start file) labels s → s.Stuck → s.client = .returned none →
      s.Released := by
  intro hAll
  have hRun : (system.exec System.free (start .missing) early).map (fun s =>
      (decide s.Stuck, s.client, decide s.Released)) = some (true, .returned none, false) := by
    decide
  obtain ⟨s, hExec, hs⟩ := Option.map_eq_some_iff.mp hRun
  simp only [Prod.mk.injEq, decide_eq_true_eq, decide_eq_false_iff_not] at hs
  exact hs.2.2 (hAll .missing early s (System.run_of_exec hExec) hs.1 hs.2.1)

end Startup

end Dtrun.Host
