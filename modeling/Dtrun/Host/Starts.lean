import Dtrun.Host.Reads

/-! # Starting a container once

`start_container` looks at the status and writes its byte later, and the daemon changes the status
later still. Clients that take turns, each waiting for the update of the one before, are told apart:
one starts the container, all others find it started.
-/
namespace Dtrun.Commands
set_option autoImplicit false
open FiniteMap Transition
open Lifecycle (HostError StateError ENOENT)

variable {B : Type}

def Pc.passed : Pc B → Bool
  | .startOpen | .startWrite _ | .startClose _ _ | .done (.ok ()) => true
  | _ => false

def Pc.released : Pc B → Bool
  | .supervise _ _ | .createFile _ .stopped _ | .writeFile _ .stopped _ _ _ | .done (.ok ())
  | .done (.error (.supervise _)) => true
  | _ => false

/-- No other client has passed, or the daemon has seen to it. -/
def World.MayPass (w : World B) (d p : Process) : Prop :=
  (∃ e ∈ w.procs.entries, e.1 ≠ d ∧ e.1 ≠ p ∧ e.2.passed = true) →
    (w.procs.get d).any Pc.released = true

instance (w : World B) (d p : Process) : Decidable (w.MayPass d p) :=
  inferInstanceAs (Decidable ((∃ e ∈ _, _ ∧ _ ∧ _ = _) → _ = _))

/-- A client finds a record, and comes to its end when it may pass. -/
def World.InTurn (w : World B) (d p : Process) : Pc B → Prop
  | .openState .start => w.disk.stateInode.isSome = true
  | .readFile .start i got => (w.disk.content i).drop got.length = [] → w.MayPass d p
  | _ => True

instance (w : World B) (d p : Process) (pc : Pc B) : Decidable (w.InTurn d p pc) :=
  match pc with
  | .openState .start => inferInstanceAs (Decidable (_ = _))
  | .readFile .start _ _ => inferInstanceAs (Decidable (_ = [] → World.MayPass _ _ _))
  | .openState (.kill _) | .openState (.delete _) | .openState .state | .openState .exec
  | .openState .list | .openState (.daemon _) | .readFile (.kill _) _ _
  | .readFile (.delete _) _ _ | .readFile .state _ _ | .readFile .exec _ _ | .readFile .list _ _
  | .readFile (.daemon _) _ _ | .createFile _ _ _ | .initDir _ _ | .makeFifo _ | .spawn _ _
  | .writeFile _ _ _ _ _ | .daemonOpen _ | .daemonRead _ _ | .daemonClose _ _ | .supervise _ _
  | .listIds | .startOpen | .startWrite _ | .startClose _ _ | .sendSignal _ _ | .deleteKill _
  | .openDir | .unlink _ | .done _ => .isTrue trivial

/-- Besides the daemon there are clients that start the container. They take turns, keep apart from
the daemon's updates as readers do, and none of their calls fails, nor does one of the daemon's
that write the record. -/
def Serial (d : Process) (w : World B) : Label → Prop
  | .begin _ (.reads .start) => True
  | .begin _ _ => False
  | .step p _ => ∀ pc ∈ w.procs.get p, w.Free pc ∧ w.InTurn d p pc
  | .fails p _ => p = d ∧ ∀ pc ∈ w.procs.get p, pc.writes = none
  | .dies _ => True

instance (d : Process) (w : World B) (l : Label) : Decidable (Serial d w l) :=
  match l with
  | .begin _ (.reads .start) | .dies _ => .isTrue trivial
  | .begin _ (.create _) | .begin _ (.run _) | .begin _ (.reads (.kill _))
  | .begin _ (.reads (.delete _)) | .begin _ (.reads .state) | .begin _ (.reads .exec)
  | .begin _ (.reads .list) | .begin _ (.reads (.daemon _)) => .isFalse id
  | .step _ _ => inferInstanceAs (Decidable (∀ pc ∈ _, World.Free _ pc ∧ World.InTurn _ _ _ pc))
  | .fails _ _ => inferInstanceAs (Decidable (_ = _ ∧ ∀ pc ∈ _, _ = _))

theorem Serial.apart {d : Process} {w : World B} {l : Label} (h : Serial d w l) : Apart w l := by
  cases l with
  | begin p cmd | dies child => trivial
  | step p o => exact fun pc hPc => (h pc hPc).1
  | fails p e => exact h.2

/-- A daemon has made everything ready and spawns the container; whatever record is left from
before is a whole one. -/
structure Created (serde : Serde B) (d : Process) (w : World B) : Prop where
  whole : Whole serde w
  alone : ∃ o, w.procs = AList.insert d (.spawn .create o) ∅
  fifo : w.disk.fifoInode.isSome

def startsSystem (serde : Serde B) (d : Process) : System (World B) Label where
  init w := Created serde d w
  step w := w.step serde

/-! ## Where the daemon and the clients are -/

def Update.Sets : Update → Host.Status → Prop
  | .first op, _ => op = .create
  | .started, status => status = .running
  | .stopped, status => status = .stopped

def Pc.OfDaemon : Pc B → Prop
  | .spawn op _ => op = .create
  | .createFile _ u st | .writeFile _ u st _ _ => u.Sets st.status
  | .openState r | .readFile r _ _ => ∃ c, r = .daemon c
  | .daemonOpen _ | .daemonRead _ _ | .daemonClose _ _ | .supervise _ _ | .done _ => True
  | _ => False

def Pc.OfStart : Pc B → Prop
  | .openState r | .readFile r _ _ => r = .start
  | .startOpen | .startWrite _ => True
  | .startClose _ result => result = .ok ()
  | .done result => result = .ok () ∨ result = .error .notCreated
  | _ => False

/-- The record in place says that the container has been started. -/
def World.Marked (w : World B) : Prop :=
  ∃ i st, w.disk.stateInode = some i ∧ recordOf i w.history = some st ∧ st.status ≠ .created

structure Once (serde : Serde B) (d : Process) (w : World B) : Prop where
  whole : Whole serde w
  daemon : ∃ pc, w.procs.get d = some pc ∧ pc.OfDaemon
  starts : ∀ p pc, p ≠ d → w.procs.get p = some pc → pc.OfStart
  fifo : w.disk.fifoInode.isSome
  reads : ∀ p r i got, w.procs.get p = some (.readFile r i got) → w.disk.stateInode = some i
  writes : ∀ p c u st i n, w.procs.get p = some (.writeFile c u st i n) →
    w.disk.stateInode = some i
  marked : ∀ pc, w.procs.get d = some pc → pc.released = true → w.Marked
  once : ∀ p q pc pc', p ≠ d → q ≠ d → w.procs.get p = some pc → w.procs.get q = some pc' →
    pc.passed = true → pc'.passed = true → p = q

namespace Once

variable {serde : Serde B} {d : Process} {w t : World B} {p : Process} {pc k : Pc B}

theorem created (h : Created serde d w) : Once serde d w := by
  obtain ⟨o, hProcs⟩ := h.alone
  have hOnly {p : Process} {pc : Pc B} (hPc : w.procs.get p = some pc) :
      p = d ∧ pc = .spawn .create o := by
    rw [hProcs, Map.get_insert] at hPc
    split at hPc
    · cases hPc
      exact ⟨‹_›, rfl⟩
    · cases hPc
  refine ⟨h.whole, ⟨.spawn .create o, by rw [hProcs, Map.get_insert_self], rfl⟩,
    fun p pc hp hPc => absurd (hOnly hPc).1 hp, h.fifo, fun p r i got hPc => ?_,
    fun p c u st i n hPc => ?_, fun pc hPc hReleased => ?_,
    fun p q pc k hp _ hPc _ _ _ => absurd (hOnly hPc).1 hp⟩
  · cases (hOnly hPc).2
  · cases (hOnly hPc).2
  · rw [(hOnly hPc).2] at hReleased
    cases hReleased

theorem goes (h : Once serde d w) (hWhole : Whole serde t)
    (hProcs : t.procs = w.procs.insert p k)
    (hState : ∀ i, w.disk.stateInode = some i → t.disk.stateInode = some i)
    (hFifo : t.disk.fifoInode.isSome)
    (hDaemon : p = d → k.OfDaemon) (hStart : p ≠ d → k.OfStart)
    (hReads : ∀ i, k.reads = some i → t.disk.stateInode = some i)
    (hWrites : ∀ i, k.writes = some i → t.disk.stateInode = some i)
    (hMarked : ∀ pc, t.procs.get d = some pc → pc.released = true → t.Marked)
    (hOnce : p ≠ d → k.passed = true → ∀ q pc, q ≠ d → q ≠ p → w.procs.get q = some pc →
      pc.passed = false) : Once serde d t := by
  have hCases {q : Process} {pc : Pc B} (hPc : t.procs.get q = some pc) :
      (q = p ∧ pc = k) ∨ (q ≠ p ∧ w.procs.get q = some pc) := by
    rw [hProcs, Map.get_insert] at hPc
    split at hPc
    · exact .inl ⟨‹_›, (Option.some.inj hPc).symm⟩
    · exact .inr ⟨‹_›, hPc⟩
  refine ⟨hWhole, ?_, fun q pc hq hPc => ?_, hFifo, fun q r i got hPc => ?_,
    fun q c u st i n hPc => ?_, hMarked, fun q q' pc₁ pc₂ hq hq' hPc hPc' hPassed hPassed' => ?_⟩
  · by_cases hp : p = d
    · exact ⟨k, by rw [hProcs, hp, Map.get_insert_self], hDaemon hp⟩
    · obtain ⟨pc, hPc, hOf⟩ := h.daemon
      exact ⟨pc, by rw [hProcs, Map.get_insert_ne _ _ (Ne.symm hp)]; exact hPc, hOf⟩
  · rcases hCases hPc with ⟨rfl, rfl⟩ | ⟨_, hOld⟩
    · exact hStart hq
    · exact h.starts q pc hq hOld
  · rcases hCases hPc with ⟨_, rfl⟩ | ⟨_, hOld⟩
    · exact hReads i rfl
    · exact hState i (h.reads q r i got hOld)
  · rcases hCases hPc with ⟨_, rfl⟩ | ⟨_, hOld⟩
    · exact hWrites i rfl
    · exact hState i (h.writes q c u st i n hOld)
  · rcases hCases hPc with ⟨rfl, rfl⟩ | ⟨hne, hOld⟩
    · rcases hCases hPc' with ⟨rfl, rfl⟩ | ⟨hne', hOld'⟩
      · rfl
      · rw [hOnce hq hPassed q' pc₂ hq' hne' hOld'] at hPassed'
        cases hPassed'
    · rcases hCases hPc' with ⟨rfl, rfl⟩ | ⟨_, hOld'⟩
      · rw [hOnce hq' hPassed' q pc₁ hq hne hOld] at hPassed
        cases hPassed
      · exact h.once q q' pc₁ pc₂ hq hq' hOld hOld' hPassed hPassed'

theorem marked_mono (hState : ∀ i, w.disk.stateInode = some i → t.disk.stateInode = some i)
    (hRecords : ∀ i, recordOf i t.history = recordOf i w.history) (h : w.Marked) : t.Marked := by
  obtain ⟨i, st, hName, hRecord, hStatus⟩ := h
  exact ⟨i, st, hState i hName, by rw [hRecords]; exact hRecord, hStatus⟩

theorem startGoes (h : Once serde d w) (hp : p ≠ d) (hWhole : Whole serde t)
    (hProcs : t.procs = w.procs.insert p k)
    (hState : ∀ i, w.disk.stateInode = some i → t.disk.stateInode = some i)
    (hFifo : t.disk.fifoInode.isSome) (hRecords : ∀ i, recordOf i t.history = recordOf i w.history)
    (hStart : k.OfStart) (hReads : ∀ i, k.reads = some i → t.disk.stateInode = some i)
    (hWrites : k.writes = none)
    (hOnce : k.passed = true → ∀ q pc, q ≠ d → q ≠ p → w.procs.get q = some pc →
      pc.passed = false) : Once serde d t := by
  refine h.goes hWhole hProcs hState hFifo (fun hEq => absurd hEq hp) (fun _ => hStart) hReads
    (fun i hEq => ?_) (fun pc hPc hReleased => ?_) fun _ => hOnce
  · rw [hWrites] at hEq
    cases hEq
  · rw [hProcs, Map.get_insert_ne _ _ (Ne.symm hp)] at hPc
    exact marked_mono hState hRecords (h.marked pc hPc hReleased)

/-- Nobody else has passed if `p` has. -/
theorem alone (h : Once serde d w) (hp : p ≠ d) (hPc : w.procs.get p = some pc)
    (hPassed : pc.passed = true) : ∀ q pc, q ≠ d → q ≠ p → w.procs.get q = some pc →
      pc.passed = false := by
  intro q k hq hqp hPc'
  by_contra hAlso
  exact hqp (h.once q p k pc hq hp hPc' hPc (by simpa using hAlso) hPassed)

theorem readStart (h : Once serde d w) (hp : p ≠ d) {i : Inode} {got : List B} {o : Outcome}
    (hPc : w.procs.get p = some (.readFile .start i got))
    (hFree : w.Free (.readFile .start i got)) (hTurn : w.InTurn d p (.readFile .start i got))
    (hCall : w.call serde p o (.readFile .start i got) = some t) (hWhole : Whole serde t) :
    Once serde d t := by
  simp only [World.call] at hCall
  split at hCall
  · cases hCall
  rename_i hSize
  split at hCall
  · rename_i hData
    have hEnd := (List.take_eq_nil_iff.mp hData).resolve_left hSize
    obtain ⟨st, hRecord, hRead⟩ := h.whole.readEnd hPc hFree hEnd
    rw [hRead] at hCall
    cases hCall
    by_cases hStatus : st.status = .created
    · refine h.startGoes (k := .startOpen) hp hWhole ?_ (fun _ => id) h.fifo (fun _ => rfl)
        trivial (by rintro _ ⟨⟩) rfl ?_
      · simp [World.readBack, World.goto, World.record, hStatus]
      intro _ q pc hq hqp hqPc
      by_contra hPassed
      have hOther : ∃ e ∈ w.procs.entries, e.1 ≠ d ∧ e.1 ≠ p ∧ e.2.passed = true :=
        ⟨⟨q, pc⟩, Map.get_eq_some_iff.mp hqPc, hq, hqp, by simpa using hPassed⟩
      obtain ⟨pcd, hDaemon, _⟩ := h.daemon
      have hReleased := hTurn hEnd hOther
      rw [hDaemon, Option.any_some] at hReleased
      obtain ⟨j, st', hName, hRecord', hStatus'⟩ := h.marked pcd hDaemon hReleased
      cases hName.symm.trans (h.reads p .start i got hPc)
      cases hRecord.symm.trans hRecord'
      exact hStatus' hStatus
    · refine h.startGoes (k := .done (.error .notCreated)) hp hWhole ?_ (fun _ => id) h.fifo
        (fun _ => rfl) (.inr rfl) (by rintro _ ⟨⟩) rfl (by rintro ⟨⟩)
      simp [World.readBack, World.goto, World.record, hStatus]
  · cases hCall
    refine h.startGoes hp hWhole rfl (fun _ => id) h.fifo (fun _ => rfl) rfl (fun j hEq => ?_) rfl
      (by rintro ⟨⟩)
    cases hEq
    exact h.reads p .start i got hPc

theorem startCall (h : Once serde d w) (hp : p ≠ d) {o : Outcome}
    (hPc : w.procs.get p = some pc) (hFree : w.Free pc) (hTurn : w.InTurn d p pc)
    (hCall : w.call serde p o pc = some t) (hWhole : Whole serde t)
    (hState : ∀ i, w.disk.stateInode = some i → t.disk.stateInode = some i)
    (hFifo : t.disk.fifoInode.isSome) : Once serde d t := by
  have hOf := h.starts p pc hp hPc
  cases pc with
  | openState r =>
    cases hOf
    obtain ⟨i, hName⟩ := Option.isSome_iff_exists.mp hTurn
    simp only [World.call, hName] at hCall
    cases hCall
    refine h.startGoes hp hWhole rfl hState hFifo (fun _ => rfl) rfl (fun j hEq => ?_) rfl
      (by rintro ⟨⟩)
    cases hEq
    exact hName
  | readFile r i got =>
    cases hOf
    exact h.readStart hp hPc hFree hTurn hCall hWhole
  | startOpen =>
    obtain ⟨i, hName⟩ := Option.isSome_iff_exists.mp h.fifo
    simp only [World.call, hName] at hCall
    cases hCall
    exact h.startGoes (k := .startWrite i) hp hWhole rfl hState hFifo (fun _ => rfl) trivial
      (by rintro _ ⟨⟩) rfl fun _ => h.alone hp hPc rfl
  | startWrite i =>
    obtain ⟨f, _, rfl⟩ := Option.map_eq_some_iff.mp hCall
    exact h.startGoes (k := .startClose i (.ok ())) hp hWhole rfl hState hFifo (fun _ => rfl) rfl
      (by rintro _ ⟨⟩) rfl fun _ => h.alone hp hPc rfl
  | startClose i result =>
    cases hOf
    cases hCall
    exact h.startGoes (k := .done (.ok ())) hp hWhole rfl hState hFifo (fun _ => rfl) (.inl rfl)
      (by rintro _ ⟨⟩) rfl fun _ => h.alone hp hPc rfl
  | done result => cases hCall
  | initDir op o | makeFifo o | spawn op o | createFile c u st | writeFile c u st i n
  | daemonOpen c | daemonRead c i | daemonClose c i | supervise c st | listIds
  | sendSignal child sig | deleteKill child | openDir | unlink dir => cases hOf

theorem daemonGoes (h : Once serde d w) (hPc : w.procs.get d = some pc) (hWhole : Whole serde t)
    (hProcs : t.procs = w.procs.insert d k)
    (hState : ∀ i, w.disk.stateInode = some i → t.disk.stateInode = some i)
    (hFifo : t.disk.fifoInode.isSome) (hRecords : ∀ i, recordOf i t.history = recordOf i w.history)
    (hOf : k.OfDaemon) (hReads : ∀ i, k.reads = some i → t.disk.stateInode = some i)
    (hWrites : ∀ i, k.writes = some i → t.disk.stateInode = some i)
    (hReleased : k.released = true → pc.released = true) : Once serde d t := by
  refine h.goes hWhole hProcs hState hFifo (fun _ => hOf) (fun hEq => absurd rfl hEq) hReads hWrites
    (fun pc₁ hPc₁ hReleased₁ => ?_) fun hEq => absurd rfl hEq
  rw [hProcs, Map.get_insert_self] at hPc₁
  cases hPc₁
  exact marked_mono hState hRecords (h.marked pc hPc (hReleased hReleased₁))

theorem daemonRests (h : Once serde d w) (hPc : w.procs.get d = some pc) (hWhole : Whole serde t)
    (hProcs : t.procs = w.procs.insert d k)
    (hState : ∀ i, w.disk.stateInode = some i → t.disk.stateInode = some i)
    (hFifo : t.disk.fifoInode.isSome) (hRecords : ∀ i, recordOf i t.history = recordOf i w.history)
    (hOf : k.OfDaemon) (hReads : k.reads = none) (hWrites : k.writes = none)
    (hReleased : k.released = true → pc.released = true) : Once serde d t := by
  refine h.daemonGoes hPc hWhole hProcs hState hFifo hRecords hOf (fun i hEq => ?_)
    (fun i hEq => ?_) hReleased
  · rw [hReads] at hEq
    cases hEq
  · rw [hWrites] at hEq
    cases hEq

theorem failUpdate (h : Once serde d w) {c : Container} {u : Update} {e : Errno}
    (hPc : w.procs.get d = some pc) (hReleased : u = .stopped → pc.released = true)
    (hWhole : Whole serde (w.failUpdate d c u e)) : Once serde d (w.failUpdate d c u e) := by
  cases u with
  | first op | started =>
    exact h.daemonRests (k := .done (.error (.state (.io e)))) hPc hWhole rfl (fun _ => id) h.fifo
      (fun _ => rfl) trivial rfl rfl (by rintro ⟨⟩)
  | stopped =>
    exact h.daemonRests (k := .done (.ok ())) hPc hWhole rfl (fun _ => id) h.fifo (fun _ => rfl)
      trivial rfl rfl fun _ => hReleased rfl

/-- The daemon has read a record, or not; it goes on to the update to `running`. -/
theorem readDaemon (h : Once serde d w) {c : Container} {i : Option Inode} {now : String}
    {result : Except StateError ContainerState} (hPc : w.procs.get d = some pc)
    (hWhole : Whole serde (w.readBack d (.daemon c) i now result)) :
    Once serde d (w.readBack d (.daemon c) i now result) := by
  cases result with
  | ok st =>
    exact h.daemonRests (k := .createFile c .started _) hPc hWhole rfl (fun _ => id) h.fifo
      (fun _ => rfl) rfl rfl rfl (by rintro ⟨⟩)
  | error e =>
    exact h.daemonRests (k := .createFile c .started _) hPc hWhole rfl (fun _ => id) h.fifo
      (fun _ => rfl) rfl rfl rfl (by rintro ⟨⟩)

theorem writeDaemon (h : Once serde d w) {c : Container} {u : Update} {st : ContainerState}
    {i : Inode} {n : Nat} {o : Outcome} (hPc : w.procs.get d = some (.writeFile c u st i n))
    (hOf : (Pc.writeFile c u st i n : Pc B).OfDaemon)
    (hCall : w.call serde d o (.writeFile c u st i n) = some t) (hWhole : Whole serde t) :
    Once serde d t := by
  have hName := h.writes d c u st i n hPc
  simp only [World.call] at hCall
  split at hCall
  · cases hCall
  cases hCall
  split
  · rename_i hLength
    simp only [hLength, if_true] at hWhole
    refine h.goes hWhole rfl (fun _ => id) h.fifo (fun _ => ?_) (fun hEq => absurd rfl hEq)
      (fun j hEq => ?_) (fun j hEq => ?_) (fun pc hAt hReleased => ⟨i, st, hName, ?_, ?_⟩)
      fun hEq => absurd rfl hEq
    · cases u with
      | first op =>
        cases hOf
        trivial
      | started | stopped => trivial
    · cases u with
      | first op => cases op <;> cases hEq
      | started | stopped => cases hEq
    · cases u with
      | first op => cases op <;> cases hEq
      | started | stopped => cases hEq
    · exact (recordOf_recorded i i c u st w.history).trans (if_pos rfl)
    · simp only [World.finishUpdate, World.goto_self] at hAt
      cases u with
      | first op =>
        cases hOf
        cases hAt
        cases hReleased
      | started | stopped =>
        rw [hOf]
        rintro ⟨⟩
  · rename_i hLength
    simp only [hLength, if_false] at hWhole
    refine h.daemonGoes (k := .writeFile c u st i (n + o.size)) hPc hWhole rfl (fun _ => id)
      h.fifo (fun _ => rfl) hOf (by rintro _ ⟨⟩) (fun j hEq => ?_) (fun hReleased => ?_)
    · cases hEq
      exact hName
    · cases u with
      | first op | started => cases hReleased
      | stopped => rfl

theorem daemonCall (h : Once serde d w) {o : Outcome} (hPc : w.procs.get d = some pc)
    (hOf : pc.OfDaemon) (hCall : w.call serde d o pc = some t) (hWhole : Whole serde t)
    (hState : ∀ i, w.disk.stateInode = some i → t.disk.stateInode = some i)
    (hFifo : t.disk.fifoInode.isSome) : Once serde d t := by
  cases pc with
  | spawn op origin =>
    cases hOf
    simp only [World.call] at hCall
    split at hCall
    · cases hCall
      exact h.daemonRests hPc hWhole rfl hState hFifo (fun _ => rfl) rfl rfl rfl (by rintro ⟨⟩)
    · cases hCall
  | createFile c u st =>
    simp only [World.call] at hCall
    split at hCall
    · cases hCall
      exact h.failUpdate hPc (fun hStopped => by rw [hStopped]; rfl) hWhole
    · rename_i i disk hCreate
      cases hCall
      refine h.daemonGoes (k := .writeFile c u st i 0) hPc hWhole rfl hState hFifo (fun _ => rfl)
        hOf (by rintro _ ⟨⟩) (fun j hEq => ?_) (fun hReleased => ?_)
      · cases hEq
        exact Disk.create_stateInode hCreate
      · cases u with
        | first op | started => cases hReleased
        | stopped => rfl
  | writeFile c u st i n => exact h.writeDaemon hPc hOf hCall hWhole
  | daemonOpen c =>
    simp only [World.call] at hCall
    split at hCall
    · cases hCall
      exact h.daemonRests (k := .done _) hPc hWhole rfl hState hFifo (fun _ => rfl) trivial rfl
        rfl (by rintro ⟨⟩)
    · cases hCall
      exact h.daemonRests (k := .daemonRead c _) hPc hWhole rfl hState hFifo (fun _ => rfl) trivial
        rfl rfl (by rintro ⟨⟩)
  | daemonRead c i =>
    obtain ⟨_, _, rfl⟩ := Option.map_eq_some_iff.mp hCall
    exact h.daemonRests (k := .daemonClose c i) hPc hWhole rfl hState hFifo (fun _ => rfl) trivial
      rfl rfl (by rintro ⟨⟩)
  | daemonClose c i =>
    cases hCall
    exact h.daemonRests (k := .openState (.daemon c)) hPc hWhole rfl hState hFifo (fun _ => rfl)
      ⟨c, rfl⟩ rfl rfl (by rintro ⟨⟩)
  | openState r =>
    obtain ⟨c, rfl⟩ := hOf
    simp only [World.call] at hCall
    split at hCall
    · cases hCall
      exact h.readDaemon hPc hWhole
    · rename_i i hName
      cases hCall
      refine h.daemonGoes (k := .readFile (.daemon c) i []) hPc hWhole rfl hState hFifo
        (fun _ => rfl) ⟨c, rfl⟩ (fun j hEq => ?_) (by rintro _ ⟨⟩)
        (by rintro ⟨⟩)
      cases hEq
      exact hName
  | readFile r i got =>
    obtain ⟨c, rfl⟩ := hOf
    simp only [World.call] at hCall
    split at hCall
    · cases hCall
    split at hCall
    · cases hCall
      exact h.readDaemon hPc hWhole
    · cases hCall
      refine h.daemonGoes (k := .readFile (.daemon c) i _) hPc hWhole rfl hState hFifo
        (fun _ => rfl) ⟨c, rfl⟩ (fun j hEq => ?_) (by rintro _ ⟨⟩)
        (by rintro ⟨⟩)
      cases hEq
      exact h.reads d _ i got hPc
  | supervise c st =>
    simp only [World.call] at hCall
    split at hCall
    · cases hCall
      exact h.daemonRests (k := .createFile c .stopped _) hPc hWhole rfl hState hFifo
        (fun _ => rfl) rfl rfl rfl fun _ => rfl
    · cases hCall
  | done result => cases hCall
  | initDir op o | makeFifo o | listIds | startOpen | startWrite i | startClose i result
  | sendSignal child sig | deleteKill child | openDir | unlink dir => cases hOf

theorem daemonFails (h : Once serde d w) {e : Errno} (hPc : w.procs.get d = some pc)
    (hOf : pc.OfDaemon) (hCall : w.failCall d e pc = some t) (hWhole : Whole serde t) :
    Once serde d t := by
  cases pc with
  | spawn op origin | daemonOpen c =>
    cases hCall
    exact h.daemonRests (k := .done _) hPc hWhole rfl (fun _ => id) h.fifo (fun _ => rfl) trivial
      rfl rfl (by rintro ⟨⟩)
  | createFile c u st | writeFile c u st i n =>
    cases hCall
    exact h.failUpdate hPc (fun hStopped => by rw [hStopped]; rfl) hWhole
  | daemonRead c i =>
    cases hCall
    exact h.daemonRests (k := .daemonClose c i) hPc hWhole rfl (fun _ => id) h.fifo (fun _ => rfl)
      trivial rfl rfl (by rintro ⟨⟩)
  | supervise c st =>
    cases hCall
    exact h.daemonRests (k := .done _) hPc hWhole rfl (fun _ => id) h.fifo (fun _ => rfl) trivial
      rfl rfl fun _ => rfl
  | openState r | readFile r i got =>
    obtain ⟨c, rfl⟩ := hOf
    cases hCall
    exact h.readDaemon hPc hWhole
  | daemonClose c i | done result => cases hCall
  | initDir op o | makeFifo o | listIds | startOpen | startWrite i | startClose i result
  | sendSignal child sig | deleteKill child | openDir | unlink dir => cases hOf

theorem not_removes (h : Once serde d w) (l : Label) : ¬ l.Removes w := by
  cases l with
  | begin p cmd | fails p e | dies child => exact id
  | step p o =>
    rintro ⟨dir, hPc⟩
    by_cases hp : p = d
    · subst hp
      obtain ⟨pc, hDaemon, hOf⟩ := h.daemon
      cases hDaemon.symm.trans hPc
      exact hOf
    · exact h.starts p _ hp hPc

theorem step (h : Once serde d w) {l : Label} (hSerial : Serial d w l)
    (hStep : w.step serde l = some t) : Once serde d t := by
  have hWhole := h.whole.step hSerial.apart hStep
  have hState (i : Inode) := World.step_stateInode (i := i) hStep (h.not_removes l)
  have hFifo : t.disk.fifoInode.isSome := by
    obtain ⟨i, hName⟩ := Option.isSome_iff_exists.mp h.fifo
    rw [World.step_fifoInode hStep (h.not_removes l) hName]
    rfl
  obtain ⟨pcd, hDaemon, hOf⟩ := h.daemon
  rcases World.step_cases hStep with ⟨p, cmd, pc, rfl, hFree, hStart, rfl⟩ |
    ⟨p, o, pc, rfl, hPc, hCall⟩ | ⟨p, e, pc, rfl, _, hPc, hCall⟩ | ⟨child, rfl, _, rfl⟩
  · have hp : p ≠ d := by
      rintro rfl
      cases hFree.symm.trans hDaemon
    cases cmd with
    | create o | run o => exact absurd hSerial id
    | reads r =>
      cases r with
      | start =>
        cases hStart
        exact h.startGoes hp hWhole rfl hState hFifo (fun _ => rfl) rfl
          (by rintro _ ⟨⟩) rfl (by rintro ⟨⟩)
      | kill signal | delete force | state | exec | list | daemon c => exact absurd hSerial id
  · obtain ⟨hFree, hTurn⟩ := hSerial pc hPc
    by_cases hp : p = d
    · subst hp
      cases hDaemon.symm.trans hPc
      exact h.daemonCall hPc hOf hCall hWhole hState hFifo
    · exact h.startCall hp hPc hFree hTurn hCall hWhole hState hFifo
  · obtain ⟨rfl, _⟩ := hSerial
    cases hDaemon.symm.trans hPc
    exact h.daemonFails hPc hOf hCall hWhole
  · exact ⟨hWhole, h.daemon, h.starts, h.fifo, h.reads, h.writes, h.marked, h.once⟩

theorem reach (h : (startsSystem serde d).Reach (Serial d) w) : Once serde d w :=
  h.invariant (fun _ hInit => created hInit) fun _ _ _ _ hs hOk hStep => hs.step hOk hStep

end Once

/-- As long as the clients take turns, at most one of them starts the container and all others that
return are told that it is not in the created state. -/
theorem starts_once {serde : Serde B} {d : Process} {w : World B}
    (h : (startsSystem serde d).Reach (Serial d) w) :
    (∀ p q, p ≠ d → q ≠ d → w.procs.get p = some (.done (.ok ())) →
      w.procs.get q = some (.done (.ok ())) → p = q) ∧
    ∀ p result, p ≠ d → w.procs.get p = some (.done result) →
      result = .ok () ∨ result = .error .notCreated := by
  have hOnce := Once.reach h
  exact ⟨fun p q hp hq hPc hPc' => hOnce.once p q _ _ hp hq hPc hPc' rfl rfl,
    fun p result hp hPc => hOnce.starts p _ hp hPc⟩

/-- A host where the container that process 0 is about to spawn is the first of its id. -/
def freshWorld (o : Origin) : World B where
  procs := AList.insert 0 (.spawn .create o) ∅
  disk := ⟨some 0, AList.insert 0 ⟨none, some 1⟩ ∅, ∅, 2⟩
  fifos := ∅
  inits := ∅
  spawned := 0
  history := []

theorem freshWorld_created (serde : Serde B) (o : Origin) :
    Created serde 0 (freshWorld o : World B) where
  whole := by
    refine ⟨⟨fun i hFile => ?_, fun p dir i hDir hState => ?_⟩, fun p c u st i n hPc => ?_,
      fun p r i got hPc => ?_, fun i content hFile => ?_, fun newer older r i result hSplit => ?_⟩
    · cases hFile
    · simp only [freshWorld, Map.get_insert] at hDir
      split at hDir <;> cases hDir
      cases hState
    · simp only [freshWorld, Map.get_insert] at hPc
      split at hPc <;> cases hPc
    · simp only [freshWorld, Map.get_insert] at hPc
      split at hPc <;> cases hPc
    · cases hFile
    · simp [freshWorld] at hSplit
  alone := ⟨o, rfl⟩
  fifo := rfl

/-- A client starts the container, and once it is running so does another. -/
def twice : List Label :=
  steps 0 4 ++ .begin 1 (.reads .start) :: steps 1 6 ++ steps 0 7 ++
    .begin 2 (.reads .start) :: steps 2 3

theorem starts_once_twice : ∃ w : World Char, (startsSystem Serde.strict 0).Reach (Serial 0) w ∧
    w.procs.get 1 = some (.done (.ok ())) ∧
    w.procs.get 2 = some (.done (.error .notCreated)) ∧
    (∀ p q, p ≠ 0 → q ≠ 0 → w.procs.get p = some (.done (.ok ())) →
      w.procs.get q = some (.done (.ok ())) → p = q) ∧
    ∀ p result, p ≠ 0 → w.procs.get p = some (.done result) →
      result = .ok () ∨ result = .error .notCreated := by
  have hRun : ((startsSystem Serde.strict 0).exec (Serial 0) (freshWorld webOrigin) twice).map
      (fun w => (w.procs.get 1, w.procs.get 2)) =
        some (some (.done (.ok ())), some (.done (.error .notCreated))) := by decide +kernel
  obtain ⟨w, hExec, hEnd⟩ := Option.map_eq_some_iff.mp hRun
  simp only [Prod.mk.injEq] at hEnd
  have hReach := System.reach_of_exec (freshWorld_created _ _) hExec
  exact ⟨w, hReach, hEnd.1, hEnd.2, starts_once hReach⟩

/-- Two clients look at the status before either writes its byte. -/
def together : List Label :=
  steps 0 4 ++ .begin 1 (.reads .start) :: .begin 2 (.reads .start) :: steps 1 3 ++ steps 2 3 ++
    steps 1 3 ++ steps 2 3

theorem not_starts_once : ¬ ∀ w : World Char,
    (startsSystem Serde.strict 0).Reach (fun _ l => ∀ p cmd, l = .begin p cmd →
      cmd = .reads .start) w →
    ∀ p q, p ≠ 0 → q ≠ 0 → w.procs.get p = some (.done (.ok ())) →
      w.procs.get q = some (.done (.ok ())) → p = q := by
  intro hAll
  have hRun : ((startsSystem Serde.strict 0).exec System.free (freshWorld webOrigin) together).map
      (fun w => (w.procs.get 1, w.procs.get 2)) =
        some (some (.done (.ok ())), some (.done (.ok ()))) := by decide +kernel
  obtain ⟨w, hExec, hEnd⟩ := Option.map_eq_some_iff.mp hRun
  simp only [Prod.mk.injEq] at hEnd
  have hLabels : ∀ l ∈ together, ∀ p cmd, l = .begin p cmd → cmd = .reads .start := by
    simp [together, steps]
  have hReach := (System.Reach.init (freshWorld_created _ _)).run
    ((System.run_of_exec_mem hExec hLabels).mono fun _ _ hOk => hOk.2)
  exact absurd (hAll w hReach 1 2 (by decide) (by decide) hEnd.1 hEnd.2) (by decide)

end Dtrun.Commands
