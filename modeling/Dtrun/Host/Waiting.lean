import Dtrun.Host.Starts

/-! # Waiting for the byte that starts the container

The daemon has the FIFO open for reading and for writing, so that its read never comes to an end of
file, and it does not look after its init before it has its byte. A `delete` that takes the FIFO or
the record away, or anybody who kills the init, leaves it waiting in vain.
-/
namespace Dtrun.Commands
set_option autoImplicit false
open FiniteMap Host Pipes Transition
open Lifecycle (HostError StateError ENOENT SIGKILL)

variable {B : Type}

/-- The daemon waits, or is going to wait, on behalf of the init `child`. -/
def World.waitsFor (w : World B) (child : Pid) : Pc B → Bool
  | .createFile c (.first _) _ | .writeFile c (.first _) _ _ _ | .daemonOpen c =>
    decide (c.child = child)
  | .daemonRead c i => decide (c.child = child ∧ (w.pipe i).unread = [])
  | _ => false

/-- Without that name the daemon waits in vain. -/
def World.needs (w : World B) (e : Entry) : Pc B → Bool
  | .writeFile _ (.first _) _ _ _ | .daemonOpen _ => decide (e = .state)
  | .daemonRead _ i => decide (e ≠ .directory ∧ (w.pipe i).unread = [])
  | _ => false

/-- The call takes from daemon `d` what it waits for. -/
def World.strands (w : World B) (d : Process) (o : Outcome) : Pc B → Bool
  | .unlink _ => (w.procs.get d).any (w.needs o.entry)
  | .sendSignal child sig => decide (sig = SIGKILL) && (w.procs.get d).any (w.waitsFor child)
  | .deleteKill child => (w.procs.get d).any (w.waitsFor child)
  | _ => false

/-- Besides the daemon there are clients that start, kill, delete or look. While the daemon waits,
or is going to, nobody takes from it what it waits for, and its init does not die. -/
def Spares (d : Process) (w : World B) : Label → Prop
  | .begin _ (.reads _) => True
  | .begin _ (.create _) | .begin _ (.run _) => False
  | .step p o => (w.procs.get p).any (w.strands d o) = false
  | .fails _ _ => True
  | .dies child => (w.procs.get d).any (w.waitsFor child) = false

instance (d : Process) (w : World B) (l : Label) : Decidable (Spares d w l) :=
  match l with
  | .begin _ (.reads _) | .fails _ _ => .isTrue trivial
  | .begin _ (.create _) | .begin _ (.run _) => .isFalse id
  | .step _ _ | .dies _ => inferInstanceAs (Decidable (_ = _))

/-! ## What the daemon finds when it waits -/

/-- A record in place that says `created`. -/
def World.Startable (serde : Serde B) (w : World B) : Prop :=
  ∃ i st, w.disk.stateInode = some i ∧ w.disk.content i = serde.toStringPretty st ∧
    st.status = .created

/-- What the daemon relies on where it is. -/
def World.Ready (serde : Serde B) (w : World B) (d : Process) : Pc B → Prop
  | .createFile c (.first _) st => st.status = .created ∧ w.inits.get c.child = some true
  | .writeFile c (.first _) st i n =>
    st.status = .created ∧ w.inits.get c.child = some true ∧ w.disk.stateInode = some i ∧
      w.disk.content i = (serde.toStringPretty st).take n ∧ n ≤ (serde.toStringPretty st).length
  | .daemonOpen c => w.inits.get c.child = some true ∧ w.Startable serde
  | .daemonRead c i =>
    d ∈ (w.pipe i).readers ∧ ((w.pipe i).unread = [] →
      w.inits.get c.child = some true ∧ w.Startable serde ∧ w.disk.fifoInode = some i)
  | _ => True

structure Waits (serde : Serde B) (d : Process) (w : World B) : Prop where
  daemon : ∃ pc, w.procs.get d = some pc ∧ pc.OfDaemon ∧ w.Ready serde d pc
  clients : ∀ p pc, p ≠ d → w.procs.get p = some pc → pc.client = true

namespace World

variable {serde : Serde B} {w t : World B} {d p : Process} {pc pc' : Pc B} {o : Outcome}

theorem unlink_call {dir : Inode} (hCall : w.call serde p o (.unlink dir) = some t) :
    t.disk = w.disk ∨ w.disk.here = some ⟨none, none⟩ ∨ w.disk.unlink dir o.entry = some t.disk := by
  simp only [call] at hCall
  split at hCall
  · split at hCall
    · cases hCall
      exact .inl rfl
    · rename_i disk hRemove
      exact .inr (.inl (Disk.removeDir_cases hRemove).1)
  · obtain ⟨disk, hGone, rfl⟩ := Option.map_eq_some_iff.mp hCall
    exact .inr (.inr hGone)

theorem client_stateInode (hCall : w.call serde p o pc = some t)
    (hEntry : (∃ dir, pc = .unlink dir) → o.entry ≠ .state) {i : Inode}
    (hName : w.disk.stateInode = some i) : t.disk.stateInode = some i := by
  by_cases hUnlink : ∃ dir, pc = .unlink dir
  · have hState := hEntry hUnlink
    obtain ⟨dir, rfl⟩ := hUnlink
    rcases unlink_call hCall with hSame | hEmpty | hGone
    · rw [hSame]
      exact hName
    · rw [Disk.stateInode, hEmpty] at hName
      cases hName
    · exact (Disk.unlink_stateInode hGone hState).trans hName
  · obtain ⟨dir, hHere, hState⟩ := Option.bind_eq_some_iff.mp hName
    obtain ⟨dir', hHere', hKeeps⟩ := call_here hCall (fun e hEq => hUnlink ⟨e, hEq⟩) hHere
    exact Option.bind_eq_some_iff.mpr ⟨dir', hHere', hKeeps.1 i hState⟩

theorem client_fifoInode (hCall : w.call serde p o pc = some t)
    (hEntry : (∃ dir, pc = .unlink dir) → o.entry ≠ .fifo) {i : Inode}
    (hName : w.disk.fifoInode = some i) : t.disk.fifoInode = some i := by
  by_cases hUnlink : ∃ dir, pc = .unlink dir
  · have hFifo := hEntry hUnlink
    obtain ⟨dir, rfl⟩ := hUnlink
    rcases unlink_call hCall with hSame | hEmpty | hGone
    · rw [hSame]
      exact hName
    · rw [Disk.fifoInode, hEmpty] at hName
      cases hName
    · exact (Disk.unlink_fifoInode hGone hFifo).trans hName
  · obtain ⟨dir, hHere, hFifo⟩ := Option.bind_eq_some_iff.mp hName
    obtain ⟨dir', hHere', hKeeps⟩ := call_here hCall (fun e hEq => hUnlink ⟨e, hEq⟩) hHere
    exact Option.bind_eq_some_iff.mpr ⟨dir', hHere', hKeeps.2 i hFifo⟩

theorem Startable.kept (h : w.Startable serde) (hFiles : t.disk.files = w.disk.files)
    (hState : ∀ i, w.disk.stateInode = some i → t.disk.stateInode = some i) :
    t.Startable serde := by
  obtain ⟨i, st, hName, hContent, hStatus⟩ := h
  exact ⟨i, st, hState i hName, by rw [Disk.content, hFiles]; exact hContent, hStatus⟩

theorem Ready.kept (h : w.Ready serde d pc) (hFiles : t.disk.files = w.disk.files)
    (hInits : ∀ child, w.waitsFor child pc = true → w.inits.get child = some true →
      t.inits.get child = some true)
    (hState : w.needs .state pc = true → ∀ i, w.disk.stateInode = some i →
      t.disk.stateInode = some i)
    (hFifo : w.needs .fifo pc = true → ∀ i, w.disk.fifoInode = some i → t.disk.fifoInode = some i)
    (hPipes : ∀ i, d ∈ (w.pipe i).readers → d ∈ (t.pipe i).readers ∧
      ((t.pipe i).unread = [] → (w.pipe i).unread = [])) : t.Ready serde d pc := by
  cases pc with
  | createFile c u st =>
    cases u with
    | first op => exact ⟨h.1, hInits c.child (by simp [waitsFor]) h.2⟩
    | started | stopped => trivial
  | writeFile c u st i n =>
    cases u with
    | first op =>
      obtain ⟨hStatus, hAlive, hName, hContent, hLength⟩ := h
      refine ⟨hStatus, hInits c.child (by simp [waitsFor]) hAlive, hState (by simp [needs]) i hName,
        ?_, hLength⟩
      rw [Disk.content, hFiles]
      exact hContent
    | started | stopped => trivial
  | daemonOpen c =>
    exact ⟨hInits c.child (by simp [waitsFor]) h.1, h.2.kept hFiles (hState (by simp [needs]))⟩
  | daemonRead c i =>
    obtain ⟨hReader, hWaits⟩ := h
    obtain ⟨hReader', hUnread⟩ := hPipes i hReader
    refine ⟨hReader', fun hEmpty => ?_⟩
    have hEmpty := hUnread hEmpty
    obtain ⟨hAlive, hStartable, hName⟩ := hWaits hEmpty
    exact ⟨hInits c.child (by simp [waitsFor, hEmpty]) hAlive,
      hStartable.kept hFiles (hState (by simp [needs, hEmpty])),
      hFifo (by simp [needs, hEmpty]) i hName⟩
  | _ => trivial

theorem call_reader (hCall : w.call serde p o pc = some t) (hClient : pc.client = true)
    (hp : p ≠ d) (i : Inode) (hReader : d ∈ (w.pipe i).readers) :
    d ∈ (t.pipe i).readers ∧ ((t.pipe i).unread = [] → (w.pipe i).unread = []) := by
  rcases call_pipe hCall i with hEq | hEq | hEq | ⟨_, hWrite⟩ | ⟨c, _, rfl, _⟩
  · rw [hEq]
    exact ⟨hReader, id⟩
  · rw [hEq]
    exact ⟨Finset.mem_insert_of_mem hReader, id⟩
  · have hStays : d ∈ (w.pipe i).readers.erase p := Finset.mem_erase.mpr ⟨Ne.symm hp, hReader⟩
    have hSome : (w.pipe i).readers.erase p ≠ ∅ := Finset.ne_empty_of_mem hStays
    rw [hEq]
    refine ⟨hStays, fun hEmpty => ?_⟩
    simpa [Pipe.closedBy, hSome] using hEmpty
  · obtain ⟨_, hGrown⟩ := Pipe.write_eq_some_iff.mp hWrite
    rw [hGrown]
    refine ⟨hReader, fun hEmpty => ?_⟩
    simp at hEmpty
  · cases hClient

end World

namespace Waits

variable {serde : Serde B} {d : Process} {w t : World B} {p : Process} {pc k : Pc B}

theorem created (h : Created serde d w) : Waits serde d w := by
  obtain ⟨o, hProcs⟩ := h.alone
  refine ⟨⟨.spawn .create o, by rw [hProcs, Map.get_insert_self], rfl, trivial⟩,
    fun p pc hp hPc => ?_⟩
  rw [hProcs, Map.get_insert_ne _ _ hp] at hPc
  cases hPc

theorem clientGoes (h : Waits serde d w) (hp : p ≠ d) (hClient : k.client = true)
    (hProcs : t.procs = w.procs.insert p k)
    (hReady : ∀ pc, w.procs.get d = some pc → w.Ready serde d pc → t.Ready serde d pc) :
    Waits serde d t := by
  obtain ⟨pc, hPc, hOf, hRelies⟩ := h.daemon
  refine ⟨⟨pc, ?_, hOf, hReady pc hPc hRelies⟩, fun q pc hq hPc' => ?_⟩
  · rw [hProcs, Map.get_insert_ne _ _ (Ne.symm hp)]
    exact hPc
  · rw [hProcs, Map.get_insert] at hPc'
    split at hPc'
    · cases hPc'
      exact hClient
    · exact h.clients q pc hq hPc'

theorem daemonGoes (h : Waits serde d w) (hProcs : t.procs = w.procs.insert d k)
    (hOf : k.OfDaemon) (hReady : t.Ready serde d k) : Waits serde d t := by
  refine ⟨⟨k, by rw [hProcs, Map.get_insert_self], hOf, hReady⟩, fun q pc hq hPc => ?_⟩
  rw [hProcs, Map.get_insert_ne _ _ hq] at hPc
  exact h.clients q pc hq hPc

theorem clientCall (h : Waits serde d w) (hp : p ≠ d) {o : Outcome}
    (hPc : w.procs.get p = some pc) (hSpares : w.strands d o pc = false)
    (hCall : w.call serde p o pc = some t) : Waits serde d t := by
  have hClient := h.clients p pc hp hPc
  obtain ⟨k, hBy⟩ := World.client_call hCall hClient
  refine h.clientGoes hp hBy.client hBy.procs fun pcd hDaemon hReady => ?_
  refine hReady.kept hBy.renamed.files (fun child hWaits hAlive => ?_) (fun hNeeds i hName => ?_)
    (fun hNeeds i hName => ?_) (World.call_reader hCall hClient hp)
  · rcases hBy.inits with hSame | ⟨victim, hKills, hInits⟩
    · rw [hSame]
      exact hAlive
    have hOther : child ≠ victim := by
      rintro rfl
      cases pc with
      | sendSignal victim sig =>
        simp only [Pc.kills] at hKills
        split at hKills
        · cases hKills
          rename_i hSig
          simp [World.strands, hDaemon, hWaits, hSig] at hSpares
        · cases hKills
      | deleteKill victim =>
        cases hKills
        simp [World.strands, hDaemon, hWaits] at hSpares
      | _ => cases hKills
    rw [hInits, Map.get_insert_ne _ _ hOther]
    exact hAlive
  · refine World.client_stateInode hCall ?_ hName
    rintro ⟨dir, rfl⟩ hEntry
    simp [World.strands, hDaemon, hEntry, hNeeds] at hSpares
  · refine World.client_fifoInode hCall ?_ hName
    rintro ⟨dir, rfl⟩ hEntry
    simp [World.strands, hDaemon, hEntry, hNeeds] at hSpares

theorem clientFails (h : Waits serde d w) (hp : p ≠ d) {e : Errno}
    (hPc : w.procs.get p = some pc) (hCall : w.failCall p e pc = some t) : Waits serde d t := by
  obtain ⟨hInits, k, hBy⟩ := World.client_failCall hCall (h.clients p pc hp hPc)
  have hDisk := World.failCall_disk hCall
  refine h.clientGoes hp hBy.client hBy.procs fun pcd hDaemon hReady => ?_
  refine hReady.kept hBy.renamed.files (fun child _ hAlive => ?_) (fun _ i hName => ?_)
    (fun _ i hName => ?_) fun i hReader => ?_
  · rw [hInits]
    exact hAlive
  · rw [hDisk]
    exact hName
  · rw [hDisk]
    exact hName
  · rw [World.failCall_pipe hCall]
    exact ⟨hReader, id⟩

theorem readDaemon (h : Waits serde d w) (c : Container) (i : Option Inode) (now : String)
    (result : Except StateError ContainerState) :
    Waits serde d (w.readBack d (.daemon c) i now result) := by
  cases result with
  | ok st => exact h.daemonGoes (k := .createFile c .started _) rfl rfl trivial
  | error e => exact h.daemonGoes (k := .createFile c .started _) rfl rfl trivial

theorem failUpdate (h : Waits serde d w) (c : Container) (u : Update) (e : Errno) :
    Waits serde d (w.failUpdate d c u e) := by
  cases u with
  | first op | started | stopped => exact h.daemonGoes (k := .done _) rfl trivial trivial

theorem createDaemon (h : Waits serde d w) {c : Container} {u : Update} {st : ContainerState}
    {o : Outcome} (hOf : (Pc.createFile c u st : Pc B).OfDaemon)
    (hReady : w.Ready serde d (.createFile c u st))
    (hCall : w.call serde d o (.createFile c u st) = some t) : Waits serde d t := by
  simp only [World.call] at hCall
  split at hCall
  · cases hCall
    exact h.failUpdate c u ENOENT
  · rename_i i disk hCreate
    cases hCall
    refine h.daemonGoes (k := .writeFile c u st i 0) rfl hOf ?_
    cases u with
    | first op =>
      have hFile : disk.files.get i = some [] := by
        rw [Disk.create_files hCreate, Map.get_insert_self]
      exact ⟨hReady.1, hReady.2, Disk.create_stateInode hCreate, Disk.content_of_get hFile,
        Nat.zero_le _⟩
    | started | stopped => trivial

theorem writeDaemon (h : Waits serde d w) {c : Container} {u : Update} {st : ContainerState}
    {i : Inode} {n : Nat} {o : Outcome} (hOf : (Pc.writeFile c u st i n : Pc B).OfDaemon)
    (hReady : w.Ready serde d (.writeFile c u st i n))
    (hCall : w.call serde d o (.writeFile c u st i n) = some t) : Waits serde d t := by
  simp only [World.call] at hCall
  split at hCall
  · cases hCall
  cases hCall
  cases u with
  | first op =>
    cases hOf
    obtain ⟨hStatus, hAlive, hName, hContent, hLength⟩ := hReady
    have hWritten := overwrite_take serde.nul (serde.toStringPretty st) o.size hLength
    rw [← hContent] at hWritten
    have hNow : (w.disk.write serde.nul i n
        (((serde.toStringPretty st).drop n).take o.size)).content i =
          (serde.toStringPretty st).take (n + o.size) := by
      rw [← hWritten]
      exact Disk.content_of_get (Map.get_insert_self _ _ _)
    split
    · rename_i hEnd
      refine h.daemonGoes (k := .daemonOpen c) rfl trivial ⟨hAlive, i, st, hName, ?_, hStatus⟩
      exact hNow.trans (List.take_of_length_le hEnd)
    · rename_i hMore
      exact h.daemonGoes (k := .writeFile c (.first .create) st i (n + o.size)) rfl rfl
        ⟨hStatus, hAlive, hName, hNow, by omega⟩
  | started =>
    split
    · exact h.daemonGoes (k := .supervise c st) rfl trivial trivial
    · exact h.daemonGoes (k := .writeFile c .started st i _) rfl hOf trivial
  | stopped =>
    split
    · exact h.daemonGoes (k := .done _) rfl trivial trivial
    · exact h.daemonGoes (k := .writeFile c .stopped st i _) rfl hOf trivial

theorem daemonCall (h : Waits serde d w) {o : Outcome} (hOf : pc.OfDaemon)
    (hReady : w.Ready serde d pc) (hCall : w.call serde d o pc = some t) : Waits serde d t := by
  cases pc with
  | spawn op origin =>
    cases hOf
    simp only [World.call] at hCall
    split at hCall
    · cases hCall
      exact h.daemonGoes rfl rfl ⟨rfl, Map.get_insert_self _ _ _⟩
    · cases hCall
  | createFile c u st => exact h.createDaemon hOf hReady hCall
  | writeFile c u st i n => exact h.writeDaemon hOf hReady hCall
  | daemonOpen c =>
    simp only [World.call] at hCall
    split at hCall
    · cases hCall
      exact h.daemonGoes (k := .done _) rfl trivial trivial
    · rename_i i hName
      cases hCall
      refine h.daemonGoes (k := .daemonRead c i) rfl trivial ⟨?_, fun _ => ⟨hReady.1, ?_, hName⟩⟩
      · rw [World.goto_pipe, World.setPipe_pipe]
        exact Finset.mem_insert_self _ _
      · exact hReady.2.kept rfl fun _ => id
  | daemonRead c i =>
    obtain ⟨_, _, rfl⟩ := Option.map_eq_some_iff.mp hCall
    exact h.daemonGoes (k := .daemonClose c i) rfl trivial trivial
  | daemonClose c i =>
    cases hCall
    exact h.daemonGoes (k := .openState (.daemon c)) rfl ⟨c, rfl⟩ trivial
  | openState r =>
    obtain ⟨c, rfl⟩ := hOf
    simp only [World.call] at hCall
    split at hCall
    · cases hCall
      exact h.readDaemon c _ _ _
    · cases hCall
      exact h.daemonGoes (k := .readFile (.daemon c) _ []) rfl ⟨c, rfl⟩ trivial
  | readFile r i got =>
    obtain ⟨c, rfl⟩ := hOf
    simp only [World.call] at hCall
    split at hCall
    · cases hCall
    split at hCall
    · cases hCall
      exact h.readDaemon c _ _ _
    · cases hCall
      exact h.daemonGoes (k := .readFile (.daemon c) i _) rfl ⟨c, rfl⟩ trivial
  | supervise c st =>
    simp only [World.call] at hCall
    split at hCall
    · cases hCall
      exact h.daemonGoes (k := .createFile c .stopped _) rfl rfl trivial
    · cases hCall
  | done result => cases hCall
  | initDir op o | makeFifo o | listIds | startOpen | startWrite i | startClose i result
  | sendSignal child sig | deleteKill child | openDir | unlink dir => cases hOf

theorem daemonFails (h : Waits serde d w) {e : Errno} (hOf : pc.OfDaemon)
    (hCall : w.failCall d e pc = some t) : Waits serde d t := by
  cases pc with
  | spawn op origin | daemonOpen c | supervise c st =>
    cases hCall
    exact h.daemonGoes (k := .done _) rfl trivial trivial
  | createFile c u st | writeFile c u st i n =>
    cases hCall
    exact h.failUpdate c u e
  | daemonRead c i =>
    cases hCall
    exact h.daemonGoes (k := .daemonClose c i) rfl trivial trivial
  | openState r | readFile r i got =>
    obtain ⟨c, rfl⟩ := hOf
    cases hCall
    exact h.readDaemon c _ _ _
  | daemonClose c i | done result => cases hCall
  | initDir op o | makeFifo o | listIds | startOpen | startWrite i | startClose i result
  | sendSignal child sig | deleteKill child | openDir | unlink dir => cases hOf

theorem step (h : Waits serde d w) {l : Label} (hSpares : Spares d w l)
    (hStep : w.step serde l = some t) : Waits serde d t := by
  obtain ⟨pcd, hDaemon, hOf, hReady⟩ := h.daemon
  rcases World.step_cases hStep with ⟨p, cmd, pc, rfl, hFree, hStart, rfl⟩ |
    ⟨p, o, pc, rfl, hPc, hCall⟩ | ⟨p, e, pc, rfl, _, hPc, hCall⟩ | ⟨child, rfl, _, rfl⟩
  · have hp : p ≠ d := by
      rintro rfl
      cases hFree.symm.trans hDaemon
    have hClient : pc.client = true := by
      cases cmd with
      | create o | run o => exact absurd hSpares id
      | reads r => cases r <;> cases hStart <;> rfl
    exact h.clientGoes hp hClient rfl fun pc _ hReady =>
      hReady.kept rfl (fun _ _ => id) (fun _ _ => id) (fun _ _ => id) fun _ hReader => ⟨hReader, id⟩
  · by_cases hp : p = d
    · subst hp
      cases hDaemon.symm.trans hPc
      exact h.daemonCall hOf hReady hCall
    · refine h.clientCall hp hPc ?_ hCall
      simpa [Spares, hPc] using hSpares
  · by_cases hp : p = d
    · subst hp
      cases hDaemon.symm.trans hPc
      exact h.daemonFails hOf hCall
    · exact h.clientFails hp hPc hCall
  · refine ⟨⟨pcd, hDaemon, hOf, hReady.kept rfl (fun child' hWaits hAlive => ?_) (fun _ _ => id)
      (fun _ _ => id) fun _ hReader => ⟨hReader, id⟩⟩, h.clients⟩
    have hOther : child' ≠ child := by
      rintro rfl
      simp [Spares, hDaemon, hWaits] at hSpares
    simp only [Map.get_insert_ne _ _ hOther]
    exact hAlive

theorem reach (h : (startsSystem serde d).Reach (Spares d) w) : Waits serde d w :=
  h.invariant (fun _ hInit => created hInit) fun _ _ _ _ hs hOk hStep => hs.step hOk hStep

end Waits

/-! ## Waiting for ever -/

/-- The FIFO that a client is about to write to. -/
def Pc.pours : Pc B → Option Inode
  | .startWrite i => some i
  | _ => none

/-- `p` holds a FIFO that is empty and has lost its name, and nobody is about to write to it. -/
structure World.Stranded (w : World B) (p : Process) (i : Inode) : Prop where
  holds : p ∈ (w.pipe i).writers
  empty : (w.pipe i).unread = []
  lost : w.disk.fifoInode ≠ some i
  old : i < w.disk.inodes
  idle : ¬ w.Busy Pc.pours i

instance (w : World B) (p : Process) (i : Inode) : Decidable (w.Stranded p i) :=
  decidable_of_iff (p ∈ (w.pipe i).writers ∧ (w.pipe i).unread = [] ∧ w.disk.fifoInode ≠ some i ∧
      i < w.disk.inodes ∧ ¬ w.Busy Pc.pours i)
    ⟨fun h => ⟨h.1, h.2.1, h.2.2.1, h.2.2.2.1, h.2.2.2.2⟩,
      fun h => ⟨h.holds, h.empty, h.lost, h.old, h.idle⟩⟩

namespace World

variable {serde : Serde B} {w t : World B} {p q : Process} {pc : Pc B} {i : Inode}

/-- A FIFO that has a name or is about to be written to after the call had a name before, or is
new. -/
structure FifosFrom (w t : World B) (p : Process) (pc' : Pc B) : Prop where
  procs : t.procs = w.procs.insert p pc'
  inodes : w.disk.inodes ≤ t.disk.inodes
  named : ∀ i, t.disk.fifoInode = some i ∨ pc'.pours = some i →
    w.disk.fifoInode = some i ∨ w.disk.inodes ≤ i

theorem FifosFrom.names {pc' : Pc B} (hDisk : w.disk.Renamed t.disk)
    (hProcs : t.procs = w.procs.insert p pc') (hPours : pc'.pours = none) :
    FifosFrom w t p pc' := by
  refine ⟨hProcs, hDisk.inodes, fun i hNow => ?_⟩
  rcases hNow with hName | hOpen
  · exact hDisk.fifo i hName
  · cases hPours.symm.trans hOpen

theorem readBack_fifos (r : Reader) (i : Option Inode) (now : String)
    (result : Except StateError ContainerState) :
    ∃ pc', FifosFrom w (w.readBack p r i now result) p pc' := by
  obtain ⟨pc', hPours, hEq⟩ := readBack_goes (w := w) (p := p) (r := r)
    (P := fun pc => pc.pours = none) (fun _ => rfl) (fun _ _ _ => rfl) rfl (fun _ _ => rfl)
    (fun _ => rfl) rfl i now result
  rw [hEq]
  exact ⟨_, .names (.refl _) rfl hPours⟩

theorem call_fifos {o : Outcome} (h : w.call serde p o pc = some t) :
    ∃ pc', FifosFrom w t p pc' := by
  cases pc with
  | initDir op origin =>
    cases h
    exact ⟨_, .names (.makeDir _) rfl (by cases op <;> rfl)⟩
  | makeFifo origin =>
    simp only [call] at h
    split at h
    · cases h
      exact ⟨_, .names (.refl _) rfl rfl⟩
    · cases h
      exact ⟨_, .names (.makeFifo ‹_›) rfl rfl⟩
  | spawn op origin =>
    simp only [call] at h
    split at h
    · cases h
      exact ⟨_, .names (.refl _) rfl rfl⟩
    · cases h
  | createFile c u st =>
    simp only [call] at h
    split at h
    · cases h
      obtain ⟨_, hMoves⟩ := failUpdate_moves (w := w) (p := p) c u ENOENT
      exact ⟨_, .names (hMoves.disk ▸ .refl _) hMoves.procs rfl⟩
    · rename_i j disk hCreate
      cases h
      refine ⟨.writeFile c u st j 0, rfl, Disk.create_inodes hCreate, fun i hNow => .inl ?_⟩
      rcases hNow with hName | hOpen
      · exact (Disk.create_fifoInode hCreate).symm.trans hName
      · cases hOpen
  | writeFile c u st j n =>
    simp only [call] at h
    split at h
    · cases h
    cases h
    split
    · refine ⟨_, rfl, Nat.le_refl _, fun i hNow => .inl ?_⟩
      rcases hNow with hName | hOpen
      · exact hName
      · split at hOpen <;> cases hOpen
    · refine ⟨_, rfl, Nat.le_refl _, fun i hNow => .inl ?_⟩
      rcases hNow with hName | hOpen
      · exact hName
      · cases hOpen
  | startOpen =>
    simp only [call] at h
    split at h
    · cases h
      exact ⟨_, .names (.refl _) rfl rfl⟩
    · rename_i j hName
      cases h
      refine ⟨.startWrite j, rfl, Nat.le_refl _, fun i hNow => .inl ?_⟩
      rcases hNow with hSame | hOpen
      · exact hSame
      · cases hOpen
        exact hName
  | daemonOpen c =>
    simp only [call] at h
    split at h <;> cases h <;> exact ⟨_, .names (.refl _) rfl rfl⟩
  | daemonRead c j | startWrite j =>
    obtain ⟨_, _, rfl⟩ := Option.map_eq_some_iff.mp h
    exact ⟨_, .names (.refl _) rfl rfl⟩
  | daemonClose c j | startClose j result =>
    cases h
    exact ⟨_, .names (.refl _) rfl rfl⟩
  | supervise c st =>
    simp only [call] at h
    split at h
    · cases h
      exact ⟨_, .names (.refl _) rfl rfl⟩
    · cases h
  | listIds =>
    cases h
    exact ⟨_, .names (.refl _) rfl (by split <;> rfl)⟩
  | openState r =>
    simp only [call] at h
    split at h
    · cases h
      exact readBack_fifos r _ _ _
    · cases h
      exact ⟨_, .names (.refl _) rfl rfl⟩
  | readFile r j got =>
    simp only [call] at h
    split at h
    · cases h
    · split at h
      · cases h
        exact readBack_fifos r _ _ _
      · cases h
        exact ⟨_, .names (.refl _) rfl rfl⟩
  | sendSignal child sig | deleteKill child =>
    cases h
    exact ⟨_, .names (by rw [goto_disk, signal_disk]; exact .refl _)
      (by rw [goto, signal_procs]) rfl⟩
  | openDir =>
    simp only [call] at h
    split at h <;> cases h <;> exact ⟨_, .names (.refl _) rfl rfl⟩
  | unlink d =>
    simp only [call] at h
    split at h
    · split at h
      · cases h
        exact ⟨_, .names (.refl _) rfl rfl⟩
      · cases h
        exact ⟨_, .names (.removeDir ‹_›) rfl rfl⟩
    · obtain ⟨_, hUnlink, rfl⟩ := Option.map_eq_some_iff.mp h
      exact ⟨_, .names (.unlink hUnlink) rfl rfl⟩
  | done result => cases h

theorem failCall_fifos {e : Errno} (h : w.failCall p e pc = some t) :
    ∃ pc', FifosFrom w t p pc' := by
  cases pc with
  | createFile c u st | writeFile c u st j n =>
    cases h
    obtain ⟨_, hMoves⟩ := failUpdate_moves (w := w) (p := p) c u e
    exact ⟨_, .names (hMoves.disk ▸ .refl _) hMoves.procs rfl⟩
  | openState r | readFile r j got =>
    cases h
    exact readBack_fifos r _ _ _
  | daemonClose c j | startClose j result | done result => cases h
  | initDir op o | makeFifo o | spawn op o | daemonOpen c | daemonRead c j | supervise c st
  | listIds | startOpen | startWrite j | sendSignal child sig | deleteKill child | openDir
  | unlink d =>
    cases h
    exact ⟨_, .names (.refl _) rfl rfl⟩

namespace Stranded

theorem goes {pc' : Pc B} (h : w.Stranded p i) (hFifos : FifosFrom w t q pc')
    (hHolds : p ∈ (t.pipe i).writers) (hEmpty : (t.pipe i).unread = []) : t.Stranded p i := by
  have hNobody (hNow : t.disk.fifoInode = some i ∨ pc'.pours = some i) : False := by
    rcases hFifos.named i hNow with hName | hNew
    · exact h.lost hName
    · exact absurd h.old (Nat.not_lt.mpr hNew)
  refine ⟨hHolds, hEmpty, fun hName => hNobody (.inl hName), ?_, fun hBusy => ?_⟩
  · exact Nat.lt_of_lt_of_le h.old hFifos.inodes
  · rcases busy_moved hFifos.procs hBusy with hOpen | hBefore
    · exact hNobody (.inr hOpen)
    · exact h.idle hBefore

theorem call (h : w.Stranded p i) {o : Outcome} (hPc : w.procs.get q = some pc) (hq : q ≠ p)
    (hCall : w.call serde q o pc = some t) : t.Stranded p i := by
  obtain ⟨pc', hFifos⟩ := call_fifos hCall
  rcases call_pipe hCall i with hEq | hEq | hEq | ⟨rfl, _⟩ | ⟨c, data, rfl, hRead⟩
  · exact h.goes hFifos (hEq ▸ h.holds) (hEq ▸ h.empty)
  · exact h.goes hFifos (hEq ▸ Finset.mem_insert_of_mem h.holds) (hEq ▸ h.empty)
  · refine h.goes hFifos (hEq ▸ Pipe.mem_writers_closedBy h.holds (Ne.symm hq)) ?_
    rw [hEq]
    simp [Pipe.closedBy, h.empty]
  · exact absurd (busy_iff.mpr ⟨q, _, hPc, rfl⟩) h.idle
  · exact absurd h.empty (Pipe.unread_ne_nil_of_read hRead h.holds)

/-- A daemon that is stranded goes on waiting, unless its read fails. -/
theorem step (h : w.Stranded p i) {c : Container} {l : Label}
    (hWaits : w.procs.get p = some (.daemonRead c i)) (hFails : ∀ e, l ≠ .fails p e)
    (hStep : w.step serde l = some t) :
    t.Stranded p i ∧ t.procs.get p = some (.daemonRead c i) := by
  have other {q : Process} {pc' : Pc B} (hq : q ≠ p) (hProcs : t.procs = w.procs.insert q pc') :
      t.procs.get p = some (.daemonRead c i) := by
    rw [hProcs, Map.get_insert_ne _ _ (Ne.symm hq)]
    exact hWaits
  rcases step_cases hStep with ⟨q, cmd, pc, rfl, hFree, hStart, rfl⟩ |
    ⟨q, o, pc, rfl, hPc, hCall⟩ | ⟨q, e, pc, rfl, _, hPc, hCall⟩ | ⟨child, rfl, _, rfl⟩
  · have hq : q ≠ p := by
      rintro rfl
      cases hFree.symm.trans hWaits
    have hPours : pc.pours = none := by
      cases cmd with
      | create o | run o =>
        cases hStart
        rfl
      | reads r => cases r <;> cases hStart <;> rfl
    exact ⟨h.goes (.names (.refl _) rfl hPours) h.holds h.empty, other hq rfl⟩
  · have hq : q ≠ p := by
      rintro rfl
      cases hPc.symm.trans hWaits
      obtain ⟨⟨data, f⟩, hRead, _⟩ := Option.map_eq_some_iff.mp hCall
      exact Pipe.unread_ne_nil_of_read hRead h.holds h.empty
    obtain ⟨_, hFifos⟩ := call_fifos hCall
    exact ⟨h.call hPc hq hCall, other hq hFifos.procs⟩
  · have hq : q ≠ p := by
      rintro rfl
      exact hFails e rfl
    obtain ⟨_, hFifos⟩ := failCall_fifos hCall
    have hPipe := failCall_pipe hCall i
    exact ⟨h.goes hFifos (hPipe ▸ h.holds) (hPipe ▸ h.empty), other hq hFifos.procs⟩
  · exact ⟨⟨h.holds, h.empty, h.lost, h.old, h.idle⟩, hWaits⟩

/-- In whatever way things go on, it waits for ever. -/
theorem run (h : w.Stranded p i) {c : Container} {labels : List Label}
    (hWaits : w.procs.get p = some (.daemonRead c i))
    (hRun : (system serde).Run (fun _ l => ∀ e, l ≠ .fails p e) w labels t) :
    t.Stranded p i ∧ t.procs.get p = some (.daemonRead c i) := by
  induction hRun with
  | nil _ => exact ⟨h, hWaits⟩
  | cons hFails hNext _ ih =>
    obtain ⟨hStranded, hStill⟩ := h.step hWaits hFails hNext
    exact ih hStranded hStill

end Stranded

end World

/-! ## Being released, or not -/

/-- A client runs `start` and does nothing else, and nobody else does anything. -/
def starting (q : Process) (o : Outcome) : List Label :=
  .begin q (.reads .start) :: List.replicate 6 (.step q o)

theorem World.Startable.starts {serde : Serde B} {d q : Process} {w : World B} {i : Inode}
    (h : w.Startable serde) (hFifo : w.disk.fifoInode = some i) (hReader : d ∈ (w.pipe i).readers)
    (hFree : w.procs.get q = none) (hq : q ≠ d) :
    ∃ o t, (startsSystem serde d).Run System.free w (starting q o) t ∧
      t.procs.get q = some (.done (.ok ())) ∧ (t.pipe i).unread ≠ [] ∧
      ∀ p, p ≠ q → t.procs.get p = w.procs.get p := by
  obtain ⟨j, st, hName, hContent, hStatus⟩ := h
  let text := serde.toStringPretty st
  let o : Outcome := { size := text.length + 1 }
  let w₁ := w.goto q (.openState .start)
  let w₂ := w₁.goto q (.readFile .start j [])
  let w₃ := w₂.goto q (.readFile .start j text)
  let w₄ := (w₃.record (.readBack .start (some j) (.ok st))).goto q .startOpen
  let w₅ := (w₄.setPipe i ((w.pipe i).openedBy q)).goto q (.startWrite i)
  let f : Pipe Process := { (w.pipe i).openedBy q with unread := (w.pipe i).unread ++ [0x78] }
  let w₆ := (w₅.setPipe i f).goto q (.startClose i (.ok ()))
  let w₇ := (w₆.setPipe i (f.closedBy q)).goto q (.done (.ok ()))
  have hBegin : w.step serde (.begin q (.reads .start)) = some w₁ := by
    simp [World.step, hFree, Command.start, w₁]
  have hOpen : w₁.step serde (.step q o) = some w₂ := by
    simp [World.step, World.call, w₁, w₂, hName]
  have hRead : w₂.step serde (.step q o) = some w₃ := by
    have hAll : (w.disk.content j).take (text.length + 1) = text := by
      rw [hContent]
      exact List.take_of_length_le (Nat.le_succ _)
    have hText : text ≠ [] := serde.toStringPretty_ne_nil st
    simp [World.step, World.call, w₁, w₂, w₃, o, hAll, hText]
  have hEnd : w₃.step serde (.step q o) = some w₄ := by
    have hNothing : (w.disk.content j).drop text.length = [] := by
      rw [hContent]
      exact List.drop_length
    simp [World.step, World.call, World.readBack, w₁, w₂, w₃, w₄, o, text, hNothing, hStatus,
      serde.round]
  have hStartOpen : w₄.step serde (.step q o) = some w₅ := by
    have hAt : w₄.procs.get q = some .startOpen := World.goto_self
    have hNow : w₄.disk.fifoInode = some i := hFifo
    have hPipe : w₄.pipe i = w.pipe i := rfl
    simp [World.step, World.call, hAt, hNow, hPipe, w₅]
  have hWrite : w₅.step serde (.step q o) = some w₆ := by
    have hReaders : insert q (w.pipe i).readers ≠ ∅ := Finset.insert_ne_empty _ _
    simp [World.step, World.call, Pipe.write, Pipe.openedBy, w₅, w₆, f, hReaders]
  have hClose : w₆.step serde (.step q o) = some w₇ := by
    simp [World.step, World.call, w₆, w₇]
  refine ⟨o, w₇, .cons trivial hBegin <| .cons trivial hOpen <| .cons trivial hRead <|
    .cons trivial hEnd <| .cons trivial hStartOpen <| .cons trivial hWrite <|
    .cons trivial hClose <| .nil w₇, World.goto_self, ?_, fun p hp => ?_⟩
  · have hStays : d ∈ (insert q (w.pipe i).readers).erase q :=
      Finset.mem_erase.mpr ⟨Ne.symm hq, Finset.mem_insert_of_mem hReader⟩
    have hSome : (insert q (w.pipe i).readers).erase q ≠ ∅ := Finset.ne_empty_of_mem hStays
    have hPipe : w₇.pipe i = f.closedBy q := World.setPipe_pipe
    simp only [hPipe, f, Pipe.closedBy, Pipe.openedBy, hSome, false_and, if_false]
    exact List.append_ne_nil_of_right_ne_nil _ (List.cons_ne_nil _ _)
  · simp [w₇, w₆, w₅, w₄, w₃, w₂, w₁, World.setPipe, World.record, World.goto,
      Map.get_insert_ne _ _ hp]

/-- With a byte there, the daemon's read returns. -/
theorem World.daemon_released {serde : Serde B} {d : Process} {w : World B} {c : Container}
    {i : Inode} (o : Outcome) (hPc : w.procs.get d = some (.daemonRead c i))
    (hByte : (w.pipe i).unread ≠ []) :
    ∃ t, w.step serde (.step d o) = some t ∧ t.procs.get d = some (.daemonClose c i) := by
  let f : Pipe Process := { w.pipe i with unread := (w.pipe i).unread.drop BUFFER }
  have hRead : (w.pipe i).read BUFFER = some ((w.pipe i).unread.take BUFFER, f) :=
    Pipe.read_eq_some_iff.mpr ⟨fun hWaits => hByte hWaits.1, rfl, rfl⟩
  refine ⟨(w.setPipe i f).goto d (.daemonClose c i), ?_, World.goto_self⟩
  simp only [World.step, hPc, Option.bind_some, World.call, hRead, Option.map_some]

/-- As long as nobody takes from the daemon what it waits for, it waits on behalf of a live init at
the FIFO that the id leads to, and any `start` that is run then releases it. -/
theorem waits_for_start {serde : Serde B} {d : Process} {w : World B}
    (h : (startsSystem serde d).Reach (Spares d) w) {c : Container} {i : Inode}
    (hWaits : w.procs.get d = some (.daemonRead c i)) (hEmpty : (w.pipe i).unread = []) :
    w.inits.get c.child = some true ∧ w.disk.fifoInode = some i ∧
      ∀ q, w.procs.get q = none → ∃ o t t',
        (startsSystem serde d).Run System.free w (starting q o) t ∧
        t.procs.get q = some (.done (.ok ())) ∧
        t.step serde (.step d o) = some t' ∧ t'.procs.get d = some (.daemonClose c i) := by
  obtain ⟨pc, hPc, _, hReady⟩ := (Waits.reach h).daemon
  cases hPc.symm.trans hWaits
  obtain ⟨hReader, hFinds⟩ := hReady
  obtain ⟨hAlive, hStartable, hName⟩ := hFinds hEmpty
  refine ⟨hAlive, hName, fun q hFree => ?_⟩
  have hq : q ≠ d := by
    rintro rfl
    cases hFree.symm.trans hWaits
  obtain ⟨o, t, hRun, hDone, hByte, hOthers⟩ := hStartable.starts hName hReader hFree hq
  obtain ⟨t', hStep, hAt⟩ := @World.daemon_released B serde d t c i o
    ((hOthers d (Ne.symm hq)).trans hWaits) hByte
  exact ⟨o, t, t', hRun, hDone, hStep, hAt⟩

/-- A created container, which somebody has sent a signal that does not kill it. -/
def signalled : List Label :=
  steps 0 4 ++ .begin 1 (.reads (.kill (.ok 10))) :: steps 1 4

theorem waits_for_start_signalled : ∃ w : World Char,
    (startsSystem Serde.strict 0).Reach (Spares 0) w ∧
    w.procs.get 0 = some (.daemonRead ⟨0, 100, webOrigin⟩ 1) ∧
    w.inits.get 100 = some true ∧ w.disk.fifoInode = some 1 ∧
    ∀ q, w.procs.get q = none → ∃ o t t',
      (startsSystem Serde.strict 0).Run System.free w (starting q o) t ∧
      t.procs.get q = some (.done (.ok ())) ∧ t.step Serde.strict (.step 0 o) = some t' ∧
      t'.procs.get 0 = some (.daemonClose ⟨0, 100, webOrigin⟩ 1) := by
  have hRun : ((startsSystem Serde.strict 0).exec (Spares 0) (freshWorld webOrigin) signalled).map
      (fun w => (w.procs.get 0, (w.pipe 1).unread)) =
        some (some (.daemonRead ⟨0, 100, webOrigin⟩ 1), []) := by decide +kernel
  obtain ⟨w, hExec, hEnd⟩ := Option.map_eq_some_iff.mp hRun
  simp only [Prod.mk.injEq] at hEnd
  have hReach := System.reach_of_exec (freshWorld_created _ _) hExec
  exact ⟨w, hReach, hEnd.1, waits_for_start hReach hEnd.1 hEnd.2⟩

/-- A created container is deleted with `--force`. -/
def deleted : List Label :=
  steps 0 4 ++ .begin 1 (.reads (.delete true)) :: steps 1 5 ++
    [.step 1 { entry := .state }, .step 1 { entry := .fifo }, .step 1 { entry := .directory }]

/-- The daemon then waits for a byte that nobody can write any more, and its init is dead. -/
theorem waits_in_vain : ∃ (w : World Char) (c : Container) (i : Inode),
    (startsSystem Serde.strict 0).Reach (fun _ l => ∀ p cmd, l = .begin p cmd →
      cmd = .reads .start ∨ (∃ sig, cmd = .reads (.kill sig)) ∨ cmd = .reads (.delete true)) w ∧
    w.procs.get 0 = some (.daemonRead c i) ∧ w.inits.get c.child = some false ∧
    w.disk.fifoInode = none ∧
    ∀ labels t, (system Serde.strict).Run (fun _ l => ∀ e, l ≠ .fails 0 e) w labels t →
      t.procs.get 0 = some (.daemonRead c i) := by
  have hRun : ((startsSystem Serde.strict 0).exec System.free (freshWorld webOrigin) deleted).map
      (fun w => (w.procs.get 0, w.inits.get 100, w.disk.fifoInode, decide (w.Stranded 0 1))) =
        some (some (.daemonRead ⟨0, 100, webOrigin⟩ 1), some false, none, true) := by
    decide +kernel
  obtain ⟨w, hExec, hEnd⟩ := Option.map_eq_some_iff.mp hRun
  simp only [Prod.mk.injEq, decide_eq_true_eq] at hEnd
  obtain ⟨hWaits, hDead, hNoName, hStranded⟩ := hEnd
  have hLabels : ∀ l ∈ deleted, ∀ p cmd, l = .begin p cmd →
      cmd = .reads .start ∨ (∃ sig, cmd = .reads (.kill sig)) ∨ cmd = .reads (.delete true) := by
    simp [deleted, steps]
  have hReach := (System.Reach.init (freshWorld_created _ _)).run
    ((System.run_of_exec_mem hExec hLabels).mono fun _ _ hOk => hOk.2)
  exact ⟨w, _, _, hReach, hWaits, hDead, hNoName, fun _ _ hOn => (hStranded.run hWaits hOn).2⟩

end Dtrun.Commands
