import Dtrun.Host.Commands

/-! # What readers of the record see

`write_state` truncates `state.json` and fills it again while others read it piece by piece. Readers
see whole records as long as they and the writers keep apart: nobody reads a file that is being
written, or truncates one that somebody has read a part of.
-/
namespace Dtrun.Commands
set_option autoImplicit false
open FiniteMap Transition
open Lifecycle (StateError)

variable {B : Type}

/-- Some process is at a call of that kind on file `i`. -/
def World.Busy (w : World B) (kind : Pc B → Option Inode) (i : Inode) : Prop :=
  ∃ e ∈ w.procs.entries, kind e.2 = some i

instance (w : World B) (kind : Pc B → Option Inode) (i : Inode) : Decidable (w.Busy kind i) :=
  inferInstanceAs (Decidable (∃ e ∈ _, _ = _))

def Pc.midRead : Pc B → Option Inode
  | .readFile _ i got => if got = [] then none else some i
  | _ => none

/-- A truncation finds nobody writing or amid reading, and a read finds nobody writing. -/
def World.Free (w : World B) : Pc B → Prop
  | .createFile _ _ _ => ∀ i ∈ w.disk.stateInode, ¬ w.Busy Pc.writes i ∧ ¬ w.Busy Pc.midRead i
  | .readFile _ i _ => ¬ w.Busy Pc.writes i
  | _ => True

instance (w : World B) (pc : Pc B) : Decidable (w.Free pc) :=
  match pc with
  | .createFile _ _ _ => inferInstanceAs (Decidable (∀ i ∈ _, ¬ _ ∧ ¬ _))
  | .readFile _ _ _ => inferInstanceAs (Decidable (¬ _))
  | .initDir _ _ | .makeFifo _ | .spawn _ _ | .writeFile _ _ _ _ _ | .daemonOpen _
  | .daemonRead _ _ | .daemonClose _ _ | .supervise _ _ | .listIds | .openState _ | .startOpen
  | .startWrite _ | .startClose _ _ | .sendSignal _ _ | .deleteKill _ | .openDir | .unlink _
  | .done _ => .isTrue trivial

/-- Readers and writers keep apart, and no `write_all` fails. -/
def Apart (w : World B) : Label → Prop
  | .step p _ => ∀ pc ∈ w.procs.get p, w.Free pc
  | .fails p _ => ∀ pc ∈ w.procs.get p, pc.writes = none
  | _ => True

instance (w : World B) (l : Label) : Decidable (Apart w l) :=
  match l with
  | .step _ _ => inferInstanceAs (Decidable (∀ pc ∈ _, World.Free _ pc))
  | .fails _ _ => inferInstanceAs (Decidable (∀ pc ∈ _, _ = _))
  | .begin _ _ | .dies _ => .isTrue trivial

def recordOf (i : Inode) (history : List Event) : Option ContainerState :=
  history.findSome? fun e => match e with
    | .recorded _ _ j st => if j = i then some st else none
    | .readBack _ _ _ => none

/-- What `read_state` may return in view of what was written before. -/
def Truthful (i : Option Inode) (result : Except StateError ContainerState)
    (older : List Event) : Prop :=
  (∃ j st, i = some j ∧ recordOf j older = some st ∧ result = .ok st) ∨
    (i = none ∧ result = .error .missing) ∨ ∃ e, result = .error (.io e)

/-- What was read of a file is the record last written to it at that time, unless there was no file
or the read was refused. -/
def Faithful (history : List Event) : Prop :=
  ∀ newer older r i result, history = newer ++ .readBack r i result :: older →
    Truthful i result older

theorem Faithful.cons {e : Event} {history : List Event} (h : Faithful history)
    (hNew : ∀ r i result, e = .readBack r i result → Truthful i result history) :
    Faithful (e :: history) := by
  intro newer older r i result hSplit
  cases newer with
  | nil =>
    obtain ⟨hEvent, rfl⟩ := List.cons.inj hSplit
    exact hNew r i result hEvent
  | cons e' newer =>
    obtain ⟨rfl, hRest⟩ := List.cons.inj hSplit
    exact h newer older r i result hRest

theorem Faithful.parsed {history : List Event} (h : Faithful history) (r : Reader)
    (i : Option Inode) : .readBack r i (.error .parse) ∉ history := by
  intro hMem
  obtain ⟨newer, older, hSplit⟩ := List.append_of_mem hMem
  rcases h newer older r i _ hSplit with ⟨_, _, _, _, hOk⟩ | ⟨_, hMissing⟩ | ⟨_, hIo⟩
  · cases hOk
  · cases hMissing
  · cases hIo

theorem recordOf_recorded (i j : Inode) (c : Container) (u : Update) (st : ContainerState)
    (history : List Event) :
    recordOf i (.recorded c u j st :: history) =
      if j = i then some st else recordOf i history := by
  by_cases hEq : j = i
  · simp [recordOf, hEq]
  · simp [recordOf, hEq]

namespace World

variable {w t : World B} {p : Process} {pc : Pc B} {kind : Pc B → Option Inode} {i : Inode}

theorem busy_iff : w.Busy kind i ↔ ∃ p pc, w.procs.get p = some pc ∧ kind pc = some i := by
  constructor
  · rintro ⟨⟨p, pc⟩, hEntry, hKind⟩
    exact ⟨p, pc, Map.get_eq_some_iff.mpr hEntry, hKind⟩
  · rintro ⟨p, pc, hPc, hKind⟩
    exact ⟨⟨p, pc⟩, Map.get_eq_some_iff.mp hPc, hKind⟩

theorem busy_moved (hProcs : t.procs = w.procs.insert p pc) (h : t.Busy kind i) :
    kind pc = some i ∨ w.Busy kind i := by
  obtain ⟨q, pc', hPc', hKind⟩ := busy_iff.mp h
  rw [hProcs, Map.get_insert] at hPc'
  split at hPc'
  · cases hPc'
    exact .inl hKind
  · exact .inr (busy_iff.mpr ⟨q, pc', hPc', hKind⟩)

theorem busy_stays (hProcs : t.procs = w.procs.insert p pc)
    (hWas : ∀ pc₀, w.procs.get p = some pc₀ → kind pc₀ ≠ some i) (h : w.Busy kind i) :
    t.Busy kind i := by
  obtain ⟨q, pc', hPc', hKind⟩ := busy_iff.mp h
  refine busy_iff.mpr ⟨q, pc', ?_, hKind⟩
  have hOther : q ≠ p := by
    rintro rfl
    exact hWas pc' hPc' hKind
  rw [hProcs, Map.get_insert_ne _ _ hOther]
  exact hPc'

end World

/-! ## Files are whole or being written -/

structure Whole (serde : Serde B) (w : World B) : Prop where
  sound : w.disk.Sound
  /-- One process writes, and has written what is there. -/
  writer : ∀ p c u st i n, w.procs.get p = some (.writeFile c u st i n) →
    w.disk.files.get i = some ((serde.toStringPretty st).take n) ∧
      n ≤ (serde.toStringPretty st).length ∧
      ∀ q pc, w.procs.get q = some pc → pc.writes = some i → q = p
  reader : ∀ p r i got, w.procs.get p = some (.readFile r i got) →
    (w.disk.files.get i).isSome ∧ (got ≠ [] → got <+: w.disk.content i ∧ ¬ w.Busy Pc.writes i)
  settled : ∀ i content, w.disk.files.get i = some content → ¬ w.Busy Pc.writes i →
    ∃ st, recordOf i w.history = some st ∧ content = serde.toStringPretty st
  faithful : Faithful w.history

namespace Whole

variable {serde : Serde B} {w t : World B} {p : Process} {pc pc' : Pc B}

theorem empty : Whole serde (World.empty : World B) where
  sound := Disk.Sound.empty
  writer p c u st i n hPc := by cases hPc
  reader p r i got hPc := by cases hPc
  settled i content hFile := by cases hFile
  faithful newer older r i result hSplit := by simp [World.empty] at hSplit

theorem goes (h : Whole serde w) (hProcs : t.procs = w.procs.insert p pc')
    (hWas : ∀ pc, w.procs.get p = some pc → pc.writes = none) (hWrites : pc'.writes = none)
    (hReads : ∀ r i got, pc' = .readFile r i got → (w.disk.files.get i).isSome ∧
      (got ≠ [] → got <+: w.disk.content i ∧ ¬ w.Busy Pc.writes i))
    (hSound : t.disk.Sound) (hFiles : t.disk.files = w.disk.files)
    (hRecords : ∀ i, recordOf i t.history = recordOf i w.history)
    (hFaithful : Faithful t.history) : Whole serde t := by
  have hBusy (i : Inode) : t.Busy Pc.writes i ↔ w.Busy Pc.writes i := by
    constructor
    · intro hNow
      rcases World.busy_moved hProcs hNow with hEq | hBefore
      · rw [hWrites] at hEq
        cases hEq
      · exact hBefore
    · refine World.busy_stays hProcs fun pc hPc hEq => ?_
      rw [hWas pc hPc] at hEq
      cases hEq
  have hContent (i : Inode) : t.disk.content i = w.disk.content i := by
    simp only [Disk.content, hFiles]
  refine ⟨hSound, fun q c u st i n hPc => ?_, fun q r i got hPc => ?_,
    fun i content hFile hIdle => ?_, hFaithful⟩
  · rw [hProcs, Map.get_insert] at hPc
    split at hPc
    · cases hPc
      cases hWrites
    · obtain ⟨hFile, hLength, hAlone⟩ := h.writer q c u st i n hPc
      refine ⟨by rw [hFiles]; exact hFile, hLength, fun q' pc hq' hKind => ?_⟩
      rw [hProcs, Map.get_insert] at hq'
      split at hq'
      · cases hq'
        rw [hWrites] at hKind
        cases hKind
      · exact hAlone q' pc hq' hKind
  · rw [hFiles, hContent, hBusy]
    rw [hProcs, Map.get_insert] at hPc
    split at hPc
    · exact hReads r i got (Option.some.inj hPc)
    · exact h.reader q r i got hPc
  · rw [hFiles] at hFile
    rw [hBusy] at hIdle
    rw [hRecords]
    exact h.settled i content hFile hIdle

theorem moves (h : Whole serde w) (hMoves : World.Moves w t p pc')
    (hWas : ∀ pc, w.procs.get p = some pc → pc.writes = none) (hWrites : pc'.writes = none)
    (hReads : pc'.reads = none) : Whole serde t := by
  refine h.goes hMoves.procs hWas hWrites (fun r i got hEq => ?_) (hMoves.disk ▸ h.sound)
    (by rw [hMoves.disk]) (fun i => by rw [hMoves.history]) (hMoves.history ▸ h.faithful)
  rw [hEq] at hReads
  cases hReads

theorem readBack (h : Whole serde w) {r : Reader} {i : Option Inode} {now : String}
    {result : Except StateError ContainerState}
    (hWas : ∀ pc, w.procs.get p = some pc → pc.writes = none)
    (hResult : Truthful i result w.history) :
    Whole serde (w.readBack p r i now result) := by
  obtain ⟨pc', hMoves, hWrites, hReads⟩ := World.readBack_moves (w := w) (p := p) r i now result
  refine h.goes hMoves.procs hWas hWrites (fun r' i' got hEq => ?_) (hMoves.disk ▸ h.sound)
    (by rw [hMoves.disk]; rfl) (fun i' => by rw [hMoves.history]; rfl) ?_
  · rw [hEq] at hReads
    cases hReads
  · rw [hMoves.history]
    refine h.faithful.cons fun r' j result' hEq => ?_
    cases hEq
    exact hResult

theorem fresh (h : Whole serde w) {i : Inode} (hNone : w.disk.files.get i = none) :
    ¬ w.Busy Pc.writes i ∧ ¬ w.Busy Pc.midRead i := by
  constructor
  · intro hBusy
    obtain ⟨q, pc, hPc, hKind⟩ := World.busy_iff.mp hBusy
    cases pc with
    | writeFile c u st j n =>
      cases hKind
      cases hNone.symm.trans (h.writer q c u st i n hPc).1
    | _ => cases hKind
  · intro hBusy
    obtain ⟨q, pc, hPc, hKind⟩ := World.busy_iff.mp hBusy
    cases pc with
    | readFile r j got =>
      simp only [Pc.midRead] at hKind
      split at hKind
      · cases hKind
      · cases hKind
        have hSome := (h.reader q r i got hPc).1
        rw [hNone] at hSome
        cases hSome
    | _ => cases hKind

theorem opens (h : Whole serde w) {c : Container} {u : Update} {st : ContainerState} {i : Inode}
    {disk : Disk B} (hWas : ∀ pc, w.procs.get p = some pc → pc.writes = none)
    (hSound : disk.Sound) (hFiles : disk.files = w.disk.files.insert i [])
    (hWriter : ¬ w.Busy Pc.writes i) (hReader : ¬ w.Busy Pc.midRead i) :
    Whole serde ({ w with disk := disk }.goto p (.writeFile c u st i 0)) := by
  have hOther {j : Inode} (hj : j ≠ i) : disk.files.get j = w.disk.files.get j := by
    rw [hFiles, Map.get_insert_ne _ _ hj]
  have hSelf : disk.files.get i = some [] := by rw [hFiles, Map.get_insert_self]
  refine ⟨hSound, fun q c' u' st' j n hPc => ?_, fun q r j got hPc => ?_,
    fun j content hFile hIdle => ?_, h.faithful⟩
  · simp only [World.goto, Map.get_insert] at hPc ⊢
    split at hPc
    · rename_i hq
      cases hPc
      refine ⟨hSelf, Nat.zero_le _, fun q' pc hq' hKind => ?_⟩
      split at hq'
      · rename_i hEq
        rw [hEq, hq]
      · exact absurd (World.busy_iff.mpr ⟨q', pc, hq', hKind⟩) hWriter
    · obtain ⟨hFile, hLength, hAlone⟩ := h.writer q c' u' st' j n hPc
      have hj : j ≠ i := by
        rintro rfl
        exact hWriter (World.busy_iff.mpr ⟨q, _, hPc, rfl⟩)
      refine ⟨by rw [hOther hj]; exact hFile, hLength, fun q' pc hq' hKind => ?_⟩
      split at hq'
      · cases hq'
        cases hKind
        exact absurd rfl hj
      · exact hAlone q' pc hq' hKind
  · simp only [World.goto, Map.get_insert] at hPc ⊢
    split at hPc
    · cases hPc
    · obtain ⟨hFile, hPart⟩ := h.reader q r j got hPc
      by_cases hj : j = i
      · subst hj
        refine ⟨by rw [hSelf]; rfl, fun hGot => ?_⟩
        exact absurd (World.busy_iff.mpr ⟨q, _, hPc, by simp [Pc.midRead, hGot]⟩) hReader
      · have hContent : disk.content j = w.disk.content j := by
          simp only [Disk.content, hOther hj]
        rw [hOther hj, hContent]
        refine ⟨hFile, fun hGot => ⟨(hPart hGot).1, fun hBusy => ?_⟩⟩
        rcases World.busy_moved (w := w) (p := p) rfl hBusy with hEq | hBefore
        · cases hEq
          exact hj rfl
        · exact (hPart hGot).2 hBefore
  · by_cases hj : j = i
    · subst hj
      exact absurd (World.busy_iff.mpr ⟨p, _, World.goto_self, rfl⟩) hIdle
    · simp only [World.goto_disk, hOther hj] at hFile
      refine h.settled j content hFile fun hBusy => hIdle ?_
      refine World.busy_stays (w := w) (p := p) rfl (fun pc hPc hEq => ?_) hBusy
      rw [hWas pc hPc] at hEq
      cases hEq

theorem createFile (h : Whole serde w) {c : Container} {u : Update} {st : ContainerState}
    {o : Outcome} (hPc : w.procs.get p = some (.createFile c u st))
    (hFree : w.Free (.createFile c u st)) (hCall : w.call serde p o (.createFile c u st) = some t) :
    Whole serde t := by
  have hWas : ∀ pc, w.procs.get p = some pc → pc.writes = none := by
    intro pc hEq
    cases hPc.symm.trans hEq
    rfl
  simp only [World.call] at hCall
  split at hCall
  · cases hCall
    obtain ⟨_, hMoves⟩ := World.failUpdate_moves (w := w) (p := p) c u Lifecycle.ENOENT
    exact h.moves hMoves hWas rfl rfl
  · rename_i i disk hCreate
    cases hCall
    obtain ⟨d, dir, hPath, hDir, ⟨hState, rfl⟩ | ⟨_, rfl, rfl⟩⟩ := Disk.create_cases hCreate
    · have hFree := hFree i (Disk.stateInode_eq_some.mpr ⟨d, dir, hPath, hDir, hState⟩)
      exact h.opens hWas (h.sound.create hCreate) rfl hFree.1 hFree.2
    · have hNone : w.disk.files.get w.disk.inodes = none := by
        by_contra hSome
        exact absurd (h.sound.bound _ (Option.isSome_iff_ne_none.mpr hSome)) (Nat.lt_irrefl _)
      obtain ⟨hWriter, hReader⟩ := h.fresh hNone
      exact h.opens hWas (h.sound.create hCreate) rfl hWriter hReader

/-- The writer of a file leaves it at `pc'`, with the text as far as it is written then. -/
theorem writes (h : Whole serde w) {c : Container} {u : Update} {st : ContainerState} {i : Inode}
    {n k : Nat} (hPc : w.procs.get p = some (.writeFile c u st i n))
    (hProcs : t.procs = w.procs.insert p pc')
    (hDisk : t.disk = w.disk.write serde.nul i n (((serde.toStringPretty st).drop n).take k))
    (hReads : pc'.reads = none)
    (hNext : (pc' = .writeFile c u st i (n + k) ∧ n + k ≤ (serde.toStringPretty st).length ∧
        t.history = w.history) ∨
      (pc'.writes = none ∧ (serde.toStringPretty st).length ≤ n + k ∧
        t.history = .recorded c u i st :: w.history)) : Whole serde t := by
  obtain ⟨hFile, hLength, hAlone⟩ := h.writer p c u st i n hPc
  have hSelf : t.disk.files.get i = some ((serde.toStringPretty st).take (n + k)) := by
    rw [hDisk, Disk.write, Disk.content_of_get hFile, overwrite_take _ _ _ hLength]
    exact Map.get_insert_self _ _ _
  have hOther {j : Inode} (hj : j ≠ i) : t.disk.files.get j = w.disk.files.get j := by
    rw [hDisk, Disk.write]
    exact Map.get_insert_ne _ _ hj
  have hKind {j : Inode} (hj : j ≠ i) : pc'.writes ≠ some j := by
    rcases hNext with ⟨rfl, _⟩ | ⟨hNone, _⟩
    · intro hEq
      cases hEq
      exact hj rfl
    · rw [hNone]
      exact nofun
  have hRecord {j : Inode} (hj : j ≠ i) : recordOf j t.history = recordOf j w.history := by
    rcases hNext with ⟨_, _, hHistory⟩ | ⟨_, _, hHistory⟩
    · rw [hHistory]
    · rw [hHistory, recordOf_recorded, if_neg (Ne.symm hj)]
  refine ⟨?_, fun q c' u' st' j m hq => ?_, fun q r j got hq => ?_,
    fun j content hj hIdle => ?_, ?_⟩
  · rw [hDisk]
    exact h.sound.files (by rw [hFile]; rfl) _
  · rw [hProcs, Map.get_insert] at hq
    split at hq
    · rename_i hEq
      cases hq
      rcases hNext with ⟨hEq', hBound, _⟩ | ⟨hNone, _⟩
      · cases hEq'
        refine ⟨hSelf, hBound, fun q' pc hq' hWrites => ?_⟩
        rw [hProcs, Map.get_insert] at hq'
        split at hq'
        · rename_i hp
          rw [hp, hEq]
        · rw [hEq]
          exact hAlone q' pc hq' hWrites
      · cases hNone
    · rename_i hqp
      obtain ⟨hFile', hLength', hAlone'⟩ := h.writer q c' u' st' j m hq
      have hj : j ≠ i := by
        rintro rfl
        exact hqp (hAlone q _ hq rfl)
      refine ⟨by rw [hOther hj]; exact hFile', hLength', fun q' pc hq' hWrites => ?_⟩
      rw [hProcs, Map.get_insert] at hq'
      split at hq'
      · cases hq'
        exact absurd hWrites (hKind hj)
      · exact hAlone' q' pc hq' hWrites
  · rw [hProcs, Map.get_insert] at hq
    split at hq
    · cases hq
      cases hReads
    · obtain ⟨hSome, hPart⟩ := h.reader q r j got hq
      by_cases hj : j = i
      · subst hj
        refine ⟨by rw [hSelf]; rfl, fun hGot => ?_⟩
        exact absurd (World.busy_iff.mpr ⟨p, _, hPc, rfl⟩) (hPart hGot).2
      · have hContent : t.disk.content j = w.disk.content j := by
          simp only [Disk.content, hOther hj]
        rw [hOther hj, hContent]
        refine ⟨hSome, fun hGot => ⟨(hPart hGot).1, fun hBusy => ?_⟩⟩
        rcases World.busy_moved hProcs hBusy with hEq | hBefore
        · exact hKind hj hEq
        · exact (hPart hGot).2 hBefore
  · by_cases hji : j = i
    · subst hji
      rcases hNext with ⟨rfl, _⟩ | ⟨_, hWhole, hHistory⟩
      · exact absurd (World.busy_iff.mpr ⟨p, _, by rw [hProcs, Map.get_insert_self], rfl⟩) hIdle
      · refine ⟨st, by rw [hHistory, recordOf_recorded, if_pos rfl], ?_⟩
        rw [hSelf, List.take_of_length_le hWhole] at hj
        exact (Option.some.inj hj).symm
    · rw [hOther hji] at hj
      rw [hRecord hji]
      refine h.settled j content hj fun hBusy => hIdle ?_
      refine World.busy_stays hProcs (fun pc hp hEq => ?_) hBusy
      cases hPc.symm.trans hp
      cases hEq
      exact hji rfl
  · rcases hNext with ⟨_, _, hHistory⟩ | ⟨_, _, hHistory⟩
    · rw [hHistory]
      exact h.faithful
    · rw [hHistory]
      exact h.faithful.cons fun _ _ _ hEq => by cases hEq

theorem writeFile (h : Whole serde w) {c : Container} {u : Update} {st : ContainerState} {i : Inode}
    {n : Nat} {o : Outcome} (hPc : w.procs.get p = some (.writeFile c u st i n))
    (hCall : w.call serde p o (.writeFile c u st i n) = some t) : Whole serde t := by
  simp only [World.call] at hCall
  split at hCall
  · cases hCall
  cases hCall
  by_cases hWhole : (serde.toStringPretty st).length ≤ n + o.size
  · rw [if_pos hWhole]
    refine h.writes hPc rfl rfl ?_ (.inr ⟨?_, hWhole, rfl⟩)
    · cases u with
      | first op => cases op <;> rfl
      | started | stopped => rfl
    · cases u with
      | first op => cases op <;> rfl
      | started | stopped => rfl
  · rw [if_neg hWhole]
    exact h.writes hPc rfl rfl rfl (.inl ⟨rfl, by omega, rfl⟩)

/-- Who has come to the end of a file that nobody writes has its record. -/
theorem readEnd (h : Whole serde w) {r : Reader} {i : Inode} {got : List B}
    (hPc : w.procs.get p = some (.readFile r i got)) (hFree : ¬ w.Busy Pc.writes i)
    (hEnd : (w.disk.content i).drop got.length = []) :
    ∃ st, recordOf i w.history = some st ∧ serde.fromStr got = .ok st := by
  obtain ⟨hSome, hPart⟩ := h.reader p r i got hPc
  obtain ⟨content, hContent⟩ := Option.isSome_iff_exists.mp hSome
  obtain ⟨st, hRecord, hText⟩ := h.settled i content hContent hFree
  have hPrefix : got <+: content := by
    by_cases hGot : got = []
    · rw [hGot]
      exact List.nil_prefix
    · exact Disk.content_of_get hContent ▸ (hPart hGot).1
  obtain ⟨rest, hRest⟩ := hPrefix
  rw [Disk.content_of_get hContent, ← hRest, List.drop_left] at hEnd
  rw [hEnd, List.append_nil] at hRest
  exact ⟨st, hRecord, by rw [hRest, hText, serde.round]⟩

theorem readFile (h : Whole serde w) {r : Reader} {i : Inode} {got : List B} {o : Outcome}
    (hPc : w.procs.get p = some (.readFile r i got)) (hFree : w.Free (.readFile r i got))
    (hCall : w.call serde p o (.readFile r i got) = some t) : Whole serde t := by
  have hWas : ∀ pc, w.procs.get p = some pc → pc.writes = none := by
    intro pc hEq
    cases hPc.symm.trans hEq
    rfl
  obtain ⟨hSome, hPart⟩ := h.reader p r i got hPc
  simp only [World.call] at hCall
  split at hCall
  · cases hCall
  rename_i hSize
  split at hCall
  · rename_i hEnd
    cases hCall
    obtain ⟨st, hRecord, hRead⟩ :=
      h.readEnd hPc hFree ((List.take_eq_nil_iff.mp hEnd).resolve_left hSize)
    exact h.readBack hWas (.inl ⟨i, st, rfl, hRecord, hRead⟩)
  · cases hCall
    refine h.goes rfl hWas rfl (fun r' j got' hEq => ?_) h.sound rfl (fun _ => rfl) h.faithful
    cases hEq
    refine ⟨hSome, fun _ => ⟨?_, hFree⟩⟩
    have hPrefix : got <+: w.disk.content i := by
      by_cases hGot : got = []
      · rw [hGot]
        exact List.nil_prefix
      · exact (hPart hGot).1
    obtain ⟨rest, hRest⟩ := hPrefix
    rw [← hRest, List.drop_left]
    exact (List.prefix_append_right_inj got).mpr (List.take_prefix _ _)

theorem renames (h : Whole serde w) (hProcs : t.procs = w.procs.insert p pc')
    (hWas : ∀ pc, w.procs.get p = some pc → pc.writes = none) (hWrites : pc'.writes = none)
    (hReads : pc'.reads = none) (hSound : t.disk.Sound) (hFiles : t.disk.files = w.disk.files)
    (hHistory : t.history = w.history) : Whole serde t := by
  refine h.goes hProcs hWas hWrites (fun r i got hEq => ?_) hSound hFiles
    (fun i => by rw [hHistory]) (hHistory ▸ h.faithful)
  rw [hEq] at hReads
  cases hReads

theorem call (h : Whole serde w) {o : Outcome} (hPc : w.procs.get p = some pc) (hFree : w.Free pc)
    (hCall : w.call serde p o pc = some t) : Whole serde t := by
  have hWas (hNone : pc.writes = none) : ∀ pc, w.procs.get p = some pc → pc.writes = none := by
    intro pc' hEq
    cases hPc.symm.trans hEq
    exact hNone
  cases pc with
  | createFile c u st => exact h.createFile hPc hFree hCall
  | writeFile c u st i n => exact h.writeFile hPc hCall
  | readFile r i got => exact h.readFile hPc hFree hCall
  | initDir op origin =>
    cases hCall
    refine h.renames rfl (hWas rfl) ?_ ?_ h.sound.makeDir ?_ rfl
    · cases op <;> rfl
    · cases op <;> rfl
    · simp only [World.goto_disk, Disk.makeDir]
      split <;> rfl
  | makeFifo origin =>
    simp only [World.call] at hCall
    split at hCall
    · cases hCall
      exact h.renames rfl (hWas rfl) rfl rfl h.sound rfl rfl
    · rename_i disk hFifo
      cases hCall
      refine h.renames rfl (hWas rfl) rfl rfl (h.sound.makeFifo hFifo) ?_ rfl
      obtain ⟨_, _, _, _, ⟨_, rfl⟩ | ⟨_, rfl⟩⟩ := Disk.makeFifo_cases hFifo
      · rfl
      · rfl
  | spawn op origin =>
    simp only [World.call] at hCall
    split at hCall
    · cases hCall
      exact h.renames rfl (hWas rfl) rfl rfl h.sound rfl rfl
    · cases hCall
  | openState r =>
    simp only [World.call] at hCall
    split at hCall
    · cases hCall
      exact h.readBack (hWas rfl) (.inr (.inl ⟨rfl, rfl⟩))
    · rename_i i hName
      cases hCall
      refine h.goes rfl (hWas rfl) rfl (fun r' j got hEq => ?_) h.sound rfl (fun _ => rfl)
        h.faithful
      cases hEq
      obtain ⟨d, dir, _, hDir, hState⟩ := Disk.stateInode_eq_some.mp hName
      exact ⟨h.sound.linked d dir i hDir hState, fun hGot => absurd rfl hGot⟩
  | unlink d =>
    simp only [World.call] at hCall
    split at hCall
    · split at hCall
      · cases hCall
        exact h.renames rfl (hWas rfl) rfl rfl h.sound rfl rfl
      · rename_i disk hRemove
        cases hCall
        refine h.renames rfl (hWas rfl) rfl rfl (h.sound.removeDir hRemove) ?_ rfl
        obtain ⟨_, rfl⟩ := Disk.removeDir_cases hRemove
        rfl
    · obtain ⟨disk, hUnlink, rfl⟩ := Option.map_eq_some_iff.mp hCall
      refine h.renames rfl (hWas rfl) rfl rfl (h.sound.unlink hUnlink) ?_ rfl
      obtain ⟨_, _, _, rfl, _⟩ := Disk.unlink_cases hUnlink
      rfl
  | daemonOpen c | daemonRead c i | daemonClose c i | supervise c st | listIds | startOpen
  | startWrite i | startClose i result | sendSignal child sig | deleteKill child | openDir
  | done result =>
    obtain ⟨pc', hMoves, hWrites, hReads⟩ := World.call_apart hCall rfl
    exact h.moves hMoves (hWas rfl) hWrites hReads

theorem failCall (h : Whole serde w) {e : Errno} (hPc : w.procs.get p = some pc)
    (hIdle : pc.writes = none) (hCall : w.failCall p e pc = some t) : Whole serde t := by
  have hWas : ∀ pc, w.procs.get p = some pc → pc.writes = none := by
    intro pc' hEq
    cases hPc.symm.trans hEq
    exact hIdle
  obtain ⟨pc', hMoves | ⟨r, i, hMoves⟩, hWrites, hReads⟩ := World.failCall_moves hCall
  · exact h.moves hMoves hWas hWrites hReads
  · refine h.goes hMoves.procs hWas hWrites (fun r' i' got hEq => ?_) (hMoves.disk ▸ h.sound)
      (by rw [hMoves.disk]; rfl) (fun i' => by rw [hMoves.history]; rfl) ?_
    · rw [hEq] at hReads
      cases hReads
    · rw [hMoves.history]
      refine h.faithful.cons fun r' j result' hEq => ?_
      cases hEq
      exact .inr (.inr ⟨e, rfl⟩)

theorem step (h : Whole serde w) {l : Label} (hApart : Apart w l)
    (hStep : w.step serde l = some t) : Whole serde t := by
  rcases World.step_cases hStep with ⟨p, cmd, pc, rfl, hFree, hStart, rfl⟩ |
    ⟨p, o, pc, rfl, hPc, hCall⟩ | ⟨p, e, pc, rfl, _, hPc, hCall⟩ | ⟨child, rfl, _, rfl⟩
  · have hPlain : pc.writes = none ∧ pc.reads = none := by
      cases cmd with
      | create o | run o =>
        cases hStart
        exact ⟨rfl, rfl⟩
      | reads r =>
        cases r <;> cases hStart <;> exact ⟨rfl, rfl⟩
    refine h.renames rfl (fun pc hPc => ?_) hPlain.1 hPlain.2 h.sound rfl rfl
    cases hFree.symm.trans hPc
  · exact h.call hPc (hApart pc hPc) hCall
  · exact h.failCall hPc (hApart pc hPc) hCall
  · exact ⟨h.sound, h.writer, h.reader, h.settled, h.faithful⟩

theorem reach (h : (system serde).Reach Apart w) : Whole serde w :=
  h.invariant (fun _ hInit => hInit ▸ empty) fun _ _ _ _ hs hOk hStep => hs.step hOk hStep

end Whole

/-! ## The record stays in place -/

def Label.Removes (w : World B) : Label → Prop
  | .step p _ => ∃ d, w.procs.get p = some (.unlink d)
  | _ => False

namespace World

variable {serde : Serde B} {w t : World B} {p : Process} {pc : Pc B} {i : Inode}

def Keeps (dir dir' : Dir) : Prop :=
  (∀ i, dir.state = some i → dir'.state = some i) ∧ ∀ i, dir.fifo = some i → dir'.fifo = some i

theorem call_here {o : Outcome} {dir : Dir} (hCall : w.call serde p o pc = some t)
    (hKeeps : ∀ d, pc ≠ .unlink d) (hHere : w.disk.here = some dir) :
    ∃ dir', t.disk.here = some dir' ∧ Keeps dir dir' := by
  have same (hDisk : t.disk.here = w.disk.here) :
      ∃ dir', t.disk.here = some dir' ∧ Keeps dir dir' :=
    ⟨dir, hDisk.trans hHere, fun _ => id, fun _ => id⟩
  obtain ⟨d, hPath, hDir⟩ := Option.bind_eq_some_iff.mp hHere
  cases pc with
  | unlink d => exact absurd rfl (hKeeps d)
  | initDir op origin =>
    cases hCall
    exact same (by simp [Disk.makeDir, hPath])
  | makeFifo origin =>
    simp only [call] at hCall
    split at hCall
    · cases hCall
      exact same rfl
    · rename_i disk hFifo
      cases hCall
      obtain ⟨d', dir', hPath', hDir', ⟨_, rfl⟩ | ⟨hNone, rfl⟩⟩ := Disk.makeFifo_cases hFifo
      · exact same rfl
      · cases hPath.symm.trans hPath'
        cases hDir.symm.trans hDir'
        refine ⟨_, Disk.here_insertDir hPath rfl, fun _ => id, fun i hFifo => ?_⟩
        cases hNone.symm.trans hFifo
  | createFile c u st =>
    simp only [call] at hCall
    split at hCall
    · cases hCall
      obtain ⟨_, hMoves⟩ := failUpdate_moves (w := w) (p := p) c u Lifecycle.ENOENT
      exact same (by rw [hMoves.disk])
    · rename_i i' disk hCreate
      cases hCall
      obtain ⟨d', dir', hPath', hDir', ⟨_, rfl⟩ | ⟨hNone, _, rfl⟩⟩ := Disk.create_cases hCreate
      · exact same rfl
      · cases hPath.symm.trans hPath'
        cases hDir.symm.trans hDir'
        refine ⟨_, Disk.here_insertDir hPath rfl, fun i hState => ?_, fun _ => id⟩
        cases hNone.symm.trans hState
  | writeFile c u st j n =>
    simp only [call] at hCall
    split at hCall
    · cases hCall
    · cases hCall
      exact same (by split <;> rfl)
  | spawn op origin =>
    simp only [call] at hCall
    split at hCall
    · cases hCall
      exact same rfl
    · cases hCall
  | openState r =>
    simp only [call] at hCall
    split at hCall <;> cases hCall <;> exact same rfl
  | readFile r j got =>
    simp only [call] at hCall
    split at hCall
    · cases hCall
    · split at hCall <;> cases hCall <;> exact same rfl
  | daemonOpen c | daemonRead c i | daemonClose c i | supervise c st | listIds | startOpen
  | startWrite i | startClose i result | sendSignal child sig | deleteKill child | openDir
  | done result =>
    obtain ⟨_, hMoves, _⟩ := call_apart hCall rfl
    exact same (by rw [hMoves.disk])

theorem failCall_disk {e : Errno} (hCall : w.failCall p e pc = some t) : t.disk = w.disk := by
  obtain ⟨_, hMoves | ⟨_, _, hMoves⟩, _⟩ := failCall_moves hCall
  · exact hMoves.disk
  · exact hMoves.disk

theorem step_here {l : Label} {dir : Dir} (hStep : w.step serde l = some t) (hKeeps : ¬ l.Removes w)
    (hHere : w.disk.here = some dir) : ∃ dir', t.disk.here = some dir' ∧ Keeps dir dir' := by
  rcases step_cases hStep with ⟨p, cmd, pc, rfl, _, _, rfl⟩ | ⟨p, o, pc, rfl, hPc, hCall⟩ |
    ⟨p, e, pc, rfl, _, _, hCall⟩ | ⟨child, rfl, _, rfl⟩
  · exact ⟨dir, hHere, fun _ => id, fun _ => id⟩
  · exact call_here hCall (fun d hEq => hKeeps ⟨d, hEq ▸ hPc⟩) hHere
  · exact ⟨dir, by rw [failCall_disk hCall]; exact hHere, fun _ => id, fun _ => id⟩
  · exact ⟨dir, hHere, fun _ => id, fun _ => id⟩

theorem step_stateInode {l : Label} (hStep : w.step serde l = some t) (hKeeps : ¬ l.Removes w)
    (hName : w.disk.stateInode = some i) : t.disk.stateInode = some i := by
  obtain ⟨dir, hHere, hState⟩ := Option.bind_eq_some_iff.mp hName
  obtain ⟨dir', hHere', hDir⟩ := step_here hStep hKeeps hHere
  exact Option.bind_eq_some_iff.mpr ⟨dir', hHere', hDir.1 i hState⟩

theorem step_fifoInode {l : Label} (hStep : w.step serde l = some t) (hKeeps : ¬ l.Removes w)
    (hName : w.disk.fifoInode = some i) : t.disk.fifoInode = some i := by
  obtain ⟨dir, hHere, hFifo⟩ := Option.bind_eq_some_iff.mp hName
  obtain ⟨dir', hHere', hDir⟩ := step_here hStep hKeeps hHere
  exact Option.bind_eq_some_iff.mpr ⟨dir', hHere', hDir.2 i hFifo⟩

end World

/-- As long as readers and writers of a file keep apart, all that anybody has read is the record
last written, and only a `delete` makes it go missing. -/
theorem reads_faithful {serde : Serde B} {w : World B} (h : (system serde).Reach Apart w) :
    Faithful w.history ∧ (∀ r i, .readBack r i (.error .parse) ∉ w.history) ∧
      ∀ l t i, w.step serde l = some t → ¬ l.Removes w → w.disk.stateInode = some i →
        t.disk.stateInode = some i :=
  have hWhole := Whole.reach h
  ⟨hWhole.faithful, hWhole.faithful.parsed, fun _ _ _ => World.step_stateInode⟩

def webOrigin : Origin where
  ociVersion := "1.0.2"
  id := "web"
  bundle := "/srv/web"
  rootfs := "/srv/web/rootfs"
  seed := 7

/-- Reads and writes come through at once. -/
def atOnce : Outcome where
  child := 100
  now := "2026-08-10T00:00:00Z"
  size := 4096

def steps (p : Process) (n : Nat) : List Label := .replicate n (.step p atOnce)

/-- A container is created; somebody asks for its state. -/
def asked : List Label :=
  .begin 0 (.create webOrigin) :: steps 0 5 ++ .begin 1 (.reads .state) :: steps 1 3

theorem reads_faithful_asked : ∃ w : World Char, (system Serde.strict).Reach Apart w ∧
    w.history.head? = some (.readBack .state (some 2)
      (.ok (mkState webOrigin .created 100 none "2026-08-10T00:00:00Z"))) ∧
    Faithful w.history ∧ (∀ r i, .readBack r i (.error .parse) ∉ w.history) ∧
      ∀ l t i, w.step Serde.strict l = some t → ¬ l.Removes w → w.disk.stateInode = some i →
        t.disk.stateInode = some i := by
  have hRun : ((system Serde.strict).exec Apart .empty asked).map (fun w => w.history.head?) =
      some (some (.readBack .state (some 2)
        (.ok (mkState webOrigin .created 100 none "2026-08-10T00:00:00Z")))) := by decide +kernel
  obtain ⟨w, hExec, hHead⟩ := Option.map_eq_some_iff.mp hRun
  have hReach := System.reach_of_exec rfl hExec
  exact ⟨w, hReach, hHead, reads_faithful hReach⟩

/-- Somebody asks for the state of a container between the truncation and the text of the update to
`running`. -/
def torn : List Label :=
  .begin 0 (.create webOrigin) :: steps 0 6 ++ .begin 1 (.reads .start) :: steps 1 6 ++
    steps 0 6 ++ .begin 2 (.reads .state) :: steps 2 2

theorem not_reads_faithful : ¬ ∀ (w : World Char) (r : Reader) (i : Inode),
    (system Serde.strict).Reach System.free w → (recordOf i w.history).isSome →
      .readBack r (some i) (.error .parse) ∉ w.history := by
  intro hAll
  have hRun : ((system Serde.strict).exec System.free .empty torn).map (fun w =>
      (w.history.head?, (recordOf 2 w.history).isSome)) =
        some (some (.readBack .state (some 2) (.error .parse)), true) := by decide +kernel
  obtain ⟨w, hExec, hEnd⟩ := Option.map_eq_some_iff.mp hRun
  simp only [Prod.mk.injEq] at hEnd
  exact hAll w .state 2 (System.reach_of_exec rfl hExec) hEnd.2 (List.mem_of_head? hEnd.1)

end Dtrun.Commands
