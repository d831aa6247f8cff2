import Dtrun.Host.Handshake
import Dtrun.Host.SignalNames

/-! # What create answers

`create_detached` forks the daemon and reads one line from it: the pid of the init, or why there is
none. The line comes through a pipe that the init has a copy of too, until it is past `execvpe`. The
daemon writes the pid twice, but nobody reads the second.
-/
namespace Dtrun.Creating
set_option autoImplicit false
open Lifecycle Lines Numerals Oci SignalNames Spawning Transition
open Relay (isWhitespace)

/-- The texts of errors that are not this repository's own, besides those of `Texts`. -/
structure Displays extends Texts where
  errno : Errno → String
  /-- of JSON that does not parse -/
  syntaxError : String

section Display

variable (d : Displays)

def displayState : StateError → String
  | .io e => s!"state io error: {d.strerror e}"
  | .parse => s!"state parse error: {d.syntaxError}"
  | .missing => "container not found"

def displaySupervise : SuperviseError → String
  | .ptrace e => s!"ptrace failed: {d.errno e}"
  | .wait e => s!"waitpid failed: {d.errno e}"
  | .io e => s!"io failed: {d.strerror e}"
  | .deadlock => "all threads are parked on futex waits (deadlock)"

/-- `Display` of `HostError` -/
def display : HostError → String
  | .config e => s!"invalid config: {e}"
  | .state e => displayState d e
  | .io e => s!"io error: {d.strerror e}"
  | .errno op e => s!"{op} failed: {d.errno e}"
  | .clone e => s!"clone failed: {d.errno e}"
  | .wait e => s!"wait failed: {d.errno e}"
  | .supervise e => s!"supervisor error: {displaySupervise d e}"
  | .notFound => "container not found"
  | .notCreated => "container is not in the created state"
  | .badSignal s => s!"unknown signal '{s}'"

end Display

inductive Holder where
  | daemon | init
  deriving DecidableEq

/-- The process that `create` was called in. -/
inductive Launcher where
  | reading
  /-- Nothing came, and it waits for the daemon to be gone. -/
  | reaping
  | done (result : Except HostError Pid)
  deriving DecidableEq

def Launcher.reads : Launcher → Bool
  | .reading => true
  | .reaping | .done _ => false

structure Creation where
  /-- the daemon and the init -/
  spawn : Spawn
  /-- the lines that the daemon writes next -/
  owed : List String
  unread : List Char
  writers : Finset Holder
  launcher : Launcher
  /-- whether `state.json` has been written -/
  recorded : Bool

inductive Label where
  | spawn (l : Spawning.Label)
  /-- The daemon writes a line to the pipe. -/
  | tells (result : Except Errno Unit)
  /-- The daemon is killed. -/
  | killed
  /-- The init gets past `execvpe`, which closes its copy. -/
  | execs
  | launcher

/-- What the launcher makes of the bytes up to the end of the line. -/
def report (unread : List Char) : List Char := trim (cut '\n' unread).1

/-- The daemon is in `supervisor_created`. -/
def creating : Parent → Bool
  | .openFifo | .readByte | .rewriteState | .supervise | .ending _ | .exited _ => false
  | _ => true

variable (d : Displays) (ids : Ids) (config : OciConfig)

def pidLine : String := s!"{ids.child}\n"

def errorLine (e : HostError) : String := s!"{display d e}\n"

/-- What the daemon writes after a call: the first of two equal lines comes from
`supervisor_created`. What ends it later is told nobody. -/
def owedAfter (before after : Parent) : List String :=
  match after with
  | .openFifo => [pidLine ids, pidLine ids]
  | .ending (some (.error e)) => if creating before then [errorLine d e] else []
  | _ => []

/-- What is in the pipe after a write. -/
def written (unread : List Char) (line : String) : Except Errno Unit → List Char
  | .ok () => unread ++ line.toList
  | .error _ => unread

def present (t : Spawn) : Holder → Bool
  | .daemon => !t.parent.hasExited
  | .init => t.Alive

namespace Creation

variable (c : Creation)

def go (t : Spawn) : Creation :=
  { c with spawn := t, writers := c.writers.filter fun h => present t h }

def launcherStep : Option Creation :=
  match c.launcher with
  | .reading =>
    if '\n' ∈ c.unread ∨ c.writers = ∅ then
      let line := report c.unread
      some { c with
        launcher :=
          if line = [] then .reaping else
          match parseI32 line with
          | some pid => .done (.ok pid)
          | none => .done (.error (.config s!"supervisor error: {String.ofList line}")) }
    else none
  | .reaping =>
    if c.spawn.parent.hasExited then
      some { c with launcher := .done (.error (.config "supervisor failed during create")) }
    else none
  | .done _ => none

def step : Label → Option Creation
  | .spawn (.parent result) =>
    if c.owed = [] then
      (c.spawn.parentStep d.toTexts ids config .create result).map fun t =>
        { c.go t with
          owed := owedAfter d ids c.spawn.parent t.parent
          recorded := c.recorded || t.parent = .openFifo }
    else none
  | .spawn l => (c.spawn.step d.toTexts ids config .create l).map c.go
  | .tells result =>
    match c.owed with
    | [] => none
    | line :: rest =>
      some { c with
        owed := rest
        unread := written c.unread line result }
  | .killed =>
    if c.spawn.parent.hasExited then none
    else some { c.go (c.spawn.parentExits none) with owed := [] }
  | .execs =>
    if c.spawn.child = .proceeds ∧ c.spawn.stop = none then
      some { c with writers := c.writers.erase .init }
    else none
  | .launcher => c.launcherStep

def cloned : Creation where
  spawn := .cloned
  owed := []
  unread := []
  writers := {.daemon, .init}
  launcher := .reading
  recorded := false

end Creation

def system : System Creation Label where
  init c := c = .cloned
  step c := c.step d ids config

/-- Whether a line may get lost while it is waited for, and whether the daemon may be killed. -/
def Allowed (lost kills : Prop) (c : Creation) : Label → Prop
  | .tells (.error _) => lost ∨ c.launcher.reads = false
  | .killed => kills
  | _ => True

instance {lost kills : Prop} [Decidable lost] [Decidable kills] (c : Creation)
    (l : Label) : Decidable (Allowed lost kills c l) :=
  match l with
  | .tells (.error _) => inferInstanceAs (Decidable (_ ∨ _))
  | .killed => inferInstanceAs (Decidable kills)
  | .tells (.ok _) | .spawn _ | .execs | .launcher => inferInstanceAs (Decidable True)

/-- The answer is in the words of the daemon's failure. -/
def Reports (c : Creation) (e : HostError) : Prop :=
  ∃ failure, (c.spawn.parent = .ending (some failure) ∨ c.spawn.parent = .exited (some failure)) ∧
    e = .config (match failure with
      | .panic => "supervisor failed during create"
      | .error cause =>
        s!"supervisor error: {String.ofList (report (errorLine d cause).toList)}")

/-! ## What the launcher makes of a line -/

/-- The text does not begin with an operation, or with one that `spawn_created` names. -/
def Worded (e : HostError) : Prop := ∀ op n, e = .errno op n → op = "ptrace setoptions"

variable {d ids config} {c c' : Creation} {s t : Spawn} {lost kills : Prop} {e : HostError}

theorem head_append {a b : String} {letter : Char} (h : a.toList.head? = some letter) :
    (a ++ b).toList.head? = some letter := by
  rw [String.toList_append, List.head?_append, h, Option.some_or]

theorem display_word (h : Worded e) :
    ∃ letter, (display d e).toList.head? = some letter ∧ letter.isAlpha = true := by
  have hContainer (text : String) : ("container" ++ text).toList.head? = some 'c' :=
    head_append rfl
  cases e with
  | config e => exact ⟨'i', head_append rfl, by decide⟩
  | state e =>
    cases e with
    | io e => exact ⟨'s', head_append rfl, by decide⟩
    | parse => exact ⟨'s', head_append rfl, by decide⟩
    | missing => exact ⟨'c', hContainer " not found", by decide⟩
  | io e => exact ⟨'i', head_append rfl, by decide⟩
  | errno op n =>
    rw [h op n rfl]
    exact ⟨'p', head_append (head_append rfl), by decide⟩
  | clone e => exact ⟨'c', head_append rfl, by decide⟩
  | wait e => exact ⟨'w', head_append rfl, by decide⟩
  | supervise e => exact ⟨'s', head_append rfl, by decide⟩
  | notFound => exact ⟨'c', hContainer " not found", by decide⟩
  | notCreated => exact ⟨'c', hContainer " is not in the created state", by decide⟩
  | badSignal s => exact ⟨'u', head_append (head_append rfl), by decide⟩

theorem not_blank {x : Char} (hLow : 0x20 < x.toNat) (hHigh : x.toNat < 0x80) :
    isWhitespace x = false := by
  simp only [isWhitespace, decide_eq_false_iff_not, List.mem_cons, List.not_mem_nil, or_false]
  omega

theorem not_blank_of_digit {x : Char} (h : x.isDigit = true) : isWhitespace x = false := by
  obtain ⟨hLow, hHigh⟩ := digit_bounds h
  exact not_blank (by omega) (by omega)

theorem alpha_spec {letter : Char} (h : letter.isAlpha = true) :
    isWhitespace letter = false ∧ ¬ (letter.isDigit = true ∨ letter = '-' ∨ letter = '+') := by
  obtain ⟨hLow, hHigh⟩ := alpha_bounds h
  refine ⟨not_blank (by omega) (by omega), ?_⟩
  rintro (hDigit | rfl | rfl)
  · have hBounds := digit_bounds hDigit
    omega
  · exact absurd hLow (by decide)
  · exact absurd hLow (by decide)

theorem report_word {letter : Char} (h : letter.isAlpha = true) (rest : List Char) :
    report (letter :: rest) ≠ [] ∧ parseI32 (report (letter :: rest)) = none := by
  obtain ⟨hBlank, hNumeral⟩ := alpha_spec h
  have hHead : ∃ line, (cut '\n' (letter :: rest)).1 = letter :: line := by
    have hFirst := @cut_fst_head? _ _ '\n' letter rest
    exact List.head?_eq_some_iff.mp hFirst
  obtain ⟨line, hLine⟩ := hHead
  have hMem : letter ∈ report (letter :: rest) := by
    rw [report, hLine, trim, List.dropWhile_cons_of_neg (by simp [hBlank])]
    have hParts := List.rdropWhile_prefix isWhitespace (l := letter :: line)
    cases hLeft : (letter :: line).rdropWhile isWhitespace with
    | nil =>
      have hAll := List.rdropWhile_eq_nil_iff.mp hLeft letter List.mem_cons_self
      rw [hBlank] at hAll
      cases hAll
    | cons x left =>
      rw [hLeft, List.cons_prefix_cons] at hParts
      rw [hParts.1]
      exact List.mem_cons_self
  refine ⟨List.ne_nil_of_mem hMem, ?_⟩
  rw [Option.eq_none_iff_forall_ne_some]
  intro n hParse
  exact hNumeral (parseInt_chars hParse hMem)

theorem child_chars (hPid : -2 ^ 31 ≤ ids.child ∧ ids.child ≤ 2 ^ 31 - 1) {x : Char}
    (hx : x ∈ (toString ids.child).toList) : isWhitespace x = false ∧ x ≠ '\n' := by
  have hParse := parseInt_toString hPid.1 hPid.2
  rcases parseInt_chars hParse hx with hDigit | rfl | rfl
  · refine ⟨not_blank_of_digit hDigit, ?_⟩
    rintro rfl
    exact absurd hDigit (by decide)
  · decide
  · decide

theorem report_pid (hPid : -2 ^ 31 ≤ ids.child ∧ ids.child ≤ 2 ^ 31 - 1) (rest : List Char) :
    parseI32 (report ((pidLine ids).toList ++ rest)) = some ids.child := by
  have hLine : (pidLine ids).toList ++ rest = (toString ids.child).toList ++ '\n' :: rest := by
    rw [pidLine, String.toList_append, List.append_assoc]
    rfl
  have hBreak : '\n' ∉ (toString ids.child).toList := fun hMem => (child_chars hPid hMem).2 rfl
  have hTrim : trim ((toString ids.child).toList ++ ['\n']) = (toString ids.child).toList :=
    trim_blanks (List.forall_mem_nil _) (List.forall_mem_singleton.mpr (by decide))
      fun x hx => (child_chars hPid hx).1
  rw [hLine, report, cut_line hBreak, hTrim]
  exact parseInt_toString hPid.1 hPid.2

/-! ## What the daemon goes through -/

/-- A step of the daemon, by what it means to the launcher. -/
inductive Moves (before after : Parent) : Prop
  | creates (h : creating before = true) (h' : creating after = true)
  | records (h : creating before = true) (h' : after = .openFifo)
  | fails {e : HostError} (h : creating before = true) (hWorded : Worded e)
      (h' : after = .ending (some (.error e)))
  | panics (h : creating before = true) (h' : after = .ending (some .panic))
  | proceeds (h : before.late = true) (hCreated : creating before = false)
      (h' : creating after = false) (hNot : after ≠ .openFifo) (hStays : after.hasExited = false)
  | exits {failure : Option Failure} (h : before = .ending failure) (h' : after = .exited failure)

theorem worded_of_not_errno (h : ∀ op n, e ≠ .errno op n) : Worded e :=
  fun op n hEq => absurd hEq (h op n)

theorem moves {result : Except Errno Unit}
    (hStep : s.parentStep d.toTexts ids config .create result = some t) :
    Moves s.parent t.parent := by
  cases hParent : s.parent with
  | readReady =>
    refine .creates rfl ?_
    cases result with
    | error e =>
      simp only [Spawn.parentStep, hParent] at hStep
      cases hStep
      rfl
    | ok u =>
      simp only [Spawn.parentStep, hParent, Option.map_eq_some_iff] at hStep
      obtain ⟨_, _, rfl⟩ := hStep
      rfl
  | mapRootUser rest =>
    cases rest with
    | nil =>
      simp only [Spawn.parentStep, hParent] at hStep
      cases hStep
      exact .creates rfl rfl
    | cons entry rest =>
      cases result with
      | ok u =>
        simp only [Spawn.parentStep, hParent] at hStep
        cases hStep
        exact .creates rfl rfl
      | error e =>
        simp only [Spawn.parentStep, hParent] at hStep
        cases hStep
        exact .fails rfl (worded_of_not_errno fun _ _ hEq => by cases hEq) rfl
  | writeMapsDone =>
    refine .creates rfl ?_
    cases result with
    | error e =>
      simp only [Spawn.parentStep, hParent] at hStep
      cases hStep
      rfl
    | ok u =>
      simp only [Spawn.parentStep, hParent, Option.map_eq_some_iff] at hStep
      obtain ⟨_, _, rfl⟩ := hStep
      rfl
  | spawnRelays =>
    cases result with
    | error e =>
      simp only [Spawn.parentStep, hParent] at hStep
      cases hStep
      exact .panics rfl rfl
    | ok u =>
      simp only [Spawn.parentStep, hParent] at hStep
      cases hStep
      exact .creates rfl rfl
  | waitChild =>
    cases result with
    | error e =>
      simp only [Spawn.parentStep, hParent] at hStep
      cases hStep
      exact .fails rfl (worded_of_not_errno fun _ _ hEq => by cases hEq) rfl
    | ok u =>
      simp only [Spawn.parentStep, hParent, Option.map_eq_some_iff] at hStep
      obtain ⟨status, _, rfl⟩ := hStep
      split
      · exact .creates rfl rfl
      · exact .fails rfl (worded_of_not_errno fun _ _ hEq => by cases hEq) rfl
      · exact .fails rfl (worded_of_not_errno fun _ _ hEq => by cases hEq) rfl
  | setOptions =>
    cases result with
    | error e =>
      simp only [Spawn.parentStep, hParent] at hStep
      cases hStep
      refine .fails rfl (fun op n hEq => ?_) rfl
      injection hEq with hOp
      exact hOp.symm
    | ok u =>
      simp only [Spawn.parentStep, hParent] at hStep
      split at hStep
      · cases hStep
        exact .creates rfl rfl
      · cases hStep
  | writeState =>
    cases result with
    | error e =>
      simp only [Spawn.parentStep, hParent] at hStep
      cases hStep
      exact .fails rfl (worded_of_not_errno fun _ _ hEq => by cases hEq) rfl
    | ok u =>
      simp only [Spawn.parentStep, hParent] at hStep
      cases hStep
      exact .records rfl rfl
  | openFifo | rewriteState =>
    cases result with
    | error e =>
      simp only [Spawn.parentStep, hParent] at hStep
      cases hStep
      exact .proceeds rfl rfl rfl (by rintro ⟨⟩) rfl
    | ok u =>
      simp only [Spawn.parentStep, hParent] at hStep
      cases hStep
      exact .proceeds rfl rfl rfl (by rintro ⟨⟩) rfl
  | readByte =>
    simp only [Spawn.parentStep, hParent] at hStep
    cases hStep
    exact .proceeds rfl rfl rfl (by rintro ⟨⟩) rfl
  | supervise =>
    cases result with
    | error e =>
      simp only [Spawn.parentStep, hParent] at hStep
      cases hStep
      exact .proceeds rfl rfl rfl (by rintro ⟨⟩) rfl
    | ok u =>
      simp only [Spawn.parentStep, hParent] at hStep
      split at hStep
      · cases hStep
        exact .proceeds rfl rfl rfl (by rintro ⟨⟩) rfl
      · cases hStep
        exact .proceeds rfl rfl rfl (by rintro ⟨⟩) rfl
  | ending failure =>
    simp only [Spawn.parentStep, hParent] at hStep
    cases hStep
    refine .exits rfl ?_
    rw [Spawn.parentExits]
    split
    · rfl
    · rfl
  | exited failure =>
    simp only [Spawn.parentStep, hParent] at hStep
    cases hStep

/-! ## The story so far -/

/-- A line may have got lost: nobody reads any more, or the daemon was killed before it wrote. -/
def MayMiss (lost kills : Prop) (c : Creation) : Prop :=
  lost ∨ c.launcher.reads = false ∨ kills ∧ c.spawn.parent.hasExited = true

def Ends (kills : Prop) (failure : Failure) (parent : Parent) : Prop :=
  parent = .ending (some failure) ∨ parent = .exited (some failure) ∨
    kills ∧ parent.hasExited = true

inductive Story (d : Displays) (ids : Ids) (lost kills : Prop) (c : Creation) : Prop
  | quiet (hRecorded : c.recorded = false) (hOwed : c.owed = []) (hUnread : c.unread = [])
      (hParent : creating c.spawn.parent = true ∨ Ends kills .panic c.spawn.parent)
  | failed {e : HostError} (hWorded : Worded e) (hRecorded : c.recorded = false)
      (hParent : Ends kills (.error e) c.spawn.parent)
      (hLine : c.owed = [errorLine d e] ∧ c.unread = [] ∨
        c.owed = [] ∧ (c.unread = (errorLine d e).toList ∨ c.unread = [] ∧ MayMiss lost kills c))
  | succeeded (n : Nat) (hRecorded : c.recorded = true) (hParent : creating c.spawn.parent = false)
      (hOwed : ∀ line ∈ c.owed, line = pidLine ids)
      (hUnread : c.unread = (List.replicate n (pidLine ids).toList).flatten)
      (hSaid : n = 0 → c.owed ≠ [] ∨ MayMiss lost kills c)

/-- Who holds the pipe, and what the launcher has found out. -/
structure Told (d : Displays) (ids : Ids) (lost kills : Prop) (c : Creation) : Prop where
  story : Story d ids lost kills c
  owing : c.owed ≠ [] → c.spawn.parent.hasExited = false
  daemon : .daemon ∈ c.writers ↔ c.spawn.parent.hasExited = false
  init : .init ∈ c.writers → c.spawn.Alive
  finished : c.launcher.reads = false → creating c.spawn.parent = false
  reaping : c.launcher = .reaping → c.spawn.parent.hasExited = true ∧
    (¬ lost → ¬ kills → c.recorded = false ∧ c.spawn.parent = .exited (some .panic))
  ok : ∀ pid, c.launcher = .done (.ok pid) → pid = ids.child ∧ c.recorded = true
  error : ∀ e, c.launcher = .done (.error e) → ¬ lost → ¬ kills →
    c.recorded = false ∧ Reports d c e

theorem MayMiss.mono (h : MayMiss lost kills c) (hReads : c'.launcher = c.launcher)
    (hExited : c.spawn.parent.hasExited = true → c'.spawn.parent.hasExited = true) :
    MayMiss lost kills c' := by
  rcases h with hLost | hDone | ⟨hKills, hGone⟩
  · exact .inl hLost
  · exact .inr (.inl (by rw [hReads, hDone]))
  · exact .inr (.inr ⟨hKills, hExited hGone⟩)

theorem creating_not_exited {parent : Parent} (h : creating parent = true) :
    parent.hasExited = false := by
  cases parent <;> first | rfl | cases h

theorem late_not_exited {parent : Parent} (h : parent.late = true) :
    parent.hasExited = false := by
  cases parent <;> first | rfl | cases h

namespace Told

theorem cloned : Told d ids lost kills .cloned where
  story := .quiet rfl rfl rfl (.inl rfl)
  owing hOwed := absurd rfl hOwed
  daemon := by decide
  init _ := by decide
  finished h := by cases h
  reaping h := by cases h
  ok _ h := by cases h
  error _ h := by cases h

theorem mem_go {holder : Holder} :
    holder ∈ (c.go t).writers ↔ holder ∈ c.writers ∧ present t holder = true := by
  rw [Creation.go, Finset.mem_filter]

theorem go_daemon (h : Told d ids lost kills c)
    (hStays : c.spawn.parent.hasExited = true → t.parent.hasExited = true) :
    .daemon ∈ (c.go t).writers ↔ t.parent.hasExited = false := by
  rw [mem_go, h.daemon, present, Bool.not_eq_true', and_iff_right_iff_imp]
  intro hHere
  rw [Bool.eq_false_iff]
  intro hGone
  rw [hStays hGone] at hHere
  cases hHere

theorem go_init (hInit : .init ∈ (c.go t).writers) : t.Alive :=
  of_decide_eq_true (mem_go.mp hInit).2

end Told

theorem owedAfter_creating {before after : Parent} (h : creating after = true) :
    owedAfter d ids before after = [] := by
  cases after <;> first | rfl | cases h

theorem owedAfter_late {before after : Parent} (h : creating before = false)
    (hNot : after ≠ .openFifo) : owedAfter d ids before after = [] := by
  unfold owedAfter
  split
  · exact absurd rfl hNot
  · rw [h]
    rfl
  · rfl

theorem Moves.here {before after : Parent} (h : Moves before after) :
    before.hasExited = false := by
  cases h with
  | creates h _ | records h _ | fails h _ _ | panics h _ => exact creating_not_exited h
  | proceeds h _ _ _ _ => exact late_not_exited h
  | exits h _ => rw [h]; rfl

theorem Moves.created {before after : Parent} (h : Moves before after)
    (hCreated : creating before = false) : creating after = false := by
  cases h with
  | creates hNot _ | records hNot _ | fails hNot _ _ | panics hNot _ =>
    rw [hCreated] at hNot
    cases hNot
  | proceeds _ _ h' _ _ => exact h'
  | exits _ h' => exact h' ▸ rfl

theorem Ends.moves {failure : Failure} {before after : Parent} (h : Ends kills failure before)
    (hMoves : Moves before after) :
    before = .ending (some failure) ∧ after = .exited (some failure) := by
  have hBefore : before = .ending (some failure) := by
    have hHere := hMoves.here
    rcases h with hEnding | rfl | ⟨_, hGone⟩
    · exact hEnding
    · cases hHere
    · rw [hHere] at hGone
      cases hGone
  subst hBefore
  cases hMoves with
  | creates h _ | records h _ | fails h _ _ | panics h _ | proceeds h _ _ _ _ => cases h
  | exits h h' =>
    cases h
    exact ⟨rfl, h'⟩

def Creation.moved (c : Creation) (d : Displays) (ids : Ids) (t : Spawn) : Creation :=
  { c.go t with
    owed := owedAfter d ids c.spawn.parent t.parent
    recorded := c.recorded || t.parent = .openFifo }

theorem Story.moved (h : Story d ids lost kills c) (hOwed : c.owed = [])
    (hMoves : Moves c.spawn.parent t.parent) : Story d ids lost kills (c.moved d ids t) := by
  cases h with
  | quiet hRecorded _ hUnread hParent =>
    rcases hParent with hCreating | hEnds
    · cases hMoves with
      | creates _ h' =>
        refine .quiet ?_ (owedAfter_creating h') hUnread (.inl h')
        have hNot : t.parent ≠ .openFifo := by
          intro hFifo
          rw [hFifo] at h'
          cases h'
        simp [Creation.moved, hRecorded, hNot]
      | records _ h' =>
        refine .succeeded 0 ?_ ?_ ?_ hUnread fun _ => .inl ?_
        · simp [Creation.moved, h']
        · exact h' ▸ rfl
        · simp [Creation.moved, h', owedAfter]
        · simp [Creation.moved, h', owedAfter]
      | fails _ hWorded h' =>
        refine .failed hWorded ?_ (.inl h') (.inl ⟨?_, hUnread⟩)
        · simp [Creation.moved, hRecorded, h']
        · simp [Creation.moved, h', owedAfter, hCreating]
      | panics _ h' =>
        refine .quiet ?_ ?_ hUnread (.inr (.inl h'))
        · simp [Creation.moved, hRecorded, h']
        · simp [Creation.moved, h', owedAfter]
      | proceeds _ hCreated _ _ _ =>
        rw [hCreated] at hCreating
        cases hCreating
      | exits hEnding _ =>
        rw [hEnding] at hCreating
        cases hCreating
    · obtain ⟨_, hAfter⟩ := hEnds.moves hMoves
      refine .quiet ?_ ?_ hUnread (.inr (.inr (.inl hAfter)))
      · simp [Creation.moved, hRecorded, hAfter]
      · simp [Creation.moved, hAfter, owedAfter]
  | failed hWorded hRecorded hParent hLine =>
    obtain ⟨_, hAfter⟩ := hParent.moves hMoves
    refine .failed hWorded ?_ (.inr (.inl hAfter)) (.inr ⟨?_, ?_⟩)
    · simp [Creation.moved, hRecorded, hAfter]
    · simp [Creation.moved, hAfter, owedAfter]
    · rcases hLine with ⟨hLine, _⟩ | ⟨_, hSaid | ⟨hNothing, hMiss⟩⟩
      · rw [hOwed] at hLine
        cases hLine
      · exact .inl hSaid
      · refine .inr ⟨hNothing, hMiss.mono rfl fun _ => ?_⟩
        rw [Creation.moved, Creation.go, hAfter]
        rfl
  | succeeded n hRecorded hParent _ hUnread hSaid =>
    have hLater : creating t.parent = false ∧ t.parent ≠ .openFifo := by
      cases hMoves with
      | creates h _ | records h _ | fails h _ _ | panics h _ =>
        rw [hParent] at h
        cases h
      | proceeds _ _ h' hNot _ => exact ⟨h', hNot⟩
      | exits _ h' => exact h' ▸ ⟨rfl, by rintro ⟨⟩⟩
    have hOwed' : (c.moved d ids t).owed = [] := owedAfter_late hParent hLater.2
    refine .succeeded n ?_ hLater.1 ?_ hUnread fun hZero => .inr ?_
    · simp [Creation.moved, hRecorded]
    · rw [hOwed']
      exact fun _ hLine => absurd hLine List.not_mem_nil
    · rcases hSaid hZero with hLines | hMiss
      · exact absurd hOwed hLines
      · refine hMiss.mono rfl fun hGone => ?_
        rw [hMoves.here] at hGone
        cases hGone

namespace Told

theorem moved (h : Told d ids lost kills c) (hOwed : c.owed = [])
    (hMoves : Moves c.spawn.parent t.parent) : Told d ids lost kills (c.moved d ids t) where
  story := h.story.moved hOwed hMoves
  owing hLines := by
    rw [Bool.eq_false_iff]
    intro hGone
    refine hLines ?_
    change t.parent.hasExited = true at hGone
    change owedAfter d ids c.spawn.parent t.parent = []
    cases hParent : t.parent with
    | exited failure => rfl
    | _ => rw [hParent] at hGone; cases hGone
  daemon := h.go_daemon fun hGone => by
    rw [hMoves.here] at hGone
    cases hGone
  init := go_init
  finished hDone := hMoves.created (h.finished hDone)
  reaping hReaping := by
    have hGone := (h.reaping hReaping).1
    rw [hMoves.here] at hGone
    cases hGone
  ok pid hDone := by
    obtain ⟨hPid, hRecorded⟩ := h.ok pid hDone
    exact ⟨hPid, by simp [Creation.moved, hRecorded]⟩
  error e hDone hLost hKills := by
    obtain ⟨hRecorded, failure, hParent, hText⟩ := h.error e hDone hLost hKills
    have hEnds : Ends kills failure c.spawn.parent := hParent.imp_right .inl
    obtain ⟨_, hAfter⟩ := hEnds.moves hMoves
    exact ⟨by simp [Creation.moved, hRecorded, hAfter], failure, .inr hAfter, hText⟩

theorem congr (h : Told d ids lost kills c) (hParent : c'.spawn.parent = c.spawn.parent)
    (hOwed : c'.owed = c.owed) (hUnread : c'.unread = c.unread)
    (hLauncher : c'.launcher = c.launcher) (hRecorded : c'.recorded = c.recorded)
    (hDaemon : .daemon ∈ c'.writers ↔ .daemon ∈ c.writers)
    (hInit : .init ∈ c'.writers → c'.spawn.Alive) : Told d ids lost kills c' where
  story := by
    have hMono (hMiss : MayMiss lost kills c) : MayMiss lost kills c' :=
      hMiss.mono hLauncher fun hGone => by rw [hParent, hGone]
    cases h.story with
    | quiet hNot hNone hNothing hWhere =>
      exact .quiet (hRecorded.trans hNot) (hOwed.trans hNone) (hUnread.trans hNothing)
        (by rwa [hParent])
    | failed hWorded hNot hWhere hLine =>
      refine .failed hWorded (hRecorded.trans hNot) (by rwa [hParent]) ?_
      rw [hOwed, hUnread]
      exact hLine.imp_right (And.imp_right (Or.imp_right (And.imp_right hMono)))
    | succeeded n hYes hWhere hLines hText hSaid =>
      refine .succeeded n (hRecorded.trans hYes) (by rwa [hParent]) (by rwa [hOwed])
        (by rwa [hUnread]) ?_
      rw [hOwed]
      exact fun hZero => (hSaid hZero).imp_right hMono
  owing := by
    rw [hOwed, hParent]
    exact h.owing
  daemon := by
    rw [hParent]
    exact hDaemon.trans h.daemon
  init := hInit
  finished := by
    rw [hLauncher, hParent]
    exact h.finished
  reaping := by
    rw [hLauncher, hParent, hRecorded]
    exact h.reaping
  ok := by
    rw [hLauncher, hRecorded]
    exact h.ok
  error e hDone hLost hKills := by
    rw [hLauncher] at hDone
    obtain ⟨hNot, failure, hWhere, hText⟩ := h.error e hDone hLost hKills
    exact ⟨hRecorded.trans hNot, failure, by rwa [hParent], hText⟩

theorem tells {line : String} {rest : List String} {result : Except Errno Unit}
    (h : Told d ids lost kills c) (hAllowed : Allowed lost kills c (.tells result))
    (hOwed : c.owed = line :: rest) : Told d ids lost kills { c with
      owed := rest
      unread := written c.unread line result } where
  story := by
    have hHere := h.owing (by rw [hOwed]; exact List.cons_ne_nil _ _)
    cases h.story with
    | quiet _ hNone _ _ =>
      rw [hOwed] at hNone
      cases hNone
    | failed hWorded hNot hWhere hLine =>
      rcases hLine with ⟨hLine, hNothing⟩ | ⟨hNone, _⟩
      · rw [hOwed, List.cons_eq_cons] at hLine
        obtain ⟨rfl, rfl⟩ := hLine
        refine .failed hWorded hNot hWhere (.inr ⟨rfl, ?_⟩)
        cases result with
        | ok u => exact .inl (by rw [hNothing, written, List.nil_append])
        | error e =>
          refine .inr ⟨hNothing, ?_⟩
          rcases hAllowed with hLost | hDone
          · exact .inl hLost
          · exact .inr (.inl hDone)
      · rw [hOwed] at hNone
        cases hNone
    | succeeded n hYes hWhere hLines hText hSaid =>
      rw [hOwed, List.forall_mem_cons] at hLines
      cases result with
      | ok u =>
        refine .succeeded (n + 1) hYes hWhere hLines.2 ?_ fun hZero => by cases hZero
        rw [written, hText, hLines.1, List.replicate_succ', List.flatten_append,
          List.flatten_singleton]
      | error e =>
        refine .succeeded n hYes hWhere hLines.2 hText fun _ => .inr ?_
        rcases hAllowed with hLost | hDone
        · exact .inl hLost
        · exact .inr (.inl hDone)
  owing _ := h.owing (by rw [hOwed]; exact List.cons_ne_nil _ _)
  daemon := h.daemon
  init := h.init
  finished := h.finished
  reaping := h.reaping
  ok := h.ok
  error := h.error

theorem killed (h : Told d ids lost kills c) (hKills : kills)
    (hHere : c.spawn.parent.hasExited = false) :
    Told d ids lost kills { c.go (c.spawn.parentExits none) with owed := [] } := by
  have hGone : (c.spawn.parentExits none).parent.hasExited = true := by
    rw [Spawn.parentExits]
    split
    · rfl
    · rfl
  have hMiss : MayMiss lost kills { c.go (c.spawn.parentExits none) with owed := [] } :=
    .inr (.inr ⟨hKills, hGone⟩)
  have hOver : creating (c.spawn.parentExits none).parent = false := by
    rw [Bool.eq_false_iff]
    intro hCreating
    rw [creating_not_exited hCreating] at hGone
    cases hGone
  refine ⟨?_, fun hOwed => absurd rfl hOwed, h.go_daemon fun _ => hGone, go_init, fun _ => hOver,
    fun hReaping => ?_, h.ok, fun _ _ _ hNot => absurd hKills hNot⟩
  · cases h.story with
    | quiet hNot _ hNothing _ =>
      exact .quiet hNot rfl hNothing (.inr (.inr (.inr ⟨hKills, hGone⟩)))
    | failed hWorded hNot _ hLine =>
      refine .failed hWorded hNot (.inr (.inr ⟨hKills, hGone⟩)) (.inr ⟨rfl, ?_⟩)
      rcases hLine with ⟨_, hNothing⟩ | ⟨_, hSaid | ⟨hNothing, _⟩⟩
      · exact .inr ⟨hNothing, hMiss⟩
      · exact .inl hSaid
      · exact .inr ⟨hNothing, hMiss⟩
    | succeeded n hYes _ _ hText _ =>
      exact .succeeded n hYes hOver (fun _ hLine => absurd hLine List.not_mem_nil) hText
        fun _ => .inr hMiss
  · have hBefore := (h.reaping hReaping).1
    rw [hHere] at hBefore
    cases hBefore

end Told

theorem Ends.settled {failure : Failure} {parent : Parent} (h : Ends kills failure parent)
    (hKills : ¬ kills) : parent = .ending (some failure) ∨ parent = .exited (some failure) := by
  rcases h with hEnding | hExited | ⟨hKilled, _⟩
  · exact .inl hEnding
  · exact .inr hExited
  · exact absurd hKilled hKills

theorem Ends.past {failure : Failure} {parent : Parent} (h : Ends kills failure parent) :
    creating parent = false := by
  rcases h with rfl | rfl | ⟨_, hGone⟩
  · rfl
  · rfl
  · rw [Bool.eq_false_iff]
    intro hCreating
    rw [creating_not_exited hCreating] at hGone
    cases hGone

theorem report_error (hWorded : Worded e) :
    report (errorLine d e).toList ≠ [] ∧ parseI32 (report (errorLine d e).toList) = none := by
  obtain ⟨letter, hFirst, hLetter⟩ := display_word (d := d) hWorded
  obtain ⟨rest, hLine⟩ := List.head?_eq_some_iff.mp (head_append (b := "\n") hFirst)
  rw [show errorLine d e = display d e ++ "\n" from rfl, hLine]
  exact report_word hLetter rest

theorem report_nil : report [] = [] := rfl

/-- What the launcher reads is nothing, the line of an error, or the pid. -/
theorem Story.read (h : Story d ids lost kills c)
    (hPid : -2 ^ 31 ≤ ids.child ∧ ids.child ≤ 2 ^ 31 - 1) :
    c.unread = [] ∨
      (∃ e, Worded e ∧ c.recorded = false ∧ Ends kills (.error e) c.spawn.parent ∧
        c.unread = (errorLine d e).toList) ∨
      c.recorded = true ∧ parseI32 (report c.unread) = some ids.child := by
  cases h with
  | quiet _ _ hUnread _ => exact .inl hUnread
  | failed hWorded hRecorded hParent hLine =>
    rcases hLine with ⟨_, hNothing⟩ | ⟨_, hSaid | ⟨hNothing, _⟩⟩
    · exact .inl hNothing
    · exact .inr (.inl ⟨_, hWorded, hRecorded, hParent, hSaid⟩)
    · exact .inl hNothing
  | succeeded n hRecorded _ _ hUnread _ =>
    cases n with
    | zero => exact .inl hUnread
    | succ n =>
      refine .inr (.inr ⟨hRecorded, ?_⟩)
      rw [hUnread, List.replicate_succ, List.flatten_cons]
      exact report_pid hPid _

theorem Story.stopsReading (h : Story d ids lost kills c) {launcher : Launcher}
    (hStops : launcher.reads = false) :
    Story d ids lost kills { c with launcher := launcher } := by
  cases h with
  | quiet hRecorded hOwed hUnread hParent => exact .quiet hRecorded hOwed hUnread hParent
  | failed hWorded hRecorded hParent hLine =>
    refine .failed hWorded hRecorded hParent ?_
    exact hLine.imp_right (And.imp_right (Or.imp_right (And.imp_right fun _ => .inr (.inl hStops))))
  | succeeded n hRecorded hParent hOwed hUnread hSaid =>
    exact .succeeded n hRecorded hParent hOwed hUnread fun _ => .inr (.inr (.inl hStops))

namespace Told

/-- Nothing has come and nobody is left to write: the daemon is gone without a word. -/
theorem silent (h : Told d ids lost kills c) (hReads : c.launcher = .reading)
    (hNothing : c.unread = []) (hGone : c.spawn.parent.hasExited = true) (hLost : ¬ lost)
    (hKills : ¬ kills) : c.recorded = false ∧ c.spawn.parent = .exited (some .panic) := by
  have hHeard : ¬ MayMiss lost kills c := by
    rintro (hYes | hDone | ⟨hYes, _⟩)
    · exact hLost hYes
    · rw [hReads] at hDone
      cases hDone
    · exact hKills hYes
  have hPaid : c.owed = [] := by
    by_contra hOwed
    rw [h.owing hOwed] at hGone
    cases hGone
  cases h.story with
  | quiet hRecorded _ _ hParent =>
    refine ⟨hRecorded, ?_⟩
    rcases hParent with hCreating | hEnds
    · rw [creating_not_exited hCreating] at hGone
      cases hGone
    · rcases hEnds.settled hKills with hEnding | hExited
      · rw [hEnding] at hGone
        cases hGone
      · exact hExited
  | failed hWorded _ _ hLine =>
    rcases hLine with ⟨hOwed, _⟩ | ⟨_, hSaid | ⟨_, hMiss⟩⟩
    · rw [hPaid] at hOwed
      cases hOwed
    · have hReport := (report_error (d := d) hWorded).1
      rw [← hSaid, hNothing] at hReport
      exact absurd report_nil hReport
    · exact absurd hMiss hHeard
  | succeeded n _ _ _ hUnread hSaid =>
    cases n with
    | zero =>
      rcases hSaid rfl with hOwed | hMiss
      · exact absurd hPaid hOwed
      · exact absurd hMiss hHeard
    | succ n =>
      rw [hNothing, List.replicate_succ, List.flatten_cons] at hUnread
      have hEmpty := (List.append_eq_nil_iff.mp hUnread.symm).1
      rw [pidLine, String.toList_append] at hEmpty
      cases (List.append_eq_nil_iff.mp hEmpty).2

theorem past (h : Told d ids lost kills c) (hReady : '\n' ∈ c.unread ∨ c.writers = ∅) :
    creating c.spawn.parent = false := by
  rcases hReady with hLine | hClosed
  · cases h.story with
    | quiet _ _ hUnread _ =>
      rw [hUnread] at hLine
      exact absurd hLine List.not_mem_nil
    | failed _ _ hParent _ => exact hParent.past
    | succeeded _ _ hParent _ _ _ => exact hParent
  · rw [Bool.eq_false_iff]
    intro hCreating
    have hDaemon := h.daemon.mpr (creating_not_exited hCreating)
    rw [hClosed] at hDaemon
    exact absurd hDaemon (Finset.notMem_empty _)

theorem launcherStep (h : Told d ids lost kills c)
    (hPid : -2 ^ 31 ≤ ids.child ∧ ids.child ≤ 2 ^ 31 - 1) (hStep : c.launcherStep = some c') :
    Told d ids lost kills c' := by
  have answered {launcher : Launcher} (hStops : launcher.reads = false)
      (hOver : creating c.spawn.parent = false)
      (hReaping : launcher = .reaping → c.spawn.parent.hasExited = true ∧
        (¬ lost → ¬ kills → c.recorded = false ∧ c.spawn.parent = .exited (some .panic)))
      (hOk : ∀ pid, launcher = .done (.ok pid) → pid = ids.child ∧ c.recorded = true)
      (hError : ∀ e, launcher = .done (.error e) → ¬ lost → ¬ kills →
        c.recorded = false ∧ Reports d c e) :
      Told d ids lost kills { c with launcher := launcher } :=
    ⟨h.story.stopsReading hStops, h.owing, h.daemon, h.init, fun _ => hOver, hReaping, hOk, hError⟩
  unfold Creation.launcherStep at hStep
  cases hLauncher : c.launcher with
  | reading =>
    simp only [hLauncher] at hStep
    split at hStep
    · rename_i hReady
      cases hStep
      have hOver := h.past hReady
      split
      · rename_i hBlank
        have hNothing : c.unread = [] := by
          rcases h.story.read hPid with hNothing | ⟨_, hWorded, _, _, hSaid⟩ | ⟨_, hParse⟩
          · exact hNothing
          · rw [hSaid] at hBlank
            exact absurd hBlank (report_error hWorded).1
          · rw [hBlank] at hParse
            cases hParse
        have hGone : c.spawn.parent.hasExited = true := by
          rcases hReady with hLine | hClosed
          · rw [hNothing] at hLine
            exact absurd hLine List.not_mem_nil
          · by_contra hHere
            have hDaemon := h.daemon.mpr (Bool.eq_false_iff.mpr hHere)
            rw [hClosed] at hDaemon
            exact absurd hDaemon (Finset.notMem_empty _)
        exact answered rfl hOver (fun _ => ⟨hGone, h.silent hLauncher hNothing hGone⟩)
          (by rintro _ ⟨⟩) (by rintro _ ⟨⟩)
      · rename_i hSpoken
        split
        · rename_i pid hParse
          refine answered rfl hOver (by rintro ⟨⟩) ?_ (by rintro _ ⟨⟩)
          rintro _ ⟨⟩
          rcases h.story.read hPid with hNothing | ⟨_, hWorded, _, _, hSaid⟩ | ⟨hRecorded, hChild⟩
          · rw [hNothing] at hSpoken
            exact absurd report_nil hSpoken
          · rw [hSaid, (report_error hWorded).2] at hParse
            cases hParse
          · rw [hChild] at hParse
            exact ⟨(Option.some.inj hParse).symm, hRecorded⟩
        · rename_i hParse
          refine answered rfl hOver (by rintro ⟨⟩) (by rintro _ ⟨⟩) ?_
          rintro _ ⟨⟩ _ hKills
          rcases h.story.read hPid with
            hNothing | ⟨cause, _, hRecorded, hEnds, hSaid⟩ | ⟨_, hChild⟩
          · rw [hNothing] at hSpoken
            exact absurd report_nil hSpoken
          · exact ⟨hRecorded, .error cause, hEnds.settled hKills, by rw [hSaid]⟩
          · rw [hChild] at hParse
            cases hParse
    · cases hStep
  | reaping =>
    simp only [hLauncher] at hStep
    split at hStep
    · cases hStep
      refine answered rfl (h.finished (by rw [hLauncher]; rfl)) (by rintro ⟨⟩) (by rintro _ ⟨⟩) ?_
      rintro _ ⟨⟩ hLost hKills
      obtain ⟨hRecorded, hParent⟩ := (h.reaping hLauncher).2 hLost hKills
      exact ⟨hRecorded, .panic, .inr hParent, rfl⟩
    · cases hStep
  | done result =>
    simp only [hLauncher] at hStep
    cases hStep

theorem step {l : Label} (h : Told d ids lost kills c)
    (hPid : -2 ^ 31 ≤ ids.child ∧ ids.child ≤ 2 ^ 31 - 1) (hAllowed : Allowed lost kills c l)
    (hStep : c.step d ids config l = some c') : Told d ids lost kills c' := by
  cases l with
  | spawn l =>
    have others (hOther : ∀ result, l ≠ .parent result)
        (hStep : (c.spawn.step d.toTexts ids config .create l).map c.go = some c') :
        Told d ids lost kills c' := by
      obtain ⟨t, hSpawn, rfl⟩ := Option.map_eq_some_iff.mp hStep
      obtain ⟨hParent, _, _, _⟩ := Spawn.step_frame hOther hSpawn
      have hDaemon := h.go_daemon (t := t) fun hGone => by rw [hParent, hGone]
      refine h.congr hParent rfl rfl rfl rfl ?_ go_init
      rw [hDaemon, hParent, h.daemon]
    cases l with
    | parent result =>
      simp only [Creation.step] at hStep
      split at hStep
      · rename_i hOwed
        obtain ⟨t, hParent, rfl⟩ := Option.map_eq_some_iff.mp hStep
        exact h.moved hOwed (moves hParent)
      · cases hStep
    | child result => exact others (by rintro _ ⟨⟩) hStep
    | exits code => exact others (by rintro _ ⟨⟩) hStep
    | signal sig => exact others (by rintro _ ⟨⟩) hStep
  | tells result =>
    simp only [Creation.step] at hStep
    split at hStep
    · cases hStep
    · rename_i line rest hOwed
      cases hStep
      exact h.tells hAllowed hOwed
  | killed =>
    simp only [Creation.step] at hStep
    split at hStep
    · cases hStep
    · rename_i hHere
      cases hStep
      exact h.killed hAllowed (Bool.eq_false_iff.mpr hHere)
  | execs =>
    simp only [Creation.step] at hStep
    split at hStep
    · cases hStep
      refine h.congr rfl rfl rfl rfl rfl ?_ fun hInit => absurd hInit (Finset.notMem_erase _ _)
      exact Finset.mem_erase.trans (and_iff_right (by rintro ⟨⟩))
    · cases hStep
  | launcher => exact h.launcherStep hPid hStep

theorem reach (hPid : -2 ^ 31 ≤ ids.child ∧ ids.child ≤ 2 ^ 31 - 1)
    (h : (system d ids config).Reach (Allowed lost kills) c) : Told d ids lost kills c :=
  h.invariant (fun _ hInit => hInit ▸ cloned) fun _ _ _ _ hs hOk hStep => hs.step hPid hOk hStep

end Told

/-! ## When create hangs -/

namespace Creation

def Waits (c : Creation) : Prop := (∀ result, c.launcher ≠ .done result) ∧ c.launcherStep = none

/-- No call of the init can return, and it is not running the container's program either. -/
def InitWaits (c : Creation) : Prop :=
  c.spawn.childStep (.ok ()) = none ∧ ¬ (c.spawn.child = .proceeds ∧ c.spawn.stop = none)

/-- The launcher waits, and so do the init and the daemon, if they are there. -/
def Stuck (ids : Ids) (c : Creation) : Prop :=
  c.Waits ∧ c.InitWaits ∧
    (c.spawn.parent.hasExited = false → c.owed = [] ∧ c.spawn.ParentWaits ids)

/-- The daemon is gone without a word; the init has its copy of the pipe, and is stopped or waits
for the byte that the daemon did not write. -/
structure Orphaned (c : Creation) : Prop where
  launcher : c.launcher = .reading
  gone : c.spawn.parent.hasExited = true
  unread : c.unread = []
  holds : .init ∈ c.writers
  held : c.spawn.stop ≠ none ∨ c.spawn.child = .readMapsDone ∧ c.spawn.mapsDone.unread = []

end Creation

/-- What a step of the creation is to the daemon and the init. -/
inductive SpawnTurn (d : Displays) (ids : Ids) (config : OciConfig) (s : Spawn) : Spawn → Prop
  | same : SpawnTurn d ids config s s
  | steps {t : Spawn} {l : Spawning.Label} (hStep : s.step d.toTexts ids config .create l = some t)
      (hHere : t.parent.hasExited = false → s.parent.hasExited = false) : SpawnTurn d ids config s t
  | killed : SpawnTurn d ids config s (s.parentExits none)

theorem step_turn {l : Label} (hStep : c.step d ids config l = some c') :
    SpawnTurn d ids config c.spawn c'.spawn := by
  cases l with
  | spawn l =>
    have others (hOther : ∀ result, l ≠ .parent result)
        (hStep : (c.spawn.step d.toTexts ids config .create l).map c.go = some c') :
        SpawnTurn d ids config c.spawn c'.spawn := by
      obtain ⟨t, hSpawn, rfl⟩ := Option.map_eq_some_iff.mp hStep
      obtain ⟨hParent, _, _, _⟩ := Spawn.step_frame hOther hSpawn
      exact .steps hSpawn fun hHere => hParent ▸ hHere
    cases l with
    | parent result =>
      simp only [Creation.step] at hStep
      split at hStep
      · obtain ⟨t, hParent, rfl⟩ := Option.map_eq_some_iff.mp hStep
        exact .steps (l := .parent result) hParent fun _ => (moves hParent).here
      · cases hStep
    | child result => exact others (by rintro _ ⟨⟩) hStep
    | exits code => exact others (by rintro _ ⟨⟩) hStep
    | signal sig => exact others (by rintro _ ⟨⟩) hStep
  | tells result =>
    simp only [Creation.step] at hStep
    split at hStep
    · cases hStep
    · cases hStep
      exact .same
  | killed =>
    simp only [Creation.step] at hStep
    split at hStep
    · cases hStep
    · cases hStep
      exact .killed
  | execs =>
    simp only [Creation.step] at hStep
    split at hStep
    · cases hStep
      exact .same
    · cases hStep
  | launcher =>
    simp only [Creation.step, Creation.launcherStep] at hStep
    split at hStep
    · split at hStep
      · cases hStep
        exact .same
      · cases hStep
    · split at hStep
      · cases hStep
        exact .same
      · cases hStep
    · cases hStep

/-- As long as the daemon is there, the setup is one of those of the handshake. -/
theorem spawn_reach {ok : Creation → Label → Prop} (h : (system d ids config).Reach ok c) :
    c.spawn.parent.hasExited = false →
      (Spawning.system d.toTexts ids config .create).Reach System.free c.spawn := by
  refine h.invariant (I := fun c => c.spawn.parent.hasExited = false →
    (Spawning.system d.toTexts ids config .create).Reach System.free c.spawn) ?_ ?_
  · rintro _ rfl _
    exact .init rfl
  · intro c l c' _ hReach _ hStep hHere
    have hTurn := step_turn hStep
    generalize c'.spawn = t at hTurn hHere ⊢
    cases hTurn with
    | same => exact hReach hHere
    | steps hSpawn hBefore => exact (hReach (hBefore hHere)).step _ trivial hSpawn
    | killed =>
      rw [Spawn.parentExits] at hHere
      split at hHere
      · cases hHere
      · cases hHere

/-- Also after the daemon has been killed, the two have met as in the handshake. -/
theorem spawn_met {ok : Creation → Label → Prop} (h : (system d ids config).Reach ok c) :
    Met c.spawn ∧ Shaken ids config c.spawn := by
  refine h.invariant (I := fun c => Met c.spawn ∧ Shaken ids config c.spawn) ?_ ?_
  · rintro _ rfl
    exact ⟨.cloned, .cloned⟩
  · rintro c l c' _ ⟨hMet, hShaken⟩ _ hStep
    have hTurn := step_turn hStep
    generalize c'.spawn = t at hTurn ⊢
    cases hTurn with
    | same => exact ⟨hMet, hShaken⟩
    | steps hSpawn _ => exact ⟨hMet.step hSpawn, hShaken.step hSpawn⟩
    | killed => exact ⟨hMet.parentExits none, hShaken.parentExits none⟩

theorem initWaits_iff (hMet : Met c.spawn) (hShaken : Shaken ids config c.spawn)
    (hAlive : c.spawn.Alive) :
    c.InitWaits ↔
      c.spawn.stop ≠ none ∨ c.spawn.child = .readMapsDone ∧ c.spawn.mapsDone.unread = [] := by
  cases hStop : c.spawn.stop with
  | some sig => simp [Creation.InitWaits, Spawn.childStep, hStop]
  | none =>
    have hWrites := Finset.ne_empty_of_mem (hShaken.holds hAlive)
    have hReads := Finset.ne_empty_of_mem (hMet.reads hAlive)
    simp only [Creation.InitWaits, Spawn.childStep, hStop, Option.isSome_none, Bool.false_eq_true,
      if_false, ne_eq, not_true_eq_false, false_or, and_true]
    cases hChild : c.spawn.child with
    | dead death => exact absurd hChild (hAlive death)
    | writeReady => simp [Pipes.Pipe.write, hReads]
    | readMapsDone => simp [Spawn.read_eq_none_iff, hWrites]
    | setup | raise | proceeds => simp

namespace Told

/-- While the daemon creates, the launcher reads and has nothing to read. -/
theorem creates (h : Told d ids lost kills c) (hCreating : creating c.spawn.parent = true) :
    c.launcher = .reading ∧ c.owed = [] ∧ c.unread = [] ∧ c.writers ≠ ∅ := by
  have hReads : c.launcher = .reading := by
    cases hLauncher : c.launcher with
    | reading => rfl
    | reaping | done result =>
      have hOver := h.finished (by rw [hLauncher]; rfl)
      rw [hCreating] at hOver
      cases hOver
  refine ⟨hReads, ?_⟩
  have hWriters := Finset.ne_empty_of_mem (h.daemon.mpr (creating_not_exited hCreating))
  cases h.story with
  | quiet _ hOwed hUnread _ => exact ⟨hOwed, hUnread, hWriters⟩
  | failed _ _ hParent _ =>
    rw [hParent.past] at hCreating
    cases hCreating
  | succeeded _ _ hParent _ _ _ =>
    rw [hParent] at hCreating
    cases hCreating

theorem unread_of_gone (h : Told d ids lost kills c) (hGone : c.spawn.parent.hasExited = true)
    (hLine : '\n' ∉ c.unread) : c.unread = [] := by
  have hPaid : c.owed = [] := by
    by_contra hOwed
    rw [h.owing hOwed] at hGone
    cases hGone
  have ended {line : String} {rest : List Char} (hText : c.unread = (line ++ "\n").toList ++ rest) :
      '\n' ∈ c.unread := by
    rw [hText, String.toList_append]
    exact List.mem_append_left _ (List.mem_append_right _ (List.mem_singleton_self '\n'))
  cases h.story with
  | quiet _ _ hUnread _ => exact hUnread
  | failed _ _ _ hSaid =>
    rcases hSaid with ⟨hOwed, _⟩ | ⟨_, hText | ⟨hNothing, _⟩⟩
    · rw [hPaid] at hOwed
      cases hOwed
    · exact absurd (ended (hText.trans (List.append_nil _).symm)) hLine
    · exact hNothing
  | succeeded n _ _ _ hUnread _ =>
    cases n with
    | zero => exact hUnread
    | succ n =>
      rw [List.replicate_succ, List.flatten_cons] at hUnread
      exact absurd (ended hUnread) hLine

theorem init_holds (h : Told d ids lost kills c) (hGone : c.spawn.parent.hasExited = true)
    (hOpen : c.writers ≠ ∅) : .init ∈ c.writers := by
  obtain ⟨holder, hHolder⟩ := Finset.nonempty_iff_ne_empty.mpr hOpen
  cases holder with
  | daemon =>
    rw [h.daemon, hGone] at hHolder
    cases hHolder
  | init => exact hHolder

theorem stuck_iff {ok : Creation → Label → Prop} (h : Told d ids lost kills c)
    (hReach : (system d ids config).Reach ok c) :
    c.Stuck ids ↔ c.Orphaned ∨ c.spawn.Unanswered ∨ c.spawn.Halted := by
  obtain ⟨hMet, hShaken⟩ := spawn_met hReach
  constructor
  · rintro ⟨⟨hOpen, hStep⟩, hInit, hDaemon⟩
    cases hGone : c.spawn.parent.hasExited with
    | false =>
      obtain ⟨_, hWaits⟩ := hDaemon hGone
      exact .inr ((Spawn.waits_iff (spawn_reach hReach hGone)).mp ⟨hWaits, hInit.1⟩)
    | true =>
      left
      unfold Creation.launcherStep at hStep
      cases hLauncher : c.launcher with
      | done result => exact absurd hLauncher (hOpen result)
      | reaping =>
        simp only [hLauncher, hGone, if_true] at hStep
        cases hStep
      | reading =>
        simp only [hLauncher] at hStep
        split at hStep
        · cases hStep
        · rename_i hReady
          rw [not_or] at hReady
          have hHolds := h.init_holds hGone hReady.2
          exact ⟨hLauncher, hGone, h.unread_of_gone hGone hReady.1, hHolds,
            (initWaits_iff hMet hShaken (h.init hHolds)).mp hInit⟩
  · rintro (hOrphaned | hSetup)
    · refine ⟨⟨fun result hDone => ?_, ?_⟩,
        (initWaits_iff hMet hShaken (h.init hOrphaned.holds)).mpr hOrphaned.held, fun hHere => ?_⟩
      · rw [hOrphaned.launcher] at hDone
        cases hDone
      · simp [Creation.launcherStep, hOrphaned.launcher, hOrphaned.unread,
          Finset.ne_empty_of_mem hOrphaned.holds]
      · rw [hOrphaned.gone] at hHere
        cases hHere
    · have hCreating : creating c.spawn.parent = true ∧ c.spawn.child ≠ .proceeds := by
        rcases hSetup with hUnanswered | hHalted
        · rw [hUnanswered.parent, hUnanswered.child]
          exact ⟨rfl, nofun⟩
        · rw [hHalted.parent, hHalted.child]
          exact ⟨rfl, nofun⟩
      obtain ⟨hReads, hOwed, hUnread, hWriters⟩ := h.creates hCreating.1
      have hHere := creating_not_exited hCreating.1
      obtain ⟨hWaits, hChild⟩ := (Spawn.waits_iff (spawn_reach hReach hHere)).mpr hSetup
      refine ⟨⟨fun result hDone => ?_, ?_⟩, ⟨hChild, fun hRuns => hCreating.2 hRuns.1⟩,
        fun _ => ⟨hOwed, hWaits⟩⟩
      · rw [hReads] at hDone
        cases hDone
      · simp [Creation.launcherStep, hReads, hUnread, hWriters]

end Told

theorem allowed (c : Creation) (l : Label) : Allowed True True c l := by
  cases l with
  | tells result =>
    cases result with
    | ok u => trivial
    | error e => exact .inl trivial
  | killed | spawn l | execs | launcher => trivial

/-- A pid that `create` returns is that of the init, and its record is written. As long as no line
gets lost that is waited for, and the daemon is not killed, an error says what the daemon failed
with, and there is no record. `create` waits for good where the setup does, and where the daemon is
gone without a word, which is then a panic, and the init waits with its copy of the pipe. -/
theorem create_answers (d : Displays) (ids : Ids) (config : OciConfig) (c : Creation)
    (hPid : -2 ^ 31 ≤ ids.child ∧ ids.child ≤ 2 ^ 31 - 1) :
    ((system d ids config).Reach System.free c →
      (∀ pid, c.launcher = .done (.ok pid) → pid = ids.child ∧ c.recorded = true) ∧
        (c.Stuck ids ↔ c.Orphaned ∨ c.spawn.Unanswered ∨ c.spawn.Halted)) ∧
    ((system d ids config).Reach (Allowed False False) c →
      (∀ e, c.launcher = .done (.error e) → c.recorded = false ∧ Reports d c e) ∧
        (c.Orphaned → c.recorded = false ∧ c.spawn.parent = .exited (some .panic))) := by
  constructor
  · intro hReach
    have hTold : Told d ids True True c := .reach hPid (hReach.mono fun c l _ => allowed c l)
    exact ⟨hTold.ok, hTold.stuck_iff hReach⟩
  · intro hReach
    have hTold : Told d ids False False c := .reach hPid hReach
    refine ⟨fun e hDone => hTold.error e hDone id id, fun hOrphaned => ?_⟩
    exact hTold.silent hOrphaned.launcher hOrphaned.unread hOrphaned.gone id id

/-- The init gets as far as its stop; then `state.json` cannot be written, and the daemon says so. -/
def refused : List Label := Spawn.unrecorded.map .spawn ++ [.tells (.ok ()), .launcher]

def plainDisplays : Displays where
  strerror _ := "No space left on device (os error 28)"
  debug _ := ""
  errno _ := ""
  syntaxError := ""

theorem create_answers_refused : ∃ c e, c.launcher = .done (.error e) ∧ c.recorded = false ∧
    Reports plainDisplays c e := by
  have hRun : ((system plainDisplays Spawn.plainIds Spawn.plainConfig).exec
      (Allowed False False) .cloned refused).map (fun c => c.launcher) =
        some (Launcher.done (.error (.config
          "supervisor error: state io error: No space left on device (os error 28)"))) := by
    decide +kernel
  obtain ⟨c, hExec, hDone⟩ := Option.map_eq_some_iff.mp hRun
  obtain ⟨_, hKept⟩ :=
    create_answers plainDisplays Spawn.plainIds Spawn.plainConfig c (by decide)
  exact ⟨c, _, hDone, (hKept (System.reach_of_exec rfl hExec)).1 _ hDone⟩

end Dtrun.Creating
