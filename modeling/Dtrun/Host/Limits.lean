import Dtrun.Host.Cgroup
import Dtrun.Library.Occurrences

/-! # The limits in force

`apply_limits` writes the limits that the config sets to the files of the container's cgroup and
moves the init process there. Directories are kept from run to run, and a write that the kernel
refuses leaves a limit as it was.
-/
namespace Dtrun.Cgroup
set_option autoImplicit false
open Oci Occurrences

abbrev Pid := Int

inductive Limit where
  | pidsMax | memoryMax | memorySwapMax | cpuMax | cpuWeight
  deriving DecidableEq

namespace Limit

def file : Limit → String
  | pidsMax => "pids.max"
  | memoryMax => "memory.max"
  | memorySwapMax => "memory.swap.max"
  | cpuMax => "cpu.max"
  | cpuWeight => "cpu.weight"

/-- What a new cgroup has. -/
def initial : Limit → String
  | pidsMax | memoryMax | memorySwapMax => "max"
  | cpuMax => "max 100000"
  | cpuWeight => "100"

end Limit

inductive CgroupError where
  | notV2

/-- The limits of every cgroup, and the cgroup of every process. A pid stands for one process and is
never given to another. -/
structure Cgroups where
  limit : Path → Limit → String
  cgroup : Pid → Path

def Cgroups.set (s : Cgroups) (dir : Path) (limit : Limit) (v : String) : Cgroups :=
  { s with limit := Function.update s.limit dir (Function.update (s.limit dir) limit v) }

/-- What `serde_json` finds in a value. -/
structure Accessors where
  get : Value → String → Option Value
  asU64 : Value → Option UInt64
  asI64 : Value → Option Int64

structure Host extends Accessors where
  /-- whether `cgroup.controllers` is there -/
  controllers : Bool
  createDirAll : Path → Bool
  /-- whether a file of the cgroup can be opened for writing -/
  opens : Path → String → Bool
  /-- what the kernel makes of a text, if it takes it -/
  parse : Limit → String → Option String
  /-- no quota is negative -/
  quota : ∀ period : UInt64, parse .cpuMax s!"{(-1 : Int64)} {period}" = none
  moves : Pid → Path → Bool

structure Run where
  pid : Pid
  id : String
  config : OciConfig

section Program

variable (host : Host)

def setupCgroup (id : String) : Option Path :=
  if host.createDirAll parentDir && host.createDirAll (cgroupDir id) then some (cgroupDir id)
  else none

/-- A limit that is refused is only logged. -/
def writeLimit (dir : Path) (limit : Limit) (value : Option String) (s : Cgroups) : Cgroups :=
  match value with
  | none => s
  | some value =>
    if host.opens dir limit.file then
      match host.parse limit value with
      | none => s
      | some v => s.set dir limit v
    else s

def block (res : LinuxResources) (key : String) : Value :=
  (res.extra.lookup key).getD .null

def applyLimits (run : Run) (s : Cgroups) : Except CgroupError Cgroups :=
  match run.config.linux.bind LinuxConfig.resources with
  | none => .ok s
  | some res =>
    if !host.controllers then .error .notV2 else
    match setupCgroup host run.id with
    | none => .ok s
    | some dir =>
      let cpu := block res "cpu"
      let mem := block res "memory"
      let pids := block res "pids"
      let s := writeLimit host dir .pidsMax (((host.get pids "limit").bind host.asU64).map toString) s
      let s := writeLimit host dir .memoryMax (((host.get mem "limit").bind host.asU64).map toString) s
      let s := writeLimit host dir .memorySwapMax
        (((host.get mem "swap").bind host.asU64).map toString) s
      let period := (host.get cpu "period").bind host.asU64
      let quota := (host.get cpu "quota").bind host.asI64
      let s := match period, quota with
        | some p, some q => writeLimit host dir .cpuMax (some s!"{q} {p}") s
        | _, _ => s
      let shares := (host.get cpu "shares").bind host.asU64
      let s := match shares with
        | some shares => writeLimit host dir .cpuWeight (some (toString (cpuWeight shares))) s
        | none => s
      .ok (if host.opens dir "cgroup.procs" && host.moves run.pid dir then
        { s with cgroup := Function.update s.cgroup run.pid dir } else s)

/-- A run that fails here changes nothing. -/
def after (s : Cgroups) (runs : List Run) : Cgroups :=
  runs.foldl (fun s run => match applyLimits host run s with | .ok s' => s' | .error _ => s) s

end Program

def limitText (host : Host) (res : LinuxResources) : Limit → Option String
  | .pidsMax => ((host.get (block res "pids") "limit").bind host.asU64).map toString
  | .memoryMax => ((host.get (block res "memory") "limit").bind host.asU64).map toString
  | .memorySwapMax => ((host.get (block res "memory") "swap").bind host.asU64).map toString
  | .cpuMax => do
    let p ← (host.get (block res "cpu") "period").bind host.asU64
    let q ← (host.get (block res "cpu") "quota").bind host.asI64
    some s!"{q} {p}"
  | .cpuWeight => ((host.get (block res "cpu") "shares").bind host.asU64).map fun shares =>
      toString (cpuWeight shares)

def written (host : Host) (dir : Path) (res : LinuxResources) (limit : Limit) : Option String :=
  if host.opens dir limit.file then (limitText host res limit).bind (host.parse limit) else none

variable {host : Host} {run : Run} {s : Cgroups} {dir d : Path} {res : LinuxResources}
  {limit l : Limit} {p : Pid}

@[simp] theorem writeLimit_cgroup (value : Option String) :
    (writeLimit host dir limit value s).cgroup = s.cgroup := by
  cases value with
  | none => rfl
  | some value =>
    simp only [writeLimit]
    split
    · split
      · rfl
      · rfl
    · rfl

theorem writeLimit_limit : (writeLimit host dir limit (limitText host res limit) s).limit d l =
    if d = dir ∧ l = limit then (written host dir res limit).getD (s.limit dir limit)
    else s.limit d l := by
  have hKept : (if d = dir ∧ l = limit then s.limit dir limit else s.limit d l) = s.limit d l := by
    split
    · rename_i h
      rw [h.1, h.2]
    · rfl
  rw [written]
  cases hText : limitText host res limit with
  | none => simp [writeLimit, hKept]
  | some text =>
    simp only [writeLimit, Option.bind_some]
    cases host.opens dir limit.file with
    | false => simp [hKept]
    | true =>
      cases hParse : host.parse limit text with
      | none => simp [hKept]
      | some v =>
        by_cases hDir : d = dir
        · subst hDir
          by_cases hLimit : l = limit
          · simp [Cgroups.set, hLimit]
          · simp [Cgroups.set, hLimit]
        · simp [Cgroups.set, hDir]

def writeLimits (host : Host) (dir : Path) (res : LinuxResources) (s : Cgroups) : Cgroups :=
  [Limit.pidsMax, .memoryMax, .memorySwapMax, .cpuMax, .cpuWeight].foldl
    (fun s limit => writeLimit host dir limit (limitText host res limit) s) s

theorem writeLimits_cgroup : (writeLimits host dir res s).cgroup = s.cgroup := by
  simp only [writeLimits, List.foldl_cons, List.foldl_nil, writeLimit_cgroup]

theorem writeLimits_limit : (writeLimits host dir res s).limit d l =
    if d = dir then (written host dir res l).getD (s.limit dir l) else s.limit d l := by
  simp only [writeLimits, List.foldl_cons, List.foldl_nil, writeLimit_limit]
  by_cases hDir : d = dir
  · cases l <;> simp [hDir]
  · simp [hDir]

def resources (run : Run) : Option LinuxResources := run.config.linux.bind LinuxConfig.resources

theorem applyLimits_eq : applyLimits host run s =
    match resources run with
    | none => .ok s
    | some res =>
      if !host.controllers then .error .notV2 else
      match setupCgroup host run.id with
      | none => .ok s
      | some dir =>
        let s' := writeLimits host dir res s
        .ok (if host.opens dir "cgroup.procs" && host.moves run.pid dir then
          { s' with cgroup := Function.update s'.cgroup run.pid dir } else s') := by
  rw [applyLimits, resources]
  cases run.config.linux.bind LinuxConfig.resources with
  | none => rfl
  | some res =>
    cases setupCgroup host run.id with
    | none => rfl
    | some dir =>
      simp only [writeLimits, List.foldl_cons, List.foldl_nil, limitText]
      cases (host.get (block res "cpu") "period").bind host.asU64 <;>
        cases (host.get (block res "cpu") "quota").bind host.asI64 <;>
        cases (host.get (block res "cpu") "shares").bind host.asU64 <;> rfl

/-- The cgroup that the process is in afterwards. -/
def seat (host : Host) (s : Cgroups) (run : Run) : Path :=
  match resources run, setupCgroup host run.id with
  | some _, some dir =>
    if host.opens dir "cgroup.procs" && host.moves run.pid dir then dir else s.cgroup run.pid
  | _, _ => s.cgroup run.pid

def setIn (host : Host) (run : Run) (d : Path) (l : Limit) : Option String :=
  match resources run, setupCgroup host run.id with
  | some res, some dir => if host.controllers ∧ d = dir then written host dir res l else none
  | _, _ => none

/-- The text for a limit that the config sets; a quota of -1 sets none. -/
def askedText (host : Host) (res : LinuxResources) (l : Limit) : Option String :=
  if l = .cpuMax ∧ (host.get (block res "cpu") "quota").bind host.asI64 = some (-1) then none
  else limitText host res l

/-- What the config alone makes of a limit. -/
def wanted (host : Host) (run : Run) (l : Limit) : String :=
  match resources run with
  | none => l.initial
  | some res => ((askedText host res l).bind (host.parse l)).getD l.initial

/-- Whenever the limits are applied, those in force are those of the config. -/
def Governed (host : Host) (s : Cgroups) (run : Run) : Prop :=
  ∀ s', applyLimits host run s = .ok s' →
    ∀ l, s'.limit (s'.cgroup run.pid) l = wanted host run l

/-- A limit that the run leaves alone is already what the config makes of it. -/
def Untainted (host : Host) (s : Cgroups) (run : Run) : Prop :=
  (resources run ≠ none → host.controllers = true) →
    ∀ l, setIn host run (seat host s run) l = none →
      s.limit (seat host s run) l = wanted host run l

theorem asked_parse (res : LinuxResources) (l : Limit) :
    (askedText host res l).bind (host.parse l) = (limitText host res l).bind (host.parse l) := by
  rw [askedText]
  split
  · rename_i h
    obtain ⟨rfl, hQuota⟩ := h
    rw [limitText, hQuota]
    cases (host.get (block res "cpu") "period").bind host.asU64 with
    | none => rfl
    | some p => exact (host.quota p).symm
  · rfl

theorem setIn_of (hRes : resources run = some res) (hSetup : setupCgroup host run.id = some dir) :
    setIn host run d l =
      if host.controllers ∧ d = dir then written host dir res l else none := by
  simp only [setIn, hRes, hSetup]

theorem seat_of (hRes : resources run = some res) (hSetup : setupCgroup host run.id = some dir) :
    seat host s run = if host.opens dir "cgroup.procs" && host.moves run.pid dir then dir
      else s.cgroup run.pid := by
  simp only [seat, hRes, hSetup]

theorem idle_setIn (h : resources run = none ∨ setupCgroup host run.id = none) :
    setIn host run d l = none := by
  rcases h with hRes | hSetup
  · simp [setIn, hRes]
  · cases hRes : resources run with
    | none => simp [setIn, hRes]
    | some res => simp [setIn, hRes, hSetup]

theorem idle_seat (h : resources run = none ∨ setupCgroup host run.id = none) :
    seat host s run = s.cgroup run.pid := by
  rcases h with hRes | hSetup
  · simp [seat, hRes]
  · cases hRes : resources run with
    | none => simp [seat, hRes]
    | some res => simp [seat, hRes, hSetup]

theorem setIn_wanted {v : String} (h : setIn host run d l = some v) : v = wanted host run l := by
  cases hRes : resources run with
  | none =>
    rw [idle_setIn (.inl hRes)] at h
    cases h
  | some res =>
    cases hSetup : setupCgroup host run.id with
    | none =>
      rw [idle_setIn (.inr hSetup)] at h
      cases h
    | some dir =>
      rw [setIn_of hRes hSetup, written] at h
      split at h
      · split at h
        · simp only [wanted, hRes, asked_parse, h, Option.getD_some]
        · cases h
      · cases h

/-- One run: where the process is, and what becomes of every limit. -/
theorem applyLimits_ok {s' : Cgroups} (h : applyLimits host run s = .ok s') :
    s'.cgroup = Function.update s.cgroup run.pid (seat host s run) ∧
      ∀ d l, s'.limit d l = (setIn host run d l).getD (s.limit d l) := by
  rw [applyLimits_eq] at h
  cases hRes : resources run with
  | none =>
    rw [hRes] at h
    cases h
    exact ⟨by rw [idle_seat (.inl hRes), Function.update_eq_self],
      fun d l => by rw [idle_setIn (.inl hRes), Option.getD_none]⟩
  | some res =>
    simp only [hRes] at h
    cases hControllers : host.controllers with
    | false => simp [hControllers] at h
    | true =>
      rw [hControllers, if_neg (by simp)] at h
      cases hSetup : setupCgroup host run.id with
      | none =>
        rw [hSetup] at h
        cases h
        exact ⟨by rw [idle_seat (.inr hSetup), Function.update_eq_self],
          fun d l => by rw [idle_setIn (.inr hSetup), Option.getD_none]⟩
      | some dir =>
        rw [hSetup] at h
        cases h
        simp only [seat_of hRes hSetup, setIn_of hRes hSetup, hControllers, true_and]
        constructor
        · split
          · rw [writeLimits_cgroup]
          · rw [writeLimits_cgroup, Function.update_eq_self]
        · intro d l
          have hLimit : (writeLimits host dir res s).limit d l =
              (if d = dir then written host dir res l else none).getD (s.limit d l) := by
            rw [writeLimits_limit]
            split
            · rename_i hDir
              rw [hDir]
            · rfl
          split
          · exact hLimit
          · exact hLimit

theorem applyLimits_isOk : (∃ s', applyLimits host run s = .ok s') ↔
    (resources run ≠ none → host.controllers = true) := by
  rw [applyLimits_eq]
  cases resources run with
  | none => simp
  | some res =>
    cases host.controllers with
    | false => simp
    | true =>
      cases setupCgroup host run.id with
      | none => simp
      | some dir => simp

theorem governed_iff : Governed host s run ↔ Untainted host s run := by
  constructor
  · intro h hAvailable l hNone
    obtain ⟨s', hRun⟩ := applyLimits_isOk.mpr hAvailable
    obtain ⟨hSeat, hLimit⟩ := applyLimits_ok hRun
    rw [← h s' hRun l, hSeat, Function.update_self, hLimit, hNone, Option.getD_none]
  · intro h s' hRun l
    obtain ⟨hSeat, hLimit⟩ := applyLimits_ok hRun
    rw [hSeat, Function.update_self, hLimit]
    cases hSet : setIn host run (seat host s run) l with
    | none => exact h (applyLimits_isOk.mp ⟨s', hRun⟩) l hSet
    | some v => exact setIn_wanted hSet

def movedTo (host : Host) (run : Run) (p : Pid) : Option Path :=
  match resources run, setupCgroup host run.id with
  | some _, some dir =>
    if p = run.pid ∧ host.controllers ∧ host.opens dir "cgroup.procs" ∧ host.moves run.pid dir then
      some dir
    else none
  | _, _ => none

def lastSeat (host : Host) (s : Cgroups) (runs : List Run) (p : Pid) : Path :=
  (runs.reverse.findSome? fun run => movedTo host run p).getD (s.cgroup p)

def lastSet (host : Host) (s : Cgroups) (runs : List Run) (d : Path) (l : Limit) : String :=
  (runs.reverse.findSome? fun run => setIn host run d l).getD (s.limit d l)

/-- A limit that the run leaves alone was last set to what the config makes of it, by an earlier run
in the same cgroup, or has had that value from the start. -/
def Unspoiled (host : Host) (s : Cgroups) (earlier : List Run) (run : Run) : Prop :=
  (resources run ≠ none → host.controllers = true) →
    ∀ l, setIn host run (lastSeat host s (earlier ++ [run]) run.pid) l = none →
      lastSet host s earlier (lastSeat host s (earlier ++ [run]) run.pid) l = wanted host run l

theorem controllers_of_error {e : CgroupError} (h : applyLimits host run s = .error e) :
    host.controllers = false := by
  cases hControllers : host.controllers with
  | false => rfl
  | true =>
    obtain ⟨s', hOk⟩ := (@applyLimits_isOk host run s).mpr fun _ => hControllers
    rw [hOk] at h
    cases h

theorem setIn_of_controllers (h : host.controllers = false) : setIn host run d l = none := by
  rw [setIn]
  split
  · simp [h]
  · rfl

theorem movedTo_of_controllers (h : host.controllers = false) : movedTo host run p = none := by
  rw [movedTo]
  split
  · simp [h]
  · rfl

theorem movedTo_ne (h : p ≠ run.pid) : movedTo host run p = none := by
  rw [movedTo]
  split
  · simp [h]
  · rfl

theorem seat_eq (h : resources run ≠ none → host.controllers = true) :
    seat host s run = (movedTo host run run.pid).getD (s.cgroup run.pid) := by
  rw [seat, movedTo]
  cases hRes : resources run with
  | none => rfl
  | some res =>
    cases setupCgroup host run.id with
    | none => rfl
    | some dir =>
      have hControllers : host.controllers = true := h (by simp [hRes])
      by_cases hMoves : host.opens dir "cgroup.procs" = true ∧ host.moves run.pid dir = true
      · simp only [Bool.and_eq_true, hControllers, hMoves, and_self, if_true, Option.getD_some]
      · simp only [Bool.and_eq_true, hControllers, hMoves, and_false, if_false, Option.getD_none]

/-- What a cgroup holds is what the last run that set it there has left. -/
theorem after_limit (runs : List Run) (s : Cgroups) :
    (after host s runs).limit d l = lastSet host s runs d l := by
  refine foldl_overwrites (fun s => s.limit d l) (fun s run => ?_) runs s
  cases hRun : applyLimits host run s with
  | error e => rw [setIn_of_controllers (controllers_of_error hRun), Option.getD_none]
  | ok s' => exact (applyLimits_ok hRun).2 d l

theorem after_cgroup (runs : List Run) (s : Cgroups) :
    (after host s runs).cgroup p = lastSeat host s runs p := by
  refine foldl_overwrites (fun s => s.cgroup p) (fun s run => ?_) runs s
  cases hRun : applyLimits host run s with
  | error e => rw [movedTo_of_controllers (controllers_of_error hRun), Option.getD_none]
  | ok s' =>
    simp only [(applyLimits_ok hRun).1]
    rcases eq_or_ne p run.pid with rfl | hne
    · rw [Function.update_self, seat_eq (applyLimits_isOk.mp ⟨s', hRun⟩)]
    · rw [Function.update_of_ne hne, movedTo_ne hne, Option.getD_none]

theorem seat_after {earlier : List Run} (h : resources run ≠ none → host.controllers = true) :
    seat host (after host s earlier) run = lastSeat host s (earlier ++ [run]) run.pid := by
  rw [seat_eq h, after_cgroup, lastSeat, lastSeat, List.reverse_concat, List.findSome?_cons]
  cases movedTo host run run.pid with
  | none => rfl
  | some dir => rfl

theorem untainted_after {earlier : List Run} :
    Untainted host (after host s earlier) run ↔ Unspoiled host s earlier run := by
  refine forall_congr' fun hAvailable => ?_
  rw [seat_after hAvailable]
  simp only [after_limit]

/-- In a sequence of runs every one has the limits of its config exactly when none leaves a limit
alone that the runs before it have left at another value. -/
theorem limits_of_config_iff (host : Host) (s : Cgroups) (runs : List Run) :
    (∀ earlier run later, runs = earlier ++ run :: later →
      Governed host (after host s earlier) run) ↔
    ∀ earlier run later, runs = earlier ++ run :: later → Unspoiled host s earlier run := by
  constructor
  · intro h earlier run later hRuns
    exact untainted_after.mp (governed_iff.mp (h earlier run later hRuns))
  · intro h earlier run later hRuns
    exact governed_iff.mpr (untainted_after.mpr (h earlier run later hRuns))

/-- The members of an object, and integers that fit. -/
def plainAccessors : Accessors where
  get
    | .object members, key => members.lookup key
    | _, _ => none
  asU64
    | .posInt n => some n
    | _ => none
  asI64
    | .posInt n => if n.toNat < 2 ^ 63 then some n.toInt64 else none
    | .negInt n => some n
    | _ => none

/-- A kernel that takes every text but a negative quota, and lets everything be written. -/
def newHost : Host where
  toAccessors := plainAccessors
  controllers := true
  createDirAll _ := true
  opens _ _ := true
  parse l text := if l = .cpuMax ∧ text.toList.head? = some '-' then none else some text
  quota period := by
    have hMinus : toString (-1 : Int64) = "-1" := by decide
    have hText : (s!"{(-1 : Int64)} {period}").toList.head? = some '-' := by
      rw [hMinus]
      simp [String.toList_append]
    rw [if_pos ⟨rfl, hText⟩]
  moves _ _ := true

def newCgroups : Cgroups where
  limit _ := Limit.initial
  cgroup _ := CGROUP_ROOT

def webRun (pid : Pid) (blocks : List (String × Value)) : Run where
  pid := pid
  id := "web"
  config :=
    { ociVersion := "1.0.2", root := { path := "rootfs" }, linux := some
        { resources := some { extra := blocks } } }

/-- The second container has the ten processes of the first, though its config sets no limit. -/
theorem not_limits_of_config : ¬ ∀ (host : Host) (s : Cgroups) (runs : List Run),
    (∀ d, s.limit d = Limit.initial) → ∀ earlier run later, runs = earlier ++ run :: later →
      Governed host (after host s earlier) run := by
  intro h
  have hGoverned := h newHost newCgroups
    [webRun 100 [("pids", .object [("limit", .posInt 10)])], webRun 200 []] (fun d => rfl)
    [webRun 100 [("pids", .object [("limit", .posInt 10)])]] (webRun 200 []) [] rfl
  have hLimit := hGoverned _ rfl .pidsMax
  revert hLimit
  decide

end Dtrun.Cgroup
