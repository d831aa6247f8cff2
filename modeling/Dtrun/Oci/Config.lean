import Mathlib.Algebra.Order.Ring.Int
import Mathlib.Data.List.Nodup

/-! # The container's configuration

The parts of `config.json` that the runtime acts on, and `OciConfig::validate`. A hash map is the
list of its entries in the order in which it is walked.
-/
namespace Dtrun.Oci
set_option autoImplicit false

structure Mount where
  destination : String
  fstype : Option String := none
  source : Option String := none
  options : Option (List String) := none
  deriving DecidableEq

structure RootFs where
  path : String
  readonly : Option Bool := none

structure Process where
  args : Option (List String) := none
  env : Option (List String) := none
  cwd : Option String := none
  oomScoreAdj : Option Int := none

structure LinuxIdMapping where
  containerId : UInt32
  hostId : UInt32
  size : UInt32
  deriving DecidableEq

/-- `serde_json::Value`; a number is kept as an integer where it is one of 64 bits. -/
inductive Value where
  | null
  | bool (b : Bool)
  | posInt (n : UInt64)
  | negInt (n : Int64)
  | float
  | string (s : String)
  | array (values : List Value)
  | object (members : List (String × Value))

structure LinuxResources where
  /-- what is kept as raw JSON -/
  extra : List (String × Value) := []

structure LinuxConfig where
  resources : Option LinuxResources := none
  /-- the paths of `linux.devices` -/
  devices : Option (List String) := none
  maskedPaths : Option (List String) := none
  readonlyPaths : Option (List String) := none
  sysctl : Option (List (String × String)) := none
  uidMappings : Option (List LinuxIdMapping) := none
  gidMappings : Option (List LinuxIdMapping) := none

structure OciConfig where
  ociVersion : String
  root : RootFs
  process : Option Process := none
  hostname : Option String := none
  mounts : Option (List Mount) := none
  linux : Option LinuxConfig := none

inductive ConfigError where
  | validate (message : String)
  deriving DecidableEq

def startsWithSlash (s : String) : Bool := s.toList.head? = some '/'

/-- `str::parse::<u64>` -/
def parseU64 (s : List Char) : Option Nat :=
  let digits := if s.head? = some '+' then s.tail else s
  let value := digits.foldl (fun n c => 10 * n + (c.toNat - 48)) 0
  if digits ≠ [] ∧ digits.all Char.isDigit ∧ value < 2 ^ 64 then some value else none

def parseSemver (s : String) : Option (Nat × Nat × Nat) :=
  let core := s.toList.takeWhile fun c => c ≠ '-' ∧ c ≠ '+'
  match core.splitOn '.' with
  | [major, minor, patch] => do
    let major ← parseU64 major
    let minor ← parseU64 minor
    let patch ← parseU64 patch
    some (major, minor, patch)
  | _ => none

def compatibleVersion (major minor _patch : Nat) : Bool := major = 1 ∨ (major = 0 ∧ minor = 5)

namespace OciConfig

variable (config : OciConfig)

def validateVersion : Except ConfigError Unit :=
  if config.ociVersion = "" then .error (.validate "ociVersion must not be empty") else
  match parseSemver config.ociVersion with
  | none => .error (.validate (
      s!"ociVersion '{config.ociVersion}' is not valid semver " ++
        "(expected MAJOR.MINOR.PATCH[-pre][+build])"))
  | some (major, minor, patch) =>
    if compatibleVersion major minor patch then .ok () else
      .error (.validate s!"ociVersion '{config.ociVersion}' is not supported by dtrun")

def validateRoot : Except ConfigError Unit :=
  if config.root.path = "" then .error (.validate "root.path must not be empty") else .ok ()

def validateEnv : List String → Except ConfigError Unit
  | [] => .ok ()
  | kv :: rest =>
    if '=' ∈ kv.toList then validateEnv rest else
      .error (.validate s!"process.env entry '{kv}' must be KEY=VALUE")

def validateProcess : Except ConfigError Unit :=
  match config.process with
  | none => .ok ()
  | some process => do
    if let some args := process.args then
      if args = [] then throw (.validate "process.args must not be empty")
      if "" ∈ args then throw (.validate "process.args entries must not be empty")
    if let some cwd := process.cwd then
      unless startsWithSlash cwd do
        throw (.validate s!"process.cwd '{cwd}' must be an absolute path")
    validateEnv (process.env.getD [])

def validateHostname : Except ConfigError Unit :=
  match config.hostname with
  | none => .ok ()
  | some hostname => do
    if hostname = "" ∨ 64 < hostname.utf8ByteSize then
      throw (.validate s!"hostname '{hostname}' must be 1..=64 characters")
    unless hostname.toList.all fun c => c.isAlphanum || c = '-' || c = '.' do
      throw (.validate s!"hostname '{hostname}' contains invalid characters")

/-- The loop of `validate_mounts`, with the destinations seen. -/
def validateMountsLoop (seen : List String) : List Mount → Except ConfigError Unit
  | [] => .ok ()
  | m :: rest =>
    if m.destination = "" then .error (.validate "mount.destination must not be empty")
    else if !startsWithSlash m.destination then
      .error (.validate s!"mount.destination '{m.destination}' must be an absolute path")
    else if m.destination ∈ seen then
      .error (.validate s!"duplicate mount.destination '{m.destination}'")
    else validateMountsLoop (m.destination :: seen) rest

def validateMounts : Except ConfigError Unit := validateMountsLoop [] (config.mounts.getD [])

def validate : Except ConfigError Unit := do
  config.validateVersion
  config.validateRoot
  config.validateProcess
  config.validateHostname
  config.validateMounts

theorem validateMountsLoop_ok_iff {seen : List String} {ms : List Mount} :
    validateMountsLoop seen ms = .ok () ↔
      (∀ m ∈ ms, startsWithSlash m.destination = true ∧ m.destination ∉ seen) ∧
        (ms.map Mount.destination).Nodup := by
  induction ms generalizing seen with
  | nil => simp [validateMountsLoop]
  | cons m ms ih =>
    rw [validateMountsLoop]
    by_cases hEmpty : m.destination = ""
    · have hSlash : startsWithSlash "" = false := by decide
      simp [hEmpty, hSlash]
    · by_cases hSlash : startsWithSlash m.destination = true
      · by_cases hSeen : m.destination ∈ seen
        · simp [hEmpty, hSlash, hSeen]
        · simp only [hEmpty, hSlash, hSeen, Bool.not_true, Bool.false_eq_true, if_false, ih,
            List.mem_cons, not_or, List.map_cons, List.nodup_cons, List.mem_map]
          grind
      · simp [hEmpty, hSlash]

theorem validateMounts_ok_iff :
    config.validateMounts = .ok () ↔
      (∀ m ∈ config.mounts.getD [], startsWithSlash m.destination = true) ∧
        ((config.mounts.getD []).map Mount.destination).Nodup := by
  rw [validateMounts, validateMountsLoop_ok_iff]
  simp

end OciConfig

end Dtrun.Oci
