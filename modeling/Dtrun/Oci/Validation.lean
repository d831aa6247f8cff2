import Dtrun.Library.Utf8
import Dtrun.Oci.Versions

/-! # What a validated configuration is

`validate` runs its checks one after the other and stops at the first that fails. The configurations
that pass all of them, field by field and against grammars, and what the runtime may rely on then.
-/
namespace Dtrun.Oci
set_option autoImplicit false
open Grammars RegularExpression
open Numerals (alpha_bounds digit_bounds value)

/-- `[0-9A-Za-z.-]+` -/
def HOSTNAME : RegularExpression Char := many1 (oneOf ('.' :: '-' :: DIGITS ++ LETTERS))

/-- A version of the 1.x line or of the 0.5 draft, and any suffix. -/
def Supported (version : List Char) : Prop :=
  ∃ major minor patch suffix, Dotted version major minor patch suffix ∧
    (∀ number ∈ [major, minor, patch], value number < 2 ^ 64) ∧
    (value major = 1 ∨ value major = 0 ∧ value minor = 5)

structure Process.WellFormed (process : Process) : Prop where
  args : ∀ args ∈ process.args, args ≠ [] ∧ "" ∉ args
  cwd : ∀ cwd ∈ process.cwd, startsWithSlash cwd = true
  env : ∀ kv ∈ process.env.getD [], '=' ∈ kv.toList

structure OciConfig.WellFormed (config : OciConfig) : Prop where
  version : Supported config.ociVersion.toList
  root : config.root.path ≠ ""
  process : ∀ process ∈ config.process, process.WellFormed
  hostname : ∀ hostname ∈ config.hostname,
    hostname.toList ∈ HOSTNAME.matches' ∧ hostname.length ≤ 64
  mounts : (∀ m ∈ config.mounts.getD [], startsWithSlash m.destination = true) ∧
    ((config.mounts.getD []).map Mount.destination).Nodup

/-- `Host::entrypoint` -/
def OciConfig.entrypoint (config : OciConfig) : Option (String × List String) := do
  let process ← config.process
  match ← process.args with
  | [] => none
  | command :: rest => some (command, rest)

variable {config : OciConfig}

theorem bind_ok_iff {x : Except ConfigError Unit} {f : Unit → Except ConfigError Unit} :
    (x >>= f) = .ok () ↔ x = .ok () ∧ f () = .ok () := by
  cases x with
  | ok u => exact ⟨fun h => ⟨rfl, h⟩, And.right⟩
  | error e => exact ⟨fun h => (by cases h), fun h => (by cases h.1)⟩

theorem validateVersion_supported :
    config.validateVersion = .ok () ↔ Supported config.ociVersion.toList := by
  rw [validateVersion_ok_iff]
  simp only [parseSemver_eq_some]
  constructor
  · rintro ⟨_, _, _, ⟨major, minor, patch, suffix, hDotted, hFits, rfl, rfl, rfl⟩, hLine⟩
    exact ⟨major, minor, patch, suffix, hDotted, hFits, hLine⟩
  · rintro ⟨major, minor, patch, suffix, hDotted, hFits, hLine⟩
    exact ⟨_, _, _, ⟨major, minor, patch, suffix, hDotted, hFits, rfl, rfl, rfl⟩, hLine⟩

theorem validateRoot_ok_iff : config.validateRoot = .ok () ↔ config.root.path ≠ "" := by
  rw [OciConfig.validateRoot]
  split
  · rename_i hEmpty
    simp [hEmpty]
  · rename_i hPath
    simp [hPath]

theorem validateEnv_ok_iff {env : List String} :
    OciConfig.validateEnv env = .ok () ↔ ∀ kv ∈ env, '=' ∈ kv.toList := by
  induction env with
  | nil => simp [OciConfig.validateEnv]
  | cons kv rest ih =>
    rw [OciConfig.validateEnv, List.forall_mem_cons]
    split
    · rename_i hSign
      rw [ih, and_iff_right hSign]
    · rename_i hSign
      simp [hSign]

theorem guard_ok_iff {P : Prop} [Decidable P] {e : ConfigError} {x : Except ConfigError Unit} :
    (if P then .error e else x) = .ok () ↔ ¬ P ∧ x = .ok () := by
  split
  · rename_i hP
    exact iff_of_false (by rintro ⟨⟩) fun h => h.1 hP
  · rename_i hP
    rw [and_iff_right hP]

theorem Process.wellFormed_iff {process : Process} : process.WellFormed ↔
    (∀ args ∈ process.args, args ≠ [] ∧ "" ∉ args) ∧
      (∀ cwd ∈ process.cwd, startsWithSlash cwd = true) ∧
      OciConfig.validateEnv (process.env.getD []) = .ok () := by
  rw [validateEnv_ok_iff]
  exact ⟨fun h => ⟨h.args, h.cwd, h.env⟩, fun h => ⟨h.1, h.2.1, h.2.2⟩⟩

theorem validateProcess_ok_iff :
    config.validateProcess = .ok () ↔ ∀ process ∈ config.process, process.WellFormed := by
  rw [OciConfig.validateProcess]
  cases config.process with
  | none => simp
  | some process =>
    obtain ⟨args, env, cwd, adj⟩ := process
    simp only [Option.mem_some_iff, forall_eq', Process.wellFormed_iff]
    have hCwd (x : Except ConfigError Unit) (cwd : String) (e : ConfigError) :
        (if startsWithSlash cwd = true then x else .error e) = .ok () ↔
          startsWithSlash cwd = true ∧ x = .ok () := by
      rw [← ite_not, guard_ok_iff, not_not]
    cases args with
    | none =>
      cases cwd with
      | none =>
        change OciConfig.validateEnv (env.getD []) = .ok () ↔ _
        simp
      | some cwd =>
        change (if startsWithSlash cwd = true then OciConfig.validateEnv (env.getD [])
          else .error _) = .ok () ↔ _
        rw [hCwd]
        simp
    | some args =>
      cases cwd with
      | none =>
        change (if args = [] then .error _ else if "" ∈ args then .error _ else
          OciConfig.validateEnv (env.getD [])) = .ok () ↔ _
        rw [guard_ok_iff, guard_ok_iff]
        simp [and_assoc]
      | some cwd =>
        change (if args = [] then .error _ else if "" ∈ args then .error _ else
          if startsWithSlash cwd = true then OciConfig.validateEnv (env.getD [])
            else .error _) = .ok () ↔ _
        rw [guard_ok_iff, guard_ok_iff, hCwd]
        simp [and_assoc]

theorem isAlphanum_ascii {c : Char} (h : c.isAlphanum = true) : c.toNat < 128 := by
  rcases Bool.or_eq_true_iff.mp h with hAlpha | hDigit
  · exact Nat.lt_of_le_of_lt (alpha_bounds hAlpha).2 (by decide)
  · exact Nat.lt_of_le_of_lt (digit_bounds hDigit).2 (by decide)

theorem hostname_ascii {c : Char} (h : (c.isAlphanum || c = '-' || c = '.') = true) :
    c.toNat < 128 := by
  simp only [Bool.or_eq_true, decide_eq_true_eq] at h
  rcases h with (h | rfl) | rfl
  · exact isAlphanum_ascii h
  · decide
  · decide

theorem mem_hostname {text : List Char} : text ∈ HOSTNAME.matches' ↔
    text ≠ [] ∧ ∀ c ∈ text, (c.isAlphanum || c = '-' || c = '.') = true := by
  have hClass (c : Char) : c ∈ '.' :: '-' :: DIGITS ++ LETTERS ↔
      (c.isAlphanum || c = '-' || c = '.') = true := by
    constructor
    · have hAll : ('.' :: '-' :: DIGITS ++ LETTERS).all
          (fun c => c.isAlphanum || c = '-' || c = '.') = true := by decide
      exact List.all_eq_true.mp hAll c
    · intro h
      have hAll : ∀ n < 128, ((Char.ofNat n).isAlphanum || Char.ofNat n = '-' ||
          Char.ofNat n = '.') = true → Char.ofNat n ∈ '.' :: '-' :: DIGITS ++ LETTERS := by decide
      exact forall_ascii (P := fun c => (c.isAlphanum || c = '-' || c = '.') = true →
        c ∈ '.' :: '-' :: DIGITS ++ LETTERS) hAll (hostname_ascii h) h
  rw [HOSTNAME, mem_many1_oneOf]
  simp only [hClass]

/-- Bytes and characters are the same here. -/
theorem size_of_hostname {hostname : String}
    (h : ∀ c ∈ hostname.toList, (c.isAlphanum || c = '-' || c = '.') = true) :
    hostname.utf8ByteSize = hostname.length := by
  rw [Utf8.utf8ByteSize_eq, Utf8.length_encode_ascii fun c hc => hostname_ascii (h c hc),
    String.length_toList]

theorem validateHostname_ok_iff : config.validateHostname = .ok () ↔
    ∀ hostname ∈ config.hostname,
      hostname.toList ∈ HOSTNAME.matches' ∧ hostname.length ≤ 64 := by
  rw [OciConfig.validateHostname]
  cases config.hostname with
  | none => simp
  | some hostname =>
    simp only [Option.mem_some_iff, forall_eq', mem_hostname]
    change (if hostname = "" ∨ 64 < hostname.utf8ByteSize then Except.error _ else
      if hostname.toList.all (fun c => c.isAlphanum || c = '-' || c = '.') then Except.ok ()
        else Except.error _ : Except ConfigError Unit) = .ok () ↔ _
    rw [guard_ok_iff, ← ite_not, guard_ok_iff, not_not, List.all_eq_true, not_or, Nat.not_lt,
      ← String.toList_eq_nil_iff, and_iff_left rfl]
    constructor
    · rintro ⟨⟨hNonempty, hSize⟩, hAll⟩
      rw [size_of_hostname hAll] at hSize
      exact ⟨⟨hNonempty, hAll⟩, hSize⟩
    · rintro ⟨⟨hNonempty, hAll⟩, hLength⟩
      refine ⟨⟨hNonempty, ?_⟩, hAll⟩
      rw [size_of_hostname hAll]
      exact hLength

/-- Exactly the well-formed configurations pass. -/
theorem validate_ok_iff (config : OciConfig) : config.validate = .ok () ↔ config.WellFormed := by
  rw [OciConfig.validate]
  simp only [bind_ok_iff, validateVersion_supported, validateRoot_ok_iff, validateProcess_ok_iff,
    validateHostname_ok_iff, OciConfig.validateMounts_ok_iff]
  exact ⟨fun ⟨hVersion, hRoot, hProcess, hHostname, hMounts⟩ =>
    ⟨hVersion, hRoot, hProcess, hHostname, hMounts⟩, fun h =>
    ⟨h.version, h.root, h.process, h.hostname, h.mounts⟩⟩

/-- What `dtrun spec` writes, as far as it is looked at. -/
def defaultConfig : OciConfig where
  ociVersion := "1.0.2"
  root := { path := "rootfs" }
  process := some {
    args := some ["/bin/sh"]
    env := some ["PATH=/usr/local/sbin:/usr/local/bin:/usr/sbin:/usr/bin:/sbin:/bin"]
    cwd := some "/" }
  hostname := some "dtrun"
  mounts := some [
    { destination := "/proc", fstype := some "proc", source := some "proc",
      options := some ["nosuid", "noexec", "nodev"] },
    { destination := "/dev", fstype := some "tmpfs", source := some "tmpfs",
      options := some ["nosuid", "strictatime", "mode=755", "size=65536k"] },
    { destination := "/dev/pts", fstype := some "devpts", source := some "devpts",
      options := some ["nosuid", "noexec", "newinstance", "ptmxmode=0666", "mode=0620", "gid=5"] },
    { destination := "/sys", fstype := some "sysfs", source := some "sysfs",
      options := some ["nosuid", "noexec", "nodev", "ro"] },
    { destination := "/dev/mqueue", fstype := some "mqueue", source := some "mqueue",
      options := some ["nosuid", "noexec", "nodev"] },
    { destination := "/dev/shm", fstype := some "tmpfs", source := some "shm",
      options := some ["nosuid", "noexec", "nodev", "mode=1777", "size=65536k"] }]
  linux := some {}

example : defaultConfig.validate = .ok () := by decide +kernel

/-- What `Host::validate` looks for first is then a question of whether there are arguments. -/
theorem entrypoint_of_wellFormed (h : config.WellFormed) :
    config.entrypoint = none ↔ config.process.bind Process.args = none := by
  cases hProcess : config.process with
  | none => simp [OciConfig.entrypoint, hProcess]
  | some process =>
    cases hArgs : process.args with
    | none => simp [OciConfig.entrypoint, hProcess, hArgs]
    | some args =>
      obtain ⟨hNonempty, _⟩ := (h.process process hProcess).args args hArgs
      obtain ⟨command, rest, rfl⟩ := List.exists_cons_of_ne_nil hNonempty
      simp [OciConfig.entrypoint, hProcess, hArgs]

end Dtrun.Oci
