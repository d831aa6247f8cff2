import Dtrun.Library.MountTable
import Dtrun.Oci.Config

/-! # The mounts of a container

The `mount(2)` calls that the entries of `mounts` come to, and what such a call does to the mount
table. Paths are looked up in a file tree that the model does not hold; where one leads at
the time of a call is a parameter.
-/
namespace Dtrun.Mounts
set_option autoImplicit false
open MountTable Oci

structure MsFlags where
  MS_NOSUID : Bool := false
  MS_NOEXEC : Bool := false
  MS_NODEV : Bool := false
  MS_RDONLY : Bool := false
  MS_BIND : Bool := false
  MS_REC : Bool := false
  MS_REMOUNT : Bool := false
  MS_PRIVATE : Bool := false
  MS_SHARED : Bool := false
  MS_SLAVE : Bool := false
  MS_UNBINDABLE : Bool := false
  deriving DecidableEq

/-- The loop body of `parse_mount_flags`. -/
def MsFlags.option (flags : MsFlags) (opt : String) : MsFlags :=
  match opt with
  | "nosuid" => { flags with MS_NOSUID := true }
  | "noexec" => { flags with MS_NOEXEC := true }
  | "nodev" => { flags with MS_NODEV := true }
  | "ro" => { flags with MS_RDONLY := true }
  | "rbind" => { flags with MS_BIND := true, MS_REC := true }
  | "bind" => { flags with MS_BIND := true }
  | "remount" => { flags with MS_REMOUNT := true }
  | "suid" => { flags with MS_NOSUID := false }
  | "exec" => { flags with MS_NOEXEC := false }
  | "dev" => { flags with MS_NODEV := false }
  | "private" => { flags with MS_PRIVATE := true }
  | "rprivate" => { flags with MS_REC := true, MS_PRIVATE := true }
  | "shared" => { flags with MS_SHARED := true }
  | "rshared" => { flags with MS_REC := true, MS_SHARED := true }
  | "slave" => { flags with MS_SLAVE := true }
  | "rslave" => { flags with MS_REC := true, MS_SLAVE := true }
  | "unbindable" => { flags with MS_UNBINDABLE := true }
  | "runbindable" => { flags with MS_REC := true, MS_UNBINDABLE := true }
  | _ => flags

def parseMountFlags (m : Mount) : MsFlags := (m.options.getD []).foldl MsFlags.option {}

/-- The options that `parse_mount_data` leaves out. -/
def NOT_DATA : List String :=
  ["nosuid", "noexec", "nodev", "ro", "rw", "rbind", "bind", "remount", "suid", "exec", "dev",
    "nosymfollow", "private", "rprivate", "shared", "rshared", "slave", "rslave", "unbindable",
    "runbindable", "relatime", "norelatime", "strictatime", "nostrictatime", "lazytime",
    "nolazytime"]

def parseMountData (m : Mount) : Option String := do
  let opts ← m.options
  let data := opts.filter (· ∉ NOT_DATA)
  if data = [] then none else some (",".intercalate data)

structure MountCall where
  source : Option String
  target : String
  fstype : Option String := none
  flags : MsFlags := {}
  data : Option String := none
  deriving DecidableEq

/-- The flags of `apply_mount`. -/
def applyMountFlags (m : Mount) : MsFlags :=
  let flags := parseMountFlags m
  if m.fstype = some "proc" ∧ ¬ flags.MS_RDONLY ∧ "rw" ∉ m.options.getD [] then
    { flags with MS_RDONLY := true }
  else flags

/-- The `mount(2)` call of `apply_mount`. -/
def applyMountCall (m : Mount) : MountCall :=
  ⟨some (m.source.getD ""), m.destination, m.fstype, applyMountFlags m, parseMountData m⟩

def bindMountCall (source dest : String) : MountCall :=
  { source := some source, target := dest, flags := { MS_BIND := true, MS_REC := true } }

def maskCall (path : String) : MountCall :=
  { source := some "tmpfs", target := path, fstype := some "tmpfs"
    flags := { MS_NOSUID := true, MS_NOEXEC := true, MS_NODEV := true } }

def readonlyCall (path : String) : MountCall :=
  { source := none, target := path
    flags := { MS_BIND := true, MS_REMOUNT := true, MS_RDONLY := true } }

/-- A change of propagation takes one kind of it and no other flag but `MS_REC`. -/
def MsFlags.Propagates (f : MsFlags) : Prop :=
  [f.MS_PRIVATE, f.MS_SHARED, f.MS_SLAVE, f.MS_UNBINDABLE].count true = 1 ∧
    [f.MS_NOSUID, f.MS_NOEXEC, f.MS_NODEV, f.MS_RDONLY].count true = 0

instance (f : MsFlags) : Decidable f.Propagates := inferInstanceAs (Decidable (_ ∧ _))

section Kernel

variable {α : Type}

/-- What `mount(2)` does to the mounts that paths from the root can lead into, or `none` where the
flags are refused. The label stands for the flags of the call; `super` is the number of a new file
system, `peers` are the places to which a new mount is propagated, and what is bound from outside
has the label `foreign`. -/
def MountCall.change (place : String → Option (List String)) (peers : List (List String))
    (foreign : α) (super : Nat) (call : MountCall) (a : α) : Option (Change String α) :=
  match place call.target with
  | none => some .keep
  | some d =>
    let f := call.flags
    if f.MS_REMOUNT then some (if f.MS_BIND then .relabel d a else .reconfigure d a)
    else if f.MS_BIND then
      match call.source.bind place with
      | none => some (.attach super (d :: peers) foreign)
      | some z => some (.bind (d :: peers) z f.MS_REC)
    else if f.MS_PRIVATE ∨ f.MS_SHARED ∨ f.MS_SLAVE ∨ f.MS_UNBINDABLE then
      if f.Propagates then some .keep else none
    else some (.attach super (d :: peers) a)

end Kernel

variable {m : Mount} {flags : MsFlags} {opt : String}

theorem rdonly_option : (flags.option opt).MS_RDONLY = (flags.MS_RDONLY || opt = "ro") := by
  by_cases hRo : opt = "ro"
  · subst hRo
    simp [MsFlags.option]
  · rw [decide_eq_false hRo, Bool.or_false]
    unfold MsFlags.option
    split
    case h_4 => exact absurd rfl hRo
    all_goals rfl

theorem rdonly_options (opts : List String) (flags : MsFlags) :
    (opts.foldl MsFlags.option flags).MS_RDONLY = true ↔
      flags.MS_RDONLY = true ∨ "ro" ∈ opts := by
  induction opts generalizing flags with
  | nil => simp
  | cons opt opts ih =>
    rw [List.foldl_cons, ih, rdonly_option]
    simp only [Bool.or_eq_true, decide_eq_true_eq, List.mem_cons, or_assoc, @eq_comm _ "ro" opt]

/-- A later `rw` takes nothing back. -/
theorem parseMountFlags_rdonly :
    (parseMountFlags m).MS_RDONLY = true ↔ "ro" ∈ m.options.getD [] := by
  rw [parseMountFlags, rdonly_options]
  simp

/-- An entry that says neither `ro` nor `rw`, of a file system that is then mounted read-only. -/
def SilentProc (m : Mount) : Prop :=
  m.fstype = some "proc" ∧ "ro" ∉ m.options.getD [] ∧ "rw" ∉ m.options.getD []

instance (m : Mount) : Decidable (SilentProc m) := inferInstanceAs (Decidable (_ ∧ _ ∧ _))

theorem applyMountFlags_rdonly :
    (applyMountFlags m).MS_RDONLY = true ↔ "ro" ∈ m.options.getD [] ∨ SilentProc m := by
  have hParsed := @parseMountFlags_rdonly m
  rw [applyMountFlags, SilentProc]
  split
  · rename_i h
    rw [hParsed] at h
    simp [h]
  · rename_i h
    rw [hParsed] at h ⊢
    tauto

end Dtrun.Mounts
