import Dtrun.Host.Mounts
import Dtrun.Library.MountViews
import Dtrun.Library.StateExcept

/-! # The setup of a container from the inside

`setup_and_exec_child` from the mounts of the config to the remount of the root. What the rest of
the kernel answers is a parameter, step by step; the steps are the passes of the loops, so the
`i`-th entry of `mounts` is the `i`-th step. What becomes of the mounts is a list of changes that
each step has its own part in.
-/
namespace Dtrun.Child
set_option autoImplicit false
open MountTable Oci Mounts StateExcept

inductive NetMode where
  | none | host
  deriving DecidableEq

inductive SetupError where
  | mkdir (dest : String)
  | mount (dest : String)
  | sysctl (key : String)
  | oomScoreAdj
  | capabilities
  | rootReadonly
  deriving DecidableEq

/-- The answers at the `n`-th step. -/
structure Env where
  /-- where a path leads, as seen from the root -/
  place : Nat → String → Option (List String)
  /-- where else a new mount is propagated -/
  peers : Nat → List (List String)
  /-- whether what is bound from outside is read-only -/
  foreign : Nat → Bool
  present : Nat → String → Bool
  createDirAll : Nat → String → Bool
  createFile : Nat → String → Bool
  isDir : Nat → String → Bool
  /-- `Path::parent` -/
  parent : String → Option String
  mounts : Nat → Bool
  writes : Nat → String → String → Bool
  /-- no capabilities are asked for, or `apply_capabilities` succeeds -/
  capabilities : Bool

/-- A write to a file, with the marks of the mount it goes through. -/
structure Write (α : Type) where
  path : String
  data : String
  own : α
  shared : α
  deriving DecidableEq

structure Setup (α : Type) where
  table : Table String α
  clock : Nat := 0
  writes : List (Write α) := []

abbrev SetupM (α : Type) := EStateM SetupError (Setup α)

/-- What is noted of the flags of a mount call. -/
structure Marks (α : Type) where
  /-- of a call for an entry of `mounts` -/
  entry : Mount → α
  /-- of another call, or of what was there before -/
  other : Bool → α
  readonly : α → Bool

section Program

variable {α : Type} (k : Marks α) (env : Env)

def tick : SetupM α Nat := modifyGet fun c => (c.clock, { c with clock := c.clock + 1 })

/-- What a mount call at the `n`-th step asks for, if the kernel grants it. -/
def asked (n : Nat) (call : MountCall) (a : α) : Option (Change String α) :=
  if env.mounts n then
    call.change (env.place n) (env.peers n) (k.other (env.foreign n)) (n + 1) a
  else none

def mount (n : Nat) (call : MountCall) (a : α) : SetupM α Bool := do
  let c ← get
  match asked k env n call a with
  | none => pure false
  | some ch =>
    if ch.Fits c.table.covering then
      set { c with table := c.table.change ch }
      pure true
    else pure false

def mountOwn (n : Nat) (call : MountCall) : SetupM α Bool :=
  mount k env n call (k.other call.flags.MS_RDONLY)

def applyMount (m : Mount) : SetupM α Unit := do
  let n ← tick
  unless env.present n m.destination do
    unless env.createDirAll n m.destination do throw (.mkdir m.destination)
  unless ← mount k env n (applyMountCall m) (k.entry m) do throw (.mount m.destination)

/-- The placeholders that it creates are part of what `place` answers. -/
def bindDevices (devices : List (String × Nat)) : SetupM α Unit :=
  devices.forM fun (dest, fd) => do
    let n ← tick
    discard (mountOwn k env n (bindMountCall s!"/proc/self/fd/{fd}" dest))

/-- The links that it makes besides are part of what `place` answers. -/
def setupDefaultDevices (hostDevices : List (String × Nat)) : SetupM α Unit :=
  bindDevices k env hostDevices

def placeholderRefused (n : Nat) (path : String) : Bool :=
  !env.present n path && match env.parent path with
    | none => false
    | some parent => env.createDirAll n parent && !env.createFile n path

def maskingCall (n : Nat) (path : String) : MountCall :=
  if env.isDir n path then maskCall path else bindMountCall "/dev/null" path

def applyMaskedPaths (paths : List String) : SetupM α Unit :=
  paths.forM fun path => do
    let n ← tick
    unless placeholderRefused env n path do
      discard (mountOwn k env n (maskingCall env n path))

/-- A path that is not there is looked for again once `create_dir_all` has tried to make it. -/
def applyReadonlyPaths (paths : List String) : SetupM α Unit :=
  paths.forM fun path => do
    let n ← tick
    let n' ← tick
    if env.present n path || env.present n' path then
      if ← mountOwn k env n (bindMountCall path path) then
        discard (mountOwn k env n' (readonlyCall path))

/-- `fs::write`. It succeeds on a writable mount if nothing else stands against it. -/
def write (path data : String) : SetupM α Bool := do
  let n ← tick
  let c ← get
  match env.place n path with
  | none => pure false
  | some p =>
    let m := c.table.covering p
    modify fun c => { c with writes := c.writes ++ [⟨path, data, m.own, m.shared⟩] }
    pure (!k.readonly m.own && !k.readonly m.shared && env.writes n path data)

def sysctlPath (key : String) : String :=
  "/proc/sys/" ++ String.ofList (key.toList.map fun c => if c = '.' then '/' else c)

def applySysctl (sysctls : List (String × String)) : SetupM α Unit :=
  sysctls.forM fun (key, value) => do
    unless ← write k env (sysctlPath key) value do throw (.sysctl key)

def oomScoreAdjPath : String := "/proc/self/oom_score_adj"

def applyOomScoreAdj (adj : Int) : SetupM α Unit := do
  unless ← write k env oomScoreAdjPath s!"{adj}\n" do throw .oomScoreAdj

def makeRootReadonly : SetupM α Unit := do
  let n ← tick
  unless ← mountOwn k env n (readonlyCall "/") do throw .rootReadonly

def sysctls (config : OciConfig) (netMode : NetMode) : List (String × String) :=
  if netMode ≠ .host then (config.linux.bind LinuxConfig.sysctl).getD [] else []

def maskedPaths (config : OciConfig) : List String :=
  (config.linux.bind LinuxConfig.maskedPaths).getD []

def readonlyPaths (config : OciConfig) : List String :=
  (config.linux.bind LinuxConfig.readonlyPaths).getD []

def finishSetup (config : OciConfig) : SetupM α Unit := do
  if let some adj := config.process.bind Process.oomScoreAdj then applyOomScoreAdj k env adj
  unless env.capabilities do throw .capabilities
  if config.root.readonly.getD false then makeRootReadonly k env

/-- Up to the masked paths; the devices are those that could be opened before the `chroot`. -/
def setupBeforePaths (config : OciConfig) (netMode : NetMode) (hostDevices : List (String × Nat)) :
    SetupM α Unit := do
  (config.mounts.getD []).forM (applyMount k env)
  setupDefaultDevices k env hostDevices
  applySysctl k env (sysctls config netMode)

/-- From the mounts on. -/
def setupAndExecChild (config : OciConfig) (netMode : NetMode) (hostDevices : List (String × Nat)) :
    SetupM α Unit := do
  setupBeforePaths k env config netMode hostDevices
  applyMaskedPaths k env (maskedPaths config)
  applyReadonlyPaths k env (readonlyPaths config)
  finishSetup k env config

end Program

section Changes

variable {α : Type} (k : Marks α) (env : Env)

def Granted (covering : List String → Mounted String α) : Option (Change String α) → Prop
  | none => False
  | some ch => ch.Fits covering

instance (covering : List String → Mounted String α) (ch : Option (Change String α)) :
    Decidable (Granted covering ch) := by
  cases ch with
  | none => exact inferInstanceAs (Decidable False)
  | some ch => exact inferInstanceAs (Decidable (ch.Fits covering))

def entryChanges (n : Nat) (m : Mount) : List (Change String α) :=
  (asked k env n (applyMountCall m) (k.entry m)).toList

def ownChanges (n : Nat) (call : MountCall) : List (Change String α) :=
  (asked k env n call (k.other call.flags.MS_RDONLY)).toList

def deviceChanges (n : Nat) (device : String × Nat) : List (Change String α) :=
  ownChanges k env n (bindMountCall s!"/proc/self/fd/{device.2}" device.1)

def maskChanges (n : Nat) (path : String) : List (Change String α) :=
  if placeholderRefused env n path then [] else ownChanges k env n (maskingCall env n path)

def readonlyChanges (n : Nat) (path : String) : List (Change String α) :=
  if (env.present n path || env.present (n + 1) path) && env.mounts n then
    ownChanges k env n (bindMountCall path path) ++ ownChanges k env (n + 1) (readonlyCall path)
  else []

/-- The changes of the passes of a loop that has `w` steps a pass. -/
def changesOf {ι : Type} (w : Nat) (changes : Nat → ι → List (Change String α)) :
    Nat → List ι → List (Change String α)
  | _, [] => []
  | n, i :: l => changes n i ++ changesOf w changes (n + w) l

end Changes

variable {α : Type} {k : Marks α} {env : Env}

theorem mount_apply (n : Nat) (call : MountCall) (a : α) (c : Setup α) :
    mount k env n call a c =
      .ok (decide (Granted c.table.covering (asked k env n call a)))
        { c with table := c.table.after (asked k env n call a).toList } := by
  rw [mount, bind_apply, get_apply]
  cases asked k env n call a with
  | none => rfl
  | some ch =>
    by_cases hFits : ch.Fits c.table.covering
    · simp only [hFits, if_true, Granted, decide_true, Option.toList_some, Table.after_fits hFits]
      rfl
    · simp only [hFits, if_false, Granted, decide_false, Option.toList_some, Table.after,
        List.foldl_cons, List.foldl_nil]
      rfl

theorem bind_granted (n : Nat) (source dest : String) (a : α)
    (covering : List String → Mounted String α) :
    Granted covering (asked k env n (bindMountCall source dest) a) ↔ env.mounts n = true := by
  rw [asked]
  cases env.mounts n with
  | false => simp [Granted]
  | true =>
    simp only [if_true, iff_true, MountCall.change, bindMountCall, Option.bind_some,
      Bool.false_eq_true, if_false]
    cases env.place n dest with
    | none => exact trivial
    | some d =>
      cases env.place n source with
      | none => exact trivial
      | some z => exact trivial

/-- A loop that never fails and leaves the writes alone. -/
theorem forM_after {ι : Type} {f : ι → SetupM α Unit} (w : Nat)
    (changes : Nat → ι → List (Change String α))
    (h : ∀ i c, f i c = .ok () { c with
      table := c.table.after (changes c.clock i), clock := c.clock + w }) (l : List ι)
    (c : Setup α) :
    l.forM f c = .ok () { c with
      table := c.table.after (changesOf w changes c.clock l), clock := c.clock + w * l.length } := by
  induction l generalizing c with
  | nil => rfl
  | cons i l ih =>
    refine forM_cons_ok_iff.mpr ⟨_, h i c, ?_⟩
    rw [ih, changesOf, Table.after_append, List.length_cons, Nat.mul_add, Nat.mul_one]
    simp only [Nat.add_assoc, Nat.add_comm w]

theorem bindDevices_apply (devices : List (String × Nat)) (c : Setup α) :
    bindDevices k env devices c = .ok () { c with
      table := c.table.after (changesOf 1 (deviceChanges k env) c.clock devices)
      clock := c.clock + devices.length } := by
  rw [bindDevices, forM_after 1 (deviceChanges k env), Nat.one_mul]
  intro device c
  simp only [tick, bind_apply, modifyGet_apply, discard_apply, mountOwn, mount_apply]
  rfl

theorem applyMaskedPaths_apply (paths : List String) (c : Setup α) :
    applyMaskedPaths k env paths c = .ok () { c with
      table := c.table.after (changesOf 1 (maskChanges k env) c.clock paths)
      clock := c.clock + paths.length } := by
  rw [applyMaskedPaths, forM_after 1 (maskChanges k env), Nat.one_mul]
  intro path c
  rw [bind_of_ok (show tick c = .ok c.clock { c with clock := c.clock + 1 } from rfl), maskChanges]
  cases placeholderRefused env c.clock path with
  | true => rfl
  | false =>
    simp only [Bool.false_eq_true, if_false, discard_apply, mountOwn, mount_apply]
    rfl

theorem applyReadonlyPaths_apply (paths : List String) (c : Setup α) :
    applyReadonlyPaths k env paths c = .ok () { c with
      table := c.table.after (changesOf 2 (readonlyChanges k env) c.clock paths)
      clock := c.clock + 2 * paths.length } := by
  rw [applyReadonlyPaths, forM_after 2 (readonlyChanges k env)]
  intro path c
  rw [bind_of_ok (show tick c = .ok c.clock { c with clock := c.clock + 1 } from rfl),
    bind_of_ok (show tick { c with clock := c.clock + 1 } =
      .ok (c.clock + 1) { c with clock := c.clock + 2 } from rfl), readonlyChanges]
  cases env.present c.clock path || env.present (c.clock + 1) path with
  | false => rfl
  | true =>
    rw [if_pos rfl, bind_apply, mountOwn, mount_apply, Bool.true_and]
    simp only [bind_granted, decide_eq_true_eq]
    cases hMounts : env.mounts c.clock with
    | false => simp [asked, hMounts]
    | true =>
      simp only [if_true, discard_apply, mountOwn, mount_apply, Table.after_append]
      rfl

end Dtrun.Child
