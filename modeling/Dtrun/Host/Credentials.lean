import Mathlib.Data.BitVec
import Dtrun.Library.StateExcept
import Dtrun.Library.Words
import Dtrun.Supervisor.Types

/-! # Capabilities

`apply_capabilities` turns the five lists of names into masks, drops what is not in the bounding
set bit by bit, installs three sets as halves of 32 bits and raises the ambient ones.
-/
namespace Dtrun.Credentials
set_option autoImplicit false
open StateExcept Words

def EPERM : Errno := 1
def EINVAL : Errno := 22

def CAP_NAMES : List (String × Nat) :=
  [("CAP_CHOWN", 0), ("CAP_DAC_OVERRIDE", 1), ("CAP_DAC_READ_SEARCH", 2), ("CAP_FOWNER", 3),
    ("CAP_FSETID", 4), ("CAP_KILL", 5), ("CAP_SETGID", 6), ("CAP_SETUID", 7), ("CAP_SETPCAP", 8),
    ("CAP_LINUX_IMMUTABLE", 9), ("CAP_NET_BIND_SERVICE", 10), ("CAP_NET_BROADCAST", 11),
    ("CAP_NET_ADMIN", 12), ("CAP_NET_RAW", 13), ("CAP_IPC_LOCK", 14), ("CAP_IPC_OWNER", 15),
    ("CAP_SYS_MODULE", 16), ("CAP_SYS_RAWIO", 17), ("CAP_SYS_CHROOT", 18),
    ("CAP_SYS_PTRACE", 19), ("CAP_SYS_PACCT", 20), ("CAP_SYS_ADMIN", 21), ("CAP_SYS_BOOT", 22),
    ("CAP_SYS_NICE", 23), ("CAP_SYS_RESOURCE", 24), ("CAP_SYS_TIME", 25),
    ("CAP_SYS_TTY_CONFIG", 26), ("CAP_MKNOD", 27), ("CAP_LEASE", 28), ("CAP_AUDIT_WRITE", 29),
    ("CAP_AUDIT_CONTROL", 30), ("CAP_SETFCAP", 31), ("CAP_MAC_OVERRIDE", 32),
    ("CAP_MAC_ADMIN", 33), ("CAP_SYSLOG", 34), ("CAP_WAKE_ALARM", 35), ("CAP_BLOCK_SUSPEND", 36),
    ("CAP_AUDIT_READ", 37), ("CAP_PERFMON", 38), ("CAP_BPF", 39), ("CAP_CHECKPOINT_RESTORE", 40)]

def MAX_CAP : Nat := 40

structure Capabilities where
  bounding : Option (List String) := none
  effective : Option (List String) := none
  inheritable : Option (List String) := none
  permitted : Option (List String) := none
  ambient : Option (List String) := none

/-- The sets of a process, on a kernel that knows the bits up to `last`. -/
structure CapSets (last : Nat) where
  bounding : BitVec 64
  effective : BitVec 64
  permitted : BitVec 64
  inheritable : BitVec 64
  ambient : BitVec 64
  known : ∀ i, last < i → bounding.getLsbD i = false

structure CapUserData where
  effective : BitVec 32
  permitted : BitVec 32
  inheritable : BitVec 32

/-- What the kernel refuses, and the error it does so with. -/
structure Kernel where
  last : Nat
  dropRefused : CapSets last → Nat → Option Errno
  /-- a bit is invalid only where the kernel does not know it -/
  invalid : ∀ s idx, dropRefused s idx = some EINVAL → last < idx
  capsetRefused : CapSets last → CapUserData → CapUserData → Option Errno
  raiseRefused : CapSets last → Nat → Option Errno

namespace Kernel

variable (k : Kernel)

abbrev Call := EStateM Errno (CapSets k.last) Unit

/-- `PR_CAPBSET_DROP` -/
def capbsetDrop (idx : Nat) : k.Call := do
  let s ← get
  match k.dropRefused s idx with
  | some e => throw e
  | none => set { s with
      bounding := s.bounding &&& ~~~(1#64 <<< idx)
      known := fun i hi => by rw [BitVec.getLsbD_and, s.known i hi, Bool.false_and] }

/-- `PR_CAP_AMBIENT_CLEAR_ALL` -/
def ambientClearAll : k.Call := modify fun s => { s with ambient := 0#64 }

/-- `capset(2)`; what is ambient stays permitted and inheritable. -/
def capset (low high : CapUserData) : k.Call := do
  let s ← get
  match k.capsetRefused s low high with
  | some e => throw e
  | none =>
    let permitted : BitVec 64 := high.permitted ++ low.permitted
    let inheritable : BitVec 64 := high.inheritable ++ low.inheritable
    set { s with
      effective := high.effective ++ low.effective
      permitted := permitted
      inheritable := inheritable
      ambient := s.ambient &&& permitted &&& inheritable }

/-- `PR_CAP_AMBIENT_RAISE` -/
def ambientRaise (idx : Nat) : k.Call := do
  let s ← get
  if s.permitted.getLsbD idx && s.inheritable.getLsbD idx then
    match k.raiseRefused s idx with
    | some e => throw e
    | none => set { s with ambient := s.ambient ||| 1#64 <<< idx }
  else throw EPERM

end Kernel

def capIndex (name : String) : Option Nat :=
  CAP_NAMES.findSome? fun entry => if entry.1 = name then some entry.2 else none

def addName (mask : BitVec 64) (name : String) : Except Errno (BitVec 64) :=
  match capIndex name with
  | none => .error EINVAL
  | some idx => .ok (mask ||| 1#64 <<< idx)

def capMask (names : List String) : Except Errno (BitVec 64) := names.foldlM addName 0#64

/-- A set missing from the config is empty. -/
def setMask : Option (List String) → Except Errno (BitVec 64)
  | none => .ok 0#64
  | some names => capMask names

section Program

variable (k : Kernel)

def setCapSets (effective permitted inheritable : BitVec 64) : k.Call :=
  k.capset
    { effective := effective.setWidth 32
      permitted := permitted.setWidth 32
      inheritable := inheritable.setWidth 32 }
    { effective := (effective >>> 32).setWidth 32
      permitted := (permitted >>> 32).setWidth 32
      inheritable := (inheritable >>> 32).setWidth 32 }

/-- One turn of the loop that shrinks the bounding set. -/
def dropStep (bounding : BitVec 64) (idx : Nat) : k.Call :=
  if bounding &&& 1#64 <<< idx = 0#64 then
    tryCatch (k.capbsetDrop idx) fun e => if e ≠ EINVAL then throw e else pure ()
  else pure ()

/-- One turn of the loop that raises the ambient set. -/
def raiseStep (ambient permitted inheritable : BitVec 64) (idx : Nat) : k.Call :=
  if ambient &&& 1#64 <<< idx ≠ 0#64 ∧ permitted &&& 1#64 <<< idx ≠ 0#64 ∧
      inheritable &&& 1#64 <<< idx ≠ 0#64 then k.ambientRaise idx
  else pure ()

def applyCapabilities (caps : Capabilities) : k.Call := do
  let bounding ← liftExcept (setMask caps.bounding)
  let effective ← liftExcept (setMask caps.effective)
  let permitted ← liftExcept (setMask caps.permitted)
  let inheritable ← liftExcept (setMask caps.inheritable)
  let ambient ← liftExcept (setMask caps.ambient)
  (List.range (MAX_CAP + 1)).forM (dropStep k bounding)
  k.ambientClearAll
  setCapSets k effective permitted inheritable
  (List.range (MAX_CAP + 1)).forM (raiseStep k ambient permitted inheritable)

end Program

def Lists (names : Option (List String)) (idx : Nat) : Prop :=
  ∃ name ∈ names.getD [], capIndex name = some idx

def Recognized (names : Option (List String)) : Prop :=
  ∀ name ∈ names.getD [], capIndex name ≠ none

/-- Every name of every list is known. -/
structure Capabilities.Known (caps : Capabilities) : Prop where
  bounding : Recognized caps.bounding
  effective : Recognized caps.effective
  permitted : Recognized caps.permitted
  inheritable : Recognized caps.inheritable
  ambient : Recognized caps.ambient

/-- The sets are those of the config, but for what the bounding set had lost before. -/
structure Granted {last : Nat} (caps : Capabilities) (s s' : CapSets last) : Prop where
  effective : ∀ i, s'.effective.getLsbD i = true ↔ Lists caps.effective i
  permitted : ∀ i, s'.permitted.getLsbD i = true ↔ Lists caps.permitted i
  inheritable : ∀ i, s'.inheritable.getLsbD i = true ↔ Lists caps.inheritable i
  bounding : ∀ i, s'.bounding.getLsbD i = true ↔
    s.bounding.getLsbD i = true ∧ (i ≤ MAX_CAP → Lists caps.bounding i)
  ambient : ∀ i, s'.ambient.getLsbD i = true ↔
    Lists caps.ambient i ∧ Lists caps.permitted i ∧ Lists caps.inheritable i

variable {name : String} {names : List String} {mask : BitVec 64} {i idx : Nat}

theorem capIndex_le (h : capIndex name = some idx) : idx ≤ MAX_CAP := by
  obtain ⟨entry, hMem, hEntry⟩ := List.exists_of_findSome?_eq_some h
  have hTable : ∀ entry ∈ CAP_NAMES, entry.2 ≤ MAX_CAP := by decide
  rw [Option.ite_none_right_eq_some, Option.some_inj] at hEntry
  rw [← hEntry.2]
  exact hTable entry hMem

theorem foldlM_addName (names : List String) (start : BitVec 64) :
    (∀ name ∈ names, capIndex name ≠ none) ∧
      (∃ mask, names.foldlM addName start = .ok mask ∧ ∀ i, mask.getLsbD i = true ↔
        start.getLsbD i = true ∨ ∃ name ∈ names, capIndex name = some i) ∨
    (∃ name ∈ names, capIndex name = none) ∧ names.foldlM addName start = .error EINVAL := by
  induction names generalizing start with
  | nil => exact .inl ⟨by simp, start, rfl, by simp⟩
  | cons name names ih =>
    rw [List.foldlM_cons, addName]
    cases hIndex : capIndex name with
    | none => exact .inr ⟨⟨name, List.mem_cons_self, hIndex⟩, rfl⟩
    | some idx =>
      have hWidth : idx < 64 := Nat.lt_of_le_of_lt (capIndex_le hIndex) (by decide)
      rcases ih (start ||| 1#64 <<< idx) with ⟨hAll, mask, hRun, hBits⟩ | ⟨hSome, hRun⟩
      · refine .inl ⟨?_, mask, hRun, ?_⟩
        · simpa [hIndex] using hAll
        · intro i
          rw [hBits, getLsbD_or_bit hWidth, or_assoc, List.exists_mem_cons_iff, hIndex,
            Option.some_inj, @eq_comm _ idx]
      · refine .inr ⟨?_, hRun⟩
        rw [List.exists_mem_cons_iff]
        exact .inr hSome

def Stands (mask : BitVec 64) (names : Option (List String)) : Prop :=
  ∀ i, mask.getLsbD i = true ↔ Lists names i

theorem setMask_spec (names : Option (List String)) :
    (Recognized names ∧ ∃ mask, setMask names = .ok mask ∧ Stands mask names) ∨
      ¬ Recognized names ∧ setMask names = .error EINVAL := by
  cases names with
  | none => exact .inl ⟨by simp [Recognized], 0#64, rfl, by simp [Stands, Lists]⟩
  | some names =>
    rcases foldlM_addName names 0#64 with ⟨hAll, mask, hRun, hBits⟩ | ⟨hSome, hRun⟩
    · refine .inl ⟨hAll, mask, hRun, fun i => ?_⟩
      rw [hBits, BitVec.getLsbD_zero, Bool.false_eq_true, false_or]
      rfl
    · refine .inr ⟨fun hAll => ?_, hRun⟩
      obtain ⟨name, hMem, hNone⟩ := hSome
      exact hAll name hMem hNone

theorem Stands.le {names : Option (List String)} (h : Stands mask names)
    (hBit : mask.getLsbD i = true) : i ≤ MAX_CAP := by
  obtain ⟨name, -, hName⟩ := (h i).mp hBit
  exact capIndex_le hName

section Calls

variable {k : Kernel} {s s' : CapSets k.last}

/-- A bit that is not wanted is gone after its turn, also where the kernel knows no such bit. -/
theorem dropStep_ok {bounding : BitVec 64} (h : dropStep k bounding idx s = .ok () s') :
    s'.bounding.getLsbD i = true ↔
      s.bounding.getLsbD i = true ∧ (i = idx → bounding.getLsbD i = true) := by
  rw [dropStep] at h
  split at h
  · rename_i hBit
    rw [and_bit_eq_zero_iff] at hBit
    have hGone : (i = idx → bounding.getLsbD i = true) ↔ i ≠ idx := by
      constructor
      · rintro hWanted rfl
        rw [hWanted rfl] at hBit
        cases hBit
      · intro hne hEq
        exact absurd hEq hne
    rw [hGone]
    rw [tryCatch_apply, Kernel.capbsetDrop, bind_of_ok (get_apply s)] at h
    cases hRefused : k.dropRefused s idx with
    | none =>
      rw [hRefused] at h
      cases h
      exact getLsbD_and_not_bit
    | some e =>
      rw [hRefused] at h
      change (if e ≠ EINVAL then throw e else pure () : k.Call) s = _ at h
      split at h
      · cases h
      · rename_i hInvalid
        cases h
        rw [not_ne_iff] at hInvalid
        subst hInvalid
        have hUnknown : s.bounding.getLsbD idx = false := s.known idx (k.invalid s idx hRefused)
        rw [iff_self_and]
        rintro hBit' rfl
        rw [hBit'] at hUnknown
        cases hUnknown
  · rename_i hBit
    rw [and_bit_eq_zero_iff, Bool.not_eq_false] at hBit
    cases h
    rw [iff_self_and]
    rintro - rfl
    exact hBit

theorem dropLoop_ok {bounding : BitVec 64} {bits : List Nat}
    (h : bits.forM (dropStep k bounding) s = .ok () s') :
    s'.bounding.getLsbD i = true ↔
      s.bounding.getLsbD i = true ∧ (i ∈ bits → bounding.getLsbD i = true) := by
  induction bits generalizing s with
  | nil =>
    cases h
    simp
  | cons idx bits ih =>
    obtain ⟨t, hStep, hRest⟩ := forM_cons_ok_iff.mp h
    rw [ih hRest, dropStep_ok hStep, List.mem_cons, or_imp, and_assoc]

theorem capset_ok {low high : CapUserData} (h : k.capset low high s = .ok () s') :
    s'.effective = high.effective ++ low.effective ∧
      s'.permitted = high.permitted ++ low.permitted ∧
      s'.inheritable = high.inheritable ++ low.inheritable ∧
      s'.bounding = s.bounding ∧
      s'.ambient = s.ambient &&& s'.permitted &&& s'.inheritable := by
  rw [Kernel.capset, bind_of_ok (get_apply s)] at h
  cases hRefused : k.capsetRefused s low high with
  | none =>
    rw [hRefused] at h
    cases h
    exact ⟨rfl, rfl, rfl, rfl, rfl⟩
  | some e =>
    rw [hRefused] at h
    cases h

theorem setCapSets_ok {effective permitted inheritable : BitVec 64}
    (h : setCapSets k effective permitted inheritable s = .ok () s') :
    s'.effective = effective ∧ s'.permitted = permitted ∧ s'.inheritable = inheritable ∧
      s'.bounding = s.bounding ∧ s'.ambient = s.ambient &&& permitted &&& inheritable := by
  obtain ⟨hEffective, hPermitted, hInheritable, hBounding, hAmbient⟩ := capset_ok h
  rw [append_halves] at hEffective hPermitted hInheritable
  rw [hPermitted, hInheritable] at hAmbient
  exact ⟨hEffective, hPermitted, hInheritable, hBounding, hAmbient⟩

def fixed (s : CapSets k.last) : BitVec 64 × BitVec 64 × BitVec 64 × BitVec 64 :=
  (s.bounding, s.effective, s.permitted, s.inheritable)

def Raised (ambient permitted inheritable : BitVec 64) (idx : Nat) : Prop :=
  ambient.getLsbD idx = true ∧ permitted.getLsbD idx = true ∧ inheritable.getLsbD idx = true

variable {ambient permitted inheritable : BitVec 64}

theorem raiseStep_ok (hIdx : idx < 64)
    (h : raiseStep k ambient permitted inheritable idx s = .ok () s') :
    fixed s' = fixed s ∧ (s'.ambient.getLsbD i = true ↔
      s.ambient.getLsbD i = true ∨ i = idx ∧ Raised ambient permitted inheritable i) := by
  simp only [raiseStep, ne_eq, and_bit_eq_zero_iff, Bool.not_eq_false] at h
  split at h
  · rename_i hRaised
    have hOnly : i = idx ∧ Raised ambient permitted inheritable i ↔ i = idx := by
      rw [and_iff_left_iff_imp]
      rintro rfl
      exact hRaised
    rw [Kernel.ambientRaise, bind_of_ok (get_apply s)] at h
    split at h
    · cases hRefused : k.raiseRefused s idx with
      | none =>
        rw [hRefused] at h
        cases h
        rw [hOnly]
        exact ⟨rfl, getLsbD_or_bit hIdx⟩
      | some e =>
        rw [hRefused] at h
        cases h
    · cases h
  · rename_i hRaised
    cases h
    refine ⟨rfl, ?_⟩
    rw [iff_self_or]
    rintro ⟨rfl, hBits⟩
    exact absurd hBits hRaised

theorem raiseLoop_ok {bits : List Nat} (hBits : ∀ idx ∈ bits, idx < 64)
    (h : bits.forM (raiseStep k ambient permitted inheritable) s = .ok () s') :
    fixed s' = fixed s ∧ (s'.ambient.getLsbD i = true ↔
      s.ambient.getLsbD i = true ∨ i ∈ bits ∧ Raised ambient permitted inheritable i) := by
  induction bits generalizing s with
  | nil =>
    cases h
    simp
  | cons idx bits ih =>
    rw [List.forall_mem_cons] at hBits
    obtain ⟨t, hStep, hRest⟩ := forM_cons_ok_iff.mp h
    obtain ⟨hKept, hAmbient⟩ := @raiseStep_ok i idx k s t _ _ _ hBits.1 hStep
    obtain ⟨hKept', hAmbient'⟩ := ih hBits.2 hRest
    refine ⟨hKept'.trans hKept, ?_⟩
    rw [hAmbient', hAmbient, List.mem_cons, or_and_right, or_assoc]

end Calls

variable {k : Kernel} {s s' : CapSets k.last} {caps : Capabilities}

/-- The part of `apply_capabilities` after the masks. -/
def install (k : Kernel) (bounding effective permitted inheritable ambient : BitVec 64) :
    k.Call := do
  (List.range (MAX_CAP + 1)).forM (dropStep k bounding)
  k.ambientClearAll
  setCapSets k effective permitted inheritable
  (List.range (MAX_CAP + 1)).forM (raiseStep k ambient permitted inheritable)

theorem install_ok {bounding effective permitted inheritable ambient : BitVec 64}
    (h : install k bounding effective permitted inheritable ambient s = .ok () s') :
    s'.effective = effective ∧ s'.permitted = permitted ∧ s'.inheritable = inheritable ∧
      (∀ i, s'.bounding.getLsbD i = true ↔
        s.bounding.getLsbD i = true ∧ (i ≤ MAX_CAP → bounding.getLsbD i = true)) ∧
      ∀ i, s'.ambient.getLsbD i = true ↔
        i ≤ MAX_CAP ∧ Raised ambient permitted inheritable i := by
  have hRange {i : Nat} : i ∈ List.range (MAX_CAP + 1) ↔ i ≤ MAX_CAP := by
    rw [List.mem_range, Nat.lt_succ_iff]
  obtain ⟨_, t, hDrop, h⟩ := bind_ok_iff.mp h
  obtain ⟨_, _, ⟨⟩, h⟩ := bind_ok_iff.mp h
  obtain ⟨_, u, hSet, hRaise⟩ := bind_ok_iff.mp h
  obtain ⟨hEffective, hPermitted, hInheritable, hBounding, hAmbient⟩ := setCapSets_ok hSet
  have hWidth : ∀ idx ∈ List.range (MAX_CAP + 1), idx < 64 := by
    intro idx hIdx
    exact Nat.lt_of_le_of_lt (hRange.mp hIdx) (by decide)
  have hFixed : fixed s' = fixed u := (@raiseLoop_ok 0 k u s' _ _ _ _ hWidth hRaise).1
  injection hFixed with hFixedBounding hFixed
  injection hFixed with hFixedEffective hFixed
  injection hFixed with hFixedPermitted hFixedInheritable
  refine ⟨hFixedEffective.trans hEffective, hFixedPermitted.trans hPermitted,
    hFixedInheritable.trans hInheritable, ?_, ?_⟩
  · intro i
    rw [hFixedBounding, hBounding, dropLoop_ok hDrop, hRange]
  · intro i
    rw [(raiseLoop_ok hWidth hRaise).2, hAmbient, hRange]
    simp

theorem liftExcept_setMask (s : CapSets k.last) (names : Option (List String)) :
    (Recognized names ∧ ∃ mask, Stands mask names ∧
      (liftExcept (setMask names) : EStateM Errno (CapSets k.last) (BitVec 64)) s = .ok mask s) ∨
    ¬ Recognized names ∧
      (liftExcept (setMask names) : EStateM Errno (CapSets k.last) (BitVec 64)) s =
        .error EINVAL s := by
  rcases setMask_spec names with ⟨hAll, mask, hRun, hBits⟩ | ⟨hSome, hRun⟩
  · exact .inl ⟨hAll, mask, hBits, by rw [hRun]; rfl⟩
  · exact .inr ⟨hSome, by rw [hRun]; rfl⟩

/-- All masks are made before the first call. -/
theorem applyCapabilities_cases (caps : Capabilities) (s : CapSets k.last) :
    (caps.Known ∧ ∃ bounding effective permitted inheritable ambient,
      Stands bounding caps.bounding ∧ Stands effective caps.effective ∧
      Stands permitted caps.permitted ∧ Stands inheritable caps.inheritable ∧
      Stands ambient caps.ambient ∧
      applyCapabilities k caps s =
        install k bounding effective permitted inheritable ambient s) ∨
    ¬ caps.Known ∧ applyCapabilities k caps s = .error EINVAL s := by
  rw [applyCapabilities]
  rcases liftExcept_setMask s caps.bounding with ⟨hB, bounding, hBounding, hRun⟩ | ⟨hNot, hRun⟩
  · rw [bind_of_ok hRun]
    rcases liftExcept_setMask s caps.effective with ⟨hE, effective, hEffective, hRun⟩ | ⟨hNot, hRun⟩
    · rw [bind_of_ok hRun]
      rcases liftExcept_setMask s caps.permitted with
        ⟨hP, permitted, hPermitted, hRun⟩ | ⟨hNot, hRun⟩
      · rw [bind_of_ok hRun]
        rcases liftExcept_setMask s caps.inheritable with
          ⟨hI, inheritable, hInheritable, hRun⟩ | ⟨hNot, hRun⟩
        · rw [bind_of_ok hRun]
          rcases liftExcept_setMask s caps.ambient with
            ⟨hA, ambient, hAmbient, hRun⟩ | ⟨hNot, hRun⟩
          · rw [bind_of_ok hRun]
            exact .inl ⟨⟨hB, hE, hP, hI, hA⟩, bounding, effective, permitted, inheritable,
              ambient, hBounding, hEffective, hPermitted, hInheritable, hAmbient, rfl⟩
          · exact .inr ⟨fun h => hNot h.ambient, bind_error_iff.mpr (.inl hRun)⟩
        · exact .inr ⟨fun h => hNot h.inheritable, bind_error_iff.mpr (.inl hRun)⟩
      · exact .inr ⟨fun h => hNot h.permitted, bind_error_iff.mpr (.inl hRun)⟩
    · exact .inr ⟨fun h => hNot h.effective, bind_error_iff.mpr (.inl hRun)⟩
  · exact .inr ⟨fun h => hNot h.bounding, bind_error_iff.mpr (.inl hRun)⟩

/-- An unknown name fails the call before anything is changed; if the call succeeds, the process has
what the lists say. -/
theorem applyCapabilities_grants (k : Kernel) (caps : Capabilities) (s : CapSets k.last) :
    (¬ caps.Known → applyCapabilities k caps s = .error EINVAL s) ∧
      (caps.Known → ∀ s', applyCapabilities k caps s = .ok () s' → Granted caps s s') := by
  rcases applyCapabilities_cases caps s with
    ⟨hKnown, bounding, effective, permitted, inheritable, ambient, hBounding, hEffective,
      hPermitted, hInheritable, hAmbient, hRun⟩ | ⟨hNot, hRun⟩
  · refine ⟨fun hNot => absurd hKnown hNot, fun _ s' hOk => ?_⟩
    rw [hRun] at hOk
    obtain ⟨rfl, rfl, rfl, hOld, hRaised⟩ := install_ok hOk
    constructor
    · exact hEffective
    · exact hPermitted
    · exact hInheritable
    · intro i
      rw [hOld, hBounding i]
    · intro i
      rw [hRaised, ← hAmbient i, ← hPermitted i, ← hInheritable i, Raised, and_iff_right_iff_imp]
      exact fun hBits => hAmbient.le hBits.1
  · exact ⟨fun _ => hRun, fun hKnown => absurd hKnown hNot⟩

/-- A kernel that refuses no call it can carry out. -/
def willing : Kernel where
  last := 40
  dropRefused _ _ := none
  invalid _ _ h := by cases h
  capsetRefused _ _ _ := none
  raiseRefused _ _ := none

def fullSets : CapSets willing.last where
  bounding := 0x1ffffffffff#64
  effective := 0x1ffffffffff#64
  permitted := 0x1ffffffffff#64
  inheritable := 0#64
  ambient := 0#64
  known i hi := by
    rw [BitVec.getLsbD_ofNat]
    have hSmall : 0x1ffffffffff < 2 ^ i :=
      Nat.lt_of_lt_of_le (by decide) (Nat.pow_le_pow_right (by decide) hi)
    simp [Nat.testBit_lt_two_pow hSmall]

def webCaps : Capabilities where
  bounding := some ["CAP_CHOWN", "CAP_BPF"]
  effective := some ["CAP_CHOWN"]
  permitted := some ["CAP_CHOWN", "CAP_BPF"]
  inheritable := some ["CAP_BPF"]
  ambient := some ["CAP_BPF", "CAP_CHOWN"]

theorem applyCapabilities_grants_web :
    ∃ s', applyCapabilities willing webCaps fullSets = .ok () s' ∧ Granted webCaps fullSets s' := by
  have hKnown : webCaps.Known := by
    constructor
    all_goals
      simp only [Recognized]
      decide
  have hEnds : (match applyCapabilities willing webCaps fullSets with
      | .ok _ _ => true
      | .error _ _ => false) = true := by decide +kernel
  cases hRun : applyCapabilities willing webCaps fullSets with
  | ok u s' => exact ⟨s', rfl, (applyCapabilities_grants willing webCaps fullSets).2 hKnown s' hRun⟩
  | error e s' =>
    rw [hRun] at hEnds
    cases hEnds

end Dtrun.Credentials
