import Dtrun.Host.Credentials

/-! # Which configurations can be confined

The end of `setup_and_exec_child`: the capabilities of the config are applied and then, if asked
for, the root is remounted read-only. The kernel is the documented one, and the process begins with
everything that a new user namespace gives it.
-/
namespace Dtrun.Credentials
set_option autoImplicit false
open StateExcept Words

def CAP_SETPCAP : Nat := 8
def CAP_SYS_ADMIN : Nat := 21

def Within (x y : BitVec 64) : Prop := x &&& ~~~y = 0#64

instance (x y : BitVec 64) : Decidable (Within x y) := inferInstanceAs (Decidable (_ = _))

namespace Kernel

/-- What is refused for want of a capability, and as out of bounds of the sets at hand. -/
def linux (last : Nat) : Kernel where
  last := last
  dropRefused s idx :=
    if s.effective.getLsbD CAP_SETPCAP = false then some EPERM
    else if last < idx then some EINVAL else none
  invalid s idx h := by
    split at h
    · cases h
    · split at h
      · assumption
      · cases h
  capsetRefused s low high :=
    let effective : BitVec 64 := high.effective ++ low.effective
    let permitted : BitVec 64 := high.permitted ++ low.permitted
    let inheritable : BitVec 64 := high.inheritable ++ low.inheritable
    if s.effective.getLsbD CAP_SETPCAP = false ∧
        ¬ Within inheritable (s.inheritable ||| s.permitted) then some EPERM
    else if Within inheritable (s.inheritable ||| s.bounding) ∧ Within permitted s.permitted ∧
        Within effective permitted then none
    else some EPERM
  raiseRefused _ _ := none

/-- `mount(2)` is for processes that have `CAP_SYS_ADMIN` in the namespace. What else it may find
wrong, say that the root is no mount of its own, is `refused`. -/
def remount (k : Kernel) (refused : Option Errno) : k.Call := do
  let s ← get
  unless s.effective.getLsbD CAP_SYS_ADMIN do throw EPERM
  match refused with
  | some e => throw e
  | none => pure ()

end Kernel

/-- In a new user namespace, on a kernel that knows the capabilities up to `last`. -/
def CapSets.full (last : Nat) : CapSets (Kernel.linux last).last where
  bounding := lowest 64 (last + 1)
  effective := lowest 64 (last + 1)
  permitted := lowest 64 (last + 1)
  inheritable := 0#64
  ambient := 0#64
  known i hi := by
    rw [Bool.eq_false_iff]
    intro hBit
    exact Nat.not_lt.mpr (Nat.le_of_lt_succ (getLsbD_lowest.mp hBit).2) hi

/-- `make_root_readonly` -/
def makeRootReadonly (k : Kernel) (refused : Option Errno) : k.Call := k.remount refused

/-- From `process.capabilities` up to `root.readonly`. -/
def confine (k : Kernel) (refused : Option Errno) (capabilities : Option Capabilities)
    (readonly : Option Bool) : k.Call := do
  if let some caps := capabilities then applyCapabilities k caps
  if readonly.getD false then makeRootReadonly k refused

def Sublist (names names' : Option (List String)) : Prop :=
  ∀ idx, Lists names idx → Lists names' idx

/-- The lists can be had together, and leave the process what the remount needs. -/
structure Capabilities.Grantable (caps : Capabilities) (readonly : Option Bool) : Prop where
  known : caps.Known
  effective : Sublist caps.effective caps.permitted
  inheritable : Sublist caps.inheritable caps.bounding
  admin : readonly = some true → Lists caps.effective CAP_SYS_ADMIN

variable {last : Nat} {s s' : CapSets (Kernel.linux last).last} {idx : Nat}

theorem within_iff {x y : BitVec 64} :
    Within x y ↔ ∀ i, x.getLsbD i = true → y.getLsbD i = true :=
  and_not_eq_zero_iff

theorem within_stands {x y : BitVec 64} {names names' : Option (List String)} (hx : Stands x names)
    (hy : Stands y names') : Within x y ↔ Sublist names names' := by
  rw [within_iff]
  exact forall_congr' fun i => imp_congr (hx i) (hy i)

def held (s : CapSets (Kernel.linux last).last) : BitVec 64 × BitVec 64 × BitVec 64 × BitVec 64 :=
  (s.effective, s.permitted, s.inheritable, s.ambient)

theorem drop_granted {bounding : BitVec 64} (hIdx : idx ≤ last)
    (hSetpcap : s.effective.getLsbD CAP_SETPCAP = true) :
    ∃ s', dropStep (Kernel.linux last) bounding idx s = .ok () s' ∧ held s' = held s := by
  rw [dropStep]
  split
  · have hAllowed : (Kernel.linux last).dropRefused s idx = none := by
      simp [Kernel.linux, hSetpcap, Nat.not_lt.mpr hIdx]
    refine ⟨{ s with
      bounding := s.bounding &&& ~~~(1#64 <<< idx)
      known := fun i hi => by rw [BitVec.getLsbD_and, s.known i hi, Bool.false_and] }, ?_, rfl⟩
    rw [tryCatch_apply, Kernel.capbsetDrop, bind_of_ok (get_apply s), hAllowed]
    rfl
  · exact ⟨s, rfl, rfl⟩

theorem drops_granted {bounding : BitVec 64} {bits : List Nat} (hBits : ∀ idx ∈ bits, idx ≤ last)
    (hSetpcap : s.effective.getLsbD CAP_SETPCAP = true) :
    ∃ s', bits.forM (dropStep (Kernel.linux last) bounding) s = .ok () s' ∧ held s' = held s := by
  induction bits generalizing s with
  | nil => exact ⟨s, rfl, rfl⟩
  | cons idx bits ih =>
    rw [List.forall_mem_cons] at hBits
    have hFirst : ∃ t, dropStep (Kernel.linux last) bounding idx s = .ok () t ∧ held t = held s :=
      drop_granted hBits.1 hSetpcap
    obtain ⟨t, hStep, hHeld⟩ := hFirst
    have hStill : t.effective.getLsbD CAP_SETPCAP = true := by
      rw [(Prod.mk.inj hHeld).1, hSetpcap]
    obtain ⟨u, hRest, hHeld'⟩ := ih hBits.2 hStill
    exact ⟨u, forM_cons_ok_iff.mpr ⟨t, hStep, hRest⟩, hHeld'.trans hHeld⟩

theorem setCapSets_granted_iff {effective permitted inheritable : BitVec 64}
    (hSetpcap : s.effective.getLsbD CAP_SETPCAP = true) :
    (∃ s', setCapSets (Kernel.linux last) effective permitted inheritable s = .ok () s') ↔
      Within inheritable (s.inheritable ||| s.bounding) ∧ Within permitted s.permitted ∧
        Within effective permitted := by
  rw [setCapSets, Kernel.capset, bind_of_ok (get_apply s)]
  simp only [Kernel.linux, append_halves, hSetpcap, Bool.true_eq_false, false_and, if_false]
  by_cases hFits : Within inheritable (s.inheritable ||| s.bounding) ∧
      Within permitted s.permitted ∧ Within effective permitted
  · simp only [hFits, and_self, if_true]
    exact iff_of_true ⟨_, rfl⟩ trivial
  · simp only [hFits, if_false]
    refine iff_of_false ?_ id
    rintro ⟨_, ⟨⟩⟩

theorem raise_granted {ambient permitted inheritable : BitVec 64}
    (hPermitted : s.permitted = permitted) (hInheritable : s.inheritable = inheritable) :
    ∃ s', raiseStep (Kernel.linux last) ambient permitted inheritable idx s = .ok () s' ∧
      fixed s' = fixed s := by
  simp only [raiseStep, ne_eq, and_bit_eq_zero_iff, Bool.not_eq_false]
  split
  · rename_i hRaised
    refine ⟨{ s with ambient := s.ambient ||| 1#64 <<< idx }, ?_, rfl⟩
    rw [Kernel.ambientRaise, bind_of_ok (get_apply s), hPermitted, hInheritable, hRaised.2.1,
      hRaised.2.2]
    rfl
  · exact ⟨s, rfl, rfl⟩

theorem raises_granted {ambient permitted inheritable : BitVec 64} {bits : List Nat}
    (hPermitted : s.permitted = permitted) (hInheritable : s.inheritable = inheritable) :
    ∃ s', bits.forM (raiseStep (Kernel.linux last) ambient permitted inheritable) s =
      .ok () s' := by
  induction bits generalizing s with
  | nil => exact ⟨s, rfl⟩
  | cons idx bits ih =>
    have hFirst : ∃ t, raiseStep (Kernel.linux last) ambient permitted inheritable idx s =
        .ok () t ∧ fixed t = fixed s := raise_granted hPermitted hInheritable
    obtain ⟨t, hStep, hFixed⟩ := hFirst
    injection hFixed with _ hFixed
    injection hFixed with _ hFixed
    injection hFixed with hSame hSame'
    obtain ⟨u, hRest⟩ := ih (hSame.trans hPermitted) (hSame'.trans hInheritable)
    exact ⟨u, forM_cons_ok_iff.mpr ⟨t, hStep, hRest⟩⟩

theorem full_bit (hIdx : idx ≤ MAX_CAP) (hLast : MAX_CAP ≤ last) :
    (lowest 64 (last + 1)).getLsbD idx = true :=
  getLsbD_lowest.mpr ⟨Nat.lt_of_le_of_lt hIdx (by decide), by omega⟩

/-- What is left in the bounding set bounds what may be inheritable. -/
theorem within_left_iff {bounding inheritable left : BitVec 64} (hLast : MAX_CAP ≤ last)
    (hInheritable : ∀ i, inheritable.getLsbD i = true → i ≤ MAX_CAP)
    (hLeft : ∀ i, left.getLsbD i = true ↔ (lowest 64 (last + 1)).getLsbD i = true ∧
      (i ∈ List.range (MAX_CAP + 1) → bounding.getLsbD i = true)) :
    Within inheritable (0#64 ||| left) ↔ Within inheritable bounding := by
  rw [within_iff, within_iff, BitVec.zero_or]
  refine forall_congr' fun i => imp_congr_right fun hBit => ?_
  have hKnown := hInheritable i hBit
  rw [hLeft, and_iff_right (full_bit hKnown hLast)]
  exact ⟨fun h => h (List.mem_range.mpr (Nat.lt_succ_of_le hKnown)), fun h _ => h⟩

theorem install_granted_iff (hLast : MAX_CAP ≤ last)
    {bounding effective permitted inheritable ambient : BitVec 64}
    (hPermitted : ∀ i, permitted.getLsbD i = true → i ≤ MAX_CAP)
    (hInheritable : ∀ i, inheritable.getLsbD i = true → i ≤ MAX_CAP) :
    (∃ s', install (Kernel.linux last) bounding effective permitted inheritable ambient
      (CapSets.full last) = .ok () s') ↔
      Within inheritable bounding ∧ Within effective permitted := by
  have hDrops : ∃ t, (List.range (MAX_CAP + 1)).forM (dropStep (Kernel.linux last) bounding)
      (CapSets.full last) = .ok () t ∧ held t = held (CapSets.full last) := by
    refine drops_granted (fun idx hIdx => ?_) (full_bit (by decide) hLast)
    exact Nat.le_trans (Nat.le_of_lt_succ (List.mem_range.mp hIdx)) hLast
  obtain ⟨t, hDrop, hHeld⟩ := hDrops
  injection hHeld with hEffective hHeld
  injection hHeld with hHad hHeld
  injection hHeld with hInherited _
  have hSetpcap : t.effective.getLsbD CAP_SETPCAP = true := by
    rw [hEffective]
    exact full_bit (by decide) hLast
  have hAll : Within permitted t.permitted := by
    rw [hHad]
    exact within_iff.mpr fun i hBit => full_bit (hPermitted i hBit) hLast
  let cleared : CapSets (Kernel.linux last).last := { t with ambient := 0#64 }
  have hSets : (∃ u, setCapSets (Kernel.linux last) effective permitted inheritable cleared =
      .ok () u) ↔ Within inheritable bounding ∧ Within effective permitted := by
    rw [setCapSets_granted_iff (s := cleared) hSetpcap,
      ← within_left_iff hLast hInheritable fun i => dropLoop_ok hDrop, and_iff_right hAll]
    rw [show cleared.inheritable = 0#64 from hInherited]
  rw [← hSets, install, bind_of_ok hDrop]
  constructor
  · rintro ⟨s', hRun⟩
    obtain ⟨_, _, ⟨⟩, hRun⟩ := bind_ok_iff.mp hRun
    obtain ⟨_, u, hSet, _⟩ := bind_ok_iff.mp hRun
    exact ⟨u, hSet⟩
  · rintro ⟨u, hSet⟩
    obtain ⟨_, hPermitted', hInheritable', _⟩ := setCapSets_ok hSet
    have hRaises : ∃ s', (List.range (MAX_CAP + 1)).forM
        (raiseStep (Kernel.linux last) ambient permitted inheritable) u = .ok () s' :=
      raises_granted hPermitted' hInheritable'
    obtain ⟨s', hRaise⟩ := hRaises
    exact ⟨s', bind_ok_iff.mpr ⟨(), cleared, rfl, bind_ok_iff.mpr ⟨(), u, hSet, hRaise⟩⟩⟩

theorem applyCapabilities_granted_iff (hLast : MAX_CAP ≤ last) {caps : Capabilities} :
    (∃ s', applyCapabilities (Kernel.linux last) caps (CapSets.full last) = .ok () s') ↔
      caps.Known ∧ Sublist caps.effective caps.permitted ∧
        Sublist caps.inheritable caps.bounding := by
  rcases applyCapabilities_cases (k := Kernel.linux last) caps (CapSets.full last) with
    ⟨hKnown, bounding, effective, permitted, inheritable, ambient, hBounding, hEffective,
      hPermitted, hInheritable, hAmbient, hRun⟩ | ⟨hNot, hRun⟩
  · rw [hRun, install_granted_iff hLast (fun _ => hPermitted.le) fun _ => hInheritable.le,
      within_stands hInheritable hBounding, within_stands hEffective hPermitted]
    exact ⟨fun h => ⟨hKnown, h.2, h.1⟩, fun h => ⟨h.2.2, h.2.1⟩⟩
  · rw [hRun]
    exact iff_of_false (by rintro ⟨_, ⟨⟩⟩) fun h => hNot h.1

theorem remount_ok_iff {s : CapSets (Kernel.linux last).last} {refused : Option Errno} :
    (Kernel.linux last).remount refused s = .ok () s' ↔
      s' = s ∧ s.effective.getLsbD CAP_SYS_ADMIN = true ∧ refused = none := by
  cases refused with
  | none =>
    rw [Kernel.remount, bind_of_ok (get_apply s)]
    cases hAdmin : s.effective.getLsbD CAP_SYS_ADMIN with
    | true => simp [eq_comm]
    | false => simp
  | some e =>
    rw [Kernel.remount, bind_of_ok (get_apply s)]
    cases hAdmin : s.effective.getLsbD CAP_SYS_ADMIN with
    | true => simp
    | false => simp

/-- The end of the setup succeeds exactly if the names are known, what is to be effective is
permitted, what is to be inheritable is left in the bounding set, and a root that is to be
read-only can be remounted so and comes with `CAP_SYS_ADMIN` effective. -/
theorem confine_ok_iff (last : Nat) (hLast : MAX_CAP ≤ last) (refused : Option Errno)
    (capabilities : Option Capabilities) (readonly : Option Bool) :
    (∃ s', confine (Kernel.linux last) refused capabilities readonly (CapSets.full last) =
      .ok () s') ↔
      (∀ caps ∈ capabilities, caps.Grantable readonly) ∧
        (readonly = some true → refused = none) := by
  have hRemount {s : CapSets (Kernel.linux last).last} : (∃ s',
      (if readonly.getD false then makeRootReadonly (Kernel.linux last) refused else pure ()) s =
        .ok () s') ↔
      (readonly = some true → s.effective.getLsbD CAP_SYS_ADMIN = true ∧ refused = none) := by
    cases readonly with
    | none => exact iff_of_true ⟨s, rfl⟩ (by rintro ⟨⟩)
    | some readonly =>
      cases readonly with
      | false => exact iff_of_true ⟨s, rfl⟩ (by rintro ⟨⟩)
      | true =>
        constructor
        · rintro ⟨s', hRun⟩ _
          exact (remount_ok_iff.mp hRun).2
        · intro h
          exact ⟨s, remount_ok_iff.mpr ⟨rfl, h rfl⟩⟩
  cases capabilities with
  | none =>
    have hFull : (CapSets.full last).effective.getLsbD CAP_SYS_ADMIN = true :=
      full_bit (by decide) hLast
    refine (hRemount (s := CapSets.full last)).trans ?_
    rw [hFull]
    simp
  | some caps =>
    have hOnly : (∀ caps' ∈ some caps, caps'.Grantable readonly) ↔ caps.Grantable readonly := by
      simp
    rw [hOnly]
    constructor
    · rintro ⟨s', hRun⟩
      obtain ⟨_, t, hApply, hRest⟩ := bind_ok_iff.mp hRun
      obtain ⟨hKnown, hEffective, hInheritable⟩ :=
        (applyCapabilities_granted_iff hLast).mp ⟨t, hApply⟩
      have hGranted := (applyCapabilities_grants _ caps _).2 hKnown t hApply
      have hReadonly := hRemount.mp ⟨s', hRest⟩
      exact ⟨⟨hKnown, hEffective, hInheritable, fun h =>
        (hGranted.effective _).mp (hReadonly h).1⟩, fun h => (hReadonly h).2⟩
    · rintro ⟨⟨hKnown, hEffective, hInheritable, hAdmin⟩, hAllowed⟩
      obtain ⟨t, hApply⟩ := (applyCapabilities_granted_iff hLast).mpr
        ⟨hKnown, hEffective, hInheritable⟩
      have hGranted := (applyCapabilities_grants _ caps _).2 hKnown t hApply
      obtain ⟨s', hRest⟩ := hRemount.mpr fun h =>
        ⟨(hGranted.effective _).mpr (hAdmin h), hAllowed h⟩
      exact ⟨s', bind_ok_iff.mpr ⟨(), t, hApply, hRest⟩⟩

def specCaps : Capabilities where
  bounding := some ["CAP_AUDIT_WRITE", "CAP_KILL", "CAP_NET_BIND_SERVICE"]
  permitted := some ["CAP_AUDIT_WRITE", "CAP_KILL", "CAP_NET_BIND_SERVICE"]
  inheritable := some ["CAP_AUDIT_WRITE", "CAP_KILL", "CAP_NET_BIND_SERVICE"]
  effective := some ["CAP_AUDIT_WRITE", "CAP_KILL"]
  ambient := some ["CAP_NET_BIND_SERVICE"]

/-- The full example cannot be started: `CAP_SYS_ADMIN` is gone when the root is remounted. -/
theorem confine_ok_iff_spec :
    ¬ ∃ s', confine (Kernel.linux 40) none (some specCaps) (some true) (CapSets.full 40) =
      .ok () s' := by
  intro hRuns
  have hGrantable :=
    ((confine_ok_iff 40 (by decide) none (some specCaps) (some true)).mp hRuns).1 specCaps rfl
  obtain ⟨name, hName, hIndex⟩ := hGrantable.admin rfl
  have hNone : ∀ name ∈ specCaps.effective.getD [], capIndex name ≠ some CAP_SYS_ADMIN := by decide
  exact hNone name hName hIndex

end Dtrun.Credentials
