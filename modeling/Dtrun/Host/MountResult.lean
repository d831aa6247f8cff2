import Dtrun.Host.MountOptions

/-! # What stands at the destination

`apply_mount` hands all options to one `mount(2)` call. The call binds, remounts, changes
propagation or mounts a file system, and heeds only the flags that this one thing takes. While
`MountCall.perform` tells which mounts a call leaves, this is about what it makes of the one at its
target.
-/
namespace Dtrun.Mounts
set_option autoImplicit false
open Oci Occurrences

inductive Propagation where
  | MS_PRIVATE | MS_SHARED | MS_SLAVE | MS_UNBINDABLE
  deriving DecidableEq

inductive Content where
  | filesystem (fstype source : String)
  | bind (source : String) (recursive : Bool)
  deriving DecidableEq

structure Standing where
  content : Content
  rdonly : Bool
  nosuid : Bool
  nodev : Bool
  noexec : Bool
  propagation : Propagation
  /-- the propagation of the mounts beneath it -/
  beneath : List Propagation
  deriving DecidableEq

structure Namespace where
  /-- the mount at a path, if it is a mount point -/
  top : String → Option Standing
  /-- the mount that a path leads into -/
  within : String → Standing
  /-- what a new mount at a path has for its propagation -/
  fresh : String → Propagation
  present : String → Bool
  createDirAll : String → Bool
  /-- whether nothing else stands against a call -/
  grants : MountCall → Bool

def MsFlags.has (f : MsFlags) : Propagation → Bool
  | .MS_PRIVATE => f.MS_PRIVATE
  | .MS_SHARED => f.MS_SHARED
  | .MS_SLAVE => f.MS_SLAVE
  | .MS_UNBINDABLE => f.MS_UNBINDABLE

def MsFlags.propagation (f : MsFlags) : Option Propagation :=
  if f.MS_PRIVATE then some .MS_PRIVATE else if f.MS_SHARED then some .MS_SHARED
  else if f.MS_SLAVE then some .MS_SLAVE else if f.MS_UNBINDABLE then some .MS_UNBINDABLE else none

namespace Namespace

variable (k : Namespace)

def effect (call : MountCall) : Option Standing :=
  let f := call.flags
  if f.MS_REMOUNT then
    (k.top call.target).map fun x => { x with
      rdonly := f.MS_RDONLY, nosuid := f.MS_NOSUID, nodev := f.MS_NODEV, noexec := f.MS_NOEXEC }
  else if f.MS_BIND then
    call.source.map fun source =>
      let x := k.within source
      { x with
        content := .bind source f.MS_REC, beneath := if f.MS_REC then x.beneath else [] }
  else
    match f.propagation with
    | some kind =>
      if f.Propagates then
        (k.top call.target).map fun x => { x with
          propagation := kind
          beneath := if f.MS_REC then x.beneath.map fun _ => kind else x.beneath }
      else none
    | none =>
      call.fstype.map fun fstype =>
        { content := .filesystem fstype (call.source.getD "")
          rdonly := f.MS_RDONLY, nosuid := f.MS_NOSUID, nodev := f.MS_NODEV, noexec := f.MS_NOEXEC
          propagation := k.fresh call.target, beneath := [] }

def mount (call : MountCall) : Option Standing := if k.grants call then k.effect call else none

inductive MountError where
  | mkdir | mount
  deriving DecidableEq

def applyMount (m : Mount) : Except MountError Standing :=
  if !k.present m.destination && !k.createDirAll m.destination then .error .mkdir else
  match k.mount (applyMountCall m) with
  | none => .error .mount
  | some x => .ok x

end Namespace

/-- A word for a propagation, and whether it is for the mounts beneath too. -/
def propagationWord : String → Option (Propagation × Bool)
  | "private" => some (.MS_PRIVATE, false)
  | "rprivate" => some (.MS_PRIVATE, true)
  | "shared" => some (.MS_SHARED, false)
  | "rshared" => some (.MS_SHARED, true)
  | "slave" => some (.MS_SLAVE, false)
  | "rslave" => some (.MS_SLAVE, true)
  | "unbindable" => some (.MS_UNBINDABLE, false)
  | "runbindable" => some (.MS_UNBINDABLE, true)
  | _ => none

def lastPropagation (opts : List String) : Option (Propagation × Bool) :=
  opts.reverse.findSome? propagationWord

def Propagated (opts : List String) (propagation : Propagation) (beneath : List Propagation) :
    Prop :=
  ∀ kind recursive, lastPropagation opts = some (kind, recursive) →
    propagation = kind ∧ (recursive = true → ∀ other ∈ beneath, other = kind)

structure Restricted (opts : List String) (x : Standing) : Prop where
  rdonly : lastOf "ro" "rw" opts = some "ro" → x.rdonly = true
  nosuid : lastOf "nosuid" "suid" opts = some "nosuid" → x.nosuid = true
  nodev : lastOf "nodev" "dev" opts = some "nodev" → x.nodev = true
  noexec : lastOf "noexec" "exec" opts = some "noexec" → x.noexec = true

def AsksBind (opts : List String) : Prop := "bind" ∈ opts ∨ "rbind" ∈ opts

instance (opts : List String) : Decidable (AsksBind opts) := inferInstanceAs (Decidable (_ ∨ _))

structure Asked (m : Mount) (x : Standing) : Prop where
  filesystem : "remount" ∉ m.options.getD [] → ¬ AsksBind (m.options.getD []) →
    ∀ fstype ∈ m.fstype, x.content = .filesystem fstype (m.source.getD "")
  bind : "remount" ∉ m.options.getD [] → AsksBind (m.options.getD []) →
    x.content = .bind (m.source.getD "") ("rbind" ∈ m.options.getD [])
  restricted : Restricted (m.options.getD []) x
  propagated : Propagated (m.options.getD []) x.propagation x.beneath

variable {m : Mount} {flags : MsFlags} {opt : String} {k : Namespace}

theorem parseMountFlags_sticky (flag : MsFlags → Bool) (sets : String → Bool)
    (hStart : flag {} = false)
    (hOption : ∀ flags opt, flag (flags.option opt) = (flag flags || sets opt)) (m : Mount) :
    flag (parseMountFlags m) = true ↔ ∃ opt ∈ m.options.getD [], sets opt = true := by
  have hAll (opts : List String) (flags : MsFlags) :
      flag (opts.foldl MsFlags.option flags) = (flag flags || opts.any sets) := by
    induction opts generalizing flags with
    | nil => simp
    | cons opt opts ih => rw [List.foldl_cons, ih, hOption, List.any_cons, Bool.or_assoc]
  rw [parseMountFlags, hAll, hStart, Bool.false_or, List.any_eq_true]

theorem parseMountFlags_bind :
    (parseMountFlags m).MS_BIND = true ↔ AsksBind (m.options.getD []) := by
  have hOption (flags : MsFlags) (opt : String) : (flags.option opt).MS_BIND =
      (flags.MS_BIND || decide (opt = "bind" ∨ opt = "rbind")) := by
    unfold MsFlags.option
    split <;> simp_all
  rw [parseMountFlags_sticky MsFlags.MS_BIND _ rfl hOption]
  simp only [decide_eq_true_eq, AsksBind]
  constructor
  · rintro ⟨_, hMem, rfl | rfl⟩
    · exact .inl hMem
    · exact .inr hMem
  · rintro (hMem | hMem)
    · exact ⟨_, hMem, .inl rfl⟩
    · exact ⟨_, hMem, .inr rfl⟩

theorem parseMountFlags_remount :
    (parseMountFlags m).MS_REMOUNT = true ↔ "remount" ∈ m.options.getD [] := by
  have hOption (flags : MsFlags) (opt : String) : (flags.option opt).MS_REMOUNT =
      (flags.MS_REMOUNT || decide (opt = "remount")) := by
    unfold MsFlags.option
    split <;> simp_all
  rw [parseMountFlags_sticky MsFlags.MS_REMOUNT _ rfl hOption]
  simp

/-- The words that ask for the mounts beneath to be changed too. -/
def Recursive (opt : String) : Prop := ∃ kind, propagationWord opt = some (kind, true)

theorem parseMountFlags_rec : (parseMountFlags m).MS_REC = true ↔
    "rbind" ∈ m.options.getD [] ∨ ∃ opt ∈ m.options.getD [], Recursive opt := by
  have hOption (flags : MsFlags) (opt : String) : (flags.option opt).MS_REC =
      (flags.MS_REC || decide (opt = "rbind" ∨ (propagationWord opt).any Prod.snd)) := by
    unfold MsFlags.option
    split <;> simp_all [propagationWord]
  have hRecursive (opt : String) : (propagationWord opt).any Prod.snd = true ↔ Recursive opt := by
    rw [Recursive]
    cases propagationWord opt with
    | none => simp
    | some word =>
      cases word with
      | mk kind recursive => simp
  rw [parseMountFlags_sticky MsFlags.MS_REC _ rfl hOption]
  simp only [decide_eq_true_eq, hRecursive]
  constructor
  · rintro ⟨opt, hMem, rfl | hWord⟩
    · exact .inl hMem
    · exact .inr ⟨opt, hMem, hWord⟩
  · rintro (hMem | ⟨opt, hMem, hWord⟩)
    · exact ⟨_, hMem, .inl rfl⟩
    · exact ⟨opt, hMem, .inr hWord⟩

theorem parseMountFlags_has (kind : Propagation) : (parseMountFlags m).has kind = true ↔
    ∃ opt ∈ m.options.getD [], ∃ recursive, propagationWord opt = some (kind, recursive) := by
  have hOption (flags : MsFlags) (opt : String) : (flags.option opt).has kind =
      (flags.has kind || (propagationWord opt).any fun word => word.1 = kind) := by
    unfold MsFlags.option
    cases kind <;> split <;> simp_all [propagationWord, MsFlags.has]
  have hStart : ({} : MsFlags).has kind = false := by
    cases kind <;> rfl
  rw [parseMountFlags_sticky (fun f => f.has kind) _ hStart hOption]
  constructor
  · rintro ⟨opt, hMem, hWord⟩
    obtain ⟨⟨kind', recursive⟩, hSome, hKind⟩ := (Option.any_eq_true _ _).mp hWord
    obtain rfl : kind' = kind := of_decide_eq_true hKind
    exact ⟨opt, hMem, recursive, hSome⟩
  · rintro ⟨opt, hMem, recursive, hWord⟩
    exact ⟨opt, hMem, by rw [hWord]; exact decide_eq_true rfl⟩

theorem applyMountFlags_eq : applyMountFlags m = parseMountFlags m ∨
    applyMountFlags m = { parseMountFlags m with MS_RDONLY := true } := by
  rw [applyMountFlags]
  split
  · exact .inr rfl
  · exact .inl rfl

theorem applyMountFlags_bind :
    (applyMountFlags m).MS_BIND = true ↔ AsksBind (m.options.getD []) := by
  rw [← parseMountFlags_bind]
  rcases @applyMountFlags_eq m with h | h <;> rw [h]

theorem applyMountFlags_remount :
    (applyMountFlags m).MS_REMOUNT = true ↔ "remount" ∈ m.options.getD [] := by
  rw [← parseMountFlags_remount]
  rcases @applyMountFlags_eq m with h | h <;> rw [h]

theorem applyMountFlags_rec : (applyMountFlags m).MS_REC = true ↔
    "rbind" ∈ m.options.getD [] ∨ ∃ opt ∈ m.options.getD [], Recursive opt := by
  rw [← parseMountFlags_rec]
  rcases @applyMountFlags_eq m with h | h <;> rw [h]

theorem applyMountFlags_has (kind : Propagation) : (applyMountFlags m).has kind = true ↔
    ∃ opt ∈ m.options.getD [], ∃ recursive, propagationWord opt = some (kind, recursive) := by
  rw [← parseMountFlags_has]
  rcases @applyMountFlags_eq m with h | h
  · rw [h]
  · rw [h]
    cases kind with
    | MS_PRIVATE => rfl
    | MS_SHARED => rfl
    | MS_SLAVE => rfl
    | MS_UNBINDABLE => rfl

theorem restricted_of_flags {x : Standing} (hRdonly : x.rdonly = (applyMountFlags m).MS_RDONLY)
    (hNosuid : x.nosuid = (applyMountFlags m).MS_NOSUID)
    (hNodev : x.nodev = (applyMountFlags m).MS_NODEV)
    (hNoexec : x.noexec = (applyMountFlags m).MS_NOEXEC) :
    Restricted (m.options.getD []) x := by
  constructor
  · intro h
    rw [hRdonly, applyMountFlags_rdonly]
    exact .inl ((lastOf_eq_some_iff (by decide) _).mp h).1
  · intro h
    rw [hNosuid, ← (parseMountFlags_toggle rfl (fun _ _ => nosuid_option) (by decide) m).mpr h]
    rcases @applyMountFlags_eq m with h | h <;> rw [h]
  · intro h
    rw [hNodev, ← (parseMountFlags_toggle rfl (fun _ _ => nodev_option) (by decide) m).mpr h]
    rcases @applyMountFlags_eq m with h | h <;> rw [h]
  · intro h
    rw [hNoexec, ← (parseMountFlags_toggle rfl (fun _ _ => noexec_option) (by decide) m).mpr h]
    rcases @applyMountFlags_eq m with h | h <;> rw [h]

theorem MsFlags.propagation_eq_none {f : MsFlags} :
    f.propagation = none ↔ ∀ kind, f.has kind = false := by
  constructor
  · intro h kind
    revert h
    cases kind <;> simp only [has, propagation] <;>
      cases f.MS_PRIVATE <;> cases f.MS_SHARED <;> cases f.MS_SLAVE <;> cases f.MS_UNBINDABLE <;>
      decide
  · intro h
    have hPrivate := h .MS_PRIVATE
    have hShared := h .MS_SHARED
    have hSlave := h .MS_SLAVE
    have hUnbindable := h .MS_UNBINDABLE
    simp_all [propagation, has]

theorem MsFlags.Propagates.kind {f : MsFlags} (h : f.Propagates) {kind : Propagation}
    (hKind : f.has kind = true) : f.propagation = some kind := by
  obtain ⟨hOne, _⟩ := h
  revert hOne hKind
  cases kind <;> simp only [has, propagation] <;>
    cases f.MS_PRIVATE <;> cases f.MS_SHARED <;> cases f.MS_SLAVE <;> cases f.MS_UNBINDABLE <;>
    decide

theorem MsFlags.Propagates.ne_none {f : MsFlags} (h : f.Propagates) : f.propagation ≠ none := by
  obtain ⟨hOne, _⟩ := h
  revert hOne
  unfold propagation
  cases f.MS_PRIVATE <;> cases f.MS_SHARED <;> cases f.MS_SLAVE <;> cases f.MS_UNBINDABLE <;>
    decide

theorem MsFlags.Propagates.plain {f : MsFlags} (h : f.Propagates) :
    f.MS_NOSUID = false ∧ f.MS_NOEXEC = false ∧ f.MS_NODEV = false ∧ f.MS_RDONLY = false := by
  obtain ⟨_, hNone⟩ := h
  revert hNone
  cases f.MS_NOSUID <;> cases f.MS_NOEXEC <;> cases f.MS_NODEV <;> cases f.MS_RDONLY <;> decide

/-- A change of propagation is asked to restrict nothing. -/
theorem restricted_of_propagates (h : (applyMountFlags m).Propagates) (x : Standing) :
    Restricted (m.options.getD []) x := by
  obtain ⟨hNosuid, hNoexec, hNodev, hRdonly⟩ := h.plain
  have hPlain : Restricted (m.options.getD [])
      { x with rdonly := false, nosuid := false, nodev := false, noexec := false } :=
    restricted_of_flags hRdonly.symm hNosuid.symm hNodev.symm hNoexec.symm
  constructor
  · exact fun hAsked => absurd (hPlain.rdonly hAsked) Bool.false_ne_true
  · exact fun hAsked => absurd (hPlain.nosuid hAsked) Bool.false_ne_true
  · exact fun hAsked => absurd (hPlain.nodev hAsked) Bool.false_ne_true
  · exact fun hAsked => absurd (hPlain.noexec hAsked) Bool.false_ne_true

theorem lastPropagation_mem {opts : List String} {word : Propagation × Bool}
    (h : lastPropagation opts = some word) : ∃ opt ∈ opts, propagationWord opt = some word := by
  obtain ⟨opt, hMem, hWord⟩ := List.exists_of_findSome?_eq_some h
  exact ⟨opt, List.mem_reverse.mp hMem, hWord⟩

theorem lastPropagation_eq_none {opts : List String} :
    lastPropagation opts = none ↔ ∀ opt ∈ opts, propagationWord opt = none := by
  rw [lastPropagation, List.findSome?_eq_none_iff]
  simp only [List.mem_reverse]

namespace Namespace

/-- The destination can be had and nothing stands against the call. -/
def Admits (k : Namespace) (m : Mount) : Prop :=
  (k.present m.destination = true ∨ k.createDirAll m.destination = true) ∧
    k.grants (applyMountCall m) = true

theorem applyMount_ok {x : Standing} : k.applyMount m = .ok x ↔
    k.Admits m ∧ k.effect (applyMountCall m) = some x := by
  rw [applyMount, Admits, mount]
  cases k.present m.destination <;> cases k.createDirAll m.destination <;>
    cases k.grants (applyMountCall m) <;> cases k.effect (applyMountCall m) <;> simp

/-- What the options come to beside what stood there before, or at the source. -/
def Suits (k : Namespace) (m : Mount) : Prop :=
  if "remount" ∈ m.options.getD [] then
    ∀ before ∈ k.top m.destination,
      Propagated (m.options.getD []) before.propagation before.beneath
  else if AsksBind (m.options.getD []) then
    ("rbind" ∈ m.options.getD [] ∨ ∀ opt ∈ m.options.getD [], ¬ Recursive opt) ∧
      Restricted (m.options.getD []) (k.within (m.source.getD "")) ∧
      Propagated (m.options.getD []) (k.within (m.source.getD "")).propagation
        (if "rbind" ∈ m.options.getD [] then (k.within (m.source.getD "")).beneath else [])
  else
    (applyMountFlags m).Propagates → ∀ before ∈ k.top m.destination, ∀ fstype ∈ m.fstype,
      before.content = .filesystem fstype (m.source.getD "")

theorem asked_remount (hRemount : "remount" ∈ m.options.getD []) :
    (∀ x, k.effect (applyMountCall m) = some x → Asked m x) ↔
      ∀ before ∈ k.top m.destination,
        Propagated (m.options.getD []) before.propagation before.beneath := by
  have hFlag : (applyMountCall m).flags.MS_REMOUNT = true := applyMountFlags_remount.mpr hRemount
  rw [effect, if_pos hFlag]
  change (∀ x, (k.top m.destination).map _ = some x → Asked m x) ↔ _
  cases k.top m.destination with
  | none => simp
  | some before =>
    simp only [Option.map_some, Option.some.injEq, forall_eq', Option.mem_def]
    constructor
    · exact Asked.propagated
    · intro h
      exact ⟨fun hNot => absurd hRemount hNot, fun hNot => absurd hRemount hNot,
        restricted_of_flags rfl rfl rfl rfl, h⟩

/-- Of the flags of a bind only `MS_REC` counts. -/
theorem asked_bind (hRemount : "remount" ∉ m.options.getD [])
    (hBind : AsksBind (m.options.getD [])) :
    (∀ x, k.effect (applyMountCall m) = some x → Asked m x) ↔
      ("rbind" ∈ m.options.getD [] ∨ ∀ opt ∈ m.options.getD [], ¬ Recursive opt) ∧
        Restricted (m.options.getD []) (k.within (m.source.getD "")) ∧
        Propagated (m.options.getD []) (k.within (m.source.getD "")).propagation
          (if "rbind" ∈ m.options.getD [] then (k.within (m.source.getD "")).beneath else []) := by
  have hRemountFlag : ¬ (applyMountCall m).flags.MS_REMOUNT = true :=
    fun h => hRemount (applyMountFlags_remount.mp h)
  have hBindFlag : (applyMountCall m).flags.MS_BIND = true := applyMountFlags_bind.mpr hBind
  have hRec : (applyMountFlags m).MS_REC = decide ("rbind" ∈ m.options.getD []) ↔
      "rbind" ∈ m.options.getD [] ∨ ∀ opt ∈ m.options.getD [], ¬ Recursive opt := by
    rw [Bool.eq_iff_iff, applyMountFlags_rec, decide_eq_true_eq]
    by_cases hRbind : "rbind" ∈ m.options.getD []
    · simp [hRbind]
    · simp [hRbind]
  rw [effect, if_neg hRemountFlag, if_pos hBindFlag]
  simp only [applyMountCall, Option.map_some, Option.some.injEq, forall_eq']
  constructor
  · intro h
    have hSame : (applyMountFlags m).MS_REC = decide ("rbind" ∈ m.options.getD []) :=
      (Content.bind.inj (h.bind hRemount hBind)).2
    refine ⟨hRec.mp hSame, ⟨h.restricted.1, h.restricted.2, h.restricted.3, h.restricted.4⟩, ?_⟩
    have hPropagated := h.propagated
    simpa only [hSame, decide_eq_true_eq] using hPropagated
  · rintro ⟨hWord, hRestricted, hPropagated⟩
    have hSame := hRec.mpr hWord
    refine ⟨fun _ hNot => absurd hBind hNot, fun _ _ => congrArg (Content.bind _) hSame, ?_, ?_⟩
    · exact ⟨hRestricted.1, hRestricted.2, hRestricted.3, hRestricted.4⟩
    · simpa only [hSame, decide_eq_true_eq] using hPropagated

/-- Without a bind or a remount, a word for propagation has nothing mounted. -/
theorem asked_filesystem (hRemount : "remount" ∉ m.options.getD [])
    (hBind : ¬ AsksBind (m.options.getD [])) :
    (∀ x, k.effect (applyMountCall m) = some x → Asked m x) ↔
      ((applyMountFlags m).Propagates → ∀ before ∈ k.top m.destination, ∀ fstype ∈ m.fstype,
        before.content = .filesystem fstype (m.source.getD "")) := by
  have hRemountFlag : ¬ (applyMountCall m).flags.MS_REMOUNT = true :=
    fun h => hRemount (applyMountFlags_remount.mp h)
  have hBindFlag : ¬ (applyMountCall m).flags.MS_BIND = true :=
    fun h => hBind (applyMountFlags_bind.mp h)
  have hRec : (applyMountCall m).flags = applyMountFlags m := rfl
  rw [effect, if_neg hRemountFlag, if_neg hBindFlag, hRec]
  cases hKind : (applyMountFlags m).propagation with
  | none =>
    have hLast : lastPropagation (m.options.getD []) = none := by
      rw [lastPropagation_eq_none]
      intro opt hMem
      cases hWord : propagationWord opt with
      | none => rfl
      | some word =>
        have hHas := (applyMountFlags_has word.1).mpr ⟨opt, hMem, word.2, hWord⟩
        rw [MsFlags.propagation_eq_none.mp hKind word.1] at hHas
        cases hHas
    refine iff_of_true (fun x hx => ?_) fun h => absurd hKind h.ne_none
    obtain ⟨fstype, hType, rfl⟩ := Option.map_eq_some_iff.mp hx
    have hMine : m.fstype = some fstype := hType
    constructor
    · intro _ _ other hOther
      cases hMine.symm.trans hOther
      rfl
    · exact fun _ hAsks => absurd hAsks hBind
    · exact restricted_of_flags rfl rfl rfl rfl
    · intro kind recursive h
      cases hLast.symm.trans h
  | some kind =>
    by_cases hPropagates : (applyMountFlags m).Propagates
    · have hTop : k.top (applyMountCall m).target = k.top m.destination := rfl
      simp only [hTop, hPropagates, if_true, true_implies]
      cases k.top m.destination with
      | none => simp
      | some before =>
        simp only [Option.map_some, Option.some.injEq, forall_eq', Option.mem_def]
        constructor
        · intro h
          exact h.filesystem hRemount hBind
        · intro h
          refine ⟨fun _ _ => h, fun _ hAsks => absurd hAsks hBind,
            restricted_of_propagates hPropagates _, fun kind' recursive hLast => ?_⟩
          obtain ⟨opt, hMem, hWord⟩ := lastPropagation_mem hLast
          have hHas := (applyMountFlags_has kind').mpr ⟨opt, hMem, recursive, hWord⟩
          cases hKind.symm.trans (hPropagates.kind hHas)
          refine ⟨rfl, ?_⟩
          rintro rfl other hOther
          have hFlag := applyMountFlags_rec.mpr (.inr ⟨opt, hMem, kind, hWord⟩)
          simp only [hFlag, if_true, List.mem_map] at hOther
          obtain ⟨_, _, rfl⟩ := hOther
          rfl
    · simp [hPropagates]

/-- The mount is what its options ask for, whenever the call succeeds, exactly when they suit what
is there. -/
theorem applyMount_asked_iff (k : Namespace) (m : Mount) :
    (∀ x, k.applyMount m = .ok x → Asked m x) ↔ (k.Admits m → k.Suits m) := by
  by_cases hAdmits : k.Admits m
  · simp only [applyMount_ok, hAdmits, true_and, true_implies, Suits]
    split
    · exact asked_remount ‹_›
    · split
      · exact asked_bind ‹_› ‹_›
      · exact asked_filesystem ‹_› ‹_›
  · simp [applyMount_ok, hAdmits]

/-- Every path leads into one writable mount, and nothing fails. -/
def plain : Namespace where
  top _ := none
  within _ :=
    { content := .filesystem "ext4" "/dev/sda1"
      rdonly := false, nosuid := false, nodev := false, noexec := false
      propagation := .MS_PRIVATE, beneath := [] }
  fresh _ := .MS_PRIVATE
  present _ := true
  createDirAll _ := true
  grants _ := true

/-- A read-only bind leaves the destination writable. -/
theorem not_applyMount_asked : ¬ ∀ (k : Namespace) (m : Mount) (x : Standing),
    k.applyMount m = .ok x → Asked m x := by
  intro hAll
  let m : Mount :=
    { destination := "/data", source := some "/srv/data", options := some ["bind", "ro"] }
  let x : Standing := { plain.within "" with content := .bind "/srv/data" false }
  have hRun : plain.applyMount m = .ok x := by decide +kernel
  have hLast : lastOf "ro" "rw" (m.options.getD []) = some "ro" := by decide +kernel
  exact Bool.false_ne_true ((hAll plain m x hRun).restricted.rdonly hLast)

end Namespace

end Dtrun.Mounts
