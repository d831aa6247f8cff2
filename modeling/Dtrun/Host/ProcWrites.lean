import Dtrun.Host.Child

/-! # The writes under `/proc`

The sysctls and the OOM score are written through whatever the entries of `mounts` have put over
`/proc`. An entry of type proc that says neither `ro` nor `rw` is made read-only by `apply_mount`,
and a write that meets the flags of such an entry is refused.
-/
namespace Dtrun.Child
set_option autoImplicit false
open MountTable Oci Mounts StateExcept

/-- Who set the flags of a mount last. -/
inductive Setter where
  | entry (m : Mount)
  | other (readonly : Bool)
  deriving DecidableEq

def Setter.marks : Marks Setter where
  entry := .entry
  other := .other
  readonly
    | .entry m => (applyMountFlags m).MS_RDONLY
    | .other readonly => readonly

/-- The flag is there because `apply_mount` put it there. -/
def Setter.Added : Setter → Prop
  | .entry m => (applyMountFlags m).MS_RDONLY = true ∧ (parseMountFlags m).MS_RDONLY = false
  | .other _ => False

/-- A proc entry that says neither `ro` nor `rw`. -/
def Setter.Silent : Setter → Prop
  | .entry m => SilentProc m
  | .other _ => False

theorem Setter.added_iff {s : Setter} : s.Added ↔ s.Silent := by
  cases s with
  | entry m =>
    rw [Added, Silent, applyMountFlags_rdonly, ← Bool.not_eq_true, parseMountFlags_rdonly]
    exact ⟨fun h => h.1.resolve_left h.2, fun h => ⟨.inr h, h.2.1⟩⟩
  | other readonly => rfl

theorem Setter.readonly_of_silent {s : Setter} (h : s.Silent) : marks.readonly s = true := by
  cases s with
  | entry m => exact applyMountFlags_rdonly.mpr (.inr h)
  | other readonly => exact h.elim

/-- A write that setup gets to if nothing before it fails, and the mounts by then. -/
structure Attempt (α : Type) where
  step : Nat
  path : String
  data : String
  view : View String α

section Plan

variable {α : Type} (k : Marks α) (env : Env) (v : View String α)

def Attempt.lead (w : Attempt α) : Option (Mounted String α) :=
  (env.place w.step w.path).map w.view.covering

def Attempt.accepted (w : Attempt α) : Bool :=
  match w.lead env with
  | none => false
  | some m => !k.readonly m.own && !k.readonly m.shared && env.writes w.step w.path w.data

/-- The entry has a directory to be mounted on, and the kernel does what it asks for. -/
def EntryDone (n : Nat) (m : Mount) : Prop :=
  (env.present n m.destination || env.createDirAll n m.destination) = true ∧
    Granted v.covering (asked k env n (applyMountCall m) (k.entry m))

/-- All entries are done, each with the mounts that those before it leave. -/
def EntriesDone (n : Nat) (ms : List Mount) : Prop :=
  ∀ before m after, ms = before ++ m :: after →
    EntryDone k env (v.after (changesOf 1 (entryChanges k env) n before)) (n + before.length) m

def sysctlAttempts (n : Nat) (sysctls : List (String × String)) : List (Attempt α) :=
  (sysctls.zipIdx n).map fun ((key, value), i) => ⟨i, sysctlPath key, value, v⟩

def oomAttempts (n : Nat) (config : OciConfig) : List (Attempt α) :=
  (config.process.bind Process.oomScoreAdj).toList.map fun adj =>
    ⟨n, oomScoreAdjPath, s!"{adj}\n", v⟩

/-- The writes of a setup: the sysctls after the entries and the devices, the OOM score after the
masked and the read-only paths. -/
def attempts (config : OciConfig) (netMode : NetMode) (hostDevices : List (String × Nat)) :
    List (Attempt α) :=
  let ms := config.mounts.getD []
  let n := ms.length + hostDevices.length
  let n' := n + (sysctls config netMode).length
  let n'' := n' + (maskedPaths config).length
  let v' := (v.after (changesOf 1 (entryChanges k env) 0 ms)).after
    (changesOf 1 (deviceChanges k env) ms.length hostDevices)
  let v'' := (v'.after (changesOf 1 (maskChanges k env) n' (maskedPaths config))).after
    (changesOf 2 (readonlyChanges k env) n'' (readonlyPaths config))
  sysctlAttempts v' n (sysctls config netMode) ++
    oomAttempts v'' (n'' + 2 * (readonlyPaths config).length) config

def Attempt.note (w : Attempt α) : List (Write α) :=
  (w.lead env).toList.map fun m => ⟨w.path, w.data, m.own, m.shared⟩

def written : List (Attempt α) → List (Write α)
  | [] => []
  | w :: ws => w.note env ++ if w.accepted k env then written ws else []

end Plan

variable {α : Type} {k : Marks α} {env : Env} {v : View String α} {c : Setup α}

theorem written_append (ws ws' : List (Attempt α)) :
    written k env (ws ++ ws') =
      written k env ws ++ if ws.all (Attempt.accepted k env) then written k env ws' else [] := by
  induction ws with
  | nil => rfl
  | cons w ws ih =>
    rw [List.cons_append, written, written, List.all_cons]
    cases w.accepted k env with
    | false => simp
    | true => simp [ih]

theorem forall_written {P : Write α → Prop} (ws : List (Attempt α)) :
    (∀ x ∈ written k env ws, P x) ↔
      ∀ before w after, ws = before ++ w :: after → (∀ w' ∈ before, w'.accepted k env = true) →
        ∀ x ∈ w.note env, P x := by
  induction ws with
  | nil => simp [written]
  | cons w ws ih =>
    rw [written, List.forall_mem_append]
    constructor
    · rintro ⟨hFirst, hRest⟩ before w' after hSplit hBefore
      cases before with
      | nil =>
        cases hSplit
        exact hFirst
      | cons _ before =>
        obtain ⟨rfl, rfl⟩ := List.cons.inj hSplit
        obtain ⟨hAccepted, hBefore⟩ := List.forall_mem_cons.mp hBefore
        rw [if_pos hAccepted] at hRest
        exact ih.mp hRest before w' after rfl hBefore
    · intro h
      refine ⟨h [] w ws rfl (fun _ hw => absurd hw List.not_mem_nil), ?_⟩
      split
      · rename_i hAccepted
        refine ih.mpr fun before w' after hSplit hBefore => ?_
        exact h (w :: before) w' after (by rw [hSplit]; rfl)
          (List.forall_mem_cons.mpr ⟨hAccepted, hBefore⟩)
      · exact fun _ hx => absurd hx List.not_mem_nil

theorem entriesDone_cons {n : Nat} {m : Mount} {ms : List Mount} :
    EntriesDone k env v n (m :: ms) ↔ EntryDone k env v n m ∧
      EntriesDone k env (v.after (entryChanges k env n m)) (n + 1) ms := by
  have hAfter (before : List Mount) :
      v.after (changesOf 1 (entryChanges k env) n (m :: before)) =
        (v.after (entryChanges k env n m)).after
          (changesOf 1 (entryChanges k env) (n + 1) before) := List.foldl_append
  constructor
  · intro h
    refine ⟨h [] m ms rfl, fun before m' after hSplit => ?_⟩
    have hNext := h (m :: before) m' after (by rw [hSplit]; rfl)
    rwa [hAfter, List.length_cons, Nat.add_comm before.length, ← Nat.add_assoc] at hNext
  · rintro ⟨hFirst, hRest⟩ before m' after hSplit
    cases before with
    | nil =>
      cases hSplit
      exact hFirst
    | cons _ before =>
      obtain ⟨rfl, rfl⟩ := List.cons.inj hSplit
      rw [hAfter, List.length_cons, Nat.add_comm before.length, ← Nat.add_assoc]
      exact hRest before m' after rfl

theorem applyMount_done (m : Mount) (h : EntryDone k env c.table.view c.clock m) :
    applyMount k env m c = .ok () { c with
      table := c.table.after (entryChanges k env c.clock m), clock := c.clock + 1 } := by
  obtain ⟨hDirectory, hGranted⟩ := h
  have hMount : (do unless ← mount k env c.clock (applyMountCall m) (k.entry m) do
      throw (.mount m.destination) : SetupM α Unit) { c with clock := c.clock + 1 } =
      .ok () { c with
        table := c.table.after (entryChanges k env c.clock m), clock := c.clock + 1 } := by
    rw [bind_apply, mount_apply]
    simp only [show Granted c.table.covering _ from hGranted, decide_true]
    rfl
  rw [applyMount, bind_of_ok (show tick c = .ok c.clock { c with clock := c.clock + 1 } from rfl)]
  cases hPresent : env.present c.clock m.destination with
  | true => exact hMount
  | false =>
    rw [hPresent, Bool.false_or] at hDirectory
    simp only [hDirectory]
    exact hMount

theorem applyMount_not_done (m : Mount) (h : ¬ EntryDone k env c.table.view c.clock m) :
    ∃ e c', applyMount k env m c = .error e c' ∧ c'.writes = c.writes := by
  have hMount (hGranted : ¬ Granted c.table.view.covering
      (asked k env c.clock (applyMountCall m) (k.entry m))) : ∃ e c',
      (do unless ← mount k env c.clock (applyMountCall m) (k.entry m) do
        throw (.mount m.destination) : SetupM α Unit) { c with clock := c.clock + 1 } =
        .error e c' ∧ c'.writes = c.writes := by
    rw [bind_apply, mount_apply]
    simp only [show ¬ Granted c.table.covering _ from hGranted, decide_false]
    exact ⟨_, _, rfl, rfl⟩
  rw [applyMount, bind_of_ok (show tick c = .ok c.clock { c with clock := c.clock + 1 } from rfl)]
  cases hPresent : env.present c.clock m.destination with
  | true => exact hMount fun hGranted => h ⟨by rw [hPresent]; rfl, hGranted⟩
  | false =>
    cases hMade : env.createDirAll c.clock m.destination with
    | true => exact hMount fun hGranted => h ⟨by rw [hPresent, hMade]; rfl, hGranted⟩
    | false => exact ⟨_, _, rfl, rfl⟩

theorem applyMounts_apply (ms : List Mount) (c : Setup α) (hRooted : c.table.Rooted) :
    (EntriesDone k env c.table.view c.clock ms ∧
      ms.forM (applyMount k env) c = .ok () { c with
        table := c.table.after (changesOf 1 (entryChanges k env) c.clock ms)
        clock := c.clock + ms.length }) ∨
    (¬ EntriesDone k env c.table.view c.clock ms ∧
      ∃ e c', ms.forM (applyMount k env) c = .error e c' ∧ c'.writes = c.writes) := by
  induction ms generalizing c with
  | nil => exact .inl ⟨fun before m after hSplit => by simp at hSplit, rfl⟩
  | cons m ms ih =>
    rw [entriesDone_cons]
    by_cases hFirst : EntryDone k env c.table.view c.clock m
    · have hRun := applyMount_done m hFirst
      obtain ⟨hRooted', hView⟩ := Table.after_view hRooted (entryChanges k env c.clock m)
      have hLoop : (m :: ms).forM (applyMount k env) c = ms.forM (applyMount k env) { c with
          table := c.table.after (entryChanges k env c.clock m), clock := c.clock + 1 } :=
        bind_of_ok hRun
      rw [hLoop, ← hView, changesOf, Table.after_append, List.length_cons, Nat.add_comm ms.length,
        ← Nat.add_assoc]
      rcases ih { c with table := c.table.after (entryChanges k env c.clock m)
                         clock := c.clock + 1 } hRooted' with ⟨hDone, hRest⟩ | ⟨hNot, hRest⟩
      · exact .inl ⟨⟨hFirst, hDone⟩, hRest⟩
      · exact .inr ⟨fun hBoth => hNot hBoth.2, hRest⟩
    · obtain ⟨e, c', hRun, hWrites⟩ := applyMount_not_done m hFirst
      refine .inr ⟨fun hBoth => hFirst hBoth.1, e, c', ?_, hWrites⟩
      change (applyMount k env m >>= fun _ => ms.forM (applyMount k env)) c = _
      rw [bind_apply, hRun]

theorem write_apply (path data : String) (c : Setup α) :
    let w : Attempt α := ⟨c.clock, path, data, c.table.view⟩
    write k env path data c = .ok (w.accepted k env)
      { c with clock := c.clock + 1, writes := c.writes ++ w.note env } := by
  intro w
  rw [Attempt.note, Attempt.accepted, Attempt.lead]
  cases hPlace : env.place w.step w.path with
  | none =>
    simp [write, tick, bind_apply, show env.place c.clock path = none from hPlace]
  | some p =>
    simp only [write, tick, bind_apply, modifyGet_apply, get_apply,
      show env.place c.clock path = some p from hPlace, modify_apply, pure_apply]
    rfl

theorem write_attempt (path data : String) (e : SetupError) (c : Setup α) :
    let w : Attempt α := ⟨c.clock, path, data, c.table.view⟩
    let c' := { c with clock := c.clock + 1, writes := c.writes ++ w.note env }
    (do unless ← write k env path data do throw e : SetupM α Unit) c =
      if w.accepted k env then .ok () c' else .error e c' := by
  intro w c'
  rw [bind_of_ok (write_apply path data c)]
  cases w.accepted k env with
  | true => rfl
  | false => rfl

theorem applySysctl_apply (l : List (String × String)) (c : Setup α) :
    let ws := sysctlAttempts c.table.view c.clock l
    (ws.all (Attempt.accepted k env) = true ∧ applySysctl k env l c = .ok () { c with
      clock := c.clock + l.length, writes := c.writes ++ written k env ws }) ∨
    (ws.all (Attempt.accepted k env) = false ∧ ∃ e c', applySysctl k env l c = .error e c' ∧
      c'.writes = c.writes ++ written k env ws) := by
  induction l generalizing c with
  | nil =>
    refine .inl ⟨rfl, ?_⟩
    rw [sysctlAttempts, List.zipIdx_nil, List.map_nil, written, List.append_nil]
    rfl
  | cons entry l ih =>
    obtain ⟨key, value⟩ := entry
    let w : Attempt α := ⟨c.clock, sysctlPath key, value, c.table.view⟩
    let d : Setup α := { c with clock := c.clock + 1, writes := c.writes ++ w.note env }
    have hFirst : (do unless ← write k env (sysctlPath key) value do throw (.sysctl key) :
        SetupM α Unit) c = if w.accepted k env then .ok () d else .error (.sysctl key) d :=
      write_attempt _ _ _ c
    have hAttempts : sysctlAttempts c.table.view c.clock ((key, value) :: l) =
        w :: sysctlAttempts c.table.view (c.clock + 1) l := by
      rw [sysctlAttempts, List.zipIdx_cons, List.map_cons]
      rfl
    have hLoop : applySysctl k env ((key, value) :: l) c =
        ((do unless ← write k env (sysctlPath key) value do throw (.sysctl key) : SetupM α Unit)
          >>= fun _ => applySysctl k env l) c := rfl
    rw [hLoop, hAttempts]
    simp only [List.all_cons, written]
    cases hAccepted : w.accepted k env with
    | false =>
      rw [hAccepted] at hFirst
      refine .inr ⟨rfl, .sysctl key, d, by rw [bind_apply, hFirst]; rfl, ?_⟩
      rw [if_neg Bool.false_ne_true, List.append_nil]
    | true =>
      rw [hAccepted] at hFirst
      rw [bind_of_ok hFirst, Bool.true_and, if_pos rfl, ← List.append_assoc, List.length_cons,
        Nat.add_comm l.length, ← Nat.add_assoc]
      exact ih d

def confineSetup {α : Type} (k : Marks α) (env : Env) (config : OciConfig) : SetupM α Unit := do
  unless env.capabilities do throw .capabilities
  if config.root.readonly.getD false then makeRootReadonly k env

theorem makeRootReadonly_keeps : Keeps Setup.writes (makeRootReadonly k env) := by
  refine Keeps.bind (fun _ => rfl) fun n => Keeps.bind (fun c => ?_) fun done => ?_
  · rw [KeepsAt, mountOwn, mount_apply]
    rfl
  · cases done with
    | true => exact .pure ()
    | false => exact .throw _

theorem confineSetup_keeps (config : OciConfig) : Keeps Setup.writes (confineSetup k env config) := by
  have hRoot : Keeps Setup.writes
      (do if config.root.readonly.getD false then makeRootReadonly k env : SetupM α Unit) := by
    split
    · exact makeRootReadonly_keeps
    · exact .pure ()
  rw [confineSetup]
  cases env.capabilities with
  | true => exact hRoot
  | false => exact .throw _

theorem finishSetup_writes (config : OciConfig) (c : Setup α) :
    let ws := oomAttempts c.table.view c.clock config
    (final (finishSetup k env config c)).writes = c.writes ++ written k env ws ∧
      (succeeded (finishSetup k env config c) = true →
        ws.all (Attempt.accepted k env) = true) := by
  rw [finishSetup, oomAttempts]
  cases config.process.bind Process.oomScoreAdj with
  | none => exact ⟨(confineSetup_keeps config c).trans (List.append_nil _).symm, fun _ => rfl⟩
  | some adj =>
    let w : Attempt α := ⟨c.clock, oomScoreAdjPath, s!"{adj}\n", c.table.view⟩
    let d : Setup α := { c with clock := c.clock + 1, writes := c.writes ++ w.note env }
    have hFirst : applyOomScoreAdj k env adj c =
        if w.accepted k env then .ok () d else .error .oomScoreAdj d := write_attempt _ _ _ c
    change (final ((applyOomScoreAdj k env adj >>= fun _ => confineSetup k env config) c)).writes =
        c.writes ++ written k env [w] ∧
      (succeeded ((applyOomScoreAdj k env adj >>= fun _ => confineSetup k env config) c) = true →
        [w].all (Attempt.accepted k env) = true)
    have hWritten : written k env [w] = w.note env := by
      rw [written, written, ite_self, List.append_nil]
    rw [bind_apply, hFirst, hWritten, List.all_cons, List.all_nil, Bool.and_true]
    cases w.accepted k env with
    | true => exact ⟨confineSetup_keeps config d, fun _ => rfl⟩
    | false => exact ⟨rfl, fun hOk => by cases hOk⟩

theorem pathsAndFinish_writes (k : Marks α) (env : Env) (config : OciConfig) (c : Setup α)
    (hRooted : c.table.Rooted) :
    let r := (do
      applyMaskedPaths k env (maskedPaths config)
      applyReadonlyPaths k env (readonlyPaths config)
      finishSetup k env config : SetupM α Unit) c
    let n := c.clock + (maskedPaths config).length
    let ws := oomAttempts ((c.table.view.after
        (changesOf 1 (maskChanges k env) c.clock (maskedPaths config))).after
          (changesOf 2 (readonlyChanges k env) n (readonlyPaths config)))
      (n + 2 * (readonlyPaths config).length) config
    (final r).writes = c.writes ++ written k env ws ∧
      (succeeded r = true → ws.all (Attempt.accepted k env) = true) := by
  obtain ⟨hMasked, hMaskedView⟩ := Table.after_view hRooted
    (changesOf 1 (maskChanges k env) c.clock (maskedPaths config))
  obtain ⟨_, hReadonlyView⟩ := Table.after_view hMasked
    (changesOf 2 (readonlyChanges k env) (c.clock + (maskedPaths config).length)
      (readonlyPaths config))
  intro r n ws
  let d : Setup α := { c with
    table := (c.table.after (changesOf 1 (maskChanges k env) c.clock (maskedPaths config))).after
      (changesOf 2 (readonlyChanges k env) n (readonlyPaths config))
    clock := n + 2 * (readonlyPaths config).length }
  have hRun : r = finishSetup k env config d := by
    simp only [r]
    rw [bind_of_ok (applyMaskedPaths_apply _ c), bind_of_ok (applyReadonlyPaths_apply _ _)]
  have hAttempts : ws = oomAttempts d.table.view d.clock config := by
    simp only [ws, n]
    rw [← hMaskedView, ← hReadonlyView]
  rw [hRun, hAttempts]
  exact finishSetup_writes config d

/-- The setup before the sysctls, when all entries are done. -/
def mountedSetup {α : Type} (k : Marks α) (env : Env) (config : OciConfig)
    (hostDevices : List (String × Nat)) (a : α) : Setup α where
  table := ((Table.start a).after (changesOf 1 (entryChanges k env) 0 (config.mounts.getD []))).after
    (changesOf 1 (deviceChanges k env) (config.mounts.getD []).length hostDevices)
  clock := (config.mounts.getD []).length + hostDevices.length

theorem mountedSetup_view (config : OciConfig) (hostDevices : List (String × Nat)) (a : α) :
    (mountedSetup k env config hostDevices a).table.Rooted ∧
      (mountedSetup k env config hostDevices a).table.view =
        ((View.start a).after (changesOf 1 (entryChanges k env) 0 (config.mounts.getD []))).after
          (changesOf 1 (deviceChanges k env) (config.mounts.getD []).length hostDevices) := by
  obtain ⟨hEntries, hEntriesView⟩ := Table.after_view (Table.rooted_start a)
    (changesOf 1 (entryChanges k env) 0 (config.mounts.getD []))
  obtain ⟨hDevices, hDevicesView⟩ := Table.after_view hEntries
    (changesOf 1 (deviceChanges k env) (config.mounts.getD []).length hostDevices)
  exact ⟨hDevices, hDevicesView.trans (by rw [hEntriesView]; rfl)⟩

theorem setupBeforePaths_cases (config : OciConfig) (netMode : NetMode)
    (hostDevices : List (String × Nat)) (a : α) :
    let r := setupBeforePaths k env config netMode hostDevices { table := Table.start a }
    (EntriesDone k env (View.start a) 0 (config.mounts.getD []) ∧
      r = applySysctl k env (sysctls config netMode) (mountedSetup k env config hostDevices a)) ∨
    (¬ EntriesDone k env (View.start a) 0 (config.mounts.getD []) ∧
      ∃ e c, r = .error e c ∧ c.writes = []) := by
  intro r
  let start : Setup α := { table := Table.start a }
  rcases applyMounts_apply (k := k) (config.mounts.getD []) start (Table.rooted_start a) with
    ⟨hDone, hMounts⟩ | ⟨hNot, e, c, hMounts, hWrites⟩
  · refine .inl ⟨hDone, ?_⟩
    simp only [r]
    rw [setupBeforePaths, bind_of_ok hMounts, setupDefaultDevices,
      bind_of_ok (bindDevices_apply _ _), mountedSetup]
    simp only [start, Nat.zero_add]
  · refine .inr ⟨hNot, e, c, ?_, hWrites⟩
    simp only [r]
    rw [setupBeforePaths, bind_apply, hMounts]

/-- A setup whose entries are all done makes its writes one after the other, up to the first that
is not accepted; any other fails and writes nothing. -/
theorem setup_writes (config : OciConfig) (netMode : NetMode) (hostDevices : List (String × Nat))
    (a : α) :
    let v := View.start a
    let r := setupAndExecChild k env config netMode hostDevices { table := Table.start a }
    let ws := attempts k env v config netMode hostDevices
    (¬ EntriesDone k env v 0 (config.mounts.getD []) ∧ (final r).writes = [] ∧
      succeeded r = false) ∨
    (EntriesDone k env v 0 (config.mounts.getD []) ∧ (final r).writes = written k env ws ∧
      (succeeded r = true → ws.all (Attempt.accepted k env) = true)) := by
  intro v r ws
  have hRun : r = ((setupBeforePaths k env config netMode hostDevices >>= fun _ => do
      applyMaskedPaths k env (maskedPaths config)
      applyReadonlyPaths k env (readonlyPaths config)
      finishSetup k env config) : SetupM α Unit) { table := Table.start a } := rfl
  rcases setupBeforePaths_cases (k := k) config netMode hostDevices a with
    ⟨hDone, hBefore⟩ | ⟨hNot, e, c, hBefore, hWrites⟩
  · refine .inr ⟨hDone, ?_⟩
    let c : Setup α := mountedSetup k env config hostDevices a
    let d : Setup α := { c with
      clock := c.clock + (sysctls config netMode).length
      writes := written k env (sysctlAttempts c.table.view c.clock (sysctls config netMode)) }
    obtain ⟨hRooted, hView⟩ := mountedSetup_view (k := k) config hostDevices a
    have hPaths := pathsAndFinish_writes k env config d hRooted
    have hAttempts : ws = sysctlAttempts c.table.view c.clock (sysctls config netMode) ++
        oomAttempts ((d.table.view.after
            (changesOf 1 (maskChanges k env) d.clock (maskedPaths config))).after
              (changesOf 2 (readonlyChanges k env) (d.clock + (maskedPaths config).length)
                (readonlyPaths config)))
          (d.clock + (maskedPaths config).length + 2 * (readonlyPaths config).length) config := by
      rw [show d.table.view = c.table.view from rfl, hView]
      rfl
    rw [hAttempts, written_append, List.all_append]
    rcases applySysctl_apply (k := k) (sysctls config netMode) c with
      ⟨hAll, hSysctl⟩ | ⟨hSome, e, c', hSysctl, hWrites⟩
    · have hRest : r = (do
          applyMaskedPaths k env (maskedPaths config)
          applyReadonlyPaths k env (readonlyPaths config)
          finishSetup k env config : SetupM α Unit) d := by
        rw [hRun, bind_apply, hBefore, hSysctl]
        rfl
      rw [hRest, hAll, if_pos rfl, Bool.true_and]
      exact hPaths
    · have hFail : r = .error e c' := by
        rw [hRun, bind_apply, hBefore, hSysctl]
      rw [hFail, hSome]
      refine ⟨hWrites.trans ?_, fun hOk => by cases hOk⟩
      rw [if_neg Bool.false_ne_true, List.append_nil]
      rfl
  · have hFail : r = .error e c := by
      rw [hRun, bind_apply, hBefore]
    rw [hFail]
    exact .inl ⟨hNot, hWrites, rfl⟩

/-- The writes of a run, the one that failed included. -/
def writesOf (env : Env) (config : OciConfig) (netMode : NetMode)
    (hostDevices : List (String × Nat)) (rootReadonly : Bool) : List (Write Setter) :=
  (final (setupAndExecChild Setter.marks env config netMode hostDevices
    { table := Table.start (.other rootReadonly) })).writes

/-- No write under `/proc` goes to a mount that is read-only because `apply_mount` made it so. -/
def Unhindered (env : Env) (config : OciConfig) (netMode : NetMode)
    (hostDevices : List (String × Nat)) (rootReadonly : Bool) : Prop :=
  ∀ w ∈ writesOf env config netMode hostDevices rootReadonly, ¬ w.own.Added ∧ ¬ w.shared.Added

/-- The path leads, past the entries before, into a mount or a file system whose flags a proc entry
that says neither `ro` nor `rw` set last. -/
def Attempt.Silent (env : Env) (w : Attempt Setter) : Prop :=
  ∃ m ∈ w.lead env, m.own.Silent ∨ m.shared.Silent

/-- All entries are done, and of the writes there is a silent one that only accepted ones precede. -/
def Hindered (env : Env) (config : OciConfig) (netMode : NetMode)
    (hostDevices : List (String × Nat)) (rootReadonly : Bool) : Prop :=
  let v := View.start (Setter.other rootReadonly)
  EntriesDone Setter.marks env v 0 (config.mounts.getD []) ∧
    ∃ before w after, attempts Setter.marks env v config netMode hostDevices =
      before ++ w :: after ∧ (∀ w' ∈ before, w'.accepted Setter.marks env = true) ∧ w.Silent env

theorem Attempt.silent_iff {env : Env} {w : Attempt Setter} :
    (∀ x ∈ w.note env, ¬ x.own.Added ∧ ¬ x.shared.Added) ↔ ¬ w.Silent env := by
  rw [note, Silent]
  cases w.lead env with
  | none => simp
  | some m => simp [Setter.added_iff]

theorem Attempt.Silent.not_accepted {env : Env} {w : Attempt Setter} (h : w.Silent env) :
    w.accepted Setter.marks env = false := by
  obtain ⟨m, hLead, hSilent⟩ := h
  rw [accepted, Option.mem_def.mp hLead]
  rcases hSilent with hOwn | hShared
  · simp [Setter.readonly_of_silent hOwn]
  · simp [Setter.readonly_of_silent hShared]

/-- Setup meets a flag that `apply_mount` added exactly where it is hindered, and then it fails. -/
theorem unhindered_iff (env : Env) (config : OciConfig) (netMode : NetMode)
    (hostDevices : List (String × Nat)) (rootReadonly : Bool) :
    (Unhindered env config netMode hostDevices rootReadonly ↔
      ¬ Hindered env config netMode hostDevices rootReadonly) ∧
    (Hindered env config netMode hostDevices rootReadonly →
      ∃ e c, setupAndExecChild Setter.marks env config netMode hostDevices
        { table := Table.start (.other rootReadonly) } = .error e c) := by
  rw [Unhindered, writesOf, Hindered]
  rcases setup_writes (k := Setter.marks) config netMode hostDevices
    (.other rootReadonly) with ⟨hNot, hWrites, _⟩ | ⟨hDone, hWrites, hAll⟩
  · rw [hWrites]
    refine ⟨iff_of_true (fun w hw => absurd hw List.not_mem_nil) fun hHindered => ?_,
      fun hHindered => ?_⟩
    · exact hNot hHindered.1
    · exact absurd hHindered.1 hNot
  · rw [hWrites, forall_written]
    constructor
    · simp only [Attempt.silent_iff]
      constructor
      · rintro hFree ⟨_, before, w, after, hSplit, hBefore, hSilent⟩
        exact hFree before w after hSplit hBefore hSilent
      · exact fun hFree before w after hSplit hBefore hSilent =>
          hFree ⟨hDone, before, w, after, hSplit, hBefore, hSilent⟩
    · rintro ⟨_, before, w, after, hSplit, _, hSilent⟩
      cases hRun : setupAndExecChild Setter.marks env config netMode hostDevices
          { table := Table.start (.other rootReadonly) } with
      | error e c => exact ⟨e, c, rfl⟩
      | ok u c =>
        have hAccepted := List.all_eq_true.mp (hAll (by rw [hRun]; rfl)) w (by
          rw [hSplit]
          exact List.mem_append_right before List.mem_cons_self)
        rw [hSilent.not_accepted] at hAccepted
        cases hAccepted

/-- The full example's proc mount, and one of its sysctl entries. -/
def procMount : Mount where
  destination := "/proc"
  fstype := some "proc"
  source := some "proc"

def procConfig : OciConfig where
  ociVersion := "0.5.0-dev"
  root := { path := "rootfs" }
  mounts := some [procMount]
  linux := some { sysctl := some [("net.core.somaxconn", "256")] }

/-- A host where everything is as it should be. -/
def plainEnv : Env where
  place _ path :=
    if path = "/" then some [] else
    if path = "/proc" then some ["proc"] else
    if path = "/proc/sys/net/core/somaxconn" then some ["proc", "sys", "net", "core", "somaxconn"]
    else none
  peers _ := []
  foreign _ := false
  present _ _ := true
  createDirAll _ _ := true
  createFile _ _ := true
  isDir _ _ := true
  parent _ := none
  mounts _ := true
  writes _ _ _ := true
  capabilities := true

theorem not_unhindered : procConfig.validate = .ok () ∧
    (∃ c, setupAndExecChild Setter.marks plainEnv procConfig .none []
      { table := Table.start (.other false) } = .error (.sysctl "net.core.somaxconn") c) ∧
    ¬ Unhindered plainEnv procConfig .none [] false := by
  have hWrites : writesOf plainEnv procConfig .none [] false =
      [⟨"/proc/sys/net/core/somaxconn", "256", .entry procMount, .entry procMount⟩] := by
    decide +kernel
  refine ⟨by decide +kernel, ⟨_, rfl⟩, ?_⟩
  intro h
  rw [Unhindered, hWrites] at h
  exact (h _ List.mem_cons_self).1 (Setter.added_iff.mpr (show SilentProc procMount by decide))

end Dtrun.Child
