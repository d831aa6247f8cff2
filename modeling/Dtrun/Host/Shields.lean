import Dtrun.Host.ProcWrites

/-! # Masked and read-only paths

`apply_masked_paths`, `apply_readonly_paths` and `make_root_readonly` at the end of the setup, after
all other mounts. What a masked path hides stays hidden when the path, or one above it, is bound
onto itself later; and a path is read-only below a read-only one, except beyond a mount that stands
in between, for only the bind is recursive. A read-only root is the root mount alone.
-/
namespace Dtrun.Child
set_option autoImplicit false
open MountTable Oci Mounts StateExcept

/-- From the `n`-th step on: paths keep their places, nothing is propagated out of the private root,
mounts are granted, and of the paths that are not there those in `there` can be made. -/
structure Env.Steady (env : Env) (loc : String → Option (List String)) (there : String → Bool)
    (n : Nat) : Prop where
  place : ∀ i, n ≤ i → env.place i = loc
  peers : ∀ i, n ≤ i → env.peers i = []
  mounts : ∀ i, n ≤ i → env.mounts i = true
  seen : ∀ i path, n ≤ i → env.present i path = true → there path = true
  provided : ∀ i path, n ≤ i → there path = true → env.present i path = false →
    env.present (i + 1) path = true
  root : loc "/" = some []
  null : loc "/dev/null" ≠ some []

section

variable {α : Type} (loc : String → Option (List String)) (before : Table String α)

/-- A file system that no path led into before, or that of `/dev/null`. -/
def Placeholder (m : Mounted String α) : Prop :=
  (∀ p, m.super ≠ (before.covering p).super) ∨
    ∃ z r, loc "/dev/null" = some z ∧ m.super = (before.covering (z ++ r)).super

/-- The path is below a masked one, other than the root, that is there. -/
def Masks (env : Env) (n : Nat) (paths : List String) (p : List String) : Prop :=
  ∃ path ∈ paths, (∀ i, n ≤ i → env.present i path = true) ∧
    ∃ d, loc path = some d ∧ d ≠ [] ∧ d <+: p

/-- What becomes of the mounts: as the masks leave them, and at the end. -/
structure Shielded (env : Env) (there : String → Bool) (n : Nat) (masked readonly : List String)
    (rootReadonly : Bool) (label : α) (between after : Table String α) : Prop where
  hidden : ∀ p, Masks loc env n masked p → Placeholder loc before (after.covering p)
  untouched : ∀ p, (∀ path ∈ masked, ∀ d, loc path = some d → ¬ d <+: p) →
    between.covering p = before.covering p
  same : ∀ p, (after.covering p).super = (between.covering p).super ∧
    (after.covering p).shared = (between.covering p).shared
  readonly : ∀ p, (after.covering p).own =
    if (∃ d ∈ (readonly.filter there).filterMap loc, d <+: p ∧ (between.covering p).point <+: d) ∨
        rootReadonly = true ∧ (between.covering p).point = [] then label
    else (between.covering p).own

end

variable {α : Type} {k : Marks α} {env : Env} {loc : String → Option (List String)}
  {there : String → Bool} {n i : Nat} {c c' : Setup α} {t : Table String α}

theorem asked_below {call : MountCall} {a : α} : ∀ ch ∈ (asked k env n call a).toList,
    ch.Below (n + 1) := by
  intro ch hch
  rw [Option.mem_toList, asked] at hch
  split at hch
  · rw [MountCall.change] at hch
    split at hch
    · cases hch
      trivial
    · dsimp only at hch
      split at hch
      · cases hch
        split
        · trivial
        · trivial
      split at hch
      · split at hch
        · cases hch
          exact Nat.le_refl _
        · cases hch
          trivial
      split at hch
      · split at hch
        · cases hch
          trivial
        · cases hch
      · cases hch
        exact Nat.le_refl _
  · cases hch

theorem changesOf_below {ι : Type} {changes : Nat → ι → List (Change String α)}
    (h : ∀ n i, ∀ ch ∈ changes n i, ch.Below (n + 1)) (n : Nat) (l : List ι) :
    ∀ ch ∈ changesOf 1 changes n l, ch.Below (n + l.length) := by
  induction l generalizing n with
  | nil => exact fun _ hch => absurd hch List.not_mem_nil
  | cons i l ih =>
    intro ch hch
    rw [List.length_cons, Nat.add_comm l.length, ← Nat.add_assoc]
    rcases List.mem_append.mp hch with hFirst | hRest
    · exact (h n i ch hFirst).mono (Nat.le_add_right _ _)
    · exact ih (n + 1) ch hRest

theorem setupBeforePaths_table {config : OciConfig} {netMode : NetMode}
    {hostDevices : List (String × Nat)} {a : α} {u : Unit}
    (h : setupBeforePaths k env config netMode hostDevices { table := Table.start a } = .ok u c) :
    c.table.Rooted ∧ c.table.view.Numbered c.clock := by
  rcases setupBeforePaths_cases (k := k) config netMode hostDevices a with
    ⟨_, hBefore⟩ | ⟨_, e, c', hBefore, _⟩
  · rw [hBefore] at h
    rcases applySysctl_apply (k := k) (sysctls config netMode)
      (mountedSetup k env config hostDevices a) with ⟨_, hDone⟩ | ⟨_, e, c', hFail, _⟩
    · rw [hDone] at h
      cases h
      obtain ⟨hRooted, hView⟩ := mountedSetup_view (k := k) config hostDevices a
      refine ⟨hRooted, ?_⟩
      have hStart (n : Nat) : (View.start a : View String α).Numbered n :=
        ⟨Nat.zero_le n, fun _ _ _ hm => by cases hm⟩
      dsimp only
      rw [hView]
      refine ((hStart _).after _ fun ch hch => ?_).after _ fun ch hch => ?_
      · have hEntry := changesOf_below (fun _ _ => asked_below) _ _ ch hch
        exact hEntry.mono (by simp only [mountedSetup]; omega)
      · have hDevice := changesOf_below (fun _ _ => asked_below) _ _ ch hch
        exact hDevice.mono (Nat.le_add_right _ _)
    · rw [hFail] at h
      cases h
  · rw [hBefore] at h
    cases h

/-- What a masked path does to the mounts; a new file system has a number above `n`. -/
inductive MaskStep (loc : String → Option (List String)) (n : Nat) (path : String)
    (t : Table String α) : Table String α → Prop
  | directory {d : List String} (hLoc : loc path = some d) {super : Nat} (hNew : n < super)
      (a : α) : MaskStep loc n path t (t.attach super [d] a)
  | file {d z : List String} (hLoc : loc path = some d) (hNull : loc "/dev/null" = some z) :
      MaskStep loc n path t (t.graft [d] (t.beneath z))
  | left (h : loc path = none) : MaskStep loc n path t t

theorem asked_steady (h : env.Steady loc there n) (hClock : n ≤ i) (call : MountCall) (a : α) :
    asked k env i call a = call.change loc [] (k.other (env.foreign i)) (i + 1) a := by
  rw [asked, h.mounts i hClock, h.place i hClock, h.peers i hClock, if_pos rfl]

theorem ownChanges_after (h : env.Steady loc there n) (hClock : n ≤ i) {call : MountCall}
    (ch : Change String α) (hChange : call.change loc [] (k.other (env.foreign i)) (i + 1)
      (k.other call.flags.MS_RDONLY) = some ch) (hFits : ch.Fits t.covering) :
    t.after (ownChanges k env i call) = t.change ch := by
  rw [ownChanges, asked_steady h hClock, hChange]
  exact Table.after_fits hFits

theorem maskCall_step (h : env.Steady loc there n) (hClock : n ≤ i) (path : String)
    (t : Table String α) :
    MaskStep loc n path t (t.after (ownChanges k env i (maskCall path))) := by
  cases hLoc : loc path with
  | none =>
    rw [ownChanges_after h hClock .keep (by simp [MountCall.change, maskCall, hLoc]) trivial]
    exact .left hLoc
  | some d =>
    rw [ownChanges_after h hClock (.attach (i + 1) [d] (k.other false))
      (by simp [MountCall.change, maskCall, hLoc]) trivial]
    exact .directory hLoc (Nat.lt_succ_of_le hClock) _

theorem bindNull_step (h : env.Steady loc there n) (hClock : n ≤ i) (path : String)
    (t : Table String α) :
    MaskStep loc n path t (t.after (ownChanges k env i (bindMountCall "/dev/null" path))) := by
  cases hLoc : loc path with
  | none =>
    rw [ownChanges_after h hClock .keep (by simp [MountCall.change, bindMountCall, hLoc])
      trivial]
    exact .left hLoc
  | some d =>
    cases hNull : loc "/dev/null" with
    | none =>
      rw [ownChanges_after h hClock (.attach (i + 1) [d] (k.other (env.foreign i)))
        (by simp [MountCall.change, bindMountCall, hLoc, hNull]) trivial]
      exact .directory hLoc (Nat.lt_succ_of_le hClock) _
    | some z =>
      rw [ownChanges_after h hClock (.bind [d] z true)
        (by simp [MountCall.change, bindMountCall, hLoc, hNull]) trivial]
      exact .file hLoc hNull

theorem maskChanges_step (h : env.Steady loc there n) (hClock : n ≤ i) (path : String)
    (t : Table String α) :
    env.present i path = false ∧ t.after (maskChanges k env i path) = t ∨
      MaskStep loc n path t (t.after (maskChanges k env i path)) := by
  rw [maskChanges, maskingCall]
  cases hRefused : placeholderRefused env i path with
  | true =>
    have hAbsent := (Bool.and_eq_true_iff.mp hRefused).1
    exact .inl ⟨by simpa using hAbsent, rfl⟩
  | false =>
    refine .inr ?_
    rw [if_neg Bool.false_ne_true]
    cases env.isDir i path with
    | true => exact maskCall_step h hClock path t
    | false => exact bindNull_step h hClock path t

theorem readonlyChanges_after (h : env.Steady loc there n) (hClock : n ≤ i) (path : String)
    (hRooted : t.Rooted) :
    t.after (readonlyChanges k env i path) =
      (([path].filter there).filterMap loc).foldl (fun t d => t.rebind d (k.other true)) t := by
  have hPresent : (env.present i path || env.present (i + 1) path) = there path := by
    cases hThere : there path with
    | true =>
      cases hFirst : env.present i path with
      | true => rfl
      | false => exact h.provided i path hClock hThere hFirst
    | false =>
      rw [← Bool.not_eq_true, Bool.or_eq_true]
      rintro (hSeen | hSeen)
      · exact absurd (h.seen _ _ hClock hSeen) (by rw [hThere]; exact Bool.false_ne_true)
      · exact absurd (h.seen _ _ (Nat.le_succ_of_le hClock) hSeen)
          (by rw [hThere]; exact Bool.false_ne_true)
  rw [readonlyChanges, hPresent, h.mounts i hClock, Bool.and_true]
  cases hThere : there path with
  | false => simp [hThere]
  | true =>
    rw [if_pos rfl, Table.after_append]
    cases hLoc : loc path with
    | none =>
      rw [ownChanges_after h hClock .keep
          (by simp [MountCall.change, bindMountCall, hLoc]) trivial,
        ownChanges_after h (Nat.le_succ_of_le hClock) .keep
          (by simp [MountCall.change, readonlyCall, hLoc]) trivial]
      simp [hThere, hLoc, Table.change]
    | some d =>
      have hRemount : (t.graft [d] (t.beneath d)).after
          (ownChanges k env (i + 1) (readonlyCall path)) = t.rebind d (k.other true) :=
        ownChanges_after h (Nat.le_succ_of_le hClock) (.relabel d (k.other true))
          (by simp [MountCall.change, readonlyCall, hLoc]) (Table.bind_self_point hRooted d)
      rw [ownChanges_after h hClock (.bind [d] d true)
        (by simp [MountCall.change, bindMountCall, hLoc]) trivial]
      refine hRemount.trans ?_
      simp [hThere, hLoc]

/-- While paths are masked, `/dev/null` remains a placeholder. -/
structure Masking (loc : String → Option (List String)) (before t : Table String α) : Prop where
  rooted : t.Rooted
  null : ∀ z, loc "/dev/null" = some z → ∀ r, Placeholder loc before (t.covering (z ++ r))

theorem MaskStep.masking {before t' : Table String α} {path : String}
    (hStep : MaskStep loc n path t t') (hBefore : before.view.Numbered n)
    (hNull : loc "/dev/null" ≠ some []) (h : Masking loc before t) :
    Masking loc before t' ∧
      (∀ p, Placeholder loc before (t.covering p) → Placeholder loc before (t'.covering p)) ∧
      (∀ d, loc path = some d → d ≠ [] → ∀ p, d <+: p →
        Placeholder loc before (t'.covering p)) ∧
      ∀ p, (∀ d, loc path = some d → ¬ d <+: p) → t'.covering p = t.covering p := by
  cases hStep with
  | left hLoc =>
    refine ⟨h, fun _ => id, fun d hd => ?_, fun _ _ => rfl⟩
    rw [hLoc] at hd
    cases hd
  | directory hLoc hLater a =>
    rename_i d super
    have hNew : ∀ p, (⟨d, super, a, a⟩ : Mounted String α).super ≠ (before.covering p).super :=
      fun p => Nat.ne_of_gt (Nat.lt_of_le_of_lt (hBefore.seen false p) hLater)
    have hKeeps (p : List String) (hp : Placeholder loc before (t.covering p)) :
        Placeholder loc before ((t.attach super [d] a).covering p) := by
      rw [Table.covering_attach]
      split
      · exact .inl hNew
      · exact hp
    refine ⟨⟨h.rooted, fun z hz r => hKeeps _ (h.null z hz r)⟩, hKeeps,
      fun d' hd hTop p hBelow => ?_, fun p hApart => ?_⟩
    · cases hLoc.symm.trans hd
      rw [Table.covering_attach, if_pos ⟨hTop, hBelow⟩]
      exact .inl hNew
    · rw [Table.covering_attach, if_neg fun hBoth => hApart d hLoc hBoth.2]
  | file hLoc hz =>
    rename_i d z
    have hTop : z = [] → d = [] := by
      rintro rfl
      exact absurd hz hNull
    have hBelow (p : List String) (hp : d <+: p) (hElse : d = [] →
        Placeholder loc before (t.covering p)) :
        Placeholder loc before ((t.graft [d] (t.beneath z)).covering p) := by
      obtain ⟨r, rfl⟩ := hp
      rw [Table.covering_bind h.rooted hTop]
      split
      · rename_i hRoot
        have hd := hElse hRoot.1
        rwa [hRoot.1] at hd
      · exact h.null z hz r
    have hKeeps (p : List String) (hp : Placeholder loc before (t.covering p)) :
        Placeholder loc before ((t.graft [d] (t.beneath z)).covering p) := by
      by_cases hOver : d <+: p
      · exact hBelow p hOver fun _ => hp
      · rwa [Table.covering_graft_apart hOver]
    refine ⟨⟨h.rooted, fun z hz r => hKeeps _ (h.null z hz r)⟩, hKeeps, fun d' hd hDeep p hp => ?_,
      fun p hApart => Table.covering_graft_apart (hApart d hLoc) _⟩
    cases hLoc.symm.trans hd
    exact hBelow p hp fun hNil => absurd hNil hDeep

theorem maskedPaths_after (h : env.Steady loc there n) {before : Table String α}
    (hBefore : before.view.Numbered n) (paths : List String) (hClock : n ≤ i)
    (hMasking : Masking loc before t) :
    let t' := t.after (changesOf 1 (maskChanges k env) i paths)
    Masking loc before t' ∧
      (∀ p, Placeholder loc before (t.covering p) ∨ Masks loc env n paths p →
        Placeholder loc before (t'.covering p)) ∧
      ∀ p, (∀ path ∈ paths, ∀ d, loc path = some d → ¬ d <+: p) →
        t'.covering p = t.covering p := by
  induction paths generalizing t i with
  | nil =>
    refine ⟨hMasking, fun p hp => hp.elim id ?_, fun _ _ => rfl⟩
    rintro ⟨path, hPath, _⟩
    cases hPath
  | cons path paths ih =>
    rw [changesOf, Table.after_append]
    have hStep : Masking loc before (t.after (maskChanges k env i path)) ∧
        (∀ p, Placeholder loc before (t.covering p) →
          Placeholder loc before ((t.after (maskChanges k env i path)).covering p)) ∧
        ((∀ i, n ≤ i → env.present i path = true) → ∀ d, loc path = some d → d ≠ [] →
          ∀ p, d <+: p →
            Placeholder loc before ((t.after (maskChanges k env i path)).covering p)) ∧
        ∀ p, (∀ d, loc path = some d → ¬ d <+: p) →
          (t.after (maskChanges k env i path)).covering p = t.covering p := by
      rcases maskChanges_step (k := k) h hClock path t with ⟨hAbsent, hSame⟩ | hMasked
      · rw [hSame]
        refine ⟨hMasking, fun _ => id, fun hThere => ?_, fun _ _ => rfl⟩
        rw [hThere _ hClock] at hAbsent
        cases hAbsent
      · obtain ⟨hNext, hKeeps, hHides, hApart⟩ := hMasked.masking hBefore h.null hMasking
        exact ⟨hNext, hKeeps, fun _ => hHides, hApart⟩
    obtain ⟨hNext, hKeeps, hHides, hApart⟩ := hStep
    obtain ⟨hEnd, hHidden, hSame⟩ := ih (Nat.le_succ_of_le hClock) hNext
    refine ⟨hEnd, fun p hp => hHidden p ?_, fun p hp => ?_⟩
    · rcases hp with hBefore | ⟨path', hPath, hThere, d, hLoc, hDeep, hBelow⟩
      · exact .inl (hKeeps p hBefore)
      · rcases List.mem_cons.mp hPath with rfl | hPath
        · exact .inl (hHides hThere d hLoc hDeep p hBelow)
        · exact .inr ⟨path', hPath, hThere, d, hLoc, hDeep, hBelow⟩
    · obtain ⟨hHere, hRest⟩ := List.forall_mem_cons.mp hp
      rw [hSame p hRest, hApart p hHere]

theorem readonlyPaths_after (h : env.Steady loc there n) (paths : List String) (hClock : n ≤ i)
    (hRooted : t.Rooted) :
    t.after (changesOf 2 (readonlyChanges k env) i paths) =
      ((paths.filter there).filterMap loc).foldl (fun t d => t.rebind d (k.other true)) t := by
  induction paths generalizing t i with
  | nil => rfl
  | cons path paths ih =>
    have hFirst := readonlyChanges_after (k := k) h hClock path hRooted
    rw [changesOf, Table.after_append, ih (Nat.le_add_right_of_le hClock)
      (by rw [hFirst]; exact Table.rooted_rebinds hRooted _ _), hFirst, ← List.foldl_append,
      ← List.filterMap_append, ← List.filter_append]
    rfl

theorem makeRootReadonly_table (h : env.Steady loc there n) (hClock : n ≤ c.clock) {u : Unit}
    (hRun : makeRootReadonly k env c = .ok u c') :
    c'.table = c.table.after [.relabel [] (k.other true)] := by
  obtain ⟨_, d, ⟨⟩, hRun⟩ := bind_ok_iff.mp hRun
  obtain ⟨done, e, hMount, hRest⟩ := bind_ok_iff.mp hRun
  have hChange : (readonlyCall "/").change loc [] (k.other (env.foreign c.clock)) (c.clock + 1)
      (k.other true) = some (.relabel [] (k.other true)) := by
    simp [MountCall.change, readonlyCall, h.root]
  rw [mountOwn, mount_apply, asked_steady h hClock, show (readonlyCall "/").flags.MS_RDONLY = true
    from rfl, hChange] at hMount
  cases hMount
  split at hRest
  · cases hRest
    rfl
  · cases hRest

theorem finishSetup_table (h : env.Steady loc there n) (hClock : n ≤ c.clock) {config : OciConfig}
    {u : Unit} (hRun : finishSetup k env config c = .ok u c') :
    c'.table = if config.root.readonly.getD false then
      c.table.after [.relabel [] (k.other true)] else c.table := by
  have hConfine {d : Setup α} (hTable : d.table = c.table) (hLater : n ≤ d.clock)
      (hRun : confineSetup k env config d = .ok u c') :
      c'.table = if config.root.readonly.getD false then
        c.table.after [.relabel [] (k.other true)] else c.table := by
    rw [confineSetup] at hRun
    cases hCapabilities : env.capabilities with
    | false =>
      rw [hCapabilities] at hRun
      cases hRun
    | true =>
      rw [hCapabilities] at hRun
      cases hReadonly : config.root.readonly.getD false with
      | false =>
        rw [hReadonly] at hRun
        cases hRun
        exact hTable
      | true =>
        rw [hReadonly] at hRun
        rw [if_pos rfl, ← hTable]
        exact makeRootReadonly_table h hLater hRun
  rw [finishSetup] at hRun
  cases hAdj : config.process.bind Process.oomScoreAdj with
  | none =>
    rw [hAdj] at hRun
    exact hConfine rfl hClock hRun
  | some adj =>
    rw [hAdj] at hRun
    obtain ⟨_, d, hFirst, hRest⟩ := bind_ok_iff.mp hRun
    rw [applyOomScoreAdj, write_attempt] at hFirst
    split at hFirst
    · cases hFirst
      let w : Attempt α := ⟨c.clock, oomScoreAdjPath, s!"{adj}\n", c.table.view⟩
      exact hConfine (d := { c with clock := c.clock + 1, writes := c.writes ++ w.note env }) rfl
        (Nat.le_succ_of_le hClock) hRest
    · cases hFirst

/-- The read-only paths, and the root after them. -/
theorem covering_end {t' : Table String α} {ds : List (List String)} {rootReadonly : Bool} {a : α}
    (h : t.Rooted) (hEnd : t' = if rootReadonly then
      (ds.foldl (fun t d => t.rebind d a) t).after [.relabel [] a]
      else ds.foldl (fun t d => t.rebind d a) t) (p : List String) :
    (t'.covering p).super = (t.covering p).super ∧ (t'.covering p).shared = (t.covering p).shared ∧
      (t'.covering p).own =
        if (∃ d ∈ ds, d <+: p ∧ (t.covering p).point <+: d) ∨
            rootReadonly = true ∧ (t.covering p).point = [] then a
        else (t.covering p).own := by
  obtain ⟨hSuper, hShared, hOwn⟩ := Table.covering_rebinds h ds p a
  cases rootReadonly with
  | false =>
    rw [hEnd]
    refine ⟨hSuper, hShared, ?_⟩
    simpa using hOwn
  | true =>
    let t'' := ds.foldl (fun t d => t.rebind d a) t
    have hRooted : t''.Rooted := Table.rooted_rebinds h ds a
    have hFits : (Change.relabel [] a).Fits t''.covering :=
      List.prefix_nil.mp (Table.covering_above hRooted [])
    have hCovering : t'.covering p = if (t''.covering p).point = [] then
        { t''.covering p with own := a } else t''.covering p := by
      rw [hEnd, if_pos rfl, Table.after_fits hFits]
      exact Table.covering_relabel hRooted hFits a
    have hRoot : (t'.covering p).super = (t''.covering p).super ∧
        (t'.covering p).shared = (t''.covering p).shared ∧
        (t'.covering p).own = if (t''.covering p).point = [] then a else (t''.covering p).own := by
      rw [hCovering]
      split
      · exact ⟨rfl, rfl, rfl⟩
      · exact ⟨rfl, rfl, rfl⟩
    refine ⟨hRoot.1.trans hSuper, hRoot.2.1.trans hShared, hRoot.2.2.trans ?_⟩
    by_cases hSome : ∃ d ∈ ds, d <+: p ∧ (t.covering p).point <+: d
    · have hLabel : (t''.covering p).own = a := hOwn.trans (if_pos hSome)
      rw [hLabel, ite_self, if_pos (Or.inl hSome)]
    · have hSame : t''.covering p = t.covering p :=
        Table.covering_rebinds_apart h ds p a fun d hd hBoth => hSome ⟨d, hd, hBoth⟩
      rw [hSame]
      simp only [hSome, false_or, true_and]

/-- A mount stands between a read-only path and what is below it, and the root is read-only. -/
def shieldedMount : Mount where
  destination := "/proc/sys/fs"
  fstype := some "tmpfs"

def shieldedConfig : OciConfig where
  ociVersion := "1.0.2"
  root := { path := "rootfs", readonly := some true }
  mounts := some [{ destination := "/proc", fstype := some "proc", options := some ["rw"] },
    shieldedMount]
  linux := some { maskedPaths := some ["/proc/kcore"], readonlyPaths := some ["/proc/sys"] }

def shieldedLoc (path : String) : Option (List String) :=
  if path = "/" then some [] else
  if path = "/proc" then some ["proc"] else
  if path = "/proc/sys" then some ["proc", "sys"] else
  if path = "/proc/sys/fs" then some ["proc", "sys", "fs"] else
  if path = "/proc/kcore" then some ["proc", "kcore"] else
  if path = "/dev/null" then some ["dev", "null"] else none

def shieldedEnv : Env := { plainEnv with place := fun _ => shieldedLoc, isDir := fun _ _ => false }

theorem shieldedEnv_steady (n : Nat) : shieldedEnv.Steady shieldedLoc (fun _ => true) n where
  place _ _ := rfl
  peers _ _ := rfl
  mounts _ _ := rfl
  seen _ _ _ _ := rfl
  provided _ _ _ _ hAbsent := by cases hAbsent
  root := rfl
  null := by decide

/-- Its state before the masks, and at the end. -/
def shieldedStart : Setup Setter := { table := Table.start (.other false) }

def shieldedBefore : SetupM Setter Unit :=
  setupBeforePaths Setter.marks shieldedEnv shieldedConfig .none [("/dev/null", 3)]

def shieldedSetup : SetupM Setter Unit :=
  setupAndExecChild Setter.marks shieldedEnv shieldedConfig .none [("/dev/null", 3)]

end Dtrun.Child
