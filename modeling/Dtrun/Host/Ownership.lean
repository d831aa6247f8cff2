import Dtrun.Host.Lifecycle

/-! # Whose record a directory holds

A container that is alive and not deleted has its pid in the record of its id and its lines in the
trace, as long as an id is used for one such container at a time.
-/
namespace Dtrun.Lifecycle
set_option autoImplicit false
open FiniteMap StateExcept Transition Host

variable {o : Outcomes} {w w' : World} {s : Nat} {id : Id} {c : Container} {P : Prop}

namespace World

/-- A container that is alive and not deleted. -/
def Current (w : World) (s : Nat) (c : Container) : Prop :=
  w.containers.get s = some c ∧ c.deleted = false ∧ w.Alive s c

/-- The record of the id is that of the container, and its trace ends with what was added to it. -/
def Holds (w : World) (c : Container) : Prop :=
  ∃ d st before, w.dirs.get c.id = some d ∧ d.record = .holds st ∧ st.pid = c.pid ∧
    st.status ≠ .stopped ∧ d.trace = before ++ c.appended

end World

structure Formed (w : World) : Prop where
  fresh : ∀ s c, w.containers.get s = some c → s < w.spawned
  stage : ∀ s st, w.stages.get s = some (.supervising st) →
    ∃ c, w.containers.get s = some c ∧ st.id = c.id ∧ st.pid = c.pid
  named : ∀ id d st, w.dirs.get id = some d → d.record = .holds st → st.id = id

/-- Every container that is alive and not deleted holds its directory, if `P` does: `P` stands for
ids being used by one such container at a time. -/
structure Owned (P : Prop) (w : World) : Prop where
  formed : Formed w
  holds : P → ∀ s c, w.Current s c → w.Holds c

structure Others (P : Prop) (s : Nat) (id : Id) (w : World) : Prop where
  formed : Formed w
  others : P → ∀ s' c, s' ≠ s → w.Current s' c → c.id ≠ id ∧ w.Holds c

theorem alive_endKeeper {s' : Nat} (h : (w.endKeeper s).Alive s' c) : w.Alive s' c := by
  simp only [World.Alive, World.endKeeper] at h
  split at h
  · exact h
  · split at h
    · rw [Map.get_insert] at h
      split at h
      · cases h
      · exact h
    · exact h

theorem Formed.endKeeper (h : Formed w) (s : Nat) : Formed (w.endKeeper s) := by
  refine ⟨h.fresh, fun s' st hStage => ?_, h.named⟩
  simp only [World.endKeeper, Map.get_erase] at hStage
  split at hStage
  · cases hStage
  · exact h.stage s' st hStage

theorem Formed.enter (h : Formed w) {stage : Stage} (hStage : ∀ st, stage ≠ .supervising st) :
    Formed { w with stages := w.stages.insert s stage } := by
  refine ⟨h.fresh, fun s' st hNow => ?_, h.named⟩
  rw [Map.get_insert] at hNow
  split at hNow
  · cases hNow
    exact absurd rfl (hStage st)
  · exact h.stage s' st hNow

namespace Others

theorem owned (h : Others P s id w) (hSelf : P → ∀ c, w.Current s c → w.Holds c) :
    Owned P w := by
  refine ⟨h.formed, fun hP s' c hCurrent => ?_⟩
  by_cases hEq : s' = s
  · exact hSelf hP c (hEq ▸ hCurrent)
  · exact (h.others hP s' c hEq hCurrent).2

theorem setDir (h : Others P s id w) (d : Dir) (hNamed : ∀ st, d.record = .holds st → st.id = id) :
    Others P s id (w.setDir id d) := by
  refine ⟨⟨h.formed.fresh, h.formed.stage, fun id' d' st hDir hRecord => ?_⟩,
    fun hP s' c hne hCurrent => ?_⟩
  · simp only [World.setDir, Map.get_insert] at hDir
    split at hDir
    · rename_i hEq
      cases hDir
      rw [hEq]
      exact hNamed st hRecord
    · exact h.formed.named id' d' st hDir hRecord
  · obtain ⟨hOther, d', st, before, hDir, hRest⟩ := h.others hP s' c hne hCurrent
    refine ⟨hOther, d', st, before, ?_, hRest⟩
    rw [World.setDir, Map.get_insert_ne _ _ hOther, hDir]

theorem endKeeper (h : Others P s id w) : Others P s id (w.endKeeper s) :=
  ⟨h.formed.endKeeper s, fun hP s' c hne hCurrent =>
    h.others hP s' c hne ⟨hCurrent.1, hCurrent.2.1, alive_endKeeper hCurrent.2.2⟩⟩

theorem enter (h : Others P s id w) (stage : Stage)
    (hStage : ∀ st, stage = .supervising st →
      ∃ c, w.containers.get s = some c ∧ st.id = c.id ∧ st.pid = c.pid) :
    Others P s id { w with stages := w.stages.insert s stage } := by
  refine ⟨⟨h.formed.fresh, fun s' st hNow => ?_, h.formed.named⟩, h.others⟩
  rw [Map.get_insert] at hNow
  split at hNow
  · rename_i hEq
    cases hNow
    rw [hEq]
    exact hStage st rfl
  · exact h.formed.stage s' st hNow

theorem update (h : Others P s id w) (hContainer : w.containers.get s = some c) (c' : Container)
    (hId : c'.id = c.id) (hPid : c'.pid = c.pid) :
    Others P s id { w with containers := w.containers.insert s c' } := by
  refine ⟨⟨fun s' c₁ hc => ?_, fun s' st hStage => ?_, h.formed.named⟩,
    fun hP s' c₁ hne hCurrent => ?_⟩
  · rw [Map.get_insert] at hc
    split at hc
    · rename_i hEq
      rw [hEq]
      exact h.formed.fresh s c hContainer
    · exact h.formed.fresh s' c₁ hc
  · obtain ⟨c₁, hc, hSame⟩ := h.formed.stage s' st hStage
    rw [Map.get_insert]
    split
    · rename_i hEq
      subst hEq
      cases hContainer.symm.trans hc
      exact ⟨c', rfl, by rw [hId, hPid]; exact hSame⟩
    · exact ⟨c₁, hc, hSame⟩
  · obtain ⟨hc, hRest⟩ := hCurrent
    rw [Map.get_insert_ne _ _ hne] at hc
    exact h.others hP s' c₁ hne ⟨hc, hRest⟩

end Others

theorem endKeeper_dead (w : World) (s : Nat) (c : Container) : ¬ (w.endKeeper s).Current s c := by
  rintro ⟨hContainer, _, hAlive⟩
  have hHere : w.containers.get s = some c := hContainer
  simp only [World.Alive, World.endKeeper, hHere] at hAlive
  split at hAlive
  · simp at hAlive
  · rename_i hNot
    exact hNot hAlive

/-! ## Spawning a container -/

/-- Before the next container is spawned, for an id that no other one is using. -/
structure Ready (P : Prop) (o : Outcomes) (id : Id) (w : World) : Prop where
  others : Others P w.spawned id w
  grants : w.grants o = true

namespace Ready

theorem owned (h : Ready P o id w) : Owned P w :=
  h.others.owned fun _ _ hCurrent => absurd (h.others.formed.fresh _ _ hCurrent.1) (Nat.lt_irrefl _)

theorem setDir (h : Ready P o id w) (d : Dir) (hNamed : ∀ st, d.record = .holds st → st.id = id) :
    Ready P o id (w.setDir id d) := ⟨h.others.setDir d hNamed, h.grants⟩

theorem named (h : Ready P o id w) {d : Dir} (hDir : w.dirs.get id = some d) (st : ContainerState)
    (hRecord : d.record = .holds st) : st.id = id := h.others.formed.named id d st hDir hRecord

theorem hostResult {α : Type} (h : Ready P o id w) (r : Except HostError α) :
    Ends (fun _ => Ready P o id) (Ready P o id) (hostResult r w) := by
  cases r with
  | ok a => exact h
  | error e => exact h

theorem initContainerDir (h : Ready P o id w) :
    Ends (fun _ => Ready P o id) (Ready P o id) (initContainerDir o id w) := by
  rw [Lifecycle.initContainerDir, bind_of_ok (get_apply w)]
  cases o.createDirAll with
  | error e => exact h
  | ok u =>
    cases w.dirs.get id with
    | some d => exact h
    | none => exact h.setDir _ fun st hRecord => by cases hRecord

theorem resetTrace (h : Ready P o id w) :
    Ends (fun _ => Ready P o id) (Ready P o id) (resetTrace o id w) := by
  rw [Lifecycle.resetTrace, bind_of_ok (get_apply w)]
  cases hDir : w.dirs.get id with
  | none => exact h
  | some d =>
    have hNamed := h.named hDir
    cases o.resetTrace with
    | true => exact h.setDir _ hNamed
    | false => exact h

theorem makeFifo (h : Ready P o id w) :
    Ends (fun _ => Ready P o id) (Ready P o id) (makeFifo o id w) := by
  rw [Lifecycle.makeFifo, bind_of_ok (get_apply w)]
  cases hDir : w.dirs.get id with
  | none => exact h
  | some d =>
    have hNamed := h.named hDir
    have hSet := h.setDir { d with fifo := some w.inodes } hNamed
    cases hFifo : d.fifo with
    | some fifo =>
      simp only [hFifo]
      exact h
    | none =>
      simp only [hFifo]
      cases o.mkfifo with
      | error e => exact h
      | ok u =>
        obtain ⟨⟨hFormed, hOthers⟩, hGrants⟩ := hSet
        exact ⟨⟨⟨hFormed.fresh, hFormed.stage, hFormed.named⟩, hOthers⟩, hGrants⟩

theorem spawnCreated (h : Ready P o id w) :
    Ends (fun r w' => Others P r.1 id w' ∧ w'.containers.get r.1 = some ⟨id, r.2, false, []⟩)
      (Ready P o id) (spawnCreated o id w) := by
  rw [Lifecycle.spawnCreated]
  cases hSpawn : o.spawn with
  | error e => exact h
  | ok pid =>
    have hFree : 0 < pid ∧ w.procs.get pid = none := by
      simpa [World.grants, hSpawn] using h.grants
    have hFresh (s' : Nat) (c : Container) (hc : w.containers.get s' = some c) : s' ≠ w.spawned :=
      (h.others.formed.fresh s' c hc).ne
    refine ⟨⟨⟨fun s' c hc => ?_, fun s' st hStage => ?_, h.others.formed.named⟩,
      fun hP s' c hne hCurrent => ?_⟩, Map.get_insert_self _ _ _⟩
    · rw [Map.get_insert] at hc
      split at hc
      · rename_i hEq
        rw [hEq]
        exact Nat.lt_succ_self _
      · exact (h.others.formed.fresh s' c hc).trans (Nat.lt_succ_self _)
    · obtain ⟨c, hc, hSame⟩ := h.others.formed.stage s' st hStage
      exact ⟨c, by rw [Map.get_insert_ne _ _ (hFresh s' c hc), hc], hSame⟩
    · obtain ⟨hc, hKept, hAlive⟩ := hCurrent
      rw [Map.get_insert_ne _ _ hne] at hc
      refine h.others.others hP s' c hne ⟨hc, hKept, ?_⟩
      simp only [World.Alive, Map.get_insert] at hAlive
      split at hAlive
      · cases hAlive
        exact absurd rfl hne
      · exact hAlive

end Ready

theorem Others.writeState {st : ContainerState} (h : Others P s st.id w) :
    Ends (fun _ w' => ∃ d, w.dirs.get st.id = some d ∧
      w' = w.setDir st.id { d with record := .holds st })
      (fun w' => Others P s st.id w' ∧ w'.containers = w.containers) (writeState o st w) := by
  rw [Lifecycle.writeState, bind_of_ok (get_apply w)]
  cases hDir : w.dirs.get st.id with
  | none => exact ⟨h, rfl⟩
  | some d =>
    cases o.write with
    | notOpened => exact ⟨h, rfl⟩
    | cutShort => exact ⟨h.setDir _ fun st hRecord => (by cases hRecord), rfl⟩
    | done => exact ⟨d, rfl, rfl⟩

theorem orEnd_owned {x : HostM Unit} (id : Id)
    (h : Ends (fun _ => Owned P) (Others P s id) (x w)) :
    Ends (fun _ => Owned P) (Owned P) (orEnd s x w) := by
  rw [orEnd]
  cases hRun : x w with
  | ok a w' =>
    rw [hRun] at h
    exact h
  | error e w' =>
    rw [hRun] at h
    have hOthers : Others P s id w' := h
    exact hOthers.endKeeper.owned fun _ c hCurrent => absurd hCurrent (endKeeper_dead w' s c)

theorem Others.proceeds {st : ContainerState} {stage : Stage} (h : Others P s c.id w)
    (hContainer : w.containers.get s = some c) (hId : st.id = c.id) (hPid : st.pid = c.pid)
    (hStatus : st.status ≠ .stopped) (hStage : ∀ st', stage = .supervising st' → st' = st)
    (hTrace : P → w.Current s c → ∀ d, w.dirs.get c.id = some d →
      ∃ before, d.trace = before ++ c.appended) :
    Ends (fun _ => Owned P) (Others P s c.id)
      ((do Lifecycle.writeState o st; Lifecycle.enter s stage : HostM Unit) w) := by
  have hWrite : Others P s st.id w := by rwa [hId]
  refine Ends.bind (hWrite.writeState.mono (fun _ w' hWritten => ?_) fun w' hFailed => ?_)
  · obtain ⟨d, hDir, rfl⟩ := hWritten
    rw [hId] at hDir ⊢
    have hSet : Others P s c.id (w.setDir c.id { d with record := .holds st }) :=
      h.setDir _ fun st' hRecord => by
        cases hRecord
        exact hId
    have hEntered := hSet.enter stage fun st' hSupervises => by
      rw [hStage st' hSupervises]
      exact ⟨c, hContainer, hId, hPid⟩
    refine hEntered.owned fun hP c' hCurrent => ?_
    have hSame : w.containers.get s = some c' := hCurrent.1
    cases hContainer.symm.trans hSame
    obtain ⟨before, hBefore⟩ := hTrace hP ⟨hCurrent.1, hCurrent.2.1, hCurrent.2.2⟩ d hDir
    exact ⟨_, st, before, Map.get_insert_self _ _ _, rfl, hPid, hStatus, hBefore⟩
  · rw [← hId]
    exact hFailed.1

theorem create_owned (h : Ready P o id w) : Ends (fun _ => Owned P) (Owned P) (create o id w) := by
  have ready {w : World} (h : Ready P o id w) : Owned P w := h.owned
  refine Ends.bind ((h.hostResult o.validate).mono (fun _ _ h => ?_) fun _ => ready)
  refine Ends.bind (h.initContainerDir.mono (fun _ _ h => ?_) fun _ => ready)
  refine Ends.bind (h.resetTrace.mono (fun _ _ h => ?_) fun _ => ready)
  refine Ends.bind (h.makeFifo.mono (fun _ _ h => ?_) fun _ => ready)
  refine Ends.bind ((h.hostResult o.detach).mono (fun _ _ h => ?_) fun _ => ready)
  refine Ends.bind (h.spawnCreated.mono (fun r _ h => ?_) fun _ => ready)
  obtain ⟨s, child⟩ := r
  exact orEnd_owned id (h.1.proceeds h.2 rfl rfl (by simp [mkState])
    (fun _ hStage => by cases hStage) fun _ _ d _ => ⟨d.trace, (List.append_nil _).symm⟩)

theorem run_owned (h : Ready P o id w) : Ends (fun _ => Owned P) (Owned P) (run o id w) := by
  have ready {w : World} (h : Ready P o id w) : Owned P w := h.owned
  refine Ends.bind ((h.hostResult o.validate).mono (fun _ _ h => ?_) fun _ => ready)
  refine Ends.bind (h.initContainerDir.mono (fun _ _ h => ?_) fun _ => ready)
  refine Ends.bind (h.resetTrace.mono (fun _ _ h => ?_) fun _ => ready)
  refine Ends.bind (h.spawnCreated.mono (fun r _ h => ?_) fun _ => ready)
  obtain ⟨s, child⟩ := r
  exact orEnd_owned id (h.1.proceeds h.2 rfl rfl (by simp [mkState])
    (fun _ hStage => by cases hStage; rfl) fun _ _ d _ => ⟨d.trace, (List.append_nil _).symm⟩)

/-! ## The supervising process -/

structure Keeping (P : Prop) (s : Nat) (c : Container) (w : World) : Prop where
  owned : Owned P w
  container : w.containers.get s = some c
  /-- No other container is using the id. -/
  alone : P → ∀ s' c', w.Current s' c' → c'.id = c.id → s' = s

theorem Keeping.others (h : Keeping P s c w) : Others P s c.id w :=
  ⟨h.owned.formed, fun hP s' c' hne hCurrent =>
    ⟨fun hEq => hne (h.alone hP s' c' hCurrent hEq), h.owned.holds hP s' c' hCurrent⟩⟩

theorem openFifo_owned (h : Owned P w) (s : Nat) (id : Id) :
    Ends (fun _ => Owned P) (Owned P) (openFifo o s id w) := by
  have ended : Owned P (w.endKeeper s) := ⟨h.formed.endKeeper s, fun hP s' c hCurrent =>
    h.holds hP s' c ⟨hCurrent.1, hCurrent.2.1, alive_endKeeper hCurrent.2.2⟩⟩
  rw [openFifo, orEnd, bind_of_ok (get_apply w)]
  cases (w.dirs.get id).bind Dir.fifo with
  | none => exact ended
  | some fifo =>
    cases o.openFifo with
    | error e => exact ended
    | ok u => exact ⟨h.formed.enter fun st hStage => (by cases hStage), h.holds⟩

theorem readState_or (id : Id) (w : World) (made : ContainerState) :
    ∃ st, (tryCatch (readState id) (fun _ => pure made) : HostM ContainerState) w = .ok st w ∧
      (st = made ∨ ∃ d, w.dirs.get id = some d ∧ d.record = .holds st) := by
  rw [tryCatch_apply, readState, bind_of_ok (get_apply w)]
  cases hDir : w.dirs.get id with
  | none => exact ⟨made, rfl, .inl rfl⟩
  | some d =>
    cases hRecord : d.record with
    | missing => exact ⟨made, by simp [hRecord], .inl rfl⟩
    | broken => exact ⟨made, by simp [hRecord], .inl rfl⟩
    | holds st => exact ⟨st, by simp [hRecord], .inr ⟨d, rfl, hRecord⟩⟩

theorem released_owned (h : Keeping P s c w) (fifo : Nat) :
    Ends (fun _ => Owned P) (Owned P) (released o s c.id c.pid fifo w) := by
  refine orEnd_owned c.id ?_
  rw [bind_of_ok (modify_apply _ w)]
  obtain ⟨st, hRead, hWhich⟩ := readState_or c.id
    { w with unread := w.unread.filter fun i => i ≠ fifo } (mkState c.id .created c.pid)
  rw [bind_of_ok hRead]
  have hId : st.id = c.id := by
    rcases hWhich with rfl | ⟨d, hDir, hRecord⟩
    · rfl
    · exact h.owned.formed.named c.id d st hDir hRecord
  have hOthers : Others P s c.id { w with unread := w.unread.filter fun i => i ≠ fifo } :=
    ⟨⟨h.owned.formed.fresh, h.owned.formed.stage, h.owned.formed.named⟩, h.others.others⟩
  refine hOthers.proceeds h.container hId rfl (by simp) (fun _ hStage => by cases hStage; rfl)
    fun hP hCurrent d hDir => ?_
  obtain ⟨d', _, before, hDir', _, _, _, hTrace⟩ := h.owned.holds hP s c hCurrent
  cases hDir.symm.trans hDir'
  exact ⟨before, hTrace⟩

theorem traceEvent_ends (hContainer : w.containers.get s = some c) (line : Line) :
    Ends (fun _ w' => w' = w ∨ ∃ d, w.dirs.get c.id = some d ∧
      w' = { w.setDir c.id { d with trace := d.trace ++ [line] } with
        containers := w.containers.insert s { c with appended := c.appended ++ [line] } })
      (fun w' => w' = w) (traceEvent o s line w) := by
  rw [traceEvent, bind_of_ok (get_apply w)]
  simp only [hContainer]
  cases w.dirs.get c.id with
  | none => exact .inl rfl
  | some d =>
    cases o.append line with
    | false => exact .inl rfl
    | true => exact .inr ⟨d, rfl, rfl⟩

theorem Others.traced (h : Others P s c.id w) (hContainer : w.containers.get s = some c) {d : Dir}
    (hDir : w.dirs.get c.id = some d) (line : Line) :
    Others P s c.id { w.setDir c.id { d with trace := d.trace ++ [line] } with
      containers := w.containers.insert s { c with appended := c.appended ++ [line] } } := by
  have hNamed := h.formed.named c.id d
  have hSet := h.setDir { d with trace := d.trace ++ [line] } fun st hRecord =>
    hNamed st hDir hRecord
  exact hSet.update hContainer { c with appended := c.appended ++ [line] } rfl rfl

theorem traceEvent_owned (h : Keeping P s c w) (line : Line) :
    Ends (fun _ => Owned P) (Owned P) (traceEvent o s line w) := by
  refine (traceEvent_ends h.container line).mono (fun _ w' hEnd => ?_) fun w' hSame => ?_
  · rcases hEnd with rfl | ⟨d, hDir, rfl⟩
    · exact h.owned
    · refine (h.others.traced h.container hDir line).owned fun hP c' hCurrent => ?_
      have hSelf : c' = { c with appended := c.appended ++ [line] } :=
        (Option.some.inj (hCurrent.1.symm.trans (Map.get_insert_self _ _ _)))
      subst hSelf
      obtain ⟨d', st, before, hDir', hRecord, hPid, hStatus, hTrace⟩ :=
        h.owned.holds hP s c ⟨h.container, hCurrent.2.1, hCurrent.2.2⟩
      cases hDir.symm.trans hDir'
      refine ⟨_, st, before, Map.get_insert_self _ _ _, hRecord, hPid, hStatus, ?_⟩
      simp only [hTrace, List.append_assoc]
  · rw [hSame]
    exact h.owned

def Finishing (P : Prop) (s : Nat) (id : Id) (w : World) : Prop :=
  Others P s id w ∧ ∃ c, w.containers.get s = some c ∧ c.id = id

theorem Finishing.traceEvents (h : Finishing P s id w) (lines : List String) (f : String → Line) :
    Ends (fun _ => Finishing P s id) (Finishing P s id)
      ((lines.forM fun line => traceEvent o s (f line) : HostM Unit) w) := by
  induction lines generalizing w with
  | nil => exact h
  | cons line rest ih =>
    obtain ⟨hOthers, c, hContainer, rfl⟩ := h
    refine Ends.bind ((traceEvent_ends hContainer (f line)).mono (fun _ w' hEnd => ih ?_)
      fun w' hSame => ?_)
    · rcases hEnd with rfl | ⟨d, hDir, rfl⟩
      · exact ⟨hOthers, c, hContainer, rfl⟩
      · exact ⟨hOthers.traced hContainer hDir (f line), _, Map.get_insert_self _ _ _, rfl⟩
    · rw [hSame]
      exact ⟨hOthers, c, hContainer, rfl⟩

theorem finish_owned (h : Keeping P s c w) {st : ContainerState} (hId : st.id = c.id)
    (result : Except SuperviseError Int) (stdout stderr : List String) :
    Ends (fun _ => Owned P) (Owned P) (finish o s st result stdout stderr w) := by
  refine orEnd_owned c.id ?_
  cases result with
  | error e => exact h.others
  | ok code =>
    let stopped : ContainerState := { st with status := .stopped, exitCode := some code }
    have hStopped : Others P s stopped.id w := by
      have hOthers := h.others
      rwa [← hId] at hOthers
    have hWritten : Ends (fun _ => Finishing P s c.id) (Finishing P s c.id)
        ((tryCatch (Lifecycle.writeState o stopped) fun _ => pure () : HostM Unit) w) := by
      rw [tryCatch_apply]
      have hEnds := hStopped.writeState (o := o)
      cases hRun : Lifecycle.writeState o stopped w with
      | ok a w' =>
        rw [hRun] at hEnds
        obtain ⟨d, hDir, rfl⟩ := hEnds
        have hSet := hStopped.setDir { d with record := .holds stopped } fun st' hRecord => by
          cases hRecord
          rfl
        refine ⟨?_, c, h.container, rfl⟩
        rw [← hId]
        exact hSet
      | error e w' =>
        rw [hRun] at hEnds
        refine ⟨?_, c, ?_, rfl⟩
        · rw [← hId]
          exact hEnds.1
        · rw [hEnds.2]
          exact h.container
    have fails {w : World} (h : Finishing P s c.id w) : Others P s c.id w := h.1
    refine Ends.bind ?_
    refine Ends.bind (x := tryCatch _ _) (s := w) (hWritten.mono (fun _ w₁ h₁ => ?_) fun _ => fails)
    refine Ends.bind ((h₁.traceEvents stdout .stdout).mono (fun _ w₂ h₂ => ?_) fun _ => fails)
    refine Ends.bind ((h₂.traceEvents stderr .stderr).mono (fun _ w₃ h₃ => ?_) fun _ => fails)
    exact h₃.1.endKeeper.owned fun _ c' hCurrent => absurd hCurrent (endKeeper_dead w₃ s c')

/-! ## The other operations -/

theorem readState_ends (id : Id) (w : World) :
    Ends (fun st w' => w' = w ∧ ∃ d, w.dirs.get id = some d ∧ d.record = .holds st)
      (fun w' => w' = w) (readState id w) := by
  rw [readState, bind_of_ok (get_apply w)]
  cases w.dirs.get id with
  | none => rfl
  | some d =>
    cases hRecord : d.record with
    | missing => simp [hRecord, Ends]
    | broken => simp [hRecord, Ends]
    | holds st => simp [hRecord, Ends]

theorem Owned.less (h : Owned P w) (hDirs : w'.dirs = w.dirs)
    (hContainers : w'.containers = w.containers) (hStages : w'.stages = w.stages) (hSpawned : w'.spawned = w.spawned)
    (hAlive : ∀ s c, w'.Alive s c → w.Alive s c) : Owned P w' := by
  refine ⟨⟨?_, ?_, ?_⟩, fun hP s c hCurrent => ?_⟩
  · rw [hContainers, hSpawned]
    exact h.formed.fresh
  · rw [hStages, hContainers]
    exact h.formed.stage
  · rw [hDirs]
    exact h.formed.named
  · obtain ⟨hContainer, hKept, hNow⟩ := hCurrent
    rw [hContainers] at hContainer
    have hHolds := h.holds hP s c ⟨hContainer, hKept, hAlive s c hNow⟩
    rwa [World.Holds, hDirs]

theorem startContainer_owned (h : Owned P w) :
    Ends (fun _ => Owned P) (Owned P) (startContainer o id w) := by
  refine Ends.bind ((readState_ends id w).mono (fun st w' hRead => ?_) fun w' hSame => ?_)
  · obtain ⟨rfl, _⟩ := hRead
    split
    · exact h
    · refine Ends.get_bind ?_
      cases (w'.dirs.get id).bind Dir.fifo with
      | none => exact h
      | some fifo =>
        cases o.openFifo with
        | error e => exact h
        | ok u =>
          dsimp only
          split
          · exact h.less rfl rfl rfl rfl fun _ _ hAlive => hAlive
          · exact h
  · rw [hSame]
    exact h

theorem Owned.signal (h : Owned P w) (id : Id) (st : ContainerState) (sig : Nat) :
    Owned P (w.signal id st sig) := by
  refine h.less rfl rfl rfl rfl fun s c hAlive => ?_
  simp only [World.Alive, World.signal] at hAlive
  split at hAlive
  · split at hAlive
    · rw [Map.get_insert] at hAlive
      split at hAlive
      · simp at hAlive
      · exact hAlive
    · exact hAlive
  · exact hAlive

theorem sendSignal_ends (id : Id) (st : ContainerState) (sig : Nat) (w : World) :
    Ends (fun _ w' => w' = w.signal id st sig) (fun w' => w' = w.signal id st sig)
      (sendSignal id st sig w) := by
  rw [sendSignal, bind_of_ok (get_apply w), bind_of_ok (set_apply _ _)]
  split
  · rfl
  · rfl

/-- A call is made only going by a record with a pid. -/
theorem killContainer_ends (id : Id) (w : World) :
    Ends (fun _ w' => ∃ d st sig, w.dirs.get id = some d ∧ d.record = .holds st ∧ 0 < st.pid ∧
        o.signal = .ok sig ∧ w' = w.signal id st sig)
      (fun w' => w' = w ∨ ∃ d st sig, w.dirs.get id = some d ∧ d.record = .holds st ∧ 0 < st.pid ∧
        o.signal = .ok sig ∧ w' = w.signal id st sig) (killContainer o id w) := by
  refine Ends.bind ((readState_ends id w).mono (fun st w' hRead => ?_) fun w' hSame => .inl hSame)
  obtain ⟨rfl, d, hDir, hRecord⟩ := hRead
  split
  · exact .inl rfl
  · rename_i hPid
    cases hSignal : o.signal with
    | error e => exact .inl rfl
    | ok sig =>
      refine (sendSignal_ends id st sig w').mono (fun _ v hv => ?_) fun v hv => .inr ?_
      · exact ⟨d, st, sig, hDir, hRecord, not_le.mp hPid, rfl, hv⟩
      · exact ⟨d, st, sig, hDir, hRecord, not_le.mp hPid, rfl, hv⟩

theorem killContainer_owned (h : Owned P w) :
    Ends (fun _ => Owned P) (Owned P) (killContainer o id w) := by
  refine (killContainer_ends id w).mono (fun _ w' hEnd => ?_) fun w' hEnd => ?_
  · obtain ⟨_, st, sig, _, _, _, _, rfl⟩ := hEnd
    exact h.signal id st sig
  · rcases hEnd with rfl | ⟨_, st, sig, _, _, _, _, rfl⟩
    · exact h
    · exact h.signal id st sig

theorem Owned.deleted (h : Owned P w) {dirs : Map Id Dir}
    (hElse : ∀ id', id' ≠ id → dirs.get id' = w.dirs.get id')
    (hHere : ∀ d st, dirs.get id = some d → d.record = .holds st → st.id = id) :
    Owned P { w with
      dirs := dirs
      containers := mapValues (fun c => if c.id = id then { c with deleted := true } else c)
        w.containers } := by
  have same (c : Container) (f : Container → Container)
      (hf : f = fun c => if c.id = id then { c with deleted := true } else c) :
      (f c).id = c.id ∧ (f c).pid = c.pid := by
    subst hf
    dsimp only
    split
    · exact ⟨rfl, rfl⟩
    · exact ⟨rfl, rfl⟩
  refine ⟨⟨fun s c hc => ?_, fun s st hStage => ?_, fun id' d st hDir hRecord => ?_⟩,
    fun hP s c hCurrent => ?_⟩
  · rw [get_mapValues] at hc
    obtain ⟨c', hc', _⟩ := Option.map_eq_some_iff.mp hc
    exact h.formed.fresh s c' hc'
  · obtain ⟨c, hc, hId, hPid⟩ := h.formed.stage s st hStage
    obtain ⟨hSameId, hSamePid⟩ := same c _ rfl
    refine ⟨_, ?_, hId.trans hSameId.symm, hPid.trans hSamePid.symm⟩
    rw [get_mapValues, hc]
    rfl
  · by_cases hEq : id' = id
    · subst hEq
      exact hHere d st hDir hRecord
    · exact h.formed.named id' d st (by rw [← hElse id' hEq, hDir]) hRecord
  · obtain ⟨hContainer, hKept, hAlive⟩ := hCurrent
    rw [get_mapValues] at hContainer
    obtain ⟨c', hc', rfl⟩ := Option.map_eq_some_iff.mp hContainer
    split at hKept
    · cases hKept
    · rename_i hOther
      rw [if_neg hOther] at hAlive ⊢
      obtain ⟨d, st, before, hDir, hRest⟩ := h.holds hP s c' ⟨hc', hKept, hAlive⟩
      exact ⟨d, st, before, (hElse c'.id hOther).trans hDir, hRest⟩

theorem removeState_owned (h : Owned P w) :
    Ends (fun _ => Owned P) (Owned P) (removeState o id w) := by
  rw [removeState, bind_of_ok (get_apply w)]
  cases hDir : w.dirs.get id with
  | none => exact h
  | some d =>
    cases o.remove with
    | refused => exact h
    | done =>
      refine h.deleted (fun id' hne => Map.get_erase_ne _ hne) fun d' st hGone => ?_
      rw [Map.get_erase_self] at hGone
      cases hGone
    | cutShort record fifo trace =>
      refine h.deleted (fun id' hne => Map.get_insert_ne _ _ hne) fun d' st hLeft hRecord => ?_
      rw [World.setDir, Map.get_insert_self] at hLeft
      cases hLeft
      cases record with
      | true => exact h.formed.named id d st hDir hRecord
      | false => cases hRecord

/-- A forced deletion first makes a call going by a record with a pid. -/
theorem deleteContainer_ends {P : World → Prop} (force : Bool) (hSame : P w)
    (hRemove : ∀ v, (v = w ∨ ∃ d st, force = true ∧ w.dirs.get id = some d ∧
      d.record = .holds st ∧ 0 < st.pid ∧ v = w.signal id st SIGKILL) →
        Ends (fun _ => P) P (removeState o id v)) :
    Ends (fun _ => P) P (deleteContainer o id force w) := by
  refine Ends.bind ((readState_ends id w).mono (fun st w' hRead => ?_) fun w' hFailed => ?_)
  · obtain ⟨rfl, d, hDir, hRecord⟩ := hRead
    split
    · exact hSame
    · split
      · rename_i hForce
        have hSent := sendSignal_ends id st SIGKILL w'
        have hSignal := hRemove _ (.inr ⟨d, st, hForce.1, hDir, hRecord, hForce.2, rfl⟩)
        refine Ends.bind ?_
        rw [tryCatch_apply]
        cases hRun : sendSignal id st SIGKILL w' with
        | ok a v =>
          rw [hRun] at hSent
          obtain rfl : v = _ := hSent
          exact hSignal
        | error e v =>
          rw [hRun] at hSent
          obtain rfl : v = _ := hSent
          exact hSignal
      · exact hRemove w' (.inl rfl)
  · rwa [hFailed]

theorem deleteContainer_owned (h : Owned P w) (force : Bool) :
    Ends (fun _ => Owned P) (Owned P) (deleteContainer o id force w) := by
  refine deleteContainer_ends force h fun v hv => removeState_owned ?_
  rcases hv with rfl | ⟨_, st, _, _, _, _, rfl⟩
  · exact h
  · exact h.signal id st SIGKILL

/-! ## Along a run -/

namespace World

def current (w : World) (id : Id) : List Nat :=
  (w.containers.entries.filter fun e => e.2.id = id ∧ e.2.deleted = false ∧ w.Alive e.1 e.2).map
    Sigma.fst

theorem mem_current : s ∈ w.current id ↔ ∃ c, w.Current s c ∧ c.id = id := by
  simp only [current, List.mem_map, List.mem_filter, decide_eq_true_eq]
  constructor
  · rintro ⟨⟨s', c⟩, ⟨hEntry, hId, hKept, hAlive⟩, rfl⟩
    exact ⟨c, ⟨Map.get_eq_some_iff.mpr hEntry, hKept, hAlive⟩, hId⟩
  · rintro ⟨c, ⟨hContainer, hKept, hAlive⟩, hId⟩
    exact ⟨⟨s, c⟩, ⟨Map.get_eq_some_iff.mp hContainer, hId, hKept, hAlive⟩, rfl⟩

def alone (w : World) (s : Nat) : Bool :=
  match w.containers.get s with
  | some c => (w.current c.id).all fun s' => s' = s
  | none => true

/-- A new container gets an id that no living container has, and what supervises a container does
not write where a living one has its state in the meantime. -/
def Exclusive (w : World) : Label → Prop
  | .create _ id | .run _ id => w.current id = []
  | .releases _ s | .reports _ s _ | .finishes _ s _ _ _ => w.alone s = true
  | _ => True

instance (w : World) (l : Label) : Decidable (w.Exclusive l) := by
  cases l with
  | create o id => exact inferInstanceAs (Decidable (_ = _))
  | run o id => exact inferInstanceAs (Decidable (_ = _))
  | releases o s => exact inferInstanceAs (Decidable (_ = _))
  | reports o s text => exact inferInstanceAs (Decidable (_ = _))
  | finishes o s result stdout stderr => exact inferInstanceAs (Decidable (_ = _))
  | _ => exact .isTrue trivial

end World

theorem ready (h : Owned P w) (hFree : P → w.current id = []) (hGrants : w.grants o = true) :
    Ready P o id w := by
  refine ⟨⟨h.formed, fun hP s c _ hCurrent => ⟨fun hId => ?_, h.holds hP s c hCurrent⟩⟩, hGrants⟩
  have hMem := World.mem_current.mpr ⟨c, hCurrent, hId⟩
  rw [hFree hP] at hMem
  cases hMem

theorem keeping (h : Owned P w) (hContainer : w.containers.get s = some c)
    (hAlone : P → w.alone s = true) : Keeping P s c w := by
  refine ⟨h, hContainer, fun hP s' c' hCurrent hId => ?_⟩
  have hAlone := hAlone hP
  simp only [World.alone, hContainer, List.all_eq_true, decide_eq_true_eq] at hAlone
  exact hAlone s' (World.mem_current.mpr ⟨c', hCurrent, hId⟩)

theorem keeperStep_eq_some {x : Container → Stage → Option (HostM Unit)}
    (h : w.keeperStep s x = some w') : ∃ c stage y, w.containers.get s = some c ∧
      w.stages.get s = some stage ∧ x c stage = some y ∧ w' = final (y w) := by
  simp only [World.keeperStep] at h
  split at h
  · rename_i c stage hContainer hStage
    obtain ⟨y, hy, hDone⟩ := Option.bind_eq_some_iff.mp h
    cases hDone
    exact ⟨c, stage, y, hContainer, hStage, hy, rfl⟩
  · cases h

theorem step_opens (h : w.step (.opens o s) = some w') : ∃ c,
    w.containers.get s = some c ∧ w.stages.get s = some .opening ∧
      w' = final (openFifo o s c.id w) := by
  obtain ⟨c, stage, y, hContainer, hStage, hy, rfl⟩ := keeperStep_eq_some h
  cases stage with
  | opening =>
    cases hy
    exact ⟨c, hContainer, hStage, rfl⟩
  | waiting fifo => cases hy
  | supervising st => cases hy

theorem step_releases (h : w.step (.releases o s) = some w') : ∃ c fifo,
    w.containers.get s = some c ∧ w.stages.get s = some (.waiting fifo) ∧ fifo ∈ w.unread ∧
      w' = final (released o s c.id c.pid fifo w) := by
  obtain ⟨c, stage, y, hContainer, hStage, hy, rfl⟩ := keeperStep_eq_some h
  cases stage with
  | opening => cases hy
  | waiting fifo =>
    obtain ⟨hUnread, hSame⟩ := Option.ite_none_right_eq_some.mp hy
    cases hSame
    exact ⟨c, fifo, hContainer, hStage, hUnread, rfl⟩
  | supervising st => cases hy

theorem step_reports {text : String} (h : w.step (.reports o s text) = some w') : ∃ c st,
    w.containers.get s = some c ∧ w.stages.get s = some (.supervising st) ∧
      w' = final (traceEvent o s (.event text) w) := by
  obtain ⟨c, stage, y, hContainer, hStage, hy, rfl⟩ := keeperStep_eq_some h
  cases stage with
  | opening => cases hy
  | waiting fifo => cases hy
  | supervising st =>
    cases hy
    exact ⟨c, st, hContainer, hStage, rfl⟩

theorem step_finishes {result : Except SuperviseError Int} {stdout stderr : List String}
    (h : w.step (.finishes o s result stdout stderr) = some w') : ∃ c st,
    w.containers.get s = some c ∧ w.stages.get s = some (.supervising st) ∧
      ¬ (result.isOk ∧ w.Alive s c) ∧ w' = final (finish o s st result stdout stderr w) := by
  obtain ⟨c, stage, y, hContainer, hStage, hy, rfl⟩ := keeperStep_eq_some h
  cases stage with
  | opening => cases hy
  | waiting fifo => cases hy
  | supervising st =>
    obtain ⟨hEnded, hSame⟩ := Option.ite_none_left_eq_some.mp hy
    cases hSame
    exact ⟨c, st, hContainer, hStage, hEnded, rfl⟩

theorem Owned.step {l : Label} (h : Owned P w) (hOk : P → w.Exclusive l)
    (hStep : w.step l = some w') : Owned P w' := by
  have done {x : HostM Unit} (hx : Ends (fun _ => Owned P) (Owned P) (x w))
      (hDone : w.done x = some w') : Owned P w' := by
    cases hDone
    exact hx.final
  cases l with
  | create o id =>
    simp only [World.step] at hStep
    split at hStep
    · rename_i hGrants
      exact done (create_owned (ready h hOk hGrants)) hStep
    · cases hStep
  | run o id =>
    simp only [World.step] at hStep
    split at hStep
    · rename_i hGrants
      exact done (run_owned (ready h hOk hGrants)) hStep
    · cases hStep
  | start o id => exact done (startContainer_owned h) hStep
  | kill o id => exact done (killContainer_owned h) hStep
  | delete o id force => exact done (deleteContainer_owned h force) hStep
  | opens o s =>
    obtain ⟨c, _, _, rfl⟩ := step_opens hStep
    exact (openFifo_owned h s c.id).final
  | releases o s =>
    obtain ⟨c, fifo, hContainer, _, _, rfl⟩ := step_releases hStep
    exact (released_owned (keeping h hContainer hOk) fifo).final
  | reports o s text =>
    obtain ⟨c, _, hContainer, _, rfl⟩ := step_reports hStep
    exact (traceEvent_owned (keeping h hContainer hOk) _).final
  | finishes o s result stdout stderr =>
    obtain ⟨c, st, hContainer, hStage, _, rfl⟩ := step_finishes hStep
    obtain ⟨c', hContainer', hId, _⟩ := h.formed.stage s st hStage
    cases hContainer.symm.trans hContainer'
    exact (finish_owned (keeping h hContainer hOk) hId result stdout stderr).final
  | spawns p =>
    simp only [World.step] at hStep
    split at hStep
    · cases hStep
      refine h.less rfl rfl rfl rfl fun s c hAlive => ?_
      simp only [World.Alive, Map.get_insert] at hAlive
      split at hAlive
      · cases hAlive
      · exact hAlive
    · cases hStep
  | exits p =>
    simp only [World.step] at hStep
    split at hStep
    · cases hStep
      refine h.less rfl rfl rfl rfl fun s c hAlive => ?_
      simp only [World.Alive, Map.get_insert] at hAlive
      split at hAlive
      · simp at hAlive
      · exact hAlive
    · cases hStep
  | reaps p =>
    simp only [World.step] at hStep
    split at hStep
    · split at hStep
      · cases hStep
        refine h.less rfl rfl rfl rfl fun s c hAlive => ?_
        simp only [World.Alive, Map.get_erase] at hAlive
        split at hAlive
        · cases hAlive
        · exact hAlive
      · cases hStep
    · cases hStep

theorem Owned.empty : Owned P .empty := by
  refine ⟨⟨fun s c hc => ?_, fun s st hStage => ?_, fun id d st hDir => ?_⟩,
    fun _ s c hCurrent => ?_⟩
  · cases hc
  · cases hStage
  · cases hDir
  · cases hCurrent.1

theorem owned (h : system.Reach World.Exclusive w) : Owned True w := by
  refine System.Reach.invariant (I := Owned True) ?_ (fun _ _ _ _ hOwned hOk hStep =>
    hOwned.step (fun _ => hOk) hStep) h
  rintro _ rfl
  exact .empty

theorem formed (h : system.Reach System.free w) : Formed w := by
  have hOwned : Owned False w := by
    refine System.Reach.invariant (I := Owned False) ?_ (fun _ _ _ _ hOwned _ hStep =>
      hOwned.step False.elim hStep) h
    rintro _ rfl
    exact .empty
  exact hOwned.formed

/-- The id of every container that is alive and not deleted has its pid in the record and all of its
lines in the trace. -/
theorem current_holds (h : system.Reach World.Exclusive w) : ∀ s c, w.Current s c → w.Holds c :=
  (owned h).holds trivial

theorem current_holds_created : ∃ w,
    system.exec World.Exclusive .empty [.create { spawn := .ok 100 } "a"] = some w ∧
      w.Holds ⟨"a", 100, false, []⟩ := by
  have hRun : (system.exec World.Exclusive .empty [.create { spawn := .ok 100 } "a"]).map
      (fun w => (w.containers.get 0, w.procs.get 100)) =
      some (some ⟨"a", 100, false, []⟩, some ⟨some 0, false⟩) := by decide +kernel
  obtain ⟨w, hExec, hw⟩ := Option.map_eq_some_iff.mp hRun
  simp only [Prod.mk.injEq] at hw
  have hReach : system.Reach World.Exclusive w := System.reach_of_exec rfl hExec
  exact ⟨w, hExec, current_holds hReach 0 _ ⟨hw.1, rfl, hw.2⟩⟩

/-- The second container of the id takes the record over. -/
theorem not_current_holds : ¬ ∀ w, system.Reach System.free w →
    ∀ s c, w.Current s c → w.Holds c := by
  intro hAll
  have hRun : (system.exec System.free .empty
      [.create { spawn := .ok 100 } "a", .create { spawn := .ok 200 } "a"]).map
      (fun w => (w.containers.get 0, w.procs.get 100, (w.dirs.get "a").map Dir.record)) =
      some (some ⟨"a", 100, false, []⟩, some ⟨some 0, false⟩,
        some (.holds ⟨"a", .created, 200, none⟩)) := by decide +kernel
  obtain ⟨w, hExec, hw⟩ := Option.map_eq_some_iff.mp hRun
  simp only [Prod.mk.injEq] at hw
  obtain ⟨hContainer, hProc, hRecord⟩ := hw
  obtain ⟨d, st, _, hDir, hHolds, hPid, _⟩ :=
    hAll w (System.reach_of_exec rfl hExec) 0 _ ⟨hContainer, rfl, hProc⟩
  rw [hDir] at hRecord
  cases hHolds.symm.trans (Option.some.inj hRecord)
  cases hPid

end Dtrun.Lifecycle
