import Mathlib.Logic.Equiv.Basic
import Dtrun.Supervisor.Dying
import Dtrun.Supervisor.Renaming
import Dtrun.Supervisor.Unread

/-! # Worlds that differ in their pids

Two worlds are alike when one is the other under a renaming of the pids, stale clone arguments and
the requests already made left aside. They allow the same and go on alike.
-/
namespace Dtrun
set_option autoImplicit false
open FiniteMap Equivariance StateExcept Transition Supervisor

variable {ρ : Equiv.Perm Pid} {p q : Pid} {r r' : Report}

/-- What the next pass starts from, the stash aside. -/
def Supervisor.bare (s : Supervisor) : Supervisor := { s with clonePending := ∅, effects := [] }

/-- `m'` is `m` under the renaming. -/
structure Machine.Alike (ρ : Equiv.Perm Pid) (m m' : Machine) : Prop where
  sv : m'.sv.bare = (m.sv.rename ρ.toEmbedding).bare
  awaits : m'.awaits = m.awaits.map (Await.rename ρ.toEmbedding)
  result : m'.result = m.result

/-- Both have asked for the same since the last report. -/
def Machine.Asks (ρ : Equiv.Perm Pid) (m m' : Machine) : Prop :=
  m'.sv.effects = m.sv.effects.map (Effect.rename ρ.toEmbedding)

namespace Machine

variable {m m' : Machine}

theorem alike_settle {log log' : List Effect} {c : PidMap CloneInfo}
    (result : EStateM.Result SuperviseError Supervisor Turn) :
    let m := settle log result
    let m' := settle log' (changeResult (Supervisor.stash · c) id
      (changeResult (Supervisor.rename ρ.toEmbedding) (Turn.rename ρ.toEmbedding) result))
    Alike ρ m m' ∧ Asks ρ m m' := by
  cases result with
  | error e s => exact ⟨⟨rfl, rfl, rfl⟩, rfl⟩
  | ok turn s =>
    cases turn with
    | wait awaits => exact ⟨⟨rfl, rfl, rfl⟩, rfl⟩
    | done code => exact ⟨⟨rfl, rfl, rfl⟩, rfl⟩

theorem alike_rename (m : Machine) : Alike ρ m (m.rename ρ.toEmbedding) := ⟨rfl, rfl, rfl⟩

theorem Alike.groupExiting (h : Alike ρ m m') : m'.sv.groupExiting = m.sv.groupExiting :=
  show m'.sv.bare.groupExiting = (m.sv.rename ρ.toEmbedding).bare.groupExiting by rw [h.sv]

theorem Alike.trace (h : Alike ρ m m') : m'.sv.trace = m.sv.trace :=
  show m'.sv.bare.trace = (m.sv.rename ρ.toEmbedding).bare.trace by rw [h.sv]

/-- A clone event finds the same arguments on both sides. -/
def Shares (ρ : Equiv.Perm Pid) (m m' : Machine) (r : Report) : Prop :=
  ∀ p sig event, r.status = .ok (.ptraceEvent p sig event) → event.creates = true →
    m'.sv.clonePending.get (ρ p) = m.sv.clonePending.get p

theorem Alike.step (h : Alike ρ m m') (hOpen : m.result = none)
    (hRenames : r.Renames ρ.toEmbedding r') (hShares : Shares ρ m m' r) :
    Alike ρ (m.step r) (m'.step r') ∧ Asks ρ (m.step r) (m'.step r') := by
  have hOpen' : m'.result = none := h.result.trans hOpen
  have hRead : ({ m'.sv with effects := [] } : Supervisor) =
      (({ m.sv with effects := [] } : Supervisor).rename ρ.toEmbedding).stash
        m'.sv.clonePending :=
    congrArg (Supervisor.stash · m'.sv.clonePending) h.sv
  simp only [Machine.step, hOpen, hOpen', handle, hRenames.status, h.awaits, hRead]
  cases hStatus : r.status with
  | error e => exact alike_settle (.error (.wait e) _)
  | ok status =>
    have hStashed (q : Pid) (sig : Signal) (event : Event)
        (hEvent : status.rename ρ.toEmbedding = .ptraceEvent q sig event)
        (hCreates : event.creates = true) : m'.sv.clonePending.get q =
          (({ m.sv with effects := [] } : Supervisor).rename ρ.toEmbedding).clonePending.get q := by
      cases status with
      | ptraceEvent p sig' event' =>
        cases hEvent
        exact (hShares p _ _ hStatus hCreates).trans (get_renameKeys _ _ _).symm
      | _ => cases hEvent
    obtain ⟨c', hPass⟩ :=
      pass_carries (k := r'.answers) (m.awaits.map (Await.rename ρ.toEmbedding)) hStashed
    have hRenamed := hRenames.answers.pass m.awaits status { m.sv with effects := [] }
    simp only [Except.map]
    rw [hPass, hRenamed]
    exact alike_settle _

end Machine

namespace Supervisor

/-- Every pid that the bookkeeping names meets `L`, the stash aside. -/
structure Within (s : Supervisor) (L : Pid → Prop) : Prop where
  pid : L s.pid
  pending : ∀ q, s.pending.get q ≠ none → L q
  threads : ∀ q, s.registered q = true → L q
  runnable : ∀ q ∈ s.runnable, L q
  pendingStart : ∀ q ∈ s.pendingStart, L q
  stoppedPending : ∀ q ∈ s.stoppedPending, L q
  blocked : ∀ q ∈ s.blocked, L q
  waiting : ∀ addr, ∀ q ∈ s.parkedOn addr, L q
  current : ∀ q, s.current = some q → L q
  sigPending : ∀ q, s.sigPending.get q ≠ none → L q

theorem Within.rename_congr {s : Supervisor} {L : Pid → Prop} {τ : Equiv.Perm Pid}
    (h : s.Within L) (hSame : ∀ q, L q → ρ q = τ q) :
    (s.rename ρ.toEmbedding).bare = (s.rename τ.toEmbedding).bare := by
  have keys {ν : Type} {m : PidMap ν} (hKeys : ∀ q, m.get q ≠ none → L q) :
      renameKeys ρ.toEmbedding m = renameKeys τ.toEmbedding m :=
    renameKeys_congr fun q hq => hSame q (hKeys q hq)
  have queue {l : List Pid} (hMem : ∀ q ∈ l, L q) : l.map ρ = l.map τ :=
    List.map_congr_left fun q hq => hSame q (hMem q hq)
  have set {l : Finset Pid} (hMem : ∀ q ∈ l, L q) :
      l.map ρ.toEmbedding = l.map τ.toEmbedding := by
    simp only [Finset.map_eq_image]
    exact Finset.image_congr fun q hq => hSame q (hMem q hq)
  have hThreads : ∀ q, s.threads.get q ≠ none → L q := fun q hq =>
    h.threads q (Option.isSome_iff_ne_none.mpr hq)
  have hCurrent : s.current.map ρ = s.current.map τ := by
    cases hNow : s.current with
    | none => rfl
    | some q => exact congrArg some (hSame q (h.current q hNow))
  have hWaiting : mapValues (List.map ρ) s.waiting = mapValues (List.map τ) s.waiting := by
    refine mapValues_congr fun addr parked hGet => queue fun q hq => h.waiting addr q ?_
    rw [parkedOn, hGet]
    exact hq
  have hPid : ρ s.pid = τ s.pid := hSame _ h.pid
  simp only [bare, rename, keys h.pending, keys hThreads, keys h.sigPending, set h.pendingStart,
    set h.stoppedPending, set h.blocked]
  simp only [Equiv.coe_toEmbedding, hPid, queue h.runnable, hCurrent, hWaiting]

end Supervisor

def Task.rename (ρ : Equiv.Perm Pid) (x : Task) : Task :=
  { x with group := ρ x.group, cloned := x.cloned.map ρ }

namespace Tracees

variable {t t' : Tracees}

structure Renames (ρ : Equiv.Perm Pid) (t t' : Tracees) : Prop where
  task : ∀ p, t'.task (ρ p) = (t.task p).map (Task.rename ρ)
  spaces : t'.spaces = t.spaces

namespace Renames

theorem phase (h : t.Renames ρ t') (p : Pid) : t'.phase (ρ p) = t.phase p := by
  rw [Tracees.phase, Tracees.phase, h.task]
  cases t.task p with
  | none => rfl
  | some x => rfl

theorem update (h : t.Renames ρ t') (p : Pid) {f f' : Task → Task}
    (hf : ∀ x, f' (x.rename ρ) = (f x).rename ρ) :
    (t.update p f).Renames ρ (t'.update (ρ p) f') := by
  have hSpaces (t : Tracees) (p : Pid) (f : Task → Task) : (t.update p f).spaces = t.spaces := by
    rw [Tracees.update]
    split
    · rfl
    · rfl
  refine ⟨fun q => ?_, ?_⟩
  · rw [task_update, task_update, h.task, h.task]
    simp only [ρ.apply_eq_iff_eq]
    split
    · cases t.task p with
      | none => rfl
      | some x => exact congrArg some (hf x)
    · rfl
  · rw [hSpaces, hSpaces, h.spaces]

theorem setPhase (h : t.Renames ρ t') (p : Pid) (phase : Phase) :
    (t.setPhase p phase).Renames ρ (t'.setPhase (ρ p) phase) := h.update p fun _ => rfl

theorem applyAll (h : t.Renames ρ t') (effects : List Effect) :
    (t.applyAll effects).Renames ρ (t'.applyAll (effects.map (Effect.rename ρ.toEmbedding))) := by
  induction effects generalizing t t' with
  | nil => exact h
  | cons e rest ih =>
    refine ih ?_
    cases e with
    | resume p sig => exact h.update p fun _ => rfl
    | setregs p regs => exact h
    | write p addr data => exact h

theorem allows (h : t.Renames ρ t') (hRenames : r.Renames ρ.toEmbedding r') :
    t'.allows r' = t.allows r := by
  have hTask (p : Pid) : t'.task (ρ.toEmbedding p) = (t.task p).map (Task.rename ρ) := h.task p
  simp only [Tracees.allows, hRenames.status]
  cases r.status with
  | error e => rfl
  | ok status =>
    cases status with
    | ptraceEvent p sig event =>
      have hChild := hRenames.answers.getevent p
      cases event
      all_goals
        simp only [Except.map, WaitStatus.rename, hTask, hChild]
        cases t.task p with
        | none => rfl
        | some x =>
          obtain ⟨group, space, phase, cloned⟩ := x
          cases cloned with
          | none => rfl
          | some c =>
            cases r.answers.getevent p with
            | error e => rfl
            | ok c' => simp [Task.rename]
    | stillAlive => rfl
    | continued p => rfl
    | ptraceSyscall p =>
      simp only [Except.map, WaitStatus.rename, hTask]
      cases t.task p with
      | none => rfl
      | some x => simp [Task.rename]
    | stopped p sig =>
      simp only [Except.map, WaitStatus.rename, hTask]
      cases t.task p with
      | none => rfl
      | some x => rfl
    | exited p code => exact (congrArg Option.isSome (hTask p)).trans Option.isSome_map
    | signaled p sig core => exact (congrArg Option.isSome (hTask p)).trans Option.isSome_map

theorem erase (h : t.Renames ρ t') (p : Pid) :
    ({ t with tasks := t.tasks.erase p } : Tracees).Renames ρ
      { t' with tasks := t'.tasks.erase (ρ p) } := by
  refine ⟨fun q => ?_, h.spaces⟩
  simp only [Tracees.task, Map.get_erase, ρ.apply_eq_iff_eq]
  split
  · rfl
  · exact h.task q

theorem observe (h : t.Renames ρ t') (hRenames : r.Renames ρ.toEmbedding r') :
    (t.observe r).Renames ρ (t'.observe r') := by
  simp only [Tracees.observe, hRenames.status]
  cases r.status with
  | error e => exact h
  | ok status =>
    cases status with
    | ptraceEvent p sig event =>
      have created : ((t.setPhase p .held).update p fun x => { x with cloned := none }).Renames ρ
          ((t'.setPhase (ρ p) .held).update (ρ p) fun x => { x with cloned := none }) :=
        (h.setPhase p .held).update p fun _ => rfl
      cases event with
      | exit => exact h.setPhase p .exitStop
      | clone => exact created
      | fork => exact created
      | vfork => exact created
      | exec => exact h.setPhase p .held
      | vforkDone => exact h.setPhase p .held
      | seccomp => exact h.setPhase p .held
      | stop => exact h.setPhase p .held
    | ptraceSyscall p =>
      have hHeld := h.setPhase p .held
      simp only [Except.map, WaitStatus.rename]
      split
      · split
        · exact ⟨hHeld.task, hHeld.spaces⟩
        · exact ⟨hHeld.task, hHeld.spaces⟩
      · split
        · exact ⟨hHeld.task, hHeld.spaces⟩
        · exact hHeld
    | stopped p sig =>
      have hPhase : t'.phase (ρ.toEmbedding p) = t.phase p := h.phase p
      simp only [Except.map, WaitStatus.rename, hPhase]
      split
      · exact h
      · exact h.setPhase p .held
    | exited p code => exact h.erase p
    | signaled p sig core => exact h.erase p
    | continued p => exact h
    | stillAlive => exact h

/-- Two renamings that agree on the tasks, and on the pids that the tasks name, do the same. -/
theorem congr {τ : Equiv.Perm Pid} (h : t.Renames ρ t')
    (hSame : ∀ q, t.phase q ≠ none → ρ q = τ q)
    (hGroup : ∀ q g, t.group q = some g → ρ g = τ g)
    (hCloned : ∀ q c, t.cloned q = some c → ρ c = τ c) : t.Renames τ t' := by
  have lives {q : Pid} {x : Task} (hTask : t.task q = some x) : t.phase q ≠ none := by
    simp [Tracees.phase, hTask]
  refine ⟨fun q => ?_, h.spaces⟩
  cases hTask : t.task q with
  | some x =>
    rw [← hSame q (lives hTask), h.task, hTask]
    have hGroup' : ρ x.group = τ x.group := hGroup q x.group (by simp [Tracees.group, hTask])
    have hCloned' : x.cloned.map ρ = x.cloned.map τ := by
      cases hNext : x.cloned with
      | none => rfl
      | some c => exact congrArg some (hCloned q c (by simp [Tracees.cloned, hTask, hNext]))
    simp only [Option.map_some, Task.rename, hGroup', hCloned']
  | none =>
    have hOld := h.task (ρ.symm (τ q))
    rw [ρ.apply_symm_apply] at hOld
    cases hOther : t.task (ρ.symm (τ q)) with
    | none =>
      rw [hOld, hOther]
      rfl
    | some x =>
      have hEq := hSame _ (lives hOther)
      rw [ρ.apply_symm_apply, τ.apply_eq_iff_eq] at hEq
      rw [← hEq, hTask] at hOther
      cases hOther

end Renames

end Tracees

structure World.Alike (ρ : Equiv.Perm Pid) (w w' : World) : Prop where
  machine : w.machine.Alike ρ w'.machine
  tracees : w.tracees.Renames ρ w'.tracees

namespace World.Alike

variable {w w' v' : World}

theorem observe (h : w.Alike ρ w') (hRenames : r.Renames ρ.toEmbedding r')
    (hShares : Machine.Shares ρ w.machine w'.machine r) (hStep : w'.observe r' = some v') :
    ∃ v, w.observe r = some v ∧ v.Alike ρ v' ∧ Machine.Asks ρ v.machine v'.machine := by
  obtain ⟨hOpen', hAllows, hMachine, hTracees⟩ := observe_eq_some hStep
  have hOpen : w.machine.result = none := h.machine.result.symm.trans hOpen'
  obtain ⟨hAlike, hAsks⟩ := h.machine.step hOpen hRenames hShares
  rw [h.tracees.allows hRenames] at hAllows
  refine ⟨_, by simp only [World.observe, hOpen, hAllows, if_true]; rfl, ⟨?_, ?_⟩, ?_⟩
  · rw [hMachine]
    exact hAlike
  · have hAfter := (h.tracees.observe hRenames).applyAll (w.machine.step r).sv.effects
    rw [← hAsks] at hAfter
    rw [hTracees]
    exact hAfter
  · rw [hMachine]
    exact hAsks

theorem spawn {thread vm : Bool} {c : Pid} (h : w.Alike ρ w')
    (hStep : w'.spawn (ρ p) (ρ c) thread vm = some v') :
    ∃ v, w.spawn p c thread vm = some v ∧ v.Alike ρ v' := by
  obtain ⟨x', hParent, hChild, hRan, hIdle, hMem, rfl⟩ := spawn_eq_some hStep
  rw [h.tracees.task, Option.map_eq_none_iff] at hChild
  rw [h.tracees.task, Option.map_eq_some_iff] at hParent
  obtain ⟨x, hTask, rfl⟩ := hParent
  have hIdle' : x.cloned = none := Option.map_eq_none_iff.mp hIdle
  have hSpawns : (w.spawn p c thread vm).isSome = true := by
    simp only [World.spawn, hTask, hChild]
    rw [if_pos ⟨hRan, hIdle', hMem⟩]
    rfl
  obtain ⟨v, hSpawn⟩ := Option.isSome_iff_exists.mp hSpawns
  refine ⟨v, hSpawn, ?_⟩
  obtain ⟨_, hSame, _, _, _, _, rfl⟩ := spawn_eq_some hSpawn
  cases hTask.symm.trans hSame
  refine ⟨h.machine, fun q => ?_, congrArg (· + 1) h.tracees.spaces⟩
  simp only [Tracees.task, Map.get_insert, ρ.apply_eq_iff_eq]
  split
  · simp only [Task.rename, h.tracees.spaces, Option.map_some, Option.map_none]
    cases thread with
    | true => rfl
    | false => rfl
  · split
    · rfl
    · exact h.tracees.task q

theorem exec (h : w.Alike ρ w') (hStep : w'.exec (ρ p) = some v') :
    ∃ v, w.exec p = some v ∧ v.Alike ρ v' := by
  obtain ⟨x', hTask, hRan, hIdle, hAlone, rfl⟩ := exec_eq_some hStep
  rw [h.tracees.task, Option.map_eq_some_iff] at hTask
  obtain ⟨x, hTask, rfl⟩ := hTask
  have hIdle' : x.cloned = none := Option.map_eq_none_iff.mp hIdle
  have hAll : (w.tracees.tasks.entries.all fun e => e.1 = p ∨ e.2.group ≠ x.group) = true := by
    rw [List.all_eq_true]
    rintro ⟨q, y⟩ hMem
    have hq : w.tracees.task q = some y := Map.get_eq_some_iff.mpr hMem
    have hOther := hAlone (ρ q) (y.rename ρ) (by rw [h.tracees.task, hq]; rfl)
    simpa [Task.rename] using hOther
  have hExecs : (w.exec p).isSome = true := by
    simp only [World.exec, hTask]
    rw [if_pos ⟨hRan, hIdle', hAll⟩]
    rfl
  obtain ⟨v, hExec⟩ := Option.isSome_iff_exists.mp hExecs
  refine ⟨v, hExec, ?_⟩
  obtain ⟨_, hSame, _, _, _, rfl⟩ := exec_eq_some hExec
  cases hTask.symm.trans hSame
  refine ⟨h.machine, fun q => ?_, congrArg (· + 1) h.tracees.spaces⟩
  simp only [Tracees.task, Map.get_insert, ρ.apply_eq_iff_eq]
  split
  · simp [Task.rename, h.tracees.spaces]
  · exact h.tracees.task q

theorem leaderLast (h : w.Alike ρ w') (hRenames : r.Renames ρ.toEmbedding r')
    (hLast : w'.LeaderLast (.report r')) : w.LeaderLast (.report r) := by
  have hDeath : r'.death = r.death.map ρ := by
    simp only [Report.death, hRenames.status]
    cases r.status with
    | error e => rfl
    | ok status => cases status <;> rfl
  simp only [LeaderLast, hDeath] at hLast ⊢
  cases hGone : r.death with
  | none => rfl
  | some p =>
    rw [hGone] at hLast
    simp only [Option.map_some, Option.all_some, List.all_eq_true] at hLast ⊢
    rintro ⟨q, x⟩ hMem
    have hTask : w.tracees.task q = some x := Map.get_eq_some_iff.mpr hMem
    have hTask' : w'.tracees.task (ρ q) = some (x.rename ρ) := by rw [h.tracees.task, hTask]; rfl
    have hOther := hLast ⟨ρ q, x.rename ρ⟩ (Map.get_eq_some_iff.mp hTask')
    simpa [Task.rename] using hOther

theorem congr {τ : Equiv.Perm Pid} (h : w.Alike ρ w')
    (hWithin : w.machine.sv.Within fun q => w.tracees.phase q ≠ none)
    (hAwaits : w.machine.awaits = [])
    (hGroup : ∀ q g, w.tracees.group q = some g → w.tracees.phase g ≠ none)
    (hCloned : ∀ q, w.tracees.cloned q = none)
    (hSame : ∀ q, w.tracees.phase q ≠ none → ρ q = τ q) : w.Alike τ w' := by
  refine ⟨⟨?_, ?_, h.machine.result⟩, h.tracees.congr hSame (fun q g hq => hSame g (hGroup q g hq))
    fun q c hq => ?_⟩
  · rw [h.machine.sv]
    exact hWithin.rename_congr hSame
  · rw [h.machine.awaits, hAwaits]
    rfl
  · rw [hCloned] at hq
    cases hq

end World.Alike

end Dtrun
