import Dtrun.Host.Spawn

/-! # The setup comes to an end

The parent reads from the child and then waits for it, the child reads from the parent in between.
Neither waits for the other while the other waits for it, unless the byte of `maps_done` has got
lost; and the two make a bounded number of calls until the parent supervises or is gone.
-/
namespace Dtrun.Spawning
set_option autoImplicit false
open FiniteMap Lifecycle Oci Pipes Transition

/-! ## How many calls are left -/

/-- The calls that the parent still makes at most, up to the supervision. -/
def Parent.callsLeft : Parent → Nat
  | .readReady => 14
  | .mapRootUser rest => 10 + rest.length
  | .writeMapsDone => 9
  | .spawnRelays => 8
  | .waitChild => 7
  | .setOptions => 6
  | .writeState => 5
  | .openFifo => 4
  | .readByte => 3
  | .rewriteState => 2
  | .ending _ => 1
  | .supervise | .exited _ => 0

/-- The calls that the child still makes at most, up to its stop. -/
def Child.callsLeft : Child → Nat
  | .writeReady => 4
  | .readMapsDone => 3
  | .setup => 2
  | .raise => 1
  | .proceeds | .dead _ => 0

def Spawn.callsLeft (s : Spawn) : Nat := s.parent.callsLeft + s.child.callsLeft

def Label.isCall : Label → Bool
  | .parent _ | .child _ => true
  | .exits _ | .signal _ => false

/-! ## What a turn of the child does -/

def Parent.hasExited : Parent → Bool
  | .exited _ => true
  | _ => false

def Child.pastTraceme : Child → Bool
  | .raise | .proceeds => true
  | _ => false

theorem Parent.stays_of_settingUp {parent : Parent} (h : parent.settingUp = true) :
    parent.hasExited = false := by
  cases parent <;> first | rfl | cases h

namespace Spawn

inductive ChildTurn (s : Spawn) : Spawn → Prop
  | tells {pipe : Pipe Party} {data : List (BitVec 8)} (hChild : s.child = .writeReady)
      (hWrite : s.childReady.write data = some pipe) (hData : data ≠ []) :
      ChildTurn s { s with childReady := pipe, child := .readMapsDone }
  | hears {data : List (BitVec 8)} {pipe : Pipe Party} {n : Nat} (hChild : s.child = .readMapsDone)
      (hRead : s.mapsDone.read n = some (data, pipe)) :
      ChildTurn s { s with mapsDone := pipe, child := .setup }
  | setsUp {tracer : Tracer} (hChild : s.child = .setup)
      (hTracer : s.parent.hasExited = false → tracer = .parent) :
      ChildTurn s { s with child := .raise, tracer := some tracer }
  | raises (hChild : s.child = .raise) :
      ChildTurn s { s with
        child := .proceeds
        stop := if s.tracer.isSome then some .SIGSTOP else none }
  | fails (death : Death) (hEarly : s.child.callsLeft ≠ 0) : ChildTurn s (s.dies death)

/-- What others do to an init that lives. -/
inductive OutsideTurn (s : Spawn) : Spawn → Prop
  | ends (death : Death) : OutsideTurn s (s.dies death)
  | resumes (hTracer : s.tracer = none) : OutsideTurn s { s with stop := none }
  | stops {sig : Signal} (hTracer : s.tracer = none → sig = .SIGSTOP) :
      OutsideTurn s { s with stop := some sig }
  | ignored : OutsideTurn s s

variable {texts : Texts} {ids : Ids} {config : OciConfig} {op : Operation} {s t : Spawn}

theorem childStep_turn {result : Except Errno Unit} (hStep : s.childStep result = some t) :
    s.ChildTurn t := by
  unfold childStep at hStep
  split at hStep
  · cases hStep
  cases hChild : s.child with
  | dead death | proceeds => simp [hChild] at hStep
  | writeReady =>
    cases result with
    | error e =>
      simp only [hChild] at hStep
      cases hStep
      exact .fails _ (by simp [hChild, Child.callsLeft])
    | ok u =>
      simp only [hChild, Option.map_eq_some_iff] at hStep
      obtain ⟨_, hWrite, rfl⟩ := hStep
      exact .tells hChild hWrite (List.cons_ne_nil _ _)
  | readMapsDone =>
    cases result with
    | error e =>
      simp only [hChild] at hStep
      cases hStep
      exact .fails _ (by simp [hChild, Child.callsLeft])
    | ok u =>
      simp only [hChild, Option.map_eq_some_iff] at hStep
      obtain ⟨_, hRead, rfl⟩ := hStep
      exact .hears hChild hRead
  | setup =>
    cases result with
    | error e =>
      simp only [hChild] at hStep
      cases hStep
      exact .fails _ (by simp [hChild, Child.callsLeft])
    | ok u =>
      simp only [hChild] at hStep
      cases hStep
      refine .setsUp hChild fun hStays => ?_
      cases hParent : s.parent with
      | exited failure =>
        rw [hParent] at hStays
        cases hStays
      | _ => rfl
  | raise =>
    cases result with
    | error e => simp [hChild] at hStep
    | ok u =>
      simp only [hChild] at hStep
      cases hStep
      exact .raises hChild

theorem parentStep_readReady {result : Except Errno Unit} (hParent : s.parent = .readReady)
    (hStep : s.parentStep texts ids config op result = some t) :
    t.childReady.readers = s.childReady.readers ∧ t.childReady.writers = s.childReady.writers ∧
      (s.childReady.unread = [] → t.childReady.unread = []) := by
  cases result with
  | error e =>
    simp only [parentStep, hParent] at hStep
    cases hStep
    exact ⟨rfl, rfl, id⟩
  | ok u =>
    simp only [parentStep, hParent, Option.map_eq_some_iff] at hStep
    obtain ⟨_, hRead, rfl⟩ := hStep
    obtain ⟨_, _, hPipe⟩ := Pipe.read_eq_some_iff.mp hRead
    simp only [hPipe, true_and]
    intro hEmpty
    rw [hEmpty, List.drop_nil]

theorem deliver_turn {sig : Signal} (hStep : s.deliver sig = some t) : s.OutsideTurn t := by
  unfold deliver at hStep
  split at hStep
  · cases hStep
  split at hStep
  · cases hStep
    exact .ends _
  split at hStep
  · split at hStep
    · rename_i hResumed
      cases hStep
      exact .resumes hResumed.2
    · cases hStep
  split at hStep
  · rename_i hStops
    cases hStep
    exact .stops fun hTracer => hStops.resolve_left (by simp [hTracer])
  · cases hStep
    exact .ignored

theorem exits_turn {code : Int}
    (hStep : s.step texts ids config op (.exits code) = some t) : s.OutsideTurn t := by
  simp only [step] at hStep
  split at hStep
  · cases hStep
    exact .ends _
  · cases hStep

end Spawn

/-! ## A run of the setup is bounded -/

theorem Parent.Follows.callsLeft_lt {before next : Parent} (h : before.Follows next) :
    next.callsLeft < before.callsLeft := by
  cases h <;> decide

namespace Spawn

variable {texts : Texts} {ids : Ids} {config : OciConfig} {op : Operation} {s t : Spawn}

theorem callsLeft_parentExits (failure : Option Failure) :
    (s.parentExits failure).callsLeft ≤ s.child.callsLeft := by
  unfold parentExits
  split
  · exact Nat.zero_le _
  · exact Nat.le_of_eq (Nat.zero_add _)

theorem GivesUp.callsLeft {result : Except Errno Unit} (h : s.GivesUp result)
    (hSetup : s.parent ≠ .supervise) : 1 < s.parent.callsLeft := by
  cases h with
  | early hExposed =>
    cases hParent : s.parent with
    | mapRootUser rest =>
      simp only [Parent.callsLeft]
      omega
    | spawnRelays | waitChild | setOptions => decide
    | _ => simp [hParent, Parent.exposed] at hExposed
  | child hParent _ =>
    rw [hParent]
    decide
  | late hLate =>
    cases hParent : s.parent with
    | supervise => exact absurd hParent hSetup
    | writeState | openFifo | readByte | rewriteState => decide
    | _ => simp [hParent, Parent.late] at hLate

theorem callsLeft_parentStep {result : Except Errno Unit} (hSetup : s.parent ≠ .supervise)
    (hStep : s.parentStep texts ids config op result = some t) :
    1 + t.callsLeft ≤ s.callsLeft := by
  cases parentStep_turn hStep with
  | starts pipe hParent =>
    simp only [callsLeft, Parent.callsLeft, hParent, idMaps, mapRootUser, List.length_cons,
      List.length_nil]
    omega
  | maps hParent | mapped hParent | tells hParent _ | attaches hParent =>
    simp only [callsLeft, Parent.callsLeft, hParent, List.length_cons, List.length_nil]
    omega
  | resumes hParent => exact absurd hParent hSetup
  | goes hParent hFollows =>
    subst hParent
    have hLess := hFollows.callsLeft_lt
    simp only [callsLeft]
    omega
  | givesUp failure hWhy =>
    have hMore := hWhy.callsLeft hSetup
    change 1 + (1 + s.child.callsLeft) ≤ s.parent.callsLeft + s.child.callsLeft
    omega
  | exits hParent =>
    rename_i failure
    have hChild := callsLeft_parentExits (s := s) failure
    simp only [callsLeft, hParent, Parent.callsLeft] at hChild ⊢
    omega

theorem ChildTurn.callsLeft_le (h : s.ChildTurn t) (hParent : t.parent = s.parent) :
    1 + t.callsLeft ≤ s.callsLeft := by
  simp only [callsLeft, hParent]
  cases h with
  | tells hChild _ _ | hears hChild _ | setsUp hChild _ | raises hChild =>
    simp only [hChild, Child.callsLeft]
    omega
  | fails death hEarly =>
    change 1 + (_ + 0) ≤ _
    omega

theorem OutsideTurn.callsLeft_le (h : s.OutsideTurn t) : t.callsLeft ≤ s.callsLeft := by
  cases h with
  | ends death => exact Nat.le_add_right _ _
  | resumes _ | stops _ | ignored => exact Nat.le_refl _

theorem callsLeft_step {l : Label} (hSetup : s.parent ≠ .supervise)
    (hStep : s.step texts ids config op l = some t) :
    (if l.isCall then 1 else 0) + t.callsLeft ≤ s.callsLeft := by
  cases l with
  | parent result => exact callsLeft_parentStep hSetup hStep
  | child result =>
    obtain ⟨hParent, _⟩ := childStep_frame hStep
    exact (childStep_turn hStep).callsLeft_le hParent
  | exits code =>
    rw [Label.isCall, if_neg Bool.false_ne_true, Nat.zero_add]
    exact (exits_turn hStep).callsLeft_le
  | signal sig =>
    rw [Label.isCall, if_neg Bool.false_ne_true, Nat.zero_add]
    exact (deliver_turn hStep).callsLeft_le

end Spawn

/-! ## Who has which end, and who traces the child -/

structure Met (s : Spawn) : Prop where
  reads : s.Alive → .child ∈ s.childReady.readers
  writes : ∀ p, p ∈ s.childReady.writers ↔ p = .child ∧ s.Alive
  unsaid : s.child = .writeReady → s.childReady.unread = []
  said : s.parent = .readReady → s.Alive → s.child ≠ .writeReady → s.childReady.unread ≠ []
  untraced : 2 ≤ s.child.callsLeft → s.tracer = none
  traced : s.child.pastTraceme = true → s.parent.hasExited = false → s.tracer = some .parent
  own : s.tracer = none → ∀ sig ∈ s.stop, sig = .SIGSTOP
  stopped : s.parent.settingUp = true → s.child = .proceeds → s.stop ≠ none

namespace Met

variable {texts : Texts} {ids : Ids} {config : OciConfig} {op : Operation} {s t : Spawn}

theorem cloned : Met .cloned where
  reads _ := by decide
  writes p := by
    simp [Spawn.cloned, Spawn.Alive]
  unsaid _ := rfl
  said _ _ hChild := absurd rfl hChild
  untraced _ := rfl
  traced hPast := by cases hPast
  own _ sig hStop := by cases hStop
  stopped _ hChild := by cases hChild

theorem dies (h : Met s) (death : Death) : Met (s.dies death) where
  reads hAlive := absurd rfl (hAlive death)
  writes p := by
    constructor
    · intro hWriter
      obtain ⟨hOther, hWriter⟩ := Finset.mem_erase.mp hWriter
      exact absurd ((h.writes p).mp hWriter).1 hOther
    · rintro ⟨_, hAlive⟩
      exact absurd rfl (hAlive death)
  unsaid hChild := by cases hChild
  said _ hAlive := absurd rfl (hAlive death)
  untraced hLeft := absurd hLeft (Nat.not_succ_le_zero 1)
  traced hPast := by cases hPast
  own _ sig hStop := by cases hStop
  stopped _ hChild := by cases hChild

theorem goes (h : Met s) (hChild : t.child = s.child) (hStop : t.stop = s.stop)
    (hTracer : t.tracer = s.tracer) (hReaders : t.childReady.readers = s.childReady.readers)
    (hWriters : t.childReady.writers = s.childReady.writers)
    (hUnread : s.childReady.unread = [] → t.childReady.unread = [])
    (hParent : t.parent ≠ .readReady) (hStays : s.parent.hasExited = false)
    (hSetup : t.parent.settingUp = true → s.parent.settingUp = true) : Met t where
  reads hAlive := hReaders ▸ h.reads (Spawn.alive_of_eq hChild hAlive)
  writes p := by
    rw [hWriters, h.writes, Spawn.Alive, Spawn.Alive, hChild]
  unsaid hNext := hUnread (h.unsaid (hChild ▸ hNext))
  said hNext := absurd hNext hParent
  untraced hLeft := by
    rw [hTracer]
    exact h.untraced (hChild ▸ hLeft)
  traced hPast _ := by
    rw [hTracer]
    exact h.traced (hChild ▸ hPast) hStays
  own hNone := by
    rw [hStop]
    exact h.own (hTracer ▸ hNone)
  stopped hSetting hNext := by
    rw [hStop]
    exact h.stopped (hSetup hSetting) (hChild ▸ hNext)

theorem parentExits (h : Met s) (result : Option Failure) : Met (s.parentExits result) := by
  have hExits : Met { s with
      parent := .exited result
      childReady := s.childReady.closedBy .parent
      mapsDone := s.mapsDone.closedBy .parent } := by
    constructor
    · exact fun hAlive => Finset.mem_erase.mpr
        ⟨by decide, h.reads (Spawn.alive_of_eq rfl hAlive)⟩
    · intro p
      refine Finset.mem_erase.trans (Iff.trans (and_congr_right' (h.writes p)) ?_)
      rw [and_iff_right_of_imp]
      · exact Iff.rfl
      · rintro ⟨rfl, _⟩
        decide
    · intro hChild
      by_contra hUnread
      exact Pipe.closedBy_unread_ne_nil hUnread (h.unsaid hChild)
    · intro hParent
      cases hParent
    · exact h.untraced
    · intro _ hStays
      cases hStays
    · exact h.own
    · intro hSetting
      cases hSetting
  unfold Spawn.parentExits
  split
  · exact hExits.dies .killed
  · refine ⟨hExits.reads, hExits.writes, hExits.unsaid, hExits.said, fun hLeft => ?_,
      fun _ hStays => ?_, fun _ sig hStop => ?_, fun hSetting => ?_⟩
    · rw [ite_eq_left_iff]
      exact fun _ => h.untraced hLeft
    · cases hStays
    · exact of_decide_eq_true (Option.mem_filter_iff.mp hStop).2
    · cases hSetting

theorem childTurn (h : Met s) (hTurn : s.ChildTurn t) (hAlive : s.Alive) : Met t := by
  have hWrites (hLives : t.Alive) (hWriters : t.childReady.writers = s.childReady.writers) :
      ∀ p, p ∈ t.childReady.writers ↔ p = .child ∧ t.Alive := by
    intro p
    rw [hWriters, h.writes, and_iff_left hAlive, and_iff_left hLives]
  cases hTurn with
  | tells hChild hWrite hData =>
    obtain ⟨_, rfl⟩ := Pipe.write_eq_some_iff.mp hWrite
    refine ⟨fun _ => h.reads hAlive, hWrites (fun _ hDead => by cases hDead) rfl,
      fun hNext => ?_, fun _ _ _ => ?_, fun _ => ?_, fun hPast => ?_, h.own, fun _ hNext => ?_⟩
    · cases hNext
    · exact List.append_ne_nil_of_right_ne_nil _ hData
    · exact h.untraced (by rw [hChild]; decide)
    · cases hPast
    · cases hNext
  | hears hChild _ =>
    refine ⟨fun _ => h.reads hAlive, hWrites (fun _ hDead => by cases hDead) rfl,
      fun hNext => ?_, fun hParent _ _ => ?_, fun _ => ?_, fun hPast => ?_, h.own,
      fun _ hNext => ?_⟩
    · cases hNext
    · exact h.said hParent hAlive (by rw [hChild]; decide)
    · exact h.untraced (by rw [hChild]; decide)
    · cases hPast
    · cases hNext
  | setsUp hChild hTracer =>
    refine ⟨fun _ => h.reads hAlive, hWrites (fun _ hDead => by cases hDead) rfl,
      fun hNext => ?_, fun hParent _ _ => ?_, fun hLeft => ?_, fun _ hStays => ?_,
      fun hNone => ?_, fun _ hNext => ?_⟩
    · cases hNext
    · exact h.said hParent hAlive (by rw [hChild]; decide)
    · exact absurd hLeft (Nat.lt_irrefl 1)
    · rw [hTracer hStays]
    · cases hNone
    · cases hNext
  | raises hChild =>
    have hTraced (hStays : s.parent.hasExited = false) : s.tracer = some .parent :=
      h.traced (by rw [hChild]; rfl) hStays
    refine ⟨fun _ => h.reads hAlive, hWrites (fun _ hDead => by cases hDead) rfl,
      fun hNext => ?_, fun hParent _ _ => ?_, fun hLeft => ?_, fun _ => hTraced,
      fun hNone sig hStop => ?_, fun hSetting _ => ?_⟩
    · cases hNext
    · exact h.said hParent hAlive (by rw [hChild]; decide)
    · exact absurd hLeft (Nat.not_succ_le_zero 1)
    · have hNone : s.tracer = none := hNone
      simp [hNone] at hStop
    · rw [hTraced (Parent.stays_of_settingUp hSetting)]
      exact Option.some_ne_none _
  | fails death _ => exact h.dies death

theorem outsideTurn (h : Met s) (hTurn : s.OutsideTurn t) : Met t := by
  cases hTurn with
  | ends death => exact h.dies death
  | resumes hTracer =>
    refine ⟨h.reads, h.writes, h.unsaid, h.said, h.untraced, h.traced, fun _ sig hStop => ?_,
      fun hSetting hChild => ?_⟩
    · cases hStop
    · have hTraced := h.traced (by rw [hChild]; rfl) (Parent.stays_of_settingUp hSetting)
      rw [hTracer] at hTraced
      cases hTraced
  | stops hOwn =>
    refine ⟨h.reads, h.writes, h.unsaid, h.said, h.untraced, h.traced, fun hNone sig hStop => ?_,
      fun _ _ => Option.some_ne_none _⟩
    cases hStop
    exact hOwn hNone
  | ignored => exact h

theorem parentStep {result : Except Errno Unit} (h : Met s)
    (hStep : s.parentStep texts ids config op result = some t) : Met t := by
  have hTurn := Spawn.parentStep_turn hStep
  have hStays : s.parent.hasExited = false := by
    cases hParent : s.parent with
    | exited failure => simp [Spawn.parentStep, hParent] at hStep
    | _ => rfl
  cases hTurn with
  | starts pipe hParent =>
    obtain ⟨hReaders, hWriters, hUnread⟩ := Spawn.parentStep_readReady hParent hStep
    exact h.goes rfl rfl rfl hReaders hWriters hUnread Parent.noConfusion hStays
      fun _ => by rw [hParent]; rfl
  | maps hParent | mapped hParent | tells hParent _ =>
    exact h.goes rfl rfl rfl rfl rfl id Parent.noConfusion hStays fun _ => by rw [hParent]; rfl
  | goes hParent hFollows =>
    cases hFollows with
    | relays | wait | stopped =>
      exact h.goes rfl rfl rfl rfl rfl id Parent.noConfusion hStays fun _ => by rw [hParent]; rfl
    | fifo | run | byte | rewrite | supervise =>
      exact h.goes rfl rfl rfl rfl rfl id Parent.noConfusion hStays
        fun hSetting => by cases hSetting
  | attaches _ | givesUp _ _ =>
    exact h.goes rfl rfl rfl rfl rfl id Parent.noConfusion hStays fun hSetting => by cases hSetting
  | resumes hParent =>
    refine ⟨h.reads, h.writes, h.unsaid, fun hNext => ?_, h.untraced, fun hPast _ => ?_,
      fun _ sig hStop => ?_, fun hSetting => ?_⟩
    · cases hNext
    · exact h.traced hPast hStays
    · cases hStop
    · cases hSetting
  | exits _ => exact h.parentExits _

theorem step {l : Label} (h : Met s) (hStep : s.step texts ids config op l = some t) : Met t := by
  cases l with
  | parent result => exact h.parentStep hStep
  | child result =>
    obtain ⟨_, _, _, hAlive⟩ := Spawn.childStep_frame hStep
    exact h.childTurn (Spawn.childStep_turn hStep) hAlive
  | exits code => exact h.outsideTurn (Spawn.exits_turn hStep)
  | signal sig => exact h.outsideTurn (Spawn.deliver_turn hStep)

theorem reach {ok : Spawn → Label → Prop} (h : (system texts ids config op).Reach ok s) : Met s :=
  h.invariant (fun _ hInit => hInit ▸ cloned) fun _ _ _ _ hs _ hStep => hs.step hStep

end Met

/-! ## The byte that the child waits for -/

/-- The byte for the child is not lost: the write fails only when the child is dead. -/
def Told (s : Spawn) (l : Label) : Prop :=
  match l with
  | .parent (.error _) => s.parent = .writeMapsDone → ¬ s.Alive
  | _ => True

instance (s : Spawn) (l : Label) : Decidable (Told s l) :=
  match l with
  | .parent (.error _) => inferInstanceAs (Decidable (_ = _ → ¬ _))
  | .parent (.ok ()) | .child _ | .exits _ | .signal _ => .isTrue trivial

/-- The parent is past the write of `maps_done`, on its way to wait for the child. -/
def Parent.hasTold : Parent → Bool
  | .spawnRelays | .waitChild => true
  | _ => false

def Heard (s : Spawn) : Prop :=
  s.parent.hasTold = true → s.Alive → 3 ≤ s.child.callsLeft → s.mapsDone.unread ≠ []

namespace Heard

variable {texts : Texts} {ids : Ids} {config : OciConfig} {op : Operation} {s t : Spawn}

theorem of_not_told (h : t.parent.hasTold = false) : Heard t := fun hTold => by
  rw [h] at hTold
  cases hTold

theorem congr (h : Heard s) (hParent : t.parent = s.parent) (hAlive : s.Alive)
    (hPipe : t.mapsDone = s.mapsDone) (hChild : 3 ≤ t.child.callsLeft → 3 ≤ s.child.callsLeft) :
    Heard t := by
  intro hTold _ hLeft
  rw [hPipe]
  exact h (hParent ▸ hTold) hAlive (hChild hLeft)

theorem dies (death : Death) : Heard (s.dies death) := fun _ hAlive => absurd rfl (hAlive death)

theorem outsideTurn (h : Heard s) (hAlive : s.Alive) (hTurn : s.OutsideTurn t) : Heard t := by
  cases hTurn with
  | ends death => exact dies death
  | resumes _ | stops _ | ignored => exact h.congr rfl hAlive rfl id

theorem parentStep {result : Except Errno Unit} (h : Heard s) (hOk : Told s (.parent result))
    (hStep : s.parentStep texts ids config op result = some t) : Heard t := by
  by_cases hWrites : s.parent = .writeMapsDone
  · cases result with
    | error e =>
      simp only [Spawn.parentStep, hWrites] at hStep
      cases hStep
      exact fun _ hAlive => absurd (Spawn.alive_of_eq rfl hAlive) (hOk hWrites)
    | ok u =>
      simp only [Spawn.parentStep, hWrites, Option.map_eq_some_iff] at hStep
      obtain ⟨_, hWrite, rfl⟩ := hStep
      obtain ⟨_, rfl⟩ := Pipe.write_eq_some_iff.mp hWrite
      exact fun _ _ _ => List.append_ne_nil_of_right_ne_nil _ (List.cons_ne_nil _ _)
  cases Spawn.parentStep_turn hStep with
  | starts _ _ | maps _ | mapped _ | attaches _ | resumes _ | givesUp _ _ => exact of_not_told rfl
  | tells hParent _ => exact absurd hParent hWrites
  | goes hParent hFollows =>
    cases hFollows with
    | relays => exact absurd hParent hWrites
    | wait => exact fun _ hAlive => h (by rw [hParent]; rfl) (Spawn.alive_of_eq rfl hAlive)
    | stopped | fifo | run | byte | rewrite | supervise => exact of_not_told rfl
  | exits _ =>
    unfold Spawn.parentExits
    split
    · exact dies _
    · exact of_not_told rfl

theorem step {l : Label} (h : Heard s) (hOk : Told s l)
    (hStep : s.step texts ids config op l = some t) : Heard t := by
  cases l with
  | parent result => exact h.parentStep hOk hStep
  | child result =>
    obtain ⟨_, _, _, hAlive⟩ := Spawn.childStep_frame hStep
    cases Spawn.childStep_turn hStep with
    | tells hChild _ _ => exact h.congr rfl hAlive rfl fun _ => by rw [hChild]; decide
    | hears _ _ | setsUp _ _ | raises _ =>
      intro _ _ hLeft
      simp [Child.callsLeft] at hLeft
    | fails death _ => exact dies death
  | exits code =>
    obtain ⟨_, _, _, hAlive⟩ := Spawn.step_frame (fun _ hEq => by cases hEq) hStep
    exact h.outsideTurn hAlive (Spawn.exits_turn hStep)
  | signal sig =>
    obtain ⟨_, _, _, hAlive⟩ := Spawn.deliver_frame hStep
    exact h.outsideTurn hAlive (Spawn.deliver_turn hStep)

theorem reach (h : (system texts ids config op).Reach Told s) : Heard s :=
  h.invariant (fun _ hInit => hInit ▸ of_not_told rfl) fun _ _ _ _ hs hOk hStep => hs.step hOk hStep

end Heard

/-! ## Nobody waits in vain -/

namespace Spawn

def ParentWaits (ids : Ids) (s : Spawn) : Prop :=
  s.parent = .readReady ∧ s.childReady.read 1 = none ∨ s.parent = .waitChild ∧ s.status ids = none

/-- The child waits for a byte that the parent is not going to send any more. -/
structure Unanswered (s : Spawn) : Prop where
  parent : s.parent = .waitChild
  child : s.child = .readMapsDone
  runs : s.stop = none
  empty : s.mapsDone.unread = []

/-- The child was stopped by others before it could say that it is there. -/
structure Halted (s : Spawn) : Prop where
  parent : s.parent = .readReady
  child : s.child = .writeReady
  stop : s.stop = some .SIGSTOP
  tracer : s.tracer = none

variable {texts : Texts} {ids : Ids} {config : OciConfig} {op : Operation} {s t : Spawn}

theorem status_eq_none_iff : s.status ids = none ↔ s.Alive ∧ s.stop = none := by
  by_cases hAlive : s.Alive
  · rw [status_of_alive hAlive, Option.map_eq_none_iff, and_iff_right hAlive]
  · have hDead : ∃ death, s.child = .dead death := by
      simpa [Alive] using hAlive
    obtain ⟨death, hChild⟩ := hDead
    cases death with
    | exited code | killed => simp [status, hChild, hAlive]

theorem read_eq_none_iff {p : Pipe Party} {n : Nat} :
    p.read n = none ↔ p.unread = [] ∧ p.writers ≠ ∅ := by
  rw [Pipe.read]
  split
  · rename_i hWaits
    simp [hWaits]
  · rename_i hReads
    simp only [reduceCtorEq, false_iff]
    exact hReads

/-- A child that runs and cannot return from its call is the one that reads from `maps_done`. -/
theorem childWaits (h : Met s) (hAlive : s.Alive) (hRuns : s.stop = none)
    (hSetting : s.parent.settingUp = true) (hStep : s.childStep (.ok ()) = none) :
    s.child = .readMapsDone ∧ s.mapsDone.unread = [] := by
  simp only [childStep, hRuns, Option.isSome_none, Bool.false_eq_true, if_false] at hStep
  cases hChild : s.child with
  | dead death => exact absurd hChild (hAlive death)
  | proceeds => exact absurd hRuns (h.stopped hSetting hChild)
  | setup | raise => simp [hChild] at hStep
  | writeReady =>
    simp only [hChild, Option.map_eq_none_iff, Pipe.write] at hStep
    rw [if_neg (Finset.ne_empty_of_mem (h.reads hAlive))] at hStep
    cases hStep
  | readMapsDone =>
    simp only [hChild, Option.map_eq_none_iff] at hStep
    exact ⟨rfl, (read_eq_none_iff.mp hStep).1⟩

theorem waits_iff {ok : Spawn → Label → Prop} (h : (system texts ids config op).Reach ok s) :
    s.ParentWaits ids ∧ s.childStep (.ok ()) = none ↔ s.Unanswered ∨ s.Halted := by
  have hMet := Met.reach h
  constructor
  · rintro ⟨⟨hParent, hRead⟩ | ⟨hParent, hStatus⟩, hStep⟩
    · right
      obtain ⟨hEmpty, hWriters⟩ := read_eq_none_iff.mp hRead
      obtain ⟨p, hWriter⟩ := Finset.nonempty_iff_ne_empty.mpr hWriters
      obtain ⟨_, hAlive⟩ := (hMet.writes p).mp hWriter
      have hChild : s.child = .writeReady := by
        by_contra hPast
        exact hMet.said hParent hAlive hPast hEmpty
      have hTracer : s.tracer = none := hMet.untraced (by rw [hChild]; decide)
      refine ⟨hParent, hChild, ?_, hTracer⟩
      cases hStop : s.stop with
      | none =>
        obtain ⟨hReads, _⟩ := childWaits hMet hAlive hStop (by rw [hParent]; rfl) hStep
        cases hChild.symm.trans hReads
      | some sig => rw [hMet.own hTracer sig hStop]
    · left
      obtain ⟨hAlive, hRuns⟩ := status_eq_none_iff.mp hStatus
      obtain ⟨hChild, hEmpty⟩ := childWaits hMet hAlive hRuns (by rw [hParent]; rfl) hStep
      exact ⟨hParent, hChild, hRuns, hEmpty⟩
  · rintro (⟨hParent, hChild, hRuns, hEmpty⟩ | ⟨hParent, hChild, hStop, hTracer⟩)
    · have hAlive : s.Alive := by simp [Alive, hChild]
      have hRead : s.mapsDone.read 1 = none := read_eq_none_iff.mpr
        ⟨hEmpty, Finset.ne_empty_of_mem ((Shaken.reach h).holds hAlive)⟩
      refine ⟨.inr ⟨hParent, status_eq_none_iff.mpr ⟨hAlive, hRuns⟩⟩, ?_⟩
      simp [childStep, hRuns, hChild, hRead]
    · have hAlive : s.Alive := by simp [Alive, hChild]
      have hRead : s.childReady.read 1 = none := read_eq_none_iff.mpr
        ⟨hMet.unsaid hChild, Finset.ne_empty_of_mem ((hMet.writes .child).mpr ⟨rfl, hAlive⟩)⟩
      refine ⟨.inl ⟨hParent, hRead⟩, ?_⟩
      simp [childStep, hStop]

theorem answered (h : (system texts ids config op).Reach Told s) : ¬ s.Unanswered :=
  fun ⟨hParent, hChild, _, hEmpty⟩ =>
    Heard.reach h (by rw [hParent]; rfl) (by simp [Alive, hChild]) (by rw [hChild]; decide) hEmpty

/-- The two wait for each other only where the byte of `maps_done` got lost, or the child was
stopped from outside before the handshake; and up to the supervision they make at most 18 calls. -/
theorem setup_ends (texts : Texts) (ids : Ids) (config : OciConfig) (op : Operation) (s : Spawn) :
    ((system texts ids config op).Reach System.free s →
      (s.ParentWaits ids ∧ s.childStep (.ok ()) = none ↔ s.Unanswered ∨ s.Halted)) ∧
    ((system texts ids config op).Reach Told s → ¬ s.Unanswered) ∧
    ∀ labels, (system texts ids config op).Run (fun t _ => t.parent ≠ .supervise) .cloned labels s →
      labels.countP Label.isCall + s.callsLeft ≤ 18 :=
  ⟨waits_iff, answered, fun _ hRun => hRun.countP_le fun _ _ _ hSetup hStep =>
    callsLeft_step hSetup hStep⟩

/-- The parent waits for the child, which has yet to read its byte. -/
def waiting : List Label :=
  [.child (.ok ()), .parent (.ok ()), .parent (.ok ()), .parent (.ok ()), .parent (.ok ()),
    .parent (.ok ()), .parent (.ok ()), .parent (.ok ())]

theorem setup_ends_waiting : ∃ s : Spawn,
    s.ParentWaits plainIds ∧ (∃ t, s.childStep (.ok ()) = some t) ∧ ¬ s.Unanswered ∧
      waiting.countP Label.isCall + s.callsLeft ≤ 18 := by
  have hRun : ((system plainTexts plainIds plainConfig .run).exec
      (fun s l => Told s l ∧ s.parent ≠ .supervise) .cloned waiting).map
        (fun s => (s.parent, s.status plainIds)) = some (.waitChild, none) := by decide +kernel
  obtain ⟨s, hExec, hs⟩ := Option.map_eq_some_iff.mp hRun
  obtain ⟨hParent, hStatus⟩ := Prod.mk.inj hs
  have hReach := System.reach_of_exec rfl hExec
  obtain ⟨hWaits, hAnswered, hCalls⟩ :=
    setup_ends plainTexts plainIds plainConfig .run s
  have hAnswered := hAnswered (hReach.mono fun _ _ => And.left)
  have hWaiting : s.ParentWaits plainIds := .inr ⟨hParent, hStatus⟩
  refine ⟨s, hWaiting, Option.ne_none_iff_exists'.mp fun hNone => ?_, hAnswered,
    hCalls _ ((System.run_of_exec hExec).mono fun _ _ => And.right)⟩
  rcases (hWaits (hReach.mono fun _ _ _ => trivial)).mp ⟨hWaiting, hNone⟩ with hBad | hHalted
  · exact hAnswered hBad
  · cases hHalted.parent.symm.trans hParent

end Spawn

end Dtrun.Spawning
