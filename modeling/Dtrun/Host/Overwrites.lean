import Dtrun.Host.Waiting

/-! # Whose record is under the id

A daemon writes its container's record whenever it gets to it, into whatever directory then bears
the id. Containers are told apart by the order in which they were spawned: if nobody is spawned
while the keeper of an earlier one can still go on, the record under the id is never older than the
latest one that has been written.
-/
namespace Dtrun.Commands
set_option autoImplicit false
open FiniteMap Host Pipes Transition
open Lifecycle (HostError StateError ENOENT)
open Spawning (Operation)

variable {B : Type}

/-- The container whose record a process keeps: it may write it, or write it again. -/
def Pc.keeps : Pc B → Option Container
  | .createFile c _ _ | .writeFile c _ _ _ _ | .daemonOpen c | .daemonRead c _ | .daemonClose c _
  | .supervise c _ | .openState (.daemon c) | .readFile (.daemon c) _ _ => some c
  | _ => none

def Pc.awaits : Pc B → Option Inode
  | .daemonRead _ i => some i
  | _ => none

def Pc.spawns : Pc B → Bool
  | .spawn _ _ => true
  | _ => false

/-- A daemon that waits for ever. -/
def World.Stuck (w : World B) (p : Process) (pc : Pc B) : Prop := ∃ i ∈ pc.awaits, w.Stranded p i

instance (w : World B) (p : Process) (pc : Pc B) : Decidable (w.Stuck p pc) :=
  inferInstanceAs (Decidable (∃ i ∈ pc.awaits, w.Stranded p i))

/-- A container is spawned when all keepers of others wait for ever; their reads do not fail. -/
def Retires (w : World B) : Label → Prop
  | .step p _ => (w.procs.get p).any Pc.spawns = true →
      ∀ e ∈ w.procs.entries, e.2.keeps.isSome = true → w.Stuck e.1 e.2
  | .fails p _ => ∀ pc ∈ w.procs.get p, ¬ w.Stuck p pc
  | _ => True

instance (w : World B) (l : Label) : Decidable (Retires w l) :=
  match l with
  | .step _ _ => inferInstanceAs (Decidable (_ = _ → ∀ e ∈ _, _ = _ → World.Stuck _ _ _))
  | .fails _ _ => inferInstanceAs (Decidable (∀ pc ∈ _, ¬ World.Stuck _ _ _))
  | .begin _ _ | .dies _ => .isTrue trivial

namespace World

/-- No container that has written its first record was spawned after `c`. -/
def Newest (w : World B) (c : Container) : Prop :=
  ∀ c' op i st, .recorded c' (.first op) i st ∈ w.history → c'.index ≤ c.index

def HasWritten (w : World B) (c : Container) : Prop :=
  ∃ op i st, .recorded c (.first op) i st ∈ w.history

/-- The record under the id is that of a container than which none newer has written one. -/
def Placed (serde : Serde B) (w : World B) : Prop :=
  ∀ i st, w.disk.stateInode = some i → serde.fromStr (w.disk.content i) = .ok st →
    ∃ c u, .recorded c u i st ∈ w.history ∧ st.Of c.origin c.child ∧ w.Newest c

/-- What a keeper holds is its own container's. -/
def Fits (serde : Serde B) (w : World B) : Pc B → Prop
  | .createFile c u st =>
    st.Of c.origin c.child ∧ ((∀ op, u ≠ .first op) → w.HasWritten c)
  | .writeFile c u st i n =>
    st.Of c.origin c.child ∧ ((∀ op, u ≠ .first op) → w.HasWritten c) ∧
      w.disk.files.get i = some ((serde.toStringPretty st).take n) ∧
      n < (serde.toStringPretty st).length ∧ ∀ j, w.disk.stateInode = some j → j = i
  | .supervise c st => st.Of c.origin c.child ∧ w.HasWritten c
  | .readFile (.daemon c) i got =>
    w.HasWritten c ∧ got <+: w.disk.content i ∧
      ∀ st, serde.fromStr (w.disk.content i) = .ok st → st.Of c.origin c.child
  | .openState (.daemon c) | .daemonOpen c | .daemonRead c _ | .daemonClose c _ => w.HasWritten c
  | _ => True

end World

structure Owns (serde : Serde B) (w : World B) : Prop where
  placed : w.Placed serde
  bound : ∀ c u i st, .recorded c u i st ∈ w.history → c.index < w.spawned
  fits : ∀ p pc, w.procs.get p = some pc → w.Fits serde pc
  /-- Only the keeper of the container spawned last can go on. -/
  latest : ∀ p pc c, w.procs.get p = some pc → pc.keeps = some c → ¬ w.Stuck p pc →
    c.index + 1 = w.spawned ∧
      ∀ c' u i st, .recorded c' u i st ∈ w.history → c'.index = c.index → c' = c
  alone : ∀ p q pc pc' c c', w.procs.get p = some pc → w.procs.get q = some pc' →
    pc.keeps = some c → pc'.keeps = some c' → ¬ w.Stuck p pc → ¬ w.Stuck q pc' → p = q

namespace World

variable {serde : Serde B} {w t : World B} {p : Process} {pc pc' : Pc B} {c : Container}

theorem keeps_of_client (h : pc.client = true) : pc.keeps = none := by
  cases pc with
  | openState r | readFile r _ _ =>
    cases r with
    | daemon c => cases h
    | _ => rfl
  | initDir _ _ | makeFifo _ | spawn _ _ | createFile _ _ _ | writeFile _ _ _ _ _ | daemonOpen _
  | daemonRead _ _ | daemonClose _ _ | supervise _ _ => cases h
  | _ => rfl

theorem fits_of_keeps (h : pc.keeps = none) : w.Fits serde pc := by
  cases pc with
  | openState r | readFile r _ _ =>
    cases r with
    | daemon c => cases h
    | _ => trivial
  | createFile _ _ _ | writeFile _ _ _ _ _ | daemonOpen _ | daemonRead _ _ | daemonClose _ _
  | supervise _ _ => cases h
  | _ => trivial

theorem HasWritten.mono (h : w.HasWritten c)
    (hHistory : ∀ e, e ∈ w.history → e ∈ t.history) : t.HasWritten c := by
  obtain ⟨op, i, st, hMem⟩ := h
  exact ⟨op, i, st, hHistory _ hMem⟩

theorem Fits.mono (h : w.Fits serde pc) (hRenamed : w.disk.Renamed t.disk)
    (hHistory : ∀ e, e ∈ w.history → e ∈ t.history) : t.Fits serde pc := by
  have hContent (i : Inode) : t.disk.content i = w.disk.content i := by
    rw [Disk.content, hRenamed.files, Disk.content]
  cases pc with
  | createFile c u st => exact ⟨h.1, fun hUpdate => (h.2 hUpdate).mono hHistory⟩
  | writeFile c u st i n =>
    obtain ⟨hOf, hWritten, hFile, hLength, hName⟩ := h
    refine ⟨hOf, fun hUpdate => (hWritten hUpdate).mono hHistory, ?_, hLength,
      fun j hj => hName j (hRenamed.state j hj)⟩
    rw [hRenamed.files]
    exact hFile
  | supervise c st => exact ⟨h.1, h.2.mono hHistory⟩
  | daemonOpen c | daemonRead c i | daemonClose c i => exact HasWritten.mono h hHistory
  | openState r =>
    cases r with
    | daemon c => exact HasWritten.mono h hHistory
    | _ => trivial
  | readFile r i got =>
    cases r with
    | daemon c =>
      obtain ⟨hWritten, hGot, hOwn⟩ := h
      refine ⟨hWritten.mono hHistory, ?_, fun st hRead => hOwn st ?_⟩
      · rw [hContent]
        exact hGot
      · rw [← hContent]
        exact hRead
    | _ => trivial
  | _ => trivial

theorem Placed.mono (h : w.Placed serde) (hRenamed : w.disk.Renamed t.disk)
    (hOld : ∀ e, e ∈ w.history → e ∈ t.history)
    (hNew : ∀ c u i st, .recorded c u i st ∈ t.history → .recorded c u i st ∈ w.history) :
    t.Placed serde := by
  intro i st hName hRead
  rw [Disk.content, hRenamed.files] at hRead
  obtain ⟨c, u, hMem, hOf, hNewest⟩ := h i st (hRenamed.state i hName) hRead
  exact ⟨c, u, hOld _ hMem, hOf, fun c' op j st' hMem' => hNewest c' op j st' (hNew _ _ _ _ hMem')⟩

theorem same_records (hHistory : t.history = w.history ∨
      ∃ r i result, t.history = .readBack r i result :: w.history) :
    (∀ e, e ∈ w.history → e ∈ t.history) ∧
      ∀ c u i st, .recorded c u i st ∈ t.history → .recorded c u i st ∈ w.history := by
  rcases hHistory with hSame | ⟨r, j, result, hMore⟩
  · rw [hSame]
    exact ⟨fun _ => id, fun _ _ _ _ => id⟩
  · rw [hMore]
    exact ⟨fun e => List.mem_cons_of_mem _,
      fun c u i st hMem => (List.mem_cons.mp hMem).resolve_left nofun⟩

end World

namespace Owns

variable {serde : Serde B} {w t : World B} {p : Process} {pc k : Pc B} {c : Container}

theorem empty : Owns serde (World.empty : World B) where
  placed i st hName _ := by cases hName
  bound c u i st hMem := by cases hMem
  fits p pc hPc := by cases hPc
  latest p pc c hPc := by cases hPc
  alone p q pc k c c' hPc := by cases hPc

theorem passes (h : Owns serde w) (hProcs : t.procs = w.procs.insert p k)
    (hKeeps : k.keeps = none) (hRenamed : w.disk.Renamed t.disk)
    (hSpawned : t.spawned = w.spawned)
    (hOld : ∀ e, e ∈ w.history → e ∈ t.history)
    (hNew : ∀ c u i st, .recorded c u i st ∈ t.history → .recorded c u i st ∈ w.history)
    (hStuck : ∀ q pc, w.procs.get q = some pc → w.Stuck q pc → t.Stuck q pc) : Owns serde t := by
  have hKeeper {q : Process} {pc : Pc B} {c : Container} (hPc : t.procs.get q = some pc)
      (hc : pc.keeps = some c) : w.procs.get q = some pc := by
    rw [hProcs, Map.get_insert] at hPc
    split at hPc
    · cases hPc
      cases hKeeps.symm.trans hc
    · exact hPc
  refine ⟨h.placed.mono hRenamed hOld hNew, fun c u i st hMem => ?_, fun q pc hPc => ?_,
    fun q pc c hPc hc hMoves => ?_, fun q q' pc₁ pc₂ c c' hPc hPc' hc hc' hMoves hMoves' => ?_⟩
  · rw [hSpawned]
    exact h.bound c u i st (hNew c u i st hMem)
  · rw [hProcs, Map.get_insert] at hPc
    split at hPc
    · cases hPc
      exact World.fits_of_keeps hKeeps
    · exact (h.fits q pc hPc).mono hRenamed hOld
  · have hWas := hKeeper hPc hc
    obtain ⟨hIndex, hKnown⟩ := h.latest q pc c hWas hc fun hHeld => hMoves (hStuck q pc hWas hHeld)
    exact ⟨hIndex.trans hSpawned.symm, fun c' u i st hMem => hKnown c' u i st (hNew c' u i st hMem)⟩
  · have hWas := hKeeper hPc hc
    have hWas' := hKeeper hPc' hc'
    exact h.alone q q' pc₁ pc₂ c c' hWas hWas' hc hc' (fun hHeld => hMoves (hStuck q _ hWas hHeld))
      fun hHeld => hMoves' (hStuck q' _ hWas' hHeld)

/-- The keeper of `c` goes on: all other keepers wait for ever. -/
theorem keeperGoes (h : Owns serde w) (hPc : w.procs.get p = some pc) (hc : pc.keeps = some c)
    (hMoves : ¬ w.Stuck p pc) (hProcs : t.procs = w.procs.insert p k)
    (hKeeps : ∀ c', k.keeps = some c' → c' = c) (hSpawned : t.spawned = w.spawned)
    (hOld : ∀ e, e ∈ w.history → e ∈ t.history)
    (hNew : ∀ c' u i st, .recorded c' u i st ∈ t.history →
      .recorded c' u i st ∈ w.history ∨ c' = c)
    (hStuck : ∀ q pc, q ≠ p → w.procs.get q = some pc → w.Stuck q pc → t.Stuck q pc)
    (hPlaced : t.Placed serde) (hFits : t.Fits serde k) : Owns serde t := by
  obtain ⟨hIndex, hKnown⟩ := h.latest p pc c hPc hc hMoves
  have hOther {q : Process} {pc₁ : Pc B} {c₁ : Container} (hq : q ≠ p)
      (hPc₁ : t.procs.get q = some pc₁) (hc₁ : pc₁.keeps = some c₁) :
      w.procs.get q = some pc₁ ∧ w.Stuck q pc₁ := by
    rw [hProcs, Map.get_insert_ne _ _ hq] at hPc₁
    refine ⟨hPc₁, ?_⟩
    by_contra hAlso
    exact hq (h.alone q p pc₁ pc c₁ c hPc₁ hPc hc₁ hc hAlso hMoves)
  have hSelf {pc₁ : Pc B} (hPc₁ : t.procs.get p = some pc₁) : pc₁ = k := by
    rw [hProcs, Map.get_insert_self] at hPc₁
    exact (Option.some.inj hPc₁).symm
  refine ⟨hPlaced, fun c' u i st hMem => ?_, fun q pc₁ hPc₁ => ?_,
    fun q pc₁ c₁ hPc₁ hc₁ hMoves₁ => ?_,
    fun q q' pc₁ pc₂ c₁ c₂ hPc₁ hPc₂ hc₁ hc₂ hMoves₁ hMoves₂ => ?_⟩
  · rw [hSpawned]
    rcases hNew c' u i st hMem with hBefore | rfl
    · exact h.bound c' u i st hBefore
    · omega
  · by_cases hq : q = p
    · subst hq
      rw [hSelf hPc₁]
      exact hFits
    · cases hc₁ : pc₁.keeps with
      | none => exact World.fits_of_keeps hc₁
      | some c₁ =>
        obtain ⟨hWas, i, hAwaits, _⟩ := hOther hq hPc₁ hc₁
        have hFits₁ := h.fits q pc₁ hWas
        cases pc₁ with
        | daemonRead c₁ i => exact World.HasWritten.mono hFits₁ hOld
        | _ => cases hAwaits
  · by_cases hq : q = p
    · subst hq
      cases hSelf hPc₁
      cases hKeeps c₁ hc₁
      refine ⟨hIndex.trans hSpawned.symm, fun c' u i st hMem hSame => ?_⟩
      rcases hNew c' u i st hMem with hBefore | hEq
      · exact hKnown c' u i st hBefore hSame
      · exact hEq
    · obtain ⟨hWas, hHeld⟩ := hOther hq hPc₁ hc₁
      exact absurd (hStuck q pc₁ hq hWas hHeld) hMoves₁
  · have hIs {q : Process} {pc₁ : Pc B} {c₁ : Container} (hPc₁ : t.procs.get q = some pc₁)
        (hc₁ : pc₁.keeps = some c₁) (hMoves₁ : ¬ t.Stuck q pc₁) : q = p := by
      by_contra hq
      obtain ⟨hWas, hHeld⟩ := hOther hq hPc₁ hc₁
      exact hMoves₁ (hStuck q pc₁ hq hWas hHeld)
    rw [hIs hPc₁ hc₁ hMoves₁, hIs hPc₂ hc₂ hMoves₂]

theorem keeperMoves (h : Owns serde w) (hPc : w.procs.get p = some pc) (hc : pc.keeps = some c)
    (hMoves : ¬ w.Stuck p pc) (hProcs : t.procs = w.procs.insert p k)
    (hKeeps : ∀ c', k.keeps = some c' → c' = c) (hSpawned : t.spawned = w.spawned)
    (hDisk : t.disk = w.disk)
    (hHistory : t.history = w.history ∨ ∃ r i result, t.history = .readBack r i result :: w.history)
    (hStuck : ∀ q pc, q ≠ p → w.procs.get q = some pc → w.Stuck q pc → t.Stuck q pc)
    (hFits : w.Fits serde k) : Owns serde t := by
  have hRenamed : w.disk.Renamed t.disk := hDisk ▸ .refl _
  obtain ⟨hOld, hNew⟩ := World.same_records hHistory
  exact h.keeperGoes hPc hc hMoves hProcs hKeeps hSpawned hOld
    (fun c' u i st hMem => .inl (hNew c' u i st hMem)) hStuck (h.placed.mono hRenamed hOld hNew)
    (hFits.mono hRenamed hOld)

theorem failUpdate (h : Owns serde w) {u : Update} {e : Errno} (hPc : w.procs.get p = some pc)
    (hc : pc.keeps = some c) (hMoves : ¬ w.Stuck p pc)
    (hStuck : ∀ q pc, q ≠ p → w.procs.get q = some pc → w.Stuck q pc →
      (w.failUpdate p c u e).Stuck q pc) : Owns serde (w.failUpdate p c u e) := by
  cases u with
  | first op | started | stopped =>
    exact h.keeperMoves hPc hc hMoves (k := .done _) rfl nofun rfl rfl (.inl rfl) hStuck trivial

theorem creates (h : Owns serde w) {u : Update} {st : ContainerState} {o : Outcome}
    (hPc : w.procs.get p = some (.createFile c u st))
    (hStuck : ∀ q pc, q ≠ p → w.procs.get q = some pc → w.Stuck q pc → t.Stuck q pc)
    (hCall : w.call serde p o (.createFile c u st) = some t) : Owns serde t := by
  have hMoves : ¬ w.Stuck p (.createFile c u st : Pc B) := nofun
  simp only [World.call] at hCall
  split at hCall
  · cases hCall
    exact h.failUpdate hPc rfl hMoves hStuck
  · rename_i i disk hCreate
    cases hCall
    obtain ⟨hOf, hWritten⟩ := h.fits p _ hPc
    have hFile : disk.files.get i = some [] := by
      rw [Disk.create_files hCreate, Map.get_insert_self]
    have hName (j : Inode) (hj : disk.stateInode = some j) : j = i :=
      Option.some.inj (hj.symm.trans (Disk.create_stateInode hCreate))
    refine h.keeperGoes hPc rfl hMoves (k := .writeFile c u st i 0) rfl
      (fun c' hc' => (Option.some.inj hc').symm) rfl (fun _ => id) (fun _ _ _ _ => .inl) hStuck
      (fun j st' hj hRead => ?_)
      ⟨hOf, hWritten, hFile, List.length_pos_iff.mpr (serde.toStringPretty_ne_nil st), hName⟩
    rw [hName j hj] at hRead
    change serde.fromStr (disk.content i) = .ok st' at hRead
    rw [Disk.content_of_get hFile, serde.fromStr_nil st] at hRead
    cases hRead

theorem writes (h : Owns serde w) {u : Update} {st : ContainerState} {i : Inode} {n : Nat}
    {o : Outcome} (hPc : w.procs.get p = some (.writeFile c u st i n))
    (hStuck : ∀ q pc, q ≠ p → w.procs.get q = some pc → w.Stuck q pc → t.Stuck q pc)
    (hCall : w.call serde p o (.writeFile c u st i n) = some t) : Owns serde t := by
  have hMoves : ¬ w.Stuck p (.writeFile c u st i n : Pc B) := by rintro ⟨_, ⟨⟩, _⟩
  obtain ⟨hOf, hWritten, hFile, hLength, hName⟩ := h.fits p _ hPc
  obtain ⟨hIndex, _⟩ := h.latest p _ c hPc rfl hMoves
  have hText := overwrite_take serde.nul (serde.toStringPretty st) o.size (Nat.le_of_lt hLength)
  rw [← Disk.content_of_get hFile] at hText
  have hNow : (w.disk.write serde.nul i n
      (((serde.toStringPretty st).drop n).take o.size)).files.get i =
        some ((serde.toStringPretty st).take (n + o.size)) := by
    rw [← hText]
    exact Map.get_insert_self _ _ _
  simp only [World.call] at hCall
  split at hCall
  · cases hCall
  cases hCall
  split
  · rename_i hEnd
    simp only [hEnd, if_true] at hStuck
    have hNewest (c' : Container) (u' : Update) (j : Inode) (st' : ContainerState)
        (hMem : .recorded c' u' j st' ∈ Event.recorded c u i st :: w.history) :
        c'.index ≤ c.index := by
      rcases List.mem_cons.mp hMem with hEq | hBefore
      · cases hEq
        exact Nat.le_refl _
      · have hBound := h.bound c' u' j st' hBefore
        omega
    refine h.keeperGoes hPc rfl hMoves rfl (fun c' hc' => ?_) rfl
      (fun e hMem => List.mem_cons_of_mem _ hMem) (fun c' u' j st' hMem => ?_) hStuck
      (fun j st' hj hRead => ?_) ?_
    · cases u with
      | first op =>
        cases op <;> cases hc' <;> rfl
      | started =>
        cases hc'
        rfl
      | stopped => cases hc'
    · rcases List.mem_cons.mp hMem with hEq | hBefore
      · cases hEq
        exact .inr rfl
      · exact .inl hBefore
    · cases hName j hj
      have hContent := Disk.content_of_get hNow
      rw [List.take_of_length_le hEnd] at hContent
      have hSame := (serde.round st).symm.trans ((congrArg serde.fromStr hContent).symm.trans hRead)
      cases hSame
      exact ⟨c, u, List.mem_cons_self, hOf, fun c' op => hNewest c' (.first op)⟩
    · cases u with
      | first op =>
        cases op with
        | create => exact ⟨_, _, _, List.mem_cons_self⟩
        | run => exact ⟨hOf, _, _, _, List.mem_cons_self⟩
      | started =>
        exact ⟨hOf, (hWritten (by rintro _ ⟨⟩)).mono fun _ hMem => List.mem_cons_of_mem _ hMem⟩
      | stopped => trivial
  · rename_i hMore
    simp only [hMore, if_false] at hStuck
    refine h.keeperGoes hPc rfl hMoves (k := .writeFile c u st i (n + o.size)) rfl
      (fun c' hc' => (Option.some.inj hc').symm) rfl (fun _ => id) (fun _ _ _ _ => .inl) hStuck
      (fun j st' hj hRead => ?_) ⟨hOf, hWritten, hNow, by omega, hName⟩
    cases hName j hj
    have hContent := Disk.content_of_get hNow
    have hCut : (serde.toStringPretty st).take (n + o.size) ≠ serde.toStringPretty st := by
      intro hWhole
      have hLengths := congrArg List.length hWhole
      rw [List.length_take] at hLengths
      omega
    have hSame := (serde.cut st _ (List.take_prefix _ _) hCut).symm.trans
      ((congrArg serde.fromStr hContent).symm.trans hRead)
    cases hSame

/-- A record in place that is read by the keeper of `c` is one of `c`. -/
theorem reads_own (h : Owns serde w) {i : Inode} {st : ContainerState}
    (hPc : w.procs.get p = some pc) (hc : pc.keeps = some c) (hMoves : ¬ w.Stuck p pc)
    (hWritten : w.HasWritten c) (hName : w.disk.stateInode = some i)
    (hRead : serde.fromStr (w.disk.content i) = .ok st) : st.Of c.origin c.child := by
  obtain ⟨hIndex, hKnown⟩ := h.latest p pc c hPc hc hMoves
  obtain ⟨c', u, hMem, hOf, hNewest⟩ := h.placed i st hName hRead
  obtain ⟨op, j, st', hFirst⟩ := hWritten
  have hLe := hNewest c op j st' hFirst
  have hLt := h.bound c' u i st hMem
  cases hKnown c' u i st hMem (by omega)
  exact hOf

theorem readsBack (h : Owns serde w) {i : Option Inode} {now : String}
    {result : Except StateError ContainerState} (hPc : w.procs.get p = some pc)
    (hc : pc.keeps = some c) (hMoves : ¬ w.Stuck p pc) (hWritten : w.HasWritten c)
    (hOwn : ∀ st, result = .ok st → st.Of c.origin c.child)
    (hStuck : ∀ q pc, q ≠ p → w.procs.get q = some pc → w.Stuck q pc →
      (w.readBack p (.daemon c) i now result).Stuck q pc) :
    Owns serde (w.readBack p (.daemon c) i now result) := by
  have hKeeps {st : ContainerState} (c' : Container)
      (hc' : (Pc.createFile c .started st : Pc B).keeps = some c') : c' = c :=
    (Option.some.inj hc').symm
  cases result with
  | ok st =>
    obtain ⟨hId, _, hVersion, hBundle, hRootfs, hSeed⟩ := hOwn st rfl
    exact h.keeperMoves hPc hc hMoves rfl hKeeps rfl rfl (.inr ⟨_, _, _, rfl⟩) hStuck
      ⟨⟨hId, rfl, hVersion, hBundle, hRootfs, hSeed⟩, fun _ => hWritten⟩
  | error e =>
    exact h.keeperMoves hPc hc hMoves rfl hKeeps rfl rfl (.inr ⟨_, _, _, rfl⟩) hStuck
      ⟨⟨rfl, rfl, rfl, rfl, rfl, rfl⟩, fun _ => hWritten⟩

theorem keeperCall (h : Owns serde w) {o : Outcome} (hPc : w.procs.get p = some pc)
    (hc : pc.keeps = some c) (hMoves : ¬ w.Stuck p pc)
    (hStuck : ∀ q pc, q ≠ p → w.procs.get q = some pc → w.Stuck q pc → t.Stuck q pc)
    (hCall : w.call serde p o pc = some t) : Owns serde t := by
  have hFits := h.fits p pc hPc
  cases pc with
  | createFile c' u st => exact h.creates hPc hStuck hCall
  | writeFile c' u st i n => exact h.writes hPc hStuck hCall
  | daemonOpen c' =>
    cases hc
    simp only [World.call] at hCall
    split at hCall
    · cases hCall
      exact h.keeperMoves hPc rfl hMoves (k := .done _) rfl (by rintro _ ⟨⟩) rfl rfl
        (.inl rfl) hStuck trivial
    · cases hCall
      exact h.keeperMoves hPc rfl hMoves (k := .daemonRead c _) rfl
        (fun c' hc' => (Option.some.inj hc').symm) rfl rfl (.inl rfl) hStuck hFits
  | daemonRead c' i =>
    cases hc
    obtain ⟨_, _, rfl⟩ := Option.map_eq_some_iff.mp hCall
    exact h.keeperMoves hPc rfl hMoves (k := .daemonClose c i) rfl
      (fun c' hc' => (Option.some.inj hc').symm) rfl rfl (.inl rfl) hStuck hFits
  | daemonClose c' i =>
    cases hc
    cases hCall
    exact h.keeperMoves hPc rfl hMoves (k := .openState (.daemon c)) rfl
      (fun c' hc' => (Option.some.inj hc').symm) rfl rfl (.inl rfl) hStuck hFits
  | openState r =>
    cases r with
    | daemon c' =>
      cases hc
      simp only [World.call] at hCall
      split at hCall
      · cases hCall
        exact h.readsBack hPc rfl hMoves hFits (by rintro _ ⟨⟩) hStuck
      · rename_i i hName
        cases hCall
        exact h.keeperMoves hPc rfl hMoves (k := .readFile (.daemon c) i []) rfl
          (fun c' hc' => (Option.some.inj hc').symm) rfl rfl (.inl rfl) hStuck
          ⟨hFits, List.nil_prefix, fun st => h.reads_own hPc rfl hMoves hFits hName⟩
    | _ => cases hc
  | readFile r i got =>
    cases r with
    | daemon c' =>
      cases hc
      obtain ⟨hWritten, ⟨rest, hGot⟩, hOwn⟩ := hFits
      have hRest : (w.disk.content i).drop got.length = rest := by
        rw [← hGot, List.drop_left]
      simp only [World.call, hRest] at hCall
      split at hCall
      · cases hCall
      rename_i hSize
      split at hCall
      · rename_i hData
        cases hCall
        refine h.readsBack hPc rfl hMoves hWritten (fun st hRead => hOwn st ?_) hStuck
        rw [(List.take_eq_nil_iff.mp hData).resolve_left hSize, List.append_nil] at hGot
        rw [← hGot]
        exact hRead
      · cases hCall
        refine h.keeperMoves hPc rfl hMoves (k := .readFile (.daemon c) i _) rfl
          (fun c' hc' => (Option.some.inj hc').symm) rfl rfl (.inl rfl) hStuck
          ⟨hWritten, ?_, hOwn⟩
        rw [← hGot]
        exact (List.prefix_append_right_inj got).mpr (List.take_prefix _ rest)
    | _ => cases hc
  | supervise c' st =>
    cases hc
    simp only [World.call] at hCall
    split at hCall
    · cases hCall
      obtain ⟨⟨hId, hPid, hVersion, hBundle, hRootfs, hSeed⟩, hWritten⟩ := hFits
      exact h.keeperMoves hPc rfl hMoves (k := .createFile c .stopped _) rfl
        (fun c' hc' => (Option.some.inj hc').symm) rfl rfl (.inl rfl) hStuck
        ⟨⟨hId, hPid, hVersion, hBundle, hRootfs, hSeed⟩, fun _ => hWritten⟩
    · cases hCall
  | initDir op o | makeFifo o | spawn op o | listIds | startOpen | startWrite i
  | startClose i result | sendSignal child sig | deleteKill child | openDir | unlink dir
  | done result => cases hc

theorem keeperFails (h : Owns serde w) {e : Errno} (hPc : w.procs.get p = some pc)
    (hc : pc.keeps = some c) (hMoves : ¬ w.Stuck p pc)
    (hStuck : ∀ q pc, q ≠ p → w.procs.get q = some pc → w.Stuck q pc → t.Stuck q pc)
    (hCall : w.failCall p e pc = some t) : Owns serde t := by
  have hFits := h.fits p pc hPc
  cases pc with
  | createFile c' u st | writeFile c' u st i n =>
    cases hc
    cases hCall
    exact h.failUpdate hPc rfl hMoves hStuck
  | daemonOpen c' | supervise c' st =>
    cases hc
    cases hCall
    exact h.keeperMoves hPc rfl hMoves (k := .done _) rfl nofun rfl rfl (.inl rfl) hStuck trivial
  | daemonRead c' i =>
    cases hc
    cases hCall
    exact h.keeperMoves hPc rfl hMoves (k := .daemonClose c i) rfl
      (fun c' hc' => (Option.some.inj hc').symm) rfl rfl (.inl rfl) hStuck hFits
  | openState r =>
    cases r with
    | daemon c' =>
      cases hc
      cases hCall
      exact h.readsBack hPc rfl hMoves hFits nofun hStuck
    | _ => cases hc
  | readFile r i got =>
    cases r with
    | daemon c' =>
      cases hc
      cases hCall
      exact h.readsBack hPc rfl hMoves hFits.1 nofun hStuck
    | _ => cases hc
  | daemonClose c' i => cases hCall
  | initDir op o | makeFifo o | spawn op o | listIds | startOpen | startWrite i
  | startClose i result | sendSignal child sig | deleteKill child | openDir | unlink dir
  | done result => cases hc

theorem spawns (h : Owns serde w) {op : Operation} {origin : Origin} {o : Outcome}
    (hOthers : ∀ q pc, w.procs.get q = some pc → pc.keeps.isSome = true → w.Stuck q pc)
    (hStuck : ∀ q pc, q ≠ p → w.procs.get q = some pc → w.Stuck q pc → t.Stuck q pc)
    (hCall : w.call serde p o (.spawn op origin) = some t) : Owns serde t := by
  simp only [World.call] at hCall
  split at hCall
  swap
  · cases hCall
  cases hCall
  have hKeeper {q : Process} {pc : Pc B} {c : Container} (hq : q ≠ p)
      (hPc : w.procs.get q = some pc) (hc : pc.keeps = some c) :
      World.Stuck _ q pc :=
    hStuck q pc hq hPc (hOthers q pc hPc (by rw [hc]; rfl))
  refine ⟨fun i st hName hRead => ?_, fun c u i st hMem => ?_, fun q pc hPc => ?_,
    fun q pc c hPc hc hMoves => ?_, fun q q' pc₁ pc₂ c₁ c₂ hPc hPc' hc hc' hMoves hMoves' => ?_⟩
  · exact h.placed i st hName hRead
  · exact Nat.lt_succ_of_lt (h.bound c u i st hMem)
  · simp only [World.goto, Map.get_insert] at hPc
    split at hPc
    · cases hPc
      exact ⟨mkState_of _ _ _ _ _, fun hUpdate => absurd rfl (hUpdate op)⟩
    · exact (h.fits q pc hPc).mono (.refl _) fun _ => id
  · simp only [World.goto, Map.get_insert] at hPc
    split at hPc
    · cases hPc
      cases hc
      refine ⟨rfl, fun c' u i st hMem hSame => ?_⟩
      have hBound := h.bound c' u i st hMem
      exact absurd (hSame ▸ hBound) (Nat.lt_irrefl _)
    · exact absurd (hKeeper ‹_› hPc hc) hMoves
  · simp only [World.goto, Map.get_insert] at hPc hPc'
    split at hPc
    · split at hPc'
      · rename_i hp hp'
        rw [hp, hp']
      · exact absurd (hKeeper ‹_› hPc' hc') hMoves'
    · exact absurd (hKeeper ‹_› hPc hc) hMoves

theorem byClient (h : Owns serde w) (hBy : World.ByClient w t p pc k)
    (hStuck : ∀ q pc, w.procs.get q = some pc → w.Stuck q pc → t.Stuck q pc) : Owns serde t := by
  obtain ⟨hOld, hNew⟩ := World.same_records hBy.history
  exact h.passes hBy.procs (World.keeps_of_client hBy.client) hBy.renamed hBy.spawned hOld hNew
    hStuck

theorem othersCall (h : Owns serde w) {o : Outcome} (hNone : pc.keeps = none)
    (hSpawns : pc.spawns = true →
      ∀ q pc, w.procs.get q = some pc → pc.keeps.isSome = true → w.Stuck q pc)
    (hStuck : ∀ q pc, w.procs.get q = some pc → w.Stuck q pc → t.Stuck q pc)
    (hCall : w.call serde p o pc = some t) : Owns serde t := by
  by_cases hClient : pc.client = true
  · obtain ⟨_, hBy⟩ := World.client_call hCall hClient
    exact h.byClient hBy hStuck
  cases pc with
  | initDir op origin =>
    cases hCall
    refine h.passes rfl ?_ (.makeDir _) rfl (fun _ => id) (fun _ _ _ _ => id) hStuck
    cases op <;> rfl
  | makeFifo origin =>
    simp only [World.call] at hCall
    split at hCall
    · cases hCall
      exact h.passes (k := .done _) rfl rfl (.refl _) rfl (fun _ => id) (fun _ _ _ _ => id) hStuck
    · cases hCall
      exact h.passes (k := .spawn .create origin) rfl rfl (.makeFifo ‹_›) rfl (fun _ => id)
        (fun _ _ _ _ => id) hStuck
  | spawn op origin => exact h.spawns (hSpawns rfl) (fun q pc _ => hStuck q pc) hCall
  | openState r | readFile r i got =>
    cases r with
    | daemon c => cases hNone
    | _ => exact absurd rfl hClient
  | createFile _ _ _ | writeFile _ _ _ _ _ | daemonOpen _ | daemonRead _ _ | daemonClose _ _
  | supervise _ _ => cases hNone
  | _ => exact absurd rfl hClient

theorem othersFail (h : Owns serde w) {e : Errno} (hNone : pc.keeps = none)
    (hStuck : ∀ q pc, w.procs.get q = some pc → w.Stuck q pc → t.Stuck q pc)
    (hCall : w.failCall p e pc = some t) : Owns serde t := by
  by_cases hClient : pc.client = true
  · obtain ⟨_, _, hBy⟩ := World.client_failCall hCall hClient
    exact h.byClient hBy hStuck
  cases pc with
  | initDir op origin | makeFifo origin | spawn op origin =>
    cases hCall
    exact h.passes (k := .done _) rfl rfl (.refl _) rfl (fun _ => id) (fun _ _ _ _ => id) hStuck
  | openState r | readFile r i got =>
    cases r with
    | daemon c => cases hNone
    | _ => exact absurd rfl hClient
  | createFile _ _ _ | writeFile _ _ _ _ _ | daemonOpen _ | daemonRead _ _ | daemonClose _ _
  | supervise _ _ => cases hNone
  | _ => exact absurd rfl hClient

theorem step (h : Owns serde w) {l : Label} (hRetires : Retires w l)
    (hStep : w.step serde l = some t) : Owns serde t := by
  have hHeld (q : Process) (pc : Pc B) (hPc : w.procs.get q = some pc) (hStuck : w.Stuck q pc) :
      t.Stuck q pc ∧ t.procs.get q = some pc := by
    obtain ⟨i, hAwaits, hStranded⟩ := hStuck
    cases pc with
    | daemonRead c j =>
      cases hAwaits
      have hFails (e : Errno) : l ≠ .fails q e := by
        rintro rfl
        exact hRetires _ hPc ⟨i, rfl, hStranded⟩
      obtain ⟨hStill, hWaits⟩ := hStranded.step hPc hFails hStep
      exact ⟨⟨i, rfl, hStill⟩, hWaits⟩
    | _ => cases hAwaits
  have hStuck (q : Process) (pc : Pc B) (hPc : w.procs.get q = some pc) (hSt : w.Stuck q pc) :
      t.Stuck q pc := (hHeld q pc hPc hSt).1
  rcases World.step_cases hStep with ⟨p, cmd, pc, rfl, hFree, hStart, rfl⟩ |
    ⟨p, o, pc, rfl, hPc, hCall⟩ | ⟨p, e, pc, rfl, _, hPc, hCall⟩ | ⟨child, rfl, _, rfl⟩
  · have hNone : pc.keeps = none := by
      cases cmd with
      | create o | run o =>
        cases hStart
        rfl
      | reads r => cases r <;> cases hStart <;> rfl
    exact h.passes rfl hNone (.refl _) rfl (fun _ => id) (fun _ _ _ _ => id) hStuck
  · cases hc : pc.keeps with
    | none =>
      refine h.othersCall hc (fun hSpawns q k hPc' hKeeps => ?_) hStuck hCall
      have hEntry : (w.procs.get p).any Pc.spawns = true := by rw [hPc]; exact hSpawns
      exact hRetires hEntry ⟨q, k⟩ (Map.get_eq_some_iff.mp hPc') hKeeps
    | some c =>
      refine h.keeperCall hPc hc (fun hSt => ?_) (fun q pc _ => hStuck q pc) hCall
      obtain ⟨_, hStill⟩ := hHeld p pc hPc hSt
      obtain ⟨i, hAwaits, _⟩ := hSt
      cases pc with
      | daemonRead c j =>
        obtain ⟨_, _, rfl⟩ := Option.map_eq_some_iff.mp hCall
        rw [World.goto_self] at hStill
        cases hStill
      | _ => cases hAwaits
  · cases hc : pc.keeps with
    | none => exact h.othersFail hc hStuck hCall
    | some c => exact h.keeperFails hPc hc (hRetires pc hPc) (fun q pc _ => hStuck q pc) hCall
  · refine ⟨h.placed, h.bound, fun p pc hPc => (h.fits p pc hPc).mono (.refl _) fun _ => id,
      fun p pc c hPc hc hMoves => h.latest p pc c hPc hc fun hSt => hMoves (hStuck p pc hPc hSt),
      fun p q pc k c c' hPc hPc' hc hc' hMoves hMoves' => h.alone p q pc k c c' hPc hPc' hc hc'
        (fun hSt => hMoves (hStuck p pc hPc hSt)) fun hSt => hMoves' (hStuck q k hPc' hSt)⟩

theorem reach (h : (system serde).Reach Retires w) : Owns serde w :=
  h.invariant (fun _ hInit => hInit ▸ empty) fun _ _ _ _ hs hOk hStep => hs.step hOk hStep

end Owns

/-- As long as no container is spawned before the keepers of earlier ones are at their end or wait
for ever, the record under the id is never one of an earlier container than the latest to have
written its own; a keeper writes its own container's record, and a daemon overwrites no other. -/
theorem records_own {serde : Serde B} {w : World B} (h : (system serde).Reach Retires w) :
    w.Placed serde ∧
    (∀ p c u st i n, w.procs.get p = some (.writeFile c u st i n) →
      st.Of c.origin c.child ∧ w.Newest c) ∧
    ∀ p c u st i st', w.procs.get p = some (.createFile c u st) → (∀ op, u ≠ .first op) →
      w.disk.stateInode = some i → serde.fromStr (w.disk.content i) = .ok st' →
      st'.Of c.origin c.child := by
  have hOwns := Owns.reach h
  refine ⟨hOwns.placed,
    fun p c u st i n hPc => ⟨(hOwns.fits p _ hPc).1, fun c' op j st' hMem => ?_⟩,
    fun p c u st i st' hPc hUpdate hName hRead => ?_⟩
  · obtain ⟨hIndex, _⟩ := hOwns.latest p _ c hPc rfl nofun
    have hBound := hOwns.bound c' _ j st' hMem
    omega
  · obtain ⟨_, hWritten⟩ := hOwns.fits p _ hPc
    exact hOwns.reads_own hPc rfl nofun (hWritten hUpdate) hName hRead

def anotherOrigin : Origin := { webOrigin with seed := 8 }

/-- A whole `delete --force`. -/
def forced (p : Process) : List Label :=
  .begin p (.reads (.delete true)) :: steps p 5 ++
    [.step p { entry := .state }, .step p { entry := .fifo }, .step p { entry := .directory }]

/-- A created container is deleted and created again; the first daemon waits for ever. -/
def replaced : List Label :=
  .begin 0 (.create webOrigin) :: steps 0 6 ++ forced 1 ++
    .begin 2 (.create anotherOrigin) :: steps 2 2 ++
    .step 2 { atOnce with child := 101 } :: steps 2 2

theorem records_own_replaced : ∃ w : World Char, (system Serde.strict).Reach Retires w ∧
    w.procs.get 0 = some (.daemonRead ⟨0, 100, webOrigin⟩ 1) ∧
    w.procs.get 2 = some (.daemonOpen ⟨1, 101, anotherOrigin⟩) ∧
    w.Placed Serde.strict ∧
    (∀ p c u st i n, w.procs.get p = some (.writeFile c u st i n) →
      st.Of c.origin c.child ∧ w.Newest c) ∧
    ∀ p c u st i st', w.procs.get p = some (.createFile c u st) → (∀ op, u ≠ .first op) →
      w.disk.stateInode = some i → Serde.strict.fromStr (w.disk.content i) = .ok st' →
      st'.Of c.origin c.child := by
  have hRun : ((system Serde.strict).exec Retires .empty replaced).map
      (fun w => (w.procs.get 0, w.procs.get 2)) =
        some (some (.daemonRead ⟨0, 100, webOrigin⟩ 1),
          some (.daemonOpen ⟨1, 101, anotherOrigin⟩)) := by decide +kernel
  obtain ⟨w, hExec, hEnd⟩ := Option.map_eq_some_iff.mp hRun
  simp only [Prod.mk.injEq] at hEnd
  have hReach := System.reach_of_exec rfl hExec
  exact ⟨w, hReach, hEnd.1, hEnd.2, records_own hReach⟩

/-- A running container is deleted and created again before its daemon has noted its end. -/
def overwritten : List Label :=
  .begin 0 (.create webOrigin) :: steps 0 6 ++ .begin 1 (.reads .start) :: steps 1 6 ++ steps 0 7 ++
    forced 2 ++ .begin 3 (.create anotherOrigin) :: steps 3 2 ++
    .step 3 { atOnce with child := 101 } :: steps 3 2 ++ steps 0 3

/-- Only the first container has the seed 7. -/
def Event.SeedsFirst : Event → Bool
  | .recorded c _ _ st => decide (st.seed = 7 → c.index = 0)
  | .readBack _ _ _ => true

theorem not_records_own : ¬ ∀ w : World Char, (system Serde.strict).Reach System.free w →
    w.Placed Serde.strict := by
  intro hAll
  have hRun : ((system Serde.strict).exec System.free .empty overwritten).map (fun w =>
      (w.disk.stateInode, Serde.strict.fromStr (w.disk.content 5),
        decide (∃ e ∈ w.history, e = .recorded ⟨1, 101, anotherOrigin⟩ (.first .create) 5
          (mkState anotherOrigin .created 101 none "2026-08-10T00:00:00Z")),
        w.history.all Event.SeedsFirst)) =
        some (some 5, .ok (mkState webOrigin .stopped 100 (some 0) "2026-08-10T00:00:00Z"), true,
          true) := by decide +kernel
  obtain ⟨w, hExec, hEnd⟩ := Option.map_eq_some_iff.mp hRun
  simp only [Prod.mk.injEq, decide_eq_true_eq, List.all_eq_true] at hEnd
  obtain ⟨hName, hRead, ⟨_, hLater, rfl⟩, hOlder⟩ := hEnd
  obtain ⟨c, u, hMem, _, hNewest⟩ := hAll w (System.reach_of_exec rfl hExec) 5 _ hName hRead
  have hIndex := hNewest _ _ _ _ hLater
  have hFirst := hOlder _ hMem
  simp only [Event.SeedsFirst, decide_eq_true_eq] at hFirst
  rw [hFirst rfl] at hIndex
  exact absurd hIndex (by decide)

end Dtrun.Commands
