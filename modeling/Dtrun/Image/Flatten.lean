import Mathlib.Data.List.ReduceOption
import Dtrun.Image.Confinement
import Dtrun.Image.Normalize

/-! # Flattening an image

`flatten` from the bytes of the archive to the normalized tree. Its loop goes on after an entry that
cannot be read. What opening the file, decompressing and cutting the bytes into entries give is a
parameter, as is what `unpack_in` does.
-/
namespace Dtrun.Image
set_option autoImplicit false
open FileTree StateExcept

structure Setting where
  /-- `fs::create_dir_all` -/
  createDirAll : FileTree.Tree Name → Path → Except ImageError (FileTree.Tree Name)
  /-- The bytes of the image, if it can be opened. -/
  image : Except ImageError (List (BitVec 8))
  /-- The entries that the iterator yields, read through gzip or not; `none` is an error. -/
  entries : Bool → List (BitVec 8) → Except ImageError (List (Option Entry))
  unpackIn : FileTree.Tree Name → Entry → Except ImageError (FileTree.Tree Name)
  listing : (t : FileTree.Tree Name) → Listing t
  answers : Answering
  metadata : FileTree.Tree Name → Path → Metadata

variable (setting : Setting) (dest : Path)

/-- `read_exact` into two bytes. -/
def readMagic : List (BitVec 8) → Except ImageError (List (BitVec 8))
  | a :: b :: _ => .ok [a, b]
  | _ => .error .io

def Setting.stream : Except ImageError (List (Option Entry)) := do
  let bytes ← setting.image
  let magic ← readMagic bytes
  setting.entries (magic = [0x1f, 0x8b]) bytes

def Setting.prepare (t : FileTree.Tree Name) : Except ImageError (FileTree.Tree Name) :=
  if (t.node dest).isSome then .ok t else setting.createDirAll t dest

def Setting.normalize (t : FileTree.Tree Name) : EStateM.Result ImageError Inodes Unit :=
  normalizeTree (setting.listing t) setting.answers dest ⟨setting.metadata t, []⟩

def flatten (t : FileTree.Tree Name) : Except ImageError (FileTree.Tree Name × Inodes) := do
  let t ← setting.prepare dest t
  let entries ← setting.stream
  let t ← unpackReader setting.unpackIn dest t entries
  match setting.normalize dest t with
  | .ok () s => pure (t, s)
  | .error e _ => throw e

/-- Every entry has been read and applied, one after the other. -/
inductive Applied
    (unpackIn : FileTree.Tree Name → Entry → Except ImageError (FileTree.Tree Name)) (dest : Path) :
    FileTree.Tree Name → List (Option Entry) → FileTree.Tree Name → Prop
  | nil (t : FileTree.Tree Name) : Applied unpackIn dest t [] t
  | cons {t u v : FileTree.Tree Name} {e : Entry} {rest : List (Option Entry)}
      (hEntry : unpackEntry unpackIn dest t e = .ok u) (hRest : Applied unpackIn dest u rest v) :
      Applied unpackIn dest t (some e :: rest) v

/-- `unpack_in` is asked for the entry and refuses. -/
def Refuses
    (unpackIn : FileTree.Tree Name → Entry → Except ImageError (FileTree.Tree Name))
    (u : FileTree.Tree Name) (e : Entry) : Prop :=
  (∃ safe, sanitizePath e.path = some safe ∧ Whiteout.of safe = none) ∧
    ∃ error, unpackIn u e = .error error

/-- Of the entries that can be read one is refused when those before it have been applied; or all
are applied, and then the walk comes to a directory that cannot be read. -/
def Setting.Hindered (t : FileTree.Tree Name) (entries : List (Option Entry)) : Prop :=
  (∃ before e after u, entries.reduceOption = before ++ e :: after ∧
    Applied setting.unpackIn dest t (before.map some) u ∧ Refuses setting.unpackIn u e) ∨
  ∃ u dir, Applied setting.unpackIn dest t (entries.reduceOption.map some) u ∧
    Walked (setting.listing u) dest dir ∧ Unreadable (setting.listing u) setting.answers dir

variable {setting dest}
  {unpackIn : FileTree.Tree Name → Entry → Except ImageError (FileTree.Tree Name)}
  {t t' : FileTree.Tree Name} {entries : List (Option Entry)}

theorem unpackReader_eq (t : FileTree.Tree Name) (entries : List (Option Entry)) :
    unpackReader unpackIn dest t entries =
      entries.reduceOption.foldlM (unpackEntry unpackIn dest) t := by
  induction entries generalizing t with
  | nil => rfl
  | cons e rest ih =>
    cases e with
    | none =>
      rw [List.reduceOption_cons_of_none]
      exact ih t
    | some e =>
      rw [List.reduceOption_cons_of_some, List.foldlM_cons, unpackReader]
      cases unpackEntry unpackIn dest t e with
      | error error => rfl
      | ok u => exact ih u

theorem applied_iff : Applied unpackIn dest t entries t' ↔
    none ∉ entries ∧ unpackReader unpackIn dest t entries = .ok t' := by
  induction entries generalizing t with
  | nil =>
    constructor
    · intro h
      cases h
      exact ⟨List.not_mem_nil, rfl⟩
    · rintro ⟨_, hRun⟩
      cases hRun
      exact .nil _
  | cons e rest ih =>
    cases e with
    | none =>
      constructor
      · intro h
        cases h
      · rintro ⟨hNone, _⟩
        exact absurd List.mem_cons_self hNone
    | some e =>
      rw [unpackReader]
      constructor
      · intro h
        cases h with
        | cons hEntry hRest =>
          obtain ⟨hNone, hRun⟩ := ih.mp hRest
          rw [hEntry]
          exact ⟨by simpa using hNone, hRun⟩
      · rintro ⟨hNone, hRun⟩
        cases hEntry : unpackEntry unpackIn dest t e with
        | error error =>
          rw [hEntry] at hRun
          cases hRun
        | ok u =>
          rw [hEntry] at hRun
          exact .cons hEntry (ih.mpr ⟨by simpa using hNone, hRun⟩)

theorem refuses_iff {u : FileTree.Tree Name} {e : Entry} :
    Refuses unpackIn u e ↔ ∃ error, unpackEntry unpackIn dest u e = .error error := by
  rw [Refuses, unpackEntry]
  cases sanitizePath e.path with
  | none => simp
  | some safe =>
    cases hWhiteout : Whiteout.of safe with
    | none => simp [hWhiteout]
    | some w => simp [hWhiteout]

/-- The loop fails at the first entry that is refused. -/
theorem unpackReader_fails_iff {l : List Entry} :
    (∃ error, unpackReader unpackIn dest t (l.map some) = .error error) ↔
      ∃ before e after u, l = before ++ e :: after ∧
        Applied unpackIn dest t (before.map some) u ∧ Refuses unpackIn u e := by
  induction l generalizing t with
  | nil => simp [unpackReader]
  | cons e rest ih =>
    rw [List.map_cons, unpackReader]
    cases hEntry : unpackEntry unpackIn dest t e with
    | error error =>
      exact iff_of_true ⟨error, rfl⟩
        ⟨[], e, rest, t, rfl, .nil t, refuses_iff.mpr ⟨error, hEntry⟩⟩
    | ok v =>
      rw [ih]
      constructor
      · rintro ⟨before, e', after, u, rfl, hApplied, hRefuses⟩
        exact ⟨e :: before, e', after, u, rfl, .cons hEntry hApplied, hRefuses⟩
      · rintro ⟨before, e', after, u, hSplit, hApplied, hRefuses⟩
        cases before with
        | nil =>
          cases hSplit
          cases hApplied
          obtain ⟨error, hError⟩ := refuses_iff.mp hRefuses
          cases hEntry.symm.trans hError
        | cons e'' before =>
          obtain ⟨rfl, rfl⟩ := List.cons.inj hSplit
          cases hApplied with
          | cons hFirst hRest =>
            cases hEntry.symm.trans hFirst
            exact ⟨before, e', after, u, rfl, hRest, hRefuses⟩

/-- An image is hindered when what can be read of it is not both unpacked and normalized. -/
theorem hindered_iff : setting.Hindered dest t entries ↔
    ∀ u, unpackReader setting.unpackIn dest t entries = .ok u →
      ∃ e s, setting.normalize dest u = .error e s := by
  have hRead : unpackReader setting.unpackIn dest t entries =
      unpackReader setting.unpackIn dest t (entries.reduceOption.map some) := by
    have hSome : (entries.reduceOption.map some).reduceOption = entries.reduceOption := by
      simp [List.reduceOption]
    rw [unpackReader_eq, unpackReader_eq, hSome]
  have hAll (u : FileTree.Tree Name) :
      Applied setting.unpackIn dest t (entries.reduceOption.map some) u ↔
        unpackReader setting.unpackIn dest t entries = .ok u := by
    rw [applied_iff, hRead]
    simp
  rw [Setting.Hindered, ← unpackReader_fails_iff, ← hRead]
  simp only [hAll, Setting.normalize, normalizeTree_fails_iff]
  cases unpackReader setting.unpackIn dest t entries with
  | error error => simp
  | ok v => simp

theorem flatten_ok {out : FileTree.Tree Name × Inodes} : flatten setting dest t = .ok out ↔
    ∃ u entries, setting.prepare dest t = .ok u ∧ setting.stream = .ok entries ∧
      unpackReader setting.unpackIn dest u entries = .ok out.1 ∧
      setting.normalize dest out.1 = .ok () out.2 := by
  rw [flatten]
  cases hPrepare : setting.prepare dest t with
  | error e => exact ⟨fun h => (by cases h), fun ⟨_, _, h, _⟩ => (by cases h)⟩
  | ok u =>
    cases hStream : setting.stream with
    | error e => exact ⟨fun h => (by cases h), fun ⟨_, _, _, h, _⟩ => (by cases h)⟩
    | ok entries =>
      simp only [Except.ok.injEq, exists_and_left, exists_eq_left']
      change (unpackReader setting.unpackIn dest u entries >>= _) = _ ↔ _
      cases hRun : unpackReader setting.unpackIn dest u entries with
      | error e => exact ⟨fun h => (by cases h), fun ⟨h, _⟩ => (by cases h)⟩
      | ok v =>
        change (match setting.normalize dest v with
          | .ok () s => Except.ok (v, s)
          | .error e _ => Except.error e) = _ ↔ _
        cases hNormal : setting.normalize dest v with
        | error e s =>
          refine ⟨fun h => (by cases h), fun ⟨hOut, hEnd⟩ => ?_⟩
          cases hOut
          cases hNormal.symm.trans hEnd
        | ok a s =>
          constructor
          · intro h
            cases h
            exact ⟨rfl, hNormal⟩
          · rintro ⟨hOut, hEnd⟩
            obtain ⟨v', s'⟩ := out
            cases hOut
            cases hNormal.symm.trans hEnd
            rfl

/-- When `flatten` returns, every entry of the image has been applied: exactly when an image with a
damaged entry has it fail for another reason. -/
theorem flatten_applied_iff (setting : Setting) (dest : Path) (t : FileTree.Tree Name) :
    (∀ out, flatten setting dest t = .ok out → ∃ u entries, setting.prepare dest t = .ok u ∧
      setting.stream = .ok entries ∧ Applied setting.unpackIn dest u entries out.1) ↔
    ∀ u entries, setting.prepare dest t = .ok u → setting.stream = .ok entries →
      none ∉ entries ∨ setting.Hindered dest u entries := by
  constructor
  · intro hAll u entries hPrepare hStream
    by_cases hNone : none ∈ entries
    · refine .inr (hindered_iff.mpr fun v hFold => ?_)
      cases hNormal : setting.normalize dest v with
      | error e s => exact ⟨e, s, rfl⟩
      | ok a s =>
        obtain ⟨u', entries', _, hStream', hApplied⟩ :=
          hAll (v, s) (flatten_ok.mpr ⟨u, entries, hPrepare, hStream, hFold, hNormal⟩)
        cases hStream.symm.trans hStream'
        exact absurd hNone (applied_iff.mp hApplied).1
    · exact .inl hNone
  · intro hCondition out hOut
    obtain ⟨u, entries, hPrepare, hStream, hRun, hNormal⟩ := flatten_ok.mp hOut
    refine ⟨u, entries, hPrepare, hStream, applied_iff.mpr ⟨?_, hRun⟩⟩
    rcases hCondition u entries hPrepare hStream with hNone | hHindered
    · exact hNone
    · obtain ⟨e, s, hError⟩ := hindered_iff.mp hHindered out.1 hRun
      cases hNormal.symm.trans hError

/-- An image of a file `b` and a damaged entry, unpacked into `/d`. -/
def damaged : Setting where
  createDirAll t _ := .ok t
  image := .ok [0x62, 0]
  entries _ _ := .ok [some ⟨[0x62], .regular⟩, none]
  unpackIn := addEntry [[0x64]]
  listing := Listing.among [[0x62], [0x64], [0x66]] 2
  answers := {}
  metadata _ := unpacked

/-- The damaged entry is passed over. -/
theorem not_flatten_applied : ¬ ∀ (setting : Setting) (dest : Path) (t : FileTree.Tree Name)
    (out : FileTree.Tree Name × Inodes), flatten setting dest t = .ok out →
      ∃ u entries, setting.prepare dest t = .ok u ∧ setting.stream = .ok entries ∧
        Applied setting.unpackIn dest u entries out.1 := by
  intro hAll
  obtain ⟨s, hNormal⟩ : ∃ s, damaged.normalize [[0x64]] (host.add [0x62] [[0x64]] .file) =
    .ok () s := normalizeLoop_ends _ _
  have hFlatten : flatten damaged [[0x64]] host = .ok (host.add [0x62] [[0x64]] .file, s) :=
    flatten_ok.mpr ⟨host, [some ⟨[0x62], .regular⟩, none], rfl, rfl, rfl, hNormal⟩
  obtain ⟨_, entries, _, hStream, hApplied⟩ := hAll damaged [[0x64]] host _ hFlatten
  cases hStream
  exact (applied_iff.mp hApplied).1 (by decide)

end Dtrun.Image
