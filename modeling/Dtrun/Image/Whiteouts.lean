import Mathlib.Data.Set.Basic
import Dtrun.Image.Confinement

/-! # What whiteouts are for

The archive read as a list of changes to a set of paths: an entry adds its path, `.wh.` and a name
takes the name away with all that is beneath it, and `.wh..wh..opq` empties the directory it stands
in. `unpack_reader` computes that set as long as no opaque marker finds its directory, which it
takes away as well, and no name after `.wh.` is outside UTF-8.
-/
namespace Dtrun.Image
set_option autoImplicit false
open FileTree

variable {t t' : FileTree.Tree Name} {dest dir safe : List Name} {e : Entry} {w : Whiteout}
  {unpackIn : FileTree.Tree Name → Entry → Except ImageError (FileTree.Tree Name)}

def pathsUnder (dest : List Name) (t : FileTree.Tree Name) : Set (List Name) :=
  {q | (t.node (q.reverse ++ dest)).isSome = true}

/-- The whiteout that a path asks for, whatever bytes its last name is made of. -/
def Whiteout.meant (safe : List Name) : Option Whiteout :=
  match safe.getLast? with
  | none => none
  | some fileName => (fileName.dropPrefix? WHITEOUT).map fun deleted =>
      if deleted = OPAQUE then .opaqueDir safe.dropLast else .named safe.dropLast deleted

def Whiteout.Deletes (w : Whiteout) (q : List Name) : Prop :=
  match w with
  | .opaqueDir dir => dir <+: q ∧ q ≠ dir
  | .named dir deleted => dir ++ [deleted] <+: q

def referenceStep (paths : Set (List Name)) (e : Entry) : Set (List Name) :=
  match sanitizePath e.path with
  | none => paths
  | some safe => match Whiteout.meant safe with
    | none => paths ∪ {q | q <+: safe}
    | some w => {q ∈ paths | ¬ w.Deletes q}

/-- The entries in the order of the archive; one that cannot be read changes nothing. -/
def reference (paths : Set (List Name)) (entries : List (Option Entry)) : Set (List Name) :=
  entries.foldl (fun paths e => e.elim paths (referenceStep paths)) paths

def Clean (paths : Set (List Name)) : Prop := ∀ dir n, dir ++ [n] ∈ paths → ¬ WHITEOUT <+: n

/-- What `unpack_in` does with an entry that is no symbolic link, where it succeeds: the entry and
the directories on the way to it are there, and nothing else has come or gone. -/
structure Extracts (unpackIn : FileTree.Tree Name → Entry → Except ImageError (FileTree.Tree Name))
    (dest : List Name) : Prop where
  paths : ∀ t e safe t', t.node dest = some .dir → sanitizePath e.path = some safe →
    (∀ target, e.type ≠ .symlink target) → unpackIn t e = .ok t' →
    pathsUnder dest t' = pathsUnder dest t ∪ {q | q <+: safe}
  links : ∀ t e t', (∀ target, e.type ≠ .symlink target) → unpackIn t e = .ok t' →
    ∀ p target, t'.node p = some (.link target) → t.node p = some (.link target)

/-- No symbolic link, and no whiteout of nothing, of `.` or of `..`. -/
def Plain (e : Entry) : Prop :=
  (∀ target, e.type ≠ .symlink target) ∧ ∀ safe n, sanitizePath e.path = some safe →
    safe.getLast? = some n →
    n ≠ WHITEOUT ∧ n ≠ WHITEOUT ++ [DOT] ∧ n ≠ WHITEOUT ++ [DOT, DOT]

/-- What the entry asks for is what is done: a whiteout has a name in UTF-8 and is no opaque marker
whose directory is there; another entry has no name of a whiteout on its path. -/
def Followed (t : FileTree.Tree Name) (dest : List Name) (e : Entry) : Prop :=
  match sanitizePath e.path with
  | none => True
  | some safe => match Whiteout.meant safe with
    | none => ∀ n ∈ safe, ¬ WHITEOUT <+: n
    | some w => (∀ n, safe.getLast? = some n → utf8Valid n = true) ∧ match w with
      | .opaqueDir dir => t.node (dir.reverse ++ dest) = some .dir → dir.reverse ++ dest = []
      | .named _ _ => True

section Reached

variable (unpackIn : FileTree.Tree Name → Entry → Except ImageError (FileTree.Tree Name))
  (dest : List Name)

def reached (t : FileTree.Tree Name) : List (Option Entry) → List (FileTree.Tree Name × Entry)
  | [] => []
  | none :: rest => reached t rest
  | some e :: rest => (t, e) :: match unpackEntry unpackIn dest t e with
    | .ok t => reached t rest
    | .error _ => []

/-- At every point of the archive, the paths under `dest` are those of the reference, and none of
them is that of a whiteout. -/
def Agrees (paths : Set (List Name)) (t : FileTree.Tree Name) (entries : List (Option Entry)) :
    Prop :=
  ∀ first, first <+: entries → ∀ t', unpackReader unpackIn dest t first = .ok t' →
    pathsUnder dest t' = reference paths first ∧ Clean (pathsUnder dest t')

end Reached

/-! ## Paths and removals -/

theorem suffix_reverse {p q d : List Name} :
    p.reverse ++ d <:+ q.reverse ++ d ↔ p <+: q := by
  constructor
  · rintro ⟨a, hSplit⟩
    rw [← List.append_assoc] at hSplit
    exact List.reverse_suffix.mp ⟨a, List.append_cancel_right hSplit⟩
  · intro hPrefix
    obtain ⟨a, hSplit⟩ := List.reverse_suffix.mpr hPrefix
    refine ⟨a, ?_⟩
    rw [← List.append_assoc, hSplit]

theorem reverse_append_inj {p q d : List Name} (h : p.reverse ++ d = q.reverse ++ d) : p = q :=
  List.reverse_injective (List.append_cancel_right h)

theorem pathsUnder_prune {p : List Name} (hTop : p.reverse ++ dest ≠ []) :
    pathsUnder dest (t.prune (p.reverse ++ dest) true) =
      {q ∈ pathsUnder dest t | ¬ p <+: q} := by
  ext q
  simp only [pathsUnder, Set.mem_ofPred_eq, Tree.node_prune]
  split
  · rename_i hTaken
    simp [suffix_reverse.mp hTaken.1]
  · rename_i hKept
    have hNot : ¬ p <+: q := fun hPrefix =>
      hKept ⟨suffix_reverse.mpr hPrefix, .inr ⟨trivial, hTop⟩⟩
    simp [hNot]

theorem not_prefix_of_none {p q : List Name} (h : t.node (p.reverse ++ dest) = none)
    (hq : q ∈ pathsUnder dest t) : ¬ p <+: q := by
  intro hPrefix
  have hSome := Tree.isSome_of_suffix (suffix_reverse.mpr hPrefix) hq
  rw [h] at hSome
  cases hSome

theorem dir_of_strict {p q : List Name} (hPrefix : p <+: q) (hne : q ≠ p)
    (hq : q ∈ pathsUnder dest t) : t.node (p.reverse ++ dest) = some .dir := by
  obtain ⟨n, hn⟩ := Tree.exists_child (suffix_reverse.mpr hPrefix)
    fun hEq => hne (reverse_append_inj hEq)
  exact t.closed n _ (Tree.isSome_of_suffix hn hq)

theorem clean_mono {S S' : Set (List Name)} (h : Clean S) (hSub : S' ⊆ S) : Clean S' :=
  fun dir n hMem => h dir n (hSub hMem)

theorem clean_union {S : Set (List Name)} (h : Clean S) :
    Clean (S ∪ {q | q <+: safe}) ↔ ∀ n ∈ safe, ¬ WHITEOUT <+: n := by
  constructor
  · intro hAll n hn
    obtain ⟨before, after, rfl⟩ := List.append_of_mem hn
    refine hAll before n (.inr ⟨after, ?_⟩)
    simp
  · rintro hNames dir n (hOld | hNew)
    · exact h dir n hOld
    · exact hNames n (hNew.subset (by simp))

/-! ## One entry -/

theorem sanitizePath_ne_nil {path : Name} (h : sanitizePath path = some safe) : safe ≠ [] := by
  simp only [sanitizePath] at h
  split at h
  · cases h
  · obtain ⟨out, _, hOut⟩ := Option.bind_eq_some_iff.mp h
    split at hOut
    · cases hOut
    · rename_i hne
      cases hOut
      exact hne

theorem meant_eq_some (h : Whiteout.meant safe = some w) : ∃ dir deleted,
    safe = dir ++ [WHITEOUT ++ deleted] ∧
      w = if deleted = OPAQUE then .opaqueDir dir else .named dir deleted := by
  simp only [Whiteout.meant] at h
  split at h
  · cases h
  · rename_i fileName hLast
    obtain ⟨deleted, hDrop, rfl⟩ := Option.map_eq_some_iff.mp h
    obtain ⟨start, hName, hStart⟩ := List.dropPrefix?_eq_some_iff.mp hDrop
    obtain rfl : start = WHITEOUT := by simpa using hStart
    refine ⟨safe.dropLast, deleted, ?_, rfl⟩
    rw [← hName]
    exact (List.dropLast_append_getLast? _ hLast).symm

theorem of_eq_meant (h : ∀ n, safe.getLast? = some n → utf8Valid n = true) :
    Whiteout.of safe = Whiteout.meant safe := by
  cases hLast : safe.getLast? with
  | none => simp only [Whiteout.of, Whiteout.meant, hLast]
  | some n => simp only [Whiteout.of, Whiteout.meant, hLast, if_pos (h n hLast)]

theorem of_eq_none {n : Name} (hLast : safe.getLast? = some n) (h : utf8Valid n = false) :
    Whiteout.of safe = none := by
  simp only [Whiteout.of, hLast]
  rw [if_neg (by simp [h])]

theorem of_none_of_meant (h : Whiteout.meant safe = none) : Whiteout.of safe = none := by
  cases hLast : safe.getLast? with
  | none => simp only [Whiteout.of, hLast]
  | some n =>
    by_cases hValid : utf8Valid n = true
    · rw [of_eq_meant, h]
      intro m hm
      rw [hLast] at hm
      cases hm
      exact hValid
    · exact of_eq_none hLast (by simpa using hValid)

/-! ## What the code does at a whiteout -/

theorem pathsUnder_named (hDest : t.node dest = some .dir) (hLinks : t.LinkFree dest) {n : Name}
    (hEnding : Ending.of n = .name n) :
    pathsUnder dest ((Whiteout.named dir n).carryOut dest t) =
      {q ∈ pathsUnder dest t | ¬ (Whiteout.named dir n).Deletes q} := by
  have hPath : n :: (dir.reverse ++ dest) = (dir ++ [n]).reverse ++ dest := by simp
  have absent (hNone : t.node (n :: (dir.reverse ++ dest)) = none) :
      pathsUnder dest t = {q ∈ pathsUnder dest t | ¬ dir ++ [n] <+: q} := by
    ext q
    rw [hPath] at hNone
    exact ⟨fun hq => ⟨hq, not_prefix_of_none hNone hq⟩, And.left⟩
  simp only [Whiteout.carryOut, Whiteout.victim, hEnding, Whiteout.Deletes]
  by_cases hDir : t.node (dir.reverse ++ dest) = some .dir
  · rw [removeBoth_name ((hLinks.resolve hDest dir).mpr ⟨hDir, rfl⟩)]
    split
    · rw [hPath]
      exact pathsUnder_prune (by simp)
    · rename_i hNone
      exact absent (by simpa using hNone)
  · have hResolve : t.resolve dest (names dir) = none := by
      cases hSome : t.resolve dest (names dir) with
      | none => rfl
      | some r => exact absurd ((hLinks.resolve hDest dir).mp hSome).1 hDir
    have hSame : removeDirAll (removeFile t dest dir (.name n)) dest dir (.name n) = t := by
      simp [removeFile, removeDirAll, hResolve]
    rw [hSame]
    refine absent (Option.not_isSome_iff_eq_none.mp fun hSome => hDir ?_)
    exact t.closed n _ hSome

/-- An opaque marker takes its directory away with what is in it, if the directory is there. -/
theorem carryOut_opaqueMarker (hDest : t.node dest = some .dir) (hLinks : t.LinkFree dest)
    (dir : List Name) : (Whiteout.opaqueDir dir).carryOut dest t =
      if t.node (dir.reverse ++ dest) = some .dir then t.prune (dir.reverse ++ dest) true
      else t := by
  cases hLast : dir.getLast? with
  | none =>
    obtain rfl : dir = [] := List.getLast?_eq_none_iff.mp hLast
    have hResolve : t.resolve dest [] = some dest := Tree.resolve_eq_some.mpr ⟨hDest, rfl⟩
    simp [Whiteout.carryOut, Whiteout.victim, removeDirAll, hResolve, hDest]
  | some n =>
    obtain ⟨outer, rfl⟩ : ∃ outer, dir = outer ++ [n] :=
      ⟨dir.dropLast, (List.dropLast_append_getLast? n hLast).symm⟩
    have hPath : (outer ++ [n]).reverse ++ dest = n :: (outer.reverse ++ dest) := by simp
    simp only [Whiteout.carryOut, Whiteout.victim, hLast, List.dropLast_concat, removeDirAll]
    rw [hPath]
    cases hResolve : t.resolve dest (names outer) with
    | none =>
      rw [if_neg]
      intro hDir
      have hOuter := Tree.dir_of_suffix (List.suffix_cons n _) hDir
      have hSome : t.resolve dest (names outer) = some (outer.reverse ++ dest) :=
        (hLinks.resolve hDest outer).mpr ⟨hOuter, rfl⟩
      rw [hResolve] at hSome
      cases hSome
    | some r =>
      obtain ⟨_, rfl⟩ := (hLinks.resolve hDest outer).mp hResolve
      dsimp only
      cases hNode : t.node (n :: (outer.reverse ++ dest)) with
      | none => simp
      | some x =>
        cases x with
        | dir => simp
        | file => simp
        | link target =>
          exact absurd hNode (hLinks _ _ ((List.suffix_append _ _).trans (List.suffix_cons n _)))

/-- That is what it says when the directory is not there, or cannot be taken away. -/
theorem pathsUnder_opaque (hDest : t.node dest = some .dir) (hLinks : t.LinkFree dest)
    (dir : List Name) :
    pathsUnder dest ((Whiteout.opaqueDir dir).carryOut dest t) =
        {q ∈ pathsUnder dest t | ¬ (Whiteout.opaqueDir dir).Deletes q} ↔
      (t.node (dir.reverse ++ dest) = some .dir → dir.reverse ++ dest = []) := by
  rw [carryOut_opaqueMarker hDest hLinks]
  by_cases hDir : t.node (dir.reverse ++ dest) = some .dir
  · rw [if_pos hDir]
    simp only [hDir, true_imp_iff]
    constructor
    · intro hSame
      by_contra hTop
      have hKept : dir ∈ pathsUnder dest (t.prune (dir.reverse ++ dest) true) := by
        rw [hSame]
        refine ⟨?_, fun hDeletes => hDeletes.2 rfl⟩
        change (t.node (dir.reverse ++ dest)).isSome = true
        rw [hDir]
        rfl
      rw [pathsUnder_prune hTop] at hKept
      exact hKept.2 List.prefix_rfl
    · intro hTop
      obtain ⟨hRoot, rfl⟩ := List.append_eq_nil_iff.mp hTop
      obtain rfl : dir = [] := List.reverse_eq_nil_iff.mp hRoot
      ext q
      simp only [pathsUnder, Set.mem_ofPred_eq, Tree.node_prune, Whiteout.Deletes]
      by_cases hq : q = []
      · simp [hq]
      · simp [hq]
  · rw [if_neg hDir]
    simp only [hDir, false_imp_iff, iff_true]
    ext q
    refine ⟨fun hq => ⟨hq, fun hDeletes => hDir ?_⟩, And.left⟩
    exact dir_of_strict hDeletes.1 hDeletes.2 hq

/-! ## One step -/

section Step

variable (hExtracts : Extracts unpackIn dest) (hDest : t.node dest = some .dir)
  (hLinks : t.LinkFree dest) (hPlain : Plain e)

include hDest hLinks hPlain in
theorem whiteout_agrees (hSafe : sanitizePath e.path = some safe)
    (hMeant : Whiteout.meant safe = some w) (hOf : Whiteout.of safe = some w) :
    pathsUnder dest (w.carryOut dest t) = {q ∈ pathsUnder dest t | ¬ w.Deletes q} ↔
      Followed t dest e := by
  have hValid : ∀ n, safe.getLast? = some n → utf8Valid n = true := by
    intro n hLast
    by_contra hNot
    rw [of_eq_none hLast (by simpa using hNot)] at hOf
    cases hOf
  obtain ⟨dir, deleted, rfl, rfl⟩ := meant_eq_some hMeant
  simp only [Followed, hSafe, hMeant]
  by_cases hOpaque : deleted = OPAQUE
  · simp only [if_pos hOpaque, pathsUnder_opaque hDest hLinks]
    exact ⟨fun h => ⟨hValid, h⟩, And.right⟩
  · obtain ⟨hNothing, hCur, hParent⟩ := hPlain.2 _ _ hSafe List.getLast?_concat
    have hEnding : Ending.of deleted = .name deleted := by
      rw [Ending.of, if_neg, if_neg, if_neg]
      · rintro rfl
        exact hParent rfl
      · rintro rfl
        exact hCur rfl
      · rintro rfl
        exact hNothing (List.append_nil _)
    simp only [if_neg hOpaque, pathsUnder_named hDest hLinks hEnding, true_iff]
    exact ⟨hValid, trivial⟩

include hExtracts hDest hLinks hPlain in
/-- A step does what the reference does, and leaves no name of a whiteout, when the entry is
followed. -/
theorem step_agrees_iff (hClean : Clean (pathsUnder dest t))
    (hStep : unpackEntry unpackIn dest t e = .ok t') :
    pathsUnder dest t' = referenceStep (pathsUnder dest t) e ∧ Clean (pathsUnder dest t') ↔
      Followed t dest e := by
  cases hSafe : sanitizePath e.path with
  | none =>
    simp only [unpackEntry, hSafe] at hStep
    cases hStep
    simp only [referenceStep, Followed, hSafe, true_and, iff_true]
    exact hClean
  | some safe =>
    have extracted (hOf : Whiteout.of safe = none) :
        pathsUnder dest t' = pathsUnder dest t ∪ {q | q <+: safe} := by
      simp only [unpackEntry, hSafe, hOf] at hStep
      exact hExtracts.paths t e safe t' hDest hSafe hPlain.1 hStep
    cases hMeant : Whiteout.meant safe with
    | none =>
      rw [extracted (of_none_of_meant hMeant), clean_union hClean]
      simp only [referenceStep, Followed, hSafe, hMeant, true_and]
    | some w =>
      obtain ⟨dir, deleted, hPath, _⟩ := meant_eq_some hMeant
      by_cases hValid : ∀ n, safe.getLast? = some n → utf8Valid n = true
      · have hOf : Whiteout.of safe = some w := (of_eq_meant hValid).trans hMeant
        simp only [unpackEntry, hSafe, hOf] at hStep
        cases hStep
        have hSub : Clean {q ∈ pathsUnder dest t | ¬ w.Deletes q} :=
          clean_mono hClean fun q hq => hq.1
        simp only [referenceStep, hSafe, hMeant]
        rw [← whiteout_agrees hDest hLinks hPlain hSafe hMeant hOf]
        constructor
        · exact And.left
        · intro hSame
          rw [hSame]
          exact ⟨rfl, hSub⟩
      · -- the marker itself is extracted
        have hInvalid : Whiteout.of safe = none := by
          simp only [not_forall] at hValid
          obtain ⟨n, hLast, hNot⟩ := hValid
          exact of_eq_none hLast (by simpa using hNot)
        constructor
        · rintro ⟨_, hNames⟩
          refine absurd (List.prefix_append WHITEOUT deleted) (hNames dir _ ?_)
          rw [extracted hInvalid, ← hPath]
          exact .inr List.prefix_rfl
        · intro hFollowed
          simp only [Followed, hSafe, hMeant] at hFollowed
          exact absurd hFollowed.1 hValid

include hExtracts hDest hLinks hPlain in
/-- After an entry that is followed, the next one finds `dest` and no links. -/
theorem step_keeps (hStep : unpackEntry unpackIn dest t e = .ok t')
    (hFollowed : Followed t dest e) : t'.node dest = some .dir ∧ t'.LinkFree dest := by
  cases hSafe : sanitizePath e.path with
  | none =>
    simp only [unpackEntry, hSafe] at hStep
    cases hStep
    exact ⟨hDest, hLinks⟩
  | some safe =>
    cases hOf : Whiteout.of safe with
    | none =>
      simp only [unpackEntry, hSafe, hOf] at hStep
      refine ⟨?_, fun p target hp hLink => ?_⟩
      · have hPaths := hExtracts.paths t e safe t' hDest hSafe hPlain.1 hStep
        have hMade : safe ∈ pathsUnder dest t' := by
          rw [hPaths]
          exact .inr List.prefix_rfl
        exact dir_of_strict (p := []) List.nil_prefix (sanitizePath_ne_nil hSafe) hMade
      · exact hLinks p target hp (hExtracts.links t e t' hPlain.1 hStep p target hLink)
    | some w =>
      simp only [unpackEntry, hSafe, hOf] at hStep
      cases hStep
      have hMeant : Whiteout.meant safe = some w := by
        cases hMeant : Whiteout.meant safe with
        | none =>
          rw [of_none_of_meant hMeant] at hOf
          cases hOf
        | some w' =>
          simp only [Followed, hSafe, hMeant] at hFollowed
          rw [← hMeant, ← of_eq_meant hFollowed.1, hOf]
      have hSame := (whiteout_agrees hDest hLinks hPlain hSafe hMeant hOf).mpr hFollowed
      refine ⟨?_, fun p target hp hLink => ?_⟩
      · have hKept : [] ∈ pathsUnder dest (w.carryOut dest t) := by
          rw [hSame]
          refine ⟨?_, ?_⟩
          · change (t.node dest).isSome = true
            rw [hDest]
            rfl
          · cases w with
            | opaqueDir dir => exact fun hDeletes => hDeletes.2 (List.prefix_nil.mp hDeletes.1).symm
            | named dir deleted => exact fun hDeletes => by simpa using List.prefix_nil.mp hDeletes
        rcases @carryOut_eq t dest w dest with hNone | hKeeps
        · change ((w.carryOut dest t).node dest).isSome = true at hKept
          rw [hNone] at hKept
          cases hKept
        · rw [hKeeps, hDest]
      · rcases @carryOut_eq t dest w p with hNone | hKeeps
        · rw [hNone] at hLink
          cases hLink
        · exact hLinks p target hp (hKeeps ▸ hLink)

end Step

/-! ## An `unpack_in` -/

/-- What is made on the way to `x`. -/
def onTheWay (x : Node Name) (rest : List Name) : Node Name := if rest = [] then x else .dir

/-- The path is made name by name, the last one as `x`, where nothing else stands in the way. -/
def makePath (x : Node Name) (t : FileTree.Tree Name) (p : List Name) :
    List Name → Except ImageError (FileTree.Tree Name)
  | [] => .ok t
  | n :: rest =>
    match t.node (n :: p) with
    | none => makePath x (t.add n p (onTheWay x rest)) (n :: p) rest
    | some y => if y = onTheWay x rest then makePath x t (n :: p) rest else .error .tar

def extract (dest : List Name) (t : FileTree.Tree Name) (e : Entry) :
    Except ImageError (FileTree.Tree Name) :=
  match sanitizePath e.path, e.type with
  | none, _ => .ok t
  | some safe, .directory => makePath .dir t dest safe
  | some safe, .symlink target => makePath (.link target) t dest safe
  | some safe, _ => makePath .file t dest safe

theorem makePath_paths {x : Node Name} {p : List Name} (hDir : safe ≠ [] → t.node p = some .dir)
    (h : makePath x t p safe = .ok t') (q : List Name) : (t'.node q).isSome = true ↔
      (t.node q).isSome = true ∨ ∃ r, r ≠ [] ∧ r <+: safe ∧ q = r.reverse ++ p := by
  induction safe generalizing t p with
  | nil =>
    cases h
    refine (or_iff_left ?_).symm
    rintro ⟨r, hr, hPrefix, _⟩
    exact hr (List.prefix_nil.mp hPrefix)
  | cons n rest ih =>
    have firstOrLater : (∃ r, r ≠ [] ∧ r <+: n :: rest ∧ q = r.reverse ++ p) ↔
        q = n :: p ∨ ∃ r, r ≠ [] ∧ r <+: rest ∧ q = r.reverse ++ n :: p := by
      constructor
      · rintro ⟨r, hr, hPrefix, rfl⟩
        obtain hNil | ⟨later, rfl, hLater⟩ := List.prefix_cons_iff.mp hPrefix
        · exact absurd hNil hr
        · by_cases hEnd : later = []
          · exact .inl (by simp [hEnd])
          · exact .inr ⟨later, hEnd, hLater, by simp⟩
      · rintro (rfl | ⟨r, hr, hPrefix, rfl⟩)
        · exact ⟨[n], List.cons_ne_nil n [], List.cons_prefix_cons.mpr ⟨rfl, List.nil_prefix⟩, rfl⟩
        · exact ⟨n :: r, List.cons_ne_nil n r, List.cons_prefix_cons.mpr ⟨rfl, hPrefix⟩, by simp⟩
    have hHere := hDir (List.cons_ne_nil n rest)
    rw [firstOrLater]
    simp only [makePath] at h
    split at h
    · rename_i hFree
      have hNode := Tree.node_add hHere hFree (onTheWay x rest)
      have hNext : rest ≠ [] → (t.add n p (onTheWay x rest)).node (n :: p) = some .dir := by
        intro hMore
        rw [hNode, if_pos rfl, onTheWay, if_neg hMore]
      rw [ih hNext h, hNode]
      by_cases hq : q = n :: p
      · simp [hq]
      · simp [hq]
    · rename_i z hNode
      split at h
      · rename_i hSame
        have hNext : rest ≠ [] → t.node (n :: p) = some .dir := by
          intro hMore
          rw [hNode, hSame, onTheWay, if_neg hMore]
        rw [ih hNext h]
        by_cases hq : q = n :: p
        · simp [hq, hNode]
        · simp [hq]
      · cases h

theorem makePath_links {x : Node Name} (hx : ∀ target, x ≠ .link target) {p : List Name}
    (h : makePath x t p safe = .ok t') (q : List Name) (target : Target Name)
    (hLink : t'.node q = some (.link target)) : t.node q = some (.link target) := by
  induction safe generalizing t p with
  | nil =>
    cases h
    exact hLink
  | cons n rest ih =>
    simp only [makePath] at h
    split at h
    · have hOld := ih h
      by_cases hq : q = n :: p
      · -- what is added is no link
        by_cases hAdds : t.node p = some .dir ∧ t.node (n :: p) = none
        · rw [Tree.node_add hAdds.1 hAdds.2, if_pos hq, onTheWay] at hOld
          split at hOld
          · exact absurd (Option.some.inj hOld) (hx target)
          · cases hOld
        · rwa [Tree.add, dif_neg hAdds] at hOld
      · rwa [Tree.node_add_ne _ _ _ _ hq] at hOld
    · split at h
      · exact ih h
      · cases h

theorem extract_extracts (dest : List Name) : Extracts (extract dest) dest := by
  have made {t t' : FileTree.Tree Name} {e : Entry} {safe : List Name}
      (hSafe : sanitizePath e.path = some safe) (hType : ∀ target, e.type ≠ .symlink target)
      (h : extract dest t e = .ok t') :
      ∃ x, (∀ target, x ≠ Node.link target) ∧ makePath x t dest safe = .ok t' := by
    obtain ⟨path, type⟩ := e
    simp only [extract, hSafe] at h
    cases type with
    | directory => exact ⟨.dir, nofun, h⟩
    | symlink target => exact absurd rfl (hType target)
    | regular => exact ⟨.file, nofun, h⟩
    | other => exact ⟨.file, nofun, h⟩
    | hardLink target => exact ⟨.file, nofun, h⟩
  refine ⟨fun t e safe t' hDest hSafe hType h => ?_, fun t e t' hType h p target hLink => ?_⟩
  · obtain ⟨x, _, hMade⟩ := made hSafe hType h
    ext q
    have hPaths := makePath_paths (fun _ => hDest) hMade (q.reverse ++ dest)
    simp only [pathsUnder, Set.mem_ofPred_eq, Set.mem_union, hPaths]
    constructor
    · rintro (hOld | ⟨r, _, hPrefix, hEq⟩)
      · exact .inl hOld
      · rw [reverse_append_inj hEq]
        exact .inr hPrefix
    · rintro (hOld | hPrefix)
      · exact .inl hOld
      · by_cases hq : q = []
        · exact .inl (by simp [hq, hDest])
        · exact .inr ⟨q, hq, hPrefix, rfl⟩
  · cases hSafe : sanitizePath e.path with
    | none =>
      simp only [extract, hSafe] at h
      cases h
      exact hLink
    | some safe =>
      obtain ⟨x, hx, hMade⟩ := made hSafe hType h
      exact makePath_links hx hMade p target hLink

/-! ## A whole archive -/

variable {rest : List (Option Entry)}

theorem agrees_skip {paths : Set (List Name)} :
    Agrees unpackIn dest paths t (none :: rest) ↔ Agrees unpackIn dest paths t rest := by
  constructor
  · intro h first hFirst t' hRun
    exact h (none :: first) (List.cons_prefix_cons.mpr ⟨rfl, hFirst⟩) t' hRun
  · intro h first hFirst t' hRun
    rcases List.prefix_cons_iff.mp hFirst with rfl | ⟨later, rfl, hLater⟩
    · exact h [] List.nil_prefix t' hRun
    · exact h later hLater t' hRun

theorem agrees_cons (hStep : unpackEntry unpackIn dest t e = .ok t') :
    Agrees unpackIn dest (pathsUnder dest t) t (some e :: rest) ↔
      Clean (pathsUnder dest t) ∧
        (pathsUnder dest t' = referenceStep (pathsUnder dest t) e ∧ Clean (pathsUnder dest t')) ∧
        Agrees unpackIn dest (pathsUnder dest t') t' rest := by
  have run (first : List (Option Entry)) :
      unpackReader unpackIn dest t (some e :: first) = unpackReader unpackIn dest t' first := by
    rw [unpackReader, hStep]
  constructor
  · intro h
    have hFirst := h [some e] (List.cons_prefix_cons.mpr ⟨rfl, List.nil_prefix⟩) t' (run [])
    refine ⟨(h [] List.nil_prefix t rfl).2, hFirst, fun first hPrefix v hRun => ?_⟩
    have hNext := h (some e :: first) (List.cons_prefix_cons.mpr ⟨rfl, hPrefix⟩) v
      ((run first).trans hRun)
    have hSame : pathsUnder dest t' = referenceStep (pathsUnder dest t) e := hFirst.1
    rw [hSame]
    exact hNext
  · rintro ⟨hClean, hFirst, hRest⟩ first hPrefix v hRun
    rcases List.prefix_cons_iff.mp hPrefix with rfl | ⟨later, rfl, hLater⟩
    · cases hRun
      exact ⟨rfl, hClean⟩
    · have hNext := hRest later hLater v ((run later).symm.trans hRun)
      rw [hFirst.1] at hNext
      exact hNext

/-- For every archive of safe paths without links whose extractions succeed: at every point of it
the paths under `dest` are those of the reference, without a name of a whiteout among them, exactly
when there was no such name to begin with and every entry is followed in the tree it finds. -/
theorem unpack_reference_iff (hExtracts : Extracts unpackIn dest) (entries : List (Option Entry))
    (hPlain : ∀ e, some e ∈ entries → Plain e) (t : FileTree.Tree Name)
    (hDest : t.node dest = some .dir) (hLinks : t.LinkFree dest) {last : FileTree.Tree Name}
    (hRun : unpackReader unpackIn dest t entries = .ok last) :
    Agrees unpackIn dest (pathsUnder dest t) t entries ↔ Clean (pathsUnder dest t) ∧
      ∀ v ∈ reached unpackIn dest t entries, Followed v.1 dest v.2 := by
  induction entries generalizing t with
  | nil =>
    simp only [reached, List.not_mem_nil, false_imp_iff, implies_true, and_true]
    constructor
    · exact fun h => (h [] List.nil_prefix t rfl).2
    · intro hClean first hFirst t' hNone
      obtain rfl := List.prefix_nil.mp hFirst
      cases hNone
      exact ⟨rfl, hClean⟩
  | cons e rest ih =>
    have hRest : ∀ e, some e ∈ rest → Plain e := fun e he => hPlain e (List.mem_cons_of_mem _ he)
    cases e with
    | none => exact agrees_skip.trans (ih hRest t hDest hLinks hRun)
    | some e =>
      have hFirst : Plain e := hPlain e List.mem_cons_self
      cases hStep : unpackEntry unpackIn dest t e with
      | error error =>
        rw [unpackReader, hStep] at hRun
        cases hRun
      | ok t' =>
        rw [unpackReader, hStep] at hRun
        rw [agrees_cons hStep]
        simp only [reached, hStep, List.forall_mem_cons]
        refine and_congr_right fun hClean => ?_
        rw [step_agrees_iff hExtracts hDest hLinks hFirst hClean hStep]
        refine and_congr_right fun hFollowed => ?_
        obtain ⟨hDest', hLinks'⟩ := step_keeps hExtracts hDest hLinks hFirst hStep hFollowed
        have hSame := (step_agrees_iff hExtracts hDest hLinks hFirst hClean hStep).mpr hFollowed
        rw [ih hRest t' hDest' hLinks' hRun]
        simp only [hSame.2, true_and]

theorem host_node (q : List Name) : host.node q = if q = [[0x66]] then some .file
    else if q = [[0x64]] then some .dir else if q = [] then some .dir else none := by
  have hDir := Tree.node_add (t := Tree.bare) (n := ([0x64] : Name)) (p := []) rfl rfl .dir
  have hFile := Tree.node_add (t := Tree.bare.add [0x64] [] .dir) (n := ([0x66] : Name)) (p := [])
    rfl (by decide) .file
  rw [host, hFile, hDir]
  rfl

theorem host_linkFree : host.LinkFree [[0x64]] := by
  intro p target _ hLink
  rw [host_node] at hLink
  repeat' split at hLink
  all_goals cases hLink

theorem host_clean : Clean (pathsUnder [[0x64]] host) := by
  intro dir n hMem
  change (host.node ((dir ++ [n]).reverse ++ [[0x64]])).isSome = true at hMem
  rw [host_node] at hMem
  simp at hMem

theorem plain_of {path : Name} {type : EntryType} (dir : List Name) (n : Name)
    (hType : ∀ target, type ≠ .symlink target) (hSafe : sanitizePath path = some (dir ++ [n]))
    (hName : n ≠ WHITEOUT ∧ n ≠ WHITEOUT ++ [DOT] ∧ n ≠ WHITEOUT ++ [DOT, DOT]) :
    Plain ⟨path, type⟩ := by
  refine ⟨hType, fun safe m hSome hLast => ?_⟩
  cases hSafe.symm.trans hSome
  rw [List.getLast?_concat] at hLast
  cases hLast
  exact hName

theorem unpack_reference_iff_deletesFile : ∃ last,
    unpackReader (extract [[0x64]]) [[0x64]] host deletesFile = .ok last ∧
      (Agrees (extract [[0x64]]) [[0x64]] (pathsUnder [[0x64]] host) host deletesFile ↔
        Clean (pathsUnder [[0x64]] host) ∧
          ∀ v ∈ reached (extract [[0x64]]) [[0x64]] host deletesFile,
            Followed v.1 [[0x64]] v.2) := by
  have hOk : (unpackReader (extract [[0x64]]) [[0x64]] host deletesFile).isOk = true := by
    decide +kernel
  cases hRun : unpackReader (extract [[0x64]]) [[0x64]] host deletesFile with
  | error error =>
    rw [hRun] at hOk
    cases hOk
  | ok last =>
    refine ⟨last, rfl, unpack_reference_iff (extract_extracts _) deletesFile (fun e he => ?_) host
      (by decide) host_linkFree hRun⟩
    simp only [deletesFile, List.mem_cons, Option.some.injEq, List.not_mem_nil, or_false] at he
    rcases he with rfl | rfl
    · exact plain_of [] [0x62] nofun (by decide) (by decide)
    · exact plain_of [] (WHITEOUT ++ [0x62]) nofun (by decide) (by decide)

def clearsDirectory : List (Option Entry) :=
  [some ⟨[0x61], .directory⟩, some ⟨[0x61, SLASH] ++ WHITEOUT ++ OPAQUE, .regular⟩]

/-- The marker takes its directory away. -/
theorem not_unpack_reference : ¬ ∀
    (unpackIn : FileTree.Tree Name → Entry → Except ImageError (FileTree.Tree Name))
    (dest : List Name) (t last : FileTree.Tree Name) (entries : List (Option Entry)),
    Extracts unpackIn dest → (∀ e, some e ∈ entries → Plain e) → t.node dest = some .dir →
      t.LinkFree dest → Clean (pathsUnder dest t) →
      unpackReader unpackIn dest t entries = .ok last →
      pathsUnder dest last = reference (pathsUnder dest t) entries ∧
        Clean (pathsUnder dest last) := by
  intro hAll
  have hGone : (unpackReader (extract [[0x64]]) [[0x64]] host clearsDirectory).toOption.map
      (fun last => last.node [[0x61], [0x64]]) = some none := by decide +kernel
  obtain ⟨last, hLast, hNone⟩ := Option.map_eq_some_iff.mp hGone
  have hRun : unpackReader (extract [[0x64]]) [[0x64]] host clearsDirectory = .ok last := by
    cases hRun : unpackReader (extract [[0x64]]) [[0x64]] host clearsDirectory with
    | error error =>
      rw [hRun] at hLast
      cases hLast
    | ok t =>
      rw [hRun] at hLast
      exact congrArg Except.ok (Option.some.inj hLast)
  obtain ⟨hSame, _⟩ := hAll (extract [[0x64]]) [[0x64]] host last clearsDirectory
    (extract_extracts _) (fun e he => by
      simp only [clearsDirectory, List.mem_cons, Option.some.injEq, List.not_mem_nil,
        or_false] at he
      rcases he with rfl | rfl
      · exact plain_of [] [0x61] nofun (by decide) (by decide)
      · exact plain_of [[0x61]] (WHITEOUT ++ OPAQUE) nofun (by decide) (by decide))
    (by decide) host_linkFree host_clean hRun
  have hKept : [[0x61]] ∈ reference (pathsUnder [[0x64]] host) clearsDirectory := by
    have hFirst : sanitizePath [0x61] = some [[0x61]] := by decide
    have hSecond : sanitizePath ([0x61, SLASH] ++ WHITEOUT ++ OPAQUE) =
        some [[0x61], WHITEOUT ++ OPAQUE] := by decide
    have hMeant : Whiteout.meant [[0x61], WHITEOUT ++ OPAQUE] = some (.opaqueDir [[0x61]]) := by
      decide
    have hOrdinary : Whiteout.meant [[0x61]] = none := by decide
    simp only [reference, clearsDirectory, List.foldl_cons, List.foldl_nil, Option.elim_some,
      referenceStep, hFirst, hSecond, hMeant, hOrdinary]
    exact ⟨.inr List.prefix_rfl, fun hDeletes => hDeletes.2 rfl⟩
  rw [← hSame] at hKept
  change (last.node [[0x61], [0x64]]).isSome = true at hKept
  rw [hNone] at hKept
  cases hKept

end Dtrun.Image
