import Dtrun.Image.Unpack
import Dtrun.Library.StateExcept
import Dtrun.Library.TreeWalk

/-! # Normalizing the unpacked tree

`normalize_tree` looks at each entry without following links and then sets mode, owner and time
through its path, which does follow them. So a link has what it leads to normalized.
-/
namespace Dtrun.Image
set_option autoImplicit false
open FileTree StateExcept

abbrev Path := List Name

structure Metadata where
  mode : BitVec 32
  uid : Nat
  gid : Nat
  mtime : Int

inductive Call where
  | chmod (mode : BitVec 32)
  | chown (uid gid : Nat)
  | utimensat (mtime : Int)
  deriving DecidableEq

/-- The low twelve bits of a mode are set, the file type stays. -/
def Call.apply (m : Metadata) : Call → Metadata
  | .chmod mode => { m with mode := (m.mode &&& ~~~0o7777) ||| (mode &&& 0o7777) }
  | .chown uid gid => { m with uid := uid, gid := gid }
  | .utimensat mtime => { m with mtime := mtime }

/-- The metadata of every file, and the calls made so far with the files they came to. -/
structure Inodes where
  metadata : Path → Metadata
  calls : List (Path × Call)

/-- What the operating system answers: which file stands at a path, named by one of its paths (two
paths with the same file are hard links), whether a directory can be read and what comes of reading
each of its entries, and which calls it grants. -/
structure Answering where
  file : Path → Path := id
  readDir : Path → Except ImageError Unit := fun _ => .ok ()
  entry : Path → Except ImageError Unit := fun _ => .ok ()
  grants : Path → Call → Bool := fun _ _ => true

variable {t : FileTree.Tree Name} (listing : Listing t) (answers : Answering)

def perform (q : Path) (s : Inodes) (call : Call) : Inodes where
  metadata := if answers.grants q call then
    Function.update s.metadata (answers.file q) (call.apply (s.metadata (answers.file q)))
    else s.metadata
  calls := s.calls ++ [(q, call)]

def normalizedCalls (isDir : Bool) (mode : BitVec 32) : List Call :=
  let normalized := if isDir ∨ mode &&& 0o111 ≠ 0 then 0o755 else 0o644
  [.chmod normalized, .chown 0 0, .utimensat 0]

/-- A path that leads nowhere is passed over. -/
def normalizeMeta (t : FileTree.Tree Name) (path : Path) (isDir : Bool) (s : Inodes) : Inodes :=
  match t.stat path with
  | none => s
  | some q =>
    (normalizedCalls isDir (s.metadata (answers.file q)).mode).foldl (perform answers q) s

def normalizeEntries (dir : Path) (names : List Name) (stack : List Path) (s : Inodes) :
    EStateM.Result ImageError Inodes (List Path) :=
  match names with
  | [] => .ok stack s
  | n :: rest =>
    let path := n :: dir
    match answers.entry path with
    | .error e => .error e s
    | .ok () =>
      let isDir : Bool := t.node path = some .dir
      normalizeEntries dir rest (if isDir then path :: stack else stack)
        (normalizeMeta answers t path isDir s)

def normalizeDir (dir : Path) (stack : List Path) (s : Inodes) :
    EStateM.Result ImageError Inodes (List Path) :=
  match answers.readDir dir with
  | .error e => .error e s
  | .ok () => normalizeEntries (t := t) answers dir (listing.entries dir) stack s

def load (stack : List Path) : Nat := (stack.map listing.weight).sum

variable {listing answers}

theorem load_cons (p : Path) (stack : List Path) :
    load listing (p :: stack) = listing.weight p + load listing stack := List.sum_cons

variable (listing) in
theorem normalizeEntries_load {dir : Path} {names : List Name} {stack stack' : List Path}
    {s s' : Inodes}
    (h : normalizeEntries (t := t) answers dir names stack s = .ok stack' s') :
    load listing stack' ≤
      (names.map fun n => listing.weight (n :: dir)).sum + load listing stack := by
  induction names generalizing stack s with
  | nil =>
    cases h
    simp
  | cons n rest ih =>
    simp only [normalizeEntries] at h
    split at h
    · cases h
    · have hRest := ih h
      rw [List.map_cons, List.sum_cons]
      split at hRest
      · rw [load_cons] at hRest
        omega
      · omega

/-- What is below a directory weighs less than the directory. -/
theorem normalizeDir_load {dir : Path} {stack stack' : List Path} {s s' : Inodes}
    (h : normalizeDir listing answers dir stack s = .ok stack' s') :
    load listing stack' < load listing (dir :: stack) := by
  simp only [normalizeDir] at h
  split at h
  · cases h
  · have hEntries := normalizeEntries_load listing h
    have hChildren := listing.weight_children dir
    rw [load_cons]
    omega

variable (listing answers)

def normalizeLoop (stack : List Path) (s : Inodes) : EStateM.Result ImageError Inodes Unit :=
  match stack with
  | [] => .ok () s
  | dir :: stack =>
    match _h : normalizeDir listing answers dir stack s with
    | .error e s => .error e s
    | .ok stack s => normalizeLoop stack s
termination_by load listing stack
decreasing_by exact normalizeDir_load _h

/-- The stack has its top first. -/
def normalizeTree (root : Path) (s : Inodes) : EStateM.Result ImageError Inodes Unit :=
  normalizeLoop listing answers [root] s

variable {listing answers} {dest : Path} {s s' : Inodes}

theorem normalizeLoop_ok {dir : Path} {stack stack' : List Path}
    (h : normalizeDir listing answers dir stack s = .ok stack' s') :
    normalizeLoop listing answers (dir :: stack) s = normalizeLoop listing answers stack' s' := by
  rw [normalizeLoop]
  split
  · rename_i hError
    cases hError.symm.trans h
  · rename_i hOk
    cases hOk.symm.trans h
    rfl

theorem normalizeLoop_error {dir : Path} {stack : List Path} {e : ImageError}
    (h : normalizeDir listing answers dir stack s = .error e s') :
    normalizeLoop listing answers (dir :: stack) s = .error e s' := by
  rw [normalizeLoop]
  split
  · rename_i hError
    cases hError.symm.trans h
    rfl
  · rename_i hOk
    cases hOk.symm.trans h

inductive Walked (listing : Listing t) (root : Path) : Path → Prop
  | root : Walked listing root root
  | sub {dir : Path} {n : Name} (h : Walked listing root dir) (hName : n ∈ listing.entries dir)
      (hDir : t.node (n :: dir) = some .dir) : Walked listing root (n :: dir)

def Unreadable (listing : Listing t) (answers : Answering) (dir : Path) : Prop :=
  (∃ e, answers.readDir dir = .error e) ∨
    ∃ n ∈ listing.entries dir, ∃ e, answers.entry (n :: dir) = .error e

theorem Walked.of_sub {root dir : Path} {n : Name} (hName : n ∈ listing.entries root)
    (hDir : t.node (n :: root) = some .dir) (h : Walked listing (n :: root) dir) :
    Walked listing root dir := by
  induction h with
  | root => exact .sub .root hName hDir
  | sub _ hMore hMoreDir ih => exact .sub ih hMore hMoreDir

theorem Walked.first {root dir : Path} (h : Walked listing root dir) :
    dir = root ∨ ∃ n ∈ listing.entries root, t.node (n :: root) = some .dir ∧
      Walked listing (n :: root) dir := by
  induction h with
  | root => exact .inl rfl
  | @sub dir n _ hName hDir ih =>
    refine .inr ?_
    rcases ih with rfl | ⟨m, hFirst, hFirstDir, hRest⟩
    · exact ⟨n, hName, hDir, .root⟩
    · exact ⟨m, hFirst, hFirstDir, .sub hRest hName hDir⟩

theorem normalizeEntries_fails_iff {dir : Path} {names : List Name} {stack : List Path} :
    (∃ e s', normalizeEntries (t := t) answers dir names stack s = .error e s') ↔
      ∃ n ∈ names, ∃ e, answers.entry (n :: dir) = .error e := by
  induction names generalizing stack s with
  | nil => simp [normalizeEntries]
  | cons n rest ih =>
    rw [normalizeEntries, List.exists_mem_cons_iff]
    cases answers.entry (n :: dir) with
    | error e => simp
    | ok u => simp [ih]

theorem mem_normalizeEntries {dir : Path} {names : List Name} {stack stack' : List Path}
    (h : normalizeEntries (t := t) answers dir names stack s = .ok stack' s') (p : Path) :
    p ∈ stack' ↔ p ∈ stack ∨ ∃ n ∈ names, p = n :: dir ∧ t.node (n :: dir) = some .dir := by
  induction names generalizing stack s with
  | nil =>
    cases h
    simp
  | cons n rest ih =>
    rw [normalizeEntries] at h
    cases hEntry : answers.entry (n :: dir) with
    | error e =>
      rw [hEntry] at h
      cases h
    | ok u =>
      rw [hEntry] at h
      rw [ih h, List.exists_mem_cons_iff]
      by_cases hDir : t.node (n :: dir) = some .dir
      · simp only [hDir, decide_true, if_true, List.mem_cons, and_true]
        rw [or_comm (a := p = n :: dir), or_assoc]
      · simp [hDir]

theorem normalizeDir_fails_iff {dir : Path} {stack : List Path} :
    (∃ e s', normalizeDir listing answers dir stack s = .error e s') ↔
      Unreadable listing answers dir := by
  rw [normalizeDir, Unreadable]
  cases answers.readDir dir with
  | error e => simp
  | ok u => simp [normalizeEntries_fails_iff]

theorem mem_normalizeDir {dir : Path} {stack stack' : List Path}
    (h : normalizeDir listing answers dir stack s = .ok stack' s') (p : Path) :
    p ∈ stack' ↔ p ∈ stack ∨
      ∃ n ∈ listing.entries dir, p = n :: dir ∧ t.node (n :: dir) = some .dir := by
  rw [normalizeDir] at h
  cases hRead : answers.readDir dir with
  | error e =>
    rw [hRead] at h
    cases h
  | ok u =>
    rw [hRead] at h
    exact mem_normalizeEntries h p

theorem normalizeLoop_fails_iff (stack : List Path) (s : Inodes) :
    (∃ e s', normalizeLoop listing answers stack s = .error e s') ↔
      ∃ root ∈ stack, ∃ dir, Walked listing root dir ∧ Unreadable listing answers dir := by
  induction stack, s using normalizeLoop.induct listing answers with
  | case1 s =>
    rw [normalizeLoop]
    simp
  | case2 s dir stack e s' hDir =>
    rw [normalizeLoop_error hDir]
    exact iff_of_true ⟨e, s', rfl⟩
      ⟨dir, List.mem_cons_self, dir, .root, normalizeDir_fails_iff.mp ⟨e, s', hDir⟩⟩
  | case3 s dir stack stack' s' hDir ih =>
    rw [normalizeLoop_ok hDir, ih]
    constructor
    · rintro ⟨root, hRoot, d, hWalked, hFails⟩
      rcases (mem_normalizeDir hDir root).mp hRoot with hOld | ⟨n, hName, rfl, hNode⟩
      · exact ⟨root, List.mem_cons_of_mem dir hOld, d, hWalked, hFails⟩
      · exact ⟨dir, List.mem_cons_self, d, hWalked.of_sub hName hNode, hFails⟩
    · rintro ⟨root, hRoot, d, hWalked, hFails⟩
      rcases List.mem_cons.mp hRoot with rfl | hOld
      · rcases hWalked.first with rfl | ⟨n, hName, hNode, hRest⟩
        · have hError : ∃ e v, normalizeDir listing answers d stack s = .error e v :=
            normalizeDir_fails_iff.mpr hFails
          obtain ⟨e, v, hError⟩ := hError
          cases hDir.symm.trans hError
        · exact ⟨n :: root, (mem_normalizeDir hDir _).mpr (.inr ⟨n, hName, rfl, hNode⟩), d, hRest,
            hFails⟩
      · exact ⟨root, (mem_normalizeDir hDir root).mpr (.inl hOld), d, hWalked, hFails⟩

/-- The walk fails exactly when it comes to something that cannot be read; what becomes of the calls
on the way does not matter. -/
theorem normalizeTree_fails_iff (root : Path) (s : Inodes) :
    (∃ e s', normalizeTree listing answers root s = .error e s') ↔
      ∃ dir, Walked listing root dir ∧ Unreadable listing answers dir := by
  rw [normalizeTree, normalizeLoop_fails_iff]
  simp

/-- Every call made came to a path beneath `dest`, and every file that has none is as it was. -/
structure Spares (file : Path → Path) (dest : Path) (metadata : Path → Metadata) (s : Inodes) :
    Prop where
  calls : ∀ c ∈ s.calls, Beneath dest c.1
  metadata : ∀ q, (∀ r, Beneath dest r → file r ≠ q) → s.metadata q = metadata q

theorem Spares.perform {metadata : Path → Metadata} {q : Path}
    (h : Spares answers.file dest metadata s) (hq : Beneath dest q) (call : Call) :
    Spares answers.file dest metadata (perform answers q s call) := by
  refine ⟨fun c hc => ?_, fun r hr => ?_⟩
  · rcases List.mem_append.mp hc with hOld | hNew
    · exact h.calls c hOld
    · rw [List.mem_singleton.mp hNew]
      exact hq
  · simp only [Image.perform]
    split
    · rw [Function.update_of_ne (hr q hq).symm]
      exact h.metadata r hr
    · exact h.metadata r hr

/-- Every link beneath `dest` leads to something beneath `dest`, or nowhere. -/
def LinksInside (t : FileTree.Tree Name) (dest : Path) : Prop :=
  ∀ p target q, Beneath dest p → t.node p = some (.link target) → t.stat p = some q →
    Beneath dest q

theorem LinksInside.stat {p q : Path} (h : LinksInside t dest) (hp : Beneath dest p)
    (hStat : t.stat p = some q) (hSome : (t.node p).isSome = true) : Beneath dest q := by
  by_cases hLink : ∃ target, t.node p = some (.link target)
  · obtain ⟨target, hNode⟩ := hLink
    exact h p target q hp hNode hStat
  · simp only [not_exists] at hLink
    rw [Tree.stat_self hSome hLink] at hStat
    cases hStat
    exact hp

theorem Spares.normalizeMeta {metadata : Path → Metadata} {p : Path} {isDir : Bool}
    (h : Spares answers.file dest metadata s) (hLinks : LinksInside t dest) (hp : Beneath dest p)
    (hSome : (t.node p).isSome = true) :
    Spares answers.file dest metadata (normalizeMeta answers t p isDir s) := by
  simp only [Image.normalizeMeta]
  cases hStat : t.stat p with
  | none => exact h
  | some q =>
    have hq := hLinks.stat hp hStat hSome
    exact ((h.perform hq _).perform hq _).perform hq _

theorem beneath_cons {n : Name} {p : Path} (h : dest <:+ p) : Beneath dest (n :: p) := by
  refine ⟨h.trans (List.suffix_cons n p), fun hEq => ?_⟩
  have hLength := h.length_le
  rw [← hEq, List.length_cons] at hLength
  omega

theorem Spares.normalizeEntries {metadata : Path → Metadata} {dir : Path} {names : List Name}
    {stack : List Path} (h : Spares answers.file dest metadata s) (hLinks : LinksInside t dest)
    (hDir : dest <:+ dir) (hNames : ∀ n ∈ names, (t.node (n :: dir)).isSome = true)
    (hStack : ∀ p ∈ stack, dest <:+ p) :
    Ends (fun stack' s' => Spares answers.file dest metadata s' ∧ ∀ p ∈ stack', dest <:+ p)
      (Spares answers.file dest metadata)
      (normalizeEntries (t := t) answers dir names stack s) := by
  induction names generalizing stack s with
  | nil => exact ⟨h, hStack⟩
  | cons n rest ih =>
    simp only [Image.normalizeEntries]
    split
    · exact h
    · have hHere := beneath_cons (n := n) hDir
      refine ih (h.normalizeMeta hLinks hHere (hNames n List.mem_cons_self))
        (fun m hm => hNames m (List.mem_cons_of_mem n hm)) fun p hp => ?_
      split at hp
      · rcases List.mem_cons.mp hp with rfl | hOld
        · exact hHere.1
        · exact hStack p hOld
      · exact hStack p hp

theorem Spares.normalizeDir {metadata : Path → Metadata} {dir : Path} {stack : List Path}
    (h : Spares answers.file dest metadata s) (hLinks : LinksInside t dest)
    (hStack : ∀ p ∈ dir :: stack, dest <:+ p) :
    Ends (fun stack' s' => Spares answers.file dest metadata s' ∧ ∀ p ∈ stack', dest <:+ p)
      (Spares answers.file dest metadata) (normalizeDir listing answers dir stack s) := by
  rw [List.forall_mem_cons] at hStack
  simp only [Image.normalizeDir]
  split
  · exact h
  · exact h.normalizeEntries hLinks hStack.1 (fun n => listing.exist n dir) hStack.2

theorem Spares.normalizeLoop {metadata : Path → Metadata} {stack : List Path}
    (h : Spares answers.file dest metadata s) (hLinks : LinksInside t dest)
    (hStack : ∀ p ∈ stack, dest <:+ p) :
    Spares answers.file dest metadata (final (normalizeLoop listing answers stack s)) := by
  induction stack, s using normalizeLoop.induct listing answers with
  | case1 s =>
    rw [Image.normalizeLoop]
    exact h
  | case2 s dir stack e s' hDir =>
    have hEnds : Ends _ _ (Image.normalizeDir listing answers dir stack s) :=
      h.normalizeDir hLinks hStack
    rw [hDir] at hEnds
    rw [normalizeLoop_error hDir]
    exact hEnds
  | case3 s dir stack stack' s' hDir ih =>
    have hEnds : Ends _ _ (Image.normalizeDir listing answers dir stack s) :=
      h.normalizeDir hLinks hStack
    rw [hDir] at hEnds
    rw [normalizeLoop_ok hDir]
    exact ih hEnds.1 hEnds.2

def Inodes.Reached (s : Inodes) (q : Path) : Prop := ∃ call, (q, call) ∈ s.calls

theorem calls_normalizeMeta (p : Path) (isDir : Bool) (s : Inodes) :
    s.calls ⊆ (normalizeMeta answers t p isDir s).calls := by
  simp only [normalizeMeta]
  cases t.stat p with
  | none => exact List.Subset.refl _
  | some q =>
    simp only [normalizedCalls, List.foldl_cons, List.foldl_nil, perform, List.append_assoc]
    exact List.subset_append_left _ _

variable (answers) in
theorem reached_normalizeMeta {p q : Path} (h : t.stat p = some q) (isDir : Bool) (s : Inodes) :
    (normalizeMeta answers t p isDir s).Reached q := by
  refine ⟨.utimensat 0, ?_⟩
  simp [normalizeMeta, h, normalizedCalls, perform]

theorem normalizeEntries_all (dir : Path) (names : List Name) (stack : List Path) (s : Inodes) :
    ∃ stack' s', normalizeEntries (t := t) {} dir names stack s = .ok stack' s' ∧
      stack ⊆ stack' ∧ s.calls ⊆ s'.calls ∧
      ∀ n ∈ names, (t.node (n :: dir) = some .dir → n :: dir ∈ stack') ∧
        ∀ q, t.stat (n :: dir) = some q → s'.Reached q := by
  induction names generalizing stack s with
  | nil => exact ⟨stack, s, rfl, List.Subset.refl _, List.Subset.refl _, fun n hn => by cases hn⟩
  | cons n rest ih =>
    let isDir : Bool := t.node (n :: dir) = some .dir
    obtain ⟨stack', s', hRun, hStack, hCalls, hRest⟩ :=
      ih (if isDir then (n :: dir) :: stack else stack) (normalizeMeta {} t (n :: dir) isDir s)
    refine ⟨stack', s', hRun, fun p hp => hStack ?_, fun c hc => hCalls ?_, fun m hm => ?_⟩
    · split
      · exact List.mem_cons_of_mem _ hp
      · exact hp
    · exact calls_normalizeMeta (n :: dir) isDir s hc
    · rcases List.mem_cons.mp hm with rfl | hLater
      · refine ⟨fun hDir => hStack ?_, fun q hq => ?_⟩
        · simp [isDir, hDir]
        · obtain ⟨call, hCall⟩ := reached_normalizeMeta {} hq isDir s
          exact ⟨call, hCalls hCall⟩
      · exact hRest m hLater

theorem normalizeLoop_ends (stack : List Path) (s : Inodes) :
    ∃ s', normalizeLoop listing {} stack s = .ok () s' := by
  induction stack, s using normalizeLoop.induct listing {} with
  | case1 s => exact ⟨s, by rw [normalizeLoop]⟩
  | case2 s dir stack e s' hDir =>
    obtain ⟨stack', v, hRun, _⟩ := normalizeEntries_all (t := t) dir (listing.entries dir) stack s
    cases hRun.symm.trans hDir
  | case3 s dir stack stack' s' hDir ih =>
    rw [normalizeLoop_ok hDir]
    exact ih

/-- When everything can be read, everything below the stack is come to. -/
theorem normalizeLoop_all (hComplete : listing.Complete) (stack : List Path) (s : Inodes) :
    s.calls ⊆ (final (normalizeLoop listing {} stack s)).calls ∧
      ∀ d ∈ stack, ∀ p, Beneath d p → (t.node p).isSome = true → ∀ q, t.stat p = some q →
        (final (normalizeLoop listing {} stack s)).Reached q := by
  induction stack, s using normalizeLoop.induct listing {} with
  | case1 s =>
    rw [normalizeLoop]
    exact ⟨List.Subset.refl _, fun d hd => by cases hd⟩
  | case2 s dir stack e s' hDir =>
    obtain ⟨stack', v, hRun, _⟩ := normalizeEntries_all (t := t) dir (listing.entries dir) stack s
    cases hRun.symm.trans hDir
  | case3 s dir stack stack' s' hDir ih =>
    obtain ⟨_, _, hRun, hStack, hCalls, hNames⟩ :=
      normalizeEntries_all (t := t) dir (listing.entries dir) stack s
    cases hRun.symm.trans hDir
    rw [normalizeLoop_ok hDir]
    obtain ⟨hKept, hBelow⟩ := ih
    refine ⟨List.Subset.trans hCalls hKept, fun d hd p hp hSome q hq => ?_⟩
    rcases List.mem_cons.mp hd with rfl | hLater
    · obtain ⟨n, hn⟩ := Tree.exists_child hp.1 hp.2
      have hChild := hNames n (hComplete n d (Tree.isSome_of_suffix hn hSome))
      rcases eq_or_ne p (n :: d) with rfl | hne
      · obtain ⟨call, hCall⟩ := hChild.2 q hq
        exact ⟨call, hKept hCall⟩
      · refine hBelow (n :: d) (hChild.1 ?_) p ⟨hn, hne⟩ hSome q hq
        obtain ⟨m, hm⟩ := Tree.exists_child hn hne
        exact t.closed m (n :: d) (Tree.isSome_of_suffix hm hSome)
    · exact hBelow d (hStack hLater) p hp hSome q hq

/-- Nothing but files beneath `dest` is changed, whatever the operating system answers, exactly when
no link beneath `dest` leads elsewhere. -/
theorem normalizeTree_inside_iff (hComplete : listing.Complete) (dest : Path)
    (metadata : Path → Metadata) :
    (∀ answers, Spares answers.file dest metadata
      (final (normalizeTree listing answers dest ⟨metadata, []⟩))) ↔ LinksInside t dest := by
  constructor
  · intro hAll p target q hp hNode hStat
    have hSome : (t.node p).isSome = true := by
      rw [hNode]
      rfl
    obtain ⟨call, hCall⟩ := (normalizeLoop_all hComplete [dest] ⟨metadata, []⟩).2 dest
      List.mem_cons_self p hp hSome q hStat
    exact (hAll {}).calls (q, call) hCall
  · intro hLinks answers
    refine Spares.normalizeLoop ⟨fun c hc => (by cases hc), fun q _ => rfl⟩ hLinks fun p hp => ?_
    rw [List.mem_singleton.mp hp]

def linked (target : Target Name) : FileTree.Tree Name :=
  (((Tree.bare.add [0x64] [] .dir).add [0x66] [] .file).add [0x66] [[0x64]] .file).add
    [0x6c] [[0x64]] (.link target)

theorem node_linked (target : Target Name) (q : Path) : (linked target).node q =
    if q = [[0x6c], [0x64]] then some (.link target)
    else if q = [[0x66], [0x64]] then some .file
    else if q = [[0x66]] then some .file
    else if q = [[0x64]] then some .dir
    else if q = [] then some .dir else none := by
  rw [linked, Tree.node_add (by decide) (by decide), Tree.node_add (by decide) (by decide),
    Tree.node_add (by decide) (by decide), Tree.node_add (by decide) (by decide)]
  rfl

def linkedListing (target : Target Name) : Listing (linked target) :=
  .among [[0x64], [0x66], [0x6c]] 2 _

theorem linkedListing_complete (target : Target Name) : (linkedListing target).Complete := by
  intro n p h
  have hAll : (n = [0x64] ∨ n = [0x66] ∨ n = [0x6c]) ∧ p.length < 2 := by
    rw [node_linked] at h
    simp only [List.cons.injEq] at h
    split at h
    · rename_i hEq
      simp [hEq.1, hEq.2]
    split at h
    · rename_i hEq
      simp [hEq.1, hEq.2]
    split at h
    · rename_i hEq
      simp [hEq.1, hEq.2]
    split at h
    · rename_i hEq
      simp [hEq.1, hEq.2]
    · simp at h
  simp only [linkedListing, Listing.among, if_pos hAll.2, List.mem_filter, List.mem_cons,
    List.not_mem_nil, or_false]
  exact ⟨hAll.1, h⟩

theorem link_linked {target target' : Target Name} {p : Path}
    (h : (linked target).node p = some (.link target')) : p = [[0x6c], [0x64]] := by
  by_contra hne
  rw [node_linked, if_neg hne] at h
  split at h
  · cases h
  split at h
  · cases h
  split at h
  · cases h
  split at h
  · cases h
  · cases h

def unpacked : Path → Metadata := fun _ => ⟨0o100600, 1000, 1000, 7⟩

/-- A link to the file next to it. -/
theorem normalizeTree_inside_iff_linked : Spares id [[0x64]] unpacked (final (normalizeTree
    (linkedListing ⟨false, [.name [0x66]]⟩) {} [[0x64]] ⟨unpacked, []⟩)) := by
  refine (normalizeTree_inside_iff (linkedListing_complete _) [[0x64]] unpacked).mpr ?_ {}
  intro p target q hp hNode hStat
  obtain rfl := link_linked hNode
  have hThere : (linked ⟨false, [.name [0x66]]⟩).stat [[0x6c], [0x64]] = some [[0x66], [0x64]] := by
    decide
  cases hThere.symm.trans hStat
  decide

/-- `l` leads to `/f`, whose mode, owner and time are then set. -/
theorem not_normalizeTree_inside : ¬ ∀ (t : FileTree.Tree Name) (listing : Listing t) (dest : Path)
    (metadata : Path → Metadata) (answers : Answering),
    listing.Complete → t.node dest = some .dir →
      Spares answers.file dest metadata
        (final (normalizeTree listing answers dest ⟨metadata, []⟩)) := by
  intro hAll
  let target : Target Name := ⟨true, [.name [0x66]]⟩
  have hStat : (linked target).stat [[0x6c], [0x64]] = some [[0x66]] := by decide
  obtain ⟨call, hCall⟩ := (normalizeLoop_all (linkedListing_complete target) [[[0x64]]]
    ⟨unpacked, []⟩).2 [[0x64]] List.mem_cons_self _ (by decide) (by decide) _ hStat
  have hSpares := hAll (linked target) (linkedListing target) [[0x64]] unpacked {}
    (linkedListing_complete target) (by decide)
  have hBeneath : Beneath ([[0x64]] : Path) [[0x66]] := hSpares.calls _ hCall
  exact absurd hBeneath (by decide)

end Dtrun.Image
