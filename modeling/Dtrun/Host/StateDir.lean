import Dtrun.Image.Unpack

/-! # Where a container's state is kept

`container_dir` joins the id onto the state root as it is. The kernel then walks the path, links
followed; an absolute id replaces the root, and `..` leaves it. `list_ids` goes the other way, from
the names that stand in the root to the ids.
-/
namespace Dtrun.StateDir
set_option autoImplicit false
open FileTree Image

def FileName (n : Name) : Prop := n ≠ [] ∧ SLASH ∉ n ∧ n ≠ [DOT] ∧ n ≠ [DOT, DOT]

instance (n : Name) : Decidable (FileName n) := inferInstanceAs (Decidable (_ ∧ _))

/-- A file tree all of whose entries have names that an entry can have. -/
structure Files where
  tree : FileTree.Tree Name
  named : ∀ n p, (tree.node (n :: p)).isSome = true → FileName n

/-- An id, which is text. -/
structure Id where
  name : Name
  valid : utf8Valid name = true

def STATE : Name := [0x73, 0x74, 0x61, 0x74, 0x65, 0x2e, 0x6a, 0x73, 0x6f, 0x6e]
def TRACE : Name := [0x74, 0x72, 0x61, 0x63, 0x65, 0x2e, 0x6a, 0x73, 0x6f, 0x6e, 0x6c]
def FIFO : Name := [0x65, 0x78, 0x65, 0x63, 0x2e, 0x66, 0x69, 0x66, 0x6f]

namespace Files

def bare : Files where
  tree := Tree.bare
  named n p h := by simp [Tree.bare] at h

def add (f : Files) (n : Name) (p : List Name) (x : Node Name) : Files :=
  if h : FileName n then
    { tree := f.tree.add n p x
      named := fun m q hq => by
        by_cases hEq : m :: q = n :: p
        · obtain ⟨rfl, rfl⟩ := List.cons.inj hEq
          exact h
        · rw [Tree.node_add_ne _ _ _ _ hEq] at hq
          exact f.named m q hq }
  else f

def prune (f : Files) (p : List Name) (whole : Bool) : Files where
  tree := f.tree.prune p whole
  named n q h := by
    rcases Tree.node_prune_eq f.tree p (n :: q) whole with hNone | hSame
    · rw [hNone] at h
      cases h
    · rw [hSame] at h
      exact f.named n q h

end Files

/-- The components that the kernel walks. A root component is where the walk starts. -/
def walked (path : Name) : List (Component Name) :=
  (components path).filterMap fun c => match c with
    | .rootDir => none
    | .curDir => some .cur
    | .parentDir => some .parent
    | .normal n => some (.name n)

/-- `root.join(id)`, from the root of the file system. -/
def containerDir (root : List (Component Name)) (id : Id) : List (Component Name) :=
  if id.name.head? = some SLASH then walked id.name else root ++ walked id.name

/-- `fs::create_dir_all` -/
def createDirAll : List (Component Name) → List Name → Files → Option Files
  | [], _, f => some f
  | .cur :: rest, p, f => createDirAll rest p f
  | .parent :: rest, p, f => createDirAll rest p.tail f
  | .name n :: rest, p, f =>
    match f.tree.node (n :: p) with
    | none => createDirAll rest (n :: p) (f.add n p .dir)
    | some .dir => createDirAll rest (n :: p) f
    | some .file => none
    | some (.link _) => match f.tree.resolve p [.name n] with
      | none => none
      | some q => createDirAll rest q f

variable (root : List (Component Name))

/-- The directory that `create`, `run`, `start`, `kill`, `delete`, `state` and `exec` open files in
for the id. -/
def Files.home (f : Files) (id : Id) : Option (List Name) :=
  f.tree.resolve [] (containerDir root id)

/-- `write_state`, in the directory `h`. What stands there under the name is a regular file. -/
def Files.writeState (f : Files) (h : List Name) : Option Files :=
  match f.tree.node (STATE :: h) with
  | none => some (f.add STATE h .file)
  | some .file => some f
  | some .dir | some (.link _) => none

/-- What `create` (with a FIFO) and `run` do to the files, if they get as far as the record. -/
def Files.create (f : Files) (id : Id) (fifo : Bool) : Option Files := do
  let f ← createDirAll (containerDir root id) [] f
  let h ← f.home root id
  let f := f.add TRACE h .file
  let f := if fifo then f.add FIFO h .file else f
  f.writeState h

/-- `remove_dir_all(container_dir)`. A link at the end of the path is removed itself unless a slash
follows it; `rmdir` fails on `.`, on `..` and on a link. -/
def Files.removeState (f : Files) (id : Id) : Files :=
  let path := containerDir root id
  match Ending.of ((splitSlash id.name).getLastD []), path.getLast? with
  | .name _, some (.name n) => match f.tree.resolve [] path.dropLast with
    | none => f
    | some r => match f.tree.node (n :: r) with
      | none | some .file => f
      | some .dir | some (.link _) => f.prune (n :: r) true
  | .slash, some (.name n) => match f.home root id, f.tree.resolve [] path.dropLast with
    | some h, some r => f.prune h (h = n :: r)
    | _, _ => f
  | _, last => match f.home root id with
    | none => f
    | some h => f.prune h (last = none)

/-- `list_ids`: the entries of the root beneath which a record stands. -/
def Files.Lists (f : Files) (id : Id) : Prop :=
  ∃ r h, f.tree.resolve [] root = some r ∧ (f.tree.node (id.name :: r)).isSome = true ∧
    f.tree.resolve [] (root ++ [.name id.name]) = some h ∧ (f.tree.node (STATE :: h)).isSome = true

def createAll (f : Files) : List (Id × Bool) → Option Files
  | [] => some f
  | (id, fifo) :: rest => (f.create root id fifo).bind fun f => createAll f rest

/-- Every container has a directory of its own, which stands in the root under the id's name. -/
structure Housed (f : Files) (ids : List Id) : Prop where
  child : ∀ id ∈ ids, ∃ r, f.tree.resolve [] root = some r ∧ f.home root id = some (id.name :: r)
  distinct : ∀ a ∈ ids, ∀ b ∈ ids, a ≠ b → f.home root a ≠ f.home root b
  listed : ∀ id ∈ ids, f.Lists root id
  removes : ∀ id ∈ ids, ∀ h q, f.home root id = some h →
    (f.removeState root id).tree.node q ≠ f.tree.node q → h <:+ q
  others : ∀ a ∈ ids, ∀ b ∈ ids, a ≠ b → ∀ h q, f.home root b = some h → h <:+ q →
    (f.removeState root a).tree.node q = f.tree.node q

def Grows (f f' : Files) : Prop := ∀ q x, f.tree.node q = some x → f'.tree.node q = some x

variable {root} {f f' g : Files} {id : Id} {ids : List (Id × Bool)}

theorem splitSlash_of_not_mem {n : Name} (h : SLASH ∉ n) : splitSlash n = [n] := by
  induction n with
  | nil => rfl
  | cons b rest ih =>
    rw [List.mem_cons, not_or] at h
    rw [splitSlash, if_neg (Ne.symm h.1), ih h.2]

theorem head_ne_slash {n : Name} (h : SLASH ∉ n) : n.head? ≠ some SLASH :=
  fun hHead => h (List.mem_of_head? hHead)

theorem walked_fileName {n : Name} (h : FileName n) : walked n = [.name n] := by
  obtain ⟨hEmpty, hSlash, hDot, hDots⟩ := h
  simp [walked, components, splitSlash_of_not_mem hSlash, head_ne_slash hSlash, hEmpty, hDot, hDots]

theorem containerDir_fileName (h : FileName id.name) :
    containerDir root id = root ++ [.name id.name] := by
  rw [containerDir, if_neg (head_ne_slash h.2.1), walked_fileName h]

namespace Grows

theorem refl (f : Files) : Grows f f := fun _ _ h => h

theorem trans (h : Grows f g) (h' : Grows g f') : Grows f f' := fun q x hx => h' q x (h q x hx)

theorem add (f : Files) (n : Name) (p : List Name) (x : Node Name) : Grows f (f.add n p x) := by
  intro q y hy
  simp only [Files.add]
  split
  · exact Tree.node_add_of_some hy n p x
  · exact hy

theorem createDirAll {components : List (Component Name)} {p : List Name}
    (h : createDirAll components p f = some f') : Grows f f' := by
  induction components generalizing p f with
  | nil =>
    cases h
    exact refl _
  | cons c rest ih =>
    cases c with
    | cur => exact ih h
    | parent => exact ih h
    | name n =>
      simp only [StateDir.createDirAll] at h
      split at h
      · exact (add f n p .dir).trans (ih h)
      · exact ih h
      · cases h
      · split at h
        · cases h
        · exact ih h

theorem writeState {h : List Name} (hWrite : f.writeState h = some f') : Grows f f' := by
  simp only [Files.writeState] at hWrite
  split at hWrite
  · cases hWrite
    exact add f STATE h .file
  · cases hWrite
    exact refl f
  · cases hWrite
  · cases hWrite

theorem resolve (h : Grows f f') {p r : List Name} {components : List (Component Name)}
    (hResolve : f.tree.resolve p components = some r) :
    f'.tree.resolve p components = some r := by
  refine Tree.resolve_mono (fun q => ?_) hResolve
  cases hNode : f.tree.node q with
  | none => exact .inl rfl
  | some x => exact .inr (h q x hNode).symm

end Grows

def Recorded (root : List (Component Name)) (f : Files) (id : Id) : Prop :=
  ∃ h, f.home root id = some h ∧ f.tree.node (STATE :: h) = some .file

theorem Recorded.mono (h : Recorded root f id) (hGrows : Grows f f') : Recorded root f' id := by
  obtain ⟨p, hHome, hState⟩ := h
  exact ⟨p, hGrows.resolve hHome, hGrows _ _ hState⟩

theorem writeState_records {h : List Name} (hDir : f.tree.node h = some .dir)
    (hWrite : f.writeState h = some f') : f'.tree.node (STATE :: h) = some .file := by
  simp only [Files.writeState] at hWrite
  split at hWrite
  · rename_i hFree
    cases hWrite
    rw [Files.add, dif_pos (by decide), Tree.node_add hDir hFree, if_pos rfl]
  · rename_i hFile
    cases hWrite
    exact hFile
  · cases hWrite
  · cases hWrite

theorem create_grows {fifo : Bool} (h : f.create root id fifo = some f') :
    Grows f f' ∧ Recorded root f' id := by
  simp only [Files.create, Option.bind_eq_bind, Option.bind_eq_some_iff] at h
  obtain ⟨g, hDirs, p, hHome, hWrite⟩ := h
  have hFiles : Grows g (if fifo then (g.add TRACE p .file).add FIFO p .file
      else g.add TRACE p .file) := by
    split
    · exact (Grows.add g TRACE p .file).trans (Grows.add _ FIFO p .file)
    · exact Grows.add g TRACE p .file
  have hAll : Grows g f' := hFiles.trans (Grows.writeState hWrite)
  refine ⟨(Grows.createDirAll hDirs).trans hAll, p, hAll.resolve hHome, ?_⟩
  exact writeState_records (hFiles _ _ (Tree.resolve_dir hHome)) hWrite

theorem createAll_records (h : createAll root f ids = some f') :
    Grows f f' ∧ ∀ id ∈ ids.map Prod.fst, Recorded root f' id := by
  induction ids generalizing f with
  | nil =>
    cases h
    exact ⟨Grows.refl _, fun id hMem => by cases hMem⟩
  | cons first rest ih =>
    obtain ⟨id, fifo⟩ := first
    obtain ⟨g, hFirst, hRest⟩ := Option.bind_eq_some_iff.mp h
    obtain ⟨hGrows, hRecorded⟩ := create_grows hFirst
    obtain ⟨hLater, hAll⟩ := ih hRest
    refine ⟨hGrows.trans hLater, fun id' hMem => ?_⟩
    rcases List.mem_cons.mp hMem with rfl | hMem
    · exact hRecorded.mono hLater
    · exact hAll id' hMem

/-- An id that names an entry of the root, which is not a link. -/
def Plain (root : List (Component Name)) (f : Files) (id : Id) : Prop :=
  FileName id.name ∧ ∀ r, f.tree.resolve [] root = some r →
    ∀ target, f.tree.node (id.name :: r) ≠ some (.link target)

/-- The container is where its id says, in the root `r`. -/
structure Placed (root : List (Component Name)) (f : Files) (id : Id) (r : List Name) : Prop where
  name : FileName id.name
  resolves : f.tree.resolve [] root = some r
  home : f.home root id = some (id.name :: r)
  dir : f.tree.node (id.name :: r) = some .dir
  state : f.tree.node (STATE :: id.name :: r) = some .file

theorem Recorded.placed (h : Recorded root f id) (hPlain : Plain root f id) :
    ∃ r, Placed root f id r := by
  obtain ⟨p, hHome, hState⟩ := h
  obtain ⟨hName, hLink⟩ := hPlain
  have hPath := hHome
  rw [Files.home, containerDir_fileName hName] at hPath
  obtain ⟨r, hr, ⟨hDir, rfl⟩ | ⟨target, hTarget⟩⟩ := Tree.resolve_concat hPath
  · exact ⟨r, hName, hr, hHome, hDir, hState⟩
  · exact absurd hTarget (hLink r hr target)

namespace Placed

variable {r : List Name}

theorem lists (h : Placed root f id r) : f.Lists root id := by
  refine ⟨r, id.name :: r, h.resolves, by rw [h.dir]; rfl, ?_, by rw [h.state]; rfl⟩
  rw [← containerDir_fileName h.name]
  exact h.home

theorem removeState (h : Placed root f id r) :
    f.removeState root id = f.prune (id.name :: r) true := by
  obtain ⟨hEmpty, hSlash, hDot, hDots⟩ := h.name
  have hEnding : Ending.of ((splitSlash id.name).getLastD []) = .name id.name := by
    simp [splitSlash_of_not_mem hSlash, Ending.of, hEmpty, hDot, hDots]
  simp only [Files.removeState, hEnding, containerDir_fileName h.name]
  simp [h.resolves, h.dir]

/-- What the removal changes lies in the container's own directory. -/
theorem removes (h : Placed root f id r) {q : List Name}
    (hChanged : (f.removeState root id).tree.node q ≠ f.tree.node q) : id.name :: r <:+ q := by
  rw [h.removeState] at hChanged
  change (f.tree.prune (id.name :: r) true).node q ≠ _ at hChanged
  rw [Tree.node_prune] at hChanged
  split at hChanged
  · rename_i hTaken
    exact hTaken.1
  · exact absurd rfl hChanged

end Placed

/-- The containers have directories of their own exactly when every id is a file name, and none
names a link. -/
theorem housed_iff (hCreate : createAll root f ids = some f') :
    Housed root f' (ids.map Prod.fst) ↔ ∀ id ∈ ids.map Prod.fst, Plain root f' id := by
  constructor
  · intro h id hMem
    obtain ⟨r, _, _, hStands, _⟩ := h.listed id hMem
    refine ⟨f'.named id.name r hStands, fun r hr target hLink => ?_⟩
    obtain ⟨r', hr', hHome⟩ := h.child id hMem
    cases hr.symm.trans hr'
    cases hLink.symm.trans (Tree.resolve_dir hHome)
  · intro h
    have placed {id : Id} (hMem : id ∈ ids.map Prod.fst) : ∃ r, Placed root f' id r :=
      ((createAll_records hCreate).2 id hMem).placed (h id hMem)
    have apart {a b : Id} {r : List Name} (hne : a ≠ b) : a.name :: r ≠ b.name :: r := by
      intro hEq
      obtain ⟨a, _⟩ := a
      obtain ⟨b, _⟩ := b
      cases (List.cons.inj hEq).1
      exact hne rfl
    refine ⟨?_, ?_, ?_, ?_, ?_⟩
    · intro id hMem
      obtain ⟨r, hPlaced⟩ := placed hMem
      exact ⟨r, hPlaced.resolves, hPlaced.home⟩
    · intro a ha b hb hne hSame
      obtain ⟨r, hA⟩ := placed ha
      obtain ⟨r', hB⟩ := placed hb
      cases hA.resolves.symm.trans hB.resolves
      rw [hA.home, hB.home] at hSame
      exact apart hne (Option.some.inj hSame)
    · intro id hMem
      obtain ⟨r, hPlaced⟩ := placed hMem
      exact hPlaced.lists
    · intro id hMem p q hHome hChanged
      obtain ⟨r, hPlaced⟩ := placed hMem
      cases hPlaced.home.symm.trans hHome
      exact hPlaced.removes hChanged
    · intro a ha b hb hne p q hHome hBeneath
      obtain ⟨r, hA⟩ := placed ha
      obtain ⟨r', hB⟩ := placed hb
      cases hA.resolves.symm.trans hB.resolves
      cases hB.home.symm.trans hHome
      by_contra hChanged
      have hLonger := List.suffix_of_suffix_length_le (hA.removes hChanged) hBeneath (by simp)
      exact apart hne (hLonger.eq_of_length (by simp))

def RUN : List (Component Name) :=
  [.name [0x72, 0x75, 0x6e], .name [0x64, 0x74, 0x72, 0x75, 0x6e]]

theorem housed_iff_web : ∃ f', createAll RUN Files.bare [(⟨[0x77, 0x65, 0x62], by decide⟩, true)] =
    some f' ∧ Housed RUN f' [⟨[0x77, 0x65, 0x62], by decide⟩] := by
  have hRun : (createAll RUN Files.bare [(⟨[0x77, 0x65, 0x62], by decide⟩, true)]).map (fun f =>
      (f.tree.resolve [] RUN, f.tree.node
        [[0x77, 0x65, 0x62], [0x64, 0x74, 0x72, 0x75, 0x6e], [0x72, 0x75, 0x6e]])) =
      some (some [[0x64, 0x74, 0x72, 0x75, 0x6e], [0x72, 0x75, 0x6e]], some .dir) := by
    decide +kernel
  obtain ⟨f', hCreate, hf⟩ := Option.map_eq_some_iff.mp hRun
  simp only [Prod.mk.injEq] at hf
  obtain ⟨hRoot, hDir⟩ := hf
  refine ⟨f', hCreate, (housed_iff hCreate).mpr fun id hMem => ?_⟩
  cases List.mem_singleton.mp hMem
  refine ⟨by decide, fun r hr target hLink => ?_⟩
  cases hRoot.symm.trans hr
  cases hDir.symm.trans hLink

/-- The container `..` has its record in `/run`, where `delete` empties everything. -/
theorem not_housed : ¬ ∀ (root : List (Component Name)) (f f' : Files) (ids : List (Id × Bool)),
    createAll root f ids = some f' → Housed root f' (ids.map Prod.fst) := by
  intro h
  have hRun : (createAll RUN Files.bare [(⟨[DOT, DOT], by decide⟩, true)]).map (fun f =>
      f.home RUN ⟨[DOT, DOT], by decide⟩) = some (some [[0x72, 0x75, 0x6e]]) := by decide +kernel
  obtain ⟨f', hCreate, hHome⟩ := Option.map_eq_some_iff.mp hRun
  obtain ⟨r, _, hChild⟩ := (h RUN Files.bare f' _ hCreate).child ⟨[DOT, DOT], by decide⟩
    (List.mem_singleton.mpr rfl)
  rw [hHome] at hChild
  cases (List.cons.inj (Option.some.inj hChild)).1

end Dtrun.StateDir
