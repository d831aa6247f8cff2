import Dtrun.Image.Normalize

/-! # Two runs over the same tree

Root's `normalize_tree` makes the same of every file whatever the order of the listings: a directory
it walks becomes `0755`, another file that some path leads to goes by its execute bits, and nothing
else is touched. A link's own time and owner are among what is not.
-/
namespace Dtrun.Image
set_option autoImplicit false
open FileTree StateExcept

namespace Metadata

def permissions (m : Metadata) : BitVec 32 := m.mode &&& 0o7777

def executable (m : Metadata) : Bool := m.mode &&& 0o111 ≠ 0

/-- What the three calls make of a file. -/
def normalized (isDir : Bool) (m : Metadata) : Metadata :=
  (normalizedCalls isDir m.mode).foldl Call.apply m

def canonicalMode (isDir : Bool) (m : Metadata) : BitVec 32 :=
  if isDir ∨ m.executable then 0o755 else 0o644

variable {isDir : Bool} {m : Metadata}

theorem normalized_eq : m.normalized isDir =
    ⟨(m.mode &&& ~~~0o7777) ||| m.canonicalMode isDir, 0, 0, 0⟩ := by
  have hMode : (if isDir ∨ m.mode &&& 0o111 ≠ 0 then 0o755 else 0o644 : BitVec 32) &&& 0o7777 =
      m.canonicalMode isDir := by
    simp only [canonicalMode, executable, decide_eq_true_eq]
    split
    · rfl
    · rfl
  rw [← hMode]
  rfl

theorem and_low {mask : BitVec 32} (x c : BitVec 32) (hMask : ~~~0o7777 &&& mask = 0#32) :
    ((x &&& ~~~0o7777) ||| c) &&& mask = c &&& mask := by
  rw [BitVec.and_or_distrib_right, BitVec.and_assoc, hMask, BitVec.and_zero, BitVec.zero_or]

theorem permissions_normalized : (m.normalized isDir).permissions = m.canonicalMode isDir := by
  rw [normalized_eq, permissions, and_low _ _ (by decide), canonicalMode]
  split
  · rfl
  · rfl

theorem executable_normalized :
    (m.normalized isDir).executable = (isDir || m.executable) := by
  rw [normalized_eq, executable, and_low _ _ (by decide), canonicalMode]
  cases isDir with
  | true => simp
  | false =>
    cases m.executable with
    | true => simp
    | false => simp

/-- The second time counts if it comes to a directory; if not, the first one has decided. -/
theorem normalized_normalized (isDir' : Bool) :
    (m.normalized isDir).normalized isDir' = m.normalized (isDir' || isDir) := by
  have hType : (m.normalized isDir).mode &&& ~~~0o7777 = m.mode &&& ~~~0o7777 := by
    have hNone : m.canonicalMode isDir &&& ~~~0o7777 = 0#32 := by
      rw [canonicalMode]
      split
      · decide
      · decide
    rw [normalized_eq, BitVec.and_or_distrib_right, hNone, BitVec.or_zero, BitVec.and_assoc,
      BitVec.and_self]
  have hMode : (m.normalized isDir).canonicalMode isDir' = m.canonicalMode (isDir' || isDir) := by
    simp only [canonicalMode, executable_normalized, Bool.or_eq_true, or_assoc]
  rw [normalized_eq, hType, hMode, normalized_eq]

end Metadata

/-- Some path among `ps` leads to the file. -/
def Comes (t : FileTree.Tree Name) (file : Path → Path) (ps : Set Path) (i : Path) : Prop :=
  ∃ p ∈ ps, ∃ q, t.stat p = some q ∧ file q = i

def dirs (t : FileTree.Tree Name) (ps : Set Path) : Set Path := {p ∈ ps | t.node p = some .dir}

open Classical in
/-- The metadata after the entries `ps` have been normalized, in whatever order. -/
noncomputable def normalForm (t : FileTree.Tree Name) (file : Path → Path) (ps : Set Path)
    (metadata : Path → Metadata) (i : Path) : Metadata :=
  if Comes t file ps i then (metadata i).normalized (Comes t file (dirs t ps) i) else metadata i

variable {t : FileTree.Tree Name} {listing : Listing t} {file : Path → Path} {ps ps' : Set Path}
  {metadata : Path → Metadata} {i : Path}

theorem comes_union : Comes t file (ps ∪ ps') i ↔ Comes t file ps i ∨ Comes t file ps' i := by
  constructor
  · rintro ⟨p, hp | hp, hLeads⟩
    · exact .inl ⟨p, hp, hLeads⟩
    · exact .inr ⟨p, hp, hLeads⟩
  · rintro (⟨p, hp, hLeads⟩ | ⟨p, hp, hLeads⟩)
    · exact ⟨p, .inl hp, hLeads⟩
    · exact ⟨p, .inr hp, hLeads⟩

theorem not_comes_empty : ¬ Comes t file ∅ i := by
  rintro ⟨p, hp, _⟩
  exact hp

theorem Comes.mono (h : Comes t file ps i) (hSubset : ps ⊆ ps') : Comes t file ps' i := by
  obtain ⟨p, hp, hLeads⟩ := h
  exact ⟨p, hSubset hp, hLeads⟩

theorem comes_dirs_union : Comes t file (dirs t (ps ∪ ps')) i ↔
    Comes t file (dirs t ps') i ∨ Comes t file (dirs t ps) i := by
  have hDirs : dirs t (ps ∪ ps') = dirs t ps ∪ dirs t ps' := Set.sep_union
  rw [hDirs, comes_union, or_comm]

theorem comes_of_dirs (h : Comes t file (dirs t ps) i) : Comes t file ps i :=
  h.mono (Set.sep_subset _ _)

theorem normalForm_of_comes {isDir : Bool} (h : Comes t file ps i)
    (hDir : isDir = true ↔ Comes t file (dirs t ps) i) :
    normalForm t file ps metadata i = (metadata i).normalized isDir := by
  classical
  rw [normalForm, if_pos h]
  congr 1
  rw [Bool.eq_iff_iff, hDir]
  exact decide_eq_true_iff

theorem normalForm_of_not_comes (h : ¬ Comes t file ps i) :
    normalForm t file ps metadata i = metadata i := if_neg h

theorem normalForm_empty : normalForm t file ∅ metadata = metadata := by
  funext i
  exact normalForm_of_not_comes not_comes_empty

/-- Entries normalized one after the other are normalized together. -/
theorem normalForm_union : normalForm t file ps' (normalForm t file ps metadata) =
    normalForm t file (ps ∪ ps') metadata := by
  classical
  funext i
  let isDir := decide (Comes t file (dirs t ps) i)
  let isDir' := decide (Comes t file (dirs t ps') i)
  have hDir : isDir = true ↔ Comes t file (dirs t ps) i := decide_eq_true_iff
  have hDir' : isDir' = true ↔ Comes t file (dirs t ps') i := decide_eq_true_iff
  have hUnion : (isDir' || isDir) = true ↔ Comes t file (dirs t (ps ∪ ps')) i := by
    rw [Bool.or_eq_true, hDir, hDir', comes_dirs_union]
  by_cases hFirst : Comes t file ps i
  · rw [normalForm_of_comes (comes_union.mpr (.inl hFirst)) hUnion]
    by_cases hThen : Comes t file ps' i
    · rw [normalForm_of_comes hThen hDir', normalForm_of_comes hFirst hDir,
        Metadata.normalized_normalized]
    · have hNone : isDir' = false :=
        Bool.eq_false_iff.mpr fun h => hThen (comes_of_dirs (hDir'.mp h))
      rw [normalForm_of_not_comes hThen, normalForm_of_comes hFirst hDir, hNone, Bool.false_or]
  · have hNone : isDir = false :=
      Bool.eq_false_iff.mpr fun h => hFirst (comes_of_dirs (hDir.mp h))
    by_cases hThen : Comes t file ps' i
    · rw [normalForm_of_comes (comes_union.mpr (.inr hThen)) hUnion,
        normalForm_of_comes hThen hDir', normalForm_of_not_comes hFirst, hNone, Bool.or_false]
    · rw [normalForm_of_not_comes hThen, normalForm_of_not_comes hFirst, normalForm_of_not_comes]
      exact fun h => (comes_union.mp h).elim hFirst hThen

/-- The second time nothing is left to do. -/
theorem normalForm_again : normalForm t file ps (normalForm t file ps metadata) =
    normalForm t file ps metadata := by
  rw [normalForm_union, Set.union_self]

/-- Root can read everything and may change everything. -/
def asRoot (file : Path → Path) : Answering where
  file := file

theorem normalizeMeta_root (p : Path) (s : Inodes) :
    (normalizeMeta (asRoot file) t p (t.node p = some .dir) s).metadata =
      normalForm t file {p} s.metadata := by
  funext i
  have hDir : decide (t.node p = some .dir) = true ↔ t.node p = some .dir := decide_eq_true_iff
  cases hStat : t.stat p with
  | none =>
    rw [normalForm_of_not_comes]
    · simp only [normalizeMeta, hStat]
    · rintro ⟨_, rfl, q, hq, _⟩
      cases hStat.symm.trans hq
  | some q =>
    have hRun : (normalizeMeta (asRoot file) t p (t.node p = some .dir) s).metadata =
        Function.update s.metadata (file q)
          ((s.metadata (file q)).normalized (t.node p = some .dir)) := by
      simp [normalizeMeta, hStat, normalizedCalls, perform, asRoot, Metadata.normalized]
    rw [hRun]
    by_cases hFile : i = file q
    · subst hFile
      have hComes : Comes t file {p} (file q) := ⟨p, rfl, q, hStat, rfl⟩
      rw [Function.update_self]
      refine (normalForm_of_comes hComes (hDir.trans ?_)).symm
      constructor
      · exact fun h => ⟨p, ⟨rfl, h⟩, q, hStat, rfl⟩
      · rintro ⟨_, ⟨rfl, h⟩, _⟩
        exact h
    · rw [Function.update_of_ne hFile, normalForm_of_not_comes]
      rintro ⟨_, rfl, _, hq, rfl⟩
      cases hStat.symm.trans hq
      exact hFile rfl

def children (dir : Path) (names : List Name) : Set Path := {p | ∃ n ∈ names, p = n :: dir}

theorem children_cons (dir : Path) (n : Name) (names : List Name) :
    children dir (n :: names) = {n :: dir} ∪ children dir names := by
  ext p
  constructor
  · rintro ⟨m, hm, rfl⟩
    rcases List.mem_cons.mp hm with rfl | hLater
    · exact .inl rfl
    · exact .inr ⟨m, hLater, rfl⟩
  · rintro (rfl | ⟨m, hm, rfl⟩)
    · exact ⟨n, List.mem_cons_self, rfl⟩
    · exact ⟨m, List.mem_cons_of_mem n hm, rfl⟩

variable (t file) in
theorem normalizeEntries_root (dir : Path) (names : List Name) (stack : List Path) (s : Inodes) :
    ∃ stack' s', normalizeEntries (t := t) (asRoot file) dir names stack s = .ok stack' s' ∧
      s'.metadata = normalForm t file (children dir names) s.metadata ∧
      ∀ d, d ∈ stack' ↔ d ∈ stack ∨ d ∈ dirs t (children dir names) := by
  induction names generalizing stack s with
  | nil =>
    have hNone : children dir [] = ∅ := by
      ext p
      simp [children]
    refine ⟨stack, s, rfl, ?_, fun d => ?_⟩
    · rw [hNone, normalForm_empty]
    · simp [hNone, dirs]
  | cons n rest ih =>
    let isDir : Bool := t.node (n :: dir) = some .dir
    obtain ⟨stack', s', hRun, hMeta, hStack⟩ :=
      ih (if isDir then (n :: dir) :: stack else stack)
        (normalizeMeta (asRoot file) t (n :: dir) isDir s)
    refine ⟨stack', s', hRun, ?_, fun d => ?_⟩
    · rw [hMeta, normalizeMeta_root, normalForm_union, children_cons]
    · rw [hStack, children_cons]
      by_cases hDir : t.node (n :: dir) = some .dir
      · simp only [isDir, hDir, decide_true, if_true, List.mem_cons]
        constructor
        · rintro ((rfl | hOld) | hNew)
          · exact .inr ⟨.inl rfl, hDir⟩
          · exact .inl hOld
          · exact .inr ⟨.inr hNew.1, hNew.2⟩
        · rintro (hOld | ⟨rfl | hNew, hNode⟩)
          · exact .inl (.inr hOld)
          · exact .inl (.inl rfl)
          · exact .inr ⟨hNew, hNode⟩
      · simp only [isDir, hDir, decide_false, Bool.false_eq_true, if_false]
        constructor
        · rintro (hOld | hNew)
          · exact .inl hOld
          · exact .inr ⟨.inr hNew.1, hNew.2⟩
        · rintro (hOld | ⟨rfl | hNew, hNode⟩)
          · exact .inl hOld
          · exact absurd hNode hDir
          · exact .inr ⟨hNew, hNode⟩

def below (t : FileTree.Tree Name) (ds : List Path) : Set Path :=
  {p | (t.node p).isSome = true ∧ ∃ d ∈ ds, Beneath d p}

theorem below_nil : below t [] = ∅ := by
  ext p
  simp [below]

theorem below_cons (hComplete : listing.Complete) {dir : Path} {stack stack' : List Path}
    (hStack : ∀ d, d ∈ stack' ↔ d ∈ stack ∨ d ∈ dirs t (children dir (listing.entries dir))) :
    children dir (listing.entries dir) ∪ below t stack' = below t (dir :: stack) := by
  ext p
  constructor
  · rintro (⟨n, hn, rfl⟩ | ⟨hSome, d, hd, hBeneath⟩)
    · exact ⟨listing.exist n dir hn, dir, List.mem_cons_self, beneath_cons List.suffix_rfl⟩
    · refine ⟨hSome, ?_⟩
      rcases (hStack d).mp hd with hOld | ⟨⟨n, _, rfl⟩, _⟩
      · exact ⟨d, List.mem_cons_of_mem dir hOld, hBeneath⟩
      · have hSuffix : dir <:+ n :: dir := List.suffix_cons n dir
        refine ⟨dir, List.mem_cons_self, hSuffix.trans hBeneath.1, ?_⟩
        rintro rfl
        have hLength := hBeneath.1.length_le
        rw [List.length_cons] at hLength
        omega
  · rintro ⟨hSome, d, hd, hBeneath⟩
    rcases List.mem_cons.mp hd with rfl | hOld
    · obtain ⟨n, hn⟩ := Tree.exists_child hBeneath.1 hBeneath.2
      have hChild : n :: d ∈ children d (listing.entries d) :=
        ⟨n, hComplete n d (Tree.isSome_of_suffix hn hSome), rfl⟩
      rcases eq_or_ne p (n :: d) with rfl | hne
      · exact .inl hChild
      · obtain ⟨m, hm⟩ := Tree.exists_child hn hne
        have hDir := t.closed m (n :: d) (Tree.isSome_of_suffix hm hSome)
        exact .inr ⟨hSome, n :: d, (hStack _).mpr (.inr ⟨hChild, hDir⟩), hn, hne⟩
    · exact .inr ⟨hSome, d, (hStack d).mpr (.inl hOld), hBeneath⟩

variable (file) in
theorem normalizeLoop_root (hComplete : listing.Complete) (stack : List Path) (s : Inodes) :
    ∃ s', normalizeLoop listing (asRoot file) stack s = .ok () s' ∧
      s'.metadata = normalForm t file (below t stack) s.metadata := by
  induction stack, s using normalizeLoop.induct listing (asRoot file) with
  | case1 s =>
    refine ⟨s, by rw [normalizeLoop], ?_⟩
    rw [below_nil, normalForm_empty]
  | case2 s dir stack e s' hDir =>
    obtain ⟨stack', v, hRun, _⟩ :=
      normalizeEntries_root t file dir (listing.entries dir) stack s
    cases hRun.symm.trans hDir
  | case3 s dir stack stack' s' hDir ih =>
    obtain ⟨_, _, hRun, hMeta, hStack⟩ :=
      normalizeEntries_root t file dir (listing.entries dir) stack s
    cases hRun.symm.trans hDir
    obtain ⟨v, hRest, hBelow⟩ := ih
    refine ⟨v, (normalizeLoop_ok hDir).trans hRest, ?_⟩
    rw [hBelow, hMeta, normalForm_union, below_cons hComplete hStack]

/-- The walk makes of the tree what the order of the listings has no part in. -/
theorem normalizeTree_root (hComplete : listing.Complete) (dest : Path) (s : Inodes) :
    (final (normalizeTree listing (asRoot file) dest s)).metadata =
      normalForm t file (below t [dest]) s.metadata := by
  obtain ⟨s', hRun, hMeta⟩ := normalizeLoop_root file hComplete [dest] s
  rw [normalizeTree, hRun]
  exact hMeta

/-- What stands on the host, and what its files carry. Hard links are of one kind, directories have
none, and the system gives every link the same permissions. -/
structure Rootfs where
  tree : FileTree.Tree Name
  listing : Listing tree
  complete : listing.Complete
  file : Path → Path
  node_file : ∀ p, tree.node (file p) = tree.node p
  dir_file : ∀ p, tree.node p = some .dir → file p = p
  metadata : Path → Metadata
  link_mode : ∀ p target, tree.node p = some (.link target) →
    (metadata (file p)).permissions = 0o777

namespace Rootfs

def entry (u : Rootfs) (p : Path) : Metadata := u.metadata (u.file p)

variable {u : Rootfs} {dest p : Path}

theorem mem_below {x : Node Name} (hBeneath : Beneath dest p) (hNode : u.tree.node p = some x) :
    p ∈ below u.tree [dest] :=
  ⟨by rw [hNode]; rfl, dest, List.mem_cons_self, hBeneath⟩

theorem stat_dir (hNode : u.tree.node p = some .dir) : u.tree.stat p = some p :=
  Tree.stat_self (by rw [hNode]; rfl) fun target hLink => by cases hNode.symm.trans hLink

theorem stat_file (hNode : u.tree.node p = some .file) : u.tree.stat p = some p :=
  Tree.stat_self (by rw [hNode]; rfl) fun target hLink => by cases hNode.symm.trans hLink

theorem normalForm_dir (hBeneath : Beneath dest p) (hNode : u.tree.node p = some .dir) :
    normalForm u.tree u.file (below u.tree [dest]) u.metadata (u.file p) =
      (u.entry p).normalized true := by
  have hDirs : Comes u.tree u.file (dirs u.tree (below u.tree [dest])) (u.file p) :=
    ⟨p, ⟨mem_below hBeneath hNode, hNode⟩, p, stat_dir hNode, rfl⟩
  rw [normalForm_of_comes (comes_of_dirs hDirs) (iff_of_true rfl hDirs)]
  rfl

theorem normalForm_file (hBeneath : Beneath dest p) (hNode : u.tree.node p = some .file) :
    normalForm u.tree u.file (below u.tree [dest]) u.metadata (u.file p) =
      (u.entry p).normalized false := by
  have hComes : Comes u.tree u.file (below u.tree [dest]) (u.file p) :=
    ⟨p, mem_below hBeneath hNode, p, stat_file hNode, rfl⟩
  have hNot : ¬ Comes u.tree u.file (dirs u.tree (below u.tree [dest])) (u.file p) := by
    rintro ⟨d, ⟨_, hDir⟩, q, hStat, hFile⟩
    cases (stat_dir hDir).symm.trans hStat
    have hSame := u.node_file d
    rw [hFile, u.node_file, hNode, hDir] at hSame
    cases hSame
  rw [normalForm_of_comes hComes (iff_of_false Bool.false_ne_true hNot)]
  rfl

theorem normalForm_link {target : Target Name} (hNode : u.tree.node p = some (.link target)) :
    normalForm u.tree u.file (below u.tree [dest]) u.metadata (u.file p) = u.entry p := by
  rw [normalForm_of_not_comes]
  · rfl
  · rintro ⟨d, _, q, hStat, hFile⟩
    have hSame := u.node_file q
    rw [hFile, u.node_file, hNode] at hSame
    rcases Tree.stat_node hStat with hDir | hRegular
    · cases hSame.trans hDir
    · cases hSame.trans hRegular

def normalize (u : Rootfs) (dest : Path) : Rootfs where
  tree := u.tree
  listing := u.listing
  complete := u.complete
  file := u.file
  node_file := u.node_file
  dir_file := u.dir_file
  metadata := (final (normalizeTree u.listing (asRoot u.file) dest ⟨u.metadata, []⟩)).metadata
  link_mode p target hNode := by
    rw [normalizeTree_root u.complete, normalForm_link hNode]
    exact u.link_mode p target hNode

theorem metadata_normalize : (u.normalize dest).metadata =
    normalForm u.tree u.file (below u.tree [dest]) u.metadata :=
  normalizeTree_root u.complete dest _

theorem entry_dir (hBeneath : Beneath dest p) (hNode : u.tree.node p = some .dir) :
    (u.normalize dest).entry p = (u.entry p).normalized true := by
  rw [entry, metadata_normalize]
  exact normalForm_dir hBeneath hNode

theorem entry_file (hBeneath : Beneath dest p) (hNode : u.tree.node p = some .file) :
    (u.normalize dest).entry p = (u.entry p).normalized false := by
  rw [entry, metadata_normalize]
  exact normalForm_file hBeneath hNode

theorem entry_link {target : Target Name} (hNode : u.tree.node p = some (.link target)) :
    (u.normalize dest).entry p = u.entry p := by
  rw [entry, metadata_normalize]
  exact normalForm_link hNode

end Rootfs

structure Metadata.Epoch (m : Metadata) : Prop where
  mtime : m.mtime = 0
  uid : m.uid = 0
  gid : m.gid = 0

/-- What an entry is to carry. Nothing sets a link's permissions. -/
structure Metadata.Canonical (x : Node Name) (executable : Bool) (m : Metadata) : Prop extends
    Metadata.Epoch m where
  dir : x = .dir → m.permissions = 0o755
  file : x = .file → m.permissions = if executable then 0o755 else 0o644

structure Metadata.Same (m m' : Metadata) : Prop where
  permissions : m.permissions = m'.permissions
  uid : m.uid = m'.uid
  gid : m.gid = m'.gid
  mtime : m.mtime = m'.mtime

/-- Beneath `dest` the same entries stand in both trees, and the same files are executable. -/
structure Alike (dest : Path) (a b : Rootfs) : Prop where
  node : ∀ p, Beneath dest p → a.tree.node p = b.tree.node p
  executable : ∀ p, Beneath dest p → a.tree.node p = some .file →
    (a.entry p).executable = (b.entry p).executable

/-- Every entry carries what it is to, and a second run, in whatever order, changes nothing. -/
structure Normalizes (dest : Path) (u : Rootfs) : Prop where
  canonical : ∀ p x, Beneath dest p → u.tree.node p = some x →
    ((u.normalize dest).entry p).Canonical x (u.entry p).executable
  again : ∀ listing : Listing u.tree, listing.Complete →
    (final (normalizeTree listing (asRoot u.file) dest
      ⟨(u.normalize dest).metadata, []⟩)).metadata = (u.normalize dest).metadata

structure Reproducible (dest : Path) (a b : Rootfs) : Prop where
  left : Normalizes dest a
  right : Normalizes dest b
  same : ∀ p, Beneath dest p → (a.tree.node p).isSome = true →
    ((a.normalize dest).entry p).Same ((b.normalize dest).entry p)

/-- Every link beneath `dest` carries time and owner 0 already. -/
def LinksAtEpoch (dest : Path) (u : Rootfs) : Prop :=
  ∀ p target, Beneath dest p → u.tree.node p = some (.link target) → (u.entry p).Epoch

variable {dest : Path} {a b u : Rootfs}

theorem Metadata.epoch_normalized {isDir : Bool} {m : Metadata} : (m.normalized isDir).Epoch := by
  rw [normalized_eq]
  exact ⟨rfl, rfl, rfl⟩

theorem LinksAtEpoch.canonical (h : LinksAtEpoch dest u) {p : Path} {x : Node Name}
    (hBeneath : Beneath dest p) (hNode : u.tree.node p = some x) :
    ((u.normalize dest).entry p).Canonical x (u.entry p).executable := by
  cases x with
  | dir =>
    rw [Rootfs.entry_dir hBeneath hNode]
    refine ⟨Metadata.epoch_normalized, fun _ => ?_, fun hFile => by cases hFile⟩
    rw [Metadata.permissions_normalized, Metadata.canonicalMode, if_pos (.inl rfl)]
  | file =>
    rw [Rootfs.entry_file hBeneath hNode]
    refine ⟨Metadata.epoch_normalized, (fun hDir => by cases hDir), fun _ => ?_⟩
    rw [Metadata.permissions_normalized, Metadata.canonicalMode]
    simp only [Bool.false_eq_true, false_or]
  | link target =>
    rw [Rootfs.entry_link hNode]
    exact ⟨h p target hBeneath hNode, (fun hDir => by cases hDir), fun hFile => by cases hFile⟩

theorem normalizes_iff : Normalizes dest u ↔ LinksAtEpoch dest u := by
  constructor
  · intro h p target hBeneath hNode
    have hCanonical := h.canonical p (.link target) hBeneath hNode
    rw [Rootfs.entry_link hNode] at hCanonical
    exact hCanonical.toEpoch
  · intro h
    constructor
    · intro p x hBeneath hNode
      exact h.canonical hBeneath hNode
    · intro listing hComplete
      rw [normalizeTree_root hComplete, Rootfs.metadata_normalize, normalForm_again]

theorem Metadata.Canonical.same {x : Node Name} {executable executable' : Bool} {m m' : Metadata}
    (h : m.Canonical x executable) (h' : m'.Canonical x executable')
    (hFile : x = .file → executable = executable')
    (hLink : ∀ target, x = .link target → m.permissions = m'.permissions) : m.Same m' where
  permissions := by
    cases x with
    | dir => rw [h.dir rfl, h'.dir rfl]
    | file => rw [h.file rfl, h'.file rfl, hFile rfl]
    | link target => exact hLink target rfl
  uid := h.uid.trans h'.uid.symm
  gid := h.gid.trans h'.gid.symm
  mtime := h.mtime.trans h'.mtime.symm

/-- Alike trees are made equal, and stay so, exactly when no link is left to be set. -/
theorem reproducible_iff (h : Alike dest a b) :
    Reproducible dest a b ↔ LinksAtEpoch dest a ∧ LinksAtEpoch dest b := by
  constructor
  · intro hAll
    exact ⟨normalizes_iff.mp hAll.left, normalizes_iff.mp hAll.right⟩
  · rintro ⟨hLeft, hRight⟩
    refine ⟨normalizes_iff.mpr hLeft, normalizes_iff.mpr hRight, fun p hBeneath hSome => ?_⟩
    obtain ⟨x, hNode⟩ := Option.isSome_iff_exists.mp hSome
    have hNode' : b.tree.node p = some x := (h.node p hBeneath).symm.trans hNode
    apply (hLeft.canonical hBeneath hNode).same (hRight.canonical hBeneath hNode')
    · rintro rfl
      exact h.executable p hBeneath hNode
    · rintro target rfl
      have hMode := (a.normalize dest).link_mode p target hNode
      have hMode' := (b.normalize dest).link_mode p target hNode'
      exact hMode.trans hMode'.symm

/-- The tree of a link to the file next to it; `m` is what everything else carries. -/
def linkedRootfs (m : Metadata) (owner : Nat) (mtime : Int) : Rootfs where
  tree := linked ⟨false, [.name [0x66]]⟩
  listing := linkedListing _
  complete := linkedListing_complete _
  file := id
  node_file _ := rfl
  dir_file _ _ := rfl
  metadata q := if q = [[0x6c], [0x64]] then ⟨0o120777, owner, owner, mtime⟩ else m
  link_mode p target h := by
    obtain rfl := link_linked h
    have hMode : (0o120777 : BitVec 32) &&& 0o7777 = 0o777 := by decide
    rw [id, if_pos rfl, Metadata.permissions, hMode]

theorem linksAtEpoch_linkedRootfs (m : Metadata) (dest : Path) :
    LinksAtEpoch dest (linkedRootfs m 0 0) := by
  intro p target _ h
  obtain rfl := link_linked h
  exact ⟨rfl, rfl, rfl⟩

theorem alike_linkedRootfs {m m' : Metadata} (h : m.executable = m'.executable)
    (owner owner' : Nat) (mtime mtime' : Int) (dest : Path) :
    Alike dest (linkedRootfs m owner mtime) (linkedRootfs m' owner' mtime') := by
  constructor
  · intro p _
    rfl
  · intro p _ hFile
    have hne : p ≠ [[0x6c], [0x64]] := by
      rintro rfl
      cases hFile
    have hLeft : (linkedRootfs m owner mtime).entry p = m := if_neg hne
    have hRight : (linkedRootfs m' owner' mtime').entry p = m' := if_neg hne
    rw [hLeft, hRight, h]

theorem reproducible_iff_linkedRootfs : Reproducible [[0x64]]
    (linkedRootfs ⟨0o106600, 5, 5, 9⟩ 0 0) (linkedRootfs ⟨0o100640, 1000, 1000, 7⟩ 0 0) :=
  (reproducible_iff (alike_linkedRootfs (by decide) 0 0 0 0 _)).mpr
    ⟨linksAtEpoch_linkedRootfs _ _, linksAtEpoch_linkedRootfs _ _⟩

/-- The link keeps the time that the archive gave it. -/
theorem not_reproducible : ¬ ∀ (dest : Path) (a b : Rootfs), Alike dest a b →
    Reproducible dest a b := by
  intro hAll
  let m : Metadata := ⟨0o100600, 1000, 1000, 7⟩
  have hSame := (hAll [[0x64]] (linkedRootfs m 1000 7) (linkedRootfs m 1000 8)
    (alike_linkedRootfs rfl 1000 1000 7 8 _)).same [[0x6c], [0x64]] (by decide) (by decide)
  have hLeft : ((linkedRootfs m 1000 7).normalize [[0x64]]).entry [[0x6c], [0x64]] =
      (linkedRootfs m 1000 7).entry [[0x6c], [0x64]] := Rootfs.entry_link rfl
  have hRight : ((linkedRootfs m 1000 8).normalize [[0x64]]).entry [[0x6c], [0x64]] =
      (linkedRootfs m 1000 8).entry [[0x6c], [0x64]] := Rootfs.entry_link rfl
  have hTime := hSame.mtime
  rw [hLeft, hRight] at hTime
  exact absurd hTime (by decide)

end Dtrun.Image
