import Mathlib.Data.List.Infix

/-! # File trees with symbolic links

A tree maps canonical paths to what stands there. Paths are written from the inside out, so that the
parent of `n :: p` is `p` and what lies beneath `p` has `p` as a suffix. Resolution follows links,
at most `maxLinks` of them; removal takes a subtree, or only what is beneath it.
-/
namespace Dtrun.FileTree
set_option autoImplicit false

variable {ν : Type}

inductive Component (ν : Type) where
  | cur | parent
  | name (n : ν)
  deriving DecidableEq

/-- What a link says, read from the outside in. -/
structure Target (ν : Type) where
  absolute : Bool
  components : List (Component ν)
  deriving DecidableEq

inductive Node (ν : Type) where
  | dir
  | file
  | link (target : Target ν)
  deriving DecidableEq

/-- Only directories have anything beneath them. -/
structure Tree (ν : Type) where
  node : List ν → Option (Node ν)
  root : node [] = some .dir
  closed : ∀ n p, (node (n :: p)).isSome = true → node p = some .dir

def maxLinks : Nat := 40

def Beneath (d p : List ν) : Prop := d <:+ p ∧ p ≠ d

instance [DecidableEq ν] (d p : List ν) : Decidable (Beneath d p) :=
  inferInstanceAs (Decidable (_ ∧ _))

namespace Tree

/-- One run through the components, to a directory; `follow` goes on after a link. -/
def walk (t : Tree ν) (follow : List ν → List (Component ν) → Option (List ν)) :
    List (Component ν) → List ν → Option (List ν)
  | [], p => some p
  | .cur :: rest, p => t.walk follow rest p
  | .parent :: rest, p => t.walk follow rest p.tail
  | .name n :: rest, p =>
    match t.node (n :: p) with
    | some .dir => t.walk follow rest (n :: p)
    | some (.link target) =>
      follow (if target.absolute then [] else p) (target.components ++ rest)
    | _ => none

def resolveWith (t : Tree ν) : Nat → List ν → List (Component ν) → Option (List ν)
  | 0, p, components => t.walk (fun _ _ => none) components p
  | links + 1, p, components => t.walk (t.resolveWith links) components p

/-- The directory that the components name, seen from the directory `p`. -/
def resolve (t : Tree ν) (p : List ν) (components : List (Component ν)) : Option (List ν) :=
  match t.node p with
  | some .dir => t.resolveWith maxLinks p components
  | _ => none

def Empty (t : Tree ν) (p : List ν) : Prop := ∀ n, t.node (n :: p) = none

theorem isSome_of_suffix {t : Tree ν} {p q : List ν} (hSuffix : p <:+ q)
    (h : (t.node q).isSome = true) : (t.node p).isSome = true := by
  induction q with
  | nil => rwa [List.suffix_nil.mp hSuffix]
  | cons n q ih =>
    rcases List.suffix_cons_iff.mp hSuffix with rfl | hLater
    · exact h
    · exact ih hLater (by rw [t.closed n q h]; rfl)

theorem exists_child {p q : List ν} (hSuffix : p <:+ q) (hne : q ≠ p) : ∃ n, n :: p <:+ q := by
  induction q with
  | nil => exact absurd (List.suffix_nil.mp hSuffix).symm hne
  | cons n q ih =>
    rcases List.suffix_cons_iff.mp hSuffix with rfl | hLater
    · exact absurd rfl hne
    · by_cases hEq : q = p
      · exact ⟨n, by rw [hEq]⟩
      · obtain ⟨m, hm⟩ := ih hLater hEq
        exact ⟨m, hm.trans (List.suffix_cons n q)⟩

/-- Everything that the step from `t` to `t'` takes away lies beneath `d`. -/
def RemovesBeneath (d : List ν) (t t' : Tree ν) : Prop :=
  ∀ q, (t.node q).isSome = true → t'.node q = none → Beneath d q

theorem removesBeneath_refl {d : List ν} {t : Tree ν} : RemovesBeneath d t t := by
  intro q hSome hNone
  rw [hNone] at hSome
  cases hSome

section Removal

variable [DecidableEq ν]

/-- The tree without what lies beneath `p`, and without `p` itself if `whole`; the root stays. -/
def prune (t : Tree ν) (p : List ν) (whole : Bool) : Tree ν where
  node q := if p <:+ q ∧ (q ≠ p ∨ whole = true ∧ p ≠ []) then none else t.node q
  root := by
    rw [if_neg, t.root]
    rintro ⟨hSuffix, hNot⟩
    have hNil : p = [] := List.suffix_nil.mp hSuffix
    exact hNot.elim (fun hne => hne hNil.symm) fun hne => hne.2 hNil
  closed n q h := by
    split at h
    · cases h
    · rename_i hKept
      rw [if_neg, t.closed n q h]
      rintro ⟨hSuffix, _⟩
      refine hKept ⟨hSuffix.trans (List.suffix_cons n q), .inl fun hEq => ?_⟩
      have hLength := hSuffix.length_le
      rw [← hEq, List.length_cons] at hLength
      omega

def bare : Tree ν where
  node q := if q = [] then some .dir else none
  root := if_pos rfl
  closed n q h := by
    rw [if_neg (List.cons_ne_nil n q)] at h
    cases h

/-- The tree with one more entry in the directory `p`, if there is none of that name. -/
def add (t : Tree ν) (n : ν) (p : List ν) (x : Node ν) : Tree ν :=
  if h : t.node p = some .dir ∧ t.node (n :: p) = none then
    { node := fun q => if q = n :: p then some x else t.node q
      root := t.root
      closed := fun m q hq => by
        obtain ⟨hDir, hFree⟩ := h
        split at hq
        · rename_i hEq
          obtain ⟨_, rfl⟩ := List.cons.inj hEq
          rw [if_neg (List.cons_ne_self n q).symm, hDir]
        · have hParent := t.closed m q hq
          rw [if_neg, hParent]
          rintro rfl
          cases hFree.symm.trans hParent }
  else t

theorem node_add_ne (t : Tree ν) (n : ν) (p : List ν) (x : Node ν) {q : List ν}
    (hq : q ≠ n :: p) : (t.add n p x).node q = t.node q := by
  rw [add]
  split
  · exact if_neg hq
  · rfl

theorem node_add {t : Tree ν} {n : ν} {p : List ν} (hDir : t.node p = some .dir)
    (hFree : t.node (n :: p) = none) (x : Node ν) (q : List ν) :
    (t.add n p x).node q = if q = n :: p then some x else t.node q := by
  rw [add, dif_pos ⟨hDir, hFree⟩]

theorem node_add_of_some {t : Tree ν} {q : List ν} {y : Node ν} (h : t.node q = some y) (n : ν)
    (p : List ν) (x : Node ν) : (t.add n p x).node q = some y := by
  by_cases hq : q = n :: p
  · subst hq
    rw [add, dif_neg]
    · exact h
    · rintro ⟨_, hFree⟩
      cases h.symm.trans hFree
  · rw [node_add_ne t n p x hq, h]

theorem node_prune (t : Tree ν) (p q : List ν) (whole : Bool) : (t.prune p whole).node q =
    if p <:+ q ∧ (q ≠ p ∨ whole = true ∧ p ≠ []) then none else t.node q := rfl

theorem node_prune_eq (t : Tree ν) (p q : List ν) (whole : Bool) :
    (t.prune p whole).node q = none ∨ (t.prune p whole).node q = t.node q := by
  rw [node_prune]
  split
  · exact .inl rfl
  · exact .inr rfl

theorem removed_prune {t : Tree ν} {p q : List ν} {whole : Bool} :
    ((t.node q).isSome = true ∧ (t.prune p whole).node q = none) ↔
      (t.node q).isSome = true ∧ p <:+ q ∧ (q ≠ p ∨ whole = true ∧ p ≠ []) := by
  rw [node_prune]
  split
  · rename_i hTaken
    simp [hTaken]
  · rename_i hKept
    constructor
    · rintro ⟨hSome, hNone⟩
      simp [hNone] at hSome
    · rintro ⟨_, hTaken⟩
      exact absurd hTaken hKept

variable {t : Tree ν} {d p : List ν}

theorem prune_entry_beneath {n : ν} (h : (t.node (n :: p)).isSome = true) :
    RemovesBeneath d t (t.prune (n :: p) true) ↔ d <:+ p := by
  constructor
  · intro hAll
    obtain ⟨hSuffix, hne⟩ := hAll (n :: p) h
      (removed_prune.mpr ⟨h, List.suffix_rfl, .inr ⟨rfl, List.cons_ne_nil n p⟩⟩).2
    exact (List.suffix_cons_iff.mp hSuffix).resolve_left fun hEq => hne hEq.symm
  · intro hSuffix q hSome hNone
    obtain ⟨_, hTaken, _⟩ := removed_prune.mp ⟨hSome, hNone⟩
    have hLength := hTaken.length_le
    have hShort := hSuffix.length_le
    rw [List.length_cons] at hLength
    refine ⟨hSuffix.trans ((List.suffix_cons n p).trans hTaken), ?_⟩
    rintro rfl
    omega

theorem prune_contents_beneath :
    RemovesBeneath d t (t.prune p false) ↔ d <:+ p ∨ t.Empty p := by
  constructor
  · intro hAll
    by_contra hNot
    rw [not_or] at hNot
    obtain ⟨hSuffix, hFull⟩ := hNot
    simp only [Empty, not_forall] at hFull
    obtain ⟨n, hn⟩ := hFull
    have hSome : (t.node (n :: p)).isSome = true := Option.isSome_iff_ne_none.mpr hn
    obtain ⟨hBeneath, hne⟩ := hAll (n :: p) hSome
      (removed_prune.mpr ⟨hSome, List.suffix_cons n p, .inl (List.cons_ne_self n p)⟩).2
    exact hSuffix ((List.suffix_cons_iff.mp hBeneath).resolve_left fun hEq => hne hEq.symm)
  · intro hWhere q hSome hNone
    obtain ⟨_, hTaken, hne⟩ := removed_prune.mp ⟨hSome, hNone⟩
    have hOther : q ≠ p := hne.resolve_right fun hWhole => by cases hWhole.1
    rcases hWhere with hSuffix | hEmpty
    · have hLong := hTaken.length_le
      have hShort := hSuffix.length_le
      refine ⟨hSuffix.trans hTaken, ?_⟩
      rintro rfl
      exact hOther (hTaken.eq_of_length (by omega)).symm
    · obtain ⟨n, hn⟩ := exists_child hTaken hOther
      have hExists := isSome_of_suffix hn hSome
      rw [hEmpty n] at hExists
      cases hExists

theorem prune_self_beneath (h : t.node d = some .dir) :
    RemovesBeneath d t (t.prune d true) ↔ d = [] := by
  constructor
  · intro hAll
    by_contra hne
    have hSome : (t.node d).isSome = true := by rw [h]; rfl
    exact (hAll d hSome (removed_prune.mpr ⟨hSome, List.suffix_rfl, .inr ⟨rfl, hne⟩⟩).2).2 rfl
  · rintro rfl q hSome hNone
    obtain ⟨_, _, hne⟩ := removed_prune.mp ⟨hSome, hNone⟩
    exact ⟨List.nil_suffix, hne.resolve_right fun hWhole => hWhole.2 rfl⟩

end Removal

variable {t t' : Tree ν}

theorem node_tail {p : List ν} (h : t.node p = some .dir) : t.node p.tail = some .dir := by
  cases p with
  | nil => exact h
  | cons n p => exact t.closed n p (by simp [h])

theorem walk_dir {follow : List ν → List (Component ν) → Option (List ν)}
    (hFollow : ∀ p components r, t.node p = some .dir → follow p components = some r →
      t.node r = some .dir) {components : List (Component ν)} {p r : List ν}
    (hp : t.node p = some .dir) (h : t.walk follow components p = some r) :
    t.node r = some .dir := by
  induction components generalizing p with
  | nil =>
    cases h
    exact hp
  | cons c rest ih =>
    cases c with
    | cur => exact ih hp h
    | parent => exact ih (node_tail hp) h
    | name n =>
      simp only [walk] at h
      split at h
      · rename_i hDir
        exact ih hDir h
      · refine hFollow _ _ _ ?_ h
        split
        · exact t.root
        · exact hp
      · cases h

theorem resolve_eq_some {components : List (Component ν)} {p r : List ν} :
    t.resolve p components = some r ↔
      t.node p = some .dir ∧ t.resolveWith maxLinks p components = some r := by
  rw [resolve]
  split
  · rename_i hDir
    simp [hDir]
  · rename_i hNot
    constructor
    · intro h
      cases h
    · rintro ⟨hDir, _⟩
      exact absurd hDir hNot

theorem resolve_dir {components : List (Component ν)} {p r : List ν}
    (h : t.resolve p components = some r) : t.node r = some .dir := by
  obtain ⟨hp, hWalk⟩ := resolve_eq_some.mp h
  clear h
  generalize maxLinks = links at hWalk
  induction links generalizing p components r with
  | zero => exact walk_dir (fun _ _ _ _ hNone => by cases hNone) hp hWalk
  | succ links ih => exact walk_dir (fun _ _ _ hDir hNext => ih hDir hNext) hp hWalk

theorem walk_mono {follow follow' : List ν → List (Component ν) → Option (List ν)}
    (hNode : ∀ q, t'.node q = none ∨ t'.node q = t.node q)
    (hFollow : ∀ p components r, follow' p components = some r → follow p components = some r)
    {components : List (Component ν)} {p r : List ν}
    (h : t'.walk follow' components p = some r) : t.walk follow components p = some r := by
  induction components generalizing p with
  | nil => exact h
  | cons c rest ih =>
    cases c with
    | cur => exact ih h
    | parent => exact ih h
    | name n =>
      simp only [walk] at h ⊢
      rcases hNode (n :: p) with hNone | hSame
      · simp [hNone] at h
      · rw [← hSame]
        split at h
        · exact ih h
        · exact hFollow _ _ _ h
        · cases h

/-- Taking entries away makes no path lead elsewhere. -/
theorem resolve_mono (hNode : ∀ q, t'.node q = none ∨ t'.node q = t.node q)
    {components : List (Component ν)} {p r : List ν} (h : t'.resolve p components = some r) :
    t.resolve p components = some r := by
  obtain ⟨hDir, hWalk⟩ := resolve_eq_some.mp h
  clear h
  refine resolve_eq_some.mpr ⟨?_, ?_⟩
  · rcases hNode p with hNone | hSame
    · cases hNone.symm.trans hDir
    · rw [← hSame, hDir]
  clear hDir
  generalize maxLinks = links at hWalk ⊢
  induction links generalizing p components r with
  | zero => exact walk_mono hNode (fun _ _ _ hNone => by cases hNone) hWalk
  | succ links ih => exact walk_mono hNode (fun _ _ _ hNext => ih hNext) hWalk

theorem dir_of_suffix {p q : List ν} (hSuffix : p <:+ q) (h : t.node q = some .dir) :
    t.node p = some .dir := by
  induction q with
  | nil => rwa [List.suffix_nil.mp hSuffix]
  | cons n q ih =>
    rcases List.suffix_cons_iff.mp hSuffix with rfl | hLater
    · exact h
    · exact ih hLater (t.closed n q (by rw [h]; rfl))

def LinkFree (t : Tree ν) (d : List ν) : Prop :=
  ∀ p target, d <:+ p → t.node p ≠ some (.link target)

theorem LinkFree.walk {d : List ν} (h : t.LinkFree d)
    (follow : List ν → List (Component ν) → Option (List ν)) (names : List ν) {p r : List ν}
    (hp : d <:+ p) (hDir : t.node p = some .dir) :
    t.walk follow (names.map .name) p = some r ↔
      t.node (names.reverse ++ p) = some .dir ∧ r = names.reverse ++ p := by
  induction names generalizing p with
  | nil => simp [Tree.walk, hDir, eq_comm]
  | cons n names ih =>
    have hPath : (n :: names).reverse ++ p = names.reverse ++ n :: p := by simp
    have blocked (hNot : t.node (n :: p) ≠ some .dir) :
        ¬ t.node (names.reverse ++ n :: p) = some .dir :=
      fun hEnd => hNot (dir_of_suffix (List.suffix_append _ _) hEnd)
    rw [hPath]
    simp only [List.map_cons, Tree.walk]
    cases hNode : t.node (n :: p) with
    | none => simp [blocked (by simp [hNode])]
    | some x =>
      cases x with
      | dir => exact ih (hp.trans (List.suffix_cons n p)) hNode
      | file => simp [blocked (by simp [hNode])]
      | link target => exact absurd hNode (h _ _ (hp.trans (List.suffix_cons n p)))

/-- Without links, a path of names leads where it says. -/
theorem LinkFree.resolve {d : List ν} (h : t.LinkFree d) (hDir : t.node d = some .dir)
    (names : List ν) {r : List ν} : t.resolve d (names.map .name) = some r ↔
      t.node (names.reverse ++ d) = some .dir ∧ r = names.reverse ++ d := by
  rw [resolve_eq_some]
  simp only [hDir, true_and]
  exact h.walk _ names List.suffix_rfl hDir

/-- The last name of a path is looked up in the directory that the rest leads to. -/
def LastStep (t : Tree ν) (n : ν) (r h : List ν) : Prop :=
  (t.node (n :: r) = some .dir ∧ h = n :: r) ∨ ∃ target, t.node (n :: r) = some (.link target)

theorem walk_concat {follow : List ν → List (Component ν) → Option (List ν)} {n : ν}
    (hFollow : ∀ p components h, follow p (components ++ [.name n]) = some h →
      ∃ r, follow p components = some r ∧ t.LastStep n r h)
    {components : List (Component ν)} {p h : List ν}
    (hWalk : t.walk follow (components ++ [.name n]) p = some h) :
    ∃ r, t.walk follow components p = some r ∧ t.LastStep n r h := by
  induction components generalizing p with
  | nil =>
    refine ⟨p, rfl, ?_⟩
    simp only [List.nil_append, walk] at hWalk
    split at hWalk
    · rename_i hDir
      cases hWalk
      exact .inl ⟨hDir, rfl⟩
    · rename_i target hLink
      exact .inr ⟨target, hLink⟩
    · cases hWalk
  | cons c rest ih =>
    cases c with
    | cur => exact ih hWalk
    | parent => exact ih hWalk
    | name m =>
      simp only [List.cons_append, walk] at hWalk ⊢
      split at hWalk
      · exact ih hWalk
      · rw [← List.append_assoc] at hWalk
        exact hFollow _ _ _ hWalk
      · cases hWalk

theorem resolve_concat {components : List (Component ν)} {n : ν} {p h : List ν}
    (hResolve : t.resolve p (components ++ [.name n]) = some h) :
    ∃ r, t.resolve p components = some r ∧ t.LastStep n r h := by
  obtain ⟨hDir, hWalk⟩ := resolve_eq_some.mp hResolve
  suffices hLinks : ∀ links p h, t.resolveWith links p (components ++ [.name n]) = some h →
      ∃ r, t.resolveWith links p components = some r ∧ t.LastStep n r h by
    obtain ⟨r, hr, hLast⟩ := hLinks _ _ _ hWalk
    exact ⟨r, resolve_eq_some.mpr ⟨hDir, hr⟩, hLast⟩
  intro links
  clear hResolve hDir hWalk
  induction links generalizing components with
  | zero => exact fun p h hWalk => walk_concat (fun _ _ _ hNone => by cases hNone) hWalk
  | succ links ih => exact fun p h hWalk => walk_concat (fun p cs h => ih p h) hWalk

end Tree

end Dtrun.FileTree
