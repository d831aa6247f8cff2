import Dtrun.Library.FileTree
import Mathlib.Algebra.BigOperators.Group.List.Basic
import Mathlib.Algebra.Order.BigOperators.Group.List
import Mathlib.Algebra.Order.Ring.Nat

/-! # Walking a file tree

Where a path leads when its last name is followed too, and the listings that a walk over the
directories reads. A walk that keeps a stack ends because the listings below a directory weigh less
than those at it.
-/
namespace Dtrun.FileTree
set_option autoImplicit false

variable {ν : Type}

namespace Tree

/-- One run through the components, to whatever stands there. -/
def locate (t : Tree ν) (follow : List ν → List (Component ν) → Option (List ν)) :
    List (Component ν) → List ν → Option (List ν)
  | [], p => some p
  | .cur :: rest, p => t.locate follow rest p
  | .parent :: rest, p => t.locate follow rest p.tail
  | .name n :: rest, p =>
    match t.node (n :: p) with
    | some .dir => t.locate follow rest (n :: p)
    | some .file => match rest with
      | [] => some (n :: p)
      | _ => none
    | some (.link target) =>
      follow (if target.absolute then [] else p) (target.components ++ rest)
    | none => none

def locateWith (t : Tree ν) : Nat → List ν → List (Component ν) → Option (List ν)
  | 0, p, components => t.locate (fun _ _ => none) components p
  | links + 1, p, components => t.locate (t.locateWith links) components p

def stat (t : Tree ν) (p : List ν) : Option (List ν) :=
  t.locateWith maxLinks [] (p.reverse.map .name)

variable {t : Tree ν} {p : List ν}

theorem locate_dir {follow : List ν → List (Component ν) → Option (List ν)}
    (h : t.node p = some .dir) (rest : List (Component ν)) :
    t.locate follow (p.reverse.map .name ++ rest) [] = t.locate follow rest p := by
  induction p generalizing rest with
  | nil => rfl
  | cons n p ih =>
    rw [List.reverse_cons, List.map_append, List.append_assoc, ih (t.closed n p (by rw [h]; rfl))]
    simp only [List.map_cons, List.map_nil, List.cons_append, List.nil_append, locate, h]

theorem stat_cons {n : ν} (h : t.node p = some .dir) :
    t.stat (n :: p) = t.locate (t.locateWith 39) [.name n] p := by
  rw [stat, List.reverse_cons, List.map_append]
  exact locate_dir h _

theorem stat_self (h : (t.node p).isSome = true) (hLink : ∀ target, t.node p ≠ some (.link target)) :
    t.stat p = some p := by
  cases p with
  | nil => rfl
  | cons n p =>
    rw [stat_cons (t.closed n p h)]
    cases hNode : t.node (n :: p) with
    | none => simp [hNode] at h
    | some x =>
      cases x with
      | dir => simp only [locate, hNode]
      | file => simp only [locate, hNode]
      | link target => exact absurd hNode (hLink target)

/-- Paths lead to directories and files; a link is gone through. -/
theorem locate_node {follow : List ν → List (Component ν) → Option (List ν)} {q : List ν}
    {components : List (Component ν)}
    (hFollow : ∀ p rest, t.node p = some .dir → follow p rest = some q →
      t.node q = some .dir ∨ t.node q = some .file)
    (hp : t.node p = some .dir) (h : t.locate follow components p = some q) :
    t.node q = some .dir ∨ t.node q = some .file := by
  induction components generalizing p with
  | nil =>
    cases h
    exact .inl hp
  | cons c rest ih =>
    cases c with
    | cur => exact ih hp h
    | parent =>
      refine ih ?_ h
      cases p with
      | nil => exact t.root
      | cons n p => exact t.closed n p (by rw [hp]; rfl)
    | name n =>
      simp only [locate] at h
      split at h
      · rename_i hDir
        exact ih hDir h
      · rename_i hFile
        split at h
        · cases h
          exact .inr hFile
        · cases h
      · refine hFollow _ _ ?_ h
        split
        · exact t.root
        · exact hp
      · cases h

theorem locateWith_node {links : Nat} {components : List (Component ν)} {q : List ν}
    (hp : t.node p = some .dir) (h : t.locateWith links p components = some q) :
    t.node q = some .dir ∨ t.node q = some .file := by
  induction links generalizing p components with
  | zero => exact locate_node (fun p rest _ hNone => by cases hNone) hp h
  | succ links ih => exact locate_node (fun p rest hDir hMore => ih hDir hMore) hp h

theorem stat_node {q : List ν} (h : t.stat p = some q) :
    t.node q = some .dir ∨ t.node q = some .file := locateWith_node t.root h

end Tree

/-- The names read from each directory, in order; not everything need be read. -/
structure Listing (t : Tree ν) where
  entries : List ν → List ν
  exist : ∀ n p, n ∈ entries p → (t.node (n :: p)).isSome = true
  height : Nat
  bounded : ∀ n p, n ∈ entries p → p.length < height

namespace Listing

variable {t : Tree ν} (listing : Listing t)

def Complete : Prop := ∀ n p, (t.node (n :: p)).isSome = true → n ∈ listing.entries p

def weightWithin : Nat → List ν → Nat
  | 0, _ => 1
  | height + 1, p => 1 + ((listing.entries p).map fun n => weightWithin height (n :: p)).sum

/-- The number of listings at and below `p`. -/
def weight (p : List ν) : Nat := listing.weightWithin (listing.height - p.length) p

variable {listing}

theorem weight_children (p : List ν) :
    ((listing.entries p).map fun n => listing.weight (n :: p)).sum < listing.weight p := by
  by_cases hShort : p.length < listing.height
  · have hSplit : listing.height - p.length = listing.height - (p.length + 1) + 1 := by omega
    simp only [weight, hSplit, weightWithin, List.length_cons]
    omega
  · have hNone : listing.entries p = [] :=
      List.eq_nil_iff_forall_not_mem.mpr fun n hn => hShort (listing.bounded n p hn)
    have hHeight : listing.height - p.length = 0 := by omega
    simp [weight, hNone, hHeight, weightWithin]

/-- The listings of a tree that has these names only, and directories only up to a depth. -/
def among (names : List ν) (height : Nat) (t : Tree ν) : Listing t where
  entries p := if p.length < height then names.filter fun n => (t.node (n :: p)).isSome else []
  exist n p h := by
    split at h
    · exact (List.mem_filter.mp h).2
    · cases h
  height := height
  bounded n p h := by
    split at h
    · assumption
    · cases h

end Listing

end Dtrun.FileTree
