import Mathlib.Data.List.Infix

/-! # Mount tables

A mount stands at a point and hides what was there and beneath before it, so a path leads into the
newest mount whose point is above it. Every mount carries a label of its own and one that it shares
with the other mounts of its file system; a remount changes one or both.
-/
namespace Dtrun.MountTable
set_option autoImplicit false

variable {ν α : Type}

structure Mounted (ν α : Type) where
  point : List ν
  super : Nat
  own : α
  shared : α
  deriving DecidableEq

/-- A path from the root walks through nothing to get there, so what is stacked on the root covers
nothing; below a bind of the root it does. -/
def Mounted.Covers (m : Mounted ν α) (stacked : Bool) (p : List ν) : Prop :=
  (m.point ≠ [] ∨ stacked = true) ∧ m.point <+: p

instance [DecidableEq ν] (m : Mounted ν α) (stacked : Bool) (p : List ν) :
    Decidable (m.Covers stacked p) := inferInstanceAs (Decidable (_ ∧ _))

def Mounted.share (super : Nat) (a : α) (m : Mounted ν α) : Mounted ν α :=
  if m.super = super then { m with shared := a } else m

/-- A mount put at the same place relative to `d` as it has relative to `z`. -/
def Mounted.repoint (d z : List ν) (m : Mounted ν α) : Mounted ν α :=
  { m with point := d ++ m.point.drop z.length }

/-- What a mount call does: a new file system at some places, a copy of what is at `z`, with the
mounts beneath if it is deep, or other flags for the mount at `d`. -/
inductive Change (ν α : Type) where
  | keep
  | attach (super : Nat) (ds : List (List ν)) (a : α)
  | bind (ds : List (List ν)) (z : List ν) (deep : Bool)
  | relabel (d : List ν) (a : α)
  | reconfigure (d : List ν) (a : α)

/-- Flags are changed only where a mount stands. -/
def Change.Fits (covering : List ν → Mounted ν α) : Change ν α → Prop
  | relabel d _ | reconfigure d _ => (covering d).point = d
  | _ => True

instance [DecidableEq ν] (covering : List ν → Mounted ν α) (ch : Change ν α) :
    Decidable (ch.Fits covering) := by
  cases ch with
  | relabel d _ => exact inferInstanceAs (Decidable (_ = d))
  | reconfigure d _ => exact inferInstanceAs (Decidable (_ = d))
  | _ => exact .isTrue trivial

structure Table (ν α : Type) where
  root : Mounted ν α
  /-- newest first -/
  upper : List (Mounted ν α)

namespace Table

def start (a : α) : Table ν α := ⟨⟨[], 0, a, a⟩, []⟩

variable [DecidableEq ν]

def cover (t : Table ν α) (stacked : Bool) (p : List ν) : Option (Mounted ν α) :=
  t.upper.find? fun m => m.Covers stacked p

def covering (t : Table ν α) (p : List ν) : Mounted ν α := (t.cover false p).getD t.root

/-- Mounts with points relative to the place they are put at. -/
def graft (t : Table ν α) (ds : List (List ν)) (ms : List (Mounted ν α)) : Table ν α :=
  { t with
    upper := (ds.flatMap fun d => ms.map fun m => { m with point := d ++ m.point }) ++ t.upper }

def attach (t : Table ν α) (super : Nat) (ds : List (List ν)) (a : α) : Table ν α :=
  t.graft ds [⟨[], super, a, a⟩]

def here (t : Table ν α) (z : List ν) : List (Mounted ν α) := [{ t.covering z with point := [] }]

/-- What is at `z`, with the mounts that stand beneath it: the newer ones. -/
def beneath (t : Table ν α) (z : List ν) : List (Mounted ν α) :=
  (((t.upper.takeWhile fun m => ¬ m.Covers false z).filter fun m => z <+: m.point).map
    fun m => { m with point := m.point.drop z.length }) ++ t.here z

def setOwn (p : List ν) (a : α) : List (Mounted ν α) → List (Mounted ν α)
  | [] => []
  | m :: ms => if m.Covers false p then { m with own := a } :: ms else m :: setOwn p a ms

/-- The flags of a mount itself. -/
def relabel (t : Table ν α) (p : List ν) (a : α) : Table ν α where
  root := if t.upper.any fun m => m.Covers false p then t.root else { t.root with own := a }
  upper := setOwn p a t.upper

/-- The flags of a mount and of its file system. -/
def reconfigure (t : Table ν α) (p : List ν) (a : α) : Table ν α :=
  let share := Mounted.share (t.covering p).super a
  ⟨share (t.relabel p a).root, (t.relabel p a).upper.map share⟩

def change (t : Table ν α) : Change ν α → Table ν α
  | .keep => t
  | .attach super ds a => t.attach super ds a
  | .bind ds z deep => t.graft ds (if deep then t.beneath z else t.here z)
  | .relabel d a => t.relabel d a
  | .reconfigure d a => t.reconfigure d a

/-- A change that does not fit leaves things as they are. -/
def after (t : Table ν α) (cs : List (Change ν α)) : Table ν α :=
  cs.foldl (fun t ch => if ch.Fits t.covering then t.change ch else t) t

variable {t : Table ν α} {p : List ν}

@[simp] theorem after_nil : t.after [] = t := rfl

theorem after_append (t : Table ν α) (cs cs' : List (Change ν α)) :
    t.after (cs ++ cs') = (t.after cs).after cs' := List.foldl_append

theorem after_fits {ch : Change ν α} (h : ch.Fits t.covering) : t.after [ch] = t.change ch :=
  if_pos h

end Table

end Dtrun.MountTable
