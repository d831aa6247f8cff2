import Dtrun.Library.BindMounts

/-! # Mounts as paths see them

A view says of every path which mount is over it, if one is, and holds no table. The changes of a
table are changes of its view: what a bind puts over a path is what was over the path it stands for,
and a remount is met by the paths that lead into the mount, or into its file system.
-/
namespace Dtrun.MountTable
set_option autoImplicit false

variable {ν α : Type}

structure View (ν α : Type) where
  root : Mounted ν α
  cover : Bool → List ν → Option (Mounted ν α)

section Changes

variable [DecidableEq ν]

namespace View

def start (a : α) : View ν α := ⟨⟨[], 0, a, a⟩, fun _ _ => none⟩

def seen (v : View ν α) (stacked : Bool) (p : List ν) : Mounted ν α :=
  (v.cover stacked p).getD v.root

def covering (v : View ν α) (p : List ν) : Mounted ν α := v.seen false p

def put (v : View ν α) (new : Bool → List ν → Option (Mounted ν α)) : View ν α :=
  { v with cover := fun stacked p => (new stacked p).or (v.cover stacked p) }

def fresh (super : Nat) (a : α) (stacked : Bool) (p d : List ν) : Option (Mounted ν α) :=
  if d <+: p ∧ (d ≠ [] ∨ stacked = true) then some ⟨d, super, a, a⟩ else none

/-- What `z` puts over `p` when it is bound at `d`. -/
def bound (v : View ν α) (z : List ν) (deep stacked : Bool) (p d : List ν) :
    Option (Mounted ν α) :=
  if deep then
    let m := v.seen (stackedAt stacked d z) (z ++ p.drop d.length)
    if d <+: p ∧ (d ≠ [] ∨ stacked = true ∨ ¬ m.point <+: z) then some (m.repoint d z) else none
  else if d <+: p ∧ (d ≠ [] ∨ stacked = true) then some { v.covering z with point := d } else none

def relabel (v : View ν α) (d : List ν) (a : α) : View ν α where
  root := if d = [] then { v.root with own := a } else v.root
  cover stacked p := (v.cover stacked p).map fun m =>
    if d ≠ [] ∧ m.point = d then { m with own := a } else m

def share (v : View ν α) (super : Nat) (a : α) : View ν α :=
  ⟨v.root.share super a, fun stacked p => (v.cover stacked p).map (Mounted.share super a)⟩

def change (v : View ν α) : Change ν α → View ν α
  | .keep => v
  | .attach super ds a => v.put fun stacked p => ds.findSome? (fresh super a stacked p)
  | .bind ds z deep => v.put fun stacked p => ds.findSome? (v.bound z deep stacked p)
  | .relabel d a => v.relabel d a
  | .reconfigure d a => (v.relabel d a).share (v.covering d).super a

def after (v : View ν α) (cs : List (Change ν α)) : View ν α :=
  cs.foldl (fun v ch => if ch.Fits v.covering then v.change ch else v) v

end View

namespace Table

variable {t : Table ν α} {d z : List ν} {a : α}

def view (t : Table ν α) : View ν α := ⟨t.root, t.cover⟩

theorem view_graft (t : Table ν α) (ds : List (List ν)) (ms : List (Mounted ν α))
    {new : Bool → List ν → List ν → Option (Mounted ν α)}
    (h : ∀ stacked p d, ((ms.map fun m => { m with point := d ++ m.point }).find? fun m =>
      m.Covers stacked p) = new stacked p d) :
    (t.graft ds ms).view = t.view.put fun stacked p => ds.findSome? (new stacked p) := by
  simp only [view, View.put, View.mk.injEq]
  refine ⟨rfl, ?_⟩
  funext stacked p
  rw [cover_graft]
  simp only [h]

theorem view_relabel (h : t.Rooted) (hFits : (t.covering d).point = d) (a : α) :
    (t.relabel d a).view = t.view.relabel d a := by
  simp only [view, View.relabel, View.mk.injEq]
  refine ⟨root_relabel h hFits a, ?_⟩
  funext stacked p
  exact cover_relabel hFits a

theorem find_share (super : Nat) (a : α) (ms : List (Mounted ν α)) (stacked : Bool)
    (p : List ν) :
    ((ms.map (Mounted.share super a)).find? fun m => m.Covers stacked p) =
      (ms.find? fun m => m.Covers stacked p).map (Mounted.share super a) := by
  have hCovers (m : Mounted ν α) : (m.share super a).Covers stacked p ↔ m.Covers stacked p := by
    rw [Mounted.share]
    split
    · rfl
    · rfl
  simp only [List.find?_map, Function.comp_def, hCovers]

theorem view_reconfigure (h : t.Rooted) (hFits : (t.covering d).point = d) (a : α) :
    (t.reconfigure d a).view = (t.view.relabel d a).share (t.covering d).super a := by
  rw [← view_relabel h hFits]
  simp only [view, reconfigure, View.share, View.mk.injEq, true_and]
  funext stacked p
  exact find_share _ a _ stacked p

/-- A change of a table is the change of its view. -/
theorem view_change (h : t.Rooted) {ch : Change ν α} (hFits : ch.Fits t.covering) :
    (t.change ch).view = t.view.change ch := by
  cases ch with
  | keep => rfl
  | attach super ds a => exact view_graft t ds _ fun _ _ _ => find_single ⟨[], super, a, a⟩
  | bind ds z deep =>
    cases deep with
    | true => exact view_graft t ds _ fun stacked p d => find_bound h d z p stacked
    | false => exact view_graft t ds _ fun _ _ _ => find_single _
  | relabel d a => exact view_relabel h hFits a
  | reconfigure d a => exact view_reconfigure h hFits a

theorem rooted_change (h : t.Rooted) (ch : Change ν α) : (t.change ch).Rooted := by
  cases ch with
  | keep => exact h
  | attach super ds a => exact h
  | bind ds z deep => exact h
  | relabel d a => exact rooted_relabel h d a
  | reconfigure d a =>
    have hAfter := rooted_relabel h d a
    simp only [change, reconfigure, Rooted, Mounted.share]
    split
    · exact hAfter
    · exact hAfter

theorem after_view (h : t.Rooted) (cs : List (Change ν α)) :
    (t.after cs).Rooted ∧ (t.after cs).view = t.view.after cs := by
  induction cs generalizing t with
  | nil => exact ⟨h, rfl⟩
  | cons ch cs ih =>
    change ((if ch.Fits t.covering then t.change ch else t).after cs).Rooted ∧
      ((if ch.Fits t.covering then t.change ch else t).after cs).view =
        (if ch.Fits t.covering then t.view.change ch else t.view).after cs
    by_cases hFits : ch.Fits t.covering
    · rw [if_pos hFits, if_pos hFits, ← view_change h hFits]
      exact ih (rooted_change h ch)
    · rw [if_neg hFits, if_neg hFits]
      exact ih h

omit [DecidableEq ν] in
theorem rooted_start (a : α) : (start a : Table ν α).Rooted := rfl

end Table

end Changes

/-- A new file system has a number up to `n`. -/
def Change.Below (n : Nat) : Change ν α → Prop
  | .attach super _ _ => super ≤ n
  | _ => True

/-- No path leads into a file system with a number above `n`. -/
structure View.Numbered (n : Nat) (v : View ν α) : Prop where
  root : v.root.super ≤ n
  cover : ∀ stacked p, ∀ m ∈ v.cover stacked p, m.super ≤ n

variable {n n' : Nat} {v : View ν α}

theorem Change.Below.mono {ch : Change ν α} (h : ch.Below n) (hMore : n ≤ n') : ch.Below n' := by
  cases ch with
  | attach super ds a => exact Nat.le_trans h hMore
  | _ => trivial

namespace View.Numbered

theorem seen (h : v.Numbered n) (stacked : Bool) (p : List ν) : (v.seen stacked p).super ≤ n := by
  rw [View.seen]
  cases hOver : v.cover stacked p with
  | none => exact h.root
  | some m => exact h.cover stacked p m hOver

theorem put (h : v.Numbered n) {new : Bool → List ν → Option (Mounted ν α)}
    (hNew : ∀ stacked p, ∀ m ∈ new stacked p, m.super ≤ n) : (v.put new).Numbered n where
  root := h.root
  cover stacked p m hm := by
    rcases Option.or_eq_some_iff.mp hm with hFirst | ⟨_, hRest⟩
    · exact hNew stacked p m hFirst
    · exact h.cover stacked p m hRest

theorem share (h : v.Numbered n) (super : Nat) (a : α) : (v.share super a).Numbered n := by
  have hSame (m : Mounted ν α) : (m.share super a).super = m.super := by
    rw [Mounted.share]
    split
    · rfl
    · rfl
  refine ⟨(hSame _).trans_le h.root, fun stacked p m hm => ?_⟩
  obtain ⟨m', hm', rfl⟩ := Option.map_eq_some_iff.mp hm
  exact (hSame m').trans_le (h.cover stacked p m' hm')

variable [DecidableEq ν]

theorem relabel (h : v.Numbered n) (d : List ν) (a : α) : (v.relabel d a).Numbered n := by
  constructor
  · rw [View.relabel]
    split
    · exact h.root
    · exact h.root
  · intro stacked p m hm
    obtain ⟨m', hm', rfl⟩ := Option.map_eq_some_iff.mp hm
    split
    · exact h.cover stacked p m' hm'
    · exact h.cover stacked p m' hm'

theorem bound (h : v.Numbered n) (z : List ν) (deep stacked : Bool) (p d : List ν) :
    ∀ m ∈ v.bound z deep stacked p d, m.super ≤ n := by
  intro m hm
  rw [View.bound] at hm
  split at hm
  · dsimp only at hm
    split at hm
    · cases hm
      exact h.seen _ _
    · cases hm
  · split at hm
    · cases hm
      exact h.seen _ _
    · cases hm

theorem change (h : v.Numbered n) {ch : Change ν α} (hBelow : ch.Below n) :
    (v.change ch).Numbered n := by
  cases ch with
  | keep => exact h
  | attach super ds a =>
    refine h.put fun stacked p m hm => ?_
    obtain ⟨_, d, _, _, hFresh, _⟩ := List.findSome?_eq_some_iff.mp hm
    rw [View.fresh] at hFresh
    split at hFresh
    · cases hFresh
      exact hBelow
    · cases hFresh
  | bind ds z deep =>
    refine h.put fun stacked p m hm => ?_
    obtain ⟨_, d, _, _, hBound, _⟩ := List.findSome?_eq_some_iff.mp hm
    exact h.bound z deep stacked p d m hBound
  | relabel d a => exact h.relabel d a
  | reconfigure d a => exact (h.relabel d a).share _ a

theorem after (h : v.Numbered n) (cs : List (Change ν α)) (hBelow : ∀ ch ∈ cs, ch.Below n) :
    (v.after cs).Numbered n := by
  induction cs generalizing v with
  | nil => exact h
  | cons ch cs ih =>
    obtain ⟨hFirst, hRest⟩ := List.forall_mem_cons.mp hBelow
    change ((if ch.Fits v.covering then v.change ch else v).after cs).Numbered n
    split
    · exact ih (h.change hFirst) hRest
    · exact ih h hRest

end View.Numbered

end Dtrun.MountTable
