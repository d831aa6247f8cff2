import Dtrun.Library.MountTable

/-! # Binds and remounts by what paths lead into

A recursive bind of `z` at `d` lets the paths below `d` lead where those below `z` led; a remount
changes the label of the mount at a path, and of what leads into it. Together, a path that is bound
onto itself and then remounted: the label changes below it, except where a mount stands in between.
-/
namespace Dtrun.MountTable
set_option autoImplicit false

variable {ν α : Type} {t : Table ν α} {m : Mounted ν α} {stacked : Bool} {d p q r z : List ν}
  {a : α}

theorem Mounted.stays (h : m.point = q) : { m with point := q } = m := by
  rw [← h]

theorem Mounted.covers_append (h : m.Covers false z) : m.Covers stacked (z ++ r) :=
  ⟨.inl (h.1.resolve_right Bool.false_ne_true), h.2.trans (List.prefix_append z r)⟩

theorem Mounted.covers_below (h : ¬ m.Covers false z) (hRoot : z = [] ∨ stacked = false)
    (hCovers : m.Covers stacked (z ++ r)) : z <+: m.point := by
  rcases List.prefix_or_prefix_of_prefix hCovers.2 (List.prefix_append z r) with hAbove | hBelow
  · rcases hRoot with rfl | rfl
    · exact List.nil_prefix
    · exact absurd ⟨hCovers.1, hAbove⟩ h
  · exact hBelow

/-- Whether what is stacked on the root counts for what is bound from there. -/
def stackedAt (stacked : Bool) (d z : List ν) : Bool :=
  z.isEmpty && (stacked || !d.isEmpty)

theorem stackedAt_root : z = [] ∨ stackedAt stacked d z = false := by
  cases z with
  | nil => exact .inl rfl
  | cons x z => exact .inr rfl

theorem Mounted.covers_repoint (hBelow : z <+: m.point) (h : ¬ m.Covers false z) :
    (m.repoint d z).Covers stacked (d ++ r) ↔ m.Covers (stackedAt stacked d z) (z ++ r) := by
  obtain ⟨x, hx⟩ := hBelow
  rw [Covers, Covers, repoint, ← hx, List.drop_left, List.prefix_append_right_inj,
    List.prefix_append_right_inj]
  refine and_congr_left fun _ => ?_
  cases z with
  | nil =>
    cases d with
    | nil => simp [stackedAt]
    | cons y d => simp [stackedAt]
  | cons y z =>
    have hDeep : x ≠ [] := by
      rintro rfl
      rw [List.append_nil] at hx
      exact h ⟨.inl (hx ▸ List.cons_ne_nil y z), hx ▸ List.prefix_rfl⟩
    simp [stackedAt, hDeep]

namespace Table

variable [DecidableEq ν]

theorem find_covers {ms : List (Mounted ν α)}
    (h : (ms.find? fun m => m.Covers stacked p) = some m) : m.Covers stacked p :=
  of_decide_eq_true (by simpa using List.find?_some h)

/-- The root is where paths start from. -/
def Rooted (t : Table ν α) : Prop := t.root.point = []

theorem covering_above (h : t.Rooted) (p : List ν) : (t.covering p).point <+: p := by
  rw [covering, cover]
  cases hFind : t.upper.find? fun m => m.Covers false p with
  | none => simp [show t.root.point = [] from h]
  | some m =>
    exact (find_covers hFind).2

theorem cover_graft (t : Table ν α) (ds : List (List ν)) (ms : List (Mounted ν α)) :
    (t.graft ds ms).cover stacked p =
      (ds.findSome? fun d => (ms.map fun m => { m with point := d ++ m.point }).find? fun m =>
        m.Covers stacked p).or (t.cover stacked p) := by
  rw [cover, graft, List.find?_append, List.find?_flatMap, cover]

theorem find_apart (h : ¬ d <+: p) (ms : List (Mounted ν α)) :
    ((ms.map fun m => { m with point := d ++ m.point }).find? fun m => m.Covers stacked p) =
      none := by
  rw [List.find?_eq_none]
  intro m hm
  obtain ⟨m', _, rfl⟩ := List.mem_map.mp hm
  have hNot : ¬ d ++ m'.point <+: p := fun hOver => h ((List.prefix_append d _).trans hOver)
  simp [Mounted.Covers, hNot]

theorem find_single (m : Mounted ν α) :
    (([{ m with point := [] }].map fun m => { m with point := d ++ m.point }).find? fun m =>
      m.Covers stacked p) =
      if d <+: p ∧ (d ≠ [] ∨ stacked = true) then some { m with point := d } else none := by
  rw [List.map_singleton, List.append_nil, List.find?_singleton]
  simp only [Mounted.Covers, and_comm, decide_eq_true_eq]

theorem find_split (ms : List (Mounted ν α)) :
    (ms.find? fun m => m.Covers stacked (z ++ r)) =
      ((ms.takeWhile fun m => ¬ m.Covers false z).find? fun m => m.Covers stacked (z ++ r)).or
        (ms.find? fun m => m.Covers false z) := by
  induction ms with
  | nil => rfl
  | cons m ms ih =>
    by_cases hOver : m.Covers false z
    · simp [hOver, Mounted.covers_append hOver]
    · by_cases hCovers : m.Covers stacked (z ++ r)
      · simp [hOver, hCovers]
      · simp [hOver, hCovers, ih]

theorem over_below (t : Table ν α) (stacked : Bool) (z r : List ν) :
    (t.cover stacked (z ++ r)).getD t.root =
      ((t.upper.takeWhile fun m => ¬ m.Covers false z).find? fun m =>
        m.Covers stacked (z ++ r)).getD (t.covering z) := by
  rw [cover, find_split, covering, cover]
  cases (t.upper.takeWhile fun m => ¬ m.Covers false z).find? fun m => m.Covers stacked (z ++ r) with
  | none => rfl
  | some m => rfl

theorem find_beneath (ms : List (Mounted ν α)) (h : ∀ m ∈ ms, ¬ m.Covers false z) :
    (((ms.filter fun m => z <+: m.point).map (Mounted.repoint d z)).find? fun m =>
      m.Covers stacked (d ++ r)) =
      (ms.find? fun m => m.Covers (stackedAt stacked d z) (z ++ r)).map (Mounted.repoint d z) := by
  induction ms with
  | nil => rfl
  | cons m ms ih =>
    obtain ⟨hFirst, hRest⟩ := List.forall_mem_cons.mp h
    by_cases hBelow : z <+: m.point
    · have hSame : (m.repoint d z).Covers stacked (d ++ r) ↔
          m.Covers (stackedAt stacked d z) (z ++ r) := Mounted.covers_repoint hBelow hFirst
      by_cases hCovers : m.Covers (stackedAt stacked d z) (z ++ r)
      · simp [hBelow, hSame.mpr hCovers, hCovers]
      · simp [hBelow, hSame, hCovers, ih hRest]
    · have hNot : ¬ m.Covers (stackedAt stacked d z) (z ++ r) := fun hCovers =>
        hBelow (Mounted.covers_below hFirst stackedAt_root hCovers)
      simp [hBelow, hNot, ih hRest]

theorem beneath_repoint (t : Table ν α) (d z : List ν) :
    ((t.beneath z).map fun m => { m with point := d ++ m.point }) =
      (((t.upper.takeWhile fun m => ¬ m.Covers false z).filter fun m => z <+: m.point).map
        (Mounted.repoint d z)) ++ [{ t.covering z with point := d }] := by
  simp [beneath, here, Mounted.repoint]

/-- What is bound at `d` leads where it led at `z`; only a root stays below what is put on it. -/
theorem find_bound (h : t.Rooted) (d z p : List ν) (stacked : Bool) :
    (((t.beneath z).map fun m => { m with point := d ++ m.point }).find? fun m =>
      m.Covers stacked p) =
      let m := (t.cover (stackedAt stacked d z) (z ++ p.drop d.length)).getD t.root
      if d <+: p ∧ (d ≠ [] ∨ stacked = true ∨ ¬ m.point <+: z) then some (m.repoint d z)
      else none := by
  by_cases hBelow : d <+: p
  · obtain ⟨r, rfl⟩ := hBelow
    have hBetween : ∀ m ∈ t.upper.takeWhile fun m => ¬ m.Covers false z, ¬ m.Covers false z := by
      intro m hm
      have hTaken := List.all_eq_true.mp List.all_takeWhile m hm
      exact of_decide_eq_true hTaken
    simp only [beneath_repoint, List.find?_append, find_beneath _ hBetween, List.drop_left,
      over_below t, List.prefix_append, true_and]
    cases hFind : (t.upper.takeWhile fun m => ¬ m.Covers false z).find? fun m =>
        m.Covers (stackedAt stacked d z) (z ++ r) with
    | some m =>
      have hNot := hBetween m (List.mem_of_find?_eq_some hFind)
      have hCovers : m.Covers (stackedAt stacked d z) (z ++ r) := find_covers hFind
      have hLands : d ≠ [] ∨ stacked = true ∨ ¬ m.point <+: z := by
        by_cases hPoint : m.point = []
        · have hStacked := hCovers.1.resolve_left fun hDeep => hDeep hPoint
          cases d with
          | nil => exact .inr (.inl (by simpa [stackedAt] using (Bool.and_eq_true_iff.mp hStacked).2))
          | cons y d => exact .inl (List.cons_ne_nil y d)
        · exact .inr (.inr fun hAbove => hNot ⟨.inl hPoint, hAbove⟩)
      simp [hLands]
    | none =>
      have hAbove : (t.covering z).point <+: z := covering_above h z
      have hPoint : (t.covering z).repoint d z = { t.covering z with point := d } := by
        rw [Mounted.repoint, List.drop_of_length_le hAbove.length_le, List.append_nil]
      rw [Option.getD_none, Option.map_none, Option.none_or, List.find?_singleton, hPoint]
      simp [hAbove, Mounted.Covers]
  · rw [find_apart hBelow, if_neg fun hBoth => hBelow hBoth.1]

theorem covering_attach (t : Table ν α) (super : Nat) (d p : List ν) (a : α) :
    (t.attach super [d] a).covering p =
      if d ≠ [] ∧ d <+: p then ⟨d, super, a, a⟩ else t.covering p := by
  rw [covering, attach, cover_graft]
  simp only [List.findSome?_cons, List.findSome?_nil, find_single ⟨[], super, a, a⟩]
  by_cases h : d ≠ [] ∧ d <+: p
  · simp [h]
  · rw [if_neg h, if_neg fun hBoth => h ⟨hBoth.2.resolve_right Bool.false_ne_true, hBoth.1⟩]
    rfl

theorem covering_bind (h : t.Rooted) (hRoot : z = [] → d = []) (r : List ν) :
    (t.graft [d] (t.beneath z)).covering (d ++ r) =
      if d = [] ∧ (t.covering (z ++ r)).point <+: z then t.covering r
      else (t.covering (z ++ r)).repoint d z := by
  have hStacked : stackedAt false d z = false := by
    cases z with
    | nil => simp [stackedAt, hRoot rfl]
    | cons y z => rfl
  rw [covering, cover_graft]
  simp only [List.findSome?_cons, List.findSome?_nil, find_bound h, List.drop_left, hStacked]
  rw [show (t.cover false (z ++ r)).getD t.root = t.covering (z ++ r) from rfl]
  by_cases hKept : d = [] ∧ (t.covering (z ++ r)).point <+: z
  · rw [if_pos hKept, if_neg (by simp [hKept]), hKept.1]
    rfl
  · have hLands : d ≠ [] ∨ false = true ∨ ¬ (t.covering (z ++ r)).point <+: z := by
      by_cases hd : d = []
      · exact .inr (.inr fun hAbove => hKept ⟨hd, hAbove⟩)
      · exact .inl hd
    rw [if_neg hKept, if_pos ⟨List.prefix_append d r, hLands⟩]
    rfl

theorem covering_graft_apart (h : ¬ d <+: p) (ms : List (Mounted ν α)) :
    (t.graft [d] ms).covering p = t.covering p := by
  rw [covering, cover_graft]
  simp only [List.findSome?_cons, List.findSome?_nil, find_apart h]
  rfl

theorem find_setOwn (a : α) {ms : List (Mounted ν α)}
    (h : ∀ m ∈ ms.find? fun m => m.Covers false d, m.point = d) :
    ((setOwn d a ms).find? fun m => m.Covers stacked p) =
      (ms.find? fun m => m.Covers stacked p).map fun m =>
        if d ≠ [] ∧ m.point = d then { m with own := a } else m := by
  induction ms with
  | nil => rfl
  | cons m ms ih =>
    by_cases hOver : m.Covers false d
    · have hPoint : m.point = d := h m (by simp [hOver])
      have hDeep : d ≠ [] := hPoint ▸ hOver.1.resolve_right Bool.false_ne_true
      by_cases hCovers : m.Covers stacked p
      · have hSame : ({ m with own := a } : Mounted ν α).Covers stacked p := hCovers
        have hHere : d ≠ [] ∧ m.point = d := ⟨hDeep, hPoint⟩
        simp only [setOwn, hOver, if_true, List.find?_cons, hSame, hCovers, decide_true,
          Option.map_some, if_pos hHere]
      · have hSame : ¬ ({ m with own := a } : Mounted ν α).Covers stacked p := hCovers
        have hOthers : (ms.find? fun m => m.Covers stacked p).map (fun m =>
            if d ≠ [] ∧ m.point = d then { m with own := a } else m) =
              ms.find? fun m => m.Covers stacked p := by
          cases hFind : ms.find? fun m => m.Covers stacked p with
          | none => rfl
          | some m' =>
            have hCovers' : m'.Covers stacked p := find_covers hFind
            have hNot : m'.point ≠ d := fun hd =>
              hCovers ⟨.inl (hPoint ▸ hDeep), hPoint ▸ hd ▸ hCovers'.2⟩
            simp [hNot]
        simp only [setOwn, hOver, if_true, List.find?_cons, hSame, hCovers, decide_false, hOthers]
    · have hRest := ih fun m' hm' => h m' (by simpa [hOver] using hm')
      by_cases hCovers : m.Covers stacked p
      · have hNot : ¬ (d ≠ [] ∧ m.point = d) := fun hBoth =>
          hOver ⟨.inl (hBoth.2 ▸ hBoth.1), hBoth.2 ▸ List.prefix_rfl⟩
        simp [setOwn, hOver, hCovers, hNot]
      · simp [setOwn, hOver, hCovers, hRest]

theorem cover_relabel (hFits : (t.covering d).point = d) (a : α) :
    (t.relabel d a).cover stacked p = (t.cover stacked p).map fun m =>
      if d ≠ [] ∧ m.point = d then { m with own := a } else m :=
  find_setOwn a fun m hm => by
    rwa [covering, cover, Option.mem_def.mp hm] at hFits

theorem root_relabel (h : t.Rooted) (hFits : (t.covering d).point = d) (a : α) :
    (t.relabel d a).root = if d = [] then { t.root with own := a } else t.root := by
  rw [relabel]
  by_cases hd : d = []
  · subst hd
    have hNone : (t.upper.any fun m => m.Covers false []) = false := by
      rw [List.any_eq_false]
      intro m _ hOver
      have hCovers : m.Covers false [] := of_decide_eq_true hOver
      exact hCovers.1.resolve_right Bool.false_ne_true (List.prefix_nil.mp hCovers.2)
    simp [hNone]
  · have hSome : (t.upper.any fun m => m.Covers false d) = true := by
      rw [covering, cover] at hFits
      cases hFind : t.upper.find? fun m => m.Covers false d with
      | none =>
        rw [hFind] at hFits
        exact absurd (hFits.symm.trans h) hd
      | some m =>
        exact List.any_eq_true.mpr
          ⟨m, List.mem_of_find?_eq_some hFind, decide_eq_true (find_covers hFind)⟩
    simp [hSome, hd]

theorem covering_relabel (h : t.Rooted) (hFits : (t.covering d).point = d) (a : α) :
    (t.relabel d a).covering p =
      if (t.covering p).point = d then { t.covering p with own := a } else t.covering p := by
  rw [covering, cover_relabel hFits, root_relabel h hFits, covering]
  cases hFind : t.cover false p with
  | none =>
    have hRoot : t.root.point = [] := h
    by_cases hd : d = []
    · simp [hd, hRoot]
    · simp [hd, hRoot, Ne.symm hd]
  | some m =>
    have hCovers : m.Covers false p := find_covers hFind
    have hDeep := hCovers.1.resolve_right Bool.false_ne_true
    by_cases hPoint : m.point = d
    · simp [hPoint, hPoint ▸ hDeep]
    · simp [hPoint]

def rebind (t : Table ν α) (d : List ν) (a : α) : Table ν α :=
  (t.graft [d] (t.beneath d)).relabel d a

omit [DecidableEq ν] in
theorem rooted_graft (h : t.Rooted) (ps : List (List ν)) (ms : List (Mounted ν α)) :
    (t.graft ps ms).Rooted := h

theorem rooted_relabel (h : t.Rooted) (q : List ν) (a : α) : (t.relabel q a).Rooted := by
  rw [Rooted, relabel]
  split
  · exact h
  · exact h

theorem rooted_rebind (h : t.Rooted) (d : List ν) (a : α) : (t.rebind d a).Rooted :=
  rooted_relabel (rooted_graft h _ _) d a

/-- Bound onto itself, a path leads where it led, through a mount of its own. -/
theorem covering_bind_self (h : t.Rooted) (d p : List ν) :
    (t.graft [d] (t.beneath d)).covering p =
      if d <+: p ∧ (t.covering p).point <+: d then { t.covering p with point := d }
      else t.covering p := by
  by_cases hBelow : d <+: p
  · obtain ⟨r, rfl⟩ := hBelow
    rw [covering_bind h id]
    by_cases hAbove : (t.covering (d ++ r)).point <+: d
    · by_cases hd : d = []
      · subst hd
        rw [if_pos ⟨rfl, hAbove⟩, if_pos ⟨List.prefix_append [] r, hAbove⟩,
          Mounted.stays (List.prefix_nil.mp hAbove), List.nil_append]
      · simp [hd, hAbove, Mounted.repoint, List.drop_of_length_le hAbove.length_le]
    · have hBetween : d <+: (t.covering (d ++ r)).point :=
        (List.prefix_or_prefix_of_prefix (covering_above h _)
          (List.prefix_append d r)).resolve_left hAbove
      obtain ⟨x, hx⟩ := hBetween
      rw [if_neg fun hBoth => hAbove hBoth.2, if_neg fun hBoth => hAbove hBoth.2,
        Mounted.repoint, ← hx, List.drop_left, hx]
  · rw [covering_graft_apart hBelow, if_neg fun hBoth => hBelow hBoth.1]

theorem bind_self_point (h : t.Rooted) (d : List ν) :
    ((t.graft [d] (t.beneath d)).covering d).point = d := by
  rw [covering_bind_self h, if_pos ⟨List.prefix_rfl, covering_above h d⟩]

/-- The label changes below the path, but not beyond a mount that stands in between. -/
theorem covering_rebind (h : t.Rooted) (d p : List ν) (a : α) :
    (t.rebind d a).covering p =
      if d <+: p ∧ (t.covering p).point <+: d then { t.covering p with point := d, own := a }
      else t.covering p := by
  rw [rebind, covering_relabel (rooted_graft h _ _) (bind_self_point h d), covering_bind_self h]
  by_cases hHere : d <+: p ∧ (t.covering p).point <+: d
  · rw [if_pos hHere, if_pos rfl, if_pos hHere]
  · rw [if_neg hHere, if_neg hHere, if_neg fun hPoint => hHere ?_]
    exact ⟨hPoint ▸ covering_above h p, hPoint ▸ List.prefix_rfl⟩

theorem rooted_rebinds (h : t.Rooted) (ds : List (List ν)) (a : α) :
    (ds.foldl (fun t d => t.rebind d a) t).Rooted := by
  induction ds generalizing t with
  | nil => exact h
  | cons d ds ih => exact ih (rooted_rebind h d a)

theorem covering_rebinds_apart (h : t.Rooted) (ds : List (List ν)) (p : List ν) (a : α)
    (hApart : ∀ d ∈ ds, ¬ (d <+: p ∧ (t.covering p).point <+: d)) :
    (ds.foldl (fun t d => t.rebind d a) t).covering p = t.covering p := by
  induction ds generalizing t with
  | nil => rfl
  | cons d ds ih =>
    obtain ⟨hFirst, hRest⟩ := List.forall_mem_cons.mp hApart
    have hSame : (t.rebind d a).covering p = t.covering p := by
      rw [covering_rebind h, if_neg hFirst]
    rw [List.foldl_cons, ih (rooted_rebind h d a) (by rwa [hSame]), hSame]

theorem covering_rebinds (h : t.Rooted) (ds : List (List ν)) (p : List ν) (a : α) :
    let m := (ds.foldl (fun t d => t.rebind d a) t).covering p
    m.super = (t.covering p).super ∧ m.shared = (t.covering p).shared ∧
      m.own = if ∃ d ∈ ds, d <+: p ∧ (t.covering p).point <+: d then a
        else (t.covering p).own := by
  induction ds generalizing t with
  | nil => simp
  | cons d ds ih =>
    obtain ⟨hSuper, hShared, hOwn⟩ := ih (rooted_rebind h d a)
    rw [List.foldl_cons]
    rw [covering_rebind h] at hSuper hShared hOwn
    by_cases hHere : d <+: p ∧ (t.covering p).point <+: d
    · simp only [if_pos hHere] at hSuper hShared hOwn
      refine ⟨hSuper, hShared, hOwn.trans ?_⟩
      have hOne : ∃ d' ∈ d :: ds, d' <+: p ∧ (t.covering p).point <+: d' :=
        ⟨d, List.mem_cons_self, hHere⟩
      rw [ite_self, if_pos hOne]
    · simp only [if_neg hHere] at hSuper hShared hOwn
      refine ⟨hSuper, hShared, hOwn.trans ?_⟩
      simp only [List.exists_mem_cons_iff, hHere, false_or]

end Table

end Dtrun.MountTable
