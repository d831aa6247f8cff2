import Dtrun.Image.Unpack

/-! # What whiteouts remove

A whiteout stays beneath `dest` when the directory it works in does, links followed. Its name is no
longer checked once `.wh.` is stripped: nothing, `.` and `..` work on other directories than the one
the entry stands in.
-/
namespace Dtrun.Image
set_option autoImplicit false
open FileTree

variable {t : FileTree.Tree Name} {dest dir : List Name} {w : Whiteout}

/-- The whiteout works at or beneath `dest`, or finds nothing to remove. -/
def Confined (t : FileTree.Tree Name) (dest : List Name) (w : Whiteout) : Prop :=
  match w.victim with
  | (dir, .name n) => ∀ r, t.resolve dest (names dir) = some r →
      ∀ x, t.node (n :: r) = some x → (w = .opaqueDir (dir ++ [n]) → x ≠ .file) → dest <:+ r
  | (dir, .slash) => match dir.getLast? with
    | none => dest = []
    | some n => ∀ r, t.resolve dest (names dir.dropLast) = some r →
        (t.node (n :: r) = some .dir → dest <:+ r) ∧
        ∀ target, t.node (n :: r) = some (.link target) →
          ∀ r', t.resolve dest (names dir) = some r' → dest <:+ r' ∨ t.Empty r'
  | (dir, .cur) => ∀ r, t.resolve dest (names dir) = some r → dest <:+ r ∨ t.Empty r
  | (dir, .parent) => ∀ r, t.resolve dest (names dir) = some r →
      dest <:+ r.tail ∨ t.Empty r.tail

theorem removeDirAll_special {ending : Ending} (hDest : t.node dest = some .dir)
    (hEnding : ∀ n, ending ≠ .name n) (hVictim : w.victim = (dir, ending)) :
    Tree.RemovesBeneath dest t (removeDirAll t dest dir ending) ↔ Confined t dest w := by
  simp only [Confined, hVictim]
  cases ending with
  | name n => exact absurd rfl (hEnding n)
  | cur =>
    simp only [removeDirAll]
    cases hResolve : t.resolve dest (names dir) with
    | none => simp [Tree.removesBeneath_refl]
    | some r => simpa using Tree.prune_contents_beneath
  | parent =>
    simp only [removeDirAll]
    cases hResolve : t.resolve dest (names dir) with
    | none => simp [Tree.removesBeneath_refl]
    | some r => simpa using Tree.prune_contents_beneath
  | slash =>
    simp only [removeDirAll]
    cases hLast : dir.getLast? with
    | none =>
      have hSelf : t.resolve dest [] = some dest := Tree.resolve_eq_some.mpr ⟨hDest, rfl⟩
      simp only [hSelf]
      exact Tree.prune_self_beneath hDest
    | some n =>
      simp only []
      cases hResolve : t.resolve dest (names dir.dropLast) with
      | none => simp [Tree.removesBeneath_refl]
      | some r =>
        simp only [Option.some.injEq, forall_eq']
        cases hNode : t.node (n :: r) with
        | none => simp [Tree.removesBeneath_refl]
        | some x =>
          cases x with
          | file => simp [Tree.removesBeneath_refl]
          | dir => 
            have hEntry := Tree.prune_entry_beneath (t := t) (d := dest) (n := n) (p := r)
              (by simp [hNode])
            simpa using hEntry
          | link target =>
            cases hInner : t.resolve dest (names dir) with
            | none => simp [Tree.removesBeneath_refl]
            | some r' => simpa using Tree.prune_contents_beneath

theorem removeFile_special {ending : Ending} (hEnding : ∀ n, ending ≠ .name n) :
    removeFile t dest dir ending = t := by
  cases ending with
  | name n => exact absurd rfl (hEnding n)
  | _ => rfl

theorem removeFile_eq (ending : Ending) (q : List Name) :
    (removeFile t dest dir ending).node q = none ∨
      (removeFile t dest dir ending).node q = t.node q := by
  simp only [removeFile]
  split
  · split
    · exact .inr rfl
    · exact .inr rfl
    · exact Tree.node_prune_eq t _ q true
    · exact Tree.node_prune_eq t _ q true
  · exact .inr rfl

theorem removeDirAll_eq (ending : Ending) (q : List Name) :
    (removeDirAll t dest dir ending).node q = none ∨
      (removeDirAll t dest dir ending).node q = t.node q := by
  simp only [removeDirAll]
  repeat' split
  all_goals first | exact .inr rfl | exact Tree.node_prune_eq t _ q _

theorem carryOut_eq (q : List Name) :
    (w.carryOut dest t).node q = none ∨ (w.carryOut dest t).node q = t.node q := by
  cases w with
  | opaqueDir dir => exact removeDirAll_eq _ q
  | named dir deleted =>
    simp only [Whiteout.carryOut]
    rcases removeDirAll_eq _ q with hNone | hSame
    · exact .inl hNone
    · rw [hSame]
      exact removeFile_eq _ q

theorem removeBoth_name {n : Name} {r : List Name}
    (hResolve : t.resolve dest (names dir) = some r) :
    removeDirAll (removeFile t dest dir (.name n)) dest dir (.name n) =
      if (t.node (n :: r)).isSome then t.prune (n :: r) true else t := by
  -- Once a file or a link is gone, the same path leads to the same directory or nowhere.
  have gone : removeDirAll (t.prune (n :: r) true) dest dir (.name n) = t.prune (n :: r) true := by
    simp only [removeDirAll]
    cases hNext : (t.prune (n :: r) true).resolve dest (names dir) with
    | none => rfl
    | some r' =>
      have hSame := Tree.resolve_mono (Tree.node_prune_eq t _ · true) hNext
      cases hResolve.symm.trans hSame
      simp [Tree.node_prune]
  cases hNode : t.node (n :: r) with
  | none => simp [removeFile, removeDirAll, hResolve, hNode]
  | some x =>
    cases x with
    | dir => simp [removeFile, removeDirAll, hResolve, hNode]
    | file => simpa [removeFile, hResolve, hNode] using gone
    | link target => simpa [removeFile, hResolve, hNode] using gone

theorem carryOut_opaqueDir (hDest : t.node dest = some .dir) (dir : List Name) :
    Tree.RemovesBeneath dest t ((Whiteout.opaqueDir dir).carryOut dest t) ↔
      Confined t dest (.opaqueDir dir) := by
  cases hLast : dir.getLast? with
  | none =>
    have hVictim : (Whiteout.opaqueDir dir).victim = ([], .slash) := by
      simp [Whiteout.victim, hLast]
    simp only [Whiteout.carryOut, hVictim]
    exact removeDirAll_special hDest (by simp) hVictim
  | some n =>
    have hVictim : (Whiteout.opaqueDir dir).victim = (dir.dropLast, .name n) := by
      simp [Whiteout.victim, hLast]
    have hDir : dir.dropLast ++ [n] = dir := List.dropLast_append_getLast? n hLast
    simp only [Confined, Whiteout.carryOut, hVictim, hDir, forall_const, removeDirAll]
    cases hResolve : t.resolve dest (names dir.dropLast) with
    | none => simp [Tree.removesBeneath_refl]
    | some r =>
      have entry (hSome : (t.node (n :: r)).isSome = true) :=
        Tree.prune_entry_beneath (d := dest) hSome
      cases hNode : t.node (n :: r) with
      | none => simp [hNode, Tree.removesBeneath_refl]
      | some x =>
        cases x with
        | file => simp [hNode, Tree.removesBeneath_refl]
        | dir => simpa [hNode] using entry (by rw [hNode]; rfl)
        | link target => simpa [hNode] using entry (by rw [hNode]; rfl)

theorem carryOut_named (hDest : t.node dest = some .dir) (dir : List Name) (deleted : Name) :
    Tree.RemovesBeneath dest t ((Whiteout.named dir deleted).carryOut dest t) ↔
      Confined t dest (.named dir deleted) := by
  have special {ending : Ending} (hOf : Ending.of deleted = ending)
      (hEnding : ∀ n, ending ≠ .name n) :
      Tree.RemovesBeneath dest t ((Whiteout.named dir deleted).carryOut dest t) ↔
        Confined t dest (.named dir deleted) := by
    have hVictim : (Whiteout.named dir deleted).victim = (dir, ending) := by
      rw [Whiteout.victim, hOf]
    simp only [Whiteout.carryOut, hVictim, removeFile_special hEnding]
    exact removeDirAll_special hDest hEnding hVictim
  cases hOf : Ending.of deleted with
  | slash => exact special hOf (by simp)
  | cur => exact special hOf (by simp)
  | parent => exact special hOf (by simp)
  | name n =>
    have hVictim : (Whiteout.named dir deleted).victim = (dir, .name n) := by
      rw [Whiteout.victim, hOf]
    simp only [Confined, Whiteout.carryOut, hVictim, reduceCtorEq, false_implies, true_implies]
    cases hResolve : t.resolve dest (names dir) with
    | none => simp [removeFile, removeDirAll, hResolve, Tree.removesBeneath_refl]
    | some r =>
      rw [removeBoth_name hResolve]
      cases hNode : t.node (n :: r) with
      | none => simp [hNode, Tree.removesBeneath_refl]
      | some x =>
        have hEntry := Tree.prune_entry_beneath (t := t) (d := dest) (n := n) (p := r)
          (by rw [hNode]; rfl)
        simpa [hNode] using hEntry

theorem carryOut_beneath_iff (hDest : t.node dest = some .dir) (w : Whiteout) :
    Tree.RemovesBeneath dest t (w.carryOut dest t) ↔ Confined t dest w := by
  cases w with
  | opaqueDir dir => exact carryOut_opaqueDir hDest dir
  | named dir deleted => exact carryOut_named hDest dir deleted

/-- A whiteout that removes only what lies beneath `dest` leaves `dest` standing. -/
theorem carryOut_dest (hDest : t.node dest = some .dir)
    (h : Tree.RemovesBeneath dest t (w.carryOut dest t)) :
    (w.carryOut dest t).node dest = some .dir := by
  have hEither : (w.carryOut dest t).node dest = none ∨
      (w.carryOut dest t).node dest = t.node dest := carryOut_eq dest
  rcases hEither with hNone | hSame
  · exact absurd rfl (h dest (by rw [hDest]; rfl) hNone).2
  · rw [hSame, hDest]

variable {unpackIn : FileTree.Tree Name → Entry → Except ImageError (FileTree.Tree Name)}

theorem whiteouts_beneath_iff (hInside : StaysInside unpackIn dest) (entries : List (Option Entry))
    (hDest : t.node dest = some .dir) :
    (∀ v ∈ whiteouts unpackIn dest t entries,
      Tree.RemovesBeneath dest v.1 (v.2.carryOut dest v.1)) ↔
      ∀ v ∈ whiteouts unpackIn dest t entries, Confined v.1 dest v.2 := by
  induction entries generalizing t with
  | nil => simp [whiteouts]
  | cons e rest ih =>
    cases e with
    | none => exact ih hDest
    | some e =>
      simp only [whiteouts, unpackEntry, Entry.whiteout]
      cases hSafe : sanitizePath e.path with
      | none => simpa using ih hDest
      | some safe =>
        simp only [Option.bind_some]
        cases hWhiteout : Whiteout.of safe with
        | none =>
          simp only [Option.map_none, Option.toList_none, List.nil_append]
          cases hUnpack : unpackIn t e with
          | error error => simp
          | ok t' =>
            refine ih ?_
            rw [hInside t e t' hUnpack dest fun hBeneath => hBeneath.2 rfl, hDest]
        | some w =>
          simp only [Option.map_some, Option.toList_some, List.singleton_append,
            List.forall_mem_cons, carryOut_beneath_iff hDest w]
          refine and_congr_right fun hConfined => ih ?_
          exact carryOut_dest hDest ((carryOut_beneath_iff hDest w).mpr hConfined)

/-- Over a whole archive, nothing but what lies strictly beneath `dest` is removed exactly when
every whiteout reached is confined in the tree it finds. -/
theorem removed_beneath_iff (hInside : StaysInside unpackIn dest) (t : FileTree.Tree Name)
    (hDest : t.node dest = some .dir) (entries : List (Option Entry)) :
    (∀ q, Removed unpackIn dest t entries q → Beneath dest q) ↔
      ∀ v ∈ whiteouts unpackIn dest t entries, Confined v.1 dest v.2 := by
  rw [← whiteouts_beneath_iff hInside entries hDest]
  constructor
  · exact fun h v hv q hSome hNone => h q ⟨v, hv, hSome, hNone⟩
  · rintro h q ⟨v, hv, hSome, hNone⟩
    exact h v hv q hSome hNone

/-- An `unpack_in` for archives that need no more: it adds what is not there yet. -/
def addEntry (dest : List Name) (t : FileTree.Tree Name) (e : Entry) :
    Except ImageError (FileTree.Tree Name) :=
  match (sanitizePath e.path).map List.reverse with
  | some (n :: dir) => .ok <| t.add n (dir ++ dest) <| match e.type with
    | .directory => .dir
    | .symlink target => .link target
    | _ => .file
  | _ => .ok t

theorem addEntry_inside (dest : List Name) : StaysInside (addEntry dest) dest := by
  intro t e t' h q hq
  simp only [addEntry] at h
  split at h
  · rename_i n dir _
    cases h
    refine Tree.node_add_ne _ _ _ _ fun hEq => hq ?_
    rw [hEq]
    refine ⟨(List.suffix_append dir dest).trans (List.suffix_cons n _), fun hSelf => ?_⟩
    have hLength := congrArg List.length hSelf
    simp only [List.length_cons, List.length_append] at hLength
    omega
  · cases h
    rfl

def host : FileTree.Tree Name := (Tree.bare.add [0x64] [] .dir).add [0x66] [] .file

def deletesFile : List (Option Entry) :=
  [some ⟨[0x62], .regular⟩, some ⟨WHITEOUT ++ [0x62], .regular⟩]

theorem removed_beneath_iff_deletesFile :
    (∀ q, Removed (addEntry [[0x64]]) [[0x64]] host deletesFile q → Beneath [[0x64]] q) ↔
      ∀ v ∈ whiteouts (addEntry [[0x64]]) [[0x64]] host deletesFile, Confined v.1 [[0x64]] v.2 :=
  removed_beneath_iff (addEntry_inside _) host (by decide) deletesFile

/-- `.wh...` asks for `..`: the file next to `dest` is removed. -/
theorem not_removed_beneath : ¬ ∀
    (unpackIn : FileTree.Tree Name → Entry → Except ImageError (FileTree.Tree Name))
    (dest : List Name) (t : FileTree.Tree Name) (entries : List (Option Entry)),
    StaysInside unpackIn dest → t.node dest = some .dir →
      ∀ q, Removed unpackIn dest t entries q → Beneath dest q := by
  intro hAll
  have hWhiteout : (⟨WHITEOUT ++ [DOT, DOT], .regular⟩ : Entry).whiteout =
      some (.named [] [DOT, DOT]) := by decide
  have hRemoved : Removed (addEntry [[0x64]]) [[0x64]] host
      [some ⟨WHITEOUT ++ [DOT, DOT], .regular⟩] [[0x66]] :=
    ⟨(host, .named [] [DOT, DOT]), by simp [whiteouts, hWhiteout], by decide, by decide⟩
  obtain ⟨hSuffix, _⟩ := hAll _ _ _ _ (addEntry_inside _) (by decide) _ hRemoved
  revert hSuffix
  decide

end Dtrun.Image
