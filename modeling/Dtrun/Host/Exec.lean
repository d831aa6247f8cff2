import Dtrun.Library.Occurrences

/-! # The environment of a command in a container

The vector that `exec_in_container` hands to `execvpe`: the variables of the caller, then the
entries that are asked for. `getenv` takes the first entry for a name.
-/
namespace Dtrun.Exec
set_option autoImplicit false
open Occurrences

/-- `none` is a text that is not Unicode. -/
abbrev OsString := Option String

/-- A variable of the caller, as the standard library splits it at the first `=` that can end a
name. -/
structure Var where
  key : OsString
  value : OsString
  named : ∀ k ∈ key, k ≠ "" ∧ '=' ∉ k.toList.tail
  key_noNul : ∀ k ∈ key, '\x00' ∉ k.toList
  value_noNul : ∀ v ∈ value, '\x00' ∉ v.toList

/-- `CString::new` -/
def cString (s : String) : Option String := if '\x00' ∈ s.toList then none else some s

/-- `std::env::vars`, which panics at what is not Unicode. -/
def vars (environ : List Var) : Option (List (String × String)) :=
  environ.mapM fun var => do some (← var.key, ← var.value)

def entry (pair : String × String) : String := s!"{pair.1}={pair.2}"

def execEnv (environ : List Var) (env : List String) : Option (List String) := do
  let pairs ← vars environ
  some (pairs.filterMap (fun pair => cString (entry pair)) ++ env.filterMap cString)

def valueOf (key entry : String) : Option String :=
  if key.toList ++ ['='] <+: entry.toList then
    some (String.ofList (entry.toList.drop (key.length + 1)))
  else none

def getenv (vector : List String) (key : String) : Option String := vector.findSome? (valueOf key)

def requested (env : List String) (key : String) : Option String :=
  env.reverse.findSome? (valueOf key)

def IsKey (key : String) : Prop := key ≠ "" ∧ '=' ∉ key.toList

/-- Every variable has the value that is asked for last. -/
def TakesEffect (environ : List Var) (env : List String) : Prop :=
  ∀ key value, IsKey key → requested env key = some value →
    ∃ vector, execEnv environ env = some vector ∧ getenv vector key = some value

/-- The caller has the variable already with that value, or has none of this name and the first
entry that can be passed on agrees with the last. -/
def Unshadowed (environ : List Var) (env : List String) : Prop :=
  ∀ key value, IsKey key → requested env key = some value →
    ∃ pairs, vars environ = some pairs ∧
      match pairs.lookup key with
      | some v => v = value
      | none => getenv (env.filterMap cString) key = some value

variable {environ : List Var} {env : List String} {key k v : String}
  {pairs : List (String × String)}

theorem entry_toList : (entry (k, v)).toList = k.toList ++ '=' :: v.toList := by
  change (k ++ "=" ++ v).toList = _
  rw [String.toList_append, String.toList_append, List.append_assoc]
  rfl

/-- A name in which a `=` stands first is no key. -/
theorem entry_prefix_iff (hKey : IsKey key) (hNamed : k ≠ "" ∧ '=' ∉ k.toList.tail) :
    key.toList ++ ['='] <+: (entry (k, v)).toList ↔ key = k := by
  rw [entry_toList]
  by_cases hSign : '=' ∈ k.toList
  · have hFirst : ∃ rest, k.toList = '=' :: rest := by
      cases hk : k.toList with
      | nil =>
        rw [hk] at hSign
        cases hSign
      | cons c rest =>
        rw [hk, List.tail_cons] at hNamed
        rw [hk] at hSign
        rw [(List.mem_cons.mp hSign).resolve_right hNamed.2]
        exact ⟨rest, rfl⟩
    obtain ⟨rest, hk⟩ := hFirst
    have hne : key ≠ k := by
      rintro rfl
      exact hKey.2 hSign
    simp only [hne, iff_false]
    obtain ⟨hEmpty, hFree⟩ := hKey
    cases hKeyList : key.toList with
    | nil => exact absurd (String.toList_eq_nil_iff.mp hKeyList) hEmpty
    | cons c l =>
      rw [hKeyList, List.mem_cons, not_or] at hFree
      rw [hk, List.cons_append, List.cons_append, List.cons_prefix_cons]
      exact fun h => hFree.1 h.1.symm
  · rw [append_prefix_iff hKey.2 hSign, String.toList_inj]

theorem valueOf_entry (hKey : IsKey key) (hNamed : k ≠ "" ∧ '=' ∉ k.toList.tail) :
    valueOf key (entry (k, v)) = if key = k then some v else none := by
  rw [valueOf]
  by_cases hEq : key = k
  · rw [if_pos ((entry_prefix_iff hKey hNamed).mpr hEq), if_pos hEq, hEq, entry_toList]
    simp [← String.length_toList]
  · rw [if_neg (mt (entry_prefix_iff hKey hNamed).mp hEq), if_neg hEq]

theorem vars_cons_iff {var : Var} : vars (var :: environ) = some pairs ↔
    ∃ k v rest, var.key = some k ∧ var.value = some v ∧ vars environ = some rest ∧
      pairs = (k, v) :: rest := by
  rw [vars, List.mapM_cons]
  cases var.key with
  | none => simp
  | some k =>
    cases var.value with
    | none => simp
    | some v =>
      rw [vars]
      cases environ.mapM fun var => do some (← var.key, ← var.value) with
      | none => simp
      | some rest => simp [eq_comm]

theorem getenv_vars (hKey : IsKey key) (h : vars environ = some pairs) :
    getenv (pairs.filterMap fun pair => cString (entry pair)) key = pairs.lookup key := by
  induction environ generalizing pairs with
  | nil =>
    cases h
    rfl
  | cons var environ ih =>
    obtain ⟨k, v, rest, hk, hv, hRest, rfl⟩ := vars_cons_iff.mp h
    have hClean : cString (entry (k, v)) = some (entry (k, v)) := by
      have hNul : '\x00' ∉ (entry (k, v)).toList := by
        rw [entry_toList, List.mem_append, List.mem_cons, not_or, not_or]
        exact ⟨var.key_noNul k hk, by decide, var.value_noNul v hv⟩
      rw [cString, if_neg hNul]
    have hIh : (rest.filterMap fun pair => cString (entry pair)).findSome? (valueOf key) =
        rest.lookup key := ih hRest
    rw [getenv, List.filterMap_cons, hClean, List.findSome?_cons,
      valueOf_entry hKey (var.named k hk), List.lookup_cons, hIh]
    by_cases hEq : key = k
    · simp [hEq]
    · simp [hEq, beq_false_of_ne hEq]

theorem getenv_execEnv (hKey : IsKey key) (h : vars environ = some pairs) :
    ∃ vector, execEnv environ env = some vector ∧
      getenv vector key = (pairs.lookup key).or (getenv (env.filterMap cString) key) := by
  refine ⟨_, congrArg (Option.bind · _) h, ?_⟩
  rw [getenv, List.findSome?_append]
  exact congrArg (Option.or · _) (getenv_vars hKey h)

theorem takesEffect_iff (environ : List Var) (env : List String) :
    TakesEffect environ env ↔ Unshadowed environ env := by
  refine forall₄_congr fun key value hKey _ => ?_
  cases hVars : vars environ with
  | none => simp [execEnv, hVars]
  | some pairs =>
    obtain ⟨vector, hVector, hValue⟩ := @getenv_execEnv environ env key pairs hKey hVars
    rw [hVector]
    simp only [Option.some_inj, exists_eq_left', hValue]
    cases pairs.lookup key with
    | none => rfl
    | some v => simp

/-- The variable `MODE` of the caller, which is `host`. -/
def modeVar : Var where
  key := some "MODE"
  value := some "host"
  named := by
    rintro k ⟨⟩
    decide
  key_noNul := by
    rintro k ⟨⟩
    decide
  value_noNul := by
    rintro v ⟨⟩
    decide

/-- With `MODE=debug` asked for, the caller's own value is the first in the vector. -/
theorem not_takesEffect : ¬ ∀ (environ : List Var) (env : List String),
    TakesEffect environ env := by
  intro h
  have hAsked : requested ["MODE=debug"] "MODE" = some "debug" := by decide
  obtain ⟨vector, hVector, hValue⟩ :=
    h [modeVar] ["MODE=debug"] "MODE" "debug" (by rw [IsKey]; decide) hAsked
  have hPassed : execEnv [modeVar] ["MODE=debug"] = some ["MODE=host", "MODE=debug"] := by decide
  rw [hPassed, Option.some_inj] at hVector
  subst hVector
  revert hValue
  decide

end Dtrun.Exec
