import Dtrun.Host.ProcWrites
import Dtrun.Library.Writes

/-! # Kernel parameters

`linux.sysctl` is a hash map, and its entries are written in the order in which it is walked. What
the files under `/proc/sys` hold afterwards, for a kernel that answers a write by what is written
where and not by when.
-/
namespace Dtrun.Child
set_option autoImplicit false
open MountTable Oci Mounts StateExcept Writes

variable {α : Type} (k : Marks α) (env : Env) (place : String → Option (List String))
  (accepts : String → String → Bool)

def Env.steady (env : Env) (place : String → Option (List String))
    (accepts : String → String → Bool) : Env :=
  { env with place := fun _ => place, writes := fun _ => accepts }

/-- The write gets through to the kernel and is not refused there. -/
def Write.lands (w : Write α) : Bool :=
  !k.readonly w.own && !k.readonly w.shared && accepts w.path w.data

def Write.put (w : Write α) (files : List String → String) : List String → String :=
  match place w.path with
  | none => files
  | some p => if w.lands k accepts then Function.update files p w.data else files

def contents (start : List String → String) (writes : List (Write α)) : List String → String :=
  writes.foldl (fun files w => w.put k place accepts files) start

/-- What the loop over the map leaves in the files, and whether it ends well. -/
def sysctlOutcome (start : List String → String) (c : Setup α)
    (sysctls : List (String × String)) : (List String → String) × Bool :=
  match applySysctl k (env.steady place accepts) sysctls c with
  | .ok _ c' => (contents k place accepts start c'.writes, true)
  | .error _ c' => (contents k place accepts start c'.writes, false)

/-- The file that an entry is written to, if the write is accepted. -/
def sysctlTarget (c : Setup α) (entry : String × String) : Option (List String) :=
  match place (sysctlPath entry.1) with
  | none => none
  | some p =>
    let m := c.table.covering p
    if Write.lands k accepts ⟨sysctlPath entry.1, entry.2, m.own, m.shared⟩ then some p else none

variable {k env place accepts} {start : List String → String} {c : Setup α}

theorem contents_append (writes : List (Write α)) (w : Write α) :
    contents k place accepts start (writes ++ [w]) =
      w.put k place accepts (contents k place accepts start writes) := by
  rw [contents, List.foldl_append]
  rfl

theorem write_steady (c : Setup α) (key value : String) : ∃ c',
    write k (env.steady place accepts) (sysctlPath key) value c =
        .ok (sysctlTarget k place accepts c (key, value)).isSome c' ∧
      c'.table = c.table ∧
      contents k place accepts start c'.writes =
        match sysctlTarget k place accepts c (key, value) with
        | none => contents k place accepts start c.writes
        | some p => Function.update (contents k place accepts start c.writes) p value := by
  cases hPlace : place (sysctlPath key) with
  | none =>
    refine ⟨{ c with clock := c.clock + 1 }, ?_, rfl, ?_⟩
    · simp [write, tick, Env.steady, sysctlTarget, hPlace, bind_apply]
    · simp [sysctlTarget, hPlace]
  | some p =>
    let m := c.table.covering p
    let w : Write α := ⟨sysctlPath key, value, m.own, m.shared⟩
    have hTarget : sysctlTarget k place accepts c (key, value) =
        if w.lands k accepts then some p else none := by
      simp only [sysctlTarget, hPlace]
      rfl
    refine ⟨{ c with clock := c.clock + 1, writes := c.writes ++ [w] }, ?_, rfl, ?_⟩
    · have hLands : (if w.lands k accepts then some p else none).isSome = w.lands k accepts := by
        cases w.lands k accepts with
        | true => rfl
        | false => rfl
      rw [hTarget, hLands]
      simp only [write, tick, Env.steady, bind_apply, modifyGet_apply, get_apply, hPlace]
      rfl
    · rw [contents_append, hTarget, Write.put, hPlace]
      cases w.lands k accepts with
      | true => rfl
      | false => rfl

theorem sysctlTarget_congr {c' : Setup α} (h : c'.table = c.table) :
    sysctlTarget k place accepts c' = sysctlTarget k place accepts c := by
  funext entry
  rw [sysctlTarget, sysctlTarget, h]

theorem applySysctl_cons {key value : String} {landed : Bool} {c c' : Setup α}
    (h : write k env (sysctlPath key) value c = .ok landed c') (rest : List (String × String)) :
    applySysctl k env ((key, value) :: rest) c =
      if landed then applySysctl k env rest c' else .error (.sysctl key) c' := by
  have hFirst : (do unless ← write k env (sysctlPath key) value do throw (.sysctl key) :
      SetupM α Unit) c = if landed then .ok () c' else .error (.sysctl key) c' := by
    rw [bind_of_ok h]
    cases landed with
    | true => rfl
    | false => rfl
  change ((do unless ← write k env (sysctlPath key) value do throw (.sysctl key) : SetupM α Unit)
    >>= fun _ => applySysctl k env rest) c = _
  rw [bind_apply, hFirst]
  cases landed with
  | true => rfl
  | false => rfl

/-- The loop is one write after the other, up to the first that is refused. -/
theorem sysctlOutcome_eq (c : Setup α) (sysctls : List (String × String)) :
    sysctlOutcome k env place accepts start c sysctls =
      writeAll (sysctlTarget k place accepts c) Prod.snd sysctls
        (contents k place accepts start c.writes) := by
  induction sysctls generalizing c with
  | nil => rfl
  | cons entry rest ih =>
    obtain ⟨key, value⟩ := entry
    obtain ⟨c', hRun, hTable, hContents⟩ :=
      @write_steady α k env place accepts start c key value
    have hLoop : sysctlOutcome k env place accepts start c ((key, value) :: rest) =
        if (sysctlTarget k place accepts c (key, value)).isSome then
          sysctlOutcome k env place accepts start c' rest
        else (contents k place accepts start c'.writes, false) := by
      rw [sysctlOutcome, applySysctl_cons hRun]
      cases (sysctlTarget k place accepts c (key, value)).isSome with
      | true => rfl
      | false => rfl
    cases hTarget : sysctlTarget k place accepts c (key, value) with
    | none =>
      rw [hTarget] at hContents
      rw [hLoop, hTarget, writeAll_refused hTarget, hContents]
      rfl
    | some p =>
      rw [hTarget] at hContents
      have hUpdated : contents k place accepts start c'.writes =
        Function.update (contents k place accepts start c.writes) p value := hContents
      rw [hLoop, hTarget, writeAll_accepted hTarget, ← hUpdated, ← sysctlTarget_congr hTable]
      exact ih c'

/-- The order of the map does not matter exactly when no write is refused and keys for one file have
one value, or when some write is refused and the others write what is there already. -/
theorem sysctl_orderless_iff (k : Marks α) (env : Env) (place : String → Option (List String))
    (accepts : String → String → Bool) (start : List String → String) (c : Setup α)
    (sysctls : List (String × String)) :
    (∀ l₁ l₂ : List (String × String), l₁.Perm sysctls → l₂.Perm sysctls →
      sysctlOutcome k env place accepts start c l₁ = sysctlOutcome k env place accepts start c l₂) ↔
      Orderless (sysctlTarget k place accepts c) Prod.snd sysctls
        (contents k place accepts start c.writes) := by
  simp only [sysctlOutcome_eq]
  exact orderless_iff.symm

/-- Two keys for one file. -/
def somaxconn : List (String × String) :=
  [("net.core.somaxconn", "256"), ("net/core/somaxconn", "512")]

theorem not_sysctl_orderless : ¬ ∀ (c : Setup Setter) (sysctls : List (String × String)),
    (sysctls.map Prod.fst).Nodup →
      ∀ l₁ l₂ : List (String × String), l₁.Perm sysctls → l₂.Perm sysctls →
        sysctlOutcome Setter.marks plainEnv (plainEnv.place 0) (plainEnv.writes 0)
            (fun _ => "4096") c l₁ =
          sysctlOutcome Setter.marks plainEnv (plainEnv.place 0) (plainEnv.writes 0)
            (fun _ => "4096") c l₂ := by
  intro hAll
  have hSame := hAll { table := Table.start (.other false) } somaxconn (by decide) somaxconn somaxconn.reverse
    (.refl _) (List.reverse_perm _)
  have hFile := congrArg (fun o => o.1 ["proc", "sys", "net", "core", "somaxconn"]) hSame
  exact absurd hFile (by decide +kernel)

end Dtrun.Child
