import Mathlib.Data.List.AList
import Mathlib.Logic.Embedding.Basic

/-! # Finite maps with plain values

Association lists without repeated keys, all values of one type. `get` is `lookup` at that type.
`filterMapValues` changes values and drops keys in one pass: a hash map's `retain` after a pass over
its values.
-/
namespace Dtrun.FiniteMap
set_option autoImplicit false

variable {κ ν : Type}

abbrev Entry (κ ν : Type) := Σ _ : κ, ν

abbrev Map (κ ν : Type) := AList fun _ : κ => ν

def mapEntry (f : ν → Option ν) (e : Entry κ ν) : Option (Entry κ ν) :=
  match f e.2 with
  | none => none
  | some v => some ⟨e.1, v⟩

theorem keys_filterMap_sublist (f : ν → Option ν) (entries : List (Entry κ ν)) :
    (entries.filterMap (mapEntry f)).keys.Sublist entries.keys := by
  induction entries with
  | nil => exact List.Sublist.refl _
  | cons e rest ih =>
    cases h : f e.2 with
    | none => simpa [mapEntry, h] using ih.cons e.1
    | some v => simpa [mapEntry, h] using ih.cons_cons e.1

def filterMapValues (f : ν → Option ν) (m : Map κ ν) : Map κ ν where
  entries := m.entries.filterMap (mapEntry f)
  nodupKeys := List.Nodup.sublist (keys_filterMap_sublist f m.entries) m.nodupKeys

variable [DecidableEq κ]

namespace Map

def get (m : Map κ ν) (a : κ) : Option ν := AList.lookup a m

@[simp] theorem get_empty (a : κ) : (∅ : Map κ ν).get a = none := rfl

@[simp] theorem get_insert_self (m : Map κ ν) (a : κ) (v : ν) : get (m.insert a v) a = some v :=
  AList.lookup_insert m

theorem get_insert_ne (m : Map κ ν) {a b : κ} (v : ν) (h : b ≠ a) :
    get (m.insert a v) b = m.get b := AList.lookup_insert_ne h

theorem get_insert (m : Map κ ν) (a b : κ) (v : ν) :
    get (m.insert a v) b = if b = a then some v else m.get b := by
  split
  · rename_i h
    rw [h, get_insert_self]
  · rename_i h
    exact get_insert_ne m v h

@[simp] theorem get_erase_self (m : Map κ ν) (a : κ) : get (m.erase a) a = none :=
  AList.lookup_erase a m

theorem get_erase_ne (m : Map κ ν) {a b : κ} (h : b ≠ a) : get (m.erase a) b = m.get b :=
  AList.lookup_erase_ne h

theorem get_erase (m : Map κ ν) (a b : κ) :
    get (m.erase a) b = if b = a then none else m.get b := by
  split
  · rename_i h
    rw [h, get_erase_self]
  · rename_i h
    exact get_erase_ne m h

theorem erase_eq_self {m : Map κ ν} {a : κ} (h : m.get a = none) : m.erase a = m :=
  AList.ext (List.kerase_of_notMem_keys (AList.lookup_eq_none.mp h))

theorem get_singleton (a b : κ) (v : ν) :
    get (AList.singleton a v) b = if b = a then some v else none := by
  rw [← AList.insert_empty]
  exact get_insert ∅ a b v

theorem get_eq_some_iff {m : Map κ ν} {a : κ} {v : ν} :
    m.get a = some v ↔ (⟨a, v⟩ : Entry κ ν) ∈ m.entries :=
  AList.mem_lookup_iff

end Map

theorem dlookup_filterMap (f : ν → Option ν) (a : κ) (entries : List (Entry κ ν))
    (hNodup : entries.NodupKeys) :
    (entries.filterMap (mapEntry f)).dlookup a = (entries.dlookup a : Option ν).bind f := by
  induction entries with
  | nil => rfl
  | cons e rest ih =>
    obtain ⟨key, value⟩ := e
    obtain ⟨hKey, hRest⟩ := List.nodupKeys_cons.mp hNodup
    by_cases hEq : a = key
    · subst hEq
      have hNone : (rest.dlookup a : Option ν) = none := List.dlookup_eq_none.mpr hKey
      cases h : f value with
      | none => simpa [mapEntry, h, hNone] using ih hRest
      | some v => simp [mapEntry, h]
    · have hCons : ∀ (v : ν) (tail : List (Entry κ ν)),
          List.dlookup a (⟨key, v⟩ :: tail) = tail.dlookup a :=
        fun v tail => List.dlookup_cons_ne tail ⟨key, v⟩ hEq
      cases h : f value with
      | none => simpa [mapEntry, h, hCons] using ih hRest
      | some v => simpa [mapEntry, h, hCons] using ih hRest

@[simp] theorem get_filterMapValues (f : ν → Option ν) (m : Map κ ν) (a : κ) :
    (filterMapValues f m).get a = (m.get a).bind f :=
  dlookup_filterMap f a m.entries m.nodupKeys

def renameEntry {κ' : Type} (ρ : κ → κ') (e : Entry κ ν) : Entry κ' ν := ⟨ρ e.1, e.2⟩

def changeEntry {ν' : Type} (f : ν → ν') (e : Entry κ ν) : Entry κ ν' := ⟨e.1, f e.2⟩

section Renaming

variable {κ' ν' : Type} (ρ : κ ↪ κ') (f : ν → ν')

def renameKeys (m : Map κ ν) : Map κ' ν where
  entries := m.entries.map (renameEntry ρ)
  nodupKeys := by
    have hKeys : (m.entries.map (renameEntry ρ)).keys = m.entries.keys.map ρ := by
      simp [List.keys, renameEntry]
    rw [List.NodupKeys, hKeys]
    exact m.nodupKeys.map ρ.injective

def mapValues (m : Map κ ν) : Map κ ν' where
  entries := m.entries.map (changeEntry f)
  nodupKeys := by
    have hKeys : (m.entries.map (changeEntry f)).keys = m.entries.keys := by
      simp [List.keys, changeEntry]
    rw [List.NodupKeys, hKeys]
    exact m.nodupKeys

variable [DecidableEq κ']

theorem get_renameKeys (m : Map κ ν) (a : κ) : Map.get (renameKeys ρ m) (ρ a) = m.get a := by
  change (m.entries.map (renameEntry ρ)).dlookup (ρ a) = m.entries.dlookup a
  induction m.entries with
  | nil => rfl
  | cons e rest ih =>
    obtain ⟨key, value⟩ := e
    by_cases hEq : a = key
    · subst hEq
      rw [List.map_cons, renameEntry, List.dlookup_cons_eq, List.dlookup_cons_eq]
    · have hNe : ρ a ≠ ρ key := fun hSame => hEq (ρ.injective hSame)
      rw [List.map_cons, renameEntry, List.dlookup_cons_ne _ _ hNe, List.dlookup_cons_ne _ _ hEq]
      exact ih

theorem kerase_renameEntry (a : κ) (entries : List (Entry κ ν)) :
    (entries.map (renameEntry ρ)).kerase (ρ a) = (entries.kerase a).map (renameEntry ρ) := by
  simp only [List.kerase, List.eraseP_map]
  congr 2
  funext e
  simp [renameEntry]

theorem renameKeys_erase (m : Map κ ν) (a : κ) :
    renameKeys ρ (m.erase a) = (renameKeys ρ m).erase (ρ a) :=
  AList.ext (kerase_renameEntry ρ a m.entries).symm

theorem renameKeys_insert (m : Map κ ν) (a : κ) (v : ν) :
    renameKeys ρ (m.insert a v) = (renameKeys ρ m).insert (ρ a) v := by
  apply AList.ext
  change renameEntry ρ ⟨a, v⟩ :: _ = ⟨ρ a, v⟩ :: _
  rw [← kerase_renameEntry]
  rfl

theorem get_mapValues (m : Map κ ν) (a : κ) : Map.get (mapValues f m) a = (m.get a).map f := by
  change (m.entries.map (changeEntry f)).dlookup a = (m.entries.dlookup a : Option ν).map f
  induction m.entries with
  | nil => rfl
  | cons e rest ih =>
    obtain ⟨key, value⟩ := e
    by_cases hEq : a = key
    · subst hEq
      rw [List.map_cons, changeEntry, List.dlookup_cons_eq, List.dlookup_cons_eq]
      rfl
    · rw [List.map_cons, changeEntry, List.dlookup_cons_ne _ _ hEq, List.dlookup_cons_ne _ _ hEq]
      exact ih

theorem kerase_changeEntry (a : κ) (entries : List (Entry κ ν)) :
    (entries.map (changeEntry f)).kerase a = (entries.kerase a).map (changeEntry f) := by
  simp only [List.kerase, List.eraseP_map]
  rfl

theorem mapValues_erase (m : Map κ ν) (a : κ) :
    mapValues f (m.erase a) = (mapValues f m).erase a :=
  AList.ext (kerase_changeEntry f a m.entries).symm

theorem mapValues_insert (m : Map κ ν) (a : κ) (v : ν) :
    mapValues f (m.insert a v) = (mapValues f m).insert a (f v) := by
  apply AList.ext
  change changeEntry f ⟨a, v⟩ :: _ = ⟨a, f v⟩ :: _
  rw [← kerase_changeEntry]
  rfl

omit [DecidableEq κ] [DecidableEq κ'] in
theorem filterMapValues_mapValues {g : ν → Option ν} {g' : ν' → Option ν'}
    (h : ∀ v, g' (f v) = (g v).map f) (m : Map κ ν) :
    filterMapValues g' (mapValues f m) = mapValues f (filterMapValues g m) := by
  apply AList.ext
  change (m.entries.map (changeEntry f)).filterMap (mapEntry g') =
    (m.entries.filterMap (mapEntry g)).map (changeEntry f)
  rw [List.filterMap_map, List.map_filterMap]
  congr 1
  funext e
  simp only [Function.comp_apply, mapEntry, changeEntry, h]
  cases g e.2 with
  | none => rfl
  | some v => rfl

omit [DecidableEq κ'] in
theorem renameKeys_congr {ρ σ : κ ↪ κ'} {m : Map κ ν} (h : ∀ a, m.get a ≠ none → ρ a = σ a) :
    renameKeys ρ m = renameKeys σ m := by
  refine AList.ext (List.map_congr_left fun e hMem => ?_)
  obtain ⟨a, v⟩ := e
  have hGet : m.get a = some v := Map.get_eq_some_iff.mpr hMem
  rw [renameEntry, renameEntry, h a (by simp [hGet])]

omit [DecidableEq κ'] in
theorem mapValues_congr {f g : ν → ν'} {m : Map κ ν} (h : ∀ a v, m.get a = some v → f v = g v) :
    mapValues f m = mapValues g m := by
  refine AList.ext (List.map_congr_left fun e hMem => ?_)
  obtain ⟨a, v⟩ := e
  rw [changeEntry, changeEntry, h a v (Map.get_eq_some_iff.mpr hMem)]

end Renaming

end Dtrun.FiniteMap
