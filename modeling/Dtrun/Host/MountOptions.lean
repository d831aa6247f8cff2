import Dtrun.Host.Mounts
import Dtrun.Library.Occurrences

/-! # Mount options

Two loops read the `options` of a mount: one takes words for flags, the other leaves words out of
the data string. What the last word of a pair says, and which words neither loop takes up.
-/
namespace Dtrun.Mounts
set_option autoImplicit false
open Oci Occurrences

variable {m : Mount} {flags : MsFlags} {opt : String}

theorem nosuid_option :
    (flags.option opt).MS_NOSUID = toggle "nosuid" "suid" flags.MS_NOSUID opt := by
  unfold MsFlags.option
  split <;> simp_all [toggle]

theorem nodev_option :
    (flags.option opt).MS_NODEV = toggle "nodev" "dev" flags.MS_NODEV opt := by
  unfold MsFlags.option
  split <;> simp_all [toggle]

theorem noexec_option :
    (flags.option opt).MS_NOEXEC = toggle "noexec" "exec" flags.MS_NOEXEC opt := by
  unfold MsFlags.option
  split <;> simp_all [toggle]

/-- A flag that each option toggles is set when its last word sets it. -/
theorem parseMountFlags_toggle {flag : MsFlags → Bool} {on off : String} (hStart : flag {} = false)
    (hOption : ∀ flags opt, flag (flags.option opt) = toggle on off (flag flags) opt)
    (hne : off ≠ on) (m : Mount) :
    flag (parseMountFlags m) = true ↔ lastOf on off (m.options.getD []) = some on := by
  have hFold : (m.options.getD []).foldl (toggle on off) (flag {}) =
      flag ((m.options.getD []).foldl MsFlags.option {}) :=
    List.foldl_hom flag fun flags opt => (hOption flags opt).symm
  rw [parseMountFlags, ← hFold, hStart, foldl_toggle hne]

/-- Of two words for one flag the last one counts. -/
structure LaterOverride (m : Mount) : Prop where
  rdonly : (parseMountFlags m).MS_RDONLY = true ↔
    lastOf "ro" "rw" (m.options.getD []) = some "ro"
  nosuid : (parseMountFlags m).MS_NOSUID = true ↔
    lastOf "nosuid" "suid" (m.options.getD []) = some "nosuid"
  nodev : (parseMountFlags m).MS_NODEV = true ↔
    lastOf "nodev" "dev" (m.options.getD []) = some "nodev"
  noexec : (parseMountFlags m).MS_NOEXEC = true ↔
    lastOf "noexec" "exec" (m.options.getD []) = some "noexec"

/-- The later word counts everywhere exactly when no `rw` comes after the last `ro`. -/
theorem laterOverride_iff : LaterOverride m ↔
    ("ro" ∈ m.options.getD [] → "rw" ∉ afterLast "ro" (m.options.getD [])) := by
  have hLast := lastOf_eq_some_iff (show "rw" ≠ "ro" by decide) (m.options.getD [])
  constructor
  · intro h hRo
    exact (hLast.mp (h.rdonly.mp (parseMountFlags_rdonly.mpr hRo))).2
  · intro h
    refine ⟨?_, ?_, ?_, ?_⟩
    · rw [parseMountFlags_rdonly, hLast]
      exact ⟨fun hRo => ⟨hRo, h hRo⟩, And.left⟩
    · exact parseMountFlags_toggle rfl (fun _ _ => nosuid_option) (by decide) m
    · exact parseMountFlags_toggle rfl (fun _ _ => nodev_option) (by decide) m
    · exact parseMountFlags_toggle rfl (fun _ _ => noexec_option) (by decide) m

/-- A bind that is to be read-only, and then writable again. -/
def reopened : Mount := { destination := "/data", options := some ["bind", "ro", "rw"] }

theorem not_laterOverride : ¬ ∀ m : Mount, LaterOverride m := by
  intro hAll
  have hFlag : (parseMountFlags reopened).MS_RDONLY = true := by decide +kernel
  have hLast : lastOf "ro" "rw" (reopened.options.getD []) = some "rw" := by decide +kernel
  exact absurd (hLast.symm.trans ((hAll reopened).rdonly.mp hFlag)) (by decide)

/-- The words that ask for what `mount(2)` does anyway. -/
def DEFAULTS : List String :=
  ["rw", "suid", "exec", "dev", "relatime", "norelatime", "nostrictatime", "nolazytime"]

/-- The words left out of the data for which there is no flag. -/
def UNTRANSLATED : List String := ["nosymfollow", "strictatime", "lazytime"]

def Translated (opt : String) : Prop := ({} : MsFlags).option opt ≠ {}

instance (opt : String) : Decidable (Translated opt) := inferInstanceAs (Decidable (_ ≠ _))

/-- The list that `parse_mount_data` collects. -/
def mountData (m : Mount) : List String := (m.options.getD []).filter (· ∉ NOT_DATA)

def joinData (data : List String) : Option String :=
  if data = [] then none else some (",".intercalate data)

theorem parseMountData_eq : parseMountData m = joinData (mountData m) := by
  rw [parseMountData, mountData, joinData]
  cases m.options with
  | none => rfl
  | some opts => rfl

theorem mem_notData_of_translated (h : Translated opt) : opt ∈ NOT_DATA := by
  by_contra hData
  refine h ?_
  unfold MsFlags.option
  split
  case h_19 => rfl
  all_goals exact absurd (by decide) hData

/-- The table of what is no data is that of what has a flag, but for three words. -/
theorem not_mem_notData_iff (hDefault : opt ∉ DEFAULTS) (hOpt : opt ∉ UNTRANSLATED) :
    opt ∉ NOT_DATA ↔ ¬ Translated opt := by
  have hTable : ∀ opt ∈ NOT_DATA, opt ∈ DEFAULTS ∨ opt ∈ UNTRANSLATED ∨ Translated opt := by
    decide +kernel
  constructor
  · exact fun hData h => hData (mem_notData_of_translated h)
  · intro hNot hData
    exact (hTable opt hData).elim hDefault fun h => h.elim hOpt hNot

/-- What an option asks for is in the flags or in the data, and the data are all that is not in the
flags. -/
structure Complementary (m : Mount) : Prop where
  placed : ∀ opt ∈ m.options.getD [], opt ∉ DEFAULTS → Xor (Translated opt) (opt ∈ mountData m)
  data : parseMountData m =
    joinData ((m.options.getD []).filter fun opt => opt ∉ DEFAULTS ∧ ¬ Translated opt)

theorem Complementary.not_mem (h : Complementary m) (hMem : opt ∈ m.options.getD []) :
    opt ∉ UNTRANSLATED := by
  have hLost : ∀ opt ∈ UNTRANSLATED, opt ∉ DEFAULTS ∧ opt ∈ NOT_DATA ∧ ¬ Translated opt := by
    decide +kernel
  intro hOpt
  obtain ⟨hDefault, hData, hFlag⟩ := hLost opt hOpt
  rcases h.placed opt hMem hDefault with ⟨hTranslated, _⟩ | ⟨hIn, _⟩
  · exact hFlag hTranslated
  · exact of_decide_eq_true (List.mem_filter.mp hIn).2 hData

theorem complementary_iff :
    Complementary m ↔ ∀ opt ∈ m.options.getD [], opt ∉ UNTRANSLATED := by
  constructor
  · intro h opt hMem
    exact h.not_mem hMem
  · intro h
    constructor
    · intro opt hMem hDefault
      have hTable := not_mem_notData_iff hDefault (h opt hMem)
      by_cases hTranslated : Translated opt
      · refine .inl ⟨hTranslated, fun hIn => ?_⟩
        exact of_decide_eq_true (List.mem_filter.mp hIn).2 (mem_notData_of_translated hTranslated)
      · refine .inr ⟨List.mem_filter.mpr ⟨hMem, ?_⟩, hTranslated⟩
        exact decide_eq_true (hTable.mpr hTranslated)
    · have hDefaults : ∀ opt ∈ DEFAULTS, opt ∈ NOT_DATA := by decide +kernel
      rw [parseMountData_eq, mountData]
      congr 1
      apply List.filter_congr
      intro opt hMem
      rw [decide_eq_decide]
      by_cases hDefault : opt ∈ DEFAULTS
      · simp [hDefault, hDefaults opt hDefault]
      · rw [not_mem_notData_iff hDefault (h opt hMem)]
        simp [hDefault]

/-- `/dev` as the default config mounts it. -/
def defaultDev : Mount where
  destination := "/dev"
  fstype := some "tmpfs"
  source := some "tmpfs"
  options := some ["nosuid", "strictatime", "mode=755", "size=65536k"]

theorem not_complementary : ¬ ∀ m : Mount, Complementary m := by
  intro hAll
  have hMem : "strictatime" ∈ defaultDev.options.getD [] := by decide
  exact (hAll defaultDev).not_mem hMem (by decide)

end Dtrun.Mounts
