import Dtrun.Host.Spawn
import Dtrun.Library.Codecs

/-! # The id maps of a container

What stands in the files below `/proc/<child>` at any moment of the setup: they are written in the
order in which the kernel accepts them, and read back as the mappings of the config.
-/
namespace Dtrun.Spawning
set_option autoImplicit false
open FiniteMap Lifecycle Oci Codecs Transition

def wordBefore (stop : Char) (hStop : stop.isDigit = false) : Codec UInt32 :=
  (Codec.natural stop hStop).narrow UInt32.toNat
    (fun n => if n < 2 ^ 32 then some (.ofNat n) else none) fun w => by
      rw [if_pos w.toNat_lt, UInt32.ofNat_toNat]

def mappingLine : Codec LinuxIdMapping :=
  ((wordBefore ' ' rfl).pair ((wordBefore ' ' rfl).pair (wordBefore '\n' rfl))).via
    (fun m => (m.containerId, m.hostId, m.size)) (fun x => ⟨x.1, x.2.1, x.2.2⟩) fun _ => rfl

def readMappings (text : String) : Option (List LinuxIdMapping) :=
  mappingLine.decodeAll text.length text.toList

theorem word_toList (w : UInt32) : (toString w).toList = Nat.toDigits 10 w.toNat := by
  change (Nat.repr w.toNat).toList = _
  rw [Nat.repr, String.toList_ofList]

theorem mappingLine_encode (m : LinuxIdMapping) :
    (s!"{m.containerId} {m.hostId} {m.size}\n").toList = mappingLine.encode m := by
  change (toString m.containerId ++ " " ++ toString m.hostId ++ " " ++ toString m.size ++
    "\n").toList = _
  simp [mappingLine, wordBefore, Codec.via, Codec.pair, Codec.narrow, Codec.natural, word_toList]

theorem mappingLine_encode_ne_nil (m : LinuxIdMapping) : mappingLine.encode m ≠ [] :=
  List.append_ne_nil_of_left_ne_nil
    (List.append_ne_nil_of_right_ne_nil _ (List.cons_ne_nil _ _)) _

theorem formatMappings_toList (mappings : List LinuxIdMapping) :
    (formatMappings mappings).toList = mappings.flatMap mappingLine.encode := by
  have hFold (text : String) : (mappings.foldl (fun text m =>
      text ++ s!"{m.containerId} {m.hostId} {m.size}\n") text).toList =
        text.toList ++ mappings.flatMap mappingLine.encode := by
    induction mappings generalizing text with
    | nil => rw [List.foldl_nil, List.flatMap_nil, List.append_nil]
    | cons m mappings ih =>
      rw [List.foldl_cons, ih, String.toList_append, mappingLine_encode, List.flatMap_cons,
        List.append_assoc]
  exact hFold ""

theorem readMappings_formatMappings (mappings : List LinuxIdMapping) :
    readMappings (formatMappings mappings) = some mappings := by
  have hLength := mappingLine.length_le_flatMap mappingLine_encode_ne_nil mappings
  rw [← formatMappings_toList, String.length_toList] at hLength
  rw [readMappings, formatMappings_toList,
    mappingLine.decodeAll_flatMap mappingLine_encode_ne_nil mappings hLength]

/-- What the config says of the ids, or the one mapping where it says nothing. -/
def uidMappings (ids : Ids) (config : OciConfig) : List LinuxIdMapping :=
  mappingsOr ids.uid ((config.linux.bind LinuxConfig.uidMappings).getD [])

def gidMappings (ids : Ids) (config : OciConfig) : List LinuxIdMapping :=
  mappingsOr ids.gid ((config.linux.bind LinuxConfig.gidMappings).getD [])

/-- The files hold the first of the maps, and those that the parent has yet to write come next. -/
structure InOrder (ids : Ids) (config : OciConfig) (s : Spawn)
    (written rest : List (String × String)) : Prop where
  all : idMaps ids config = written ++ rest
  get : ∀ entry, s.maps.get entry = written.lookup entry
  next : ∀ maps, s.parent = .mapRootUser maps → maps = rest
  start : s.parent = .readReady → written = []

namespace InOrder

variable {texts : Texts} {ids : Ids} {config : OciConfig} {op : Operation} {s t : Spawn}
  {written rest : List (String × String)}

theorem cloned : InOrder ids config .cloned [] (idMaps ids config) where
  all := rfl
  get _ := rfl
  next _ hParent := by cases hParent
  start _ := rfl

theorem congr (h : InOrder ids config s written rest) (hMaps : t.maps = s.maps)
    (hParent : t.parent = s.parent) : InOrder ids config t written rest where
  all := h.all
  get := hMaps ▸ h.get
  next := hParent ▸ h.next
  start := hParent ▸ h.start

theorem leaves (h : InOrder ids config s written rest) (hMaps : t.maps = s.maps)
    (hWriting : ∀ maps, t.parent ≠ .mapRootUser maps) (hStart : t.parent ≠ .readReady) :
    InOrder ids config t written rest where
  all := h.all
  get := hMaps ▸ h.get
  next maps hParent := absurd hParent (hWriting maps)
  start hParent := absurd hParent hStart

/-- A file that is written again is given the same contents. -/
theorem unique {entry contents old : String} {after : List (String × String)}
    (h : InOrder ids config s written ((entry, contents) :: after))
    (hOld : written.lookup entry = some old) : contents = old := by
  obtain ⟨first, last, rfl, _⟩ := List.lookup_eq_some_iff.mp hOld
  have hMem {e : String × String}
      (he : e ∈ first ++ (entry, old) :: last ++ (entry, contents) :: after) :
      e ∈ idMaps ids config := h.all ▸ he
  have hSame := idMaps_unique ids config (entry, contents) (hMem (by simp)) (entry, old)
    (hMem (by simp)) rfl
  exact (Prod.mk.inj hSame).2

theorem parentStep {result : Except Errno Unit} (h : InOrder ids config s written rest)
    (hStep : s.parentStep texts ids config op result = some t) :
    ∃ written rest, InOrder ids config t written rest := by
  cases Spawn.parentStep_turn hStep with
  | starts pipe hParent =>
    obtain rfl := h.start hParent
    refine ⟨[], rest, h.all, h.get, ?_, fun _ => rfl⟩
    rintro _ ⟨⟩
    exact h.all
  | @maps entry contents after hParent =>
    obtain rfl := h.next _ hParent
    refine ⟨written ++ [(entry, contents)], after, ?_, fun name => ?_, ?_, ?_⟩
    · rw [h.all, List.append_assoc, List.singleton_append]
    · rw [Map.get_insert, h.get, List.lookup_append, List.lookup_singleton]
      split
      · rename_i hName
        subst hName
        cases hOld : written.lookup name with
        | none => simp
        | some old => rw [h.unique hOld, Option.some_or]
      · rename_i hName
        simp [hName]
    · rintro _ ⟨⟩
      rfl
    · rintro ⟨⟩
  | mapped _ | tells _ _ | attaches _ | resumes _ | givesUp _ _ =>
    exact ⟨written, rest, h.leaves rfl (fun _ => Parent.noConfusion) Parent.noConfusion⟩
  | goes _ hFollows =>
    cases hFollows <;>
      exact ⟨written, rest, h.leaves rfl (fun _ => Parent.noConfusion) Parent.noConfusion⟩
  | exits _ =>
    refine ⟨written, rest, h.leaves ?_ ?_ ?_⟩
    · unfold Spawn.parentExits
      split <;> rfl
    · unfold Spawn.parentExits
      split <;> exact fun _ => Parent.noConfusion
    · unfold Spawn.parentExits
      split <;> exact Parent.noConfusion

theorem reach {ok : Spawn → Label → Prop} (h : (system texts ids config op).Reach ok s) :
    ∃ written rest, InOrder ids config s written rest := by
  refine h.invariant (I := fun s => ∃ written rest, InOrder ids config s written rest)
    (fun s hInit => ?_) fun s l t _ hs _ hStep => ?_
  · obtain rfl : s = .cloned := hInit
    exact ⟨_, _, cloned⟩
  obtain ⟨written, rest, hs⟩ := hs
  have hStep : s.step texts ids config op l = some t := hStep
  cases l with
  | parent result => exact hs.parentStep hStep
  | child result | exits code | signal sig =>
    obtain ⟨hParent, _, hMaps, _⟩ := Spawn.step_frame (fun _ hEq => by cases hEq) hStep
    exact ⟨written, rest, hs.congr hMaps hParent⟩

end InOrder

/-- The groups are given up before the kernel is asked for a map of them, and the ids of users come
last. Whatever has been written reads back as the mappings of the config, and a child past the
handshake has all of it. -/
theorem id_maps_in_order (texts : Texts) (ids : Ids) (config : OciConfig) (op : Operation)
    (s : Spawn) (h : (system texts ids config op).Reach System.free s) :
    (∀ text, s.maps.get "gid_map" = some text →
      s.maps.get "setgroups" = some "deny\n" ∧ readMappings text = some (gidMappings ids config)) ∧
    (∀ text, s.maps.get "uid_map" = some text →
      s.maps.get "gid_map" ≠ none ∧ readMappings text = some (uidMappings ids config)) ∧
    (s.child.pastHandshake = true → s.maps.get "gid_map" ≠ none ∧ s.maps.get "uid_map" ≠ none) := by
  obtain ⟨written, rest, hAll, hGet, _, _⟩ := InOrder.reach h
  have hWritten : written ∈ (idMaps ids config).inits :=
    (List.mem_inits _ _).mpr ⟨rest, hAll.symm⟩
  simp only [idMaps, mapRootUser, List.inits, List.map_cons, List.map_nil,
    List.mem_cons, List.not_mem_nil, or_false] at hWritten
  simp only [hGet]
  refine ⟨fun text hText => ?_, fun text hText => ?_, fun hPast => ?_⟩
  · rcases hWritten with rfl | rfl | rfl | rfl
    · cases hText
    · cases hText
    · cases hText
      exact ⟨rfl, readMappings_formatMappings _⟩
    · cases hText
      exact ⟨rfl, readMappings_formatMappings _⟩
  · rcases hWritten with rfl | rfl | rfl | rfl
    · cases hText
    · cases hText
    · cases hText
    · cases hText
      exact ⟨Option.some_ne_none _, readMappings_formatMappings _⟩
  · have hAll := (Shaken.reach h).told (.inr hPast)
    simp only [Spawn.MapsWritten, idMaps, mapRootUser, List.forall_mem_cons, hGet] at hAll
    obtain ⟨_, hGids, hUids, _⟩ := hAll
    rw [hGids, hUids]
    exact ⟨Option.some_ne_none _, Option.some_ne_none _⟩

def told : List Label :=
  [.child (.ok ()), .parent (.ok ()), .parent (.ok ()), .parent (.ok ()), .parent (.ok ()),
    .parent (.ok ()), .parent (.ok ()), .child (.ok ())]

theorem id_maps_in_order_told : ∃ s : Spawn, s.child = .setup ∧
    ∃ text, s.maps.get "uid_map" = some text ∧
      readMappings text = some [⟨0, 1000, 1⟩] ∧ s.maps.get "gid_map" ≠ none := by
  have hRun : ((system Spawn.plainTexts Spawn.plainIds Spawn.plainConfig .create).exec System.free
      .cloned told).map (fun s => (s.child, s.maps.get "uid_map")) =
        some (.setup, some "0 1000 1\n") := by decide +kernel
  obtain ⟨s, hExec, hs⟩ := Option.map_eq_some_iff.mp hRun
  obtain ⟨hChild, hText⟩ := Prod.mk.inj hs
  have hReach := System.reach_of_exec rfl hExec
  obtain ⟨_, hUids, _⟩ :=
    id_maps_in_order Spawn.plainTexts Spawn.plainIds Spawn.plainConfig .create s hReach
  obtain ⟨hGids, hRead⟩ := hUids _ hText
  exact ⟨s, hChild, _, hText, hRead, hGids⟩

end Dtrun.Spawning
