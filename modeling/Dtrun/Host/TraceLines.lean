import Dtrun.Host.TraceFile
import Dtrun.Library.Json
import Dtrun.Library.Lines
import Dtrun.Library.Utf8

/-! # The text of trace.jsonl

Each entry is one line of JSON. A reader that takes the file line by line, whenever it does and
whatever the container has put out, gets the entries in order up to some point, and never one that
is not there. What turns a value into bytes and back is left open, up to what is relied on in it.
-/
namespace Dtrun.TraceFile
set_option autoImplicit false
open Lines

def NEWLINE : UInt8 := 0x0a

/-- `serde_json` on values: what `json!` makes of them, `Value::get`, `to_string`, and `from_slice`
at the other end. -/
structure Serde (V : Type) where
  null : V
  bool : Bool → V
  num : Int → V
  str : String → V
  object : List (String × V) → V
  get : String → V → Option V
  toString : V → List UInt8
  fromSlice : List UInt8 → Option V
  /-- Of two fields with one key the later one counts. -/
  get_object : ∀ key fields, get key (object fields) = fields.reverse.lookup key
  round : ∀ v, fromSlice (toString v) = some v
  /-- White space after a value is passed over. -/
  trailing : ∀ v, fromSlice (toString v ++ [NEWLINE]) = some v
  /-- Control characters are escaped, and nothing is put on a line of its own. -/
  oneLine : ∀ v, NEWLINE ∉ toString v
  /-- An object cut short is refused. -/
  cut : ∀ fields bytes, bytes <+: toString (object fields) → bytes ≠ toString (object fields) →
    fromSlice bytes = none

namespace Serde

variable {V : Type} (serde : Serde V)

theorem toString_injective {v v' : V} (h : serde.toString v = serde.toString v') : v = v' := by
  have hRound := serde.round v
  rw [h, serde.round v'] at hRound
  exact (Option.some.inj hRound).symm

/-- An empty text would be a part of the text of any other object. -/
theorem fromSlice_nil : serde.fromSlice [] = none := by
  by_contra hRead
  have hEmpty (fields : List (String × V)) : serde.toString (serde.object fields) = [] := by
    by_contra hText
    exact hRead (serde.cut fields [] List.nil_prefix (Ne.symm hText))
  have hSame : serde.object [] = serde.object [("", serde.null)] :=
    serde.toString_injective ((hEmpty _).trans (hEmpty _).symm)
  have hGet := congrArg (serde.get "") hSame
  rw [serde.get_object, serde.get_object] at hGet
  cases hGet

end Serde

section Text

variable {V : Type} (serde : Serde V)

def valueJson : Value → V
  | .null => serde.null
  | .bool b => serde.bool b
  | .num n => serde.num n
  | .str s => serde.str s

def Field.toJson : Field → V
  | .value v => valueJson serde v
  | .object fields => serde.object (fields.map fun f => (f.1, valueJson serde f.2))

def Entry.toJson (e : Entry) : V := serde.object (e.json.map fun f => (f.1, f.2.toJson serde))

/-- What `trace_event` appends. -/
def Entry.line (e : Entry) : List UInt8 := serde.toString (e.toJson serde) ++ [NEWLINE]

def text (file : List Entry) : List UInt8 := file.flatMap (Entry.line serde)

/-- The objects on the lines of a text, but for lines that are none. -/
def readTrace (bytes : List UInt8) : List V := (lines NEWLINE bytes).filterMap serde.fromSlice

/-- What is wholly there. -/
structure Shows (file : List Entry) (t : List UInt8) (n : Nat) : Prop where
  le : n ≤ file.length
  read : readTrace serde t = (file.take n).map (Entry.toJson serde)
  whole : ∀ m ≤ file.length, (text serde (file.take m)).length ≤ t.length → m ≤ n

/-- What the object of an entry says. -/
structure Tells (e : Entry) (v : V) : Prop where
  record : ∀ r, e = .record r → serde.get "seq" v = some (serde.num r.seq) ∧
    serde.get "event" v = some (serde.str r.event) ∧
    ∃ detail, serde.get "detail" v = some detail ∧
      ∀ key, serde.get key detail = (r.detail.reverse.lookup key).map (valueJson serde)
  output : ∀ stream line, e = .output stream line →
    serde.get "event" v = some (serde.str stream) ∧ serde.get "line" v = some (serde.str line)

end Text

variable {V : Type} {serde : Serde V} {e : Entry} {file : List Entry} {t : List UInt8}

theorem readTrace_line (e : Entry) (t : List UInt8) :
    readTrace serde (e.line serde ++ t) = e.toJson serde :: readTrace serde t := by
  have hParse : serde.fromSlice (e.line serde) = some (e.toJson serde) := serde.trailing _
  have hLine : e.line serde ++ t = serde.toString (e.toJson serde) ++ NEWLINE :: t := by
    rw [Entry.line, List.append_assoc, List.singleton_append]
  have hLines : lines NEWLINE (e.line serde ++ t) = e.line serde :: lines NEWLINE t := by
    cases hText : e.line serde ++ t with
    | nil =>
      rw [hLine] at hText
      cases (List.append_eq_nil_iff.mp hText).2
    | cons b bs =>
      rw [lines_cut, ← hText, hLine, cut_line (serde.oneLine _)]
      rfl
  rw [readTrace, hLines, List.filterMap_cons_some hParse]
  rfl

/-- A line that is not all there is read as nothing, unless only its end is missing. -/
theorem readTrace_cut (h : t <+: serde.toString (e.toJson serde)) :
    readTrace serde t = if t = serde.toString (e.toJson serde) then [e.toJson serde] else [] := by
  have hBreak : NEWLINE ∉ t := fun hMem => serde.oneLine _ (h.subset hMem)
  cases t with
  | nil =>
    rw [if_neg fun hEmpty => ?_]
    · rfl
    · have hRound := serde.round (e.toJson serde)
      rw [← hEmpty, serde.fromSlice_nil] at hRound
      cases hRound
  | cons b bs =>
    rw [readTrace, lines_of_not_mem hBreak]
    split
    · rename_i hWhole
      rw [hWhole, List.filterMap_cons_some (serde.round _)]
      rfl
    · rename_i hCut
      rw [List.filterMap_cons_none (serde.cut _ _ h hCut)]
      rfl

theorem length_text_take (m : Nat) : (text serde ((e :: file).take (m + 1))).length =
    (e.line serde).length + (text serde (file.take m)).length := by
  rw [List.take_succ_cons, text, List.flatMap_cons, List.length_append, ← text]

theorem Shows.next {n : Nat} (h : Shows serde file t n) :
    Shows serde (e :: file) (e.line serde ++ t) (n + 1) where
  le := Nat.succ_le_succ h.le
  read := by rw [readTrace_line, h.read, List.take_succ_cons, List.map_cons]
  whole m hm hThere := by
    cases m with
    | zero => exact Nat.zero_le _
    | succ m =>
      rw [length_text_take, List.length_append, Nat.add_le_add_iff_left] at hThere
      exact Nat.succ_le_succ (h.whole m (Nat.le_of_succ_le_succ hm) hThere)

theorem shows_part (h : t <+: serde.toString (e.toJson serde)) :
    ∃ n, Shows serde (e :: file) t n := by
  have hNone (m : Nat) (hThere : (text serde ((e :: file).take m)).length ≤ t.length) : m = 0 := by
    cases m with
    | zero => rfl
    | succ m =>
      have hLength := h.length_le
      rw [length_text_take, Entry.line, List.length_append, List.length_singleton] at hThere
      omega
  have hRead := readTrace_cut h
  split at hRead
  -- Only the line break is missing.
  · exact ⟨1, Nat.succ_le_succ (Nat.zero_le _), hRead, fun m _ hThere =>
      (hNone m hThere).symm ▸ Nat.zero_le 1⟩
  · exact ⟨0, Nat.zero_le _, hRead, fun m _ hThere => Nat.le_of_eq (hNone m hThere)⟩

theorem shows_of_prefix (h : t <+: text serde file) : ∃ n, Shows serde file t n := by
  induction file generalizing t with
  | nil =>
    obtain rfl := List.prefix_nil.mp h
    exact ⟨0, Nat.le_refl _, rfl, fun m hm _ => hm⟩
  | cons e file ih =>
    have onward {t' : List UInt8} (hRest : t' <+: text serde file) :
        ∃ n, Shows serde (e :: file) (e.line serde ++ t') n := by
      obtain ⟨n, hn⟩ := ih hRest
      exact ⟨n + 1, hn.next⟩
    rw [text, List.flatMap_cons, ← text] at h
    rcases List.prefix_or_prefix_of_prefix h
        (List.prefix_append (e.line serde) (text serde file)) with hShort | ⟨t', rfl⟩
    · rcases List.prefix_concat_iff.mp hShort with rfl | hPart
      · obtain ⟨n, hn⟩ := onward List.nil_prefix
        exact ⟨n, by rwa [List.append_nil] at hn⟩
      · exact shows_part hPart
    · exact onward ((List.prefix_append_right_inj _).mp h)

theorem lookup_valueJson (key : String) (fields : List (String × Value)) :
    (fields.map fun f => (f.1, valueJson serde f.2)).lookup key =
      (fields.lookup key).map (valueJson serde) := by
  induction fields with
  | nil => rfl
  | cons f fields ih =>
    rw [List.map_cons, List.lookup_cons, List.lookup_cons]
    split
    · rfl
    · exact ih

theorem tells (e : Entry) : Tells serde e (e.toJson serde) where
  record r hEntry := by
    subst hEntry
    refine ⟨serde.get_object "seq" _, serde.get_object "event" _, _, serde.get_object "detail" _,
      fun key => ?_⟩
    rw [Field.toJson, serde.get_object, ← List.map_reverse, lookup_valueJson]
  output stream line hEntry := by
    subst hEntry
    exact ⟨serde.get_object "event" _, serde.get_object "line" _⟩

/-- However far the file has been written, its lines give the first entries, all that are wholly
there among them; and each object says what its entry does. -/
theorem trace_reads_back {V : Type} (serde : Serde V) (file : List Entry) (k : Nat) :
    ∃ n, Shows serde file ((text serde file).take k) n ∧
      ∀ e ∈ file.take n, Tells serde e (e.toJson serde) := by
  obtain ⟨n, hShows⟩ := shows_of_prefix (List.take_prefix k (text serde file))
  exact ⟨n, hShows, fun e _ => tells e⟩

section Plain

open Json Utf8

theorem newline_not_mem (v : Json) : NEWLINE ∉ encode (write compact 0 v) := by
  intro hMem
  have hBreak : '\n' ∈ write compact 0 v := ascii_mem_encode (by decide) hMem
  have hVisible := write_visible (w := compact) (fun _ => List.forall_mem_nil _)
    (List.forall_mem_nil _) v 0 '\n' hBreak
  exact absurd hVisible (by decide)

/-- Without blanks, and strict. -/
def Serde.plain : Serde Json where
  null := .null
  bool := .bool
  num := .num
  str := .str
  object := Json.object
  get := Json.get
  toString v := encode (write compact 0 v)
  fromSlice bytes := (decode bytes).bind Json.parse
  get_object := Json.get_object
  round v := by
    have hParse : Json.parse (write compact 0 v ++ []) = some v :=
      parse_write compact v (List.forall_mem_nil _)
    rw [List.append_nil] at hParse
    rw [decode_eq_some_iff.mpr rfl, Option.bind_some, hParse]
  trailing v := by
    have hText : encode (write compact 0 v ++ ['\n']) =
        encode (write compact 0 v) ++ [NEWLINE] := encode_append
    rw [decode_eq_some_iff.mpr hText, Option.bind_some]
    exact parse_write compact v (List.all_eq_true.mp (by decide))
  oneLine := newline_not_mem
  cut fields bytes hPrefix hCut := by
    cases hText : decode bytes with
    | none => rfl
    | some text =>
      rw [decode_eq_some_iff] at hText
      subst hText
      exact parse_cut (prefix_of_encode hPrefix) fun hWhole => hCut (congrArg encode hWhole)

/-- A line of one character, of which one byte of two is there. -/
def shownFile : List Entry := [.output "stdout" "é"]

theorem trace_reads_back_cut :
    (text Serde.plain shownFile)[26]? = some 0xc3 ∧
      Shows Serde.plain shownFile ((text Serde.plain shownFile).take 27) 0 := by
  obtain ⟨n, hShows, _⟩ := trace_reads_back Serde.plain shownFile 27
  have hRead : readTrace Serde.plain ((text Serde.plain shownFile).take 27) = [] := by
    decide +kernel
  have hNone : n = 0 := by
    have hLength := congrArg List.length (hRead.symm.trans hShows.read)
    have hMost := hShows.le
    rw [List.length_nil, List.length_map, List.length_take] at hLength
    omega
  exact ⟨by decide +kernel, hNone ▸ hShows⟩

end Plain

end Dtrun.TraceFile
