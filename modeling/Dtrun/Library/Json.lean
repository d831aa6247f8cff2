import Mathlib.Data.Bool.AllAny
import Mathlib.Data.List.TakeWhile
import Dtrun.Library.Numerals

/-! # JSON as text

Values whose numbers are integers, the texts that a writer makes of them with blanks between the
tokens as it likes, and a reader. What is written is read back, whatever the layout. The text of an
object or an array that is cut short is refused, and no text holds a control character but in its
layout.
-/
namespace Dtrun
set_option autoImplicit false
open Numerals

inductive Json where
  | null
  | bool (b : Bool)
  | num (n : Int)
  | str (s : String)
  | arr (items : List Json)
  | obj (fields : List (String × Json))

namespace Json

/-- Induction on values; what holds of the items and fields is at hand as a whole. -/
theorem ind {P : Json → Prop} (null : P .null) (bool : ∀ b, P (.bool b)) (num : ∀ n, P (.num n))
    (str : ∀ s, P (.str s)) (arr : ∀ items, (∀ v ∈ items, P v) → P (.arr items))
    (obj : ∀ fields, (∀ f ∈ fields, P f.2) → P (.obj fields)) (v : Json) : P v :=
  @Json.rec P (fun items => ∀ v ∈ items, P v) (fun fields => ∀ f ∈ fields, P f.2) (fun f => P f.2)
    null bool num str arr obj (List.forall_mem_nil _) (fun _ _ hv hRest => List.forall_mem_cons.mpr
      ⟨hv, hRest⟩) (List.forall_mem_nil _) (fun _ _ hf hRest => List.forall_mem_cons.mpr
      ⟨hf, hRest⟩) (fun _ _ hv => hv) v

/-! ## Objects -/

/-- The value of a key takes the place of the one it had, and a new key its place in the order. -/
def insert (key : String) (v : Json) : List (String × Json) → List (String × Json)
  | [] => [(key, v)]
  | f :: rest =>
    if key < f.1 then (key, v) :: f :: rest
    else if key = f.1 then (key, v) :: rest
    else f :: insert key v rest

/-- An object that keeps its keys in order. -/
def object (fields : List (String × Json)) : Json :=
  .obj (fields.foldl (fun sorted f => insert f.1 f.2 sorted) [])

def get (key : String) : Json → Option Json
  | .obj fields => fields.lookup key
  | _ => none

/-! ## Writing -/

def BLANKS : List Char := [' ', '\n', '\t', '\r']

def isBlank (c : Char) : Bool := c ∈ BLANKS

/-- Where blanks go: before an item or a field, and before the end, by depth; and after a colon. -/
structure Layout where
  gap : Nat → List Char
  colon : List Char
  gap_blank : ∀ depth, ∀ c ∈ gap depth, isBlank c = true
  colon_blank : ∀ c ∈ colon, isBlank c = true

def compact : Layout where
  gap _ := []
  colon := []
  gap_blank _ := List.forall_mem_nil _
  colon_blank := List.forall_mem_nil _

def ESCAPES : List (Char × Char) :=
  [('"', '"'), ('\\', '\\'), ('\x08', 'b'), ('\t', 't'), ('\n', 'n'), ('\x0c', 'f'), ('\r', 'r')]

def escape (c : Char) : List Char :=
  match ESCAPES.lookup c with
  | some letter => ['\\', letter]
  | none =>
    if c.toNat < 0x20 then
      ['\\', 'u', '0', '0', (c.toNat / 16).digitChar, (c.toNat % 16).digitChar]
    else [c]

def quote (s : String) : List Char := '"' :: s.toList.flatMap escape ++ ['"']

def field (w : Layout) (key : String) (text : List Char) : List Char :=
  quote key ++ ':' :: w.colon ++ text

mutual
def write (w : Layout) (depth : Nat) : Json → List Char
  | .null => "null".toList
  | .bool true => "true".toList
  | .bool false => "false".toList
  | .num n => (toString n).toList
  | .str s => quote s
  | .arr [] => ['[', ']']
  | .arr (v :: rest) =>
    '[' :: w.gap (depth + 1) ++ write w (depth + 1) v ++ writeItems w (depth + 1) rest ++
      w.gap depth ++ [']']
  | .obj [] => ['{', '}']
  | .obj ((key, v) :: rest) =>
    '{' :: w.gap (depth + 1) ++ field w key (write w (depth + 1) v) ++
      writeFields w (depth + 1) rest ++ w.gap depth ++ ['}']
def writeItems (w : Layout) (depth : Nat) : List Json → List Char
  | [] => []
  | v :: rest => ',' :: w.gap depth ++ write w depth v ++ writeItems w depth rest
def writeFields (w : Layout) (depth : Nat) : List (String × Json) → List Char
  | [] => []
  | (key, v) :: rest =>
    ',' :: w.gap depth ++ field w key (write w depth v) ++ writeFields w depth rest
end

/-! ## Reading -/

def skip (text : List Char) : List Char := text.dropWhile isBlank

/-- A numeral without leading zeros, and with neither a fraction nor an exponent behind it. -/
def readNatural (text : List Char) : Option (Nat × List Char) :=
  let digits := text.takeWhile Char.isDigit
  let rest := text.dropWhile Char.isDigit
  if digits = Nat.toDigits 10 (value digits) ∧ rest.head? ∉ [some '.', some 'e', some 'E'] then
    some (value digits, rest)
  else none

/-- `-0` is no integer. -/
def readNumber : List Char → Option (Int × List Char)
  | '-' :: text => (readNatural text).bind fun x => if x.1 = 0 then none else some (-x.1, x.2)
  | text => (readNatural text).map fun x => (x.1, x.2)

def unescape (letter : Char) : Option Char :=
  if letter = '/' then some '/' else (ESCAPES.find? fun e => e.2 = letter).map Prod.fst

def hexValue (c : Char) : Option Nat :=
  if c.isDigit then some (c.toNat - 48)
  else if 'a' ≤ c ∧ c ≤ 'f' then some (c.toNat - 87)
  else if 'A' ≤ c ∧ c ≤ 'F' then some (c.toNat - 55)
  else none

/-- Where in a string the reader is. -/
inductive Mode where
  | plain | escaped
  /-- `n` digits of a code are read. -/
  | hex (n code : Nat)

/-- The rest of a string, and what comes behind its closing quote. -/
def readString : Mode → List Char → Option (List Char × List Char)
  | _, [] => none
  | .plain, c :: rest =>
    if c = '"' then some ([], rest)
    else if c = '\\' then readString .escaped rest
    else if c.toNat < 0x20 then none
    else (readString .plain rest).map fun x => (c :: x.1, x.2)
  | .escaped, c :: rest =>
    if c = 'u' then readString (.hex 0 0) rest else
    match unescape c with
    | some c => (readString .plain rest).map fun x => (c :: x.1, x.2)
    | none => none
  | .hex n code, c :: rest =>
    match hexValue c with
    | none => none
    | some d =>
      if n < 3 then readString (.hex (n + 1) (16 * code + d)) rest
      -- half of a surrogate pair is no character
      else if (16 * code + d).isValidChar then
        (readString .plain rest).map fun x => (Char.ofNat (16 * code + d) :: x.1, x.2)
      else none

def readLiteral (word : List Char) (v : Json) (text : List Char) : Option (Json × List Char) :=
  if word <+: text then some (v, text.drop word.length) else none

def readKey (text : List Char) : Option (String × List Char) :=
  match skip text with
  | '"' :: rest => (readString .plain rest).bind fun key => match skip key.2 with
    | ':' :: rest => some (.ofList key.1, rest)
    | _ => none
  | _ => none

mutual
def readValue : Nat → List Char → Option (Json × List Char)
  | 0, _ => none
  | fuel + 1, text => match skip text with
    | [] => none
    | c :: rest =>
      if c = '"' then (readString .plain rest).map fun x => (.str (.ofList x.1), x.2)
      else if c = '[' then
        if (skip rest).head? = some ']' then some (.arr [], (skip rest).tail)
        else (readItems fuel rest).map fun x => (.arr x.1, x.2)
      else if c = '{' then
        if (skip rest).head? = some '}' then some (.obj [], (skip rest).tail)
        else (readFields fuel rest).map fun x => (.obj x.1, x.2)
      else if c = 'n' then readLiteral "ull".toList .null rest
      else if c = 't' then readLiteral "rue".toList (.bool true) rest
      else if c = 'f' then readLiteral "alse".toList (.bool false) rest
      else (readNumber (c :: rest)).map fun x => (.num x.1, x.2)
def readItems : Nat → List Char → Option (List Json × List Char)
  | 0, _ => none
  | fuel + 1, text => (readValue fuel text).bind fun x => match skip x.2 with
    | ',' :: rest => (readItems fuel rest).map fun y => (x.1 :: y.1, y.2)
    | ']' :: rest => some ([x.1], rest)
    | _ => none
def readFields : Nat → List Char → Option (List (String × Json) × List Char)
  | 0, _ => none
  | fuel + 1, text => (readKey text).bind fun key => (readValue fuel key.2).bind fun x =>
    match skip x.2 with
    | ',' :: rest => (readFields fuel rest).map fun y => ((key.1, x.1) :: y.1, y.2)
    | '}' :: rest => some ([(key.1, x.1)], rest)
    | _ => none
end

/-- `from_str`: one value, with blanks around it. -/
def parse (text : List Char) : Option Json :=
  (readValue (text.length + 1) text).bind fun x => if skip x.2 = [] then some x.1 else none

/-! ## What is written is read back -/

variable {w : Layout} {v : Json} {text rest more blanks : List Char} {fuel depth : Nat} {c : Char}

theorem skip_append (h : ∀ c ∈ blanks, isBlank c = true) : skip (blanks ++ text) = skip text :=
  List.dropWhile_append_of_pos h

theorem skip_cons (h : isBlank c = false) : skip (c :: rest) = c :: rest :=
  List.dropWhile_cons_of_neg (by simp [h])

theorem hexValue_digitChar : ∀ n < 16, hexValue n.digitChar = some n := by decide

theorem mem_escapes {letter : Char} (h : ESCAPES.lookup c = some letter) :
    (c, letter) ∈ ESCAPES := by
  obtain ⟨before, behind, hTable, _⟩ := List.lookup_eq_some_iff.mp h
  rw [hTable]
  exact List.mem_append_right _ List.mem_cons_self

theorem unescape_letter {letter : Char} (h : (c, letter) ∈ ESCAPES) :
    letter ≠ 'u' ∧ unescape letter = some c := by
  have hAll : ESCAPES.all (fun e => e.2 ≠ 'u' ∧ unescape e.2 = some e.1) = true := by decide
  exact of_decide_eq_true (List.all_eq_true.mp hAll _ h)

theorem readString_escape (c : Char) (rest : List Char) :
    readString .plain (escape c ++ rest) =
      (readString .plain rest).map fun x => (c :: x.1, x.2) := by
  unfold escape
  split
  · rename_i letter hLetter
    obtain ⟨hNot, hBack⟩ := unescape_letter (mem_escapes hLetter)
    simp [readString, hNot, hBack]
  rename_i hNone
  split
  · rename_i hControl
    have hHigh := hexValue_digitChar (c.toNat / 16) (by omega)
    have hLow := hexValue_digitChar (c.toNat % 16) (by omega)
    have hZero : hexValue '0' = some 0 := by decide
    have hCode : 16 * (c.toNat / 16) + c.toNat % 16 = c.toNat := Nat.div_add_mod _ _
    have hValid : c.toNat.isValidChar := c.valid
    simp [readString, hHigh, hLow, hZero, hCode, hValid, Char.ofNat_toNat]
  · rename_i hControl
    rw [List.lookup_eq_none_iff] at hNone
    have hQuote : c ≠ '"' := by simpa using hNone ('"', '"') (by decide)
    have hSlash : c ≠ '\\' := by simpa using hNone ('\\', '\\') (by decide)
    simp [readString, hQuote, hSlash, hControl]

theorem readString_quote (s rest : List Char) :
    readString .plain (s.flatMap escape ++ '"' :: rest) = some (s, rest) := by
  induction s with
  | nil => rfl
  | cons c s ih =>
    rw [List.flatMap_cons, List.append_assoc, readString_escape, ih]
    rfl

def Apart (text : List Char) : Prop :=
  ∀ c ∈ text.head?, c.isDigit = false ∧ some c ∉ [some '.', some 'e', some 'E']

theorem Apart.blank (h : ∀ c ∈ blanks, isBlank c = true) (hRest : Apart rest) :
    Apart (blanks ++ rest) := by
  cases blanks with
  | nil => exact hRest
  | cons b blanks =>
    rintro _ ⟨⟩
    have hAll : BLANKS.all
        (fun c => c.isDigit = false ∧ some c ∉ [some '.', some 'e', some 'E']) = true := by decide
    have hBlank : b ∈ BLANKS := of_decide_eq_true (h b List.mem_cons_self)
    exact of_decide_eq_true (List.all_eq_true.mp hAll b hBlank)

theorem readNatural_toDigits (n : Nat) (h : Apart rest) :
    readNatural (Nat.toDigits 10 n ++ rest) = some (n, rest) := by
  have hDigits := (digits_toDigits n).all
  have hRest : rest.takeWhile Char.isDigit = [] ∧ rest.dropWhile Char.isDigit = rest := by
    cases rest with
    | nil => exact ⟨rfl, rfl⟩
    | cons c rest =>
      have hc := (h c rfl).1
      exact ⟨List.takeWhile_cons_of_neg (by simp [hc]), List.dropWhile_cons_of_neg (by simp [hc])⟩
  have hBehind : rest.head? ∉ [some '.', some 'e', some 'E'] := by
    cases hHead : rest.head? with
    | none => decide
    | some c => exact (h c hHead).2
  simp only [readNatural, List.takeWhile_append_of_pos hDigits,
    List.dropWhile_append_of_pos hDigits, hRest, List.append_nil, value_toDigits, true_and,
    if_pos hBehind]

theorem head_toDigits (n : Nat) : ∃ c digits, Nat.toDigits 10 n = c :: digits ∧ c.isDigit = true := by
  obtain ⟨c, digits, hText⟩ := List.exists_cons_of_ne_nil (digits_toDigits n).nonempty
  exact ⟨c, digits, hText, (digits_toDigits n).all c (hText ▸ List.mem_cons_self)⟩

theorem readNumber_toString (n : Int) (h : Apart rest) :
    readNumber ((toString n).toList ++ rest) = some (n, rest) := by
  cases n with
  | ofNat m =>
    have hText : (toString (Int.ofNat m)).toList = Nat.toDigits 10 m := Nat.toList_repr
    obtain ⟨c, digits, hDigits, hc⟩ := head_toDigits m
    have hRead := readNatural_toDigits m h
    rw [hText]
    rw [hDigits, List.cons_append] at hRead ⊢
    rw [readNumber.eq_2 _ fun _ hEq => (isDigit_ne_sign hc).1 (List.cons.inj hEq).1, hRead]
    rfl
  | negSucc m =>
    have hText : (toString (Int.negSucc m)).toList = '-' :: Nat.toDigits 10 (m + 1) := by
      change ("-" ++ Nat.repr (m + 1)).toList = _
      rw [String.toList_append, Nat.toList_repr]
      rfl
    rw [hText, List.cons_append, readNumber, readNatural_toDigits _ h, Option.bind_some,
      if_neg (Nat.succ_ne_zero m)]
    rfl

theorem toString_head (n : Int) : ∃ c text, (toString n).toList = c :: text ∧
    (c.isDigit = true ∨ c = '-') := by
  cases n with
  | ofNat m =>
    obtain ⟨c, digits, hDigits, hc⟩ := head_toDigits m
    have hText : (toString (Int.ofNat m)).toList = Nat.toDigits 10 m := Nat.toList_repr
    exact ⟨c, digits, hText.trans hDigits, .inl hc⟩
  | negSucc m => exact ⟨'-', (Nat.repr (m + 1)).toList, String.toList_append, .inr rfl⟩

theorem number_first (h : c.isDigit = true ∨ c = '-') :
    c ∉ BLANKS ++ ['"', '[', '{', 'n', 't', 'f', ']', '}'] := by
  have hAll : (BLANKS ++ ['"', '[', '{', 'n', 't', 'f', ']', '}']).all
      (fun c => ¬ (c.isDigit = true ∨ c = '-')) = true := by decide
  exact fun hMem => of_decide_eq_true (List.all_eq_true.mp hAll c hMem) h

theorem write_head (w : Layout) (depth : Nat) (v : Json) : ∃ c text, write w depth v = c :: text ∧
    isBlank c = false ∧ c ≠ ']' ∧ c ≠ '}' := by
  have first {c : Char} (h : c ∉ BLANKS ++ ['"', '[', '{', 'n', 't', 'f', ']', '}']) :
      isBlank c = false ∧ c ≠ ']' ∧ c ≠ '}' := by
    rw [List.mem_append, not_or] at h
    refine ⟨decide_eq_false h.1, ?_, ?_⟩
    · rintro rfl
      exact h.2 (by decide)
    · rintro rfl
      exact h.2 (by decide)
  cases v with
  | null => exact ⟨'n', "ull".toList, by rw [write]; rfl, by decide⟩
  | bool b =>
    cases b with
    | true => exact ⟨'t', "rue".toList, by rw [write]; rfl, by decide⟩
    | false => exact ⟨'f', "alse".toList, by rw [write]; rfl, by decide⟩
  | num n =>
    obtain ⟨c, text, hText, hc⟩ := toString_head n
    exact ⟨c, text, by rw [write, hText], first (number_first hc)⟩
  | str s => exact ⟨'"', _, by rw [write, quote, List.cons_append], by decide⟩
  | arr items =>
    cases items with
    | nil => exact ⟨'[', _, by rw [write], by decide⟩
    | cons v rest => exact ⟨'[', _, by rw [write]; rfl, by decide⟩
  | obj fields =>
    cases fields with
    | nil => exact ⟨'{', _, by rw [write], by decide⟩
    | cons f rest => exact ⟨'{', _, by rw [write]; rfl, by decide⟩

theorem readValue_congr {text' : List Char} (h : skip text = skip text') :
    readValue fuel text = readValue fuel text' := by
  cases fuel with
  | zero => rfl
  | succ fuel => rw [readValue, readValue, h]

theorem readItems_congr {text' : List Char} (h : skip text = skip text') :
    readItems fuel text = readItems fuel text' := by
  cases fuel with
  | zero => rfl
  | succ fuel => rw [readItems, readItems, readValue_congr h]

/-- What reading back a value means; fuel for each of its characters is enough. -/
def ReadsBack (w : Layout) (v : Json) : Prop := ∀ (depth fuel : Nat) (more : List Char),
  Apart more → (write w depth v).length ≤ fuel →
    readValue fuel (write w depth v ++ more) = some (v, more)

theorem apart_items (w : Layout) (depth : Nat) (items : List Json) (more : List Char)
    (hBlank : ∀ c ∈ blanks, isBlank c = true) :
    Apart (writeItems w depth items ++ (blanks ++ ']' :: more)) := by
  cases items with
  | nil =>
    rw [writeItems, List.nil_append]
    exact Apart.blank hBlank (by rintro _ ⟨⟩; decide)
  | cons v rest =>
    rw [writeItems]
    rintro _ ⟨⟩
    decide

theorem apart_fields (w : Layout) (depth : Nat) (fields : List (String × Json))
    (more : List Char) (hBlank : ∀ c ∈ blanks, isBlank c = true) :
    Apart (writeFields w depth fields ++ (blanks ++ '}' :: more)) := by
  cases fields with
  | nil =>
    rw [writeFields, List.nil_append]
    exact Apart.blank hBlank (by rintro _ ⟨⟩; decide)
  | cons f rest =>
    rw [writeFields]
    rintro _ ⟨⟩
    decide

theorem readItems_write {items : List Json} (hv : ReadsBack w v)
    (hItems : ∀ v ∈ items, ReadsBack w v) (hBlank : ∀ c ∈ blanks, isBlank c = true)
    (hFuel : (write w depth v).length + (writeItems w depth items).length < fuel) :
    readItems fuel (write w depth v ++ (writeItems w depth items ++ (blanks ++ ']' :: more))) =
      some (v :: items, more) := by
  induction items generalizing v fuel with
  | nil =>
    obtain ⟨fuel, rfl⟩ := Nat.exists_eq_add_one_of_ne_zero (Nat.ne_zero_of_lt hFuel)
    have hRead := hv depth fuel _ (apart_items w depth [] more hBlank) (by omega)
    have hSkip : skip (blanks ++ ']' :: more) = ']' :: more :=
      (skip_append hBlank).trans (skip_cons (by decide))
    rw [readItems, hRead, Option.bind_some]
    simp only [writeItems, List.nil_append, hSkip]
  | cons u items ih =>
    obtain ⟨fuel, rfl⟩ := Nat.exists_eq_add_one_of_ne_zero (Nat.ne_zero_of_lt hFuel)
    rw [List.forall_mem_cons] at hItems
    have hLength : (writeItems w depth (u :: items)).length =
        1 + (w.gap depth).length + (write w depth u).length +
          (writeItems w depth items).length := by
      rw [writeItems]
      simp only [List.length_append, List.length_cons]
      omega
    have hRead := hv depth fuel _ (apart_items w depth (u :: items) more hBlank) (by omega)
    have hRest : readItems fuel (write w depth u ++ (writeItems w depth items ++
        (blanks ++ ']' :: more))) = some (u :: items, more) := ih hItems.1 hItems.2 (by omega)
    rw [readItems, hRead, Option.bind_some]
    have hSkip : skip (writeItems w depth (u :: items) ++ (blanks ++ ']' :: more)) =
        ',' :: (w.gap depth ++ (write w depth u ++ (writeItems w depth items ++
          (blanks ++ ']' :: more)))) := by
      rw [writeItems, List.append_assoc, List.append_assoc, List.cons_append]
      exact skip_cons (by decide)
    simp only [hSkip]
    rw [readItems_congr (skip_append (w.gap_blank depth)), hRest]
    rfl

theorem length_field (w : Layout) (key : String) (text : List Char) :
    text.length < (field w key text).length := by
  simp only [field, quote, List.length_append, List.length_cons]
  omega

theorem readKey_field (w : Layout) (key : String) (text more : List Char) :
    readKey (field w key text ++ more) = some (key, w.colon ++ (text ++ more)) := by
  have hText : field w key text ++ more =
      '"' :: (key.toList.flatMap escape ++ '"' :: ':' :: (w.colon ++ (text ++ more))) := by
    simp only [field, quote, List.append_assoc, List.cons_append, List.nil_append]
  have hQuote : isBlank '"' = false := by decide
  have hColon : isBlank ':' = false := by decide
  simp only [readKey, hText, skip_cons hQuote, readString_quote, Option.bind_some,
    skip_cons hColon, String.ofList_toList]

theorem readFields_congr {text' : List Char} (h : skip text = skip text') :
    readFields fuel text = readFields fuel text' := by
  cases fuel with
  | zero => rfl
  | succ fuel => rw [readFields, readFields, readKey, readKey, h]

theorem readFields_write {fields : List (String × Json)} {key : String} (hv : ReadsBack w v)
    (hFields : ∀ f ∈ fields, ReadsBack w f.2) (hBlank : ∀ c ∈ blanks, isBlank c = true)
    (hFuel : (field w key (write w depth v)).length + (writeFields w depth fields).length < fuel) :
    readFields fuel (field w key (write w depth v) ++
      (writeFields w depth fields ++ (blanks ++ '}' :: more))) =
        some ((key, v) :: fields, more) := by
  induction fields generalizing key v fuel with
  | nil =>
    obtain ⟨fuel, rfl⟩ := Nat.exists_eq_add_one_of_ne_zero (Nat.ne_zero_of_lt hFuel)
    have hField := length_field w key (write w depth v)
    have hRead := hv depth fuel _ (apart_fields w depth [] more hBlank) (by omega)
    have hSkip : skip (blanks ++ '}' :: more) = '}' :: more :=
      (skip_append hBlank).trans (skip_cons (by decide))
    rw [readFields, readKey_field, Option.bind_some,
      readValue_congr (skip_append w.colon_blank), hRead, Option.bind_some]
    simp only [writeFields, List.nil_append, hSkip]
  | cons f fields ih =>
    obtain ⟨fuel, rfl⟩ := Nat.exists_eq_add_one_of_ne_zero (Nat.ne_zero_of_lt hFuel)
    rw [List.forall_mem_cons] at hFields
    have hLength : (writeFields w depth (f :: fields)).length =
        1 + (w.gap depth).length + (field w f.1 (write w depth f.2)).length +
          (writeFields w depth fields).length := by
      rw [writeFields]
      simp only [List.length_append, List.length_cons]
      omega
    have hField := length_field w key (write w depth v)
    have hRead := hv depth fuel _ (apart_fields w depth (f :: fields) more hBlank) (by omega)
    have hRest : readFields fuel (field w f.1 (write w depth f.2) ++ (writeFields w depth fields ++
        (blanks ++ '}' :: more))) = some ((f.1, f.2) :: fields, more) :=
      ih hFields.1 hFields.2 (by omega)
    have hSkip : skip (writeFields w depth (f :: fields) ++ (blanks ++ '}' :: more)) =
        ',' :: (w.gap depth ++ (field w f.1 (write w depth f.2) ++
          (writeFields w depth fields ++ (blanks ++ '}' :: more)))) := by
      rw [writeFields, List.append_assoc, List.append_assoc, List.cons_append]
      exact skip_cons (by decide)
    rw [readFields, readKey_field, Option.bind_some,
      readValue_congr (skip_append w.colon_blank), hRead, Option.bind_some]
    simp only [hSkip]
    rw [readFields_congr (skip_append (w.gap_blank depth)), hRest]
    rfl

theorem readLiteral_word {word : List Char} : readLiteral word v (word ++ more) = some (v, more) := by
  rw [readLiteral, if_pos (List.prefix_append _ _), List.drop_left]

theorem readValue_number {n : Int} (h : Apart more) :
    readValue (fuel + 1) ((toString n).toList ++ more) = some (.num n, more) := by
  obtain ⟨c, text, hText, hFirst⟩ := toString_head n
  have hRead := readNumber_toString n h
  have hNot := number_first hFirst
  rw [List.mem_append, not_or] at hNot
  obtain ⟨hBlank, hOther⟩ := hNot
  simp only [List.mem_cons, List.not_mem_nil, or_false, not_or] at hOther
  obtain ⟨hQuote, hArr, hObj, hNull, hTrue, hFalse, _⟩ := hOther
  rw [hText, List.cons_append] at hRead ⊢
  simp only [readValue, skip_cons (decide_eq_false hBlank), if_neg hQuote, if_neg hArr,
    if_neg hObj, if_neg hNull, if_neg hTrue, if_neg hFalse, hRead, Option.map_some]

theorem readsBack (w : Layout) (v : Json) : ReadsBack w v := by
  induction v using Json.ind with
  | null =>
    intro depth fuel more _ hFuel
    obtain ⟨fuel, rfl⟩ := Nat.exists_eq_add_one_of_ne_zero (Nat.ne_zero_of_lt hFuel)
    have hText : "null".toList = 'n' :: "ull".toList := rfl
    have hBlank : isBlank 'n' = false := by decide
    simp only [write, hText, List.cons_append, readValue, skip_cons hBlank, Char.reduceEq,
      if_false, if_true, readLiteral_word]
  | bool b =>
    intro depth fuel more _ hFuel
    cases b with
    | true =>
      obtain ⟨fuel, rfl⟩ := Nat.exists_eq_add_one_of_ne_zero (Nat.ne_zero_of_lt hFuel)
      have hText : "true".toList = 't' :: "rue".toList := rfl
      have hBlank : isBlank 't' = false := by decide
      simp only [write, hText, List.cons_append, readValue, skip_cons hBlank, Char.reduceEq,
        if_false, if_true, readLiteral_word]
    | false =>
      obtain ⟨fuel, rfl⟩ := Nat.exists_eq_add_one_of_ne_zero (Nat.ne_zero_of_lt hFuel)
      have hText : "false".toList = 'f' :: "alse".toList := rfl
      have hBlank : isBlank 'f' = false := by decide
      simp only [write, hText, List.cons_append, readValue, skip_cons hBlank, Char.reduceEq,
        if_false, if_true, readLiteral_word]
  | num n =>
    intro depth fuel more hMore hFuel
    rw [write] at hFuel ⊢
    obtain ⟨c, text, hText, _⟩ := toString_head n
    rw [hText] at hFuel
    obtain ⟨fuel, rfl⟩ := Nat.exists_eq_add_one_of_ne_zero (Nat.ne_zero_of_lt hFuel)
    exact readValue_number hMore
  | str s =>
    intro depth fuel more _ hFuel
    obtain ⟨fuel, rfl⟩ := Nat.exists_eq_add_one_of_ne_zero (Nat.ne_zero_of_lt hFuel)
    have hText : write w depth (.str s) ++ more =
        '"' :: (s.toList.flatMap escape ++ '"' :: more) := by
      rw [write, quote, List.append_assoc, List.cons_append]
      rfl
    have hQuote : isBlank '"' = false := by decide
    simp only [hText, readValue, skip_cons hQuote, if_true, readString_quote, Option.map_some,
      String.ofList_toList]
  | arr items ih =>
    intro depth fuel more _ hFuel
    have hOpen : isBlank '[' = false := by decide
    cases items with
    | nil =>
      obtain ⟨fuel, rfl⟩ := Nat.exists_eq_add_one_of_ne_zero (Nat.ne_zero_of_lt hFuel)
      rw [write]
      rfl
    | cons v items =>
      obtain ⟨fuel, rfl⟩ := Nat.exists_eq_add_one_of_ne_zero (Nat.ne_zero_of_lt hFuel)
      rw [List.forall_mem_cons] at ih
      obtain ⟨c, text, hHead, hBlank, hNot, _⟩ := write_head w (depth + 1) v
      have hText : write w depth (.arr (v :: items)) ++ more =
          '[' :: (w.gap (depth + 1) ++ (write w (depth + 1) v ++ (writeItems w (depth + 1) items ++
            (w.gap depth ++ ']' :: more)))) := by
        simp only [write, List.append_assoc, List.cons_append, List.nil_append]
      have hLength : (write w depth (.arr (v :: items))).length = 2 + (w.gap (depth + 1)).length +
          (write w (depth + 1) v).length + (writeItems w (depth + 1) items).length +
            (w.gap depth).length := by
        simp only [write, List.length_append, List.length_cons, List.length_nil]
        omega
      have hSkip : skip (w.gap (depth + 1) ++ (write w (depth + 1) v ++
          (writeItems w (depth + 1) items ++ (w.gap depth ++ ']' :: more)))) =
            c :: (text ++ (writeItems w (depth + 1) items ++ (w.gap depth ++ ']' :: more))) := by
        rw [skip_append (w.gap_blank _), hHead, List.cons_append, skip_cons hBlank]
      have hRead : readItems fuel (write w (depth + 1) v ++ (writeItems w (depth + 1) items ++
          (w.gap depth ++ ']' :: more))) = some (v :: items, more) :=
        readItems_write ih.1 ih.2 (w.gap_blank depth) (by omega)
      simp only [hText, readValue, skip_cons hOpen, Char.reduceEq, if_false, if_true, hSkip,
        List.head?_cons, Option.some_inj, if_neg hNot]
      rw [readItems_congr (skip_append (w.gap_blank _)), hRead]
      rfl
  | obj fields ih =>
    intro depth fuel more _ hFuel
    have hOpen : isBlank '{' = false := by decide
    cases fields with
    | nil =>
      obtain ⟨fuel, rfl⟩ := Nat.exists_eq_add_one_of_ne_zero (Nat.ne_zero_of_lt hFuel)
      rw [write]
      rfl
    | cons f fields =>
      obtain ⟨fuel, rfl⟩ := Nat.exists_eq_add_one_of_ne_zero (Nat.ne_zero_of_lt hFuel)
      rw [List.forall_mem_cons] at ih
      have hText : write w depth (.obj (f :: fields)) ++ more =
          '{' :: (w.gap (depth + 1) ++ (field w f.1 (write w (depth + 1) f.2) ++
            (writeFields w (depth + 1) fields ++ (w.gap depth ++ '}' :: more)))) := by
        simp only [write, List.append_assoc, List.cons_append, List.nil_append]
      have hLength : (write w depth (.obj (f :: fields))).length =
          2 + (w.gap (depth + 1)).length + (field w f.1 (write w (depth + 1) f.2)).length +
            (writeFields w (depth + 1) fields).length + (w.gap depth).length := by
        simp only [write, List.length_append, List.length_cons, List.length_nil]
        omega
      have hQuote : isBlank '"' = false := by decide
      have hSkip : (skip (w.gap (depth + 1) ++ (field w f.1 (write w (depth + 1) f.2) ++
          (writeFields w (depth + 1) fields ++ (w.gap depth ++ '}' :: more))))).head? =
            some '"' := by
        rw [skip_append (w.gap_blank _), field, quote, List.append_assoc, List.append_assoc,
          List.cons_append, List.cons_append, skip_cons hQuote, List.head?_cons]
      have hRead : readFields fuel (field w f.1 (write w (depth + 1) f.2) ++
          (writeFields w (depth + 1) fields ++ (w.gap depth ++ '}' :: more))) =
            some ((f.1, f.2) :: fields, more) :=
        readFields_write ih.1 ih.2 (w.gap_blank depth) (by omega)
      simp only [hText, readValue, skip_cons hOpen, Char.reduceEq, if_false, if_true, hSkip,
        Option.some_inj]
      rw [readFields_congr (skip_append (w.gap_blank _)), hRead]
      rfl

/-- What is written is read back, whatever the layout. -/
theorem parse_write (w : Layout) (v : Json) (hBlank : ∀ c ∈ blanks, isBlank c = true) :
    parse (write w depth v ++ blanks) = some v := by
  have hApart : Apart blanks := by
    have hEnd : Apart (blanks ++ []) := Apart.blank hBlank (by rintro _ ⟨⟩)
    rwa [List.append_nil] at hEnd
  have hRead := readsBack w v depth ((write w depth v ++ blanks).length + 1) blanks hApart
    (by rw [List.length_append]; omega)
  have hSkip : skip blanks = [] := by
    have hEnd : skip (blanks ++ []) = skip [] := skip_append hBlank
    rwa [List.append_nil] at hEnd
  rw [parse, hRead, Option.bind_some, if_pos hSkip]

/-! ## A text cut short -/

theorem skip_append_of_cons (h : skip text = c :: rest) :
    skip (text ++ more) = c :: (rest ++ more) := by
  rw [skip, List.dropWhile_append, ← skip, h]
  rfl

theorem readString_append {mode : Mode} {s : List Char}
    (h : readString mode text = some (s, rest)) :
    readString mode (text ++ more) = some (s, rest ++ more) := by
  induction text generalizing mode s with
  | nil => cases h
  | cons c text ih =>
    cases mode with
    | plain =>
      simp only [readString, List.cons_append] at h ⊢
      split at h
      · rename_i hQuote
        cases h
        rw [if_pos hQuote]
      rename_i hQuote
      split at h
      · rename_i hSlash
        rw [if_neg hQuote, if_pos hSlash, ih h]
      rename_i hSlash
      split at h
      · cases h
      · rename_i hControl
        obtain ⟨x, hRead, hx⟩ := Option.map_eq_some_iff.mp h
        cases hx
        rw [if_neg hQuote, if_neg hSlash, if_neg hControl, ih hRead]
        rfl
    | escaped =>
      simp only [readString, List.cons_append] at h ⊢
      split at h
      · rename_i hCode
        rw [if_pos hCode, ih h]
      · rename_i hCode
        rw [if_neg hCode]
        cases hLetter : unescape c with
        | none =>
          simp only [hLetter] at h
          cases h
        | some letter =>
          simp only [hLetter] at h ⊢
          obtain ⟨x, hRead, hx⟩ := Option.map_eq_some_iff.mp h
          cases hx
          rw [ih hRead]
          rfl
    | hex n code =>
      simp only [readString, List.cons_append] at h ⊢
      cases hDigit : hexValue c with
      | none =>
        simp only [hDigit] at h
        cases h
      | some d =>
        simp only [hDigit] at h ⊢
        split at h
        · rename_i hMore
          rw [if_pos hMore, ih h]
        rename_i hMore
        split at h
        · rename_i hValid
          obtain ⟨x, hRead, hx⟩ := Option.map_eq_some_iff.mp h
          cases hx
          rw [if_neg hMore, if_pos hValid, ih hRead]
          rfl
        · cases h

theorem readNatural_append {n : Nat} (h : readNatural text = some (n, rest)) (hRest : rest ≠ []) :
    readNatural (text ++ more) = some (n, rest ++ more) := by
  simp only [readNatural] at h ⊢
  split at h
  · rename_i hRead
    cases h
    obtain ⟨c, rest, hBehind⟩ := List.exists_cons_of_ne_nil hRest
    have hTake : (text ++ more).takeWhile Char.isDigit = text.takeWhile Char.isDigit := by
      rw [List.takeWhile_append, if_neg]
      intro hAll
      have hSplit := congrArg List.length (List.takeWhile_append_dropWhile (p := Char.isDigit) (l := text))
      rw [List.length_append, hBehind, List.length_cons] at hSplit
      omega
    have hDrop : (text ++ more).dropWhile Char.isDigit = text.dropWhile Char.isDigit ++ more := by
      rw [List.dropWhile_append, hBehind]
      rfl
    rw [hTake, hDrop, hBehind, List.cons_append, List.head?_cons]
    rw [hBehind, List.head?_cons] at hRead
    rw [if_pos hRead]
  · cases h

theorem readNumber_append {n : Int} (h : readNumber text = some (n, rest)) (hRest : rest ≠ []) :
    readNumber (text ++ more) = some (n, rest ++ more) := by
  unfold readNumber at h
  split at h
  · obtain ⟨x, hRead, hx⟩ := Option.bind_eq_some_iff.mp h
    obtain ⟨hZero, hEq⟩ := Option.ite_none_left_eq_some.mp hx
    cases hEq
    rw [List.cons_append, readNumber, readNatural_append hRead hRest, Option.bind_some,
      if_neg hZero]
  · rename_i hSign
    obtain ⟨x, hRead, hx⟩ := Option.map_eq_some_iff.mp h
    cases hx
    rw [readNumber.eq_2, readNatural_append hRead hRest]
    · rfl
    · intro t hEq
      cases text with
      | nil => cases hRead
      | cons c text =>
        obtain ⟨rfl, _⟩ := List.cons.inj hEq
        exact hSign text rfl

theorem readLiteral_append {word : List Char} {u : Json}
    (h : readLiteral word u text = some (v, rest)) :
    readLiteral word u (text ++ more) = some (v, rest ++ more) := by
  obtain ⟨hWord, hEq⟩ := Option.ite_none_right_eq_some.mp h
  cases hEq
  rw [readLiteral, if_pos (hWord.trans (List.prefix_append _ _)),
    List.drop_append_of_le_length hWord.length_le]

theorem readKey_append {key : String} (h : readKey text = some (key, rest)) :
    readKey (text ++ more) = some (key, rest ++ more) := by
  unfold readKey at h
  split at h
  · rename_i behind hQuote
    obtain ⟨x, hRead, hx⟩ := Option.bind_eq_some_iff.mp h
    split at hx
    · rename_i hColon
      cases hx
      simp only [readKey, skip_append_of_cons hQuote, readString_append hRead, Option.bind_some,
        skip_append_of_cons hColon]
    · cases hx
  · cases h

theorem skip_of_readValue {x : Json × List Char} (h : readValue fuel text = some x) :
    skip text ≠ [] := by
  intro hSkip
  cases fuel with
  | zero => cases h
  | succ fuel =>
    simp only [readValue, hSkip] at h
    cases h

theorem skip_of_readItems {x : List Json × List Char} (h : readItems fuel text = some x) :
    skip text ≠ [] := by
  cases fuel with
  | zero => cases h
  | succ fuel =>
    obtain ⟨y, hRead, _⟩ := Option.bind_eq_some_iff.mp h
    exact skip_of_readValue hRead

theorem skip_of_readFields {x : List (String × Json) × List Char}
    (h : readFields fuel text = some x) : skip text ≠ [] := by
  intro hSkip
  cases fuel with
  | zero => cases h
  | succ fuel =>
    obtain ⟨y, hRead, _⟩ := Option.bind_eq_some_iff.mp h
    simp only [readKey, hSkip] at hRead
    cases hRead

theorem head_skip_append (h : skip text ≠ []) :
    (skip (text ++ more)).head? = (skip text).head? := by
  obtain ⟨c, rest, hSkip⟩ := List.exists_cons_of_ne_nil h
  rw [skip_append_of_cons hSkip, hSkip, List.head?_cons, List.head?_cons]

/-- More text and more fuel: what has been read, if it has an end, is read again. -/
structure Extends (fuel : Nat) : Prop where
  value {text rest : List Char} {v : Json} {fuel' : Nat} (more : List Char)
    (h : readValue fuel text = some (v, rest)) (hFuel : fuel ≤ fuel')
    (hEnd : rest = [] → ∀ n, v ≠ .num n) :
    readValue fuel' (text ++ more) = some (v, rest ++ more)
  items {text rest : List Char} {vs : List Json} {fuel' : Nat} (more : List Char)
    (h : readItems fuel text = some (vs, rest)) (hFuel : fuel ≤ fuel') :
    readItems fuel' (text ++ more) = some (vs, rest ++ more)
  fields {text rest : List Char} {fs : List (String × Json)} {fuel' : Nat} (more : List Char)
    (h : readFields fuel text = some (fs, rest)) (hFuel : fuel ≤ fuel') :
    readFields fuel' (text ++ more) = some (fs, rest ++ more)

theorem Extends.succ_value (h : Extends fuel) {fuel' : Nat}
    (hRead : readValue (fuel + 1) text = some (v, rest)) (hFuel : fuel ≤ fuel')
    (hEnd : rest = [] → ∀ n, v ≠ .num n) :
    readValue (fuel' + 1) (text ++ more) = some (v, rest ++ more) := by
  rw [readValue] at hRead
  cases hSkip : skip text with
  | nil =>
    simp only [hSkip] at hRead
    cases hRead
  | cons c behind =>
    simp only [hSkip] at hRead
    simp only [readValue, skip_append_of_cons hSkip]
    split at hRead
    · rename_i hQuote
      obtain ⟨x, hString, hx⟩ := Option.map_eq_some_iff.mp hRead
      cases hx
      rw [if_pos hQuote, readString_append hString]
      rfl
    rename_i hQuote
    rw [if_neg hQuote]
    split at hRead
    · rename_i hArr
      rw [if_pos hArr]
      split at hRead
      · rename_i hClose
        obtain ⟨tail, hTail⟩ := List.head?_eq_some_iff.mp hClose
        cases hRead
        rw [hTail, skip_append_of_cons hTail]
        rfl
      · rename_i hClose
        obtain ⟨x, hItems, hx⟩ := Option.map_eq_some_iff.mp hRead
        cases hx
        rw [head_skip_append (skip_of_readItems hItems), if_neg hClose, h.items more hItems hFuel]
        rfl
    rename_i hArr
    rw [if_neg hArr]
    split at hRead
    · rename_i hObj
      rw [if_pos hObj]
      split at hRead
      · rename_i hClose
        obtain ⟨tail, hTail⟩ := List.head?_eq_some_iff.mp hClose
        cases hRead
        rw [hTail, skip_append_of_cons hTail]
        rfl
      · rename_i hClose
        obtain ⟨x, hFields, hx⟩ := Option.map_eq_some_iff.mp hRead
        cases hx
        rw [head_skip_append (skip_of_readFields hFields), if_neg hClose,
          h.fields more hFields hFuel]
        rfl
    rename_i hObj
    rw [if_neg hObj]
    split at hRead
    · rename_i hNull
      rw [if_pos hNull, readLiteral_append hRead]
    rename_i hNull
    rw [if_neg hNull]
    split at hRead
    · rename_i hTrue
      rw [if_pos hTrue, readLiteral_append hRead]
    rename_i hTrue
    rw [if_neg hTrue]
    split at hRead
    · rename_i hFalse
      rw [if_pos hFalse, readLiteral_append hRead]
    · rename_i hFalse
      obtain ⟨x, hNumber, hx⟩ := Option.map_eq_some_iff.mp hRead
      cases hx
      rw [if_neg hFalse, ← List.cons_append,
        readNumber_append hNumber fun hEmpty => hEnd hEmpty _ rfl]
      rfl

theorem Extends.succ_items (h : Extends fuel) {vs : List Json} {fuel' : Nat}
    (hRead : readItems (fuel + 1) text = some (vs, rest)) (hFuel : fuel ≤ fuel') :
    readItems (fuel' + 1) (text ++ more) = some (vs, rest ++ more) := by
  obtain ⟨x, hValue, hx⟩ := Option.bind_eq_some_iff.mp hRead
  have again {c : Char} {behind : List Char} (hSkip : skip x.2 = c :: behind) :
      readValue fuel' (text ++ more) = some (x.1, x.2 ++ more) := by
    refine h.value more hValue hFuel fun hEmpty => ?_
    rw [hEmpty] at hSkip
    cases hSkip
  split at hx
  · rename_i hComma
    obtain ⟨y, hItems, hy⟩ := Option.map_eq_some_iff.mp hx
    cases hy
    rw [readItems, again hComma, Option.bind_some]
    simp only [skip_append_of_cons hComma, h.items more hItems hFuel, Option.map_some]
  · rename_i hClose
    cases hx
    rw [readItems, again hClose, Option.bind_some]
    simp only [skip_append_of_cons hClose]
  · cases hx

theorem Extends.succ_fields (h : Extends fuel) {fs : List (String × Json)} {fuel' : Nat}
    (hRead : readFields (fuel + 1) text = some (fs, rest)) (hFuel : fuel ≤ fuel') :
    readFields (fuel' + 1) (text ++ more) = some (fs, rest ++ more) := by
  obtain ⟨key, hKey, hRest⟩ := Option.bind_eq_some_iff.mp hRead
  obtain ⟨x, hValue, hx⟩ := Option.bind_eq_some_iff.mp hRest
  have again {c : Char} {behind : List Char} (hSkip : skip x.2 = c :: behind) :
      readValue fuel' (key.2 ++ more) = some (x.1, x.2 ++ more) := by
    refine h.value more hValue hFuel fun hEmpty => ?_
    rw [hEmpty] at hSkip
    cases hSkip
  split at hx
  · rename_i hComma
    obtain ⟨y, hFields, hy⟩ := Option.map_eq_some_iff.mp hx
    cases hy
    rw [readFields, readKey_append hKey, Option.bind_some, again hComma, Option.bind_some]
    simp only [skip_append_of_cons hComma, h.fields more hFields hFuel, Option.map_some]
  · rename_i hClose
    cases hx
    rw [readFields, readKey_append hKey, Option.bind_some, again hClose, Option.bind_some]
    simp only [skip_append_of_cons hClose]
  · cases hx

theorem extends_all (fuel : Nat) : Extends fuel := by
  induction fuel with
  | zero => exact ⟨fun _ h => (by cases h), fun _ h => (by cases h), fun _ h => (by cases h)⟩
  | succ fuel ih =>
    refine ⟨fun more h hFuel hEnd => ?_, fun more h hFuel => ?_, fun more h hFuel => ?_⟩
    · obtain ⟨fuel', rfl⟩ := Nat.exists_eq_add_one_of_ne_zero (Nat.ne_zero_of_lt hFuel)
      exact ih.succ_value h (Nat.le_of_succ_le_succ hFuel) hEnd
    · obtain ⟨fuel', rfl⟩ := Nat.exists_eq_add_one_of_ne_zero (Nat.ne_zero_of_lt hFuel)
      exact ih.succ_items h (Nat.le_of_succ_le_succ hFuel)
    · obtain ⟨fuel', rfl⟩ := Nat.exists_eq_add_one_of_ne_zero (Nat.ne_zero_of_lt hFuel)
      exact ih.succ_fields h (Nat.le_of_succ_le_succ hFuel)

theorem write_obj (w : Layout) (depth : Nat) (fields : List (String × Json)) :
    ∃ tail, write w depth (.obj fields) = '{' :: tail := by
  cases fields with
  | nil => exact ⟨['}'], by rw [write]⟩
  | cons f fields => exact ⟨_, by rw [write]; rfl⟩

theorem readValue_obj (h : readValue fuel ('{' :: text) = some (v, rest)) :
    ∃ fields, v = .obj fields := by
  have hOpen : isBlank '{' = false := by decide
  cases fuel with
  | zero => cases h
  | succ fuel =>
    simp only [readValue, skip_cons hOpen, Char.reduceEq, if_false, if_true] at h
    split at h
    · cases h
      exact ⟨[], rfl⟩
    · obtain ⟨x, _, hx⟩ := Option.map_eq_some_iff.mp h
      cases hx
      exact ⟨_, rfl⟩

/-- A part of the text of an object is no text of anything. -/
theorem parse_cut {fields : List (String × Json)}
    (hPrefix : text <+: write w depth (.obj fields)) (hCut : text ≠ write w depth (.obj fields)) :
    parse text = none := by
  rw [parse, Option.bind_eq_none_iff]
  intro x hRead
  obtain ⟨v, rest⟩ := x
  obtain ⟨more, hMore⟩ := hPrefix
  obtain ⟨tail, hTail⟩ := write_obj w depth fields
  have hEnd : ∀ n, v ≠ .num n := by
    cases text with
    | nil => exact absurd rfl (skip_of_readValue hRead)
    | cons c text =>
      rw [hTail, List.cons_append, List.cons_eq_cons] at hMore
      rw [hMore.1] at hRead
      obtain ⟨fields, rfl⟩ := readValue_obj hRead
      rintro n ⟨⟩
  have hWhole : readValue (text.length + more.length + 1) (write w depth (.obj fields) ++ []) =
      some (.obj fields, []) := by
    refine readsBack w (.obj fields) depth _ [] (by rintro _ ⟨⟩) ?_
    rw [← hMore, List.length_append]
    omega
  have hAgain := (extends_all _).value more hRead
    (by omega : text.length + 1 ≤ text.length + more.length + 1) fun _ => hEnd
  rw [hMore, ← List.append_nil (write w depth (.obj fields)), hWhole, Option.some_inj,
    Prod.mk.injEq] at hAgain
  rw [← hMore, (List.append_eq_nil_iff.mp hAgain.2.symm).2, List.append_nil] at hCut
  exact absurd rfl hCut

/-! ## Characters of a text -/

theorem escape_visible {x : Char} (hx : x ∈ escape c) : 0x20 ≤ x.toNat := by
  have hDigit : ∀ n < 16, 0x20 ≤ n.digitChar.toNat := by decide
  unfold escape at hx
  split at hx
  · rename_i letter hLetter
    have hAll : ESCAPES.all (fun e => 0x20 ≤ e.2.toNat) = true := by decide
    rcases List.mem_cons.mp hx with rfl | hx
    · decide
    · rw [List.mem_singleton.mp hx]
      exact of_decide_eq_true (List.all_eq_true.mp hAll _ (mem_escapes hLetter))
  split at hx
  · rename_i hControl
    simp only [List.mem_cons, List.not_mem_nil, or_false] at hx
    rcases hx with rfl | rfl | rfl | rfl | rfl | rfl
    · decide
    · decide
    · decide
    · decide
    · exact hDigit _ (by omega)
    · exact hDigit _ (by omega)
  · rename_i hControl
    rw [List.mem_singleton.mp hx]
    exact Nat.le_of_not_lt hControl

theorem toString_visible (n : Int) : ∀ c ∈ (toString n).toList, 0x20 ≤ c.toNat := by
  intro c hc
  have hParse : parseInt n n (toString n).toList = some n :=
    parseInt_toString (Int.le_refl n) (Int.le_refl n)
  rcases parseInt_chars hParse hc with hDigit | rfl | rfl
  · exact Nat.le_trans (by decide) (digit_bounds hDigit).1
  · decide
  · decide

theorem quote_visible (s : String) : ∀ c ∈ quote s, 0x20 ≤ c.toNat := by
  intro c hc
  rw [quote, List.cons_append, List.mem_cons, List.mem_append, List.mem_singleton,
    List.mem_flatMap] at hc
  rcases hc with rfl | ⟨x, _, hc⟩ | rfl
  · decide
  · exact escape_visible hc
  · decide

/-- Only blanks of the layout may be control characters. -/
theorem write_visible (hGap : ∀ depth, ∀ c ∈ w.gap depth, 0x20 ≤ c.toNat)
    (hColon : ∀ c ∈ w.colon, 0x20 ≤ c.toNat) (v : Json) (depth : Nat) :
    ∀ c ∈ write w depth v, 0x20 ≤ c.toNat := by
  induction v using Json.ind generalizing depth with
  | null =>
    rw [write]
    exact List.all_iff_forall_prop.mp (by decide)
  | bool b =>
    cases b with
    | true =>
      rw [write]
      exact List.all_iff_forall_prop.mp (by decide)
    | false =>
      rw [write]
      exact List.all_iff_forall_prop.mp (by decide)
  | num n =>
    rw [write]
    exact toString_visible n
  | str s =>
    rw [write]
    exact quote_visible s
  | arr items ih =>
    have hItems (items : List Json) (ih : ∀ v ∈ items, ∀ depth, ∀ c ∈ write w depth v,
        0x20 ≤ c.toNat) : ∀ c ∈ writeItems w (depth + 1) items, 0x20 ≤ c.toNat := by
      induction items with
      | nil => exact List.forall_mem_nil _
      | cons v items ihItems =>
        rw [List.forall_mem_cons] at ih
        rw [writeItems]
        simp only [List.forall_mem_append, List.forall_mem_cons]
        exact ⟨⟨⟨by decide, hGap _⟩, ih.1 _⟩, ihItems ih.2⟩
    cases items with
    | nil =>
      rw [write]
      exact List.all_iff_forall_prop.mp (by decide)
    | cons v items =>
      rw [List.forall_mem_cons] at ih
      rw [write]
      simp only [List.forall_mem_append, List.forall_mem_cons]
      exact ⟨⟨⟨⟨⟨by decide, hGap _⟩, ih.1 _⟩, hItems items ih.2⟩, hGap _⟩, by decide,
        List.forall_mem_nil _⟩
  | obj fields ih =>
    have hField (key : String) {text : List Char} (hText : ∀ c ∈ text, 0x20 ≤ c.toNat) :
        ∀ c ∈ field w key text, 0x20 ≤ c.toNat := by
      rw [field]
      simp only [List.forall_mem_append, List.forall_mem_cons]
      exact ⟨⟨quote_visible key, by decide, hColon⟩, hText⟩
    have hFields (fields : List (String × Json)) (ih : ∀ f ∈ fields, ∀ depth,
        ∀ c ∈ write w depth f.2, 0x20 ≤ c.toNat) :
        ∀ c ∈ writeFields w (depth + 1) fields, 0x20 ≤ c.toNat := by
      induction fields with
      | nil => exact List.forall_mem_nil _
      | cons f fields ihFields =>
        rw [List.forall_mem_cons] at ih
        rw [writeFields]
        simp only [List.forall_mem_append, List.forall_mem_cons]
        exact ⟨⟨⟨by decide, hGap _⟩, hField f.1 (ih.1 _)⟩, ihFields ih.2⟩
    cases fields with
    | nil =>
      rw [write]
      exact List.all_iff_forall_prop.mp (by decide)
    | cons f fields =>
      rw [List.forall_mem_cons] at ih
      rw [write]
      simp only [List.forall_mem_append, List.forall_mem_cons]
      exact ⟨⟨⟨⟨⟨by decide, hGap _⟩, hField f.1 (ih.1 _)⟩, hFields fields ih.2⟩, hGap _⟩,
        by decide, List.forall_mem_nil _⟩

/-! ## Fields of an object -/

theorem lookup_cons_eq (key key' : String) (v : Json) (fields : List (String × Json)) :
    List.lookup key' ((key, v) :: fields) =
      if key' = key then some v else fields.lookup key' := by
  by_cases hKey : key' = key
  · rw [hKey, List.lookup_cons_self, if_pos rfl]
  · rw [List.lookup_cons, beq_false_of_ne hKey, if_neg hKey]

theorem lookup_insert (key key' : String) (v : Json) (fields : List (String × Json)) :
    (insert key v fields).lookup key' = if key' = key then some v else fields.lookup key' := by
  induction fields with
  | nil => exact lookup_cons_eq key key' v []
  | cons f fields ih =>
    rw [insert]
    split
    · exact lookup_cons_eq key key' v _
    split
    · rename_i hSame
      rw [lookup_cons_eq, show f = (f.1, f.2) from rfl, lookup_cons_eq, ← hSame]
      split
      · rfl
      · rfl
    · rename_i hOther
      rw [show f = (f.1, f.2) from rfl, lookup_cons_eq, lookup_cons_eq, ih]
      by_cases hKey : key' = key
      · rw [if_pos hKey, if_pos hKey, if_neg (hKey ▸ hOther)]
      · rw [if_neg hKey, if_neg hKey]

/-- The last of the values that a key is given. -/
theorem get_object (key : String) (fields : List (String × Json)) :
    (object fields).get key = fields.reverse.lookup key := by
  have hAll (sorted : List (String × Json)) :
      (fields.foldl (fun sorted f => insert f.1 f.2 sorted) sorted).lookup key =
        (fields.reverse.lookup key).or (sorted.lookup key) := by
    induction fields generalizing sorted with
    | nil => rfl
    | cons f fields ih =>
      have hLast : List.lookup key [f] = if key = f.1 then some f.2 else none :=
        lookup_cons_eq f.1 key f.2 []
      rw [List.foldl_cons, ih, lookup_insert, List.reverse_cons, List.lookup_append, hLast,
        Option.or_assoc]
      split
      · rfl
      · rfl
  exact (hAll []).trans Option.or_none

end Json

end Dtrun
