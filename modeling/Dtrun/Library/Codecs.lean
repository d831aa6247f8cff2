import Mathlib.Data.List.Basic

/-! # Self-delimiting codecs

A codec writes values as text such that each is read back from the front of any longer text. No
text that a codec writes is then a proper prefix of another.
-/
namespace Dtrun.Codecs
set_option autoImplicit false

structure Codec (α : Type) where
  encode : α → List Char
  decode : List Char → Option (α × List Char)
  decode_encode : ∀ a rest, decode (encode a ++ rest) = some (a, rest)

namespace Codec

variable {α β : Type}

theorem encode_prefix (c : Codec α) {a b : α} (h : c.encode a <+: c.encode b) : a = b := by
  obtain ⟨rest, hRest⟩ := h
  have hLeft := c.decode_encode a rest
  have hRight := c.decode_encode b []
  rw [hRest] at hLeft
  rw [List.append_nil, hLeft] at hRight
  exact (Prod.mk.inj (Option.some.inj hRight)).1

/-- The whole text, and nothing but what the codec would have written. -/
def parse (c : Codec α) (text : List Char) : Option α :=
  match c.decode text with
  | some (a, []) => if c.encode a = text then some a else none
  | _ => none

theorem parse_encode (c : Codec α) (a : α) : c.parse (c.encode a) = some a := by
  have hDecode := c.decode_encode a []
  rw [List.append_nil] at hDecode
  simp [parse, hDecode]

theorem parse_eq_some {c : Codec α} {text : List Char} {a : α} (h : c.parse text = some a) :
    c.encode a = text := by
  unfold parse at h
  split at h
  · split at h
    · cases h
      assumption
    · cases h
  · cases h

/-- What is cut short is not accepted. -/
theorem parse_prefix (c : Codec α) {a : α} {text : List Char} (hPrefix : text <+: c.encode a)
    (hCut : text ≠ c.encode a) : c.parse text = none := by
  by_contra hSome
  obtain ⟨b, hParse⟩ := Option.ne_none_iff_exists'.mp hSome
  have hText := parse_eq_some hParse
  rw [← hText] at hPrefix hCut
  exact hCut (congrArg c.encode (c.encode_prefix hPrefix))

def literal (text : String) : Codec Unit where
  encode _ := text.toList
  decode l := if text.toList <+: l then some ((), l.drop text.toList.length) else none
  decode_encode _ rest := by simp

def pair (c : Codec α) (d : Codec β) : Codec (α × β) where
  encode x := c.encode x.1 ++ d.encode x.2
  decode l := (c.decode l).bind fun x => (d.decode x.2).map fun y => ((x.1, y.1), y.2)
  decode_encode x rest := by simp [c.decode_encode, d.decode_encode]

def via (c : Codec α) (f : β → α) (g : α → β) (h : ∀ b, g (f b) = b) : Codec β where
  encode b := c.encode (f b)
  decode l := (c.decode l).map fun x => (g x.1, x.2)
  decode_encode b rest := by simp [c.decode_encode, h]

/-- A view that not every value of `α` has. -/
def narrow (c : Codec α) (f : β → α) (g : α → Option β) (h : ∀ b, g (f b) = some b) :
    Codec β where
  encode b := c.encode (f b)
  decode l := (c.decode l).bind fun x => (g x.1).map fun b => (b, x.2)
  decode_encode b rest := by simp [c.decode_encode, h]

/-- Values one after the other up to the end of the text, no more than there is fuel for. -/
def decodeAll (c : Codec α) : Nat → List Char → Option (List α)
  | _, [] => some []
  | 0, _ :: _ => none
  | fuel + 1, b :: l => (c.decode (b :: l)).bind fun x =>
      (decodeAll c fuel x.2).map fun as => x.1 :: as

/-- Fuel for each value is enough. -/
theorem decodeAll_flatMap (c : Codec α) (hText : ∀ a, c.encode a ≠ []) (as : List α) {fuel : Nat}
    (hFuel : as.length ≤ fuel) : c.decodeAll fuel (as.flatMap c.encode) = some as := by
  induction as generalizing fuel with
  | nil => cases fuel <;> rfl
  | cons a as ih =>
    obtain ⟨n, rfl⟩ := Nat.exists_eq_add_one_of_ne_zero (Nat.ne_zero_of_lt hFuel)
    obtain ⟨b, l, hFirst⟩ := List.exists_cons_of_ne_nil (hText a)
    have hDecode := c.decode_encode a (as.flatMap c.encode)
    rw [List.flatMap_cons]
    rw [hFirst, List.cons_append] at hDecode ⊢
    rw [decodeAll, hDecode]
    simp [ih (Nat.le_of_succ_le_succ hFuel)]

theorem length_le_flatMap (c : Codec α) (hText : ∀ a, c.encode a ≠ []) (as : List α) :
    as.length ≤ (as.flatMap c.encode).length := by
  induction as with
  | nil => exact Nat.le_refl 0
  | cons a as ih =>
    have hFirst := List.length_pos_iff.mpr (hText a)
    rw [List.flatMap_cons, List.length_append, List.length_cons]
    omega

def after (text : String) (c : Codec α) : Codec α :=
  ((literal text).pair c).via (fun a => ((), a)) Prod.snd fun _ => rfl

def escape (c : Char) : List Char := if c = '"' ∨ c = '\\' then ['\\', c] else [c]

def unquote : List Char → Option (List Char × List Char)
  | [] => none
  | '"' :: rest => some ([], rest)
  | '\\' :: c :: rest => (unquote rest).map fun x => (c :: x.1, x.2)
  | c :: rest => (unquote rest).map fun x => (c :: x.1, x.2)

theorem unquote_escape (s rest : List Char) :
    unquote (s.flatMap escape ++ '"' :: rest) = some (s, rest) := by
  induction s with
  | nil => rfl
  | cons c s ih =>
    by_cases hEscaped : c = '"' ∨ c = '\\'
    · simp [escape, hEscaped, unquote, ih]
    · rw [List.flatMap_cons, escape, if_neg hEscaped, List.append_assoc, List.singleton_append]
      rw [not_or] at hEscaped
      rw [unquote.eq_4 _ _ hEscaped.1 (fun _ _ h _ => hEscaped.2 h), ih]
      rfl

def quoted : Codec String where
  encode s := '"' :: s.toList.flatMap escape ++ ['"']
  decode
    | '"' :: l => (unquote l).map fun x => (.ofList x.1, x.2)
    | _ => none
  decode_encode s rest := by simp [unquote_escape]

def natural (stop : Char) (hStop : stop.isDigit = false) : Codec Nat where
  encode n := Nat.toDigits 10 n ++ [stop]
  decode l := match l.dropWhile Char.isDigit with
    | c :: rest => if c = stop then some (Nat.ofDigitChars 10 (l.takeWhile Char.isDigit) 0, rest)
        else none
    | [] => none
  decode_encode n rest := by
    have hDigits : ∀ c ∈ Nat.toDigits 10 n, c.isDigit = true := fun c hc =>
      Nat.isDigit_of_mem_toDigits (by decide) (by decide) hc
    simp [List.dropWhile_append_of_pos hDigits, List.takeWhile_append_of_pos hDigits, hStop,
      Nat.ofDigitChars_toDigits]

theorem natural_head {stop : Char} (hStop : stop.isDigit = false) (n : Nat) (rest : List Char) :
    ∃ c l, (natural stop hStop).encode n ++ rest = c :: l ∧ c.isDigit = true := by
  obtain ⟨c, l, hDigits⟩ := List.exists_cons_of_ne_nil (Nat.toDigits_ne_nil (n := n) (b := 10))
  refine ⟨c, l ++ [stop] ++ rest, by simp [natural, hDigits], ?_⟩
  exact Nat.isDigit_of_mem_toDigits (b := 10) (n := n) (by decide) (by decide)
    (hDigits ▸ List.mem_cons_self)

def integer (stop : Char) (hStop : stop.isDigit = false) : Codec Int where
  encode
    | .ofNat n => (natural stop hStop).encode n
    | .negSucc n => '-' :: (natural stop hStop).encode (n + 1)
  decode
    | '-' :: l => ((natural stop hStop).decode l).map fun x => (-x.1, x.2)
    | l => ((natural stop hStop).decode l).map fun x => (x.1, x.2)
  decode_encode z rest := by
    cases z with
    | ofNat n =>
      obtain ⟨c, l, hText, hDigit⟩ := natural_head hStop n rest
      have hSign : c ≠ '-' := by
        rintro rfl
        exact absurd hDigit (by decide)
      have hDecode := (natural stop hStop).decode_encode n rest
      simp only [hText] at hDecode ⊢
      split
      · rename_i hEq
        exact absurd (List.cons.inj hEq).1 hSign
      · simp [hDecode]
    | negSucc n =>
      simp [(natural stop hStop).decode_encode, Int.negSucc_eq]

theorem integer_head {stop : Char} (hStop : stop.isDigit = false) (z : Int) (rest : List Char) :
    ((integer stop hStop).encode z ++ rest).head? ≠ some 'n' := by
  cases z with
  | ofNat n =>
    obtain ⟨c, l, hText, hDigit⟩ := natural_head hStop n rest
    intro hHead
    simp only [integer, hText, List.head?_cons, Option.some.injEq] at hHead
    subst hHead
    exact absurd hDigit (by decide)
  | negSucc n => simp [integer]

/-- `null` for a value that is not there; what follows the value is part of it. -/
def orNull (stop : Char) (c : Codec α) (h : ∀ a rest, (c.encode a ++ rest).head? ≠ some 'n') :
    Codec (Option α) where
  encode
    | none => "null".toList ++ [stop]
    | some a => c.encode a
  decode l := if l.head? = some 'n' then
      if "null".toList ++ [stop] <+: l then some (none, l.drop 5) else none
    else (c.decode l).map fun x => (some x.1, x.2)
  decode_encode o rest := by
    cases o with
    | none => simp
    | some a =>
      rw [if_neg (h a rest), c.decode_encode]
      rfl

end Codec

end Dtrun.Codecs
