import Mathlib.Data.List.DropRight
import Dtrun.Host.TraceFile
import Dtrun.Library.Lines

/-! # The output of the container

`relay_lines` reads one of the container's pipes line by line. A line that is not text is an error
of the read, which ends the loop; the pipe is closed then, and the container's next write fails.
-/
namespace Dtrun.Relay
set_option autoImplicit false
open Lines TraceFile

def newline : UInt8 := 0x0a

def decode (bytes : List UInt8) : Option String := String.fromUTF8? ⟨bytes.toArray⟩

/-- The characters with the property `White_Space`. -/
def isWhitespace (c : Char) : Bool :=
  (0x09 ≤ c.toNat ∧ c.toNat ≤ 0x0d) ∨ (0x2000 ≤ c.toNat ∧ c.toNat ≤ 0x200a) ∨
    c.toNat ∈ [0x20, 0x85, 0xa0, 0x1680, 0x2028, 0x2029, 0x202f, 0x205f, 0x3000]

def trimEnd (s : String) : String := String.ofList (s.toList.rdropWhile isWhitespace)

/-- `BufRead::read_line`: the number of bytes and their text, and what follows them. -/
def readLine (stream : List UInt8) : Option (Nat × String) × List UInt8 :=
  ((decode (cut newline stream).1).map fun text => ((cut newline stream).1.length, text),
    (cut newline stream).2)

structure Relayed where
  captured : List String
  /-- what is left when the pipe is closed before its end -/
  unread : Option (List UInt8)

def relayLines (stream : List UInt8) : Relayed :=
  match _hRead : readLine stream with
  | (some (0, _), _) => ⟨[], none⟩
  | (some (_ + 1, line), rest) =>
    let relayed := relayLines rest
    { relayed with captured := trimEnd line :: relayed.captured }
  | (none, rest) => ⟨[], some rest⟩
termination_by stream.length
decreasing_by
  cases stream with
  | nil => simp [readLine, cut] at _hRead
  | cons b bs =>
    have hRest : (cut newline (b :: bs)).2 = rest := congrArg Prod.snd _hRead
    rw [← hRest]
    exact cut_snd_length_lt

def IsText (line : List UInt8) : Prop := decode line ≠ none

def Stands (line : List UInt8) (s : String) : Prop :=
  ∀ text, decode line = some text → s = trimEnd text

def Records (line : String × List UInt8) (e : Entry) : Prop :=
  ∃ s, e = .output line.1 s ∧ Stands line.2 s

/-- Both pipes are read to their end, and there is one string for each line, and one event, in the
order of the lines. -/
structure Complete (out err : List UInt8) : Prop where
  out_read : (relayLines out).unread = none
  err_read : (relayLines err).unread = none
  out_captured : List.Forall₂ Stands (lines newline out) (relayLines out).captured
  err_captured : List.Forall₂ Stands (lines newline err) (relayLines err).captured
  recorded : List.Forall₂ Records
    ((lines newline out).map (Prod.mk "stdout") ++ (lines newline err).map (Prod.mk "stderr"))
    (outputs [(relayLines out).captured, (relayLines err).captured])

variable {b : UInt8} {bs : List UInt8} {text : String}

theorem relayLines_eq (stream : List UInt8) : relayLines stream =
    match readLine stream with
    | (some (0, _), _) => ⟨[], none⟩
    | (some (_ + 1, line), rest) =>
      { relayLines rest with captured := trimEnd line :: (relayLines rest).captured }
    | (none, rest) => ⟨[], some rest⟩ := by
  rw [relayLines]
  split
  · rename_i hRead
    rw [hRead]
  · rename_i hRead
    rw [hRead]
  · rename_i hRead
    rw [hRead]

theorem relayLines_nil : relayLines [] = ⟨[], none⟩ := by
  have hEmpty : readLine [] = (some (0, ""), []) := by decide
  rw [relayLines_eq, hEmpty]

theorem relayLines_text (h : decode (cut newline (b :: bs)).1 = some text) :
    relayLines (b :: bs) =
      { relayLines (cut newline (b :: bs)).2 with
        captured := trimEnd text :: (relayLines (cut newline (b :: bs)).2).captured } := by
  rw [relayLines_eq, readLine, h]
  cases hLine : (cut newline (b :: bs)).1 with
  | nil => exact absurd hLine cut_fst_ne_nil
  | cons c line => rfl

theorem relayLines_other (h : decode (cut newline (b :: bs)).1 = none) :
    relayLines (b :: bs) = ⟨[], some (cut newline (b :: bs)).2⟩ := by
  rw [relayLines_eq, readLine, h]
  rfl

/-- Up to the first line that is no text every line is captured. -/
theorem relayLines_spec (stream : List UInt8) :
    List.Forall₂ Stands ((lines newline stream).takeWhile fun line => (decode line).isSome)
      (relayLines stream).captured ∧
    (relayLines stream).unread =
      match (lines newline stream).dropWhile fun line => (decode line).isSome with
      | [] => none
      | _ :: rest => some rest.flatten := by
  induction hSize : stream.length using Nat.strong_induction_on generalizing stream with
  | _ n ih =>
    cases stream with
    | nil =>
      rw [relayLines_nil]
      exact ⟨.nil, rfl⟩
    | cons b bs =>
      rw [lines_cut]
      cases hDecode : decode (cut newline (b :: bs)).1 with
      | none =>
        rw [relayLines_other hDecode]
        simp [hDecode, flatten_lines]
      | some text =>
        have hLess : (cut newline (b :: bs)).2.length < n := by
          rw [← hSize]
          exact cut_snd_length_lt
        obtain ⟨hCaptured, hUnread⟩ := ih _ hLess (cut newline (b :: bs)).2 rfl
        have hFirst : Stands (cut newline (b :: bs)).1 (trimEnd text) := by
          intro text' hText
          rw [hDecode] at hText
          rw [Option.some.inj hText]
        rw [relayLines_text hDecode]
        simp only [List.takeWhile_cons, List.dropWhile_cons, hDecode, Option.isSome_some, if_true]
        exact ⟨.cons hFirst hCaptured, hUnread⟩

theorem unread_eq_none_iff {stream : List UInt8} : (relayLines stream).unread = none ↔
    ∀ line ∈ lines newline stream, IsText line := by
  have hAll : (lines newline stream).dropWhile (fun line => (decode line).isSome) = [] ↔
      ∀ line ∈ lines newline stream, IsText line := by
    rw [List.dropWhile_eq_nil_iff]
    simp only [IsText, Option.isSome_iff_ne_none]
  rw [(relayLines_spec stream).2, ← hAll]
  cases (lines newline stream).dropWhile fun line => (decode line).isSome with
  | nil => simp
  | cons line rest => simp

theorem captured_of_text {stream : List UInt8} (h : ∀ line ∈ lines newline stream, IsText line) :
    List.Forall₂ Stands (lines newline stream) (relayLines stream).captured := by
  have hSelf : (lines newline stream).takeWhile (fun line => (decode line).isSome) =
      lines newline stream := by
    rw [List.takeWhile_eq_self_iff]
    intro line hLine
    exact Option.isSome_iff_ne_none.mpr (h line hLine)
  have hCaptured := (relayLines_spec stream).1
  rwa [hSelf] at hCaptured

theorem records_map {ls : List (List UInt8)} {captured : List String} (name : String)
    (h : List.Forall₂ Stands ls captured) :
    List.Forall₂ Records (ls.map (Prod.mk name)) (captured.map (.output name)) := by
  rw [List.forall₂_map_left_iff, List.forall₂_map_right_iff]
  exact h.imp fun line s hStands => ⟨s, rfl, hStands⟩

/-- Nothing of the output is lost exactly when every line of it is text. -/
theorem complete_iff (out err : List UInt8) : Complete out err ↔
    ∀ line ∈ lines newline out ++ lines newline err, IsText line := by
  rw [List.forall_mem_append]
  constructor
  · intro h
    exact ⟨unread_eq_none_iff.mp h.out_read, unread_eq_none_iff.mp h.err_read⟩
  · rintro ⟨hOut, hErr⟩
    have hOutCaptured := captured_of_text hOut
    have hErrCaptured := captured_of_text hErr
    exact {
      out_read := unread_eq_none_iff.mpr hOut
      err_read := unread_eq_none_iff.mpr hErr
      out_captured := hOutCaptured
      err_captured := hErrCaptured
      recorded := List.rel_append (records_map "stdout" hOutCaptured)
        (records_map "stderr" hErrCaptured) }

/-- A byte that is no text, and the lines behind it are lost. -/
theorem not_complete : ¬ ∀ out err : List UInt8, Complete out err := by
  intro h
  have hLost : relayLines [0xff, 0x0a, 0x61, 0x0a] = ⟨[], some [0x61, 0x0a]⟩ :=
    relayLines_other (by decide)
  have hRead := (h [0xff, 0x0a, 0x61, 0x0a] []).out_read
  rw [hLost] at hRead
  cases hRead

end Dtrun.Relay
