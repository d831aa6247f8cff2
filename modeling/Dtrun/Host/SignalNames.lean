import Mathlib.Data.Bool.AllAny
import Mathlib.Data.List.DropRight
import Dtrun.Host.Relay
import Dtrun.Library.Numerals

/-! # The names of signals

`parse_signal`: blanks around the text and its case do not count, and neither does a leading `SIG`;
what is left is a number or the rest of a name.
-/
namespace Dtrun.SignalNames
set_option autoImplicit false
open Numerals
open Relay (isWhitespace)

inductive SignalError where
  | badSignal (sig : String)
  deriving DecidableEq

def SignalError.display : SignalError → String
  | .badSignal s => s!"unknown signal '{s}'"

/-- The names of the signals, as `Signal::as_str` gives them. -/
def asStr : Signal → String
  | .SIGHUP => "SIGHUP"
  | .SIGINT => "SIGINT"
  | .SIGQUIT => "SIGQUIT"
  | .SIGILL => "SIGILL"
  | .SIGTRAP => "SIGTRAP"
  | .SIGABRT => "SIGABRT"
  | .SIGBUS => "SIGBUS"
  | .SIGFPE => "SIGFPE"
  | .SIGKILL => "SIGKILL"
  | .SIGUSR1 => "SIGUSR1"
  | .SIGSEGV => "SIGSEGV"
  | .SIGUSR2 => "SIGUSR2"
  | .SIGPIPE => "SIGPIPE"
  | .SIGALRM => "SIGALRM"
  | .SIGTERM => "SIGTERM"
  | .SIGSTKFLT => "SIGSTKFLT"
  | .SIGCHLD => "SIGCHLD"
  | .SIGCONT => "SIGCONT"
  | .SIGSTOP => "SIGSTOP"
  | .SIGTSTP => "SIGTSTP"
  | .SIGTTIN => "SIGTTIN"
  | .SIGTTOU => "SIGTTOU"
  | .SIGURG => "SIGURG"
  | .SIGXCPU => "SIGXCPU"
  | .SIGXFSZ => "SIGXFSZ"
  | .SIGVTALRM => "SIGVTALRM"
  | .SIGPROF => "SIGPROF"
  | .SIGWINCH => "SIGWINCH"
  | Signal.SIGIO => "SIGIO"
  | .SIGPWR => "SIGPWR"
  | .SIGSYS => "SIGSYS"

def candidates : List Signal :=
  [.SIGHUP, .SIGINT, .SIGQUIT, .SIGILL, .SIGTRAP, .SIGABRT, .SIGBUS, .SIGFPE, .SIGKILL, .SIGUSR1,
    .SIGSEGV, .SIGUSR2, .SIGPIPE, .SIGALRM, .SIGTERM, .SIGSTKFLT, .SIGCHLD, .SIGCONT, .SIGSTOP,
    .SIGTSTP, .SIGTTIN, .SIGTTOU, .SIGURG, .SIGXCPU, .SIGXFSZ, .SIGVTALRM, .SIGPROF, .SIGWINCH,
    Signal.SIGIO, .SIGPWR, .SIGSYS]

/-- `Signal::try_from`, on the numbers of the signals; Linux has those from 1 to 31. -/
def tryFrom (n : Int) : Option Signal := candidates.find? fun sig => sig.number = n

/-- `str::trim` -/
def trim (text : List Char) : List Char := (text.dropWhile isWhitespace).rdropWhile isWhitespace

/-- `str::parse::<i32>` -/
def parseI32 (text : List Char) : Option Int := parseInt (-2 ^ 31) (2 ^ 31 - 1) text

def SIG : List Char := ['S', 'I', 'G']

/-- `strip_prefix("SIG")`, or the text itself -/
def stripSig (text : List Char) : List Char := if SIG <+: text then text.drop 3 else text

/-- `char::to_uppercase`, which may yield several characters, is a parameter. -/
def parseSignal (upper : Char → List Char) (sig : String) : Except SignalError Signal :=
  let s := stripSig ((trim sig.toList).flatMap upper)
  match parseI32 s with
  | some n => match tryFrom n with
    | some signal => .ok signal
    | none => .error (.badSignal sig)
  | none => match candidates.find? fun signal => (asStr signal).toList = SIG ++ s with
    | some signal => .ok signal
    | none => .error (.badSignal sig)

/-- A number of the signal, or its name without `SIG`. -/
inductive Short (sig : Signal) : List Char → Prop
  | number {digits : List Char} (hDigits : Digits digits) (hValue : sig.number = value digits) :
      Short sig digits
  | plus {digits : List Char} (hDigits : Digits digits) (hValue : sig.number = value digits) :
      Short sig ('+' :: digits)
  | name {text : List Char} (hName : (asStr sig).toList = SIG ++ text) : Short sig text

def Spells (sig : Signal) (text : List Char) : Prop :=
  Short sig text ∨ ∃ short, Short sig short ∧ text = SIG ++ short

variable {upper : Char → List Char} {s : String} {sig : Signal} {text digits : List Char}

theorem number_bounds (sig : Signal) : 1 ≤ sig.number ∧ sig.number ≤ 31 := by
  cases sig <;> decide

theorem tryFrom_number (sig : Signal) : tryFrom sig.number = some sig := by
  cases sig <;> rfl

theorem tryFrom_eq_some_iff {n : Int} : tryFrom n = some sig ↔ sig.number = n := by
  constructor
  · intro h
    have hFound := List.find?_some h
    exact of_decide_eq_true hFound
  · rintro rfl
    exact tryFrom_number sig

theorem find_asStr (sig : Signal) :
    (candidates.find? fun signal => (asStr signal).toList = (asStr sig).toList) = some sig := by
  cases sig <;> rfl

theorem find_name_iff : (candidates.find? fun signal => (asStr signal).toList = SIG ++ text) =
    some sig ↔ (asStr sig).toList = SIG ++ text := by
  constructor
  · intro h
    have hFound := List.find?_some h
    exact of_decide_eq_true hFound
  · intro h
    rw [← h, find_asStr]

/-- What follows `SIG` in a name is neither a number nor another `SIG`. -/
theorem name_rest (h : (asStr sig).toList = SIG ++ text) :
    parseI32 text = none ∧ ¬ SIG <+: text := by
  obtain rfl : text = (asStr sig).toList.drop 3 := by rw [h]; rfl
  cases sig <;> decide +kernel

theorem parseI32_number (hText : text = digits ∨ text = '+' :: digits) (hDigits : Digits digits)
    (hValue : sig.number = value digits) : parseI32 text = some sig.number := by
  obtain ⟨hLow, hHigh⟩ := number_bounds sig
  exact parseInt_eq_some_iff.mpr ⟨by omega, by omega, digits, hDigits, .inl ⟨hText, hValue⟩⟩

theorem short_iff : Short sig text ↔ match parseI32 text with
    | some n => tryFrom n = some sig
    | none => (asStr sig).toList = SIG ++ text := by
  constructor
  · rintro (⟨hDigits, hValue⟩ | ⟨hDigits, hValue⟩ | hName)
    · rw [parseI32_number (.inl rfl) hDigits hValue]
      exact tryFrom_number sig
    · rw [parseI32_number (.inr rfl) hDigits hValue]
      exact tryFrom_number sig
    · rw [(name_rest hName).1]
      exact hName
  · intro h
    cases hNumber : parseI32 text with
    | none =>
      rw [hNumber] at h
      exact .name h
    | some n =>
      rw [hNumber] at h
      obtain rfl := tryFrom_eq_some_iff.mp h
      obtain ⟨_, _, digits, hDigits, ⟨rfl | rfl, hValue⟩ | ⟨rfl, hValue⟩⟩ :=
        parseInt_eq_some_iff.mp hNumber
      · exact .number hDigits hValue
      · exact .plus hDigits hValue
      · have hPositive := (number_bounds sig).1
        omega

theorem Short.not_sig (h : Short sig text) : ¬ SIG <+: text := by
  cases h with
  | number hDigits _ =>
    intro hSig
    have hFirst := hDigits.all 'S' (hSig.subset (by decide))
    exact absurd hFirst (by decide)
  | plus _ _ =>
    intro hSig
    exact absurd (List.cons_prefix_cons.mp hSig).1 (by decide)
  | name hName => exact (name_rest hName).2

theorem spells_iff : Spells sig text ↔ Short sig (stripSig text) := by
  rw [stripSig]
  split
  · rename_i hSig
    obtain ⟨rest, rfl⟩ := hSig
    change Spells sig (SIG ++ rest) ↔ Short sig rest
    constructor
    · rintro (hShort | ⟨short, hShort, hText⟩)
      · exact absurd (List.prefix_append _ _) hShort.not_sig
      · rwa [List.append_cancel_left hText]
    · exact fun h => .inr ⟨rest, h, rfl⟩
  · rename_i hSig
    constructor
    · rintro (hShort | ⟨short, _, rfl⟩)
      · exact hShort
      · exact absurd (List.prefix_append _ _) hSig
    · exact .inl

/-- What is accepted, and as which signal. -/
theorem parseSignal_ok_iff : parseSignal upper s = .ok sig ↔
    Spells sig ((trim s.toList).flatMap upper) := by
  rw [spells_iff, short_iff, parseSignal]
  cases parseI32 (stripSig ((trim s.toList).flatMap upper)) with
  | some n =>
    cases hSig : tryFrom n with
    | some signal => simp [hSig]
    | none => simp [hSig]
  | none =>
    dsimp only
    rw [← find_name_iff]
    cases candidates.find? fun signal => (asStr signal).toList =
        SIG ++ stripSig ((trim s.toList).flatMap upper) with
    | some signal => simp
    | none => simp

theorem parseSignal_error {e : SignalError} (h : parseSignal upper s = .error e) :
    e = .badSignal s := by
  rw [parseSignal] at h
  split at h
  · split at h
    · cases h
    · cases h
      rfl
  · split at h
    · cases h
    · cases h
      rfl

theorem trim_blanks {before after : List Char} (hBefore : ∀ c ∈ before, isWhitespace c = true)
    (hAfter : ∀ c ∈ after, isWhitespace c = true) (hText : ∀ c ∈ text, isWhitespace c = false) :
    trim (before ++ text ++ after) = text := by
  have hEnd : (text ++ after).rdropWhile isWhitespace = text := by
    rw [List.rdropWhile, List.reverse_append, List.dropWhile_append_of_pos
      fun c hc => hAfter c (List.mem_reverse.mp hc), List.dropWhile_eq_self_iff.mpr,
      List.reverse_reverse]
    intro hLength
    rw [hText _ (List.mem_reverse.mp (List.getElem_mem hLength))]
    exact Bool.false_ne_true
  rw [trim, List.append_assoc, List.dropWhile_append_of_pos hBefore]
  cases text with
  | nil => rw [List.nil_append, List.dropWhile_eq_nil_iff.mpr hAfter, List.rdropWhile_nil]
  | cons c rest =>
    have hFirst := hText c List.mem_cons_self
    rwa [List.cons_append, List.dropWhile_cons_of_neg (by rw [hFirst]; exact Bool.false_ne_true)]

theorem flatMap_upper (hUpper : ∀ c, c.toNat < 128 → upper c = [c.toUpper])
    (hText : ∀ c ∈ text, c.toNat < 128) : text.flatMap upper = text.map Char.toUpper := by
  induction text with
  | nil => rfl
  | cons c text ih =>
    rw [List.forall_mem_cons] at hText
    rw [List.flatMap_cons, hUpper c hText.1, ih hText.2, List.map_cons, List.singleton_append]

/-- A text of ASCII characters names a signal exactly if it spells it in capitals, whatever blanks
are around it; any other text comes back in the error. -/
theorem parseSignal_spec (upper : Char → List Char)
    (hUpper : ∀ c, c.toNat < 128 → upper c = [c.toUpper]) (before text after : List Char)
    (hBefore : ∀ c ∈ before, isWhitespace c = true) (hAfter : ∀ c ∈ after, isWhitespace c = true)
    (hText : ∀ c ∈ text, c.toNat < 128 ∧ isWhitespace c = false) :
    let s := String.ofList (before ++ text ++ after)
    (∀ sig, parseSignal upper s = .ok sig ↔ Spells sig (text.map Char.toUpper)) ∧
      ((∀ sig, ¬ Spells sig (text.map Char.toUpper)) →
        parseSignal upper s = .error (.badSignal s)) := by
  intro s
  have hTrim : (trim s.toList).flatMap upper = text.map Char.toUpper := by
    rw [String.toList_ofList, trim_blanks hBefore hAfter fun c hc => (hText c hc).2,
      flatMap_upper hUpper fun c hc => (hText c hc).1]
  have hOk (sig : Signal) : parseSignal upper s = .ok sig ↔ Spells sig (text.map Char.toUpper) := by
    rw [parseSignal_ok_iff, hTrim]
  refine ⟨hOk, fun hNone => ?_⟩
  cases hRun : parseSignal upper s with
  | ok sig => exact absurd ((hOk sig).mp hRun) (hNone sig)
  | error e => rw [parseSignal_error hRun]

/-- Lower case, with a blank before it and the end of a line behind. -/
theorem parseSignal_spec_kill :
    parseSignal (fun c => [c.toUpper]) (String.ofList ([' '] ++ "sigkill".toList ++ ['\n'])) =
      .ok .SIGKILL := by
  obtain ⟨hOk, _⟩ := parseSignal_spec (fun c => [c.toUpper]) (fun _ _ => rfl) [' ']
    "sigkill".toList ['\n'] (List.all_iff_forall_prop.mp (by decide))
    (List.all_iff_forall_prop.mp (by decide)) (List.all_iff_forall_prop.mp (by decide))
  exact (hOk .SIGKILL).mpr (.inr ⟨"KILL".toList, .name rfl, by decide⟩)

example : parseSignal (fun c => [c.toUpper]) "-9" = .error (.badSignal "-9") := by
  decide +kernel

end Dtrun.SignalNames
