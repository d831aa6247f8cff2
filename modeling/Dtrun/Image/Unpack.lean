import Mathlib.Data.BitVec
import Dtrun.Library.FileTree

/-! # Unpacking an image

`unpack_reader` over the entries of an archive, with the whiteouts it carries out and the system
calls these make. Names and paths are bytes; `dest` is given by its canonical path. What the tar
crate's `unpack_in` does with an entry is a parameter. `normalize_tree`, which comes last, removes
nothing and is left out.
-/
namespace Dtrun.Image
set_option autoImplicit false
open FileTree

abbrev Name := List (BitVec 8)

def SLASH : BitVec 8 := 0x2f
def DOT : BitVec 8 := 0x2e

/-- `.wh.` and `.wh..opq` -/
def WHITEOUT : Name := [0x2e, 0x77, 0x68, 0x2e]
def OPAQUE : Name := [0x2e, 0x77, 0x68, 0x2e, 0x2e, 0x6f, 0x70, 0x71]

def splitSlash : Name → List Name
  | [] => [[]]
  | b :: rest =>
    if b = SLASH then [] :: splitSlash rest
    else match splitSlash rest with
      | [] => [[b]]
      | part :: parts => (b :: part) :: parts

/-- `std::path::Component` on Unix. -/
inductive PathComponent where
  | rootDir | curDir | parentDir
  | normal (n : Name)
  deriving DecidableEq

/-- `Path::components`: empty parts and `.` are dropped, except a `.` at the start. -/
def components (path : Name) : List PathComponent :=
  let parts := splitSlash path
  let start := if path.head? = some SLASH then [.rootDir]
    else if parts.head? = some [DOT] then [.curDir] else []
  start ++ parts.filterMap fun part =>
    if part = [] ∨ part = [DOT] then none
    else if part = [DOT, DOT] then some .parentDir else some (.normal part)

/-- The loop of `sanitize_path`. -/
def pushNormal : List PathComponent → Option (List Name)
  | [] => some []
  | .normal n :: rest => (pushNormal rest).map (n :: ·)
  | .curDir :: rest => pushNormal rest
  | .parentDir :: _ | .rootDir :: _ => none

def sanitizePath (path : Name) : Option (List Name) :=
  if path.head? = some SLASH ∨ path = [] then none
  else (pushNormal (components path)).bind fun out => if out = [] then none else some out

def isContinuation (b : BitVec 8) : Bool := 0x80 ≤ b ∧ b ≤ 0xbf

/-- Whether the bytes are UTF-8, as `OsStr::to_str` asks. -/
def utf8Valid : Name → Bool
  | [] => true
  | a :: rest =>
    if a ≤ 0x7f then utf8Valid rest
    else match rest with
      | [] => false
      | b :: rest =>
        if 0xc2 ≤ a ∧ a ≤ 0xdf then isContinuation b && utf8Valid rest
        else match rest with
          | [] => false
          | c :: rest =>
            if 0xe0 ≤ a ∧ a ≤ 0xef then
              isContinuation b && isContinuation c && (a ≠ 0xe0 || 0xa0 ≤ b) &&
                (a ≠ 0xed || b ≤ 0x9f) && utf8Valid rest
            else match rest with
              | [] => false
              | d :: rest =>
                0xf0 ≤ a && a ≤ 0xf4 && isContinuation b && isContinuation c &&
                  isContinuation d && (a ≠ 0xf0 || 0x90 ≤ b) && (a ≠ 0xf4 || b ≤ 0x8f) &&
                  utf8Valid rest

/-- A whiteout in the directory `dir`: `.wh..wh..opq`, or `.wh.` and a name. -/
inductive Whiteout where
  | opaqueDir (dir : List Name)
  | named (dir : List Name) (deleted : Name)
  deriving DecidableEq

def Whiteout.of (safe : List Name) : Option Whiteout :=
  match safe.getLast? with
  | none => none
  | some fileName =>
    if utf8Valid fileName then
      (fileName.dropPrefix? WHITEOUT).map fun deleted =>
        if deleted = OPAQUE then .opaqueDir safe.dropLast else .named safe.dropLast deleted
    else none

inductive Ending where
  | name (n : Name)
  /-- In a slash, which `join("")` leaves. -/
  | slash
  | cur | parent
  deriving DecidableEq

def Ending.of (deleted : Name) : Ending :=
  if deleted = [] then .slash
  else if deleted = [DOT] then .cur
  else if deleted = [DOT, DOT] then .parent
  else .name deleted

/-- The path that the whiteout hands to `remove_file` and `remove_dir_all`, below `dest`. -/
def Whiteout.victim : Whiteout → List Name × Ending
  | .opaqueDir dir => match dir.getLast? with
    | none => ([], .slash)
    | some n => (dir.dropLast, .name n)
  | .named dir deleted => (dir, .of deleted)

def names (dir : List Name) : List (Component Name) := dir.map .name

/-- `fs::remove_file`: the last name is not followed, and a directory is not removed. -/
def removeFile (t : FileTree.Tree Name) (dest : List Name) (dir : List Name) (ending : Ending) :
    FileTree.Tree Name :=
  match ending, t.resolve dest (names dir) with
  | .name n, some r => match t.node (n :: r) with
    | none | some .dir => t
    | some .file | some (.link _) => t.prune (n :: r) true
  | _, _ => t

/-- `fs::remove_dir_all`: a link is removed itself, a file is not; the contents of a directory go
first. A last slash follows a link, whose `rmdir` then fails, as it does on `.` and `..`. -/
def removeDirAll (t : FileTree.Tree Name) (dest : List Name) (dir : List Name) (ending : Ending) :
    FileTree.Tree Name :=
  match ending with
  | .name n => match t.resolve dest (names dir) with
    | none => t
    | some r => match t.node (n :: r) with
      | none | some .file => t
      | some .dir | some (.link _) => t.prune (n :: r) true
  | .slash => match dir.getLast? with
    | none => match t.resolve dest [] with
      | none => t
      | some r => t.prune r true
    | some n => match t.resolve dest (names dir.dropLast) with
      | none => t
      | some r => match t.node (n :: r) with
        | none | some .file => t
        | some .dir => t.prune (n :: r) true
        | some (.link _) => match t.resolve dest (names dir) with
          | none => t
          | some r => t.prune r false
  | .cur => match t.resolve dest (names dir) with
    | none => t
    | some r => t.prune r false
  | .parent => match t.resolve dest (names dir) with
    | none => t
    | some r => t.prune r.tail false

def Whiteout.carryOut (w : Whiteout) (dest : List Name) (t : FileTree.Tree Name) :
    FileTree.Tree Name :=
  match w with
  | .opaqueDir _ => removeDirAll t dest w.victim.1 w.victim.2
  | .named _ _ => removeDirAll (removeFile t dest w.victim.1 w.victim.2) dest w.victim.1 w.victim.2

inductive EntryType where
  | regular | directory
  /-- Devices and the like, which `unpack_in` writes out as files. -/
  | other
  | symlink (target : Target Name)
  | hardLink (target : Name)
  deriving DecidableEq

/-- Contents, modes and owners are left out: `unpack_in` makes a tree of this and the tree before. -/
structure Entry where
  path : Name
  type : EntryType
  deriving DecidableEq

inductive ImageError where
  | io | tar
  deriving DecidableEq

def Entry.whiteout (e : Entry) : Option Whiteout := (sanitizePath e.path).bind Whiteout.of

section Loop

variable (unpackIn : FileTree.Tree Name → Entry → Except ImageError (FileTree.Tree Name))
  (dest : List Name)

def unpackEntry (t : FileTree.Tree Name) (e : Entry) : Except ImageError (FileTree.Tree Name) :=
  match sanitizePath e.path with
  | none => .ok t
  | some safe => match Whiteout.of safe with
    | some w => .ok (w.carryOut dest t)
    | none => unpackIn t e

/-- The loop of `unpack_reader`. `none` is an entry that cannot be read. -/
def unpackReader (t : FileTree.Tree Name) :
    List (Option Entry) → Except ImageError (FileTree.Tree Name)
  | [] => .ok t
  | none :: rest => unpackReader t rest
  | some e :: rest => match unpackEntry unpackIn dest t e with
    | .ok t => unpackReader t rest
    | .error error => .error error

/-- The whiteouts that the loop carries out, each with the tree it finds. -/
def whiteouts (t : FileTree.Tree Name) : List (Option Entry) → List (FileTree.Tree Name × Whiteout)
  | [] => []
  | none :: rest => whiteouts t rest
  | some e :: rest =>
    (e.whiteout.map fun w => (t, w)).toList ++
      match unpackEntry unpackIn dest t e with
      | .ok t => whiteouts t rest
      | .error _ => []

/-- A path that the loop removes by a whiteout. -/
def Removed (t : FileTree.Tree Name) (entries : List (Option Entry)) (q : List Name) : Prop :=
  ∃ v ∈ whiteouts unpackIn dest t entries,
    (v.1.node q).isSome = true ∧ (v.2.carryOut dest v.1).node q = none

/-- `unpack_in` changes nothing but what lies beneath `dest`. -/
def StaysInside : Prop :=
  ∀ t e t', unpackIn t e = .ok t' → ∀ q, ¬ Beneath dest q → t'.node q = t.node q

end Loop

end Dtrun.Image
