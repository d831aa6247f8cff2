import Dtrun.Host.Lifecycle
import Dtrun.Library.Codecs

/-! # The record of a container

What `state.json` holds, all of it, and what the runtime relies on in the library that turns it into
text and back. The units of a text are left open: what counts is which pieces of it are there.
-/
namespace Dtrun.Commands
set_option autoImplicit false
open Codecs Host
open Lifecycle (StateError)

/-- What a container's record takes from its configuration. -/
structure Origin where
  ociVersion : String
  id : String
  bundle : String
  rootfs : String
  seed : Nat
  deriving DecidableEq

structure ContainerState extends Lifecycle.ContainerState where
  ociVersion : String
  bundle : String
  rootfs : String
  seed : Nat
  created : String
  deriving DecidableEq

def mkState (o : Origin) (status : Status) (child : Pid) (exitCode : Option Int)
    (created : String) : ContainerState where
  id := o.id
  status := status
  pid := child
  exitCode := exitCode
  ociVersion := o.ociVersion
  bundle := o.bundle
  rootfs := o.rootfs
  seed := o.seed
  created := created

/-- A record of the container that came from `o` and has its init at `child`. -/
structure ContainerState.Of (st : ContainerState) (o : Origin) (child : Pid) : Prop where
  id : st.id = o.id
  pid : st.pid = child
  ociVersion : st.ociVersion = o.ociVersion
  bundle : st.bundle = o.bundle
  rootfs : st.rootfs = o.rootfs
  seed : st.seed = o.seed

theorem mkState_of (o : Origin) (status : Status) (child : Pid) (exitCode : Option Int)
    (created : String) : (mkState o status child exitCode created).Of o child :=
  ⟨rfl, rfl, rfl, rfl, rfl, rfl⟩

/-- `serde_json::to_string_pretty` and `from_str` on records. -/
structure Serde (B : Type) where
  toStringPretty : ContainerState → List B
  fromStr : List B → Except StateError ContainerState
  /-- What a gap in a file reads as. -/
  nul : B
  round : ∀ st, fromStr (toStringPretty st) = .ok st
  /-- A text cut short is refused. -/
  cut : ∀ st text, text <+: toStringPretty st → text ≠ toStringPretty st →
    fromStr text = .error .parse

namespace Serde

variable {B : Type} (serde : Serde B)

theorem toStringPretty_injective {st st' : ContainerState}
    (h : serde.toStringPretty st = serde.toStringPretty st') : st = st' := by
  have hRound := serde.round st
  rw [h, serde.round st'] at hRound
  exact (Except.ok.inj hRound).symm

/-- An empty text would be a part of the text of any other record. -/
theorem toStringPretty_ne_nil (st : ContainerState) : serde.toStringPretty st ≠ [] := by
  intro hEmpty
  let other : ContainerState := { st with seed := st.seed + 1 }
  have hOther : other ≠ st := fun hEq => by
    have hSeed : st.seed + 1 = st.seed := congrArg ContainerState.seed hEq
    omega
  have hDiffers : serde.toStringPretty st ≠ serde.toStringPretty other :=
    fun hEq => hOther (serde.toStringPretty_injective hEq).symm
  have hCut := serde.cut other (serde.toStringPretty st) (hEmpty ▸ List.nil_prefix) hDiffers
  rw [serde.round] at hCut
  cases hCut

theorem fromStr_nil (st : ContainerState) : serde.fromStr [] = .error .parse :=
  serde.cut st [] List.nil_prefix (serde.toStringPretty_ne_nil st).symm

end Serde

def Status.asStr : Status → String
  | .creating => "creating"
  | .created => "created"
  | .running => "running"
  | .stopped => "stopped"

def Status.ofStr (s : String) : Status :=
  if s = "creating" then .creating
  else if s = "created" then .created
  else if s = "running" then .running
  else .stopped

theorem Status.ofStr_asStr (s : Status) : Status.ofStr (Status.asStr s) = s := by
  cases s <;> decide

def prettyCodec : Codec ContainerState :=
  ((Codec.quoted.after "\x7b\n  \"ociVersion\": ").pair <|
    (Codec.quoted.after ",\n  \"id\": ").pair <|
    ((Codec.quoted.via Status.asStr Status.ofStr Status.ofStr_asStr).after
      ",\n  \"status\": ").pair <|
    ((Codec.integer ',' rfl).after ",\n  \"pid\": ").pair <|
    (Codec.quoted.after "\n  \"bundle\": ").pair <|
    (Codec.quoted.after ",\n  \"rootfs\": ").pair <|
    ((Codec.natural ',' rfl).after ",\n  \"seed\": ").pair <|
    ((Codec.orNull ',' (Codec.integer ',' rfl) (Codec.integer_head rfl)).after
      "\n  \"exitCode\": ").pair <|
    (Codec.quoted.after "\n  \"created\": ").pair (Codec.literal "\n\x7d")).via
  (fun st => (st.ociVersion, st.id, st.status, st.pid, st.bundle, st.rootfs, st.seed, st.exitCode,
    st.created, ()))
  (fun x => match x with
    | (ociVersion, id, status, pid, bundle, rootfs, seed, exitCode, created, ()) =>
      ⟨⟨id, status, pid, exitCode⟩, ociVersion, bundle, rootfs, seed, created⟩)
  fun _ => rfl

/-- Reading and writing by character, strictly in the format of `to_string_pretty`. -/
def Serde.strict : Serde Char where
  toStringPretty := prettyCodec.encode
  fromStr text := match prettyCodec.parse text with
    | some st => .ok st
    | none => .error .parse
  nul := Char.ofNat 0
  round st := by rw [prettyCodec.parse_encode]
  cut st text hPrefix hCut := by rw [prettyCodec.parse_prefix hPrefix hCut]

end Dtrun.Commands
