import Mathlib.Data.BitVec

/-! # The seeded generator behind every injected byte

`xorshift64*` on one 64-bit word. A buffer is filled in chunks of eight bytes, the last of which
may be short; every chunk costs one draw.
-/
namespace Dtrun
set_option autoImplicit false

abbrev U64 := BitVec 64
abbrev U32 := BitVec 32
abbrev Byte := BitVec 8

/-- `u64::to_le_bytes`. -/
def toLeBytes (x : U64) : List Byte := (List.range 8).map fun i => (x >>> (8 * i)).setWidth 8

/-- `u64::from_le_bytes` and `u32::from_le_bytes` before the value is cut to its width. -/
def leNat : List Byte → Nat
  | [] => 0
  | b :: rest => b.toNat + 256 * leNat rest

def leU64 (bytes : List Byte) : U64 := BitVec.ofNat 64 (leNat (bytes.take 8))

def leU32 (bytes : List Byte) : U32 := BitVec.ofNat 32 (leNat (bytes.take 4))

@[simp] theorem toLeBytes_length (x : U64) : (toLeBytes x).length = 8 := by simp [toLeBytes]

structure Prng where
  state : U64
  deriving DecidableEq

namespace Prng

def new (seed : U64) : Prng := ⟨if seed < 1 then 1 else seed⟩

def advance (s : U64) : U64 :=
  let x := s ^^^ (s >>> 12)
  let x := x ^^^ (x <<< 25)
  x ^^^ (x >>> 27)

def nextU64 (r : Prng) : U64 × Prng :=
  let x := advance r.state
  (x * 0x2545F4914F6CDD1D, ⟨x⟩)

/-- The lengths of the chunks that `chunks_mut(8)` cuts a buffer of `n` bytes into. -/
def chunkLengths (n : Nat) : List Nat :=
  List.replicate (n / 8) 8 ++ if n % 8 = 0 then [] else [n % 8]

def fillChunks (r : Prng) : List Nat → List Byte × Prng
  | [] => ([], r)
  | len :: rest =>
    let (word, r) := r.nextU64
    let (out, r) := fillChunks r rest
    ((toLeBytes word).take len ++ out, r)

def fill (r : Prng) (n : Nat) : List Byte × Prng := r.fillChunks (chunkLengths n)

def after (r : Prng) : Nat → Prng
  | 0 => r
  | n + 1 => (r.after n).nextU64.2

def blocks (n : Nat) : Nat := (n + 7) / 8

theorem after_add (r : Prng) (m n : Nat) : r.after (m + n) = (r.after m).after n := by
  induction n with
  | zero => rfl
  | succ n ih =>
    rw [← Nat.add_assoc]
    simp only [after, ih]

theorem chunkLengths_length (n : Nat) : (chunkLengths n).length = blocks n := by
  simp only [chunkLengths, blocks, List.length_append, List.length_replicate]
  split
  · simp only [List.length_nil]
    omega
  · simp only [List.length_singleton]
    omega

theorem chunkLengths_le (n : Nat) : ∀ len ∈ chunkLengths n, len ≤ 8 := by
  intro len hLen
  simp only [chunkLengths, List.mem_append, List.mem_replicate] at hLen
  split at hLen
  · simp only [List.not_mem_nil, or_false] at hLen
    omega
  · simp only [List.mem_singleton] at hLen
    omega

theorem chunkLengths_sum (n : Nat) : (chunkLengths n).sum = n := by
  simp only [chunkLengths, List.sum_append, List.sum_replicate_nat]
  split
  · simp only [List.sum_nil]
    omega
  · simp only [List.sum_singleton]
    omega

theorem fillChunks_length (r : Prng) {lengths : List Nat} (h : ∀ len ∈ lengths, len ≤ 8) :
    (r.fillChunks lengths).1.length = lengths.sum := by
  induction lengths generalizing r with
  | nil => rfl
  | cons len rest ih =>
    have hLen := h len List.mem_cons_self
    have hRest := ih r.nextU64.2 fun x hx => h x (List.mem_cons_of_mem _ hx)
    simp only [fillChunks, List.length_append, List.length_take, toLeBytes_length, hRest,
      List.sum_cons]
    omega

theorem fill_length (r : Prng) (n : Nat) : (r.fill n).1.length = n := by
  rw [fill, fillChunks_length r (chunkLengths_le n), chunkLengths_sum]

theorem fillChunks_snd (r : Prng) (lengths : List Nat) :
    (r.fillChunks lengths).2 = r.after lengths.length := by
  induction lengths generalizing r with
  | nil => rfl
  | cons len rest ih =>
    simp only [fillChunks, ih, List.length_cons]
    rw [Nat.add_comm, after_add]
    rfl

theorem fill_snd (r : Prng) (n : Nat) : (r.fill n).2 = r.after (blocks n) := by
  rw [fill, fillChunks_snd, chunkLengths_length]

end Prng

end Dtrun
