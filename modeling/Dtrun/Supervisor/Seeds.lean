import Mathlib.Dynamics.PeriodicPts.Lemmas
import Dtrun.Library.Words
import Dtrun.Supervisor.Injections

/-! # The streams of the seeds

A draw can be undone, so the first eight bytes determine the state the generator was in. Two seeds
share a stream only where `Prng::new` maps them to one state, and every seed comes back to the state
that it started from.
-/
namespace Dtrun
set_option autoImplicit false
open Words

theorem leNat_cons (b : Byte) (rest : List Byte) :
    leNat (b :: rest) = b.toNat + 256 * leNat rest := rfl

theorem leU64_toLeBytes (x : U64) : leU64 (toLeBytes x) = x := by
  have hBytes : leNat ((toLeBytes x).take 8) = x.toNat := by
    have hBound : x.toNat < 18446744073709551616 := x.isLt
    simp [toLeBytes, List.range_succ, leNat_cons, leNat, Nat.shiftRight_eq_div_pow]
    omega
  rw [leU64, hBytes, BitVec.ofNat_toNat, BitVec.setWidth_eq]

theorem toLeBytes_injective : Function.Injective toLeBytes := by
  intro x y h
  rw [← leU64_toLeBytes x, h, leU64_toLeBytes]

namespace Prng

theorem advance_injective : Function.Injective advance := by
  have hSteps : advance = (fun x : U64 => x ^^^ (x >>> 27)) ∘ (fun x : U64 => x ^^^ (x <<< 25)) ∘
      fun x : U64 => x ^^^ (x >>> 12) := rfl
  rw [hSteps]
  apply Function.Injective.comp (xor_ushiftRight_injective (by decide))
  apply Function.Injective.comp (xor_shiftLeft_injective (by decide))
  exact xor_ushiftRight_injective (by decide)

/-- The multiplier is odd and has an inverse. -/
theorem nextU64_injective : Function.Injective fun r : Prng => r.nextU64.1 := by
  intro r v h
  have hInverse : (0x2545F4914F6CDD1D : U64) * 0x59071D96D81ECD35 = 1#64 := by decide
  have hState : advance r.state = advance v.state := mul_injective hInverse h
  cases r
  cases v
  exact congrArg Prng.mk (advance_injective hState)

theorem chunkLengths_of_le {n : Nat} (h : 8 ≤ n) :
    chunkLengths n = 8 :: chunkLengths (n - 8) := by
  have hDiv : n / 8 = (n - 8) / 8 + 1 := by omega
  have hMod : n % 8 = (n - 8) % 8 := by omega
  rw [chunkLengths, chunkLengths, hDiv, hMod, List.replicate_succ, List.cons_append]

theorem fill_take (r : Prng) {n : Nat} (h : 8 ≤ n) :
    (r.fill n).1.take 8 = toLeBytes r.nextU64.1 := by
  have hSplit : (r.fill n).1 = (toLeBytes r.nextU64.1).take 8 ++
      (r.nextU64.2.fillChunks (chunkLengths (n - 8))).1 := by
    rw [fill, chunkLengths_of_le h]
    rfl
  have hWhole : (toLeBytes r.nextU64.1).take 8 = toLeBytes r.nextU64.1 :=
    List.take_of_length_le (by simp)
  rw [hSplit, hWhole]
  exact List.take_left' (toLeBytes_length _)

theorem fill_injective {n : Nat} (h : 8 ≤ n) : Function.Injective fun r : Prng => (r.fill n).1 := by
  intro r v hEq
  have hWord : toLeBytes r.nextU64.1 = toLeBytes v.nextU64.1 := by
    rw [← fill_take r h, ← fill_take v h]
    exact congrArg (List.take 8) hEq
  exact nextU64_injective (toLeBytes_injective hWord)

/-- Seed 0 is taken as seed 1. -/
theorem new_eq_new {s t : U64} (hDistinct : s ≠ t) : new s = new t ↔ s ≤ 1 ∧ t ≤ 1 := by
  simp only [new, Prng.mk.injEq]
  constructor
  · intro h
    split at h
    · split at h
      · bv_omega
      · bv_omega
    · split at h
      · bv_omega
      · exact absurd h hDistinct
  · intro h
    split
    · split
      · rfl
      · bv_omega
    · split
      · bv_omega
      · bv_omega

/-- Two seeds inject different bytes from the first word on, unless they are 0 and 1. -/
theorem fill_ne_iff {s t : U64} (hDistinct : s ≠ t) {n : Nat} (hWord : 8 ≤ n) :
    ((new s).fill n).1 ≠ ((new t).fill n).1 ↔ ¬ (s ≤ 1 ∧ t ≤ 1) := by
  rw [← new_eq_new hDistinct]
  exact not_congr (fill_injective hWord).eq_iff

/-- The two seeds of the tests. -/
theorem fill_ne_iff_tested :
    ((new 7).fill 16).1 ≠ ((new 99).fill 16).1 ↔ ¬ ((7 : U64) ≤ 1 ∧ (99 : U64) ≤ 1) :=
  fill_ne_iff (by decide) (by decide)

theorem not_fill_ne : ¬ ∀ (s t : U64) (n : Nat), s ≠ t → 8 ≤ n →
    ((new s).fill n).1 ≠ ((new t).fill n).1 := by
  intro hAll
  exact hAll 0 1 8 (by decide) (by decide) rfl

/-- The streams without end are those that stay clear of the state zero. -/
structure Cycles (seed : U64) : Prop where
  state_ne : ∀ n, ((new seed).after n).state ≠ 0
  /-- the state update of a draw loses no state -/
  update : Function.Bijective fun s : U64 => (nextU64 ⟨s⟩).2.state
  update_ne : ∀ s : U64, s ≠ 0 → (nextU64 ⟨s⟩).2.state ≠ 0
  output : Function.Injective fun s : U64 => (nextU64 ⟨s⟩).1
  output_ne : ∀ n, ((new seed).after n).nextU64.1 ≠ 0
  periodic : ∃ period > 0, ∀ n, (new seed).after (n + period) = (new seed).after n

theorem advance_ne {s : U64} (h : s ≠ 0) : advance s ≠ 0 := by
  have hZero : advance 0 = 0 := by decide
  intro hAdvance
  apply h
  apply advance_injective
  rw [hAdvance, hZero]

theorem advance_bijective : Function.Bijective advance :=
  Finite.injective_iff_bijective.mp advance_injective

theorem new_ne (seed : U64) : (new seed).state ≠ 0 := by
  simp only [new]
  split
  · decide
  · bv_omega

theorem after_state (r : Prng) (n : Nat) : (r.after n).state = advance^[n] r.state := by
  induction n with
  | zero => rfl
  | succ n ih =>
    rw [Function.iterate_succ_apply', ← ih]
    rfl

theorem after_ne {r : Prng} (h : r.state ≠ 0) (n : Nat) : (r.after n).state ≠ 0 := by
  induction n with
  | zero => exact h
  | succ n ih => exact advance_ne ih

theorem output_ne_zero {r : Prng} (h : r.state ≠ 0) : r.nextU64.1 ≠ 0 := by
  have hZero : (⟨0⟩ : Prng).nextU64.1 = 0 := by decide
  intro hOutput
  apply h
  exact congrArg state (nextU64_injective (hOutput.trans hZero.symm))

/-- The update is a permutation of finitely many states, so it leads back to each. -/
theorem after_periodic (r : Prng) : ∃ period > 0, ∀ n, r.after (n + period) = r.after n := by
  obtain ⟨period, hPos, hBack⟩ := Function.mem_periodicPts.mp
    (advance_injective.mem_periodicPts r.state)
  refine ⟨period, hPos, fun n => ?_⟩
  have hReturn : r.after period = r := by
    cases r
    rw [Prng.mk.injEq]
    exact (after_state _ _).trans hBack
  rw [Nat.add_comm, after_add, hReturn]

theorem cycles (seed : U64) : Cycles seed where
  state_ne := after_ne (new_ne seed)
  update := advance_bijective
  update_ne _ h := advance_ne h
  output _ _ h := congrArg state (nextU64_injective h)
  output_ne n := output_ne_zero (after_ne (new_ne seed) n)
  periodic := after_periodic (new seed)

end Prng

theorem Services.observe_rng (v : Services) (r : Report) : ∃ n, (v.observe r).rng = v.rng.after n := by
  rw [observe]
  split
  · rw [entered]
    split
    · exact ⟨_, rfl⟩
    · split
      · exact ⟨0, rfl⟩
      · exact ⟨0, rfl⟩
  · exact ⟨0, rfl⟩

/-- The generator of a supervisor is somewhere on the stream of its seed, and never in the state
zero. -/
theorem World.rng_eq {pid : Pid} {seed : U64} {ok : World → Label → Prop} {k : Answers} {w : World}
    {labels : List Label} (hRun : (system pid seed).Run ok (start pid seed k) labels w) :
    (∃ n, w.machine.sv.rng = (Prng.new seed).after n) ∧ w.machine.sv.rng.state ≠ 0 := by
  have hReports (reports : List Report) (v : Services) :
      ∃ n, (reports.foldl Services.observe v).rng = v.rng.after n := by
    induction reports generalizing v with
    | nil => exact ⟨0, rfl⟩
    | cons r reports ih =>
      obtain ⟨n, hFirst⟩ := v.observe_rng r
      obtain ⟨m, hRest⟩ := ih (v.observe r)
      exact ⟨n + m, by rw [List.foldl_cons, hRest, hFirst, Prng.after_add]⟩
  have hStart : (start pid seed k).machine.services = ⟨pid, false, Prng.new seed, 0, []⟩ :=
    Machine.start_services
  obtain ⟨n, hRng⟩ := hReports (labels.filterMap Label.read) (start pid seed k).machine.services
  rw [← services_run hRun, hStart] at hRng
  have hStream : w.machine.sv.rng = (Prng.new seed).after n := hRng
  refine ⟨⟨n, hStream⟩, ?_⟩
  rw [hStream]
  exact Prng.after_ne (Prng.new_ne seed) n

end Dtrun
