import Mathlib.Data.Finset.Insert
import Mathlib.Data.Finset.Erase
import Mathlib.Data.BitVec

/-! # Pipes

A pipe is its unread bytes and who has an end of it open. A read waits while there is nothing to
read and somebody could still write, and finds the end of file once nobody can; a write needs a
reader. What is unread goes with the last end. Nobody fills a pipe to its capacity here.
-/
namespace Dtrun.Pipes
set_option autoImplicit false

structure Pipe (H : Type) where
  unread : List (BitVec 8)
  readers : Finset H
  writers : Finset H
  deriving DecidableEq

namespace Pipe

variable {H : Type} [DecidableEq H]

/-- A read of up to `n` bytes; no bytes are the end of file. -/
def read (p : Pipe H) (n : Nat) : Option (List (BitVec 8) × Pipe H) :=
  if p.unread = [] ∧ p.writers ≠ ∅ then none
  else some (p.unread.take n, { p with unread := p.unread.drop n })

def write (p : Pipe H) (data : List (BitVec 8)) : Option (Pipe H) :=
  if p.readers = ∅ then none else some { p with unread := p.unread ++ data }

def openedBy (p : Pipe H) (h : H) : Pipe H :=
  { p with readers := insert h p.readers, writers := insert h p.writers }

def closedBy (p : Pipe H) (h : H) : Pipe H where
  unread := if p.readers.erase h = ∅ ∧ p.writers.erase h = ∅ then [] else p.unread
  readers := p.readers.erase h
  writers := p.writers.erase h

variable {p q : Pipe H} {h h' : H} {data : List (BitVec 8)} {n : Nat}

theorem read_eq_some_iff :
    p.read n = some (data, q) ↔ ¬ (p.unread = [] ∧ p.writers ≠ ∅) ∧ data = p.unread.take n ∧
      q = { p with unread := p.unread.drop n } := by
  rw [read]
  split
  · rename_i hWaits
    simp [hWaits]
  · rename_i hReads
    simp [hReads, Prod.mk.injEq, eq_comm]

/-- With a writer left, a read that returns has found bytes. -/
theorem unread_ne_nil_of_read (hRead : p.read n = some (data, q)) (hWriter : h ∈ p.writers) :
    p.unread ≠ [] := by
  intro hEmpty
  obtain ⟨hReads, _⟩ := read_eq_some_iff.mp hRead
  exact hReads ⟨hEmpty, Finset.ne_empty_of_mem hWriter⟩

theorem read_writers (hRead : p.read n = some (data, q)) : q.writers = p.writers := by
  obtain ⟨_, _, rfl⟩ := read_eq_some_iff.mp hRead
  rfl

theorem write_eq_some_iff :
    p.write data = some q ↔ p.readers ≠ ∅ ∧ q = { p with unread := p.unread ++ data } := by
  rw [write]
  split
  · rename_i hNobody
    simp [hNobody]
  · rename_i hReaders
    simp [hReaders, eq_comm]

theorem write_writers (hWrite : p.write data = some q) : q.writers = p.writers := by
  obtain ⟨_, rfl⟩ := write_eq_some_iff.mp hWrite
  rfl

theorem closedBy_unread_ne_nil (hUnread : (p.closedBy h).unread ≠ []) : p.unread ≠ [] := by
  intro hEmpty
  simp [closedBy, hEmpty] at hUnread

theorem mem_writers_closedBy (hWriter : h' ∈ p.writers) (hOther : h' ≠ h) :
    h' ∈ (p.closedBy h).writers :=
  Finset.mem_erase.mpr ⟨hOther, hWriter⟩

end Pipe

end Dtrun.Pipes
