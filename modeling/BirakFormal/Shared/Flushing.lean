import Mathlib

/-!
# Files whose end may be lost

A file as the running system sees it, together with the length of the leading part that is
known to be on the medium. Flushing extends that part to the whole file; writing or cutting
inside it shortens it. A loss of power keeps that part and nothing else for certain.
-/

namespace Flushing

variable {α : Type}

structure Flushed (α : Type) where
  content : List α
  flushed : Nat
  flushed_le : flushed ≤ content.length

namespace Flushed

def empty : Flushed α := ⟨[], 0, Nat.le_refl 0⟩

def sync (f : Flushed α) : Flushed α := ⟨f.content, f.content.length, Nat.le_refl _⟩

/-- Cut the file after `n` elements, if it is longer. -/
def truncate (f : Flushed α) (n : Nat) : Flushed α where
  content := f.content.take n
  flushed := min f.flushed n
  flushed_le := by
    have := f.flushed_le
    rw [List.length_take]
    omega

def writeAt (f : Flushed α) (pos : Nat) (p : List α) : Flushed α where
  content := f.content.take pos ++ p ++ f.content.drop (pos + p.length)
  flushed := min f.flushed pos
  flushed_le := by
    have := f.flushed_le
    simp only [List.length_append, List.length_take, List.length_drop]
    omega

def Survives (f g : Flushed α) : Prop :=
  g.content.take f.flushed = f.content.take f.flushed ∧ g.flushed = g.content.length

variable {f : Flushed α} {n pos : Nat} {p : List α}

theorem content_writeAt_end (h : pos = f.content.length) : (f.writeAt pos p).content = f.content ++ p := by
  subst h
  simp [writeAt]

end Flushed

end Flushing
