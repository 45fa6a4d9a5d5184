import Mathlib

/-!
# The backlog of changed names

Names wait to be indexed in a slice that is shifted down over itself once enough of it has been
taken. A queue without repetitions says what it is for.
-/

namespace BirakFormal

section
variable {α : Type}

/-- Copy the first `n` entries from `head` on down to the front of the same array, in order. -/
def copyDown (head : Nat) : Nat → List α → List α
  | 0, order => order
  | n + 1, order =>
    let order := copyDown head n order
    match order[head + n]? with
    | some x => order.set n x
    | none => order

theorem length_copyDown (head n : Nat) (order : List α) : (copyDown head n order).length = order.length := by
  induction n with
  | zero => rfl
  | succ n ih =>
    rw [copyDown]
    split
    · rw [List.length_set, ih]
    · exact ih

theorem getElem?_copyDown {order : List α} {head n : Nat} (h : head + n ≤ order.length) (j : Nat) :
    (copyDown head n order)[j]? = if j < n then order[head + j]? else order[j]? := by
  induction n generalizing j with
  | zero => simp [copyDown]
  | succ n ih =>
    -- What is read next lies above everything that has been written.
    have hread : (copyDown head n order)[head + n]? = order[head + n]? := by
      rw [ih (by omega)]
      split
      · omega
      · rfl
    have hlength := length_copyDown head n order
    have hbound : head + n < order.length := by omega
    have hnext : order[head + n]? = some order[head + n] := List.getElem?_eq_getElem hbound
    rw [copyDown, hread, hnext]
    dsimp only
    rw [List.getElem?_set]
    by_cases hj : n = j
    · subst hj
      rw [if_pos rfl, if_pos (by omega), if_pos (by omega), hnext]
    · rw [if_neg hj, ih (by omega)]
      by_cases hlt : j < n
      · rw [if_pos hlt, if_pos (by omega)]
      · rw [if_neg hlt, if_neg (by omega)]

/-- `append(order[:0], order[head:]...)`. -/
def shiftDown (order : List α) (head : Nat) : List α :=
  (copyDown head (order.length - head) order).take (order.length - head)

theorem shiftDown_eq_drop {order : List α} {head : Nat} (h : head ≤ order.length) :
    shiftDown order head = order.drop head := by
  apply List.ext_getElem?
  intro j
  rw [shiftDown, List.getElem?_take, List.getElem?_drop]
  by_cases hj : j < order.length - head
  · rw [if_pos hj, getElem?_copyDown (by omega), if_pos hj]
  · rw [if_neg hj, List.getElem?_eq_none (by omega)]

end

/-- Names in arrival order from `head` on; `queued` are the keys of the set beside them. -/
structure Backlog where
  order : List String := []
  head : Nat := 0
  queued : Finset String := ∅

namespace Backlog

def len (b : Backlog) : Nat := b.order.length - b.head

def has (b : Backlog) (name : String) : Bool := name ∈ b.queued

def add (b : Backlog) (names : List String) : Backlog :=
  names.foldl (fun b name => if name ∈ b.queued then b
    else { b with queued := insert name b.queued, order := b.order ++ [name] }) b

def next (b : Backlog) : Option (String × Backlog) :=
  match b.order[b.head]? with
  | none => none
  | some name =>
    let order := b.order.set b.head ""
    let head := b.head + 1
    let queued := b.queued.erase name
    if head = order.length then some (name, ⟨[], 0, queued⟩)
    else if 4096 ≤ head ∧ order.length ≤ 2 * head then some (name, ⟨shiftDown order head, 0, queued⟩)
    else some (name, ⟨order, head, queued⟩)

end Backlog

inductive BacklogCall where
  | add (names : List String)
  | next
  deriving DecidableEq, Repr

def Backlog.calls : List BacklogCall → Backlog → Option (List String × Backlog)
  | [], b => some ([], b)
  | .add names :: cs, b => calls cs (b.add names)
  | .next :: cs, b => b.next.bind fun r => (calls cs r.2).map fun rest => (r.1 :: rest.1, rest.2)

def arrive (queue names : List String) : List String :=
  names.foldl (fun q name => if name ∈ q then q else q ++ [name]) queue

def queueCalls : List BacklogCall → List String → Option (List String × List String)
  | [], q => some ([], q)
  | .add names :: cs, q => queueCalls cs (arrive q names)
  | .next :: _, [] => none
  | .next :: cs, name :: q => (queueCalls cs q).map fun rest => (name :: rest.1, rest.2)

structure Backlog.Holds (b : Backlog) (q : List String) : Prop where
  drop : b.order.drop b.head = q
  queued : ∀ name, name ∈ b.queued ↔ name ∈ q
  nodup : q.Nodup
  bound : b.head ≤ b.order.length

namespace Backlog.Holds

variable {b : Backlog} {q : List String}

theorem add (h : b.Holds q) (names : List String) : (b.add names).Holds (arrive q names) := by
  unfold Backlog.add arrive
  induction names generalizing b q with
  | nil => exact h
  | cons name names ih =>
    rw [List.foldl_cons, List.foldl_cons]
    apply ih
    by_cases hmem : name ∈ q
    · rw [if_pos hmem, if_pos ((h.queued name).mpr hmem)]
      exact h
    · rw [if_neg hmem, if_neg (mt (h.queued name).mp hmem)]
      refine ⟨?_, ?_, ?_, ?_⟩
      · rw [← h.drop, List.drop_append_of_le_length h.bound]
      · intro n
        simp [h.queued n, or_comm]
      · rw [← List.concat_eq_append]
        exact h.nodup.concat hmem
      · simp only [List.length_append]
        have := h.bound
        omega

theorem len (h : b.Holds q) : b.len = q.length := by
  rw [← h.drop, List.length_drop, Backlog.len]

theorem next_nil (h : b.Holds []) : b.next = none := by
  unfold Backlog.next
  rw [List.getElem?_eq_none (List.drop_eq_nil_iff.mp h.drop)]

theorem next_cons {name : String} (h : b.Holds (name :: q)) :
    ∃ b', b.next = some (name, b') ∧ b'.Holds q := by
  have hlt : b.head < b.order.length := by
    have hlen := h.len
    simp only [Backlog.len, List.length_cons] at hlen
    omega
  obtain ⟨hname, hrest⟩ := List.cons.inj ((List.drop_eq_getElem_cons hlt).symm.trans h.drop)
  obtain ⟨hfresh, hnodup⟩ := List.nodup_cons.mp h.nodup
  have hqueued : ∀ n, n ∈ b.queued.erase name ↔ n ∈ q := by
    intro n
    rw [Finset.mem_erase, h.queued, List.mem_cons]
    constructor
    · intro hn
      exact hn.2.resolve_left hn.1
    · intro hn
      exact ⟨fun heq => hfresh (heq ▸ hn), Or.inr hn⟩
  have hdrop : (b.order.set b.head "").drop (b.head + 1) = q := by
    rw [List.drop_set_of_lt (by omega), hrest]
  have hlength : (b.order.set b.head "").length = b.order.length := List.length_set
  unfold Backlog.next
  rw [List.getElem?_eq_getElem hlt, hname]
  dsimp only
  by_cases hlast : b.head + 1 = (b.order.set b.head "").length
  · rw [if_pos hlast]
    refine ⟨_, rfl, ⟨?_, hqueued, hnodup, Nat.le_refl 0⟩⟩
    rw [← hdrop, hlast, List.drop_length, List.drop_nil]
  · rw [if_neg hlast]
    split
    · refine ⟨_, rfl, ⟨?_, hqueued, hnodup, Nat.zero_le _⟩⟩
      rw [List.drop_zero, shiftDown_eq_drop (by omega), hdrop]
    · exact ⟨_, rfl, ⟨hdrop, hqueued, hnodup, by dsimp only; omega⟩⟩

theorem calls (h : b.Holds q) (cs : List BacklogCall) : (b.calls cs = none ∧ queueCalls cs q = none) ∨
      ∃ out b' q', Backlog.calls cs b = some (out, b') ∧ queueCalls cs q = some (out, q') ∧ b'.Holds q' := by
  induction cs generalizing b q with
  | nil => exact Or.inr ⟨[], b, q, rfl, rfl, h⟩
  | cons c cs ih =>
    cases c with
    | add names => exact ih (h.add names)
    | next =>
      rw [Backlog.calls]
      cases q with
      | nil =>
        rw [h.next_nil]
        exact Or.inl ⟨rfl, rfl⟩
      | cons name q =>
        obtain ⟨b', hnext, h'⟩ := h.next_cons
        rw [hnext, queueCalls, Option.bind_some]
        rcases ih h' with ⟨hb, hq⟩ | ⟨out, b'', q'', hb, hq, h''⟩
        · rw [hb, hq]
          exact Or.inl ⟨rfl, rfl⟩
        · rw [hb, hq]
          exact Or.inr ⟨name :: out, b'', q'', rfl, rfl, h''⟩

end Backlog.Holds

/-- Every sequence of calls returns what the queue returns, and asks for a name of an empty
backlog where the queue is empty; what is left has the length and the members of the queue. -/
theorem backlog_is_queue (cs : List BacklogCall) : (Backlog.calls cs {} = none ∧ queueCalls cs [] = none) ∨
      ∃ out b q, Backlog.calls cs {} = some (out, b) ∧ queueCalls cs [] = some (out, q) ∧
        b.len = q.length ∧ (∀ name, b.has name = true ↔ name ∈ q) ∧ q.Nodup := by
  have hempty : Backlog.Holds {} [] := ⟨rfl, by simp, List.nodup_nil, Nat.le_refl 0⟩
  rcases hempty.calls cs with hnone | ⟨out, b, q, hb, hq, h⟩
  · exact Or.inl hnone
  · refine Or.inr ⟨out, b, q, hb, hq, h.len, fun name => ?_, h.nodup⟩
    rw [Backlog.has, decide_eq_true_eq]
    exact h.queued name

end BirakFormal
