import BirakFormal.Store.Queue

/-!
# The apply loop of a peer

`repairPeer` drains the queue of one peer. It waits for an event and, unless it is paused, hands
the due rows of two lanes to workers; a worker reports its end on a buffered channel. Workers end
and the queue changes between any two steps of the loop.
-/

namespace BirakFormal

open Relation

structure RepairEnd where
  name : String
  large : Bool
  failed : Bool

/-- `lane` is the lane the loop comes to next, and nothing while it waits for an event. -/
structure RepairLoop where
  active : List String := []
  lanes : Bool → Nat := fun _ => 0
  paused : Bool := false
  lane : Option Bool := none
  workers : List (String × Bool) := []
  completed : List RepairEnd := []

namespace RepairLoop

def receive (s : RepairLoop) (c : RepairEnd) (rest : List RepairEnd) : RepairLoop :=
  { s with active := s.active.erase c.name, lanes := Function.update s.lanes c.large (s.lanes c.large - 1),
           paused := s.paused || c.failed, completed := rest }

def start (s : RepairLoop) (large : Bool) (name : String) : RepairLoop :=
  { s with active := name :: s.active, lanes := Function.update s.lanes large (s.lanes large + 1),
           workers := (name, large) :: s.workers }

def finish (s : RepairLoop) (c : RepairEnd) : RepairLoop :=
  { s with workers := s.workers.erase (c.name, c.large), completed := s.completed ++ [c] }

section
variable (limit : Nat)

def offer (large : Bool) : List RepairRow → RepairLoop → RepairLoop
  | [], s => s
  | item :: items, s =>
    if item.name ∈ s.active then offer large items s
    else if (s.start large item.name).lanes large = limit then s.start large item.name
    else offer large items (s.start large item.name)

/-- One turn of the loop over the lanes; `due` is nothing where the queue could not be read. -/
def dispatch (s : RepairLoop) (large : Bool) (due : Option (List RepairRow)) : RepairLoop :=
  if s.lanes large = limit then s
  else match due with
    | none => { s with paused := true }
    | some items => offer limit large items s

/-- A loop that is cancelled hands out a leading part of the rows and takes no further step. -/
inductive Step : RepairLoop → RepairLoop → Prop
  | tick {s : RepairLoop} (h : s.lane = none) : Step s { s with paused := false, lane := some false }
  | wake {s : RepairLoop} (h : s.lane = none) (hp : s.paused = false) : Step s { s with lane := some false }
  | receive {s : RepairLoop} {c : RepairEnd} {rest : List RepairEnd} (h : s.lane = none)
      (hc : s.completed = c :: rest) :
      Step s { s.receive c rest with lane := if (s.receive c rest).paused then none else some false }
  | dispatch {s : RepairLoop} {large : Bool} (h : s.lane = some large) (due : Option (List RepairRow)) :
      Step s { s.dispatch limit large due with
        lane := if large || (s.dispatch limit large due).paused then none else some true }
  | finish {s : RepairLoop} {c : RepairEnd} (h : (c.name, c.large) ∈ s.workers) : Step s (s.finish c)

end

/-- What the loop has not heard the end of. -/
def held (s : RepairLoop) : List (String × Bool) :=
  s.workers ++ s.completed.map fun c => (c.name, c.large)

structure Accounted (limit : Nat) (s : RepairLoop) : Prop where
  nodup : s.active.Nodup
  names : s.active.Perm (s.held.map Prod.fst)
  lanes : ∀ large, s.lanes large = s.held.countP (·.2 = large)
  bounded : ∀ large, s.lanes large ≤ limit

variable {limit : Nat} {s t : RepairLoop} {large : Bool}

theorem Accounted.start (h : s.Accounted limit) {name : String} (hname : name ∉ s.active)
    (hfree : s.lanes large ≠ limit) : (s.start large name).Accounted limit := by
  refine ⟨List.nodup_cons.mpr ⟨hname, h.nodup⟩, h.names.cons name, fun l => ?_, fun l => ?_⟩
  all_goals
    have hl := h.lanes l
    have hle := h.bounded l
    simp only [RepairLoop.start, held, List.cons_append, List.countP_cons, Function.update_apply] at hl ⊢
    grind

theorem Accounted.receive (h : s.Accounted limit) {c : RepairEnd} {rest : List RepairEnd}
    (hc : s.completed = c :: rest) : (s.receive c rest).Accounted limit := by
  have hheld : s.held.Perm ((c.name, c.large) :: (s.receive c rest).held) := by
    rw [held, hc]
    exact List.perm_middle
  refine ⟨h.nodup.erase _, ?_, fun l => ?_, fun l => ?_⟩
  · have hnames := (h.names.trans (hheld.map Prod.fst)).erase c.name
    rwa [List.map_cons, List.erase_cons_head] at hnames
  all_goals
    have hl := h.lanes l
    have hle := h.bounded l
    rw [hheld.countP_eq, List.countP_cons] at hl
    simp only [RepairLoop.receive, Function.update_apply] at hl ⊢
    grind

theorem Accounted.finish (h : s.Accounted limit) {c : RepairEnd} (hc : (c.name, c.large) ∈ s.workers) :
    (s.finish c).Accounted limit := by
  have hheld : s.held.Perm (s.finish c).held := by
    simp only [held, RepairLoop.finish, List.map_append, ← List.append_assoc]
    exact ((List.perm_cons_erase hc).append_right _).trans (List.perm_append_singleton _ _).symm
  exact ⟨h.nodup, h.names.trans (hheld.map _), fun l => (h.lanes l).trans (hheld.countP_eq _), h.bounded⟩

theorem Accounted.offer (h : s.Accounted limit) (hfree : s.lanes large ≠ limit) (items : List RepairRow) :
    (offer limit large items s).Accounted limit := by
  induction items generalizing s with
  | nil => exact h
  | cons item items ih =>
    unfold RepairLoop.offer
    split
    · exact ih h hfree
    · next hname =>
      split
      · exact h.start hname hfree
      · next hnext => exact ih (h.start hname hfree) hnext

theorem Accounted.dispatch (h : s.Accounted limit) (due : Option (List RepairRow)) :
    (s.dispatch limit large due).Accounted limit := by
  unfold RepairLoop.dispatch
  split
  · exact h
  · next hfree =>
    cases due with
    | none => exact { h with }
    | some items => exact h.offer hfree items

theorem Accounted.step (h : s.Accounted limit) (hst : Step limit s t) : t.Accounted limit := by
  cases hst with
  | tick _ | wake _ _ => exact { h with }
  | receive _ hc => exact { h.receive hc with }
  | dispatch _ due => exact { h.dispatch due with }
  | finish hc => exact h.finish hc

theorem accounted_of_run (h : ReflTransGen (Step limit) {} s) : s.Accounted limit := by
  induction h with
  | refl => exact ⟨List.nodup_nil, .refl _, fun _ => rfl, fun _ => Nat.zero_le _⟩
  | tail _ hst ih => exact ih.step hst

/-- Along any run: no name is with two workers, nor handed out again before the loop has heard of
its end; a lane has at most `limit` workers; and the channel has room for the end of every worker,
so that none is stuck with it once the loop is gone. -/
theorem repairPeer_bounded (limit : Nat) (h : ReflTransGen (Step limit) {} s) :
    (s.held.map Prod.fst).Nodup ∧ (∀ large, s.workers.countP (·.2 = large) ≤ limit) ∧
      s.workers.length + s.completed.length ≤ 2 * limit := by
  have hs := accounted_of_run h
  refine ⟨hs.names.nodup_iff.mp hs.nodup, fun large => ?_, ?_⟩
  · calc s.workers.countP (·.2 = large) ≤ s.held.countP (·.2 = large) :=
        (List.sublist_append_left _ _).countP_le
      _ = s.lanes large := (hs.lanes large).symm
      _ ≤ limit := hs.bounded large
  · have hlength : s.held.length = s.lanes true + s.lanes false := by
      rw [hs.lanes, hs.lanes, List.length_eq_countP_add_countP (·.2 = true)]
      simp
    have hsmall := hs.bounded false
    have hlarge := hs.bounded true
    simp only [held, List.length_append, List.length_map] at hlength
    omega

theorem repairPeer_bounded_started : ∃ s, ReflTransGen (Step 1) {} s ∧ s.workers = [("a", false)] ∧
    s.workers.length + s.completed.length ≤ 2 := by
  have hrun := (ReflTransGen.single (@Step.tick 1 {} rfl)).tail
    (.dispatch rfl (some [queuedRow "p" "" 0 ⟨"a", 1, none⟩ none 1]))
  exact ⟨_, hrun, rfl, (repairPeer_bounded 1 hrun).2.2⟩

end RepairLoop

end BirakFormal
