import BirakFormal.Shared.CleanRuns
import BirakFormal.Shared.Windows
import BirakFormal.Watcher.Commits

/-!
# The budget for inferred deletions

Names that are indexed and no longer on the volume are collected and decided as a group: it
is published if it fits into what the last ten minutes left of the limit, and held as a whole
otherwise. The ledger of what was published lives in memory and, between groups, in the
store. While a group is published the commit lock is free between two names, so the clock
moves on, other parts of the node run, and the context may be cancelled.
-/

namespace BirakFormal

open Interruption Prog
open Windows (used recent)

/-- Names that are decided together; at most `keep` of them are remembered. -/
structure DeletionGroup where
  keep : Nat
  names : List String := []
  count : Nat := 0
  names_le : names.length ≤ count

def DeletionGroup.new (keep : Nat) : DeletionGroup := { keep, names_le := le_rfl }

def DeletionGroup.add (g : DeletionGroup) (name : String) : DeletionGroup :=
  if name ∈ g.names then g
  else if g.names.length < g.keep then
    { keep := g.keep, names := g.names ++ [name], count := g.count + 1,
      names_le := by rw [List.length_append]; exact Nat.add_le_add_right g.names_le 1 }
  else
    { keep := g.keep, names := g.names, count := g.count + 1, names_le := g.names_le.trans (Nat.le_succ _) }

def DeletionGroup.merge (g : DeletionGroup) : Option DeletionGroup → DeletionGroup
  | none => g
  | some other =>
    let all := other.names.foldl DeletionGroup.add g
    { all with
      count := all.count + (other.count - other.names.length)
      names_le := all.names_le.trans (Nat.le_add_right _ _) }

abbrev Publication := Windows.Entry Int

/-- `externalDeletionWindow`, in nanoseconds. -/
def externalDeletionWindow : Int := 10 * 60 * 1000000000

/-- What the rest of the world does from one moment to the next: the clock, the other parts
of the node and the cancellation of the context. -/
structure Surroundings where
  clock : Nat → Int
  clock_mono : Monotone clock
  moves : Nat → Node → Node
  cancelled : Nat → Bool

/-- A node with its breaker. `saved` is durable, the fields after it are in memory. -/
structure Guarded where
  node : Node
  tick : Nat := 0
  saved : Option (List Publication) := none
  events : Option DeletionGroup := none
  window : List Publication := []
  loaded : Bool := false
  held : Nat := 0
  heldError : String := ""

abbrev Breaker := Prog Err Guarded

def nodePart : Part Guarded Node where
  get w := w.node
  set w s := { w with node := s }
  get_set _ _ := rfl
  set_set _ _ _ := rfl
  set_get _ := rfl

variable (cfg : Config) (env : Surroundings)

/-- The node becomes `n` at the next moment. The storage stays validated, and `tombstones`
goes on recording the deletions of the breaker only. -/
def Guarded.become (w : Guarded) (n : Node) : Guarded :=
  { w with
    tick := w.tick + 1
    node := { n with
      recovered := true
      store := { n.store with
        now := env.clock (w.tick + 1), tombstones := w.node.store.tombstones } } }

def elapse : Breaker Unit := alter fun w => w.become env (env.moves w.tick w.node)

def setHeldDeletions (count : Nat) (message : String) : Breaker Unit :=
  alter fun w => { w with held := count, heldError := message }

/-- `publishedInWindowLocked`: drop what is older than the window and count the rest. -/
def publishedInWindow : Breaker Nat := do
  elapse env
  perform fun w =>
    let cutoff := w.node.store.now - externalDeletionWindow
    (.ok (used cutoff w.window), { w with window := recent cutoff w.window })

def loadDeletionWindow : Breaker Unit := do
  if ← look fun w => w.loaded then pure ()
  else do
    alter fun w => { w with loaded := true }
    match ← attempt (look fun w => w.saved) with
    | .error _ => alter fun w => { w with window := [] }
    | .ok saved => alter fun w =>
      { w with window := (saved.getD []).insertionSort fun p q => p.time ≤ q.time }

def saveDeletionWindow : Breaker Unit := do
  let _ ← publishedInWindow env
  let _ ← attempt (alter fun w => { w with saved := some w.window })
  pure ()

def storageFault : Failure Err → Failure Err
  | .raised (.nameCollision text) => .raised (.failed text)
  | .raised (.invalidName text) => .raised (.failed text)
  | e => e

def publishDeletion (name : String) : Sys Bool := do
  match ← attempt (validateStorageLocked cfg) with
  | .error e => rethrow (storageFault e)
  | .ok () => do
    match liveRow (← getFile name) with
    | none => pure false
    | some _ => do
      refreshFileLocked cfg name {}
      let after ← getFile name
      pure (after.any fun m => m.deleted)

def passesOver : Failure Err → Bool
  | .raised .busy | .raised (.integrity _) => true
  | .raised (.nameCollision _) | .raised (.invalidName _) => true
  | _ => false

def publishDeletions : List String → Nat → Breaker (Nat × Option (Failure Err))
  | [], published => pure (published, none)
  | name :: names, published => do
    if ← look fun w => env.cancelled w.tick then
      pure (published, some (.raised (.failed "context canceled")))
    else do
      elapse env
      match ← attempt (zoom nodePart (publishDeletion cfg name)) with
      | .ok true => publishDeletions names (published + 1)
      | .ok false => publishDeletions names published
      | .error e =>
        if passesOver e then publishDeletions names published else pure (published, some e)

def holding (limit used : Nat) (group : DeletionGroup) : String :=
  "holding " ++ toString group.count ++ " external deletions (limit " ++ toString limit ++
    " per 10 minutes" ++ (if 0 < used then ", " ++ toString used ++ " already published" else "") ++
    "): restore the files, or restart with sync.max_external_deletions raised to accept them"

def errHeldDeletions (message : String) : Err := .failed ("external deletions held: " ++ message)

def recordPublished (published : Nat) : Breaker Unit := do
  elapse env
  alter fun w => { w with window := w.window ++ [⟨w.node.store.now, published⟩] }
  saveDeletionWindow env

def publishGroup (group : DeletionGroup) (authoritative : Bool) : Breaker Unit := do
  let (published, err) ← publishDeletions cfg env group.names 0
  onlyIf (0 < published) (recordPublished env published)
  match err with
  | some e => rethrow e
  | none => onlyIf authoritative (setHeldDeletions 0 "")

/-- Publish the group if it fits what is left of the budget, hold all of it otherwise. -/
def settleDeletions (limit : Nat) (group : Option DeletionGroup) (authoritative : Bool) :
    Breaker Unit := do
  loadDeletionWindow
  let used ← publishedInWindow env
  let alreadyHeld ← look fun w => decide (0 < w.held)
  match group.filter fun g => g.count ≠ 0 with
  | none => onlyIf authoritative (setHeldDeletions 0 "")
  | some g =>
    if !authoritative && alreadyHeld then do
      let message ← look fun w => w.heldError
      raise (errHeldDeletions message)
    else if 0 < limit ∧ limit < used + g.count then do
      setHeldDeletions g.count (holding limit used g)
      raise (errHeldDeletions (holding limit used g))
    else publishGroup cfg env g authoritative

def Guarded.deferEventDeletion (w : Guarded) (limit : Nat) (name : String) : Guarded :=
  { w with events := some ((w.events.getD (.new (max 1 limit))).add name) }

def takeEventDeletions : Breaker (Option DeletionGroup) :=
  perform fun w => (.ok w.events, { w with events := none })

def settleEventDeletions (limit : Nat) : Breaker Unit := do
  let group ← takeEventDeletions
  match group.filter fun g => g.count ≠ 0 with
  | none => pure ()
  | some g => do
    let _ ← attempt (settleDeletions cfg env limit (some g) false)
    pure ()

def settleSweep (limit : Nat) (group : DeletionGroup) : Breaker Unit := do
  let waiting ← takeEventDeletions
  settleDeletions cfg env limit (some (group.merge waiting)) true

end BirakFormal
