import BirakFormal.Store.Index

/-!
# The durable repair queue

At most one row per peer and name. A row only ever takes a greater state, and every
rewrite takes the next revision of a persisted counter, so that a worker can tell whether
the row it finished is still the row it started from.
-/

namespace BirakFormal

open Tables

def largeRepairBytes : Int := 8 * 2 ^ 20

def isLargeRepair : Option FileMeta → Bool
  | none => false
  | some m => !m.deleted && largeRepairBytes ≤ m.size

/-- One change to record; `meta` is absent for legacy work known by name only. -/
structure QueuedChange where
  name : String
  version : Int
  meta? : Option FileMeta

def QueuedChange.ofMeta (m : FileMeta) : QueuedChange := ⟨m.name, m.version, some m⟩

structure EnqueueState where
  queue : Table RepairRow.key
  revision : Int
  fresh : Nat
  written : Nat

def queuedRow (peer reason : String) (now : Int) (c : QueuedChange) (old : Option RepairRow)
    (revision : Int) : RepairRow :=
  let kept := c.meta?.or (old.bind RepairRow.metadata)
  match old with
  | none => { peer := peer, name := c.name, version := c.version, attempts := 0, nextAttempt := now,
              firstSeen := now, lastError := reason, metadata := kept, revision := revision,
              large := isLargeRepair kept }
  | some row => { row with version := max row.version c.version, metadata := kept,
                           revision := revision, lastError := reason, large := isLargeRepair kept }

section
variable (limit : Int) (peer reason : String) (now : Int) (queued : Nat)

def queuedFor (queue : Table RepairRow.key) : Nat := (queue.rows.filter (·.peer = peer)).length

def alreadyQueued (c : QueuedChange) (old : Option RepairRow) : Bool :=
  match c.meta?, old.bind RepairRow.metadata with
  | some m, some kept => (compareState (some m) (some kept)).isLE
  | _, _ => false

def enqueueLoop : List QueuedChange → EnqueueState → EnqueueState × Option Err
  | [], st => (st, none)
  | c :: cs, st =>
    let old := st.queue.find (peer, c.name)
    -- Only a new name can grow the queue; a row already in it may always be updated.
    if old.isNone ∧ 0 < limit ∧ limit ≤ queued + st.fresh then
      (st, some (.repairQueueFull ("repair queue is full: peer " ++ peer ++ " holds " ++
        toString (queued + st.fresh) ++ " entries")))
    else if alreadyQueued c old then enqueueLoop cs st
    else enqueueLoop cs {
      queue := st.queue.put (queuedRow peer reason now c old (st.revision + 1))
      revision := st.revision + 1
      fresh := if old.isNone then st.fresh + 1 else st.fresh
      written := st.written + 1 }

end

namespace Store

/-- Record a batch in one transaction. Rows before one that does not fit are kept. -/
def enqueue (s : Store) (limit : Int) (now : Int) (peer reason : String) (batch : List QueuedChange) :
    (Nat × Option Err) × Store :=
  let st := enqueueLoop limit peer reason now (queuedFor peer s.repairQueue) batch
    { queue := s.repairQueue, revision := s.repairRevision, fresh := 0, written := 0 }
  ((st.1.written, st.2), { s with repairQueue := st.1.queue, repairRevision := st.1.revision })

def enqueueChange (s : Store) (limit : Int) (now : Int) (peer reason : String) (m : FileMeta) :
    Option Err × Store :=
  let r := s.enqueue limit now peer reason [.ofMeta m]
  (r.1.2, r.2)

def enqueueChanges (s : Store) (limit : Int) (now : Int) (peer reason : String) (ms : List FileMeta) :
    (Nat × Option Err) × Store :=
  s.enqueue limit now peer reason (ms.map .ofMeta)

def resolveRepairItem (s : Store) (item : RepairRow) : Store :=
  match s.repairQueue.find item.key with
  | some row => if row.revision = item.revision then
      { s with repairQueue := s.repairQueue.erase item.key } else s
  | none => s

def deferRepairItem (s : Store) (item : RepairRow) (next : Int) (cause : String) : Store :=
  match s.repairQueue.find item.key with
  | some row =>
    let row' := { row with attempts := row.attempts + 1, nextAttempt := next, lastError := cause }
    if row.revision = item.revision then { s with repairQueue := s.repairQueue.put row' } else s
  | none => s

def getPeerState (s : Store) (peer : String) : PeerState :=
  ((s.cursors.find peer).map Prod.snd).getD {}

def setPeerState (s : Store) (peer : String) (state : PeerState) : Store :=
  { s with cursors := s.cursors.put (peer, state) }

end Store

end BirakFormal
