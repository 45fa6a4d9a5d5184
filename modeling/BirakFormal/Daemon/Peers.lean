import BirakFormal.Daemon.Runs
import BirakFormal.Syncer.Polling

/-!
# A node and one of its peers

The peer commits rows under growing versions and may come back as a new incarnation, with
the same metadata or with rebuilt ones. The node polls it, compares manifests with it,
works off what it queued and decides whether it has caught up. Every store call, every reply
and every section under the commit lock is a step of its own, so between any two of them all
the others may run.
-/

namespace BirakFormal

open Interruption

structure Incarnation where
  epoch : String
  store : Store

/-- The answer to one request for changes, with the cursor it was asked from. `held` is not
part of it: the rows up to the announced version when the page was read. -/
structure Reply where
  state : PeerState
  epoch : String
  max : Option Int
  held : List FileMeta
  page : Option (List FileMeta)

def Reply.batchMax (r : Reply) : Int := (collapseByName (r.page.getD [])).2

inductive Poll where
  | idle
  | asked (state : PeerState)
  | headed (state : PeerState) (epoch : String) (max : Option Int)
  | served (r : Reply)
  | noted (r : Reply)
  | recorded (r : Reply)
  | compared (r : Reply) (wanted : List FileMeta)
  | enqueued (r : Reply)
  | advanced (version : Int)

/-- `peerStat`, as far as readiness reads it. -/
structure PeerStat where
  cursor : Int := 0
  epoch : String := ""
  peerMaxVersion : Int := 0
  reconciled : Bool := false
  succeeded : Bool := false
  consecutiveErrs : Nat := 0

def PeerStat.isSource (st : PeerStat) : Bool :=
  st.reconciled && st.succeeded && st.epoch ≠ "" && st.peerMaxVersion ≤ st.cursor &&
    st.consecutiveErrs = 0

/-- Where a `ServingReady` is: it has read the statistics, then the queue length. -/
inductive Readiness where
  | idle
  | chosen
  | counted
  deriving DecidableEq

/-- `epochs` and `latest` are not part of the node: every epoch the peer has had, and the
reply the node received last. -/
structure World where
  node : Node
  source : Incarnation
  epochs : List String
  poll : Poll := .idle
  workers : List (RepairRow × Task Err Node Verdict) := []
  stat : PeerStat := {}
  ready : Readiness := .idle
  initialized : Bool := false
  latest : Option Reply := none

variable (cfg : Config) (peer : String) (batchLimit : Nat)

def World.cursor (w : World) : PeerState := w.node.store.getPeerState peer

def World.withStore (w : World) (s : Store) : World := { w with node := { w.node with store := s } }

/-- What is queued for the peer is filed under its own name, and is usable here or held. -/
def Store.QueueUsable (s : Store) : Prop :=
  EachQueued (fun key m => key.1 = peer → m.name = key.2 ∧
    (validateChange cfg.digest cfg.patterns m = .ok () ∨ StateLe (some m) (s.getFile m.name)))
    s.repairQueue

def PeerStat.note (st : PeerStat) (r : Reply) : PeerStat :=
  { st with cursor := r.state.version, epoch := r.epoch, peerMaxVersion := r.max.getD st.peerMaxVersion }

def recordEpoch (s : Store) (r : Reply) : Store :=
  if r.state.epoch ≠ r.epoch ∧ r.epoch ≠ "" then
    s.setPeerState peer { version := r.state.version, epoch := r.epoch }
  else s

def advanceCursor (s : Store) (r : Reply) : Store :=
  if r.state.version < r.batchMax then
    s.setPeerState peer { version := r.batchMax, epoch := r.epoch }
  else s

inductive OtherPeer : Store → Store → Prop where
  | enqueue (s : Store) (now : Int) (q reason : String) (ms : List FileMeta) (hq : q ≠ peer) :
      OtherPeer s (s.enqueueChanges cfg.repairLimit now q reason ms).2
  | resolve (s : Store) (item : RepairRow) (hq : item.peer ≠ peer) :
      OtherPeer s (s.resolveRepairItem item)
  | defer (s : Store) (item : RepairRow) (next : Int) (cause : String) (hq : item.peer ≠ peer) :
      OtherPeer s (s.deferRepairItem item next cause)
  | cursor (s : Store) (q : String) (state : PeerState) (hq : q ≠ peer) :
      OtherPeer s (s.setPeerState q state)

inductive WorldStep : World → World → Prop where
  /- The peer commits a row, and comes back as a new incarnation. -/
  | write {w : World} {fold : String → String} {m : FileMeta} {isLocal : Bool} {v : Int} {st : Store}
      (h : w.source.store.commitPut fold m isLocal = .ok (v, st)) :
      WorldStep w { w with source := { w.source with store := st } }
  | incarnate {w : World} (source : Incarnation) (hversions : source.store.Versioned)
      (hepoch : source.epoch ∉ w.epochs) (hne : source.epoch ≠ "") :
      WorldStep w { w with source := source, epochs := source.epoch :: w.epochs }
  /- A poll. The answer is a leading part of what the peer has, or one that is refused. -/
  | ask {w : World} (hp : w.poll = .idle) : WorldStep w { w with poll := .asked (w.cursor peer) }
  | head {w : World} {state : PeerState} (hp : w.poll = .asked state) :
      WorldStep w { w with poll := .headed state w.source.epoch (some w.source.store.lastVersion) }
  | serve {w : World} {state : PeerState} {epoch : String} {max : Option Int}
      (hp : w.poll = .headed state epoch max) (he : w.source.epoch = epoch)
      (page : Option (List FileMeta))
      (hpage : (∃ k, page = some (w.source.store.getChanges state.version k)) ∨
        pageAccepted batchLimit state.version page = false) :
      WorldStep w { w with poll := .served ⟨state, epoch, max,
        w.source.store.files.rows.filter fun r => max.any (r.version ≤ ·), page⟩ }
  | note {w : World} {r : Reply} (hp : w.poll = .served r) :
      WorldStep w { w with poll := .noted r, stat := w.stat.note r, latest := some r }
  | reset {w : World} {r : Reply} (hp : w.poll = .noted r)
      (hreset : needsCursorReset r.state r.epoch r.max = true) :
      WorldStep w { w.withStore (w.node.store.setPeerState peer { version := 0, epoch := r.epoch }) with
        poll := .idle }
  | record {w : World} {r : Reply} (hp : w.poll = .noted r)
      (hreset : needsCursorReset r.state r.epoch r.max = false) :
      WorldStep w { w.withStore (recordEpoch peer w.node.store r) with poll := .recorded r }
  | compare {w : World} {r : Reply} (hp : w.poll = .recorded r)
      (hpage : pageAccepted batchLimit r.state.version r.page = true) (hne : r.page ≠ some [])
      (fenced : String → Bool) :
      WorldStep w { w with poll := .compared r (newerThanLocal w.node.store.getFile fenced
        (usableChanges cfg (collapseByName (r.page.getD [])).1)) }
  | enqueue {w : World} {r : Reply} {wanted : List FileMeta} (hp : w.poll = .compared r wanted)
      (now : Int) :
      WorldStep w
        { w.withStore (w.node.store.enqueueChanges cfg.repairLimit now peer "polled" wanted).2 with
          poll := if (w.node.store.enqueueChanges cfg.repairLimit now peer "polled" wanted).1.2.isNone
            then .enqueued r else .idle }
  | advance {w : World} {r : Reply} (hp : w.poll = .enqueued r) :
      WorldStep w { w.withStore (advanceCursor peer w.node.store r) with poll := .advanced r.batchMax }
  | restat {w : World} {version : Int} (hp : w.poll = .advanced version) :
      WorldStep w { w with poll := .idle, stat := { w.stat with cursor := version } }
  | abandon {w : World} : WorldStep w { w with poll := .idle }
  | succeed {w : World} :
      WorldStep w { w with stat := { w.stat with succeeded := true, consecutiveErrs := 0 } }
  | fail {w : World} :
      WorldStep w { w with stat := { w.stat with consecutiveErrs := w.stat.consecutiveErrs + 1 } }
  /- A manifest page, against rows and fences read at any earlier time. -/
  | reconcilePage {w : World} (page : List FileMeta) (rows : String → Option FileMeta)
      (fenced : String → Bool) (now : Int) :
      WorldStep w (w.withStore (w.node.store.enqueueChanges cfg.repairLimit now peer "reconcile"
        (newerThanLocal rows fenced (usableChanges cfg page))).2)
  | reconciled {w : World} : WorldStep w { w with stat := { w.stat with reconciled := true } }
  /- The repair workers. -/
  | take {w : World} (item : RepairRow) (a : Attempt) (hrec : w.node.recovered = true)
      (hitem : item ∈ w.node.store.repairQueue.rows) (hpeer : item.peer = peer)
      (hreply : ∀ m, item.metadata = some m → UsableReply cfg m a.reply) :
      WorldStep w { w with workers := (item, repairAttempt cfg a item) :: w.workers }
  | work {w : World} {before after : List (RepairRow × Task Err Node Verdict)} {item : RepairRow}
      {β : Type} {p : Sys β} {k : Except (Failure Err) β → Task Err Node Verdict}
      (hw : w.workers = before ++ (item, .next p k) :: after) {fs : List Fault}
      {r : Except (Failure Err) β} {t : Node} (hrun : p.run fs w.node = (.returned r, t)) :
      WorldStep w { w with node := t, workers := before ++ (item, k r) :: after }
  | finish {w : World} {before after : List (RepairRow × Task Err Node Verdict)} {item : RepairRow}
      {verdict : Verdict} (hw : w.workers = before ++ (item, .done verdict) :: after) {t : Node}
      (hstops : (endRepair item verdict).Stops w.node t) :
      WorldStep w { w with node := t, workers := before ++ after }
  /- Everything else on the node. -/
  | underLock {w : World} (sec : Section) (hrec : w.node.recovered = true) (hsec : sec.Allowed cfg)
      {t : Node} (h : (sec.prog cfg).Stops w.node t) :
      WorldStep w { w with node := t }
  | external {w : World} {t : Node} (h : SameIndex w.node t) : WorldStep w { w with node := t }
  | otherPeer {w : World} {s : Store} (h : OtherPeer cfg peer w.node.store s) :
      WorldStep w (w.withStore s)
  | restart {w : World} {u t : Node}
      (hcut : u = w.node ∨ ∃ (item : RepairRow) (β : Type) (p : Sys β)
        (k : Except (Failure Err) β → Task Err Node Verdict), (item, .next p k) ∈ w.workers ∧ p.Stops w.node u)
      (h : (validateStorageLocked cfg).Stops u.restarted t) :
      WorldStep w { w with node := t, poll := .idle, workers := [], stat := {}, ready := .idle }
  /- Readiness. -/
  | choose {w : World} (hr : w.ready = .idle) (hi : w.initialized = false)
      (hsource : w.stat.isSource = true) : WorldStep w { w with ready := .chosen }
  | count {w : World} (hr : w.ready = .chosen) (hempty : queuedFor peer w.node.store.repairQueue = 0) :
      WorldStep w { w with ready := .counted }
  | goReady {w : World} (hr : w.ready = .counted) :
      WorldStep w { w with ready := .idle, initialized := true }
  | giveUp {w : World} : WorldStep w { w with ready := .idle }

end BirakFormal
