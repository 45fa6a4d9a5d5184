import BirakFormal.Store.Queue

/-!
# The repair queue as a map

The queue beside what is kept in memory about it: the cached number of rows of each peer.
A ledger, which the code does not have, notes every state offered to a row since the row
was created and every revision ever written, so that the whole history of a queue can be
spoken about. One invariant ties the cache, the persisted counter, the rows and the ledger.
-/

namespace BirakFormal

open Tables

/-- What happened to the queue: states taken into the present rows, and revisions written,
newest first. -/
structure Ledger where
  accepted : List ((String × String) × FileMeta) := []
  written : List ((String × String) × Int) := []

variable {key : String × String}

namespace Ledger

def into (l : Ledger) (key : String × String) : List FileMeta :=
  (l.accepted.filter fun e => e.1 = key).map Prod.snd

def forget (l : Ledger) (queue : Table RepairRow.key) : Ledger :=
  { l with accepted := l.accepted.filter fun e => (queue.find e.1).isSome }

theorem mem_into {l : Ledger} {m : FileMeta} :
    m ∈ l.into key ↔ (key, m) ∈ l.accepted := by
  simp only [into, List.mem_map, List.mem_filter, decide_eq_true_eq]
  constructor
  · rintro ⟨⟨key', m'⟩, ⟨hmem, rfl⟩, rfl⟩
    exact hmem
  · intro hmem
    exact ⟨(key, m), ⟨hmem, rfl⟩, rfl⟩

theorem into_forget {l : Ledger} {queue : Table RepairRow.key}
    (h : (queue.find key).isSome) : (l.forget queue).into key = l.into key := by
  unfold into forget
  rw [List.filter_filter]
  congr 1
  refine List.filter_congr fun e _ => ?_
  by_cases he : e.1 = key
  · simp [he, h]
  · simp [he]

end Ledger

/-- `m` is a greatest state of the list, and no state where the list has none. -/
def Greatest (m : Option FileMeta) (states : List FileMeta) : Prop :=
  match m with
  | none => states = []
  | some x => x ∈ states ∧ ∀ y ∈ states, StateLe (some y) (some x)

variable {st : EnqueueState} {batch : List QueuedChange}

section
variable (limit : Int) (peer reason : String) (now : Int) (queued : Nat)

def NoRoom (c : QueuedChange) (st : EnqueueState) : Prop :=
  (st.queue.find (peer, c.name)).isNone ∧ 0 < limit ∧ limit ≤ queued + st.fresh

instance (c : QueuedChange) (st : EnqueueState) : Decidable (NoRoom limit peer queued c st) :=
  inferInstanceAs (Decidable (_ ∧ _))

def enqueueOne (c : QueuedChange) (st : EnqueueState) : EnqueueState :=
  let old := st.queue.find (peer, c.name)
  if alreadyQueued c old then st
  else {
    queue := st.queue.put (queuedRow peer reason now c old (st.revision + 1))
    revision := st.revision + 1
    fresh := if old.isNone then st.fresh + 1 else st.fresh
    written := st.written + 1 }

variable {c : QueuedChange}

variable {peer reason now} in
theorem enqueueOne_of_queued (h : alreadyQueued c (st.queue.find (peer, c.name)) = true) :
    enqueueOne peer reason now c st = st := if_pos h

variable {peer reason now} in
theorem enqueueOne_of_new (h : alreadyQueued c (st.queue.find (peer, c.name)) = false) :
    enqueueOne peer reason now c st =
      { queue := st.queue.put
          (queuedRow peer reason now c (st.queue.find (peer, c.name)) (st.revision + 1))
        revision := st.revision + 1
        fresh := if (st.queue.find (peer, c.name)).isNone then st.fresh + 1 else st.fresh
        written := st.written + 1 } := if_neg (by rw [h]; decide)

variable {limit peer reason now queued} in
theorem enqueueLoop_of_noRoom {cs : List QueuedChange} (h : NoRoom limit peer queued c st) :
    enqueueLoop limit peer reason now queued (c :: cs) st =
      (st, some (.repairQueueFull ("repair queue is full: peer " ++ peer ++ " holds " ++
        toString (queued + st.fresh) ++ " entries"))) := by
  rw [enqueueLoop]
  exact if_pos h

variable {limit peer reason now queued} in
theorem enqueueLoop_of_room {cs : List QueuedChange} (h : ¬NoRoom limit peer queued c st) :
    enqueueLoop limit peer reason now queued (c :: cs) st =
      enqueueLoop limit peer reason now queued cs (enqueueOne peer reason now c st) := by
  rw [enqueueLoop]
  refine (if_neg h).trans ?_
  rw [enqueueOne]
  split
  · rfl
  · rfl

variable {limit peer reason now queued} in
theorem enqueueLoop_keeps {P : EnqueueState → Prop} (h : P st)
    (hone : ∀ c ∈ batch, ∀ st, ¬NoRoom limit peer queued c st → P st → P (enqueueOne peer reason now c st)) :
    P (enqueueLoop limit peer reason now queued batch st).1 := by
  induction batch generalizing st with
  | nil => exact h
  | cons c cs ih =>
    by_cases hroom : NoRoom limit peer queued c st
    · rw [enqueueLoop_of_noRoom hroom]
      exact h
    · rw [enqueueLoop_of_room hroom]
      exact ih (hone c List.mem_cons_self st hroom h) fun c' hc' => hone c' (List.mem_cons_of_mem c hc')

def merged : List QueuedChange → EnqueueState → List QueuedChange
  | [], _ => []
  | c :: cs, st =>
    if NoRoom limit peer queued c st then [] else c :: merged cs (enqueueOne peer reason now c st)

def Ledger.note (l : Ledger) (c : QueuedChange) (st : EnqueueState) : Ledger where
  accepted := (c.meta?.toList.map fun m => ((peer, c.name), m)) ++ l.accepted
  written :=
    if alreadyQueued c (st.queue.find (peer, c.name)) then l.written
    else ((peer, c.name), st.revision + 1) :: l.written

def Ledger.notes (l : Ledger) : List QueuedChange → EnqueueState → Ledger
  | [], _ => l
  | c :: cs, st => Ledger.notes (l.note peer c st) cs (enqueueOne peer reason now c st)

end

structure Repairs where
  store : Store
  queueSize : String → Nat
  ledger : Ledger

namespace Store

def resolveRepair (s : Store) (peer name : String) : Store :=
  { s with repairQueue := s.repairQueue.erase (peer, name) }

def deferRepair (s : Store) (peer name : String) (next : Int) (cause : String) : Store :=
  match s.repairQueue.find (peer, name) with
  | some row =>
    let row' := { row with attempts := row.attempts + 1, nextAttempt := next, lastError := cause }
    { s with repairQueue := s.repairQueue.put row' }
  | none => s

end Store

namespace Repairs

def opened (s : Store) : Repairs where
  store := { s with repairQueue := .empty }
  queueSize := fun _ => 0
  ledger := {}

def begun (q : Repairs) : EnqueueState where
  queue := q.store.repairQueue
  revision := q.store.repairRevision
  fresh := 0
  written := 0

def pendingRepairCount (q : Repairs) (peer : String) : Nat := q.queueSize peer

def addQueueSize (q : Repairs) (peer : String) (fresh : Nat) : String → Nat := fun p =>
  if p = peer then q.queueSize p + fresh else q.queueSize p

/-- `trackDeletion`: the rows a delete matched leave the cached length, never below zero. -/
def trackDeletion (q : Repairs) (peer : String) (s : Store) : Repairs where
  store := s
  queueSize := fun p =>
    if p = peer then q.queueSize p - (q.store.repairQueue.rows.length - s.repairQueue.rows.length)
    else q.queueSize p
  ledger := q.ledger.forget s.repairQueue

def enqueue (q : Repairs) (limit now : Int) (peer reason : String) (batch : List QueuedChange) :
    (Nat × Option Err) × Repairs :=
  let r := enqueueLoop limit peer reason now (q.queueSize peer) batch q.begun
  let noted := Ledger.notes peer reason now q.ledger
    (merged limit peer reason now (q.queueSize peer) batch q.begun) q.begun
  -- A batch that writes nothing is not committed.
  if r.1.written = 0 then ((0, r.2), { q with ledger := noted })
  else ((r.1.written, r.2),
    { store := { q.store with repairQueue := r.1.queue, repairRevision := r.1.revision }
      queueSize := q.addQueueSize peer r.1.fresh
      ledger := noted })

def reopen (q : Repairs) : Repairs where
  store := { q.store with
    repairRevision := (q.store.repairQueue.rows.map RepairRow.revision).foldl max q.store.repairRevision }
  queueSize := fun p => queuedFor p q.store.repairQueue
  ledger := q.ledger

/-- One call on the queue. A call that fails is rolled back and changes nothing. -/
inductive Call where
  | enqueue (now : Int) (peer reason : String) (batch : List QueuedChange)
  | resolveRepair (peer name : String)
  | resolveRepairItem (item : RepairRow)
  | deferRepair (peer name : String) (next : Int) (cause : String)
  | deferRepairItem (item : RepairRow) (next : Int) (cause : String)
  | reopen

def call (limit : Int) (q : Repairs) : Call → Repairs
  | .enqueue now peer reason batch => (q.enqueue limit now peer reason batch).2
  | .resolveRepair peer name => q.trackDeletion peer (q.store.resolveRepair peer name)
  | .resolveRepairItem item => q.trackDeletion item.peer (q.store.resolveRepairItem item)
  | .deferRepair peer name next cause => { q with store := q.store.deferRepair peer name next cause }
  | .deferRepairItem item next cause => { q with store := q.store.deferRepairItem item next cause }
  | .reopen => q.reopen

def calls (limit : Int) (q : Repairs) (cs : List Call) : Repairs := cs.foldl (call limit) q

end Repairs

structure Ledgered (queue : Table RepairRow.key) (revision : Int) (l : Ledger) : Prop where
  greatest : ∀ row ∈ queue.rows, Greatest row.metadata (l.into row.key)
  lane : ∀ row ∈ queue.rows, row.large = isLargeRepair row.metadata
  written : ∀ row ∈ queue.rows, (row.key, row.revision) ∈ l.written
  newest : ∀ row ∈ queue.rows, ∀ w ∈ l.written, w.1 = row.key → w.2 ≤ row.revision
  present : ∀ e ∈ l.accepted, (queue.find e.1).isSome
  rising : l.written.Pairwise fun later earlier => earlier.2 < later.2
  bounded : ∀ w ∈ l.written, w.2 ≤ revision

namespace Ledgered

variable {queue : Table RepairRow.key} {revision : Int} {l : Ledger}

theorem empty (revision : Int) : Ledgered .empty revision {} where
  greatest := fun _ h => absurd h List.not_mem_nil
  lane := fun _ h => absurd h List.not_mem_nil
  written := fun _ h => absurd h List.not_mem_nil
  newest := fun _ h => absurd h List.not_mem_nil
  present := fun _ h => absurd h List.not_mem_nil
  rising := List.Pairwise.nil
  bounded := fun _ h => absurd h List.not_mem_nil

theorem into_eq_nil (h : Ledgered queue revision l) (hk : queue.find key = none) : l.into key = [] := by
  refine List.eq_nil_iff_forall_not_mem.mpr fun m hm => ?_
  have hsome := h.present _ (Ledger.mem_into.mp hm)
  rw [hk] at hsome
  exact absurd hsome (by decide)

theorem put_same (h : Ledgered queue revision l) {row row' : RepairRow} (hmem : row ∈ queue.rows)
    (hkey : row'.key = row.key) (hmeta : row'.metadata = row.metadata)
    (hrev : row'.revision = row.revision) (hlarge : row'.large = row.large) :
    Ledgered (queue.put row') revision l where
  greatest := by
    intro r hr
    rcases Table.mem_put_rows.mp hr with rfl | ⟨hr, -⟩
    · rw [hmeta, hkey]
      exact h.greatest row hmem
    · exact h.greatest r hr
  lane := by
    intro r hr
    rcases Table.mem_put_rows.mp hr with rfl | ⟨hr, -⟩
    · rw [hlarge, hmeta]
      exact h.lane row hmem
    · exact h.lane r hr
  written := by
    intro r hr
    rcases Table.mem_put_rows.mp hr with rfl | ⟨hr, -⟩
    · rw [hrev, hkey]
      exact h.written row hmem
    · exact h.written r hr
  newest := by
    intro r hr w hw hkw
    rcases Table.mem_put_rows.mp hr with rfl | ⟨hr, -⟩
    · rw [hrev]
      exact h.newest row hmem w hw (hkw.trans hkey)
    · exact h.newest r hr w hw hkw
  present := by
    intro e he
    rw [Table.find_put]
    split
    · rfl
    · exact h.present e he
  rising := h.rising
  bounded := h.bounded

theorem erase (h : Ledgered queue revision l) (key : String × String) :
    Ledgered (queue.erase key) revision (l.forget (queue.erase key)) where
  greatest := by
    intro r hr
    rw [Ledger.into_forget (by rw [Table.mem_rows_iff.mp hr]; rfl)]
    exact h.greatest r (Table.mem_erase_rows.mp hr).1
  lane := fun r hr => h.lane r (Table.mem_erase_rows.mp hr).1
  written := fun r hr => h.written r (Table.mem_erase_rows.mp hr).1
  newest := fun r hr => h.newest r (Table.mem_erase_rows.mp hr).1
  present := fun _ he => (List.mem_filter.mp he).2
  rising := h.rising
  bounded := h.bounded

theorem forget_self (h : Ledgered queue revision l) : l.forget queue = l := by
  have hself : (l.accepted.filter fun e => (queue.find e.1).isSome) = l.accepted :=
    List.filter_eq_self.mpr h.present
  rw [Ledger.forget, hself]

end Ledgered

section
variable {peer reason : String} {now : Int} {c : QueuedChange} {l : Ledger} {old : Option RepairRow}

theorem alreadyQueued_iff : alreadyQueued c old = true ↔
    ∃ m row kept, c.meta? = some m ∧ old = some row ∧ row.metadata = some kept ∧ StateLe (some m) (some kept) := by
  unfold alreadyQueued
  constructor
  · intro h
    split at h
    · next m kept hm hkept =>
      obtain ⟨row, hold, hrow⟩ := Option.bind_eq_some_iff.mp hkept
      exact ⟨m, row, kept, hm, hold, hrow, h⟩
    · exact absurd h (by decide)
  · rintro ⟨m, row, kept, hm, rfl, hrow, hle⟩
    rw [hm, Option.bind_some, hrow]
    exact hle

variable {revision : Int}

@[simp] theorem queuedRow_key
    (h : ∀ row, old = some row → row.key = (peer, c.name)) :
    (queuedRow peer reason now c old revision).key = (peer, c.name) := by
  cases old with
  | none => rfl
  | some row => exact h row rfl

@[simp] theorem queuedRow_revision :
    (queuedRow peer reason now c old revision).revision = revision := by
  cases old <;> rfl

@[simp] theorem queuedRow_metadata :
    (queuedRow peer reason now c old revision).metadata = c.meta?.or (old.bind RepairRow.metadata) := by
  cases old <;> rfl

@[simp] theorem queuedRow_large :
    (queuedRow peer reason now c old revision).large =
      isLargeRepair (c.meta?.or (old.bind RepairRow.metadata)) := by
  cases old <;> rfl

theorem into_note : (l.note peer c st).into key =
    if key = (peer, c.name) then c.meta?.toList ++ l.into key else l.into key := by
  unfold Ledger.note Ledger.into
  rw [List.filter_append, List.map_append]
  cases c.meta? with
  | none => simp
  | some m =>
    by_cases hk : key = (peer, c.name)
    · simp [hk]
    · simp [hk, Ne.symm hk]

theorem greatest_queuedRow (h : Ledgered st.queue st.revision l)
    (hnew : alreadyQueued c (st.queue.find (peer, c.name)) = false) :
    Greatest (c.meta?.or ((st.queue.find (peer, c.name)).bind RepairRow.metadata))
      (c.meta?.toList ++ l.into (peer, c.name)) := by
  cases hold : st.queue.find (peer, c.name) with
  | none =>
    rw [h.into_eq_nil hold]
    cases c.meta? with
    | none => exact rfl
    | some m =>
      refine ⟨List.mem_singleton_self m, fun y hy => ?_⟩
      rw [List.mem_singleton.mp hy, stateLe_iff]
  | some row =>
    have hgreatest := h.greatest row (Table.find_mem hold)
    rw [Table.find_key hold] at hgreatest
    rw [Option.bind_some]
    cases hm : c.meta? with
    | none => simpa using hgreatest
    | some m =>
      refine ⟨List.mem_cons_self, fun y hy => ?_⟩
      rcases List.mem_cons.mp hy with rfl | hy
      · rw [stateLe_iff]
      · cases hkept : row.metadata with
        | none =>
          rw [hkept] at hgreatest
          change l.into (peer, c.name) = [] at hgreatest
          rw [hgreatest] at hy
          exact absurd hy List.not_mem_nil
        | some kept =>
          rw [hkept] at hgreatest
          have hyk := hgreatest.2 y hy
          rw [hold] at hnew
          -- The change was not skipped, so the state kept so far is below it.
          have hlt : ¬StateLe (some m) (some kept) := by
            intro hle
            rw [alreadyQueued_iff.mpr ⟨m, row, kept, hm, rfl, hkept, hle⟩] at hnew
            exact absurd hnew (by decide)
          rw [stateLe_iff] at hyk hlt ⊢
          exact hyk.trans (not_le.mp hlt).le

theorem Ledgered.skip (h : Ledgered st.queue st.revision l)
    (hold : alreadyQueued c (st.queue.find (peer, c.name)) = true) :
    Ledgered st.queue st.revision (l.note peer c st) := by
  have hwritten : (l.note peer c st).written = l.written := if_pos hold
  obtain ⟨m, row, kept, hm, hfind, hkept, hle⟩ := alreadyQueued_iff.mp hold
  refine ⟨?_, h.lane, ?_, ?_, ?_, ?_, ?_⟩
  · intro r hr
    have hgreatest := h.greatest r hr
    rw [into_note]
    by_cases hk : r.key = (peer, c.name)
    · have hrow : r = row := by
        have hfind' := Table.mem_rows_iff.mp hr
        rw [hk, hfind] at hfind'
        exact (Option.some.inj hfind').symm
      subst hrow
      rw [if_pos hk, hm, hkept]
      rw [hkept] at hgreatest
      refine ⟨List.mem_cons_of_mem m hgreatest.1, fun y hy => ?_⟩
      rcases List.mem_cons.mp hy with rfl | hy
      · exact hle
      · exact hgreatest.2 y hy
    · rw [if_neg hk]
      exact hgreatest
  · rw [hwritten]
    exact h.written
  · rw [hwritten]
    exact h.newest
  · intro e he
    rcases List.mem_append.mp he with he | he
    · rw [hm] at he
      rw [List.mem_singleton.mp he, hfind]
      rfl
    · exact h.present e he
  · rw [hwritten]
    exact h.rising
  · rw [hwritten]
    exact h.bounded

theorem Ledgered.write (h : Ledgered st.queue st.revision l)
    (hnew : alreadyQueued c (st.queue.find (peer, c.name)) = false) :
    Ledgered (st.queue.put (queuedRow peer reason now c (st.queue.find (peer, c.name)) (st.revision + 1)))
      (st.revision + 1) (l.note peer c st) := by
  have hkey : (queuedRow peer reason now c (st.queue.find (peer, c.name)) (st.revision + 1)).key =
      (peer, c.name) := queuedRow_key fun _ => Table.find_key
  have hwritten : (l.note peer c st).written = ((peer, c.name), st.revision + 1) :: l.written :=
    if_neg (by rw [hnew]; decide)
  have hfresh : ∀ w ∈ l.written, w.2 < st.revision + 1 := by
    intro w hw
    have := h.bounded w hw
    omega
  refine ⟨?_, ?_, ?_, ?_, ?_, ?_, ?_⟩
  · intro r hr
    rw [into_note]
    rcases Table.mem_put_rows.mp hr with rfl | ⟨hr, hne⟩
    · rw [hkey, if_pos rfl, queuedRow_metadata]
      exact greatest_queuedRow h hnew
    · rw [hkey] at hne
      rw [if_neg hne]
      exact h.greatest r hr
  · intro r hr
    rcases Table.mem_put_rows.mp hr with rfl | ⟨hr, -⟩
    · rw [queuedRow_large, queuedRow_metadata]
    · exact h.lane r hr
  · intro r hr
    rw [hwritten]
    rcases Table.mem_put_rows.mp hr with rfl | ⟨hr, -⟩
    · rw [hkey, queuedRow_revision]
      exact List.mem_cons_self
    · exact List.mem_cons_of_mem _ (h.written r hr)
  · intro r hr w hw hkw
    rw [hwritten] at hw
    rcases Table.mem_put_rows.mp hr with rfl | ⟨hr, hne⟩
    · rw [queuedRow_revision]
      rcases List.mem_cons.mp hw with rfl | hw
      · exact le_rfl
      · exact (hfresh w hw).le
    · rw [hkey] at hne
      rcases List.mem_cons.mp hw with rfl | hw
      · exact absurd hkw.symm hne
      · exact h.newest r hr w hw hkw
  · intro e he
    rw [Table.find_put, hkey]
    split
    · rfl
    · next hne =>
      rcases List.mem_append.mp he with he | he
      · obtain ⟨m, -, rfl⟩ := List.mem_map.mp he
        exact absurd rfl hne
      · exact h.present e he
  · rw [hwritten]
    exact List.pairwise_cons.mpr ⟨hfresh, h.rising⟩
  · intro w hw
    rw [hwritten] at hw
    rcases List.mem_cons.mp hw with rfl | hw
    · exact le_rfl
    · exact (hfresh w hw).le

theorem Ledgered.enqueueOne (h : Ledgered st.queue st.revision l) :
    Ledgered (enqueueOne peer reason now c st).queue (enqueueOne peer reason now c st).revision
      (l.note peer c st) := by
  cases hq : alreadyQueued c (st.queue.find (peer, c.name)) with
  | true =>
    rw [enqueueOne_of_queued hq]
    exact h.skip hq
  | false =>
    rw [enqueueOne_of_new hq]
    exact h.write hq

end

theorem queuedFor_erase (queue : Table RepairRow.key) (key : String × String) (p : String) :
    queuedFor p (queue.erase key) + (if (queue.find key).isSome ∧ key.1 = p then 1 else 0) = queuedFor p queue := by
  have hcount := Table.length_filter_erase queue key fun row => row.peer = p
  cases hfind : queue.find key with
  | none => simpa [queuedFor, hfind] using hcount
  | some row =>
    have hpeer : row.peer = key.1 := congrArg Prod.fst (Table.find_key hfind)
    rw [hfind] at hcount
    unfold queuedFor
    rw [← hcount]
    by_cases hp : key.1 = p
    · simp [Option.filter, hpeer, hp]
    · simp [Option.filter, hpeer, hp]

theorem length_erase (queue : Table RepairRow.key) (key : String × String) :
    (queue.erase key).rows.length + (if (queue.find key).isSome then 1 else 0) = queue.rows.length := by
  have hcount := Table.length_filter_erase queue key fun _ => true
  cases hfind : queue.find key with
  | none => simpa [hfind] using hcount
  | some row => simpa [hfind, Option.filter] using hcount

theorem queuedFor_put (queue : Table RepairRow.key) (row : RepairRow) (p : String) :
    queuedFor p (queue.put row) =
      queuedFor p queue + (if (queue.find row.key).isNone ∧ row.peer = p then 1 else 0) := by
  have hput : queuedFor p (queue.put row) =
      queuedFor p (queue.erase row.key) + (if row.peer = p then 1 else 0) := by
    unfold queuedFor Table.put
    rw [List.filter_cons]
    by_cases hp : row.peer = p
    · simp [hp]
    · simp [hp]
  rw [hput, ← queuedFor_erase queue row.key p]
  have hpeer : row.key.1 = row.peer := rfl
  rw [hpeer]
  cases hfind : queue.find row.key with
  | none => simp
  | some old => simp

section
variable {peer reason : String} {now : Int} {c : QueuedChange} {st : EnqueueState}

variable (peer reason now c st) in
theorem queuedFor_enqueueOne (p : String) :
    queuedFor p (enqueueOne peer reason now c st).queue + (if p = peer then st.fresh else 0) =
      queuedFor p st.queue + (if p = peer then (enqueueOne peer reason now c st).fresh else 0) := by
  cases hq : alreadyQueued c (st.queue.find (peer, c.name)) with
  | true => rw [enqueueOne_of_queued hq]
  | false =>
    rw [enqueueOne_of_new hq]
    have hkey : (queuedRow peer reason now c (st.queue.find (peer, c.name)) (st.revision + 1)).key =
      (peer, c.name) := queuedRow_key fun _ => Table.find_key
    have hpeer : (queuedRow peer reason now c (st.queue.find (peer, c.name)) (st.revision + 1)).peer =
      peer := congrArg Prod.fst hkey
    rw [queuedFor_put, hkey, hpeer]
    by_cases hp : p = peer
    · cases hfind : st.queue.find (peer, c.name) with
      | none => simp [hp]; omega
      | some row => simp [hp]
    · simp [hp, Ne.symm hp]

theorem fresh_enqueueOne_le {limit : Int} {queued : Nat} (hlimit : 0 < limit)
    (h : (queued + st.fresh : Int) ≤ limit) (hroom : ¬NoRoom limit peer queued c st) :
    (queued + (enqueueOne peer reason now c st).fresh : Int) ≤ limit := by
  cases hq : alreadyQueued c (st.queue.find (peer, c.name)) with
  | true =>
    rw [enqueueOne_of_queued hq]
    exact h
  | false =>
    rw [enqueueOne_of_new hq]
    dsimp only
    split
    · next hnone =>
      have hlt : ¬limit ≤ queued + st.fresh := fun hle => hroom ⟨hnone, hlimit, hle⟩
      push_cast
      omega
    · exact h

end

section
variable {limit : Int} {peer reason : String} {now : Int} {queued : Nat}

theorem enqueueLoop_merged (batch : List QueuedChange) (st : EnqueueState) :
    enqueueLoop limit peer reason now queued (merged limit peer reason now queued batch st) st =
      ((enqueueLoop limit peer reason now queued batch st).1, none) := by
  induction batch generalizing st with
  | nil => rfl
  | cons c cs ih =>
    by_cases hroom : NoRoom limit peer queued c st
    · rw [merged, if_pos hroom, enqueueLoop_of_noRoom hroom]
      rfl
    · rw [merged, if_neg hroom, enqueueLoop_of_room hroom, enqueueLoop_of_room hroom]
      exact ih _

theorem merged_merged (batch : List QueuedChange) (st : EnqueueState) :
    merged limit peer reason now queued (merged limit peer reason now queued batch st) st =
      merged limit peer reason now queued batch st := by
  induction batch generalizing st with
  | nil => rfl
  | cons c cs ih =>
    by_cases hroom : NoRoom limit peer queued c st
    · rw [merged, if_pos hroom]
      rfl
    · have hcons : merged limit peer reason now queued (c :: cs) st =
          c :: merged limit peer reason now queued cs (enqueueOne peer reason now c st) := by
        rw [merged, if_neg hroom]
      rw [hcons, merged, if_neg hroom, ih]

theorem enqueueLoop_full {e : Err} (h : (enqueueLoop limit peer reason now queued batch st).2 = some e) :
    ∃ c rest, batch = merged limit peer reason now queued batch st ++ c :: rest ∧
      NoRoom limit peer queued c (enqueueLoop limit peer reason now queued batch st).1 ∧
      e = .repairQueueFull ("repair queue is full: peer " ++ peer ++ " holds " ++
        toString (queued + (enqueueLoop limit peer reason now queued batch st).1.fresh) ++
        " entries") := by
  induction batch generalizing st with
  | nil => exact absurd h (by simp [enqueueLoop])
  | cons c cs ih =>
    by_cases hroom : NoRoom limit peer queued c st
    · rw [enqueueLoop_of_noRoom hroom] at h ⊢
      rw [merged, if_pos hroom]
      exact ⟨c, cs, rfl, hroom, (Option.some.inj h).symm⟩
    · rw [enqueueLoop_of_room hroom] at h ⊢
      rw [merged, if_neg hroom]
      obtain ⟨c', rest, hbatch, hfull, he⟩ := ih h
      exact ⟨c', rest, congrArg (List.cons c) hbatch, hfull, he⟩

theorem enqueueLoop_recorded {l : Ledger} (batch : List QueuedChange) (h : Ledgered st.queue st.revision l) :
    Ledgered (enqueueLoop limit peer reason now queued batch st).1.queue
      (enqueueLoop limit peer reason now queued batch st).1.revision
      (l.notes peer reason now (merged limit peer reason now queued batch st) st) := by
  induction batch generalizing st l with
  | nil => exact h
  | cons c cs ih =>
    by_cases hroom : NoRoom limit peer queued c st
    · rw [enqueueLoop_of_noRoom hroom, merged, if_pos hroom]
      exact h
    · rw [enqueueLoop_of_room hroom, merged, if_neg hroom]
      exact ih h.enqueueOne

variable (limit peer reason now queued) in
theorem queuedFor_enqueueLoop (batch : List QueuedChange) (st : EnqueueState) (p : String) :
    queuedFor p (enqueueLoop limit peer reason now queued batch st).1.queue +
        (if p = peer then st.fresh else 0) =
      queuedFor p st.queue +
        (if p = peer then (enqueueLoop limit peer reason now queued batch st).1.fresh else 0) := by
  refine enqueueLoop_keeps (P := fun u => queuedFor p u.queue + (if p = peer then st.fresh else 0) =
    queuedFor p st.queue + if p = peer then u.fresh else 0) rfl fun c _ u _ hu => ?_
  have hone := queuedFor_enqueueOne peer reason now c u p
  by_cases hp : p = peer
  · simp only [hp, if_true] at hone hu ⊢
    omega
  · simp only [hp, if_false] at hone hu ⊢
    omega

variable (peer reason now) in
theorem fresh_enqueueLoop_le (hlimit : 0 < limit) (batch : List QueuedChange)
    (h : (queued + st.fresh : Int) ≤ limit) :
    (queued + (enqueueLoop limit peer reason now queued batch st).1.fresh : Int) ≤ limit :=
  enqueueLoop_keeps (P := fun u => (queued + u.fresh : Int) ≤ limit) h fun _ _ _ hroom hu =>
    fresh_enqueueOne_le hlimit hu hroom

theorem enqueueLoop_written (batch : List QueuedChange) (st : EnqueueState) :
    st.written ≤ (enqueueLoop limit peer reason now queued batch st).1.written ∧
      ((enqueueLoop limit peer reason now queued batch st).1.written = st.written →
        (enqueueLoop limit peer reason now queued batch st).1 = st) := by
  refine enqueueLoop_keeps (P := fun u => st.written ≤ u.written ∧ (u.written = st.written → u = st))
    ⟨le_rfl, fun _ => rfl⟩ fun c _ u _ hu => ?_
  cases hq : alreadyQueued c (u.queue.find (peer, c.name)) with
  | true =>
    rw [enqueueOne_of_queued hq]
    exact hu
  | false =>
    rw [enqueueOne_of_new hq]
    exact ⟨hu.1.trans (Nat.le_succ _), fun heq => absurd heq (Nat.lt_succ_of_le hu.1).ne'⟩

theorem written_suffix_note (l : Ledger) (c : QueuedChange) (st : EnqueueState) :
    l.written <:+ (l.note peer c st).written := by
  unfold Ledger.note
  dsimp only
  split
  · exact List.suffix_rfl
  · exact List.suffix_cons _ _

theorem written_suffix_notes (l : Ledger) (batch : List QueuedChange) (st : EnqueueState) :
    l.written <:+ (l.notes peer reason now batch st).written := by
  induction batch generalizing st l with
  | nil => exact List.suffix_rfl
  | cons c cs ih => exact (written_suffix_note l c st).trans (ih _ _)

end

namespace Repairs

structure Consistent (q : Repairs) : Prop where
  counted : ∀ p, q.queueSize p = queuedFor p q.store.repairQueue
  recorded : Ledgered q.store.repairQueue q.store.repairRevision q.ledger

def WithinLimit (limit : Int) (q : Repairs) : Prop :=
  0 < limit → ∀ p, (queuedFor p q.store.repairQueue : Int) ≤ limit

variable {limit : Int} {q : Repairs}

theorem enqueue_snd (q : Repairs) (now : Int) (peer reason : String) (batch : List QueuedChange) :
    (q.enqueue limit now peer reason batch).2 =
      { store := { q.store with
          repairQueue := (enqueueLoop limit peer reason now (q.queueSize peer) batch q.begun).1.queue
          repairRevision :=
            (enqueueLoop limit peer reason now (q.queueSize peer) batch q.begun).1.revision }
        queueSize := q.addQueueSize peer
          (enqueueLoop limit peer reason now (q.queueSize peer) batch q.begun).1.fresh
        ledger := q.ledger.notes peer reason now
          (merged limit peer reason now (q.queueSize peer) batch q.begun) q.begun } := by
  unfold enqueue
  dsimp only
  split
  · next hzero =>
    rw [(enqueueLoop_written batch q.begun).2 hzero]
    have hsize : q.addQueueSize peer q.begun.fresh = q.queueSize := by
      funext p
      unfold addQueueSize begun
      split <;> rfl
    rw [hsize]
    rfl
  · rfl

theorem enqueue_fst_snd (q : Repairs) (now : Int) (peer reason : String)
    (batch : List QueuedChange) : (q.enqueue limit now peer reason batch).1.2 =
      (enqueueLoop limit peer reason now (q.queueSize peer) batch q.begun).2 := by
  unfold enqueue
  dsimp only
  split <;> rfl

theorem Consistent.enqueue (h : q.Consistent) (now : Int) (peer reason : String)
    (batch : List QueuedChange) : (q.enqueue limit now peer reason batch).2.Consistent := by
  rw [enqueue_snd]
  refine ⟨fun p => ?_, enqueueLoop_recorded batch h.recorded⟩
  have hcount := queuedFor_enqueueLoop limit peer reason now (q.queueSize peer) batch q.begun p
  have hbefore := h.counted p
  unfold addQueueSize
  dsimp only [begun] at hcount ⊢
  by_cases hp : p = peer
  · simp only [hp, if_true] at hcount hbefore ⊢
    omega
  · simp only [hp, if_false] at hcount hbefore ⊢
    omega

theorem WithinLimit.enqueue (h : q.Consistent) (hl : q.WithinLimit limit) (now : Int)
    (peer reason : String) (batch : List QueuedChange) :
    (q.enqueue limit now peer reason batch).2.WithinLimit limit := by
  intro hlimit p
  rw [enqueue_snd]
  have hcount := queuedFor_enqueueLoop limit peer reason now (q.queueSize peer) batch q.begun p
  have hbefore := hl hlimit p
  dsimp only [begun] at hcount ⊢
  by_cases hp : p = peer
  · subst hp
    have hstart : (q.queueSize p + q.begun.fresh : Int) ≤ limit := by
      rw [h.counted p]
      simpa [begun] using hbefore
    have hfresh := fresh_enqueueLoop_le p reason now hlimit batch hstart
    rw [h.counted p] at hfresh hcount
    simp only [if_true] at hcount
    rw [h.counted p]
    dsimp only [begun] at hfresh
    omega
  · simp only [hp, if_false] at hcount
    omega

theorem Consistent.erase (h : q.Consistent) (key : String × String) :
    (q.trackDeletion key.1 { q.store with repairQueue := q.store.repairQueue.erase key }).Consistent := by
  refine ⟨fun p => ?_, h.recorded.erase key⟩
  have hcount := queuedFor_erase q.store.repairQueue key p
  have hlength := length_erase q.store.repairQueue key
  have hbefore := h.counted p
  dsimp only [trackDeletion]
  by_cases hp : p = key.1
  · simp only [hp, if_true, and_true] at hcount hbefore ⊢
    omega
  · have hp' : key.1 ≠ p := Ne.symm hp
    simp only [hp, hp', if_false, and_false] at hcount ⊢
    omega

theorem Consistent.trackDeletion_same (h : q.Consistent) (peer : String) :
    q.trackDeletion peer q.store = q := by
  have hsize : (q.trackDeletion peer q.store).queueSize = q.queueSize := by
    funext p
    unfold trackDeletion
    dsimp only
    rw [Nat.sub_self, Nat.sub_zero, ite_self]
  have hledger : (q.trackDeletion peer q.store).ledger = q.ledger := h.recorded.forget_self
  calc q.trackDeletion peer q.store
      = { store := q.store, queueSize := (q.trackDeletion peer q.store).queueSize,
          ledger := (q.trackDeletion peer q.store).ledger } := rfl
    _ = q := by rw [hsize, hledger]

theorem resolveRepairItem_cases (s : Store) (item : RepairRow) :
    s.resolveRepairItem item = { s with repairQueue := s.repairQueue.erase item.key } ∨
      s.resolveRepairItem item = s := by
  unfold Store.resolveRepairItem
  split
  · split
    · exact Or.inl rfl
    · exact Or.inr rfl
  · exact Or.inr rfl

def Postponed (s t : Store) : Prop :=
  t = s ∨ ∃ row row' : RepairRow, row ∈ s.repairQueue.rows ∧ row'.key = row.key ∧
    row'.metadata = row.metadata ∧ row'.revision = row.revision ∧ row'.large = row.large ∧
    t = { s with repairQueue := s.repairQueue.put row' }

theorem postponed_deferRepair (s : Store) (peer name : String) (next : Int) (cause : String) :
    Postponed s (s.deferRepair peer name next cause) := by
  unfold Store.deferRepair
  split
  · next row hfind =>
    exact Or.inr ⟨row, { row with attempts := row.attempts + 1, nextAttempt := next, lastError := cause },
      Table.find_mem hfind, rfl, rfl, rfl, rfl, rfl⟩
  · exact Or.inl rfl

theorem postponed_deferRepairItem (s : Store) (item : RepairRow) (next : Int) (cause : String) :
    Postponed s (s.deferRepairItem item next cause) := by
  unfold Store.deferRepairItem
  split
  · next row hfind =>
    dsimp only
    split
    · exact Or.inr ⟨row, { row with attempts := row.attempts + 1, nextAttempt := next, lastError := cause },
        Table.find_mem hfind, rfl, rfl, rfl, rfl, rfl⟩
    · exact Or.inl rfl
  · exact Or.inl rfl

theorem Postponed.queuedFor_eq {s t : Store} (h : Postponed s t) (p : String) :
    queuedFor p t.repairQueue = queuedFor p s.repairQueue := by
  rcases h with rfl | ⟨row, row', hmem, hkey, -, -, -, rfl⟩
  · rfl
  · have hfind := Table.mem_rows_iff.mp hmem
    rw [queuedFor_put, hkey, hfind]
    simp

theorem Postponed.consistent {t : Store} (hp : Postponed q.store t) (h : q.Consistent) :
    Consistent { q with store := t } := by
  refine ⟨fun p => (h.counted p).trans (hp.queuedFor_eq p).symm, ?_⟩
  rcases hp with rfl | ⟨row, row', hmem, hkey, hmeta, hrev, hlarge, rfl⟩
  · exact h.recorded
  · exact h.recorded.put_same hmem hkey hmeta hrev hlarge

theorem foldl_max_eq {x : Int} {ys : List Int} (h : ∀ y ∈ ys, y ≤ x) : ys.foldl max x = x := by
  induction ys with
  | nil => rfl
  | cons y ys ih =>
    rw [List.foldl_cons, max_eq_left (h y List.mem_cons_self)]
    exact ih fun z hz => h z (List.mem_cons_of_mem y hz)

theorem Consistent.reopen_eq (h : q.Consistent) : q.reopen = q := by
  have hrev : (q.store.repairQueue.rows.map RepairRow.revision).foldl max q.store.repairRevision =
      q.store.repairRevision := by
    refine foldl_max_eq fun y hy => ?_
    obtain ⟨row, hrow, rfl⟩ := List.mem_map.mp hy
    exact h.recorded.bounded _ (h.recorded.written row hrow)
  have hsize : q.queueSize = fun p => queuedFor p q.store.repairQueue := funext h.counted
  rw [reopen, hrev, ← hsize]

structure Kept (limit : Int) (q t : Repairs) : Prop where
  consistent : t.Consistent
  within : q.WithinLimit limit → t.WithinLimit limit
  written : q.ledger.written <:+ t.ledger.written

theorem queuedFor_erase_le (queue : Table RepairRow.key) (key : String × String) (p : String) :
    queuedFor p (queue.erase key) ≤ queuedFor p queue := by
  have := queuedFor_erase queue key p
  omega

theorem Kept.erase (h : q.Consistent) (key : String × String) :
    Kept limit q (q.trackDeletion key.1 { q.store with repairQueue := q.store.repairQueue.erase key }) where
  consistent := h.erase key
  within := by
    intro hl hlimit p
    have hle := queuedFor_erase_le q.store.repairQueue key p
    have hbefore := hl hlimit p
    dsimp only [trackDeletion]
    omega
  written := List.suffix_rfl

theorem Kept.refl (h : q.Consistent) : Kept limit q q := ⟨h, id, List.suffix_rfl⟩

theorem Kept.postponed {t : Store} (h : q.Consistent) (hp : Postponed q.store t) :
    Kept limit q { q with store := t } where
  consistent := hp.consistent h
  within := by
    intro hl hlimit p
    dsimp only
    rw [hp.queuedFor_eq p]
    exact hl hlimit p
  written := List.suffix_rfl

variable (limit) in
theorem call_kept (h : q.Consistent) (c : Call) : Kept limit q (q.call limit c) := by
  cases c with
  | enqueue now peer reason batch =>
    refine ⟨h.enqueue now peer reason batch, fun hl => hl.enqueue h now peer reason batch, ?_⟩
    rw [call, enqueue_snd]
    exact written_suffix_notes q.ledger _ _
  | resolveRepair peer name => exact Kept.erase h (peer, name)
  | resolveRepairItem item =>
    rw [call]
    rcases resolveRepairItem_cases q.store item with heq | heq
    · rw [heq]
      exact Kept.erase h item.key
    · rw [heq, h.trackDeletion_same]
      exact Kept.refl h
  | deferRepair peer name next cause => exact Kept.postponed h (postponed_deferRepair _ _ _ _ _)
  | deferRepairItem item next cause => exact Kept.postponed h (postponed_deferRepairItem _ _ _ _)
  | reopen =>
    rw [call, h.reopen_eq]
    exact Kept.refl h

variable (limit) in
theorem calls_kept (h : q.Consistent) (cs : List Call) : Kept limit q (q.calls limit cs) := by
  induction cs generalizing q with
  | nil => exact Kept.refl h
  | cons c cs ih =>
    have hone := call_kept limit h c
    have hrest := ih hone.consistent
    exact ⟨hrest.consistent, fun hl => hrest.within (hone.within hl), hone.written.trans hrest.written⟩

theorem consistent_opened (s : Store) : (opened s).Consistent := ⟨fun _ => rfl, .empty _⟩

theorem withinLimit_opened (s : Store) : (opened s).WithinLimit limit := by
  intro hlimit p
  exact hlimit.le

theorem revision_ne_of_written {queue queue' : Table RepairRow.key} {r r' : Int} {l l' : Ledger}
    (h : Ledgered queue r l) (h' : Ledgered queue' r' l') {new : List ((String × String) × Int)}
    (hnew : l'.written = new ++ l.written) {item row : RepairRow} (hitem : item ∈ queue.rows)
    (hrow : queue'.find item.key = some row) (hw : ∃ w ∈ new, w.1 = item.key) :
    row.revision ≠ item.revision := by
  obtain ⟨w, hw, hkey⟩ := hw
  have hle : w.2 ≤ row.revision := by
    refine h'.newest row (Table.find_mem hrow) w ?_ (hkey.trans (Table.find_key hrow).symm)
    rw [hnew]
    exact List.mem_append_left _ hw
  have hlt : item.revision < w.2 := by
    have hrising := h'.rising
    rw [hnew] at hrising
    exact (List.pairwise_append.mp hrising).2.2 w hw _ (h.written item hitem)
  omega

theorem stale_item_ignored {s : Store} {item : RepairRow}
    (h : ∀ row, s.repairQueue.find item.key = some row → row.revision ≠ item.revision) :
    s.resolveRepairItem item = s ∧ ∀ next cause, s.deferRepairItem item next cause = s := by
  unfold Store.resolveRepairItem Store.deferRepairItem
  cases hfind : s.repairQueue.find item.key with
  | none => exact ⟨rfl, fun _ _ => rfl⟩
  | some row =>
    have hne := h row hfind
    exact ⟨if_neg hne, fun _ _ => if_neg hne⟩

theorem enqueue_full {now : Int} {peer reason : String} {e : Err}
    (h : (q.enqueue limit now peer reason batch).1.2 = some e) :
    ∃ fit c rest, batch = fit ++ c :: rest ∧ (q.enqueue limit now peer reason fit).1.2 = none ∧
      (q.enqueue limit now peer reason batch).2 = (q.enqueue limit now peer reason fit).2 ∧
      (q.enqueue limit now peer reason batch).2.store.repairQueue.find (peer, c.name) = none ∧
      0 < limit ∧ limit ≤ (q.enqueue limit now peer reason batch).2.pendingRepairCount peer := by
  rw [enqueue_fst_snd] at h
  obtain ⟨c, rest, hbatch, ⟨hnone, hlimit, hfull⟩, -⟩ := enqueueLoop_full h
  refine ⟨merged limit peer reason now (q.queueSize peer) batch q.begun, c, rest, hbatch, ?_, ?_, ?_, hlimit, ?_⟩
  · rw [enqueue_fst_snd, enqueueLoop_merged]
  · rw [enqueue_snd, enqueue_snd, enqueueLoop_merged, merged_merged]
  · rw [enqueue_snd]
    exact Option.isNone_iff_eq_none.mp hnone
  · rw [enqueue_snd]
    unfold pendingRepairCount addQueueSize
    dsimp only
    rw [if_pos rfl]
    exact_mod_cast hfull

end Repairs

end BirakFormal
