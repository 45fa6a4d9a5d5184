import BirakFormal.Fileops.Volume
import BirakFormal.Syncer.Validate

/-!
# Indexing one name

The watcher compares a name on the volume with its row: it finishes or drops an
interrupted replica commit, decides whether the file changed, was damaged or went
missing, and commits what a local writer did as a local write.
-/

namespace BirakFormal

open Interruption Prog

/-- Bytes read outside the commit lock: the generation they belong to and their hash. -/
structure Hashed where
  info : ObjectKey
  hash : String

structure IndexOptions where
  allowIntegrity : Bool := false
  durable : Bool := false
  published : String → Option Hashed := fun _ => none
  trustStat : Bool := false
  deferDeletion : Bool := false

def insertNew {α : Type} [DecidableEq α] (a : α) (l : List α) : List α :=
  if a ∈ l then l else a :: l

/-- The durable half of `SetQuarantined`. -/
def Store.setQuarantined (s : Store) (name : String) (key : ObjectKey) : Store :=
  { s with quarantine := insertNew name s.quarantine, damagedObjects := insertNew key s.damagedObjects }

def Node.fence (s : Node) (name : String) (key : ObjectKey) : Node :=
  { s with quarantined := insertNew name s.quarantined, damagedObjects := insertNew key s.damagedObjects }

def Node.unfence (s : Node) (name : String) (verified : Option ObjectKey) : Node :=
  { s with
    quarantined := s.quarantined.filter (· ≠ name)
    damagedObjects := s.damagedObjects.filter fun k => verified ≠ some k
    store := { s.store with
      quarantine := s.store.quarantine.filter (· ≠ name)
      damagedObjects := s.store.damagedObjects.filter fun k => verified ≠ some k } }

def Node.enqueueChange (s : Node) (cfg : Config) (peer reason : String) (m : FileMeta) :
    Except Err Unit × Node :=
  let r := s.store.enqueueChange cfg.repairLimit s.store.now peer reason m
  ((match r.1 with | none => .ok () | some e => .error e), { s with store := r.2 })

variable (cfg : Config)

def put (m : FileMeta) (isLocal : Bool) : Sys Int :=
  update fun s => (s.store.commitPut cfg.fold m isLocal).map fun r => (r.1, { s with store := r.2 })

def putLocal (m : FileMeta) : Sys Int := put cfg m true

def putRemote (m : FileMeta) : Sys Int := put cfg m false

def stageReplica (m : FileMeta) : Sys Unit :=
  alter fun s => { s with store := s.store.stageReplica m }

def clearReplicaIntent (name : String) : Sys Unit :=
  alter fun s => { s with store := s.store.clearReplicaIntent name }

def getFile (name : String) : Sys (Option FileMeta) := look fun s => s.store.getFile name

def checkName (name : String) : Sys Unit := check fun s => s.store.checkName cfg.fold name

def enqueueRepairs (m : FileMeta) (reason : String) : List String → Sys Unit
  | [] => pure ()
  | peer :: peers => do
    match ← attempt (perform fun s => s.enqueueChange cfg peer reason m) with
    | .ok () => enqueueRepairs m reason peers
    | .error _ => raise (.integrity m.name)

/-- Fence a name and the generation it names, and queue a repair from every peer. Memory is
fenced before the durable record, so a failed write still fences reads. -/
def quarantineFor (m : FileMeta) (reason : String) : Sys (Option FileMeta) := do
  let key ← check fun s => match s.disk.lookup m.name with
    | some (.leaf (.file o)) => .ok o.key
    | _ => .error (.failed ("stat " ++ m.name ++ ": no such file or directory"))
  alter fun s => s.fence m.name key
  match ← attempt (alter fun s => { s with store := s.store.setQuarantined m.name key }) with
  | .error _ => raise (.failed ("persist quarantine " ++ quoted m.name))
  | .ok () =>
    if m.hash = "" then raise (.integrity m.name)
    else do
      enqueueRepairs cfg m reason cfg.repairPeers
      raise (.integrity m.name)

def quarantine (m : FileMeta) : Sys (Option FileMeta) :=
  quarantineFor cfg m "local checksum mismatch"

def needsRepair (name : String) : Sys Bool := look fun s => name ∈ s.quarantined

def clearIntegrity (name : String) (verified : Option ObjectKey) : Sys Unit := do
  let fenced ← look fun s => name ∈ s.quarantined || verified.any (· ∈ s.damagedObjects)
  if !fenced then pure ()
  else do
    onlyIf verified.isNone fsync
    alter fun s => s.unfence name verified

/-- Finish a replica commit whose bytes or removal are on disk already; drop the intent of
one whose are not. -/
def recoverReplicaLocked (name : String) : Sys Unit := do
  match ← look fun s => s.store.replicaIntent name with
  | none => pure ()
  | some m => do
    let entry ← lstat name
    if m.deleted then
      match entry with
      | none | some .dir => do
        fsync
        let _ ← putRemote cfg m
        pure ()
      | some (.leaf _) => clearReplicaIntent name
    else
      match entry with
      | none => clearReplicaIntent name
      | some _ => do
        let (info, hash) ← snapshot cfg name
        if hash = m.hash ∧ info.bytes.length = m.size then do
          onlyIf (!sameModTime cfg info.modTime m.modTime) (chtimes cfg name m.modTime)
          fsync
          fsync
          let _ ← putRemote cfg m
          pure ()
        else clearReplicaIntent name

def isOutsideSyncDir (name : String) : Bool := hasPrefix name "../" || name = ".."

def liveRow (existing : Option FileMeta) : Option FileMeta := existing.filter fun e => !e.deleted

variable {r : FileMeta}

theorem liveRow_of_live (h : r.deleted = false) : liveRow (some r) = some r := by
  simp [liveRow, h]

theorem liveRow_of_deleted (h : r.deleted = true) : liveRow (some r) = none := by
  simp [liveRow, h]

theorem liveRow_eq_some {existing : Option FileMeta} :
    liveRow existing = some r ↔ existing = some r ∧ r.deleted = false := by
  rw [liveRow, Option.filter_eq_some_iff]
  simp

def unchangedByStat (name : String) : Sys Bool := do
  let answer ← attempt (do
    if ← needsRepair name then pure false
    else do
      match liveRow (← getFile name) with
      | none => pure false
      | some m => do
        match ← lstat name with
        | some (.leaf (.file o)) =>
          pure (o.bytes.length = m.size && sameModTime cfg o.modTime m.modTime)
        | _ => pure false)
  match answer with
  | .ok b => pure b
  | .error _ => pure false

/-- The size, timestamp and hash of a file, reusing bytes read before if the path still
names that generation. -/
def snapshotWith (name : String) (precomputed : Option Hashed) : Sys (ObjectKey × String) := do
  match precomputed with
  | none => do
    let (o, hash) ← snapshot cfg name
    pure (o.key, hash)
  | some h => do
    match ← attempt (lstat name) with
    | .ok (some (.leaf (.file o))) =>
      if o.key = h.info then pure (h.info, h.hash)
      else do
        let (o, hash) ← snapshot cfg name
        pure (o.key, hash)
    | _ => do
      let (o, hash) ← snapshot cfg name
      pure (o.key, hash)

/-- An I/O error on an indexed file is damage; the extra call is the environment's answer to
whether the refused read was one. -/
def readFailed (existing : Option FileMeta) : Failure Err → Sys (Option FileMeta)
  | .raised e => raise e
  | .fault => do
    match ← attempt barrier with
    | .error e => rethrow e
    | .ok () =>
      match liveRow existing with
      | some m => quarantineFor cfg m "local read error"
      | none => raise (.failed "unreadable")

def inspectMissing (name : String) (existing : Option FileMeta) (opts : IndexOptions) :
    Sys (Option FileMeta) := do
  match liveRow existing with
  | none => do
    clearIntegrity name none
    pure none
  | some e =>
    if opts.deferDeletion then do
      alter fun s => { s with deferred := s.deferred ++ [name] }
      pure none
    else do
      clearIntegrity name none
      cleanEmptyParents (parents name)
      pure (some { name := name, modTime := e.modTime, deleted := true })

def inspectNonRegular (name : String) (existing : Option FileMeta) (isDir : Bool) :
    Sys (Option FileMeta) := do
  let trusted ← look fun s => s.store.hasLocalIntent name
  match liveRow existing with
  | none => pure none
  | some e =>
    if isDir && trusted then pure (some { name := name, modTime := e.modTime, deleted := true })
    else raise (.failed ("indexed file " ++ quoted name ++ " was replaced by a non-regular file"))

def silentlyChanged (existing : Option FileMeta) (info : ObjectKey) (hash : String) : Bool :=
  (liveRow existing).any fun e =>
    e.hash ≠ hash && sameModTime cfg info.modTime e.modTime && e.size = (info.size : Int)

def inspectVerdict (name : String) (existing : Option FileMeta) (info : ObjectKey) (hash : String)
    (trusted : Bool) : Sys (Option FileMeta) :=
  let event : FileMeta := { name := name, modTime := info.modTime, size := info.size, hash := hash }
  match liveRow existing with
  | none => pure (some event)
  | some e =>
    if e.hash = hash ∧ e.size = (info.size : Int) then
      if sameModTime cfg info.modTime e.modTime then pure none
      else if trusted then pure (some event)
      else do
        -- Unchanged bytes with a moved timestamp are no new mutation.
        chtimes cfg name e.modTime
        fsync
        pure none
    else pure (some event)

def inspectRegular (name : String) (existing : Option FileMeta) (opts : IndexOptions) :
    Sys (Option FileMeta) := do
  match ← attempt (snapshotWith cfg name (opts.published name)) with
  | .error e => readFailed cfg existing e
  | .ok (info, hash) => do
    let trusted ← look fun s => s.store.hasLocalIntent name
    let damaged ← look fun s => decide (info ∈ s.damagedObjects)
    if !trusted && damaged && !existing.any (fun e => e.hash = hash) then
      quarantine cfg (existing.getD { name := name })
    else if !trusted && silentlyChanged cfg existing info hash then
      quarantine cfg (existing.getD { name := name })
    else do
      let fenced ← needsRepair name
      onlyIf (fenced || damaged) (do
        fsync
        fsync
        clearIntegrity name (some info))
      inspectVerdict cfg name existing info hash trusted

def inspectFile (name : String) (opts : IndexOptions) : Sys (Option FileMeta) := do
  if isOutsideSyncDir name || shouldIgnore cfg.patterns name then pure none
  else do
    if ← look fun s => decide (name ∈ s.writers) then raise .busy
    else do
      let existing ← getFile name
      match ← lstat name with
      | none => inspectMissing name existing opts
      | some .dir => inspectNonRegular name existing true
      | some (.leaf .special) => inspectNonRegular name existing false
      | some (.leaf (.file _)) => inspectRegular cfg name existing opts

def trustedUnchanged (name : String) (opts : IndexOptions) : Sys Bool :=
  if opts.trustStat then unchangedByStat cfg name else pure false

def commitEvent (ev : FileMeta) (opts : IndexOptions) : Sys Unit := do
  onlyIf (!ev.deleted && !opts.durable) fsync
  onlyIf (!opts.durable) fsync
  let _ ← putLocal cfg ev
  pure ()

/-- Index one name: recover it, inspect it, and commit what changed as a local write. -/
def refreshFileLocked (name : String) (opts : IndexOptions) : Sys Unit := do
  checkName cfg name
  fsync
  if ← look fun s => decide (name ∈ s.writers) then raise .busy
  else do
    recoverReplicaLocked cfg name
    if ← trustedUnchanged cfg name opts then pure ()
    else do
      match ← inspectFile cfg name opts with
      | none => pure ()
      | some ev => commitEvent cfg ev opts

end BirakFormal
