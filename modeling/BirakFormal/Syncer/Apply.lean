import BirakFormal.Watcher.Commits

/-!
# Applying a change from a peer

The receiving side of replication: decide under the lock whether the peer's state wins,
then restamp, download or delete. A download that meets a file where it needs a directory,
or the other way round, first settles the namespace: the loser's bytes are preserved under
a copy's name before anything is removed.
-/

namespace BirakFormal

open Interruption Prog

def foldChar (c : Char) : Char :=
  if c.toNat = 0x212a then 'k' else if c.toNat = 0x17f then 's' else c.toLower

def isReserved (name : String) : Bool := name.toList.map foldChar = ".birak".toList

/-- `hasPrefixFold`, for an ASCII `p`. -/
def hasPrefixFold (s p : String) : Bool :=
  (s.toList.take p.toList.length).map Char.toLower = p.toList.map Char.toLower

def isScratchSpelling (name : String) : Bool :=
  hasPrefixFold name ".birak-tmp-" || hasPrefixFold name ".birak-bak-"

def validateClientPath (patterns : String → Bool) (rel : String) : Except String Unit :=
  if rel ≠ "" ∧ shouldIgnore patterns rel then .error "ignored path"
  else if rel.toList.contains '\x00' then .error "invalid name"
  else if (split rel).head?.any isReserved then .error "reserved path"
  else if (split rel).any isScratchSpelling then .error "reserved path"
  else .ok ()

theorem ite_error_eq_ok {ε α : Type} {c : Prop} [Decidable c] {e : ε} {r : Except ε α} {a : α} :
    (if c then .error e else r) = .ok a ↔ ¬ c ∧ r = .ok a := by
  by_cases hc : c
  · simp [hc]
  · simp [hc]

theorem validateClientPath_ok_iff {patterns : String → Bool} {rel : String} :
    validateClientPath patterns rel = .ok () ↔
      (rel = "" ∨ shouldIgnore patterns rel = false) ∧ '\x00' ∉ rel.toList ∧
        (split rel).head?.any isReserved = false ∧ (split rel).any isScratchSpelling = false := by
  unfold validateClientPath
  simp only [ite_error_eq_ok, not_and_or, not_not, Bool.not_eq_true, and_true, List.contains_eq_mem,
    decide_eq_false_iff_not]

def orFail (r : Except String Unit) : Sys Unit :=
  match r with
  | .ok () => pure ()
  | .error text => raise (.failed text)

variable (cfg : Config)

def ctxErr : Sys Unit := barrier

def safeLocalPath (name : String) : Sys Unit := do
  checkName cfg name
  fsync
  orFail (validateSyncName name)
  orFail ((validateClientPath cfg.patterns name).mapError fun e =>
    "unsafe sync path " ++ quoted name ++ ": " ++ e)

def remoteWins (mine : Option FileMeta) (remote : FileMeta) : Bool :=
  compareState (some remote) mine = .gt

inductive Source where
  | named (name : String)
  | scratch (id : Nat)

def openSource : Source → Sys FileObj
  | .named name => check fun s => match s.disk.lookup name with
    | some (.leaf (.file o)) => .ok o
    | some _ => .error (.failed ("not a regular conflict source: " ++ name))
    | none => .error (.failed ("open " ++ name ++ ": no such file or directory"))
  | .scratch id => check fun s => match s.scratch.find id with
    | some o => .ok o.2
    | none => .error (.failed "open: no such file or directory")

def publishObject (name : String) (o : FileObj) : Sys Unit :=
  update fun s => (s.place name o).map fun t => ((), t)

def publishCopy (original copy : FileMeta) (source : Source) : Sys Unit := do
  let o ← openSource source
  let ino ← createTemp
  if (o.bytes.length : Int) ≠ original.size ∨ cfg.digest.hash o.bytes ≠ original.hash then
    raise (.failed ("conflict source changed: " ++ original.name))
  else do
    let current ← openSource source
    if current.key ≠ o.key then raise .busy
    else do
      fsync
      ctxErr
      stageReplica copy
      publishObject copy.name ⟨o.bytes, cfg.stamp original.modTime, ino⟩
      fsync
      let _ ← putRemote cfg copy
      pure ()

def preserveConflictLocked (original : FileMeta) (source : Source) : Sys Unit := do
  ctxErr
  let copy := conflictCopy cfg.digest original
  safeLocalPath cfg copy.name
  refreshLocked cfg copy.name
  let previous ← getFile copy.name
  match liveRow previous with
  | some p =>
    if p.hash = copy.hash ∧ p.size = copy.size then pure ()
    else raise (.failed ("conflict copy destination is occupied: " ++ copy.name))
  | none => publishCopy cfg original (advanceClock copy previous) source

/-- Observe the generation a namespace tombstone displaces, and preserve it. The answer is
whether the tombstone still wins. -/
def displace (m : FileMeta) : Sys Bool := do
  refreshLocked cfg m.name
  let mine ← getFile m.name
  if !remoteWins mine m then pure false
  else
    match liveRow mine with
    | none => pure true
    | some l => do
      preserveConflictLocked cfg l (.named m.name)
      pure true

def commitTombstone (m : FileMeta) : Sys Unit := do
  stageReplica m
  removeReplicaFile m.name
  fsync
  onlyIf (m.supersededBy = "") (cleanEmptyParents (parents m.name))
  let _ ← putRemote cfg m
  pure ()

def displaceSuperseded (m : FileMeta) : Sys Bool :=
  if m.supersededBy ≠ "" then displace cfg m else pure true

def commitDeletionLocked (m : FileMeta) : Sys Unit := do
  ctxErr
  if !(← displaceSuperseded cfg m) then pure ()
  else do
    ctxErr
    commitTombstone cfg m

def addConflict (name : String) : Sys FileMeta := do
  safeLocalPath cfg name
  if ← look fun s => busyTree s name then raise .busy
  else do
    refreshLocked cfg name
    match liveRow (← getFile name) with
    | none => raise (.failed ("unsupported namespace entry " ++ quoted name))
    | some m => pure m

def blockingAncestor : List String → Sys (Option String)
  | [] => pure none
  | a :: rest => do
    match ← lstat a with
    | some (.leaf _) => pure (some a)
    | _ => blockingAncestor rest

def addConflicts : List FileMeta → List String → Sys (List FileMeta)
  | found, [] => pure found
  | found, name :: names => do
    safeLocalPath cfg name
    match ← lstat name with
    | some (.leaf _) => do
      let m ← addConflict cfg name
      addConflicts (found ++ [m]) names
    | _ => addConflicts found names

def namespaceConflictsLocked (name : String) : Sys (List FileMeta) := do
  match ← blockingAncestor (parents name) with
  | some a => do
    let m ← addConflict cfg a
    pure [m]
  | none => do
    match ← lstat name with
    | some .dir => do
      if ← look fun s => busyTree s name then raise .busy
      else do
        let names ← look fun s => walk s.disk name
        addConflicts cfg [] (name :: names)
    | _ => pure []

def greatest (winner : FileMeta) : List FileMeta → FileMeta
  | [] => winner
  | l :: ls => greatest (if compareState (some l) (some winner) = .gt then l else winner) ls

def removeEmptyTree (name : String) : Sys Unit := do
  let names ← look fun s => walk s.disk name
  let leaf ← look fun s => names.find? fun n => decide (s.disk.lookup n ≠ some .dir)
  match leaf with
  | some n => raise (.failed ("namespace changed at " ++ n))
  | none => forEach removeEntry (name :: names).reverse

def yieldTo (m : FileMeta) (l : FileMeta) : Sys Unit := do
  safeLocalPath cfg l.name
  commitDeletionLocked cfg (superseded l.name m)

/-- Decide between the incoming file and everything in its way. True: it may be published. -/
def settleNamespaceLocked (m : FileMeta) (temporary : Nat) : Sys Bool := do
  let conflicts ← namespaceConflictsLocked cfg m.name
  let winner := greatest m conflicts
  if winner.name ≠ m.name then do
    preserveConflictLocked cfg m (.scratch temporary)
    safeLocalPath cfg m.name
    commitDeletionLocked cfg (superseded m.name winner)
    pure false
  else do
    forEach (yieldTo cfg m) conflicts
    safeLocalPath cfg m.name
    match ← lstat m.name with
    | some .dir => do
      removeEmptyTree m.name
      pure true
    | _ => pure true

/-! ### The three ways to apply a change

Each has a locked part that observes the name again before it decides, and a tail that
stages the peer's state, changes the volume and commits the row. -/

def observeLocal (name : String) : Sys Bool := do
  match ← attempt (refreshTrustedLocked cfg name) with
  | .ok () => pure false
  | .error (.raised (.integrity _)) => pure true
  | .error e => rethrow e

/-- The peer's state is to be applied: it wins, or it repairs a damaged copy of itself. -/
def applies (mine : Option FileMeta) (change : FileMeta) (damaged : Bool) : Bool :=
  remoteWins mine change || (damaged && compareState (some change) mine = .eq)

def restampReplica (change : FileMeta) : Sys Unit := do
  stageReplica change
  chtimes cfg change.name change.modTime
  fsync
  let _ ← putRemote cfg change
  pure ()

def renameScratch (name : String) (id : Nat) : Sys Unit :=
  update fun s => match s.scratch.find id with
    | none => .error (.failed ("rename " ++ name))
    | some o => (s.place name o.2).map fun t => ((), { t with scratch := t.scratch.erase id })

def publishReplica (m : FileMeta) (id : Nat) : Sys Unit := do
  stageReplica m
  renameScratch m.name id
  fsync
  let _ ← putRemote cfg m
  pure ()

/-- The locked part of `downloadAndApply`, with the verified bytes in scratch file `id`. -/
def publishLocked (m : FileMeta) (id : Nat) (staged : ObjectKey) : Sys Unit := do
  ctxErr
  safeLocalPath cfg m.name
  let damaged ← observeLocal cfg m.name
  let current ← getFile m.name
  if !applies current m damaged then pure ()
  else do
    if !(← settleNamespaceLocked cfg m id) then pure ()
    else do
      ctxErr
      mkdirParents m.name
      publishReplica cfg m id
      refreshPublishedLocked cfg m.name staged m.hash

/-- Receive and verify the bytes a peer serves. The answer is their scratch file. -/
def receive (m : FileMeta) (body : Bytes) : Sys (Nat × ObjectKey) := do
  let id ← createTemp
  if (body.length : Int) ≠ m.size ∨ cfg.digest.hash body ≠ m.hash then
    raise (.failed ("content changed: " ++ m.name))
  else do
    let o : FileObj := ⟨body, cfg.stamp m.modTime, id⟩
    alter fun s => { s with scratch := s.scratch.put (id, o) }
    fsync
    pure (id, o.key)

def downloadAndApply (m : FileMeta) (body : Bytes) : Sys Unit := do
  safeLocalPath cfg m.name
  if m.size < 0 ∨ m.size = Int64.maxValue.toInt ∨ !isSHA256Hex m.hash then
    raise (.failed ("invalid metadata for " ++ m.name))
  else do
    let (id, staged) ← receive cfg m body
    let result ← attempt (publishLocked cfg m id staged)
    alter fun s => { s with scratch := s.scratch.erase id }
    match result with
    | .ok () => pure ()
    | .error e => rethrow e

def applyDeletion (m : FileMeta) : Sys Unit := do
  safeLocalPath cfg m.name
  let _ ← observeLocal cfg m.name
  let mine ← getFile m.name
  if !remoteWins mine m then pure () else commitDeletionLocked cfg m

inductive Pending where
  | settled
  | deletion
  | download
  deriving DecidableEq

def sameBytes (mine : Option FileMeta) (change : FileMeta) : Bool :=
  (liveRow mine).any fun l => !change.deleted && l.hash = change.hash && l.size = change.size

def decideChange (change : FileMeta) : Sys Pending := do
  safeLocalPath cfg change.name
  let damaged ← observeLocal cfg change.name
  let mine ← getFile change.name
  if !applies mine change damaged then pure .settled
  else if !damaged && sameBytes mine change then do
    safeLocalPath cfg change.name
    restampReplica cfg change
    pure .settled
  else if change.deleted then pure .deletion
  else pure .download

def alreadyHeld (change : FileMeta) : Sys Bool := do
  let indexed ← getFile change.name
  if remoteWins indexed change then pure false
  else do
    let fenced ← needsRepair change.name
    pure (!fenced)

/-- Bring one file in line with a peer's metadata; `body` is what the peer serves for it. -/
def applyChange (change : FileMeta) (body : Bytes) : Sys Unit := do
  match validateChange cfg.digest cfg.patterns change with
  | .error _ => pure ()
  | .ok () => do
    match ← attempt (alreadyHeld change) with
    | .ok true => pure ()
    | _ => do
      match ← decideChange cfg change with
      | .settled => pure ()
      | .deletion => applyDeletion cfg change
      | .download => downloadAndApply cfg change body

end BirakFormal
