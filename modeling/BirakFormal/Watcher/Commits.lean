import BirakFormal.Watcher.Inspect

/-!
# Commits and recovery

What the watcher does around a group of names: index the paths of a gateway commit before
and after it, and settle at startup what the last process left behind. A commit records
its paths as local intents, which make changed bytes trusted until its result is indexed.
-/

namespace BirakFormal

open FileTrees Interruption Prog

variable (cfg : Config)

def inSubtree (path name : String) : Bool :=
  name = path || (path ++ "/" ≤ name && name < path ++ "0")

/-- The files a walk of `path` reports: none of the entries on the way is ignored. -/
def walkFiles (d : Volume) (path : String) : List String :=
  (path :: walk d path).filter fun name =>
    (match d.lookup name with | some (.leaf _) => true | _ => false) &&
      (name :: parents name).all fun q =>
        !(decide (q = path ∨ Beneath q path) && shouldIgnore cfg.patterns q)

/-- The names `indexPathsLocked` collects for one path: live rows, fenced names and files. -/
def gatherNames (s : Node) (path : String) : List String :=
  if shouldIgnore cfg.patterns path then []
  else
    ((s.store.files.rows.filter fun r => !r.deleted && inSubtree path r.name).map FileMeta.name) ++
      (s.quarantined.filter fun n => n = path || hasPrefix n (path ++ "/")) ++
      walkFiles cfg s.disk path

def indexName (opts : IndexOptions) (name : String) : Sys Unit := do
  match ← attempt (refreshFileLocked cfg name opts) with
  | .ok () => pure ()
  | .error (.raised (.integrity n)) =>
    if opts.allowIntegrity then pure () else raise (.integrity n)
  | .error e => rethrow e

def gatherPaths : List String → List String → Sys (List String)
  | names, [] => pure names
  | names, path :: paths => do
    let more ← look fun s => gatherNames cfg s path
    gatherPaths (names ++ more) paths

def indexPathsLocked (paths : List String) (opts : IndexOptions) : Sys Unit := do
  let names ← gatherPaths cfg [] paths
  forEach (indexName cfg opts) (cfg.mapOrder names.dedup)

def replicaIntentNames (s : Store) : List String :=
  (s.replicaIntents.rows.map FileMeta.name).insertionSort (· ≤ ·)

def recoverReplicas : Sys Unit := do
  let replicas ← look fun s => replicaIntentNames s.store
  forEach (recoverReplicaLocked cfg) replicas

/-- The part of validation that runs once after a start: local intents, then replica intents. -/
def recoverIntents : Sys Unit := do
  fsync
  let paths ← look fun s => s.store.localIntents.insertionSort (· ≤ ·)
  indexPathsLocked cfg paths {}
  alter fun s => { s with store := s.store.endLocal paths }
  recoverReplicas cfg
  alter fun s => { s with recovered := true }

/-- The storage check and the replay of journals come first; see the replacement model for
what a journal does. -/
def validateStorageLocked : Sys Unit := do
  fsync
  fsync
  if ← look fun s => s.recovered then pure () else recoverIntents cfg

def refreshWith (name : String) (opts : IndexOptions) : Sys Unit := do
  validateStorageLocked cfg
  refreshFileLocked cfg name opts

def refreshLocked (name : String) : Sys Unit := refreshWith cfg name {}

def refreshTrustedLocked (name : String) : Sys Unit := refreshWith cfg name { trustStat := true }

def refreshPublishedLocked (name : String) (info : ObjectKey) (hash : String) : Sys Unit :=
  refreshWith cfg name { published := fun n => if n = name then some ⟨info, hash⟩ else none }

def scanFileWith (name : String) (precomputed : Option Hashed) (deferDeletion : Bool) : Sys Unit :=
  refreshWith cfg name {
    published := fun n => if n = name then precomputed else none
    deferDeletion := deferDeletion }

def beginLocal (names : List String) : Sys Unit :=
  update fun s => (s.store.beginLocal cfg.fold names).map fun st => ((), { s with store := st })

def beginCommitLocked (names : List String) : Sys Unit := do
  forEach (checkName cfg) names
  forEach (fun _ => fsync) names
  indexPathsLocked cfg names { allowIntegrity := true, trustStat := true }
  beginLocal cfg names

def finishCommitLocked (names : List String) (published : String → Option Hashed) : Sys Unit := do
  indexPathsLocked cfg names { durable := true, published := published }
  alter fun s => { s with store := s.store.endLocal names }

def sourceExists (name : String) : Sys Unit :=
  check fun s => if s.disk.lookup name = none then
    .error (.failed ("lstat " ++ name ++ ": no such file or directory")) else .ok ()

def checkSourcesLocked (sources : List String) : Sys Unit := do
  forEach sourceExists sources
  indexPathsLocked cfg sources {}

/-- One gateway commit around the filesystem work `fn`. Even a failed operation may have
changed the volume, so its result is indexed before its intent is dropped. -/
def commitPublishedLocked (sources names : List String) (published : String → Option Hashed)
    (fn : Sys Unit) : Sys Unit := do
  validateStorageLocked cfg
  onlyIf (!sources.isEmpty) (checkSourcesLocked cfg sources)
  beginCommitLocked cfg names
  match ← attempt fn with
  | .ok () => finishCommitLocked cfg names published
  | .error e => do
    validateStorageLocked cfg
    let _ ← attempt (finishCommitLocked cfg names published)
    rethrow e

end BirakFormal
