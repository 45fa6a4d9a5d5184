import BirakFormal.Gateway.Paths
import BirakFormal.Gateway.Requests

/-!
# WebDAV requests and write locks

The lock table of one process and the handlers that change the tree. A handler resolves the
paths of the request, asks the lock table for each of them and then acts on the volume; its
result is the HTTP status.
-/

namespace BirakFormal

open Interruption Prog

inductive Depth where
  | zero
  | infinity
  deriving DecidableEq, Repr

/-- An exclusive write lock over a resource and, at infinite depth, its subtree. -/
structure WriteLock where
  token : String
  path : String
  depth : Depth
  expires : Int
  deriving DecidableEq, Repr

namespace WriteLock

def covers (lk : WriteLock) (path : String) : Bool :=
  if lk.path = path then true
  else if lk.depth = .infinity then
    if lk.path = "" then true else hasPrefix path (lk.path ++ "/")
  else false

def live (now : Nat) (lk : WriteLock) : Bool := !(lk.expires < (now : Int))

end WriteLock

def isDescendant (p ancestor : String) : Bool :=
  if ancestor = "" then p ≠ "" else hasPrefix p (ancestor ++ "/")

def maxLocks : Nat := 10000

abbrev LockTable := List WriteLock

namespace LockTable

def reap (m : LockTable) (now : Nat) : LockTable := m.filter (WriteLock.live now)

def create (m : LockTable) (now : Nat) (path : String) (depth : Depth) (timeout : Int) (token : String) :
    Option WriteLock × LockTable :=
  let m := m.reap now
  if maxLocks ≤ m.length then (none, m)
  else if m.any fun lk => lk.covers path || (depth = .infinity && isDescendant lk.path path) then (none, m)
  else
    let lk := { token, path, depth, expires := now + timeout }
    (some lk, m.filter (·.token ≠ token) ++ [lk])

def refresh (m : LockTable) (now : Nat) (token : String) (timeout : Int) : Option WriteLock × LockTable :=
  let m := m.reap now
  match m.find? (·.token = token) with
  | none => (none, m)
  | some lk =>
    let lk := { lk with expires := now + timeout }
    (some lk, m.map fun x => if x.token = token then lk else x)

def unlock (m : LockTable) (token : String) : Bool × LockTable :=
  if m.any (·.token = token) then (true, m.filter (·.token ≠ token)) else (false, m)

end LockTable

/-- The text between angle brackets; `inside` is what was read since the last `<`. -/
def bracketed : Option (List Char) → List Char → List String
  | _, [] => []
  | none, c :: cs => if c = '<' then bracketed (some []) cs else bracketed none cs
  | some inside, c :: cs =>
    if c = '>' then String.ofList inside.reverse :: bracketed none cs
    else bracketed (some (c :: inside)) cs

def parseIfTokens (header : String) : List String := bracketed none header.toList

def LockTable.canModify (m : LockTable) (now : Nat) (path ifHeader : String) : Bool :=
  !(m.reap now).any fun lk => lk.covers path && !(parseIfTokens ifHeader).contains lk.token

structure DavConfig where
  digest : Digest
  patterns : String → Bool
  maxUploadBytes : Nat

/-- The lexical part of `SafePath`: in a tree without symbolic links it decides alone. -/
def resolveName (patterns : String → Bool) (url : String) : Except String String :=
  let cleaned := cleanRequest url
  if hasPrefix cleaned "../" ∨ cleaned = ".." then .error "path traversal"
  else if cleaned = "" then .ok ""
  else
    match validateClientPath patterns cleaned with
    | .error e => .error e
    | .ok () => .ok cleaned

inductive Destination where
  | missing
  | bad
  | path (url : String)

/-- `body` is what the client sent before it stopped, `sizes` are those of the batches of a
removal, and the texts at the end are the random parts of the scratch names. -/
inductive DavMethod where
  | put (body : Bytes) (aborted : Bool)
  | delete (sizes : List Nat)
  | mkcol (hasBody : Bool)
  | move (destination : Destination) (overwrite : String) (backup : String)
  | copy (destination : Destination) (overwrite : String) (stage backup : String)

structure DavRequest where
  url : String
  ifHeader : String
  method : DavMethod

def parseOverwrite (h : String) : Option Bool :=
  if h = "" ∨ h = "T" then some true else if h = "F" then some false else none

section
variable (cfg : DavConfig)

def stageBody (body : Bytes) (aborted : Bool) : LayeredProg (Except Nat Object) :=
  if 0 < cfg.maxUploadBytes ∧ cfg.maxUploadBytes < body.length then pure (.error 413)
  else if aborted then pure (.error 400)
  else do
    match ← attempt (Layered.writeTemp body 0 0o600) with
    | .ok o => pure (.ok o)
    | .error _ => pure (.error 500)

def orStatus (p : LayeredProg Unit) (status : Failure Err → Nat) (next : LayeredProg Nat) :
    LayeredProg Nat := do
  match ← attempt p with
  | .ok () => next
  | .error e => pure (status e)

/-- `os.Stat` of a path; an error is neither an answer that it is there nor that it is not. -/
def statPath (path : Path) : LayeredProg (Except (Failure Err) (Option Object)) :=
  attempt (look fun w => w.disk.tree.lookup path)

def statFound : Except (Failure Err) (Option Object) → Bool
  | .ok (some _) => true
  | _ => false

def putFile (path : Path) (body : Bytes) (aborted : Bool) : LayeredProg Nat :=
  orStatus (Layered.mkdirSection cfg.digest path.dropLast true) (fun _ => 500) (do
    let found ← statPath path
    match ← stageBody cfg body aborted with
    | .error status => pure status
    | .ok o =>
      orStatus (Layered.commit cfg.digest (.publish o path)) (fun _ => 500)
        (pure (match found with
          | .ok none => 201
          | _ => 204)))

def removeStatus : Failure Err → Nat
  | .raised .busy => 423
  | .raised (.failed "directory changed while it was being removed") => 409
  | _ => 500

def deletePath (path : Path) (sizes : List Nat) : LayeredProg Nat := do
  match ← statPath path with
  | .ok none => pure 404
  | .error _ => pure 500
  | .ok (some o) =>
    orStatus (Layered.removePathSection cfg.digest sizes path o.isDir) removeStatus (do
      Layered.cleanEmptyParents [] path
      pure 204)

def makeCollection (path : Path) (hasBody : Bool) : LayeredProg Nat :=
  if hasBody then pure 415
  else do
    let parent ← attempt (look fun w => isDirAt w.disk.tree path.dropLast)
    match parent with
    | .ok false => pure 409
    | _ =>
      match ← statPath path with
      | .ok (some _) => pure 405
      | _ => orStatus (Layered.mkdirSection cfg.digest path false) (fun _ => 500) (pure 201)

def replacementErrorStatus : Failure Err → Nat
  | .raised (.failed "destination exists") => 412
  | .raised (.failed "destination is inside the source") => 403
  | .raised (.failed "upload exceeds configured size limit") => 413
  | _ => 500

/-- What MOVE and COPY check before they change anything, and the directory they make. The rest
is told whether the destination was there. -/
def replacing (src dst : Path) (overwrite : Bool) (next : Bool → LayeredProg Nat) : LayeredProg Nat := do
  match ← statPath src with
  | .ok none => pure 404
  | _ =>
    if under dst src then pure 403
    else do
      let found ← statPath dst
      if statFound found && !overwrite then pure 412
      else orStatus (Layered.mkdirSection cfg.digest dst.dropLast true) (fun _ => 500) (next (statFound found))

def movePath (src dst : Path) (overwrite : Bool) (backup : String) : LayeredProg Nat :=
  replacing cfg src dst overwrite fun dstExists =>
    orStatus (Layered.commit cfg.digest
        (.move src dst (dst.dropLast ++ [".birak-bak-" ++ backup]) overwrite)) replacementErrorStatus (do
      Layered.cleanEmptyParents [] src
      pure (if dstExists then 204 else 201))

def copyPath (src dst : Path) (overwrite : Bool) (stage backup : String) : LayeredProg Nat :=
  replacing cfg src dst overwrite fun dstExists => do
    match ← statPath src with
    | .ok (some o) =>
      orStatus (Layered.commit cfg.digest (.copy cfg.maxUploadBytes src dst
          (dst.dropLast ++ [".birak-tmp-replace-" ++ stage]) (dst.dropLast ++ [".birak-bak-" ++ backup])
          overwrite o.isDir)) replacementErrorStatus
        (pure (if dstExists then 204 else 201))
    | _ => pure 500

variable (locks : LockTable) (now : Nat)

def onResource (r : DavRequest) (next : Path → LayeredProg Nat) : LayeredProg Nat :=
  match resolveName cfg.patterns r.url with
  | .error _ => pure 403
  | .ok rel =>
    if rel = "" then pure 403
    else if !locks.canModify now rel r.ifHeader then pure 423
    else next (split rel)

/-- A request that names two. MOVE changes both of them, COPY only the destination. -/
def onResources (r : DavRequest) (destination : Destination) (overwrite : String) (changesSource : Bool)
    (next : Path → Path → Bool → LayeredProg Nat) : LayeredProg Nat :=
  match resolveName cfg.patterns r.url with
  | .error _ => pure 403
  | .ok src =>
    if src = "" then pure 403
    else
      match destination with
      | .missing => pure 400
      | .bad => pure 400
      | .path url =>
        match resolveName cfg.patterns url with
        | .error _ => pure 403
        | .ok dst =>
          if dst = "" then pure 403
          else
            match parseOverwrite overwrite with
            | none => pure 400
            | some overwrite =>
              if changesSource && !locks.canModify now src r.ifHeader then pure 423
              else if !locks.canModify now dst r.ifHeader then pure 423
              else next (split src) (split dst) overwrite

def handlePut (r : DavRequest) (body : Bytes) (aborted : Bool) : LayeredProg Nat :=
  onResource cfg locks now r fun path => putFile cfg path body aborted

def handleDelete (r : DavRequest) (sizes : List Nat) : LayeredProg Nat :=
  onResource cfg locks now r fun path => deletePath cfg path sizes

def handleMkcol (r : DavRequest) (hasBody : Bool) : LayeredProg Nat :=
  onResource cfg locks now r fun path => makeCollection cfg path hasBody

def handleMove (r : DavRequest) (destination : Destination) (overwrite backup : String) : LayeredProg Nat :=
  onResources cfg locks now r destination overwrite true fun src dst overwrite =>
    movePath cfg src dst overwrite backup

def handleCopy (r : DavRequest) (destination : Destination) (overwrite stage backup : String) :
    LayeredProg Nat :=
  onResources cfg locks now r destination overwrite false fun src dst overwrite =>
    copyPath cfg src dst overwrite stage backup

def handleDav (r : DavRequest) : LayeredProg Nat :=
  match r.method with
  | .put body aborted => handlePut cfg locks now r body aborted
  | .delete sizes => handleDelete cfg locks now r sizes
  | .mkcol hasBody => handleMkcol cfg locks now r hasBody
  | .move destination overwrite backup => handleMove cfg locks now r destination overwrite backup
  | .copy destination overwrite stage backup => handleCopy cfg locks now r destination overwrite stage backup

end

/-- The first token of a refresh that names a live lock of the resource. Each one that is live is
refreshed on the way. -/
def refreshFirst (now : Nat) (timeout : Int) (rel : String) : List String → LockTable → Option WriteLock × LockTable
  | [], m => (none, m)
  | token :: tokens, m =>
    match m.refresh now token timeout with
    | (some lk, m) => if lk.covers rel then (some lk, m) else refreshFirst now timeout rel tokens m
    | (none, m) => refreshFirst now timeout rel tokens m

def handleLock (cfg : DavConfig) (locks : LockTable) (now : Nat) (url ifHeader depth : String)
    (timeout : Int) (token : String) : Nat × LockTable :=
  match resolveName cfg.patterns url with
  | .error _ => (403, locks)
  | .ok rel =>
    let (refreshed, locks) :=
      if ifHeader = "" then (none, locks) else refreshFirst now timeout rel (parseIfTokens ifHeader) locks
    match refreshed with
    | some _ => (200, locks)
    | none =>
      match locks.create now rel (if depth = "0" then .zero else .infinity) timeout token with
      | (some _, locks) => (200, locks)
      | (none, locks) => (423, locks)

structure Dav where
  locks : LockTable
  now : Nat
  vol : Layered

/-- What may happen to the gateway and to its volume. Other protocols may do anything to the
volume; a handled request only reaps the lock table. -/
inductive DavStep (cfg : DavConfig) : Dav → Dav → Prop where
  | lock {s : Dav} {status : Nat} {locks : LockTable} (url ifHeader depth : String) (timeout : Int)
      (token : String) : handleLock cfg s.locks s.now url ifHeader depth timeout token = (status, locks) →
      DavStep cfg s { s with locks }
  | unlock {s : Dav} (token : String) : DavStep cfg s { s with locks := (s.locks.unlock token).2 }
  | request {s : Dav} (r : DavRequest) {vol : Layered} :
      (handleDav cfg s.locks s.now r).Stops s.vol vol → DavStep cfg s { s with locks := s.locks.reap s.now, vol }
  | elapse {s : Dav} (time : Nat) : DavStep cfg s { s with now := s.now + time }
  | outside {s : Dav} (vol : Layered) : DavStep cfg s { s with vol }

inductive DavReachable (cfg : DavConfig) : Dav → Prop where
  | start (now : Nat) (vol : Layered) : DavReachable cfg ⟨[], now, vol⟩
  | step {s s' : Dav} : DavReachable cfg s → DavStep cfg s s' → DavReachable cfg s'

def Layered.resource (w : Layered) (rel : String) : Option Object :=
  w.disk.tree.lookup (if rel = "" then [] else split rel)

end BirakFormal
