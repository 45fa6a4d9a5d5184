import BirakFormal.Fileops.Layers

/-!
# What gateway commits do to the volume

The filesystem work of every gateway commit, call by call, on the volume with its durable
layer: publication, the close of a writer, rename, removal, MOVE and COPY, and the attribute
changes of SFTP. The replacement is that of the replacement model, with its flushes.
-/

namespace BirakFormal

open Interruption Prog Subtrees

namespace Layered

section
variable (digest : Digest)

def syncReplacementParents (s : Replacement) : LayeredProg Unit :=
  syncBoth (syncSurvivingParent s.destination) (syncSurvivingParent s.source)

def unpublish (s : Replacement) (source dest : List ReplacementEntry) : LayeredProg Unit :=
  if dest.isEmpty && matchesReplacement source s.new false then pure ()
  else if source.isEmpty && matchesReplacement dest s.new false then do
    onDisk (renamePath s.destination s.source)
    syncReplacementParents s
  else raise (replacementConflict s.destination)

def restoreBackup (s : Replacement) (source dest : List ReplacementEntry) : LayeredProg Unit := do
  unpublish s source dest
  onlyIf (!s.old.isEmpty) (do
    onDisk (renamePath s.backup s.destination)
    syncDir s.destination.dropLast)

def restoreDestination (s : Replacement) (backup source dest : List ReplacementEntry) :
    LayeredProg Unit :=
  if backup.isEmpty && matchesReplacement dest s.old false then
    if matchesReplacement source s.new s.copyStage.isSome then pure ()
    else raise (replacementConflict s.source)
  else if matchesReplacement backup s.old false then restoreBackup s source dest
  else raise (replacementConflict s.backup)

def rollbackReplacement (s : Replacement) (backup : List ReplacementEntry) : LayeredProg Unit := do
  let source ← onDisk (replacementTree digest s.source)
  let dest ← onDisk (replacementTree digest s.destination)
  restoreDestination s backup source dest
  onlyIf s.copyStage.isSome (onDisk (removeReplacementTree s.source))

def finishReplacement (s : Replacement) : LayeredProg Unit := do
  onDisk (s.copyStage.elim (pure ()) removeIfThere)
  syncReplacementParents s
  onDisk removeJournal

def recoverTrees (s : Replacement) (backup : List ReplacementEntry) : LayeredProg Unit :=
  if s.committed then onDisk (cleanupReplacement s backup) else rollbackReplacement digest s backup

def recoverReplacement (s : Replacement) : LayeredProg Unit := do
  check fun _ => validateReplacement s
  onDisk (safeReplacementParents s.source)
  onDisk (safeReplacementParents s.destination)
  onDisk (safeReplacementParents s.backup)
  let backup ← onDisk (replacementTree digest s.backup)
  recoverTrees digest s backup
  finishReplacement s

def recoverJournal : LayeredProg Unit := do
  match ← look fun w => w.disk.journal with
  | none => pure ()
  | some s => recoverReplacement digest s

def exchangeTrees (s : Replacement) : LayeredProg Unit := do
  onlyIf (!s.old.isEmpty) (do
    onDisk (renamePath s.destination s.backup)
    syncDir s.destination.dropLast)
  onDisk (renamePath s.source s.destination)
  syncReplacementParents s

def commitReplacement (s : Replacement) : LayeredProg Unit := do
  onDisk (writeReplacement s)
  match ← attempt (exchangeTrees s) with
  | .error e => do
    let _ ← attempt (recoverReplacement digest s)
    rethrow e
  | .ok () => do
    onDisk (writeReplacement { s with committed := true })
    recoverReplacement digest { s with committed := true }

def replaceLocked (src dst backup : Path) : LayeredProg Unit := do
  let s ← onDisk (prepareReplacement digest dst src backup none)
  commitReplacement digest s

def copyReplaceLocked (stage dst backup : Path) (copy : Path → LayeredProg Unit) :
    LayeredProg Unit := do
  mkdir stage 0o700
  match ← attempt (copy (stage ++ ["payload"])) with
  | .error e => do
    removeAll stage
    syncDir stage.dropLast
    rethrow e
  | .ok () => do
    match ← attempt (onDisk (prepareReplacement digest dst (stage ++ ["payload"]) backup (some stage))) with
    | .error e => do
      removeAll stage
      rethrow e
    | .ok s => commitReplacement digest s

end

/-- `copyFile` of a WebDAV COPY: `copied` bytes were copied before. The copy is flushed before
it gets its name, and its directory after that. -/
def copyFile (limit : Nat) (src dst : Path) (copied : Nat) : LayeredProg Nat := do
  match ← look fun w => w.disk.tree.lookup src with
  | none => raise (.failed ("stat " ++ src.text ++ ": no such file or directory"))
  | some o =>
    match o.body with
    | .file bytes mtime =>
      if 0 < limit && limit < copied + bytes.length then
        raise (.failed "upload exceeds configured size limit")
      else do
        let tmp ← writeTemp bytes mtime 0o600
        renameTemp tmp dst
        syncDir dst.dropLast
        pure (copied + bytes.length)
    | _ => raise (.failed ("COPY source is not a regular file: " ++ src.text))

def readDir (t : PathMap String Object) (p : Path) : List String :=
  (t.below walkOrder p).filterMap fun rel => match rel with
    | [x] => some x
    | _ => none

def copyEntries (limit : Nat) (copyDir : Path → Path → Nat → LayeredProg Nat) (src dst : Path) :
    List String → Nat → LayeredProg Nat
  | [], copied => pure copied
  | x :: xs, copied => do
    let entry ← look fun w => (w.disk.tree.lookup (src ++ [x])).map Object.body
    match entry with
    | some (.link _) => copyEntries limit copyDir src dst xs copied
    | some .dir => do
      let copied ← copyDir (src ++ [x]) (dst ++ [x]) copied
      copyEntries limit copyDir src dst xs copied
    | _ => do
      let copied ← copyFile limit (src ++ [x]) (dst ++ [x]) copied
      copyEntries limit copyDir src dst xs copied

def mkdirAll (p : Path) (perm : Nat) : LayeredProg Unit := do
  if ← look fun w => isDirAt w.disk.tree p then pure () else mkdir p perm

/-- `copyDir`, for trees of at most `depth` levels. Its parent is there: the stage, or the
directory made in the round before. -/
def copyDir (limit : Nat) : Nat → Path → Path → Nat → LayeredProg Nat
  | 0, src, _, _ => raise (.failed ("stat " ++ src.text ++ ": no such file or directory"))
  | depth + 1, src, dst, copied => do
    match ← look fun w => w.disk.tree.lookup src with
    | none => raise (.failed ("stat " ++ src.text ++ ": no such file or directory"))
    | some o => do
      mkdirAll dst o.perm
      let entries ← look fun w => readDir w.disk.tree src
      let copied ← copyEntries limit (copyDir limit depth) src dst entries copied
      syncBoth (syncDir dst) (syncDir dst.dropLast)
      pure copied

def publishOver (ready : Layered → Except Err Unit) (o : Object) (dest : Path) : LayeredProg Unit := do
  check ready
  renameTemp o dest
  syncParents dest.dropLast

/-- `Publish` and `PublishIf`: nobody writes the destination. -/
def publish : Object → Path → LayeredProg Unit := fun o dest =>
  publishOver (fun w => if w.busy dest then .error .busy else .ok ()) o dest

def sameGeneration (a b : Object) : Bool :=
  a.device = b.device && a.inode = b.inode && a.perm = b.perm &&
    match a.body, b.body with
    | .dir, .dir => true
    | .file x m, .file y n => x.length = y.length && m = n
    | .link x, .link y => x = y
    | .special, .special => true
    | _, _ => false

def closeWriter (original : Option Object) : Object → Path → LayeredProg Unit := fun o dest =>
  publishOver (fun w => match original, w.disk.tree.lookup dest with
    | some info, some current => if sameGeneration info current then .ok () else .error .busy
    | none, none => .ok ()
    | _, _ => .error .busy) o dest

def refuseBusyTrees (paths : List Path) : LayeredProg Unit :=
  check fun w => if paths.any w.busyTree then .error .busy else .ok ()

def rename (src dest : Path) : LayeredProg Unit := do
  refuseBusyTrees [src, dest]
  onDisk (renamePath src dest)
  syncBoth (syncParents src.dropLast) (syncParents dest.dropLast)

def remove (path : Path) (recursive : Bool) : LayeredProg Unit := do
  refuseBusyTrees [path]
  if recursive then removeAll path else onDisk (removePath path)
  syncSurvivingParent path

def removeFile (file : Path) : LayeredProg Unit := do
  match ← look fun w => w.disk.tree.lookup file with
  | none => pure ()
  | some o => onlyIf (!o.isDir) (onDisk (removePath file))

/-- One batch of a recursive removal; `files` are those that no writer holds. -/
def removeBatch (files : List Path) : LayeredProg Unit := do
  forEach removeFile files
  forEach (fun file => syncDir file.dropLast) files

/-- Remove one directory of an emptied tree. A directory that is not empty stops the removal,
unless something was found in the tree before. -/
def removeEmptied (changed : Bool) (dir : Path) : LayeredProg Unit := do
  let gone ← look fun w => (w.disk.tree.lookup dir).isNone
  match ← attempt (onDisk (removePath dir)) with
  | .ok () => pure ()
  | .error e => if gone || changed then pure () else rethrow e

def removeEmptyTree (path : Path) : LayeredProg Unit := do
  let rels ← look fun w => w.disk.tree.below walkOrder path
  let dirs ← look fun w => rels.filter fun rel => (w.disk.tree.lookup (path ++ rel)).any Object.isDir
  let changed := decide (dirs.length < rels.length)
  forEach (fun rel => removeEmptied changed (path ++ rel)) dirs.reverse
  syncBoth (if changed then raise (.failed "directory changed while it was being removed") else pure ())
    (syncSurvivingParent path)

/-- `checkReplacementLocked`. -/
def checkReplacement (src dst : Path) (overwrite : Bool) : LayeredProg Unit :=
  check fun w =>
    if under dst src then .error (.failed "destination is inside the source")
    else if (w.disk.tree.lookup dst).isSome && !overwrite then .error (.failed "destination exists")
    else .ok ()

def move (digest : Digest) (src dst backup : Path) (overwrite : Bool) : LayeredProg Unit := do
  checkReplacement src dst overwrite
  refuseBusyTrees [src, dst]
  replaceLocked digest src dst backup
  syncBoth (syncParents src.dropLast) (syncParents dst.dropLast)

def copy (digest : Digest) (limit : Nat) (src dst stage backup : Path) (overwrite isDir : Bool) :
    LayeredProg Unit := do
  checkReplacement src dst overwrite
  refuseBusyTrees [dst, src]
  let depth ← look fun w => (w.disk.tree.names.map List.length).foldl max 0
  copyReplaceLocked digest stage dst backup fun payload =>
    (if isDir then copyDir limit (depth + 1) src payload 0 else copyFile limit src payload 0) >>=
      fun _ => pure ()
  syncParents dst.dropLast

structure Attrs where
  size : Option Nat := none
  perm : Option Nat := none
  mtime : Option Int64 := none

def resize (bytes : Bytes) (size : Nat) : Bytes :=
  bytes.take size ++ List.replicate (size - bytes.length) 0

def truncate (path : Path) (size : Nat) : LayeredProg Unit :=
  update fun w => match w.disk.tree.lookup path with
    | none => .error (.failed ("truncate " ++ path.text ++ ": no such file or directory"))
    | some o =>
      match o.body with
      | .file bytes _ => .ok ((), { w with disk := { w.disk with
          tree := w.disk.tree.put path { o with body := .file (resize bytes size) w.now } } })
      | _ => .error (.failed ("truncate " ++ path.text ++ ": invalid argument"))

def setPerm (perm : Nat) (o : Object) : Object := { o with perm := perm % 512 }

def setTime (mtime : Int64) (o : Object) : Object :=
  match o.body with
  | .file bytes _ => { o with body := .file bytes mtime }
  | _ => o

def applyOpt {α : Type} (value : Option α) (f : α → LayeredProg Unit) : LayeredProg Unit :=
  value.elim (pure ()) f

def applyAttrs (a : Attrs) (path : Path) : LayeredProg Unit := do
  applyOpt a.size (truncate path)
  applyOpt a.perm fun perm => setAttrs path (setPerm perm)
  applyOpt a.mtime fun mtime => setAttrs path (setTime mtime)

/-- `applyAttrs` on a handle that was opened for reading: it cannot be truncated, the mode goes
to the open object and the times to what is at its path. -/
def applyAttrsRead (a : Attrs) (path : Path) (inode : Nat) : LayeredProg Unit := do
  applyOpt a.size fun _ => raise (.failed ("truncate " ++ path.text ++ ": invalid argument"))
  applyOpt a.perm fun perm => setAttrs path fun o => if o.inode = inode then setPerm perm o else o
  applyOpt a.mtime fun mtime => setAttrs path (setTime mtime)

def refuseBusy (path : Path) : LayeredProg Unit :=
  check fun w => if w.busy path then .error .busy else .ok ()

def setstat (path : Path) (a : Attrs) : LayeredProg Unit := do
  refuseBusy path
  applyAttrs a path

def fsetstat (path : Path) (inode : Nat) (a : Attrs) : LayeredProg Unit := do
  refuseBusy path
  applyAttrsRead a path inode

end Layered

/-- The filesystem work of one gateway commit. A staged file is given as the flushed object that
it is; `stage` and `backup` are the names that are made up on the way. -/
inductive Change where
  | publish (o : Object) (dest : Path)
  | closeWriter (original : Option Object) (o : Object) (dest requested : Path)
  | rename (src dest : Path)
  | remove (path : Path) (recursive : Bool)
  | removeBatch (files : List Path)
  | removeEmptyTree (path : Path)
  | move (src dst backup : Path) (overwrite : Bool)
  | copy (limit : Nat) (src dst stage backup : Path) (overwrite isDir : Bool)
  | setstat (path : Path) (attrs : Layered.Attrs)
  | fsetstat (path : Path) (inode : Nat) (attrs : Layered.Attrs)

namespace Change

def run (digest : Digest) : Change → LayeredProg Unit
  | publish o dest => Layered.publish o dest
  | closeWriter original o dest _ => Layered.closeWriter original o dest
  | rename src dest => Layered.rename src dest
  | remove path recursive => Layered.remove path recursive
  | removeBatch files => Layered.removeBatch files
  | removeEmptyTree path => Layered.removeEmptyTree path
  | move src dst backup overwrite => Layered.move digest src dst backup overwrite
  | copy limit src dst stage backup overwrite isDir =>
    Layered.copy digest limit src dst stage backup overwrite isDir
  | setstat path attrs => Layered.setstat path attrs
  | fsetstat path inode attrs => Layered.fsetstat path inode attrs

def sources : Change → List Path
  | rename src _ => [src]
  | move src _ _ _ => [src]
  | copy _ src _ _ _ _ _ => [src]
  | _ => []

def paths : Change → List Path
  | publish _ dest => [dest]
  | closeWriter _ _ dest requested => [dest, requested]
  | rename src dest => [src, dest]
  | remove path _ => [path]
  | removeBatch files => files
  | removeEmptyTree path => [path]
  | move src dst _ _ => [src, dst]
  | copy _ _ dst _ _ _ _ => [dst]
  | setstat path _ => [path]
  | fsetstat path _ _ => [path]

def staged : Change → Option (Object × Path)
  | publish o dest => some (o, dest)
  | closeWriter _ o dest _ => some (o, dest)
  | _ => none

def size : Change → Option Nat
  | setstat _ attrs => attrs.size
  | fsetstat _ _ attrs => attrs.size
  | _ => none

/-- The change, and the recovery that follows one that failed. If that fails too, nothing is
indexed. -/
def work (digest : Digest) (c : Change) : LayeredProg (Except (Failure Err) Unit) := do
  match ← attempt (c.run digest) with
  | .ok () => pure (.ok ())
  | .error e => do
    Layered.recoverJournal digest
    pure (.error e)

end Change

end BirakFormal
