import BirakFormal.Shared.Interruption
import BirakFormal.Shared.Subtrees
import BirakFormal.Store.Index

/-!
# Journaled replacement

MOVE and COPY over an existing tree: the old tree is renamed to a backup, the new one is
renamed to the destination, and a journal says which of the two is wanted. Recovery decides
from the journal and from what it finds at the source, the destination and the backup.

`unsynced` are the entries that were unlinked and whose directory has not been flushed since:
a crash may bring back any of them. Renames and journal writes reach the disk in order, so a
crash that takes some of them back is a crash before the first of those.
-/

namespace BirakFormal

open Interruption Prog Subtrees

abbrev Path := List String

def Path.text (p : Path) : String := "/".intercalate p

inductive Body where
  | dir
  | file (bytes : Bytes) (mtime : Int64)
  | link (target : String)
  | special
  deriving DecidableEq, Repr

structure Object where
  device : Nat := 0
  inode : Nat
  perm : Nat := 0
  body : Body
  deriving DecidableEq, Repr

def Object.isDir (o : Object) : Bool := o.body = .dir

inductive FileType where
  | dir | regular | symlink
  deriving DecidableEq, Repr

structure ReplacementEntry where
  name : Path
  device : Nat
  inode : Nat
  perm : Nat
  type : FileType
  size : Nat := 0
  mtime : Int64 := 0
  hash : String := ""
  link : String := ""
  deriving DecidableEq, Repr

structure Replacement where
  format : Nat := 1
  destination : Path
  source : Path
  backup : Path
  copyStage : Option Path := none
  old : List ReplacementEntry
  new : List ReplacementEntry
  committed : Bool := false
  deriving DecidableEq, Repr

structure Disk where
  tree : PathMap String Object
  journal : Option Replacement := none
  unsynced : List (Path × Object) := []

abbrev Fs := Prog Err Disk

section
variable (digest : Digest)

def Object.entry (o : Object) (name : Path) : Option ReplacementEntry :=
  let e : ReplacementEntry :=
    { name, device := o.device, inode := o.inode, perm := o.perm, type := .dir }
  match o.body with
  | .dir => some e
  | .file bytes mtime =>
    some { e with type := .regular, size := bytes.length, mtime, hash := digest.hash bytes }
  | .link target => some { e with type := .symlink, link := target }
  | .special => none

def walkOrder (a b : Path) : Bool := a ≤ b

def manifest (t : PathMap String Object) (name : Path) : List ReplacementEntry :=
  (t.below walkOrder name).filterMap fun rel => (t.lookup (name ++ rel)).bind fun o => o.entry digest rel

/-- Nothing at the name is an empty manifest; a special file anywhere is an error. -/
def replacementTree (name : Path) : Fs (List ReplacementEntry) :=
  check fun d =>
    if d.tree.lookup name = none then .ok []
    else if (d.tree.below walkOrder name).any fun rel =>
        (d.tree.lookup (name ++ rel)).any fun o => o.body = .special then
      .error (.failed ("unsupported replacement object: " ++ name.text))
    else .ok (manifest digest d.tree name)

def entryOf (entries : List ReplacementEntry) (name : Path) : Option ReplacementEntry :=
  entries.reverse.find? fun e => e.name = name

def matchesReplacement (got want : List ReplacementEntry) (allowMissing : Bool) : Bool :=
  (allowMissing || got.length = want.length) && got.all fun e => entryOf want e.name = some e

end

def localReplacementName (name : Path) : Bool :=
  name ≠ [] && name.all fun part => part ≠ "" && part ≠ "." && part ≠ ".." && !part.toList.contains '/'

def isHexDigit (c : Char) : Bool := isLowerHex c || ('A' ≤ c && c ≤ 'F')

def isChecksum (hash : String) : Bool := hash.utf8ByteSize = 64 && hash.toList.all isHexDigit

/-- `seen` are the names and types of the entries before. -/
def validateEntries : List ReplacementEntry → List (Path × FileType) → Except Err Unit
  | [], _ => .ok ()
  | e :: entries, seen =>
    if (seen.isEmpty && e.name ≠ []) || (!seen.isEmpty && !localReplacementName e.name) then
      .error (.failed ("invalid replacement manifest name " ++ e.name.text))
    else if seen.any fun s => s.1 = e.name then
      .error (.failed ("duplicate replacement manifest name " ++ e.name.text))
    else if !seen.isEmpty && !seen.any fun s => s.1 = e.name.dropLast && s.2 = .dir then
      .error (.failed ("missing replacement manifest parent for " ++ e.name.text))
    else if e.type = .regular && !isChecksum e.hash then
      .error (.failed "invalid replacement manifest checksum")
    else validateEntries entries (seen ++ [(e.name, e.type)])

def validateReplacementTree (tree : List ReplacementEntry) : Except Err Unit :=
  match tree with
  | [] => .ok ()
  | e :: _ =>
    match validateEntries tree [] with
    | .error err => .error err
    | .ok () => if e.inode = 0 then .error (.failed "missing replacement object identity") else .ok ()

def under (a b : Path) : Bool := b <+: a

def overlaps (s : Replacement) : Bool :=
  under s.source s.destination || under s.destination s.source || under s.backup s.source ||
    under s.source s.backup || s.backup = s.destination ||
    s.backup.dropLast ≠ s.destination.dropLast ||
    !(s.backup.getLast?.any fun base => hasPrefix base ".birak-bak-")

def badCopyStage (s : Replacement) : Bool :=
  s.copyStage.any fun stage =>
    !localReplacementName stage || stage.dropLast ≠ s.destination.dropLast ||
      !(stage.getLast?.any fun base => hasPrefix base ".birak-tmp-replace-") ||
      s.source ≠ stage ++ ["payload"] || under s.destination stage

def validateReplacement (s : Replacement) : Except Err Unit :=
  if s.format ≠ 1 then .error (.failed "unsupported replacement journal format")
  else if [s.destination, s.source, s.backup].any fun p => !localReplacementName p then
    .error (.failed "invalid replacement journal path")
  else if overlaps s then .error (.failed "overlapping or invalid replacement journal paths")
  else if [s.source, s.destination, s.backup].any fun p => under p [".birak"] then
    .error (.failed "replacement journal targets private state")
  else if badCopyStage s then .error (.failed "invalid replacement copy staging path")
  else if s.new.isEmpty then .error (.failed "replacement journal has no source manifest")
  else
    match validateReplacementTree s.new with
    | .error e => .error e
    | .ok () => validateReplacementTree s.old

def isDirAt (t : PathMap String Object) (p : Path) : Bool := p = [] || (t.lookup p).any Object.isDir

def hasChildren (t : PathMap String Object) (p : Path) : Bool := t.names.any fun k => p <+: k && k ≠ p

def mayReplace (t : PathMap String Object) (o : Object) (q : Path) : Bool :=
  match t.lookup q with
  | none => true
  | some o' => if o.isDir then o'.isDir && !hasChildren t q else !o'.isDir

def renamePath (p q : Path) : Fs Unit :=
  update fun d => match d.tree.lookup p with
    | none => .error (.failed ("rename " ++ p.text ++ ": no such file or directory"))
    | some o =>
      if p <+: q ∨ q <+: p then .error (.failed ("rename " ++ p.text ++ ": invalid argument"))
      else if !isDirAt d.tree q.dropLast || !mayReplace d.tree o q then
        .error (.failed ("rename " ++ p.text ++ " " ++ q.text))
      else .ok ((), { d with tree := d.tree.move p q })

def Disk.unlink (d : Disk) (p : Path) (o : Object) : Except Err (Unit × Disk) :=
  if hasChildren d.tree p then .error (.failed ("remove " ++ p.text ++ ": directory not empty"))
  else .ok ((), { d with tree := d.tree.erase p, unsynced := (p, o) :: d.unsynced })

def removePath (p : Path) : Fs Unit :=
  update fun d => match d.tree.lookup p with
    | none => .error (.failed ("remove " ++ p.text ++ ": no such file or directory"))
    | some o => d.unlink p o

def removeIfThere (p : Path) : Fs Unit :=
  update fun d => match d.tree.lookup p with
    | none => .ok ((), d)
    | some o => d.unlink p o

def Disk.flush (d : Disk) (flushed : Path → Bool) : Disk :=
  { d with unsynced := d.unsynced.filter fun e => !flushed e.1.dropLast }

def syncDir (dir : Path) : Fs Unit := alter fun d => d.flush fun k => k = dir

def climb (t : PathMap String Object) : Path → Path
  | [] => []
  | part :: parts =>
    if isDirAt t (part :: parts).reverse then (part :: parts).reverse else climb t parts

def survivingParent (t : PathMap String Object) (p : Path) : Path := climb t p.dropLast.reverse

def syncParents (dir : Path) : Fs Unit := forEach syncDir dir.inits.reverse

def syncSurvivingParent (p : Path) : Fs Unit := do
  let dir ← look fun d => survivingParent d.tree p
  syncParents dir

/-- `errors.Join` of two results. -/
def joinErrors : Except (Failure Err) Unit → Except (Failure Err) Unit → Fs Unit
  | .ok (), .ok () => pure ()
  | .error e, _ => rethrow e
  | .ok (), .error e => rethrow e

def syncReplacementParents (s : Replacement) : Fs Unit := do
  let dst ← attempt (syncSurvivingParent s.destination)
  let src ← attempt (syncSurvivingParent s.source)
  joinErrors dst src

def checkParents (t : PathMap String Object) (cur : Path) : Path → Except Err Unit
  | [] => .ok ()
  | part :: parts =>
    match t.lookup (cur ++ [part]) with
    | none => .ok ()
    | some o =>
      if o.isDir then checkParents t (cur ++ [part]) parts
      else .error (.failed ("replacement parent " ++ (cur ++ [part]).text ++ " is not a real directory"))

def safeReplacementParents (name : Path) : Fs Unit :=
  check fun d =>
    if localReplacementName name then checkParents d.tree [] name.dropLast
    else .error (.failed ("invalid replacement path " ++ name.text))

def writeReplacement (s : Replacement) : Fs Unit := do
  barrier
  barrier
  barrier
  alter fun d => { d with journal := some s }
  barrier

def removeReplacementTree (name : Path) : Fs Unit := do
  let rels ← look fun d => if d.tree.lookup name = none then [] else d.tree.below walkOrder name
  forEach (fun rel => removePath (name ++ rel)) rels.reverse

variable (digest : Digest)

def replacementConflict (name : Path) : Err :=
  .failed ("replacement recovery conflict at " ++ name.text ++ ": contents changed or missing; " ++
    "preserve the journal and backups and restore the expected paths before retrying")

def unpublish (s : Replacement) (source dest : List ReplacementEntry) : Fs Unit :=
  if dest.isEmpty && matchesReplacement source s.new false then pure ()
  else if source.isEmpty && matchesReplacement dest s.new false then do
    renamePath s.destination s.source
    syncReplacementParents s
  else raise (replacementConflict s.destination)

def restoreBackup (s : Replacement) (source dest : List ReplacementEntry) : Fs Unit := do
  unpublish s source dest
  onlyIf (!s.old.isEmpty) (do
    renamePath s.backup s.destination
    syncDir s.destination.dropLast)

/-- Restore the destination, unless that is done already. Only the private stage of a COPY may
have been cleaned up in part by then. -/
def restoreDestination (s : Replacement) (backup source dest : List ReplacementEntry) : Fs Unit :=
  if backup.isEmpty && matchesReplacement dest s.old false then
    if matchesReplacement source s.new s.copyStage.isSome then pure ()
    else raise (replacementConflict s.source)
  else if matchesReplacement backup s.old false then restoreBackup s source dest
  else raise (replacementConflict s.backup)

def rollbackReplacement (s : Replacement) (backup : List ReplacementEntry) : Fs Unit := do
  let source ← replacementTree digest s.source
  let dest ← replacementTree digest s.destination
  restoreDestination s backup source dest
  onlyIf s.copyStage.isSome (removeReplacementTree s.source)

/-- Delete the backup of a committed replacement. A previous cleanup may have stopped halfway,
so entries may be missing; changed or added ones are never deleted. -/
def cleanupReplacement (s : Replacement) (backup : List ReplacementEntry) : Fs Unit :=
  if matchesReplacement backup s.old true then removeReplacementTree s.backup
  else raise (replacementConflict s.backup)

def removeJournal : Fs Unit :=
  update fun d => match d.journal with
    | none => .error (.failed "remove journal: no such file or directory")
    | some _ => .ok ((), { d with journal := none })

def finishReplacement (s : Replacement) : Fs Unit := do
  (s.copyStage.elim (pure ()) removeIfThere : Fs Unit)
  syncReplacementParents s
  removeJournal
  barrier

def recoverTrees (s : Replacement) (backup : List ReplacementEntry) : Fs Unit :=
  if s.committed then cleanupReplacement s backup else rollbackReplacement digest s backup

def recoverReplacement (s : Replacement) : Fs Unit := do
  check fun _ => validateReplacement s
  safeReplacementParents s.source
  safeReplacementParents s.destination
  safeReplacementParents s.backup
  let backup ← replacementTree digest s.backup
  recoverTrees digest s backup
  finishReplacement s

/-- `RecoverLocked`, for the one journal there can be. -/
def recoverJournal : Fs Unit := do
  match ← look fun d => d.journal with
  | none => pure ()
  | some s => recoverReplacement digest s

def exchangeTrees (s : Replacement) : Fs Unit := do
  onlyIf (!s.old.isEmpty) (do
    renamePath s.destination s.backup
    syncDir s.destination.dropLast)
  renamePath s.source s.destination
  syncReplacementParents s

/-- What a replacement does once everything is checked: journal it, exchange the trees, mark
the journal committed, and clean up. An error in between is rolled back at once. -/
def commitReplacement (s : Replacement) : Fs Unit := do
  writeReplacement s
  match ← attempt (exchangeTrees s) with
  | .error e => do
    let _ ← attempt (recoverReplacement digest s)
    rethrow e
  | .ok () => do
    writeReplacement { s with committed := true }
    recoverReplacement digest { s with committed := true }

def prepareReplacement (dst src backup : Path) (copyStage : Option Path) : Fs Replacement := do
  safeReplacementParents src
  safeReplacementParents dst
  let new ← replacementTree digest src
  if new.isEmpty then raise (.failed ("missing replacement source " ++ src.text))
  else do
    let old ← replacementTree digest dst
    let s : Replacement := { destination := dst, source := src, backup, copyStage, old, new }
    check fun d => if d.tree.lookup backup = none then .ok ()
      else .error (.failed ("lstat " ++ backup.text ++ ": file exists"))
    check fun _ => validateReplacement s
    pure s

def replaceLocked (src dst backup : Path) : Fs Unit := do
  barrier
  barrier
  let s ← prepareReplacement digest dst src backup none
  commitReplacement digest s

def mkdirStage (stage : Path) (o : Object) : Fs Unit :=
  update fun d =>
    if isDirAt d.tree stage.dropLast ∧ d.tree.lookup stage = none then
      .ok ((), { d with tree := d.tree.put stage { o with body := .dir } })
    else .error (.failed ("mkdir " ++ stage.text))

/-- `CopyReplaceLocked`: build a copy below `stage` and move it over `dst`. Until the journal
is written the stage holds disposable copies only. -/
def copyReplaceLocked (stage dst backup : Path) (o : Object) (copy : Fs Unit) : Fs Unit := do
  barrier
  barrier
  mkdirStage stage o
  match ← attempt copy with
  | .error e => do
    let _ ← attempt (removeReplacementTree stage)
    let _ ← attempt (syncDir stage.dropLast)
    rethrow e
  | .ok () => do
    match ← attempt (prepareReplacement digest dst (stage ++ ["payload"]) backup (some stage)) with
    | .error e => do
      let _ ← attempt (removeReplacementTree stage)
      rethrow e
    | .ok s => commitReplacement digest s

end BirakFormal
