import BirakFormal.Shared.Flushing
import BirakFormal.Shared.Interruption
import BirakFormal.Syncer.Validate

/-!
# Resumable transfers

The transfers of one name, one attempt after another: the path lock admits one at a time.
An attempt writes what a peer sends into a scratch file and feeds it to a hash; one that
stops part-way flushes the file and then records how far it got, and the next attempt, after
a retry or after a restart, goes on from there.

The hash under way stands for the bytes it was fed. What a peer answers, how far a failing
write gets and what the sections under the commit lock decide are inputs of an attempt. The
position of an open file is moved together with the call that needs it.
-/

namespace BirakFormal

open Interruption Prog Tables

structure ScratchFile where
  path : String
  data : Flushing.Flushed UInt8
  /-- Whether the entry in its directory is flushed. -/
  linked : Bool

structure PartialDownload where
  fileMeta : FileMeta
  path : String
  verified : Nat
  prefixHash : String

structure Stage where
  fileMeta : FileMeta
  path : String
  position : Nat := 0
  offset : Nat := 0
  checkpointed : Nat := 0
  hasher : Bytes := []
  resumable : Bool
  recorded : Bool := false
  dirSynced : Bool := false

/-- `record` is the row of the name in the store and `partials` the entry in memory. `published`
and `drawn` are not part of the node: every file renamed over the destination, and every name
given to a scratch file. -/
structure Transfers where
  files : Table ScratchFile.path := .empty
  record : Option PartialDownload := none
  partials : Option PartialDownload := none
  stage : Option Stage := none
  started : Bool := true
  published : List (FileMeta × Bytes) := []
  drawn : List String := []

structure TransferErr where
  invalid : Bool
  text : String

abbrev Transfer := Prog TransferErr Transfers

def keep {α : Type} (text : String) : Transfer α := raise ⟨false, text⟩

def invalidate {α : Type} (text : String) : Transfer α := raise ⟨true, text⟩

structure TransferLimits where
  resumableBytes : Nat := 2 ^ 20
  checkpointBytes : Nat := 2 ^ 24
  /-- The buffer a prefix is rehashed with. -/
  buffer : Nat := 2 ^ 20
  buffer_pos : 0 < buffer := by decide

/-- One read from the body. A short write is one the local file system cut off. -/
inductive BodyRead where
  | data (p : Bytes) (short : Option Nat)
  | failed

inductive ReplyStatus where
  | ok
  | partialContent (contentRange : String)
  | requestedRangeNotSatisfiable
  | notFound
  | other (code : Nat)

structure FileReply where
  status : ReplyStatus
  etag : String
  body : List BodyRead

def limitReader : Nat → List BodyRead → List BodyRead
  | 0, _ => []
  | _, [] => []
  | _, .failed :: _ => [.failed]
  | n + 1, .data p short :: rest =>
    .data (p.take (n + 1)) short :: limitReader (n + 1 - p.length) rest

/-- `strings.Cut`. -/
def cutAt (sep : Char) : List Char → Option (List Char × List Char)
  | [] => none
  | c :: cs => if c = sep then some ([], cs) else (cutAt sep cs).map fun r => (c :: r.1, r.2)

def digitsValue (cs : List Char) : Option Nat :=
  if cs ≠ [] ∧ cs.all Char.isDigit then
    some (cs.foldl (fun n c => 10 * n + (c.toNat - '0'.toNat)) 0)
  else none

/-- `strconv.ParseInt` with base 10 and 64 bits. -/
def parseInt64 (cs : List Char) : Option Int :=
  match cs with
  | '-' :: ds => (digitsValue ds).bind fun n => if n ≤ 2 ^ 63 then some (-(n : Int)) else none
  | '+' :: ds => (digitsValue ds).bind fun n => if n < 2 ^ 63 then some (n : Int) else none
  | ds => (digitsValue ds).bind fun n => if n < 2 ^ 63 then some (n : Int) else none

def parseContentRange (value : String) : Option (Int × Int × Int) :=
  if hasPrefix value "bytes " then do
    let (span, size) ← cutAt '/' (value.toList.drop 6)
    let (first, last) ← cutAt '-' span
    pure (← parseInt64 first, ← parseInt64 last, ← parseInt64 size)
  else none

namespace Transfers

def file (s : Transfers) (path : String) : Option (Flushing.Flushed UInt8) := (s.files.find path).map (·.data)

def edit (s : Transfers) (path : String) (g : Flushing.Flushed UInt8 → Flushing.Flushed UInt8) : Transfers :=
  { s with files := match s.files.find path with
      | some x => s.files.put { x with data := g x.data }
      | none => s.files }

def link (s : Transfers) (path : String) : Transfers :=
  { s with files := match s.files.find path with
      | some x => s.files.put { x with linked := true }
      | none => s.files }

def dropped (s : Transfers) : Transfers :=
  { s with record := none, partials := none, stage := s.stage.map fun st => { st with recorded := false } }

end Transfers

def onStage (f : Stage → Transfers → Transfers) : Transfer Unit :=
  alter fun s => match s.stage with
    | some st => f st s
    | none => s

def fsyncStage : Transfer Unit := onStage fun st s => s.edit st.path Flushing.Flushed.sync

def dropRecord : Transfer Unit := alter Transfers.dropped

def forgetPartial : Transfer Unit := alter fun s => { s with partials := none }

def removeScratch (path : String) : Transfer Unit :=
  alter fun s => { s with files := s.files.erase path }

def partialPath (rel : String) : Bool :=
  isLocal rel && clean rel = rel && hasPrefix (base rel) ".birak-tmp-replica-" &&
    !hasPrefix rel ".birak/"

variable (digest : Digest) (limits : TransferLimits)

def checkpoint : Transfer Unit := do
  fsyncStage
  let dirSynced ← look fun s => s.stage.all Stage.dirSynced
  onlyIf (!dirSynced) (onStage fun st s =>
    { s.link st.path with stage := some { st with dirSynced := true } })
  onStage fun st s =>
    let record : PartialDownload := ⟨st.fileMeta, st.path, st.offset, digest.hash st.hasher⟩
    { s with record := some record, partials := some record,
             stage := some { st with recorded := true, checkpointed := st.offset } }

/-- `st.file.Write`, with the hash and the offset that follow a write in full. -/
def fileWrite (p : Bytes) (short : Option Nat) : Transfer Unit :=
  perform fun s => match s.stage, short with
    | none, _ => (.error ⟨true, "file already closed"⟩, s)
    | some st, none =>
      (.ok (), { s.edit st.path (·.writeAt st.position p) with
        stage := some { st with position := st.position + p.length, hasher := st.hasher ++ p,
                                offset := st.offset + p.length } })
    | some st, some n =>
      (.error ⟨true, "short write"⟩, { s.edit st.path (·.writeAt st.position (p.take n)) with
        stage := some { st with position := st.position + (p.take n).length } })

def Stage.write (p : Bytes) (short : Option Nat) : Transfer Unit := do
  fileWrite p short
  let due ← look fun s => s.stage.any fun st => st.resumable &&
    limits.checkpointBytes ≤ st.offset - st.checkpointed && (st.offset : Int) < st.fileMeta.size
  -- A checkpoint that fails is only logged.
  onlyIf due (do let _ ← attempt (checkpoint digest); pure ())

def receiveBody : List BodyRead → Transfer Unit
  | [] => pure ()
  | .failed :: _ => keep "unexpected EOF"
  | .data p short :: rest =>
    if p = [] then receiveBody rest
    else do
      let fits ← look fun s => s.stage.any fun st =>
        ((st.offset + p.length : Nat) : Int) ≤ st.fileMeta.size
      if !fits then invalidate "peer sent more than the advertised size"
      else
        match ← attempt (Stage.write digest limits p short) with
        | .error _ => invalidate "write file"
        | .ok () => receiveBody rest

def Stage.restart : Transfer Unit := do
  let recorded ← look fun s => s.stage.any Stage.recorded
  onlyIf recorded dropRecord
  onStage fun st s =>
    { s.edit st.path (·.truncate 0) with
      stage := some { st with position := 0, offset := 0, checkpointed := 0, hasher := [] } }

def forgetRecord : Transfer Unit := do
  match ← attempt dropRecord with
  | .ok () => pure ()
  | .error _ => forgetPartial

def Stage.discard : Transfer Unit := do
  let _ ← attempt barrier
  match ← look Transfers.stage with
  | none => pure ()
  | some st => do
    let _ ← attempt (onlyIf st.recorded forgetRecord)
    let _ ← attempt (alter fun s => { s with files := s.files.erase st.path, stage := none })
    pure ()

def Stage.release (invalid : Bool) : Transfer Unit := do
  match ← look Transfers.stage with
  | none => pure ()
  | some st =>
    if !invalid && st.resumable && 0 < st.offset && (st.offset : Int) < st.fileMeta.size then
      if st.checkpointed < st.offset then
        match ← attempt (checkpoint digest) with
        | .ok () => pure ()
        | .error _ => Stage.discard
      else pure ()
    else Stage.discard

def hashPrefix (path : String) : Nat → Nat → Nat → Bytes → Transfer Bytes
  | 0, _, _, hasher => pure hasher
  | fuel + 1, n, pos, hasher =>
    if n = 0 then pure hasher
    else do
      barrier
      let size := min limits.buffer n
      let chunk ← look fun s => ((s.file path).map fun f => (f.content.drop pos).take size).getD []
      if chunk.length < size then keep "partial download no longer matches its record"
      else hashPrefix path fuel (n - size) (pos + size) (hasher ++ chunk)

def openPartialFile (rel : String) : Transfer Nat :=
  if !partialPath rel then keep "partial download no longer matches its record"
  else check fun s => match s.file rel with
    | some f => .ok f.content.length
    | none => .error ⟨false, "no such file or directory"⟩

/-- Reopen a recorded transfer and prove its prefix still holds the bytes that were recorded. -/
def resumeStage (record : PartialDownload) (m : FileMeta) : Transfer Unit := do
  let size ← openPartialFile record.path
  if record.verified = 0 ∨ m.size ≤ record.verified ∨ size < record.verified then
    keep "partial download no longer matches its record"
  else do
    let hasher ← hashPrefix limits record.path record.verified record.verified 0 []
    if digest.hash hasher ≠ record.prefixHash then
      keep "partial download no longer matches its record"
    else do
      -- Anything beyond the checkpoint was never confirmed durable.
      alter fun s => s.edit record.path (·.truncate record.verified)
      alter fun s => { s with stage := some {
        fileMeta := m, path := record.path, position := record.verified, offset := record.verified,
        checkpointed := record.verified, hasher := hasher, resumable := true, recorded := true,
        dirSynced := true } }

def dropPartial (record : PartialDownload) : Transfer Unit := do
  match ← attempt dropRecord with
  | .error _ => pure ()
  | .ok () =>
    if partialPath record.path then do
      let _ ← attempt (removeScratch record.path)
      pure ()
    else pure ()

/-- Reopen the partial transfer of the content, if there is one that can still be trusted, and
drop any other partial transfer of the name. -/
def resumableStage (m : FileMeta) (cancelled : Bool) : Transfer Unit := do
  match ← look Transfers.partials with
  | none => pure ()
  | some record =>
    if limits.resumableBytes ≤ m.size ∧ record.fileMeta.hash = m.hash ∧ record.fileMeta.size = m.size then
      match ← attempt (resumeStage digest limits record m) with
      | .ok () => pure ()
      | .error _ => if cancelled then keep "context canceled" else dropPartial record
    else dropPartial record

def newStage (m : FileMeta) (path : String) : Transfer Unit := do
  barrier
  update fun s =>
    if path ∈ s.drawn ∨ (s.files.find path).isSome then .error ⟨false, "file exists"⟩
    else .ok ((), { s with
      files := s.files.put ⟨path, .empty, false⟩
      drawn := path :: s.drawn
      stage := some { fileMeta := m, path := path, resumable := limits.resumableBytes ≤ m.size } })

/-- What an attempt meets: whether it is cancelled while it reopens a stage, the name drawn for
a new scratch file, the peer's reply, and whether the checks under the commit lock let it
rename its file. -/
structure TransferInput where
  cancelled : Bool
  path : String
  reply : Option FileReply
  wins : Bool

def acceptStatus (m : FileMeta) : ReplyStatus → Transfer Unit
  | .ok => do
    if ← look fun s => s.stage.isSome then
      match ← attempt Stage.restart with
      | .ok () => pure ()
      | .error _ => invalidate ("restart download of " ++ m.name)
    else pure ()
  | .partialContent contentRange => do
    match ← look Transfers.stage with
    | none => invalidate ("download " ++ m.name ++ ": peer sent range " ++ quoted contentRange)
    | some st =>
      if parseContentRange contentRange = some ((st.offset : Int), m.size - 1, m.size) then pure ()
      else invalidate ("download " ++ m.name ++ ": peer sent range " ++ quoted contentRange)
  | .requestedRangeNotSatisfiable => invalidate (m.name ++ " no longer extends past its prefix")
  | .notFound => keep ("download " ++ m.name ++ ": peer returned 404")
  | .other _ => keep ("download " ++ m.name ++ ": status")

def publish (m : FileMeta) (wins : Bool) : Transfer Unit := do
  match ← look Transfers.stage with
  | none => keep "file already closed"
  | some st =>
    if (st.offset : Int) ≠ m.size then invalidate ("size mismatch for " ++ m.name)
    else if digest.hash st.hasher ≠ m.hash then invalidate ("content changed: " ++ m.name)
    else do
      barrier
      fsyncStage
      barrier
      if !wins then pure ()
      else do
        update fun s => match s.file st.path with
          | none => .error ⟨false, "rename " ++ m.name⟩
          | some f => .ok ((), { s with
              files := s.files.erase st.path, stage := none
              published := (m, f.content) :: s.published })
        onlyIf st.recorded forgetRecord

def transfer (m : FileMeta) (input : TransferInput) : Transfer Unit := do
  match input.reply with
  | none => keep ("download " ++ m.name)
  | some reply => do
    acceptStatus m reply.status
    if reply.etag ≠ "" ∧ reply.etag ≠ quoted m.hash then
      invalidate ("content changed: " ++ m.name ++ " is now " ++ reply.etag)
    else do
      let resumed ← look fun s => s.stage.isSome
      onlyIf (!resumed) (newStage limits m input.path)
      let offset ← look fun s => (s.stage.map Stage.offset).getD 0
      receiveBody digest limits (limitReader (m.size - offset + 1).toNat reply.body)
      publish digest m input.wins

def downloadStaged (m : FileMeta) (input : TransferInput) : Transfer Unit := do
  barrier
  if m.size < 0 ∨ m.size = Int64.maxValue.toInt ∨ !isSHA256Hex m.hash then
    keep ("invalid metadata for " ++ m.name)
  else do
    barrier
    resumableStage digest limits m input.cancelled
    let result ← attempt (transfer digest limits m input)
    let invalid := match result with
      | .error (.raised e) => e.invalid
      | _ => false
    let _ ← attempt (Stage.release digest invalid)
    match result with
    | .ok () => pure ()
    | .error e => rethrow e

def loadPartials (queued expired : Bool) : Transfer Unit := do
  forgetPartial
  match ← look Transfers.record with
  | none => pure ()
  | some record =>
    let kept ← look fun s => partialPath record.path && queued && !expired &&
      (s.file record.path).any fun f => record.verified ≤ f.content.length
    if kept then alter fun s => { s with partials := some record }
    else do
      let _ ← attempt (alter fun s => { s with record := none })
      pure ()

end BirakFormal
