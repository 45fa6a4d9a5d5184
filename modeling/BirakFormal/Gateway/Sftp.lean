import BirakFormal.Gateway.Requests

/-!
# An SFTP session

Packets of one session, from the bytes of their payload on: OPEN, WRITE, CLOSE, SETSTAT and
FSETSTAT. A writable handle stages a whole new generation of its file, which CLOSE publishes;
SETSTAT changes the published file in place. Offsets and sizes are 64-bit words, read as signed
ones where the source converts them.
-/

namespace BirakFormal

open Interruption Prog

def unmarshalUint32 : Bytes → Option (Nat × Bytes)
  | a :: b :: c :: d :: rest => some (((a.toNat * 256 + b.toNat) * 256 + c.toNat) * 256 + d.toNat, rest)
  | _ => none

def unmarshalUint64 (b : Bytes) : Option (UInt64 × Bytes) :=
  match unmarshalUint32 b with
  | none => none
  | some (high, rest) =>
    match unmarshalUint32 rest with
    | none => none
    | some (low, rest) => some (UInt64.ofNat (high * 2 ^ 32 + low), rest)

def unmarshalString (b : Bytes) : Option (Bytes × Bytes) :=
  match unmarshalUint32 b with
  | none => none
  | some (length, rest) =>
    if rest.length % 2 ^ 32 < length then none else some (rest.take length, rest.drop length)

structure FileAttrs where
  size : Option UInt64 := none
  perm : Option Nat := none
  times : Option (Nat × Nat) := none
  deriving DecidableEq, Repr

def field {α : Type} (flag : Bool) (parse : Bytes → Option (α × Bytes)) (b : Bytes) :
    Option (Option α × Bytes) :=
  if flag then (parse b).map fun r => (some r.1, r.2) else some (none, b)

def skip (n : Nat) (b : Bytes) : Option (Unit × Bytes) := if b.length < n then none else some ((), b.drop n)

def unmarshalTimes (b : Bytes) : Option ((Nat × Nat) × Bytes) :=
  match unmarshalUint32 b with
  | none => none
  | some (atime, rest) => (unmarshalUint32 rest).map fun r => ((atime, r.1), r.2)

def parseAttrs (b : Bytes) : Option (FileAttrs × Bytes) := do
  let (flags, rest) ← unmarshalUint32 b
  let (size, rest) ← field (flags.testBit 0) unmarshalUint64 rest
  let (_, rest) ← field (flags.testBit 1) (skip 8) rest
  let (perm, rest) ← field (flags.testBit 2) unmarshalUint32 rest
  let (times, rest) ← field (flags.testBit 3) unmarshalTimes rest
  pure (⟨size, perm, times⟩, rest)

def unmarshalAttrs (b : Bytes) : Option Bytes := do
  let (flags, rest) ← unmarshalUint32 b
  let (_, rest) ← field (flags.testBit 0) (skip 8) rest
  let (_, rest) ← field (flags.testBit 1) (skip 8) rest
  let (_, rest) ← field (flags.testBit 2) (skip 4) rest
  let (_, rest) ← field (flags.testBit 3) (skip 8) rest
  pure rest

/-- A staged generation with what it was opened on, or a file that is only read. -/
inductive OpenFile where
  | writer (original : Option Object) (staged : Object)
  | reader (inode : Nat)
  deriving DecidableEq, Repr

/-- `dest` is where the path led when it was opened; a directory has no file. -/
structure HandleEntry where
  path : Path
  dest : Path
  file : Option OpenFile
  appendMode : Bool := false
  deriving DecidableEq, Repr

structure SftpSession where
  handles : List (Bytes × HandleEntry)
  vol : Layered

namespace SftpSession

def find (s : SftpSession) (handle : Bytes) : Option HandleEntry :=
  (s.handles.find? (·.1 = handle)).map Prod.snd

def put (s : SftpSession) (handle : Bytes) (e : HandleEntry) : SftpSession :=
  { s with handles := (handle, e) :: s.handles.filter (·.1 ≠ handle) }

def drop (s : SftpSession) (handle : Bytes) : SftpSession :=
  { s with handles := s.handles.filter (·.1 ≠ handle) }

def volPart : Part SftpSession Layered where
  get s := s.vol
  set s w := { s with vol := w }
  get_set _ _ := rfl
  set_set _ _ _ := rfl
  set_get _ := rfl

end SftpSession

abbrev SftpProg := Prog Err SftpSession

def onVol {α : Type} (p : LayeredProg α) : SftpProg α := p.zoom SftpSession.volPart

inductive SftpReply where
  | silent
  | status (id code : Nat) (message : String)
  | handle (id : Nat) (handle : Bytes)
  deriving DecidableEq, Repr

/-- `resolvePath` is what `SafePath` makes of a path and `canonical` resolves aliases;
`fileLimit` is the largest size of a file. -/
structure SftpConfig where
  digest : Digest
  maxUploadBytes : Int64
  resolvePath : Bytes → Option Path
  canonical : Layered → Path → Path
  fileLimit : Nat
  limit_lt : fileLimit < 2 ^ 63

def maxHandlesPerSession : Nat := 1024

def badMessage (id : Nat) : SftpReply := .status id 5 "bad message"

def failure (id : Nat) : SftpReply := .status id 4 "operation failed"

def Object.size (o : Object) : Nat :=
  match o.body with
  | .file bytes _ => bytes.length
  | _ => 0

section
variable (cfg : SftpConfig)

structure OpenMode where
  create : Bool
  exclusive : Bool
  truncate : Bool
  append : Bool
  writable : Bool

def openMode (pflags : Nat) : OpenMode where
  create := pflags.testBit 3
  exclusive := pflags.testBit 5
  truncate := pflags.testBit 4
  append := pflags.testBit 2
  writable := pflags.testBit 1 || pflags.testBit 3 || pflags.testBit 4 || pflags.testBit 2

def notExist : Err := .failed "file does not exist"

/-- A staged generation that begins as the current one, unless that is cut off. -/
def stageFrom (mode : OpenMode) (o : Object) (bytes : Bytes) (mtime : Int64) :
    LayeredProg (Option Object × Object) := do
  barrier
  onlyIf (!mode.truncate) barrier
  let inode ← Layered.createTemp
  pure (some o, { inode, perm := o.perm, body := .file (if mode.truncate then [] else bytes) mtime })

def openWriter (path dest : Path) (mode : OpenMode) : LayeredProg (Option Object × Object) := do
  Layered.locked cfg.digest (check fun w => if w.busy path then .error .busy else .ok ())
  match ← look fun w => w.disk.tree.lookup dest with
  | none =>
    if mode.create then do
      let inode ← Layered.createTemp
      pure (none, { inode, perm := 0o644, body := .file [] 0 })
    else raise notExist
  | some o =>
    match o.body with
    | .file bytes mtime =>
      if mode.exclusive && mode.create then raise (.failed "file already exists")
      else stageFrom mode o bytes mtime
    | _ => raise (.failed ("not a regular file: " ++ path.text))

def openReader (path dest : Path) : LayeredProg Nat := do
  barrier
  match ← look fun w => w.disk.tree.lookup dest with
  | none => raise notExist
  | some o =>
    match o.body with
    | .file _ _ => pure o.inode
    | _ => raise (.failed ("not a regular file: " ++ path.text))

def openFailure (id : Nat) : Failure Err → SftpReply
  | .raised (.failed "file does not exist") => .status id 2 "no such file"
  | _ => failure id

def addHandle (id : Nat) (fresh : Bytes) (e : HandleEntry) : SftpProg SftpReply := do
  let full ← look fun s => decide (maxHandlesPerSession ≤ s.handles.length)
  if full then pure (.status id 4 "too many open handles")
  else do
    alter fun s => s.put fresh e
    pure (.handle id fresh)

def openFile (id : Nat) (fresh : Bytes) (path : Path) (mode : OpenMode) : SftpProg SftpReply := do
  let dest ← look fun s => cfg.canonical s.vol path
  if mode.writable then do
    match ← attempt (onVol (openWriter cfg path dest mode)) with
    | .ok (original, staged) => addHandle id fresh ⟨path, dest, some (.writer original staged), mode.append⟩
    | .error e => pure (openFailure id e)
  else do
    match ← attempt (onVol (openReader path dest)) with
    | .ok inode => addHandle id fresh ⟨path, dest, some (.reader inode), false⟩
    | .error e => pure (openFailure id e)

def openPath (id : Nat) (fresh : Bytes) (path : Path) (mode : OpenMode) : SftpProg SftpReply := do
  if mode.create then do
    match ← attempt (onVol (Layered.mkdirSection cfg.digest path.dropLast true)) with
    | .error _ => pure (.status id 4 "mkdir failed")
    | .ok () => openFile cfg id fresh path mode
  else openFile cfg id fresh path mode

def handleOpen (payload fresh : Bytes) : SftpProg SftpReply :=
  match unmarshalUint32 payload with
  | none => pure .silent
  | some (id, rest) =>
    match unmarshalString rest with
    | none => pure (badMessage id)
    | some (path, rest) =>
      match unmarshalUint32 rest with
      | none => pure (badMessage id)
      | some (pflags, rest) =>
        match unmarshalAttrs rest with
        | none => pure (badMessage id)
        | some _ =>
          match cfg.resolvePath path with
          | none => pure (.status id 3 "access denied")
          | some full => openPath cfg id fresh full (openMode pflags)

def overwrite (bytes : Bytes) (pos : Nat) (data : Bytes) : Bytes :=
  if data = [] then bytes
  else (bytes ++ List.replicate (pos - bytes.length) 0).take pos ++ data ++ bytes.drop (pos + data.length)

/-- `WriteAt` on a staged file: it fails outside the range of a file, and where only the first
`written` bytes reach the file. -/
def writeStaged (o : Object) (pos : Int64) (data : Bytes) (written : Nat) : Except Err Unit × Object :=
  match o.body with
  | .file bytes mtime =>
    if pos < 0 ∨ data ≠ [] ∧ cfg.fileLimit < pos.toInt.toNat + data.length then
      (.error (.failed "write: file too large"), o)
    else
      let o' := { o with body := .file (overwrite bytes pos.toInt.toNat (data.take written)) mtime }
      if written < data.length then (.error (.failed "write: no space left on device"), o') else (.ok (), o')
  | _ => (.error (.failed "write: bad file descriptor"), o)

def writeHandle (handle : Bytes) (pos : Int64) (data : Bytes) (written : Nat) : SftpProg Unit :=
  perform fun s => match s.find handle with
    | some { path, dest, file := some (.writer original staged), appendMode } =>
      let r := writeStaged cfg staged pos data written
      (r.1, s.put handle ⟨path, dest, some (.writer original r.2), appendMode⟩)
    | _ => (.error (.failed "permission denied"), s)

def writeOffset (e : HandleEntry) (offset : UInt64) : UInt64 :=
  match e.appendMode, e.file with
  | true, some (.writer _ staged) => UInt64.ofNat staged.size
  | _, _ => offset

def exceedsCap (offset : UInt64) (data : Bytes) : Bool :=
  0 < cfg.maxUploadBytes && cfg.maxUploadBytes < offset.toInt64 + Int64.ofNat data.length

def writeTo (id : Nat) (handle : Bytes) (offset : UInt64) (data : Bytes) (written : Nat) :
    SftpProg SftpReply := do
  match ← look fun s => (s.find handle).filter fun e => e.file.isSome with
  | none => pure (.status id 4 "invalid handle")
  | some e =>
    let offset := writeOffset e offset
    if exceedsCap cfg offset data then pure (.status id 4 "upload exceeds maximum size")
    else do
      match ← attempt (do
          onVol (Layered.recoverJournal cfg.digest)
          writeHandle cfg handle offset.toInt64 data written) with
      | .ok () => pure (.status id 0 "")
      | .error _ => pure (.status id 4 "write error")

def handleWrite (payload : Bytes) (written : Nat) : SftpProg SftpReply :=
  match unmarshalUint32 payload with
  | none => pure .silent
  | some (id, rest) =>
    match unmarshalString rest with
    | none => pure (badMessage id)
    | some (handle, rest) =>
      match unmarshalUint64 rest with
      | none => pure (badMessage id)
      | some (offset, rest) =>
        match unmarshalString rest with
        | none => pure (badMessage id)
        | some (data, _) => writeTo cfg id handle offset data written

def closeFile (e : HandleEntry) : LayeredProg Unit :=
  match e.file with
  | some (.writer original staged) => do
    Layered.syncFile staged.inode (staged.content.getD [])
    Layered.commit cfg.digest (.closeWriter original staged e.dest e.path)
  | _ => pure ()

def closeHandle (id : Nat) (handle : Bytes) : SftpProg SftpReply := do
  match ← look fun s => s.find handle with
  | none => pure (.status id 4 "invalid handle")
  | some e => do
    alter fun s => s.drop handle
    match ← attempt (onVol (closeFile cfg e)) with
    | .ok () => pure (.status id 0 "")
    | .error _ => pure (failure id)

def handleClose (payload : Bytes) : SftpProg SftpReply :=
  match unmarshalUint32 payload with
  | none => pure .silent
  | some (id, rest) =>
    match unmarshalString rest with
    | none => pure (badMessage id)
    | some (handle, _) => closeHandle cfg id handle

/-- The argument of `Truncate`, which refuses a negative one. -/
def truncateSize (size : UInt64) : Option Nat := if size.toInt64 < 0 then none else some size.toNat

def FileAttrs.toAttrs (a : FileAttrs) : Option Layered.Attrs :=
  match a.size with
  | none => some { perm := a.perm, mtime := a.times.map fun t => Int64.ofNat t.2 }
  | some size =>
    match truncateSize size with
    | none => none
    | some n => some { size := some n, perm := a.perm, mtime := a.times.map fun t => Int64.ofNat t.2 }

def refusedSize : Err := .failed "truncate: invalid argument"

def setstatPath (path : Path) (a : FileAttrs) : LayeredProg Unit := do
  let dest ← look fun w => cfg.canonical w path
  match a.toAttrs with
  | some attrs => Layered.commit cfg.digest (.setstat dest attrs)
  | none => Layered.locked cfg.digest (raise refusedSize)

def setstatReply (id : Nat) (r : Except (Failure Err) Unit) : SftpReply :=
  match r with
  | .ok () => .status id 0 ""
  | .error _ => failure id

def handleSetstat (payload : Bytes) : SftpProg SftpReply :=
  match unmarshalUint32 payload with
  | none => pure (badMessage 0)
  | some (id, rest) =>
    match unmarshalString rest with
    | none => pure (badMessage id)
    | some (path, rest) =>
      match parseAttrs rest with
      | none => pure (badMessage id)
      | some (attrs, _) =>
        match cfg.resolvePath path with
        | none => pure (.status id 3 "access denied")
        | some full => do
          let r ← attempt (onVol (setstatPath cfg full attrs))
          pure (setstatReply id r)

def Object.truncate (n : Nat) (o : Object) : Object :=
  match o.body with
  | .file bytes mtime => { o with body := .file (Layered.resize bytes n) mtime }
  | _ => o

def setStaged (handle : Bytes) (f : Object → Object) : SftpProg Unit :=
  update fun s => match s.find handle with
    | some { path, dest, file := some (.writer original staged), appendMode } =>
      .ok ((), s.put handle ⟨path, dest, some (.writer original (f staged)), appendMode⟩)
    | _ => .error (.failed "file already closed")

def applyStaged (handle : Bytes) (a : Layered.Attrs) : SftpProg Unit := do
  (a.size.elim (pure ()) fun n => setStaged handle (Object.truncate n) : SftpProg Unit)
  (a.perm.elim (pure ()) fun perm => setStaged handle (Layered.setPerm perm) : SftpProg Unit)
  (a.mtime.elim (pure ()) fun mtime => setStaged handle (Layered.setTime mtime) : SftpProg Unit)

def fsetstatHandle (handle : Bytes) (e : HandleEntry) (a : FileAttrs) : SftpProg Unit :=
  match e.file, a.toAttrs with
  | some (.writer _ _), some attrs => do
    onVol (Layered.recoverJournal cfg.digest)
    applyStaged handle attrs
  | some (.reader inode), some attrs => onVol (Layered.commit cfg.digest (.fsetstat e.dest inode attrs))
  | _, _ => onVol (Layered.locked cfg.digest (raise refusedSize))

def fsetstatOn (id : Nat) (handle : Bytes) (a : FileAttrs) : SftpProg SftpReply := do
  match ← look fun s => (s.find handle).filter fun e => e.file.isSome with
  | none => pure (.status id 4 "invalid handle")
  | some e => do
    let r ← attempt (fsetstatHandle cfg handle e a)
    pure (setstatReply id r)

def handleFsetstat (payload : Bytes) : SftpProg SftpReply :=
  match unmarshalUint32 payload with
  | none => pure (badMessage 0)
  | some (id, rest) =>
    match unmarshalString rest with
    | none => pure (badMessage id)
    | some (handle, rest) =>
      match parseAttrs rest with
      | none => pure (badMessage id)
      | some (attrs, _) => fsetstatOn cfg id handle attrs

end

/-- A packet with its payload, the name drawn for a new handle, and how much of a write reaches
the disk. -/
inductive SftpPacket where
  | open (payload fresh : Bytes)
  | write (payload : Bytes) (written : Nat)
  | close (payload : Bytes)
  | setstat (payload : Bytes)
  | fsetstat (payload : Bytes)

def handlePacket (cfg : SftpConfig) : SftpPacket → SftpProg SftpReply
  | .open payload fresh => handleOpen cfg payload fresh
  | .write payload written => handleWrite cfg payload written
  | .close payload => handleClose cfg payload
  | .setstat payload => handleSetstat cfg payload
  | .fsetstat payload => handleFsetstat cfg payload

end BirakFormal
