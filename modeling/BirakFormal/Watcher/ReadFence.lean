import BirakFormal.Watcher.Inspect

/-!
# Readers and the quarantine fence

Reads take no commit lock. `OpenReader` opens the file, registers the reader and only then
asks whether the object is fenced; `quarantineFor` fences the object and only then revokes
the readers it finds registered. Each of the two is a sequence of sections that nothing runs
into, and the sections of any number of calls interleave freely. A call that fails before it
holds an open file touches nothing the others see, so it is not recorded.
-/

namespace BirakFormal

structure FileInfo where
  key : ObjectKey
  regular : Bool := true
  deriving DecidableEq, Repr

def FileInfo.sameFile (a b : FileInfo) : Bool := a.key.ino = b.key.ino

inductive ReadErr where
  | unreadable
  | closed
  | failed (text : String)
  deriving DecidableEq, Repr

structure Reader where
  info : FileInfo
  err : Option ReadErr := none
  deriving DecidableEq, Repr

def readTurn : Nat := 64 * 1024

/-- `Read` into a buffer of `len` bytes; `file` is the answer of the descriptor. -/
def Reader.read (r : Reader) (file : Nat → Bytes × Option ReadErr) (len : Nat) :
    Bytes × Option ReadErr :=
  match r.err with
  | some e => ([], some e)
  | none => file (min len readTurn)

def Reader.seek (r : Reader) (file : Int → Int → Int × Option ReadErr) (off whence : Int) :
    Int × Option ReadErr :=
  match r.err with
  | some e => (0, some e)
  | none => file off whence

/-- The loop of `ReadAt`: each turn takes the lock of the reader anew and finds it in the next
of the given states. Nothing is returned while turns are missing. -/
def readAtLoop (file : Nat → Nat → Bytes × Option ReadErr) (off len : Nat) (got : Bytes) :
    List Reader → Option (Bytes × Option ReadErr)
  | [] => if len ≤ got.length then some (got, none) else none
  | r :: turns =>
    if len ≤ got.length then some (got, none)
    else match r.err with
      | some e => some (got, some e)
      | none =>
        let answer := file (off + got.length) (min (len - got.length) readTurn)
        match answer.2 with
        | some e => some (got ++ answer.1, some e)
        | none => readAtLoop file off len (got ++ answer.1) turns

def Reader.readAt (r : Reader) (later : List Reader) (file : Nat → Nat → Bytes × Option ReadErr)
    (off len : Nat) : Option (Bytes × Option ReadErr) :=
  readAtLoop file off len [] (r :: later)

variable {e : ReadErr}

theorem Reader.read_of_err {r : Reader} (h : r.err = some e)
    (file : Nat → Bytes × Option ReadErr) (len : Nat) : r.read file len = ([], some e) := by
  simp only [Reader.read, h]

theorem Reader.seek_of_err {r : Reader} (h : r.err = some e)
    (file : Int → Int → Int × Option ReadErr) (off whence : Int) :
    r.seek file off whence = (0, some e) := by
  simp only [Reader.seek, h]

theorem Reader.readAt_of_err {r : Reader} (h : r.err = some e) (later : List Reader)
    (file : Nat → Nat → Bytes × Option ReadErr) (off : Nat) {len : Nat} (hlen : 0 < len) :
    r.readAt later file off len = some ([], some e) := by
  have hshort : ¬ len ≤ ([] : Bytes).length := Nat.not_le.mpr hlen
  rw [Reader.readAt, readAtLoop, if_neg hshort]
  simp only [h]

/-- How long the index trusts the `Stat` results it was built from, in nanoseconds. -/
def quarantineIndexTTL : Nat := 1000000000

structure QuarantineSnapshot where
  gen : Nat
  built : Nat
  paths : List String := []
  files : List FileInfo := []
  deriving DecidableEq, Repr

def QuarantineSnapshot.current (gen now : Nat) (q : QuarantineSnapshot) : Bool :=
  gen ≤ q.gen && now - q.built < quarantineIndexTTL

def QuarantineSnapshot.fences (q : QuarantineSnapshot) (path : String) (info : FileInfo) : Bool :=
  path ∈ q.paths || q.files.any fun damaged => damaged.sameFile info

/-- One turn of the loop of `rebuild`: the path of a name and what it leads to. -/
def QuarantineSnapshot.note (q : QuarantineSnapshot) (damaged : String) (info : Option FileInfo) :
    QuarantineSnapshot :=
  { q with paths := damaged :: q.paths, files := q.files ++ info.toList }

/-- Where a call of `OpenReader` stands, and afterwards its reader. -/
inductive OpenPhase where
  | opened
  /-- In the registry; `CheckRead` is next. -/
  | registered
  /-- The object is not recorded as damaged. -/
  | unfenced
  | counted (gen : Nat)
  | stale (gen : Nat)
  /-- `rebuild`, with the index locked. -/
  | locked (gen : Nat)
  | listing
  | stating (q : QuarantineSnapshot) (names : List String)
  | matching (q : QuarantineSnapshot)
  | refused (e : ReadErr)
  | leaving (e : ReadErr)
  | failed (e : ReadErr)
  /-- The reader is in the caller's hands. -/
  | returned
  | closing
  | closed
  deriving DecidableEq, Repr

structure OpenCall where
  path : String
  reader : Reader
  phase : OpenPhase
  deriving DecidableEq, Repr

inductive FenceErr where
  | stat
  | key
  | persist
  | integrity
  deriving DecidableEq, Repr

inductive FencePhase where
  | started
  | statted (info : FileInfo)
  /-- `SetQuarantined` has fenced reads; its transaction is next. -/
  | fenced (info : FileInfo)
  | collecting (info : FileInfo) (e : FenceErr)
  | revoking (targets : List Nat) (e : FenceErr)
  | finished (e : FenceErr)
  deriving DecidableEq, Repr

structure FenceCall where
  name : String
  phase : FencePhase
  deriving DecidableEq, Repr

/-- What readers and fences share: where paths lead, the clock, the integrity state of the
store, the index over it, the registry of readers, and the calls in progress. -/
structure Reading where
  disk : String → Option FileInfo
  now : Nat := 0
  quarantined : List String := []
  damagedObjects : List ObjectKey := []
  integrityGen : Nat := 0
  snapshot : Option QuarantineSnapshot := none
  rebuilding : Option Nat := none
  readers : List Nat := []
  calls : Nat → Option OpenCall := fun _ => none
  fencers : Nat → Option FenceCall := fun _ => none

namespace Reading

def ofNode (s : Node) (gen : Nat) (disk : String → Option FileInfo) : Reading where
  disk := disk
  quarantined := s.quarantined
  damagedObjects := s.damagedObjects
  integrityGen := gen

def setQuarantined (s : Reading) (name : String) (key : ObjectKey) : Reading :=
  { s with
    quarantined := insertNew name s.quarantined
    damagedObjects := insertNew key s.damagedObjects
    integrityGen := s.integrityGen + 1 }

def clearQuarantine (s : Reading) (name : String) (verified : Option ObjectKey) : Reading :=
  { s with
    quarantined := s.quarantined.filter (· ≠ name)
    damagedObjects := s.damagedObjects.filter fun k => verified ≠ some k
    integrityGen := s.integrityGen + 1 }

theorem ofNode_fence (s : Node) (gen : Nat) (disk : String → Option FileInfo) (name : String)
    (key : ObjectKey) : ofNode (s.fence name key) (gen + 1) disk =
      (ofNode s gen disk).setQuarantined name key := rfl

theorem ofNode_unfence (s : Node) (gen : Nat) (disk : String → Option FileInfo) (name : String)
    (verified : Option ObjectKey) : ofNode (s.unfence name verified) (gen + 1) disk =
      (ofNode s gen disk).clearQuarantine name verified := rfl

def put (s : Reading) (i : Nat) (c : OpenCall) : Reading :=
  { s with calls := Function.update s.calls i (some c) }

def putFencer (s : Reading) (f : Nat) (c : FenceCall) : Reading :=
  { s with fencers := Function.update s.fencers f (some c) }

def unregister (s : Reading) (i : Nat) : Reading := { s with readers := s.readers.filter (· ≠ i) }

def targets (s : Reading) (info : FileInfo) : List Nat :=
  s.readers.filter fun i => (s.calls i).any fun c => c.reader.info.sameFile info

end Reading

def Reader.revoke (r : Reader) : Reader :=
  { r with err := some (r.err.getD .unreadable) }

def loaded (s : Reading) (gen : Nat) (otherwise : OpenPhase) : OpenPhase :=
  match s.snapshot.filter (QuarantineSnapshot.current gen s.now) with
  | some q => .matching q
  | none => otherwise

def pathOf (dir name : String) : String := dir ++ "/" ++ name

inductive ReadStep (dir : String) (s : Reading) : Reading → Prop where
  /-- `OpenReader`: the file is open and its `Stat` is that of a regular file. -/
  | openFile (i : Nat) (path : String) (info : FileInfo) (hi : s.calls i = none)
      (hdisk : s.disk path = some info) (hregular : info.regular) :
      ReadStep dir s (s.put i ⟨path, ⟨info, none⟩, .opened⟩)
  | register (i : Nat) (c : OpenCall) (hi : s.calls i = some c) (hc : c.phase = .opened) :
      ReadStep dir s { s.put i { c with phase := .registered } with readers := i :: s.readers }
  /-- `GenerationKey` fails. -/
  | noKey (i : Nat) (c : OpenCall) (text : String) (hi : s.calls i = some c)
      (hc : c.phase = .registered) :
      ReadStep dir s (s.put i { c with phase := .refused (.failed text) })
  | isDamagedObject (i : Nat) (c : OpenCall) (hi : s.calls i = some c) (hc : c.phase = .registered) :
      ReadStep dir s (s.put i { c with
        phase := if c.reader.info.key ∈ s.damagedObjects then .refused .unreadable else .unfenced })
  | quarantineGeneration (i : Nat) (c : OpenCall) (hi : s.calls i = some c)
      (hc : c.phase = .unfenced) :
      ReadStep dir s (s.put i { c with
        phase := if s.quarantined.length = 0 then .returned else .counted s.integrityGen })
  | load (i : Nat) (c : OpenCall) (gen : Nat) (hi : s.calls i = some c) (hc : c.phase = .counted gen) :
      ReadStep dir s (s.put i { c with phase := loaded s gen (.stale gen) })
  | lockIndex (i : Nat) (c : OpenCall) (gen : Nat) (hi : s.calls i = some c)
      (hc : c.phase = .stale gen) (hfree : s.rebuilding = none) :
      ReadStep dir s { s.put i { c with phase := .locked gen } with rebuilding := some i }
  /-- `rebuild` looks again, now that it holds the index. -/
  | reload (i : Nat) (c : OpenCall) (gen : Nat) (hi : s.calls i = some c) (hc : c.phase = .locked gen) :
      ReadStep dir s { s.put i { c with phase := loaded s gen .listing } with
        rebuilding := if loaded s gen .listing = .listing then some i else none }
  | listNames (i : Nat) (c : OpenCall) (names : List String) (hi : s.calls i = some c)
      (hc : c.phase = .listing) (hnames : names.Perm s.quarantined) :
      ReadStep dir s (s.put i { c with
        phase := .stating { gen := s.integrityGen, built := s.now } names })
  | statName (i : Nat) (c : OpenCall) (q : QuarantineSnapshot) (name : String) (names : List String)
      (hi : s.calls i = some c) (hc : c.phase = .stating q (name :: names)) :
      ReadStep dir s (s.put i { c with
        phase := .stating (q.note (pathOf dir name) (s.disk (pathOf dir name))) names })
  | storeSnapshot (i : Nat) (c : OpenCall) (q : QuarantineSnapshot) (hi : s.calls i = some c)
      (hc : c.phase = .stating q []) :
      ReadStep dir s { s.put i { c with phase := .matching q } with
        snapshot := some q, rebuilding := none }
  | matchSnapshot (i : Nat) (c : OpenCall) (q : QuarantineSnapshot) (hi : s.calls i = some c)
      (hc : c.phase = .matching q) :
      ReadStep dir s (s.put i { c with
        phase := if q.fences c.path c.reader.info then .refused .unreadable else .returned })
  /-- `Close`, of a reader that was refused. -/
  | abandon (i : Nat) (c : OpenCall) (e : ReadErr) (hi : s.calls i = some c)
      (hc : c.phase = .refused e) :
      ReadStep dir s ((s.put i { c with phase := .leaving e }).unregister i)
  | fail (i : Nat) (c : OpenCall) (e : ReadErr) (hi : s.calls i = some c) (hc : c.phase = .leaving e) :
      ReadStep dir s (s.put i { c with
        reader := { c.reader with err := some .closed }, phase := .failed e })
  /-- `Close`, by the caller. -/
  | close (i : Nat) (c : OpenCall) (hi : s.calls i = some c) (hc : c.phase = .returned) :
      ReadStep dir s ((s.put i { c with phase := .closing }).unregister i)
  | closed (i : Nat) (c : OpenCall) (hi : s.calls i = some c) (hc : c.phase = .closing) :
      ReadStep dir s (s.put i { c with
        reader := { c.reader with err := some .closed }, phase := .closed })
  /-- `quarantineFor`. -/
  | quarantineFor (f : Nat) (name : String) (hf : s.fencers f = none) :
      ReadStep dir s (s.putFencer f ⟨name, .started⟩)
  | noStat (f : Nat) (name : String) (hf : s.fencers f = some ⟨name, .started⟩) :
      ReadStep dir s (s.putFencer f ⟨name, .finished .stat⟩)
  | stat (f : Nat) (name : String) (info : FileInfo) (hf : s.fencers f = some ⟨name, .started⟩)
      (hdisk : s.disk (pathOf dir name) = some info) :
      ReadStep dir s (s.putFencer f ⟨name, .statted info⟩)
  /-- `GenerationKey` fails: the readers are revoked all the same. -/
  | unidentified (f : Nat) (name : String) (info : FileInfo)
      (hf : s.fencers f = some ⟨name, .statted info⟩) :
      ReadStep dir s (s.putFencer f ⟨name, .collecting info .key⟩)
  | setQuarantined (f : Nat) (name : String) (info : FileInfo)
      (hf : s.fencers f = some ⟨name, .statted info⟩) :
      ReadStep dir s ((s.setQuarantined name info.key).putFencer f ⟨name, .fenced info⟩)
  | persist (f : Nat) (name : String) (info : FileInfo) (committed : Bool)
      (hf : s.fencers f = some ⟨name, .fenced info⟩) :
      ReadStep dir s (s.putFencer f
        ⟨name, .collecting info (if committed then .integrity else .persist)⟩)
  | collect (f : Nat) (name : String) (info : FileInfo) (e : FenceErr) (targets : List Nat)
      (hf : s.fencers f = some ⟨name, .collecting info e⟩) (htargets : targets.Perm (s.targets info)) :
      ReadStep dir s (s.putFencer f ⟨name, .revoking targets e⟩)
  | revoke (f : Nat) (name : String) (e : FenceErr) (i : Nat) (targets : List Nat) (c : OpenCall)
      (hf : s.fencers f = some ⟨name, .revoking (i :: targets) e⟩) (hi : s.calls i = some c) :
      ReadStep dir s ((s.put i { c with reader := c.reader.revoke }).putFencer f
        ⟨name, .revoking targets e⟩)
  | finish (f : Nat) (name : String) (e : FenceErr)
      (hf : s.fencers f = some ⟨name, .revoking [] e⟩) :
      ReadStep dir s (s.putFencer f ⟨name, .finished e⟩)
  /-- A fence is dropped. -/
  | clearQuarantine (name : String) (verified : Option ObjectKey) :
      ReadStep dir s (s.clearQuarantine name verified)
  /-- The volume changes. -/
  | external (disk : String → Option FileInfo) : ReadStep dir s { s with disk := disk }
  | tick (now : Nat) (h : s.now ≤ now) : ReadStep dir s { s with now := now }

end BirakFormal
