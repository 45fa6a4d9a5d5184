import BirakFormal.Gateway.Keys

/-!
# Conditional writes

A write with `If-None-Match` or `If-Match` is decided in the section that publishes it: the
storage is validated, the destination is looked at, and only then does the commit begin. The
journal of an interrupted replacement is replayed by the first validation; what a replay does
to the volume is left open here.
-/

namespace BirakFormal

open FileTrees Interruption Prog

def isSpace (c : Char) : Bool :=
  c.toNat ∈ [9, 10, 11, 12, 13, 32, 0x85, 0xa0, 0x1680, 0x2028, 0x2029, 0x202f, 0x205f, 0x3000] ||
    (0x2000 ≤ c.toNat && c.toNat ≤ 0x200a)

def trimBoth (p : Char → Bool) (l : List Char) : List Char :=
  ((l.dropWhile p).reverse.dropWhile p).reverse

def trimSpace (l : List Char) : List Char := trimBoth isSpace l

def normalizeETag (etag : List Char) : List Char :=
  let e := trimSpace etag
  trimBoth (· = '"') (if ['W', '/'].isPrefixOf e then e.drop 2 else e)

def hexText (n : Int) : List Char := (if n < 0 then ['-'] else []) ++ Nat.toDigits 16 n.natAbs

def etagFor (o : FileObj) : List Char :=
  '"' :: hexText o.bytes.length ++ '-' :: hexText o.modTime.toInt ++ ['"']

def etagListMatches (list etag : List Char) : Bool :=
  (list.splitOn ',').any fun candidate =>
    let candidate := trimSpace candidate
    candidate = ['*'] || (candidate ≠ [] && normalizeETag candidate = normalizeETag etag)

def errPreconditionFailed : ObjectFailure :=
  ⟨412, "PreconditionFailed", "At least one of the pre-conditions you specified did not hold"⟩

def errObjectIsDirectory : ObjectFailure :=
  ⟨409, "ObjectExistsAsDirectory",
    "This key is a prefix (folder) of existing objects. An object cannot have the name of a folder."⟩

structure WriteConditions where
  ifNoneMatch : Bool
  ifMatch : List Char
  deriving DecidableEq, Repr

def parseWriteConditions (noneMatch ifMatch : List Char) : Except ObjectFailure WriteConditions :=
  let raw := trimSpace noneMatch
  if raw ≠ [] ∧ raw ≠ ['*'] then
    .error ⟨501, "NotImplemented", "If-None-Match on a write supports only the value *."⟩
  else .ok ⟨raw = ['*'], trimSpace ifMatch⟩

def regularFile : Option (Entry Leaf) → Option FileObj
  | some (.leaf (.file o)) => some o
  | _ => none

/-- What a write asks of its destination, as `Stat` describes it. -/
abbrev Precondition := Option (Entry Leaf) → Except ObjectFailure Unit

namespace WriteConditions

def empty (c : WriteConditions) : Bool := !c.ifNoneMatch && c.ifMatch = []

def check (c : WriteConditions) (current : Option (Entry Leaf)) : Except ObjectFailure Unit :=
  let object := regularFile current
  if c.ifNoneMatch && object.isSome then .error errPreconditionFailed
  else if c.ifMatch = [] then .ok ()
  else match object with
    | none => .error errNoSuchKey
    | some o => if etagListMatches c.ifMatch (etagFor o) then .ok () else .error errPreconditionFailed

def precondition (c : WriteConditions) : Option Precondition := if c.empty then none else some c.check

end WriteConditions

structure Renaming where
  name : String
  replaced : Option (Entry Leaf)
  published : FileObj
  deriving DecidableEq, Repr

/-- A node with the journal of an interrupted replacement. No call reads `renames`, which records the
renames of the writes. -/
@[ext]
structure Site (J : Type) where
  node : Node
  journal : Option J := none
  renames : List Renaming := []

namespace Site

variable {J : Type}

def nodePart : Part (Site J) Node where
  get s := s.node
  set s n := { s with node := n }
  get_set _ _ := rfl
  set_set _ _ _ := rfl
  set_get _ := rfl

def entry (s : Site J) (name : String) : Option (Entry Leaf) := s.node.disk.lookup name

end Site

abbrev SiteProg (J : Type) := Prog Err (Site J)

def onNode {J α : Type} (p : Sys α) : SiteProg J α := p.zoom Site.nodePart

namespace Site

variable {J : Type} (cfg : Config) (replay : J → Sys Unit)

def recoverLocked : SiteProg J Unit := do
  match ← look fun s => s.journal with
  | none => pure ()
  | some j => do
    onNode (replay j)
    alter fun s => { s with journal := none }

def validateLocked : SiteProg J Unit := do
  onNode fsync
  recoverLocked replay
  if ← look fun s => s.node.recovered then pure () else onNode (recoverIntents cfg)

/-- `commitPublishedLocked`, with the replay of journals. -/
def commitLocked (sources names : List String) (published : String → Option Hashed) (fn : SiteProg J Unit) :
    SiteProg J Unit := do
  validateLocked cfg replay
  onNode (onlyIf (!sources.isEmpty) (checkSourcesLocked cfg sources))
  onNode (beginCommitLocked cfg names)
  match ← attempt fn with
  | .ok () => onNode (finishCommitLocked cfg names published)
  | .error e => do
    validateLocked cfg replay
    let _ ← attempt (onNode (finishCommitLocked cfg names published))
    rethrow e

def renameScratch (name : String) (o : FileObj) : SiteProg J Unit :=
  update fun s => (s.node.place name o).map fun n =>
    ((), { s with node := n, renames := s.renames ++ [⟨name, s.entry name, o⟩] })

def publishScratch (name : String) (o : FileObj) : SiteProg J Unit := do
  if ← look fun s => decide (name ∈ s.node.writers) then raise .busy
  else do
    renameScratch name o
    onNode fsync

def publishLocked (name : String) (o : FileObj) : SiteProg J Unit :=
  commitLocked cfg replay [] [name] (fun n => if n = name then some ⟨o.key, cfg.digest.hash o.bytes⟩ else none)
    (publishScratch name o)

def publish (name : String) (o : FileObj) : SiteProg J Unit := do
  onNode fsync
  publishLocked cfg replay name o

/-- `PublishIf`, of a scratch file that is flushed and hashed before the section. A refusal is a
reply; it is no failure of a call. -/
def publishIf (precondition : Option Precondition) (name : String) (o : FileObj) :
    SiteProg J (Except ObjectFailure ObjectKey) := do
  onNode fsync
  match precondition with
  | none => do
    publishLocked cfg replay name o
    pure (.ok o.key)
  | some judge => do
    validateLocked cfg replay
    match judge (← look fun s => s.entry name) with
    | .error failure => pure (.error failure)
    | .ok () => do
      publishLocked cfg replay name o
      pure (.ok o.key)

def refuseEarly (conditions : WriteConditions) (name : String) : SiteProg J (Except ObjectFailure Unit) := do
  match ← attempt (look fun s => s.entry name) with
  | .error _ => pure (.ok ())
  | .ok (some .dir) => pure (.error errObjectIsDirectory)
  | .ok current => pure (conditions.check current)

end Site

end BirakFormal
