import BirakFormal.Shared.Interruption
import BirakFormal.Store.Forward
import BirakFormal.Store.Queue

/-!
# A node and its volume

A node is its index, the tree of its volume, the scratch files of transfers in progress,
and what the process keeps in memory. Every store or filesystem call of the program is
one call of an interruptible program over this state, so each of them is a point at which
the program may fail or stop. Symbolic links and hard links are not part of the volume.
-/

namespace BirakFormal

open FileTrees Tables Interruption

structure FileObj where
  bytes : Bytes
  modTime : Int64
  ino : Nat
  deriving DecidableEq, Repr

inductive Leaf where
  | file (o : FileObj)
  | special
  deriving DecidableEq, Repr

abbrev Volume := FileTree String Leaf

/-- What is fixed for the life of a node: the digest, the folding of name components, the
segments its ignore patterns match, the timestamps its volume keeps, its peers, the cap
of its repair queue, and the order in which the runtime ranges over a set of names. -/
structure Config where
  digest : Digest
  fold : String → String
  patterns : String → Bool
  granularity : Int64
  stamp : Int64 → Int64
  repairPeers : List String
  repairLimit : Int
  mapOrder : List String → List String
  mapOrder_perm : ∀ names, (mapOrder names).Perm names

structure Node where
  store : Store := {}
  disk : Volume := .empty
  scratch : Table (Prod.fst : Nat × FileObj → Nat) := .empty
  nextIno : Nat := 0
  quarantined : List String := []
  damagedObjects : List ObjectKey := []
  writers : List String := []
  recovered : Bool := false
  deferred : List String := []

abbrev Sys := Prog Err Node

/-- `absDuration`, with the overflow of `int64` negation. -/
def absDuration (d : Int64) : Int64 := if d < 0 then -d else d

/-- Whether a timestamp on disk is the recorded one as the volume can store it. -/
def sameModTime (cfg : Config) (onDisk recorded : Int64) : Bool :=
  if cfg.granularity ≤ 1 then onDisk - recorded = 0
  else absDuration (onDisk - recorded) < cfg.granularity

/-- `GenerationKey`. -/
def FileObj.key (o : FileObj) : ObjectKey := ⟨o.ino, o.bytes.length, o.modTime⟩

open Prog

def lstat (name : String) : Sys (Option (Entry Leaf)) := look fun s => s.disk.lookup name

def snapshot (cfg : Config) (name : String) : Sys (FileObj × String) :=
  check fun s => match s.disk.lookup name with
    | some (.leaf (.file o)) => .ok (o, cfg.digest.hash o.bytes)
    | some _ => .error (.failed ("not a regular file: " ++ name))
    | none => .error (.failed ("stat " ++ name ++ ": no such file or directory"))

def Node.place (s : Node) (name : String) (o : FileObj) : Except Err Node :=
  match s.disk.write name (.file o) with
  | some d => .ok { s with disk := d }
  | none => .error (.failed ("rename " ++ name))

def chtimes (cfg : Config) (name : String) (stamp : Int64) : Sys Unit :=
  update fun s => match s.disk.lookup name with
    | some (.leaf (.file o)) =>
      (s.place name { o with modTime := cfg.stamp stamp }).map fun t => ((), t)
    | _ => .error (.failed ("chtimes " ++ name ++ ": no such file or directory"))

def removeEntry (name : String) : Sys Unit :=
  update fun s => match s.disk.remove name with
    | some d => .ok ((), { s with disk := d })
    | none => .error (.failed ("remove " ++ name ++ ": directory not empty"))

def mkdirOne (name : String) : Sys Unit :=
  update fun s => match s.disk.mkdir name with
    | some d => .ok ((), { s with disk := d })
    | none => .error (.failed ("mkdir " ++ name ++ ": not a directory"))

def mkdirParents (name : String) : Sys Unit := forEach mkdirOne (parents name).reverse

def createTemp : Sys Nat := update fun s => .ok (s.nextIno, { s with nextIno := s.nextIno + 1 })

def fsync : Sys Unit := barrier

/-- The entries strictly beneath a directory, in the order of `filepath.WalkDir`. -/
def walk (d : Volume) (name : String) : List String :=
  (d.under name).insertionSort fun a b => split a ≤ split b

def busyTree (s : Node) (name : String) : Bool := s.writers.any fun w => w = name || Beneath w name

def removeReplicaFile (name : String) : Sys Unit := do
  match ← lstat name with
  | none => pure ()
  | some .dir => pure ()
  | some (.leaf .special) => raise (.failed ("cannot remove unsupported file type: " ++ name))
  | some (.leaf (.file _)) => removeEntry name

/-- Climb from the nearest parent, removing directories that are empty; every failure ends
the climb and is not reported. -/
def cleanEmptyParents : List String → Sys Unit
  | [] => pure ()
  | d :: ds => do
    match ← attempt (look fun s => s.disk.lookup d = some .dir && (s.disk.under d).isEmpty &&
        !busyTree s d) with
    | .ok true =>
      match ← attempt (do removeEntry d; fsync) with
      | .ok () => cleanEmptyParents ds
      | .error _ => pure ()
    | _ => pure ()

end BirakFormal
