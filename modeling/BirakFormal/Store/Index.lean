import BirakFormal.Store.Conflicts

/-!
# The index of a node

One row per name, the intents that bridge the filesystem and the index, the reserved
spellings, and the fenced objects. Every operation is one transaction: it either
succeeds with a new store or refuses and changes nothing. `now` is the time its clock
shows. `puts` is a ghost log of the committed rows and of whether a local write produced
them, and `tombstones` of the times at which local writes recorded a deletion; no operation
reads them.
-/

namespace BirakFormal

open Tables

inductive Err where
  | invalidName (text : String)
  | nameCollision (text : String)
  | integrity (name : String)
  | busy
  | repairQueueFull (text : String)
  | failed (text : String)
  deriving DecidableEq, Repr

structure ObjectKey where
  ino : Nat
  size : Nat
  modTime : Int64
  deriving DecidableEq, Repr

structure RepairRow where
  peer : String
  name : String
  version : Int
  attempts : Nat
  nextAttempt : Int
  firstSeen : Int
  lastError : String
  metadata : Option FileMeta
  revision : Int
  large : Bool
  deriving DecidableEq, Repr

def RepairRow.key (r : RepairRow) : String × String := (r.peer, r.name)

structure PeerState where
  version : Int := 0
  epoch : String := ""
  deriving DecidableEq, Repr

structure Store where
  files : Table FileMeta.name := .empty
  replicaIntents : Table FileMeta.name := .empty
  localIntents : List String := []
  names : Table (Prod.fst : String × String → String) := .empty
  quarantine : List String := []
  damagedObjects : List ObjectKey := []
  repairQueue : Table RepairRow.key := .empty
  repairRevision : Int := 0
  cursors : Table (Prod.fst : String × PeerState → String) := .empty
  lastVersion : Int := 0
  now : Int := 0
  puts : List (Bool × FileMeta) := []
  tombstones : List Int := []

namespace Store

def getFile (s : Store) (name : String) : Option FileMeta := s.files.find name

def replicaIntent (s : Store) (name : String) : Option FileMeta := s.replicaIntents.find name

end Store

/-- The pairs of folded and original beginnings of a name, for a folding of components. -/
def nameParts (fold : String → String) (name : String) : Except Err (List (String × String)) :=
  if name = "" then .error (.invalidName ("invalid namespace name " ++ name))
  else go "" "" (split name)
where
  go (folded original : String) : List String → Except Err (List (String × String))
    | [] => .ok []
    | part :: parts =>
      if part = "" ∨ part = "." ∨ part = ".." then
        .error (.invalidName ("invalid namespace name: " ++ name ++ " is not canonical"))
      else
        let original' := if original ≠ "" then original ++ "/" ++ part else original ++ part
        let folded' := if original ≠ "" then folded ++ "/" ++ fold part else folded ++ fold part
        match go folded' original' parts with
        | .ok rest => .ok ((folded', original') :: rest)
        | .error e => .error e

def collision (spelling actual : String) : Err :=
  .nameCollision ("portable namespace collision: " ++ spelling ++ " conflicts with reserved spelling " ++ actual)

def bindParts (names : Table (Prod.fst : String × String → String)) :
    List (String × String) → Except Err (Table (Prod.fst : String × String → String))
  | [] => .ok names
  | part :: parts =>
    match names.find part.1 with
    | none => bindParts (names.put part) parts
    | some actual =>
      if actual.2 = part.2 then bindParts names parts else .error (collision part.2 actual.2)

def bindName (fold : String → String) (names : Table (Prod.fst : String × String → String))
    (name : String) : Except Err (Table (Prod.fst : String × String → String)) :=
  match nameParts fold name with
  | .error e => .error e
  | .ok parts => bindParts names parts

def checkParts (names : Table (Prod.fst : String × String → String)) :
    List (String × String) → Except Err Unit
  | [] => .ok ()
  | part :: parts =>
    match names.find part.1 with
    | none => checkParts names parts
    | some actual =>
      if actual.2 = part.2 then checkParts names parts else .error (collision part.2 actual.2)

/-- `CheckName`: the answer of `bindName` without the reservation. -/
def Store.checkName (s : Store) (fold : String → String) (name : String) : Except Err Unit :=
  match nameParts fold name with
  | .error e => .error e
  | .ok parts => checkParts s.names parts

def inNamespace (name : String) (r : FileMeta) : Bool :=
  r.name = name || r.name ∈ parents name || (name ++ "/" ≤ r.name && r.name < name ++ "0")

def maxStateClock : List FileMeta → Option Int64
  | [] => none
  | r :: rs => match maxStateClock rs with
    | none => some r.stateClock
    | some c => some (max r.stateClock c)

def maxBigClock : List FileMeta → String
  | [] => ""
  | r :: rs =>
    let best := maxBigClock rs
    if r.bigClock = "" then best
    else if best = "" ∨ compareDecimal r.bigClock best = .gt then r.bigClock else best

def namespaceClock (files : Table FileMeta.name) (name : String) : Option FileMeta :=
  let rows := files.rows.filter (inNamespace name)
  match maxStateClock rows with
  | none => none
  | some c => some { clock := c, bigClock := maxBigClock rows }

namespace Store

/-- The row a commit of `m` writes: local writes take a clock above what they observe. -/
def committedRow (s : Store) (m : FileMeta) (isLocal : Bool) : FileMeta :=
  let m := if isLocal then advanceClock m (namespaceClock s.files m.name) else m
  { m with version := s.lastVersion + 1 }

def commitPut (s : Store) (fold : String → String) (m : FileMeta) (isLocal : Bool) :
    Except Err (Int × Store) :=
  match bindName fold s.names m.name with
  | .error e => .error e
  | .ok names =>
    match validateClock m with
    | .error text => .error (.failed text)
    | .ok () =>
      .ok (s.lastVersion + 1, { s with
        names := names
        lastVersion := s.lastVersion + 1
        files := s.files.put (s.committedRow m isLocal)
        replicaIntents := s.replicaIntents.erase m.name
        puts := (isLocal, s.committedRow m isLocal) :: s.puts
        tombstones := if isLocal && m.deleted then s.now :: s.tombstones else s.tombstones })

def stageReplica (s : Store) (m : FileMeta) : Store :=
  { s with replicaIntents := s.replicaIntents.put m }

def clearReplicaIntent (s : Store) (name : String) : Store :=
  { s with replicaIntents := s.replicaIntents.erase name }

def hasLocalIntent (s : Store) (name : String) : Bool :=
  s.localIntents.any fun p => name = p || hasPrefix name (p ++ "/")

def beginLocal (s : Store) (fold : String → String) : List String → Except Err Store
  | [] => .ok s
  | path :: paths =>
    match bindName fold s.names path with
    | .error e => .error e
    | .ok names =>
      beginLocal { s with
        names := names
        localIntents := if path ∈ s.localIntents then s.localIntents
          else s.localIntents ++ [path] } fold paths

def endLocal (s : Store) (paths : List String) : Store :=
  { s with localIntents := s.localIntents.filter fun p => p ∉ paths }

theorem committedRow_name (s : Store) (m : FileMeta) (isLocal : Bool) :
    (s.committedRow m isLocal).name = m.name := by
  unfold committedRow
  obtain ⟨c, b, h⟩ := advanceClock_eq m (namespaceClock s.files m.name)
  cases isLocal <;> simp [h]

def history (s : Store) (n : String) : List (Bool × FileMeta) := s.puts.filter (·.2.name = n)

variable {fold : String → String} {m : FileMeta} {s s' : Store} {v : Int} {isLocal : Bool}

theorem commitPut_ok (h : s.commitPut fold m isLocal = .ok (v, s')) :
    ∃ names, bindName fold s.names m.name = .ok names ∧ ClockValid m ∧ s' = { s with
      names := names
      lastVersion := s.lastVersion + 1
      files := s.files.put (s.committedRow m isLocal)
      replicaIntents := s.replicaIntents.erase m.name
      puts := (isLocal, s.committedRow m isLocal) :: s.puts
      tombstones := if isLocal && m.deleted then s.now :: s.tombstones else s.tombstones } := by
  unfold commitPut at h
  split at h
  · cases h
  · next names hbind =>
    split at h
    · cases h
    · next hclock =>
      cases h
      exact ⟨names, hbind, hclock, rfl⟩

theorem getFile_commitPut (h : s.commitPut fold m isLocal = .ok (v, s')) (n : String) :
    s'.getFile n = if n = m.name then some (s.committedRow m isLocal) else s.getFile n := by
  obtain ⟨names, -, -, rfl⟩ := commitPut_ok h
  show (s.files.put _).find n = _
  rw [Table.find_put, committedRow_name]
  rfl

theorem replicaIntent_commitPut (h : s.commitPut fold m isLocal = .ok (v, s')) (n : String) :
    s'.replicaIntent n = if n = m.name then none else s.replicaIntent n := by
  obtain ⟨names, -, -, rfl⟩ := commitPut_ok h
  exact Table.find_erase _ _ _

theorem history_commitPut (h : s.commitPut fold m isLocal = .ok (v, s')) (n : String) :
    s'.history n = if n = m.name then (isLocal, s.committedRow m isLocal) :: s.history n
      else s.history n := by
  obtain ⟨names, -, -, rfl⟩ := commitPut_ok h
  unfold history
  rw [List.filter_cons, committedRow_name]
  by_cases hn : n = m.name
  · rw [if_pos hn, if_pos (decide_eq_true hn.symm)]
  · rw [if_neg hn, if_neg (by simpa using fun he => hn he.symm)]

@[simp] theorem replicaIntent_stageReplica (s : Store) (m : FileMeta) (n : String) :
    (s.stageReplica m).replicaIntent n = if n = m.name then some m else s.replicaIntent n :=
  Table.find_put _ _ _

@[simp] theorem replicaIntent_clearReplicaIntent (s : Store) (n n' : String) :
    (s.clearReplicaIntent n').replicaIntent n = if n = n' then none else s.replicaIntent n :=
  Table.find_erase _ _ _

theorem getFile_name {n : String} {r : FileMeta} (h : s.getFile n = some r) :
    r.name = n :=
  Table.find_key h

theorem replicaIntent_name {n : String} (h : s.replicaIntent n = some m) :
    m.name = n :=
  Table.find_key h

end Store

end BirakFormal
