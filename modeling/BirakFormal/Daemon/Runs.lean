import BirakFormal.Syncer.Applied

/-!
# Runs of a node

A process starts with the storage validation, which has to succeed before anything else
runs. After that, its parts take the commit lock one after another, each of them may stop
after any call, and between two of them other programs may change the volume.
-/

namespace BirakFormal

open Interruption Prog Relation

def Node.restarted (s : Node) : Node :=
  { s with scratch := .empty, quarantined := s.store.quarantine,
           damagedObjects := s.store.damagedObjects, writers := [], recovered := false, deferred := [] }

inductive Section where
  /-- A watcher event, a sweep or a scrub of one name. -/
  | refresh (name : String) (opts : IndexOptions)
  | recover (name : String)
  /-- The first locked part of `applyChange`. -/
  | decide (change : FileMeta)
  /-- The locked part of a download. -/
  | publish (m : FileMeta) (temporary : Nat) (staged : ObjectKey)
  | delete (m : FileMeta)
  | download (m : FileMeta) (body : Bytes)
  | apply (change : FileMeta) (body : Bytes)
  | preserve (original : FileMeta) (source : Source)
  /-- A gateway commit around its own work on the volume. -/
  | commit (sources names : List String) (published : String → Option Hashed) (fn : Sys Unit)

def Section.prog (cfg : Config) : Section → Sys Unit
  | .refresh name opts => refreshWith cfg name opts
  | .recover name => recoverReplicaLocked cfg name
  | .decide change => do
    let _ ← decideChange cfg change
    pure ()
  | .publish m temporary staged => publishLocked cfg m temporary staged
  | .delete m => applyDeletion cfg m
  | .download m body => downloadAndApply cfg m body
  | .apply change body => applyChange cfg change body
  | .preserve original source => preserveConflictLocked cfg original source
  | .commit sources names published fn => commitPublishedLocked cfg sources names published fn

/-- Changes from a peer are validated first, and the work of a gateway does not reach into
the index. -/
def Section.Allowed (cfg : Config) : Section → Prop
  | .refresh _ _ | .recover _ | .apply _ _ => True
  | .decide m | .publish m _ _ | .delete m | .download m _ | .preserve m _ =>
    validateChange cfg.digest cfg.patterns m = .ok ()
  | .commit _ _ _ fn => fn.Within SameIndex

inductive NodeStep (cfg : Config) : Node → Node → Prop where
  | run {s t : Node} (sec : Section) (hs : s.recovered = true) (hsec : sec.Allowed cfg)
      (h : (sec.prog cfg).Stops s t) : NodeStep cfg s t
  | restart {s t : Node} (h : (validateStorageLocked cfg).Stops s.restarted t) : NodeStep cfg s t
  | external {s t : Node} (h : SameIndex s t) : NodeStep cfg s t

abbrev NodeRun (cfg : Config) : Node → Node → Prop := ReflTransGen (NodeStep cfg)

section
variable {cfg : Config} {s t : Node}

theorem onward_of_safe {p : Sys Unit} {Q : Unit → Node → Prop}
    (hrec : s.recovered = true) (hp : Ahead s.store s → p.Safe (Ahead s.store) Q s)
    (hQ : ∀ a u, Q a u → Ahead s.store u) (h : p.Stops s t) : Onward s t := by
  intro hs
  have ht := (hp ⟨hs, Store.Forward.refl _, hrec⟩).stops hQ h
  exact ⟨ht.sound, ht.forward⟩

theorem Section.onward (sec : Section) (hrec : s.recovered = true)
    (hsec : sec.Allowed cfg) (h : (sec.prog cfg).Stops s t) : Onward s t := by
  cases sec with
  | refresh name opts => exact ((onwardUpkeep cfg).refreshWith name opts).stops h
  | recover name => exact (recoverReplicaLocked_indexed.stops h).onward
  | decide m =>
    have hm := stateOk_of_metadataOk (metadataOk_of_validateChange hsec)
    exact onward_of_safe hrec (fun hs => Safe.bind (decideChange_safe hs hm) fun _ _ ht =>
      safe_pure ht.1) (fun _ _ => id) h
  | publish m temporary staged =>
    have hmeta := metadataOk_of_validateChange hsec
    exact onward_of_safe hrec (fun hs => publishLocked_safe temporary staged hs
      (stateOk_of_metadataOk hmeta) (ne_empty_of_validateSyncName hmeta.name)) (fun _ _ => And.left) h
  | delete m =>
    have hm := stateOk_of_metadataOk (metadataOk_of_validateChange hsec)
    exact onward_of_safe hrec (fun hs => applyDeletion_safe hs hm) (fun _ _ => And.left) h
  | download m body =>
    have hmeta := metadataOk_of_validateChange hsec
    exact onward_of_safe hrec (fun hs => downloadAndApply_safe body hs (stateOk_of_metadataOk hmeta)
      (ne_empty_of_validateSyncName hmeta.name)) (fun _ _ => And.left) h
  | apply m body =>
    exact onward_of_safe hrec (fun hs => applyChange_safe body hs) (fun _ _ => And.left) h
  | preserve m source =>
    have hm := stateOk_of_metadataOk (metadataOk_of_validateChange hsec)
    exact onward_of_safe hrec (fun hs => preserveConflictLocked_safe source hs hm.clock)
      (fun _ _ => id) h
  | commit sources names published fn =>
    have hfn : fn.Within Onward := hsec.mono fun s t hst hs =>
      ⟨hst.1 ▸ hs, hst.1 ▸ Store.Forward.refl _⟩
    exact ((onwardUpkeep cfg).commitPublishedLocked sources published hfn
      fun _ _ => onward_beginLocal).stops h

theorem NodeStep.onward (h : NodeStep cfg s t) : Onward s t := by
  cases h with
  | run sec hrec hsec hstops => exact sec.onward hrec hsec hstops
  | restart hstops =>
    have hu : Onward s.restarted t := (onwardUpkeep cfg).validateStorageLocked.stops hstops
    exact hu
  | external hsame => exact fun hs => ⟨hsame.1 ▸ hs, hsame.1 ▸ Store.Forward.refl _⟩

theorem NodeRun.onward (h : NodeRun cfg s t) : Onward s t :=
  onwardFrame.of_steps (fun _ _ => NodeStep.onward) h

theorem NodeRun.sound (h : NodeRun cfg {} t) : t.store.Sound :=
  (h.onward Store.sound_empty).1

/-- From an empty store, the row of a name never falls back, no intent is behind the row of
its name, and the commits of each name, one by one, never went down. -/
theorem rows_never_go_back (cfg : Config) {s t : Node} (hs : NodeRun cfg {} s) (ht : NodeRun cfg s t) :
    (∀ n, StateLe (s.store.getFile n) (t.store.getFile n)) ∧
    (∀ n m, t.store.replicaIntent n = some m → StateLe (t.store.getFile n) (some m)) ∧
    Store.InOrder t.store.puts ∧ ∀ n, t.store.getFile n = Store.latest t.store.puts n := by
  obtain ⟨hsound, hforward⟩ := ht.onward hs.sound
  exact ⟨hforward, hsound.intents_ahead, hsound.puts_inOrder, hsound.puts_latest⟩

end

def plainConfig : Config where
  digest := sha256
  fold := id
  patterns _ := false
  granularity := 1
  stamp := id
  repairPeers := []
  repairLimit := 0
  mapOrder := id
  mapOrder_perm := .refl

def startedNode : Node := ((validateStorageLocked plainConfig).exec ({} : Node).restarted).2

def writtenA : FileMeta := { name := "a", modTime := 5, clock := 5, hash := sha256.hash [] }

def deletedA : FileMeta := { name := "a", modTime := 7, clock := 7, deleted := true }

def nodeWithA : Node := ((applyChange plainConfig writtenA []).exec startedNode).2

def nodeWithoutA : Node := ((applyChange plainConfig deletedA []).exec nodeWithA).2

theorem startedNode_run : NodeRun plainConfig {} startedNode :=
  .single (.restart (stops_exec _ _))

theorem nodeWithA_recovered : nodeWithA.recovered = true := by decide +kernel

theorem nodeWithA_run : NodeRun plainConfig {} nodeWithA :=
  startedNode_run.tail (.run (.apply writtenA []) (by decide +kernel) trivial (stops_exec _ _))

theorem nodeWithoutA_run : NodeRun plainConfig nodeWithA nodeWithoutA :=
  .single (.run (.apply deletedA []) nodeWithA_recovered trivial (stops_exec _ _))

/-- The file arrives and is deleted, and its row moves up. -/
theorem rows_never_go_back_delete :
    liveRow (nodeWithA.store.getFile "a") ≠ none ∧ liveRow (nodeWithoutA.store.getFile "a") = none ∧
      StateLe (nodeWithA.store.getFile "a") (nodeWithoutA.store.getFile "a") :=
  ⟨by decide +kernel, by decide +kernel, (rows_never_go_back plainConfig nodeWithA_run nodeWithoutA_run).1 "a"⟩

end BirakFormal
