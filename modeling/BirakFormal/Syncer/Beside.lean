import BirakFormal.Shared.Tasks
import BirakFormal.Store.Merging
import BirakFormal.Syncer.Applied

/-!
# Running beside each other

The loops of a node share the store and the volume and take the commit lock section by
section. Each of them relies on the others to move rows forward and to merge into the
repair queue, and everything the syncer runs under the lock keeps to that.
-/

namespace BirakFormal

open Interruption Prog

structure Replicating (cfg : Config) (R : Node → Node → Prop) : Prop where
  upkeep : Upkeep cfg R
  volume : ∀ s t, SameIndex s t → R s t
  stage : ∀ s m, R s { s with store := s.store.stageReplica m }
  commit : ∀ s m v st, s.store.commitPut cfg.fold m false = .ok (v, st) → R s { s with store := st }

theorem blockingAncestor_reads (names : List String) : (blockingAncestor names).Within fun s t => t = s := by
  induction names with
  | nil => exact readFrame.pure _
  | cons a rest ih =>
    refine readFrame.bind (readFrame.look _) fun entry => ?_
    split
    · exact readFrame.pure _
    · exact ih

section
variable {cfg : Config} {R : Node → Node → Prop} (U : Replicating cfg R)

include U

theorem Replicating.sameIndex {α : Type} {p : Sys α} (h : p.Within SameIndex) : p.Within R :=
  h.mono U.volume

theorem Replicating.reads {α : Type} {p : Sys α} (h : p.Within fun s t => t = s) : p.Within R :=
  U.upkeep.frame.readOnly h

theorem Replicating.safeLocalPath (name : String) : (safeLocalPath cfg name).Within R := by
  refine U.reads fun s => (safeLocalPath_finds s name).mono (fun _ => id) fun _ _ => And.left

theorem Replicating.stageReplica (m : FileMeta) : (stageReplica m).Within R :=
  U.upkeep.frame.alter fun s => U.stage s m

theorem Replicating.putRemote (m : FileMeta) : (putRemote cfg m).Within R := by
  refine U.upkeep.frame.update fun s a t h => ?_
  cases hp : s.store.commitPut cfg.fold m false with
  | error e =>
    rw [hp] at h
    cases h
  | ok r =>
    rw [hp] at h
    cases h
    exact U.commit s m r.1 r.2 hp

theorem Replicating.publishCopy (original copy : FileMeta) (source : Source) :
    (publishCopy cfg original copy source).Within R := by
  have F := U.upkeep.frame
  refine F.bind (U.reads (openSource_reads _)) fun o =>
    F.bind (U.sameIndex createTemp_sameIndex) fun ino => ?_
  split
  · exact F.raise _
  · refine F.bind (U.reads (openSource_reads _)) fun current => ?_
    split
    · exact F.raise _
    · exact F.bind F.barrier fun _ => F.bind F.barrier fun _ => F.bind (U.stageReplica _) fun _ =>
        F.bind (U.sameIndex (place_sameIndex _ _)) fun _ => F.bind F.barrier fun _ =>
          F.bind (U.putRemote copy) fun _ => F.pure _

theorem Replicating.preserveConflictLocked (original : FileMeta) (source : Source) :
    (preserveConflictLocked cfg original source).Within R := by
  have F := U.upkeep.frame
  refine F.bind F.barrier fun _ => F.bind (U.safeLocalPath _) fun _ =>
    F.bind (U.upkeep.refreshWith _ _) fun _ => F.bind (F.look _) fun previous => ?_
  split
  · split
    · exact F.pure _
    · exact F.raise _
  · exact U.publishCopy _ _ _

theorem Replicating.displaceSuperseded (m : FileMeta) : (displaceSuperseded cfg m).Within R := by
  have F := U.upkeep.frame
  unfold BirakFormal.displaceSuperseded
  split
  · refine F.bind (U.upkeep.refreshWith _ _) fun _ => F.bind (F.look _) fun mine => ?_
    split
    · exact F.pure _
    · split
      · exact F.pure _
      · exact F.bind (U.preserveConflictLocked _ _) fun _ => F.pure _
  · exact F.pure _

theorem Replicating.commitTombstone (m : FileMeta) : (commitTombstone cfg m).Within R := by
  have F := U.upkeep.frame
  exact F.bind (U.stageReplica m) fun _ =>
    F.bind (U.sameIndex (removeReplicaFile_sameIndex _)) fun _ => F.bind F.barrier fun _ =>
      F.bind (U.sameIndex (sameIndexFrame.onlyIf (cleanEmptyParents_sameIndex _))) fun _ =>
        F.bind (U.putRemote m) fun _ => F.pure _

theorem Replicating.commitDeletionLocked (m : FileMeta) : (commitDeletionLocked cfg m).Within R := by
  have F := U.upkeep.frame
  refine F.bind F.barrier fun _ => F.bind (U.displaceSuperseded m) fun still => ?_
  split
  · exact F.pure _
  · exact F.bind F.barrier fun _ => U.commitTombstone m

theorem Replicating.addConflict (name : String) : (addConflict cfg name).Within R := by
  have F := U.upkeep.frame
  refine F.bind (U.safeLocalPath _) fun _ => F.bind (F.look _) fun busy => ?_
  split
  · exact F.raise _
  · refine F.bind (U.upkeep.refreshWith _ _) fun _ => F.bind (F.look _) fun row => ?_
    split
    · exact F.raise _
    · exact F.pure _

theorem Replicating.addConflicts (found : List FileMeta) (names : List String) :
    (addConflicts cfg found names).Within R := by
  have F := U.upkeep.frame
  induction names generalizing found with
  | nil => exact F.pure _
  | cons name names ih =>
    refine F.bind (U.safeLocalPath _) fun _ => F.bind (F.look _) fun entry => ?_
    split
    · exact F.bind (U.addConflict _) fun m => ih _
    · exact ih _

theorem Replicating.namespaceConflictsLocked (name : String) : (namespaceConflictsLocked cfg name).Within R := by
  have F := U.upkeep.frame
  refine F.bind (U.reads (blockingAncestor_reads _)) fun ancestor => ?_
  split
  · exact F.bind (U.addConflict _) fun m => F.pure _
  · refine F.bind (F.look _) fun entry => ?_
    split
    · refine F.bind (F.look _) fun busy => ?_
      split
      · exact F.raise _
      · exact F.bind (F.look _) fun names => U.addConflicts _ _
    · exact F.pure _

theorem Replicating.settleNamespaceLocked (m : FileMeta) (temporary : Nat) :
    (settleNamespaceLocked cfg m temporary).Within R := by
  have F := U.upkeep.frame
  refine F.bind (U.namespaceConflictsLocked _) fun conflicts => ?_
  dsimp only
  split
  · exact F.bind (U.preserveConflictLocked _ _) fun _ => F.bind (U.safeLocalPath _) fun _ =>
      F.bind (U.commitDeletionLocked _) fun _ => F.pure _
  · refine F.bind (F.forEach fun l _ => F.bind (U.safeLocalPath _) fun _ =>
      U.commitDeletionLocked _) fun _ => F.bind (U.safeLocalPath _) fun _ =>
        F.bind (F.look _) fun entry => ?_
    split
    · exact F.bind (U.sameIndex (removeEmptyTree_sameIndex _)) fun _ => F.pure _
    · exact F.pure _

theorem Replicating.observeLocal (name : String) : (observeLocal cfg name).Within R := by
  have F := U.upkeep.frame
  refine F.bind (U.upkeep.refreshWith _ _).attempt fun r => ?_
  split
  · exact F.pure _
  · exact F.pure _
  · exact F.rethrow _

theorem Replicating.restampReplica (m : FileMeta) : (restampReplica cfg m).Within R := by
  have F := U.upkeep.frame
  exact F.bind (U.stageReplica m) fun _ => F.bind (U.sameIndex (chtimes_sameIndex _ _)) fun _ =>
    F.bind F.barrier fun _ => F.bind (U.putRemote m) fun _ => F.pure _

theorem Replicating.publishReplica (m : FileMeta) (id : Nat) : (publishReplica cfg m id).Within R := by
  have F := U.upkeep.frame
  exact F.bind (U.stageReplica m) fun _ => F.bind (U.sameIndex (renameScratch_sameIndex _ _)) fun _ =>
    F.bind F.barrier fun _ => F.bind (U.putRemote m) fun _ => F.pure _

theorem Replicating.publishLocked (m : FileMeta) (id : Nat) (staged : ObjectKey) :
    (publishLocked cfg m id staged).Within R := by
  have F := U.upkeep.frame
  refine F.bind F.barrier fun _ => F.bind (U.safeLocalPath _) fun _ =>
    F.bind (U.observeLocal _) fun damaged => F.bind (F.look _) fun current => ?_
  split
  · exact F.pure _
  · refine F.bind (U.settleNamespaceLocked m id) fun apply => ?_
    split
    · exact F.pure _
    · exact F.bind F.barrier fun _ => F.bind (U.sameIndex (mkdirParents_sameIndex _)) fun _ =>
        F.bind (U.publishReplica m id) fun _ => U.upkeep.refreshWith _ _

theorem Replicating.downloadAndApply (m : FileMeta) (body : Bytes) : (downloadAndApply cfg m body).Within R := by
  have F := U.upkeep.frame
  refine F.bind (U.safeLocalPath _) fun _ => ?_
  split
  · exact F.raise _
  · refine F.bind (U.sameIndex (receive_sameIndex m body)) fun r =>
      F.bind (U.publishLocked m r.1 r.2).attempt fun result =>
        F.bind (F.alter fun s => U.volume _ _ ⟨rfl, rfl⟩) fun _ => ?_
    split
    · exact F.pure _
    · exact F.rethrow _

theorem Replicating.applyDeletion (m : FileMeta) : (applyDeletion cfg m).Within R := by
  have F := U.upkeep.frame
  refine F.bind (U.safeLocalPath _) fun _ => F.bind (U.observeLocal _) fun _ =>
    F.bind (F.look _) fun mine => ?_
  split
  · exact F.pure _
  · exact U.commitDeletionLocked m

theorem Replicating.decideChange (m : FileMeta) : (decideChange cfg m).Within R := by
  have F := U.upkeep.frame
  refine F.bind (U.safeLocalPath _) fun _ => F.bind (U.observeLocal _) fun damaged =>
    F.bind (F.look _) fun mine => ?_
  split
  · exact F.pure _
  · split
    · exact F.bind (U.safeLocalPath _) fun _ => F.bind (U.restampReplica m) fun _ => F.pure _
    · split
      · exact F.pure _
      · exact F.pure _

end

/-- What a section leaves to the other loops: the queue merges, with rows of the index only, the
cursors of the peers stay, and a validated process stays one. -/
structure QueueMerged (s t : Node) : Prop where
  queue : s.store.Merged t.store
  cursors : t.store.cursors = s.store.cursors
  recovered : s.recovered = true → t.recovered = true
  offered : s.store.Logged → s.store.Offered t.store

theorem queueMergedFrame : Frame QueueMerged where
  refl := fun s => ⟨.refl s.store, rfl, id, .refl⟩
  trans := fun h h' => ⟨h.queue.trans h'.queue, h'.cursors.trans h.cursors, fun hs => h'.recovered (h.recovered hs),
    fun hs => (h.offered hs).trans (h'.offered (h.offered hs).logged)⟩

variable {s t : Node}

theorem QueueMerged.of_eq (hfiles : t.store.files = s.store.files)
    (hputs : t.store.puts = s.store.puts) (hqueue : t.store.repairQueue = s.store.repairQueue)
    (hrev : t.store.repairRevision = s.store.repairRevision)
    (hcursors : t.store.cursors = s.store.cursors)
    (hrec : s.recovered = true → t.recovered = true) : QueueMerged s t :=
  ⟨.of_eq hqueue hrev, hcursors, hrec, fun hs => .of_eq hs hfiles hputs hqueue⟩

theorem Inspected.queueMerged {cfg : Config} {n : String} (h : Inspected cfg n s t) :
    QueueMerged s t := by
  cases h with
  | stamp h ht =>
    obtain ⟨d, -, rfl⟩ := place_ok ht
    exact .of_eq rfl rfl rfl rfl rfl id
  | rmdir | fence | setQuarantined | unfence | defer => exact .of_eq rfl rfl rfl rfl rfl id
  | enqueue peer reason hm =>
    refine ⟨s.store.merged_enqueueChange _ _ _ _ _, rfl, id, fun hs => ?_⟩
    exact Store.offered_enqueueChange hs (Store.getFile_name hm ▸ hm) _ _ _ _

variable {fold : String → String}

theorem queueMerged_commitPut {m : FileMeta} {isLocal : Bool}
    {v : Int} {st : Store} (h : s.store.commitPut fold m isLocal = .ok (v, st)) :
    QueueMerged s { s with store := st } := by
  refine ⟨?_, ?_, id, fun hs => Store.offered_commitPut hs h⟩
  · obtain ⟨names, -, -, rfl⟩ := Store.commitPut_ok h
    exact .of_eq rfl rfl
  · obtain ⟨names, -, -, rfl⟩ := Store.commitPut_ok h
    rfl

theorem IndexedRun.queueMerged {cfg : Config} {n : String} (h : IndexedRun cfg n s t) : QueueMerged s t := by
  refine queueMergedFrame.of_steps (fun s t hst => ?_) h
  cases hst with
  | inspect h => exact h.queueMerged
  | putLocal _ _ h => exact queueMerged_commitPut h
  | finish _ h => exact queueMerged_commitPut h
  | drop => exact .of_eq rfl rfl rfl rfl rfl id

theorem SameIndex.queueMerged (h : SameIndex s t) : QueueMerged s t where
  queue := .of_eq (congrArg Store.repairQueue h.1) (congrArg Store.repairRevision h.1)
  cursors := congrArg Store.cursors h.1
  recovered := h.2.trans
  offered := by
    intro hs
    rw [h.1]
    exact .refl hs

theorem queueMerged_upkeep (cfg : Config) : Upkeep cfg QueueMerged where
  frame := queueMergedFrame
  refresh := fun _ opts => (refreshFileLocked_indexed opts).mono fun _ _ => IndexedRun.queueMerged
  recover := fun _ => recoverReplicaLocked_indexed.mono fun _ _ => IndexedRun.queueMerged
  endLocal := fun _ _ => .of_eq rfl rfl rfl rfl rfl id
  recovered := fun _ => .of_eq rfl rfl rfl rfl rfl fun _ => rfl

theorem queueMerged_replicating (cfg : Config) : Replicating cfg QueueMerged where
  upkeep := queueMerged_upkeep cfg
  volume := fun _ _ => SameIndex.queueMerged
  stage := fun _ _ => .of_eq rfl rfl rfl rfl rfl id
  commit := fun _ _ _ _ h => queueMerged_commitPut h

theorem beginLocal_queue {s st : Store} {names : List String}
    (h : s.beginLocal fold names = .ok st) : st.repairQueue = s.repairQueue ∧
      st.repairRevision = s.repairRevision ∧ st.cursors = s.cursors := by
  induction names generalizing s with
  | nil =>
    cases h
    exact ⟨rfl, rfl, rfl⟩
  | cons name names ih =>
    rw [Store.beginLocal] at h
    split at h
    · cases h
    · obtain ⟨hqueue, hrev, hcursors⟩ := ih h
      exact ⟨hqueue, hrev, hcursors⟩

theorem queueMerged_beginLocal {names : List String} {st : Store} (h : s.store.beginLocal fold names = .ok st) :
    QueueMerged s { s with store := st } := by
  obtain ⟨hqueue, hrev, hcursors⟩ := beginLocal_queue h
  obtain ⟨hfiles, -, hputs⟩ := beginLocal_rows h
  exact .of_eq hfiles hputs hqueue hrev hcursors id

def Node.Running (s : Node) : Prop := s.store.Sound ∧ s.recovered = true

def Ongoing (s t : Node) : Prop := s.Running → t.Running ∧ s.store.Forward t.store

theorem ongoingFrame : Frame Ongoing where
  refl := fun _ hs => ⟨hs, .refl _⟩
  trans := by
    intro s t u hst htu hs
    obtain ⟨ht, hrows⟩ := hst hs
    obtain ⟨hu, hrows'⟩ := htu ht
    exact ⟨hu, hrows.trans hrows'⟩

def Beside (s t : Node) : Prop :=
  s.Running → t.Running ∧ s.store.Forward t.store ∧ s.store.Merged t.store

theorem besideFrame : Frame Beside where
  refl := fun s hs => ⟨hs, .refl _, .refl _⟩
  trans := by
    intro s t u hst htu hs
    obtain ⟨ht, hrows, hqueue⟩ := hst hs
    obtain ⟨hu, hrows', hqueue'⟩ := htu ht
    exact ⟨hu, hrows.trans hrows', hqueue.trans hqueue'⟩

theorem Beside.ongoing (h : Beside s t) : Ongoing s t :=
  fun hs => ⟨(h hs).1, (h hs).2.1⟩

structure Quietly (s t : Node) : Prop where
  beside : Beside s t
  cursors : t.store.cursors = s.store.cursors
  offered : s.store.Logged → s.store.Offered t.store

theorem quietlyFrame : Frame Quietly where
  refl := fun s => ⟨besideFrame.refl s, rfl, .refl⟩
  trans := fun h h' => ⟨besideFrame.trans h.beside h'.beside, h'.cursors.trans h.cursors,
    fun hs => (h.offered hs).trans (h'.offered (h.offered hs).logged)⟩

theorem Node.Running.ahead (h : s.Running) : Ahead s.store s :=
  ⟨h.1, .refl _, h.2⟩

theorem Onward.quietly (h : Onward s t) (hq : QueueMerged s t) : Quietly s t := by
  refine ⟨fun hs => ?_, hq.cursors, hq.offered⟩
  obtain ⟨hsound, hrows⟩ := h hs.1
  exact ⟨⟨hsound, hq.recovered hs.2⟩, hrows, hq.queue⟩

theorem within_quietly {α : Type} {p : Sys α} (hq : p.Within QueueMerged)
    (hp : ∀ s, Ahead s.store s → p.Safe (Ahead s.store) (fun _ => Ahead s.store) s) :
    p.Within Quietly := by
  intro s
  by_cases hs : s.Running
  · have hquiet : ∀ t, Ahead s.store t ∧ QueueMerged s t → Quietly s t := by
      intro t ht
      exact Onward.quietly (fun _ => ⟨ht.1.sound, ht.1.forward⟩) ht.2
    exact ((hp s hs.ahead).and (hq s)).mono hquiet fun _ => hquiet
  · have hquiet : ∀ t, True ∧ QueueMerged s t → Quietly s t :=
      fun t ht => ⟨fun h => absurd h hs, ht.2.cursors, ht.2.offered⟩
    exact ((safe_trivial p s).and (hq s)).mono hquiet fun _ => hquiet

end BirakFormal
