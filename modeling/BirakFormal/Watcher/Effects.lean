import BirakFormal.Watcher.Commits

/-!
# What indexing can do

Every way the watcher changes a node, call by call. `Indexed cfg n` lists the effects of
indexing the name `n`; whatever is true of each of them is true of every run of the
watcher's programs, wherever it stops.
-/

namespace BirakFormal

open FileTrees Interruption Prog Relation

/-- One effect of inspecting `n`; the rows and the intents stay as they are. -/
inductive Inspected (cfg : Config) (n : String) : Node → Node → Prop where
  | stamp {s t : Node} {o : FileObj} {x : Int64} (h : s.disk.lookup n = some (.leaf (.file o)))
      (ht : s.place n { o with modTime := x } = .ok t) : Inspected cfg n s t
  | rmdir {s : Node} {d : String} {vol : Volume} (hd : Beneath n d)
      (h : s.disk.lookup d = some .dir) (ht : s.disk.remove d = some vol) :
      Inspected cfg n s { s with disk := vol }
  | fence (s : Node) (key : ObjectKey) : Inspected cfg n s (s.fence n key)
  | setQuarantined (s : Node) (key : ObjectKey) :
      Inspected cfg n s { s with store := s.store.setQuarantined n key }
  | unfence (s : Node) (verified : Option ObjectKey) : Inspected cfg n s (s.unfence n verified)
  | enqueue {s : Node} {m : FileMeta} (peer reason : String) (hm : s.store.getFile n = some m) :
      Inspected cfg n s (s.enqueueChange cfg peer reason m).2
  | defer (s : Node) : Inspected cfg n s { s with deferred := s.deferred ++ [n] }

inductive Indexed (cfg : Config) (n : String) : Node → Node → Prop where
  | inspect {s t : Node} (h : Inspected cfg n s t) : Indexed cfg n s t
  | putLocal {s : Node} {ev : FileMeta} {v : Int} {st : Store} (hn : ev.name = n)
      (hs : ev.supersededBy = "") (h : s.store.commitPut cfg.fold ev true = .ok (v, st)) : Indexed cfg n s { s with store := st }
  | finish {s : Node} {m : FileMeta} {v : Int} {st : Store} (hm : s.store.replicaIntent n = some m)
      (h : s.store.commitPut cfg.fold m false = .ok (v, st)) : Indexed cfg n s { s with store := st }
  | drop (s : Node) : Indexed cfg n s { s with store := s.store.clearReplicaIntent n }

/-- Any number of effects of inspecting `n`. -/
abbrev InspectedRun (cfg : Config) (n : String) : Node → Node → Prop :=
  ReflTransGen (Inspected cfg n)

/-- Any number of effects of indexing `n`. -/
abbrev IndexedRun (cfg : Config) (n : String) : Node → Node → Prop := ReflTransGen (Indexed cfg n)

structure SameRows (s t : Node) : Prop where
  files : t.store.files = s.store.files
  intents : t.store.replicaIntents = s.store.replicaIntents
  puts : t.store.puts = s.store.puts

theorem sameRowsFrame : Frame SameRows :=
  ⟨fun _ => ⟨rfl, rfl, rfl⟩, fun h h' => ⟨h'.files.trans h.files, h'.intents.trans h.intents, h'.puts.trans h.puts⟩⟩

variable {s t : Node}

theorem SameRows.getFile (h : SameRows s t) (n : String) :
    t.store.getFile n = s.store.getFile n :=
  congrArg (·.find n) h.files

theorem SameRows.replicaIntent (h : SameRows s t) (n : String) :
    t.store.replicaIntent n = s.store.replicaIntent n :=
  congrArg (·.find n) h.intents

variable (cfg : Config) (n : String)

theorem inspectedFrame : Frame (InspectedRun cfg n) := Frame.steps _

theorem indexedFrame : Frame (IndexedRun cfg n) := Frame.steps _

variable {cfg n}

theorem place_ok {o : FileObj} (h : s.place n o = .ok t) :
    ∃ d, s.disk.write n (.file o) = some d ∧ t = { s with disk := d } := by
  unfold Node.place at h
  split at h
  · next d hd => cases h; exact ⟨d, hd, rfl⟩
  · cases h

theorem Inspected.sameRows (h : Inspected cfg n s t) : SameRows s t := by
  cases h with
  | stamp ho ht => obtain ⟨d, -, rfl⟩ := place_ok ht; exact ⟨rfl, rfl, rfl⟩
  | rmdir | fence | setQuarantined | unfence | enqueue | defer => exact ⟨rfl, rfl, rfl⟩

theorem InspectedRun.sameRows (h : InspectedRun cfg n s t) : SameRows s t :=
  sameRowsFrame.of_steps (fun _ _ => Inspected.sameRows) h

theorem InspectedRun.indexed (h : InspectedRun cfg n s t) : IndexedRun cfg n s t :=
  ReflTransGen.mono (fun _ _ => Indexed.inspect) _ _ h

theorem chtimes_inspected (x : Int64) : (chtimes cfg n x).Within (InspectedRun cfg n) := by
  refine (inspectedFrame cfg n).update fun s a t h => ?_
  split at h
  · next o ho =>
    cases hp : s.place n { o with modTime := cfg.stamp x } with
    | error e => rw [hp] at h; cases h
    | ok u =>
      rw [hp] at h
      cases h
      exact .single (.stamp ho hp)
  · cases h

theorem cleanEmptyParents_inspected {ds : List String} (hds : ∀ d ∈ ds, Beneath n d) :
    (cleanEmptyParents ds).Within (InspectedRun cfg n) := by
  have F := inspectedFrame cfg n
  induction ds with
  | nil => exact F.pure ()
  | cons d ds ih =>
    have ih := ih fun e he => hds e (List.mem_cons_of_mem d he)
    intro s
    -- Only a directory that was seen empty is removed, and nothing runs in between.
    refine Safe.bind (R := fun r t => t = s ∧ (r = .ok true → s.disk.lookup d = some .dir))
      (safe_attempt ⟨.refl, ⟨rfl, nofun⟩, rfl, fun h => ?_⟩) ?_
    · have hd := Except.ok.inj h
      simp only [Bool.and_eq_true, decide_eq_true_eq] at hd
      exact hd.1.1
    · rintro r t ⟨rfl, hr⟩
      match r with
      | .error _ => exact F.pure () t
      | .ok false => exact F.pure () t
      | .ok true =>
        refine Safe.bind (R := fun _ => InspectedRun cfg n t) (safe_attempt ?_) fun r u hu => ?_
        · refine Safe.bind (safe_update .refl fun a u hf => ?_) fun _ u hu => safe_barrier hu hu
          split at hf
          · next vol hvol =>
            cases hf
            exact ReflTransGen.single (.rmdir (hds d List.mem_cons_self) (hr rfl) hvol)
          · cases hf
        · match r with
          | .error _ => exact hu
          | .ok () => exact (ih u).mono (fun _ => hu.trans) fun _ _ => hu.trans

variable {s : Node}

theorem enqueueRepairs_inspected {m : FileMeta} (hm : s.store.getFile n = some m)
    (reason : String) (peers : List String) :
    (enqueueRepairs cfg m reason peers).Safe (InspectedRun cfg n s)
      (fun _ => InspectedRun cfg n s) s := by
  induction peers generalizing s with
  | nil => exact safe_pure .refl
  | cons peer peers ih =>
    refine Safe.bind (R := fun _ => InspectedRun cfg n s)
      (safe_attempt (safe_perform .refl (fun a t ht => ?_) fun e t ht => ?_)) fun r t hst => ?_
    · exact (Prod.mk.inj ht).2 ▸ .single (.enqueue peer reason hm)
    · exact (Prod.mk.inj ht).2 ▸ .single (.enqueue peer reason hm)
    · match r with
      | .error _ => exact safe_raise hst
      | .ok () =>
        have hm' : t.store.getFile n = some m := (hst.sameRows.getFile n).trans hm
        exact (ih hm').mono (fun _ => hst.trans) fun _ _ => hst.trans

theorem quarantineFor_inspected {m : FileMeta} (hn : m.name = n)
    (hm : m.hash ≠ "" → s.store.getFile n = some m) (reason : String) :
    (quarantineFor cfg m reason).Safe (InspectedRun cfg n s) (fun _ => InspectedRun cfg n s) s := by
  subst hn
  refine safe_check_bind .refl fun key _ => safe_alter_bind .refl ?_
  have hfence : InspectedRun cfg m.name s (s.fence m.name key) := .single (.fence s key)
  refine Safe.bind (R := fun _ => InspectedRun cfg m.name s)
    (safe_attempt (safe_alter hfence (hfence.tail (.setQuarantined _ key)))) fun r t hst => ?_
  match r with
  | .error _ => exact safe_raise hst
  | .ok () =>
    dsimp only
    split
    · exact safe_raise hst
    · next hhash =>
      have hm' : t.store.getFile m.name = some m := (hst.sameRows.getFile m.name).trans (hm hhash)
      exact Safe.bind ((enqueueRepairs_inspected hm' reason _).mono (fun _ => hst.trans)
        fun _ _ => hst.trans) fun _ u hu => safe_raise hu

theorem clearIntegrity_inspected (verified : Option ObjectKey) :
    (clearIntegrity n verified).Within (InspectedRun cfg n) := by
  have F := inspectedFrame cfg n
  refine F.bind (F.look _) fun fenced => ?_
  split
  · exact F.pure ()
  · exact F.bind (F.onlyIf F.barrier) fun _ => F.alter fun s => .single (.unfence s verified)

theorem unchangedByStat_reads : (unchangedByStat cfg n).Within fun s t => t = s := by
  have F := readFrame (σ := Node)
  refine F.bind (Within.attempt (F.bind (F.look _) fun fenced => ?_)) fun r => ?_
  · split
    · exact F.pure _
    · refine F.bind (F.look _) fun existing => ?_
      split
      · exact F.pure _
      · refine F.bind (F.look _) fun entry => ?_
        split <;> exact F.pure _
  · split <;> exact F.pure _

theorem snapshotWith_reads (precomputed : Option Hashed) :
    (snapshotWith cfg n precomputed).Within fun s t => t = s := by
  have F := readFrame (σ := Node)
  have hsnap : (snapshot cfg n >>= fun r => (pure (r.1.key, r.2) : Sys _)).Within
      fun s t => t = s := F.bind (F.check _) fun _ => F.pure _
  cases precomputed with
  | none => exact hsnap
  | some h =>
    refine F.bind (F.look _).attempt fun r => ?_
    split
    · split
      · exact F.pure _
      · exact hsnap
    · exact hsnap

theorem readFailed_inspected {existing : Option FileMeta} (hrow : s.store.getFile n = existing) (e : Failure Err) :
    (readFailed cfg existing e).Safe (InspectedRun cfg n s) (fun _ => InspectedRun cfg n s) s := by
  cases e with
  | raised e => exact safe_raise .refl
  | fault =>
    refine Safe.bind (R := fun _ t => t = s) (safe_attempt ⟨.refl, rfl, rfl⟩) ?_
    intro r t ht
    subst ht
    cases r with
    | error e => exact safe_rethrow .refl
    | ok _ =>
      dsimp only
      split
      · next m hm =>
        have hm : t.store.getFile n = some m := hrow.trans (Option.filter_eq_some_iff.mp hm).1
        exact quarantineFor_inspected (Store.getFile_name hm) (fun _ => hm) _
      · exact safe_raise .refl

theorem inspectMissing_inspected (existing : Option FileMeta) (opts : IndexOptions) :
    (inspectMissing n existing opts).Within (InspectedRun cfg n) := by
  have F := inspectedFrame cfg n
  unfold inspectMissing
  split
  · exact F.bind (clearIntegrity_inspected none) fun _ => F.pure _
  · split
    · exact F.bind (F.alter fun s => .single (.defer s)) fun _ => F.pure _
    · exact F.bind (clearIntegrity_inspected none) fun _ =>
        F.bind (cleanEmptyParents_inspected fun d hd => hd) fun _ => F.pure _

theorem inspectNonRegular_reads (existing : Option FileMeta) (isDir : Bool) :
    (inspectNonRegular n existing isDir).Within fun s t => t = s := by
  have F := readFrame (σ := Node)
  refine F.bind (F.look _) fun trusted => ?_
  split
  · exact F.pure _
  · split
    · exact F.pure _
    · exact F.raise _

theorem inspectVerdict_inspected (existing : Option FileMeta) (info : ObjectKey) (hash : String)
    (trusted : Bool) : (inspectVerdict cfg n existing info hash trusted).Within (InspectedRun cfg n) := by
  have F := inspectedFrame cfg n
  unfold inspectVerdict
  dsimp only
  split
  · exact F.pure _
  · split
    · split
      · exact F.pure _
      · split
        · exact F.pure _
        · exact F.bind (chtimes_inspected _) fun _ => F.bind F.barrier fun _ => F.pure _
    · exact F.pure _

theorem inspectRegular_inspected {existing : Option FileMeta}
    (hrow : s.store.getFile n = existing) (opts : IndexOptions) :
    (inspectRegular cfg n existing opts).Safe (InspectedRun cfg n s)
      (fun _ => InspectedRun cfg n s) s := by
  have hname : (existing.getD { name := n }).name = n := by
    cases existing with
    | none => rfl
    | some e => exact Store.getFile_name hrow
  have hheld : (existing.getD { name := n }).hash ≠ "" →
      s.store.getFile n = some (existing.getD { name := n }) := by
    intro h
    cases existing with
    | none => exact absurd rfl h
    | some e => exact hrow
  refine Safe.bind (((snapshotWith_reads (opts.published n)).attempt s).mono
    (fun t ht => ht.symm ▸ ReflTransGen.refl) fun _ _ => id) ?_
  intro r t ht
  subst ht
  match r with
  | .error e => exact readFailed_inspected hrow e
  | .ok (info, hash) =>
    refine safe_look_bind .refl (safe_look_bind .refl ?_)
    split
    · exact quarantineFor_inspected hname hheld _
    · split
      · exact quarantineFor_inspected hname hheld _
      · have F := inspectedFrame cfg n
        refine (F.bind (F.look _) fun fenced => F.bind (F.onlyIf ?_) fun _ =>
          inspectVerdict_inspected existing info hash _) t
        exact F.bind F.barrier fun _ => F.bind F.barrier fun _ => clearIntegrity_inspected _

theorem inspectFile_inspected (opts : IndexOptions) : (inspectFile cfg n opts).Within (InspectedRun cfg n) := by
  have F := inspectedFrame cfg n
  unfold inspectFile
  split
  · exact F.pure _
  · refine F.bind (F.look _) fun writing => ?_
    split
    · exact F.raise _
    · intro s
      refine safe_look_bind .refl (safe_look_bind .refl ?_)
      split
      · exact inspectMissing_inspected _ _ s
      · exact F.readOnly (inspectNonRegular_reads _ _) s
      · exact F.readOnly (inspectNonRegular_reads _ _) s
      · exact inspectRegular_inspected rfl _

theorem putLocal_indexed {ev : FileMeta} (hn : ev.name = n) (hs : ev.supersededBy = "") :
    (putLocal cfg ev).Within (IndexedRun cfg n) := by
  refine (indexedFrame cfg n).update fun s a t h => ?_
  cases hp : s.store.commitPut cfg.fold ev true with
  | error e => rw [hp] at h; cases h
  | ok r =>
    rw [hp] at h
    cases h
    exact .single (.putLocal hn hs hp)

theorem recoverReplicaLocked_idle (h : s.store.replicaIntent n = none) :
    (recoverReplicaLocked cfg n).Safe (fun t => t = s) (fun _ t => t = s) s := by
  refine safe_look_bind rfl ?_
  rw [h]
  exact safe_pure rfl

theorem recoverReplicaLocked_within {R : Node → Node → Prop} (F : Frame R)
    (hinspect : ∀ s t, Inspected cfg n s t → R s t)
    (hfinish : ∀ s m v st, s.store.replicaIntent n = some m →
      s.store.commitPut cfg.fold m false = .ok (v, st) → R s { s with store := st })
    (hdrop : ∀ s, R s { s with store := s.store.clearReplicaIntent n }) :
    (recoverReplicaLocked cfg n).Within R := by
  have drop : (clearReplicaIntent n).Within R := F.alter hdrop
  have finish : ∀ {s t m}, R s t → t.store.replicaIntent n = some m →
      (putRemote cfg m >>= fun _ => (pure () : Sys Unit)).Safe (R s) (fun _ => R s) t := by
    intro s t m hst hm
    refine Safe.bind (safe_update hst fun v u h => ?_) fun _ u hu => safe_pure hu
    cases hp : t.store.commitPut cfg.fold m false with
    | error e => rw [hp] at h; cases h
    | ok r =>
      rw [hp] at h
      cases h
      exact F.trans hst (hfinish t m _ _ hm hp)
  intro s
  have here := F.refl s
  refine safe_look_bind here ?_
  cases hr : s.store.replicaIntent n with
  | none => exact F.pure () s
  | some m =>
    refine safe_look_bind here ?_
    dsimp only
    split
    · split
      · exact safe_barrier_bind here (finish here hr)
      · exact safe_barrier_bind here (finish here hr)
      · exact drop s
    · split
      · exact drop s
      · refine safe_check_bind here fun ⟨info, hash⟩ _ => ?_
        dsimp only
        split
        · have hstamp := (inspectedFrame cfg n).onlyIf (c := !sameModTime cfg info.modTime m.modTime)
            (chtimes_inspected m.modTime) s
          refine Safe.bind (hstamp.mono (fun _ => F.of_steps hinspect) fun _ _ => id) ?_
          intro _ t hst
          have hr' : t.store.replicaIntent n = some m := (hst.sameRows.replicaIntent n).trans hr
          have hst := F.of_steps hinspect hst
          exact safe_barrier_bind hst (safe_barrier_bind hst (finish hst hr'))
        · exact drop s

theorem recoverReplicaLocked_indexed : (recoverReplicaLocked cfg n).Within (IndexedRun cfg n) :=
  recoverReplicaLocked_within (indexedFrame cfg n) (fun _ _ h => .single (.inspect h))
    (fun _ _ _ _ hm hp => .single (.finish hm hp)) fun s => .single (.drop s)

def EventOf (n : String) (r : Option FileMeta) : Prop :=
  ∀ ev, r = some ev → ev.name = n ∧ ev.supersededBy = ""

theorem inspectFile_returns (opts : IndexOptions) : (inspectFile cfg n opts).Returns (EventOf n) := by
  have hnone : (pure none : Sys (Option FileMeta)).Returns (EventOf n) :=
    returns_pure nofun
  have hsome : ∀ ev : FileMeta, ev.name = n → ev.supersededBy = "" → (pure (some ev) : Sys (Option FileMeta)).Returns
      (EventOf n) :=
    fun ev hev hs => returns_pure fun e he => Option.some.inj he ▸ ⟨hev, hs⟩
  have hquar : ∀ m reason, (quarantineFor cfg m reason).Returns
      (EventOf n) := by
    refine fun m reason => returns_bind fun _ => returns_bind fun _ => returns_bind fun r => ?_
    match r with
    | .error _ => exact returns_raise _
    | .ok () =>
      dsimp only
      split
      · exact returns_raise _
      · exact returns_bind fun _ => returns_raise _
  have hnonreg : ∀ existing isDir, (inspectNonRegular n existing isDir).Returns
      (EventOf n) := by
    refine fun existing isDir => returns_bind fun trusted => ?_
    split
    · exact hnone
    · split
      · exact hsome _ rfl rfl
      · exact returns_raise _
  unfold inspectFile
  split
  · exact hnone
  · refine returns_bind fun writing => ?_
    split
    · exact returns_raise _
    · refine returns_bind fun existing => returns_bind fun entry => ?_
      split
      · unfold inspectMissing
        split
        · exact returns_bind fun _ => hnone
        · split
          · exact returns_bind fun _ => hnone
          · exact returns_bind fun _ => returns_bind fun _ => hsome _ rfl rfl
      · exact hnonreg _ _
      · exact hnonreg _ _
      · refine returns_bind fun r => ?_
        match r with
        | .error (.raised e) => exact returns_raise e
        | .error .fault =>
          refine returns_bind fun r => ?_
          match r with
          | .error e => exact returns_rethrow e
          | .ok () =>
            dsimp only
            split
            · exact hquar _ _
            · exact returns_raise _
        | .ok (info, hash) =>
          refine returns_bind fun trusted => returns_bind fun damaged => ?_
          split
          · exact hquar _ _
          · split
            · exact hquar _ _
            · refine returns_bind fun _ => returns_bind fun _ => ?_
              unfold inspectVerdict
              dsimp only
              split
              · exact hsome _ rfl rfl
              · split
                · split
                  · exact hnone
                  · split
                    · exact hsome _ rfl rfl
                    · exact returns_bind fun _ => returns_bind fun _ => hnone
                · exact hsome _ rfl rfl

theorem trustedUnchanged_reads (opts : IndexOptions) : (trustedUnchanged cfg n opts).Within fun s t => t = s := by
  unfold trustedUnchanged
  split
  · exact unchangedByStat_reads
  · exact readFrame.pure _

theorem commitEvent_indexed {ev : FileMeta} (hn : ev.name = n ∧ ev.supersededBy = "") (opts : IndexOptions) :
    (commitEvent cfg ev opts).Within (IndexedRun cfg n) := by
  have F := indexedFrame cfg n
  exact F.bind (F.onlyIf F.barrier) fun _ => F.bind (F.onlyIf F.barrier) fun _ =>
    F.bind (putLocal_indexed hn.1 hn.2) fun _ => F.pure _

theorem refreshFileLocked_indexed (opts : IndexOptions) :
    (refreshFileLocked cfg n opts).Within (IndexedRun cfg n) := by
  have F := indexedFrame cfg n
  refine F.bind (F.check _) fun _ => F.bind F.barrier fun _ => F.bind (F.look _) fun writing => ?_
  split
  · exact F.raise _
  · refine F.bind recoverReplicaLocked_indexed fun _ =>
      F.bind (F.readOnly (trustedUnchanged_reads opts)) fun unchanged => ?_
    split
    · exact F.pure _
    · intro s
      refine Safe.bind (((inspectFile_inspected opts).along (inspectFile_returns opts s)).mono
        (fun _ => InspectedRun.indexed) fun _ _ => id) ?_
      rintro r t ⟨hst, hr⟩
      have hst := hst.indexed
      match r with
      | none => exact safe_pure hst
      | some ev =>
        exact (commitEvent_indexed (hr ev rfl) opts t).mono (fun _ => hst.trans) fun _ _ => hst.trans

structure Upkeep (cfg : Config) (R : Node → Node → Prop) : Prop where
  frame : Frame R
  refresh : ∀ name opts, (refreshFileLocked cfg name opts).Within R
  recover : ∀ name, (recoverReplicaLocked cfg name).Within R
  endLocal : ∀ s names, R s { s with store := s.store.endLocal names }
  recovered : ∀ s, R s { s with recovered := true }

theorem gatherPaths_reads (names paths : List String) : (gatherPaths cfg names paths).Within fun s t => t = s := by
  induction paths generalizing names with
  | nil => exact readFrame.pure _
  | cons path paths ih => exact readFrame.bind (readFrame.look _) fun more => ih _

section
variable {R : Node → Node → Prop} (U : Upkeep cfg R)

include U

theorem Upkeep.indexName (opts : IndexOptions) (name : String) : (indexName cfg opts name).Within R := by
  have F := U.frame
  refine F.bind (U.refresh name opts).attempt fun r => ?_
  split
  · exact F.pure _
  · split
    · exact F.pure _
    · exact F.raise _
  · exact F.rethrow _

theorem Upkeep.indexPathsLocked (paths : List String) (opts : IndexOptions) :
    (indexPathsLocked cfg paths opts).Within R := by
  have F := U.frame
  exact F.bind (F.readOnly (gatherPaths_reads _ _)) fun names =>
    F.forEach fun name _ => U.indexName opts name

theorem Upkeep.recoverIntents : (recoverIntents cfg).Within R := by
  have F := U.frame
  exact F.bind F.barrier fun _ => F.bind (F.look _) fun paths =>
    F.bind (U.indexPathsLocked paths {}) fun _ =>
    F.bind (F.alter fun s => U.endLocal s paths) fun _ =>
    F.bind (F.bind (F.look _) fun replicas => F.forEach fun name _ => U.recover name) fun _ =>
    F.alter U.recovered

theorem Upkeep.validateStorageLocked : (validateStorageLocked cfg).Within R := by
  have F := U.frame
  refine F.bind F.barrier fun _ => F.bind F.barrier fun _ => F.bind (F.look _) fun recovered => ?_
  split
  · exact F.pure _
  · exact U.recoverIntents

theorem Upkeep.refreshWith (name : String) (opts : IndexOptions) : (refreshWith cfg name opts).Within R :=
  U.frame.bind U.validateStorageLocked fun _ => U.refresh name opts

theorem Upkeep.beginCommitLocked {names : List String}
    (hbegin : ∀ s st, s.store.beginLocal cfg.fold names = .ok st → R s { s with store := st }) :
    (beginCommitLocked cfg names).Within R := by
  have F := U.frame
  refine F.bind (F.forEach fun name _ => F.check _) fun _ =>
    F.bind (F.forEach fun name _ => F.barrier) fun _ =>
    F.bind (U.indexPathsLocked _ _) fun _ => F.update fun s a t h => ?_
  cases hb : s.store.beginLocal cfg.fold names with
  | error e => rw [hb] at h; cases h
  | ok st =>
    rw [hb] at h
    cases h
    exact hbegin s st hb

theorem Upkeep.finishCommitLocked (names : List String) (published : String → Option Hashed) :
    (finishCommitLocked cfg names published).Within R := by
  have F := U.frame
  exact F.bind (U.indexPathsLocked _ _) fun _ => F.alter fun s => U.endLocal s names

theorem Upkeep.commitPublishedLocked (sources : List String) {names : List String}
    (published : String → Option Hashed) {fn : Sys Unit} (hfn : fn.Within R)
    (hbegin : ∀ s st, s.store.beginLocal cfg.fold names = .ok st → R s { s with store := st }) :
    (commitPublishedLocked cfg sources names published fn).Within R := by
  have F := U.frame
  refine F.bind U.validateStorageLocked fun _ => F.bind (F.onlyIf ?_) fun _ =>
    F.bind (U.beginCommitLocked hbegin) fun _ => F.bind hfn.attempt fun r => ?_
  · exact F.bind (F.forEach fun name _ => F.check _) fun _ => U.indexPathsLocked sources {}
  · split
    · exact U.finishCommitLocked names published
    · exact F.bind U.validateStorageLocked fun _ =>
        F.bind (U.finishCommitLocked names published).attempt fun _ => F.rethrow _

end

theorem validateStorageLocked_idle (hs : s.recovered = true) :
    (validateStorageLocked cfg).Safe (fun t => t = s) (fun _ t => t = s) s := by
  refine safe_barrier_bind rfl (safe_barrier_bind rfl (safe_look_bind rfl ?_))
  rw [hs]
  exact safe_pure rfl

theorem refreshWith_indexed (name : String) (opts : IndexOptions) (hs : s.recovered = true) :
    (refreshWith cfg name opts).Safe (IndexedRun cfg name s) (fun _ => IndexedRun cfg name s) s := by
  refine Safe.bind ((validateStorageLocked_idle hs).mono (fun _ ht => ht ▸ .refl) fun _ _ => id) ?_
  rintro _ t rfl
  exact refreshFileLocked_indexed opts t

end BirakFormal
