import BirakFormal.Daemon.Runs
import BirakFormal.Store.Spellings

/-!
# An interrupted replica commit

The three tails `StageReplica; Chtimes | Rename | unlink; sync; PutRemote` may stop
anywhere. The startup pass tells by the bytes on the volume whether the change had taken
effect, and either finishes the commit under the peer's clock or drops it. It never takes
the half-done state for a local write.
-/

namespace BirakFormal

open FileTrees Tables Interruption Prog

/-- What other work may not change about the name `n`. -/
structure SameAt (n : String) (s t : Node) : Prop where
  row : t.store.getFile n = s.store.getFile n
  intent : t.store.replicaIntent n = s.store.replicaIntent n
  history : t.store.history n = s.store.history n
  trust : s.store.hasLocalIntent n = false → t.store.hasLocalIntent n = false
  bytes : bytesAt t.disk n = bytesAt s.disk n
  free : s.disk.lookup n = none ∨ s.disk.lookup n = some .dir → t.disk.lookup n = none ∨ t.disk.lookup n = some .dir
  notDir : s.disk.lookup n ≠ some .dir → t.disk.lookup n ≠ some .dir

section
variable {cfg : Config} {n : String} {s t u : Node}

theorem SameAt.refl (n : String) (s : Node) : SameAt n s s :=
  ⟨rfl, rfl, rfl, id, rfl, id, id⟩

theorem Aside.free {k : String} (h : Aside k s t) (hn : s.disk.lookup n = none ∨ s.disk.lookup n = some .dir) :
    t.disk.lookup n = none ∨ t.disk.lookup n = some .dir := by
  rcases hn with hn | hn
  · exact Or.inl (h.missing hn)
  · cases ht : t.disk.lookup n with
    | none => exact Or.inl rfl
    | some e =>
      cases e with
      | dir => exact Or.inr rfl
      | leaf x =>
        by_cases hnk : n = k
        · subst hnk
          have hdir := h.dirs_below n (fun hb => hb.ne rfl) hn
          rw [ht] at hdir
          cases hdir
        · have := (h.leaves n x hnk).mp ht
          rw [hn] at this
          cases this

theorem Aside.sameAt {k : String} (h : Aside k s t) (hk : n ≠ k) : SameAt n s t where
  row := h.rows n hk
  intent := h.intents n hk
  history := h.history n hk
  trust hs := by
    rw [Store.hasLocalIntent, h.localIntents]
    exact hs
  bytes := h.bytes n
  free := h.free
  notDir hs hd := hs (h.dirs n hd)

theorem InspectedRun.sameAt (h : InspectedRun cfg n s t) : SameAt n s t where
  row := h.sameRows.getFile n
  intent := h.sameRows.replicaIntent n
  history := congrArg (List.filter _) h.sameRows.puts
  trust hs := by
    rw [Store.hasLocalIntent, h.indexed.aside.localIntents]
    exact hs
  bytes := h.indexed.aside.bytes n
  free := h.indexed.aside.free
  notDir hs hd := hs (h.indexed.aside.dirs n hd)

theorem endLocal_sameAt (paths : List String) :
    SameAt n s { s with store := s.store.endLocal paths } := by
  refine { SameAt.refl n s with trust := fun hs => ?_ }
  rw [Store.hasLocalIntent, List.any_eq_false] at hs ⊢
  exact fun p hp => hs p (List.mem_of_mem_filter hp)

end

section
variable (cfg : Config) (old : Option FileMeta) (past : List (Bool × FileMeta)) (m : FileMeta)

def OldBytes (d : Volume) : Prop :=
  match liveRow old with
  | some r => ∃ bs, bytesAt d m.name = some bs ∧ r.hash = cfg.digest.hash bs ∧ r.size = bs.length
  | none => d.lookup m.name = none ∨ d.lookup m.name = some .dir

def NewBytes (d : Volume) : Prop :=
  if m.deleted then d.lookup m.name = none ∨ d.lookup m.name = some .dir
  else ∃ bs, bytesAt d m.name = some bs ∧ m.hash = cfg.digest.hash bs ∧ m.size = bs.length

structure Interrupted (t : Node) : Prop where
  intent : t.store.replicaIntent m.name = some m
  row : t.store.getFile m.name = old
  history : t.store.history m.name = past
  trust : t.store.hasLocalIntent m.name = false
  bytes : OldBytes cfg old m t.disk ∨ NewBytes cfg m t.disk
  notDir : m.deleted = false → t.disk.lookup m.name ≠ some .dir

structure AsBefore (t : Node) : Prop where
  intent : t.store.replicaIntent m.name = none
  row : t.store.getFile m.name = old
  history : t.store.history m.name = past
  trust : t.store.hasLocalIntent m.name = false
  bytes : OldBytes cfg old m t.disk

structure AsIncoming (t : Node) : Prop where
  intent : t.store.replicaIntent m.name = none
  row : ∃ v, t.store.getFile m.name = some { m with version := v } ∧
    t.store.history m.name = (false, { m with version := v }) :: past
  trust : t.store.hasLocalIntent m.name = false
  bytes : NewBytes cfg m t.disk

def Resolved (t : Node) : Prop := AsBefore cfg old past m t ∨ AsIncoming cfg past m t

def Recoverable (t : Node) : Prop := Interrupted cfg old past m t ∨ Resolved cfg old past m t

variable {cfg old past m} {s t : Node}

theorem OldBytes.sameAt (h : OldBytes cfg old m s.disk) (hst : SameAt m.name s t) :
    OldBytes cfg old m t.disk := by
  unfold OldBytes at h ⊢
  cases hl : liveRow old with
  | none => rw [hl] at h; exact hst.free h
  | some r => rw [hl] at h; rw [hst.bytes]; exact h

theorem NewBytes.sameAt (h : NewBytes cfg m s.disk) (hst : SameAt m.name s t) :
    NewBytes cfg m t.disk := by
  unfold NewBytes at h ⊢
  split
  · next hd => rw [if_pos hd] at h; exact hst.free h
  · next hd => rw [if_neg hd] at h; rw [hst.bytes]; exact h

theorem Interrupted.sameAt (h : Interrupted cfg old past m s) (hst : SameAt m.name s t) :
    Interrupted cfg old past m t where
  intent := hst.intent.trans h.intent
  row := hst.row.trans h.row
  history := hst.history.trans h.history
  trust := hst.trust h.trust
  bytes := h.bytes.imp (fun hb => hb.sameAt hst) fun hb => hb.sameAt hst
  notDir hm := hst.notDir (h.notDir hm)

theorem Resolved.sameAt (h : Resolved cfg old past m s) (hst : SameAt m.name s t) :
    Resolved cfg old past m t := by
  rcases h with h | h
  · exact Or.inl ⟨hst.intent.trans h.intent, hst.row.trans h.row, hst.history.trans h.history,
      hst.trust h.trust, h.bytes.sameAt hst⟩
  · obtain ⟨v, hrow, hhist⟩ := h.row
    exact Or.inr ⟨hst.intent.trans h.intent,
      ⟨v, hst.row.trans hrow, hst.history.trans hhist⟩, hst.trust h.trust, h.bytes.sameAt hst⟩

theorem Recoverable.sameAt (h : Recoverable cfg old past m s) (hst : SameAt m.name s t) :
    Recoverable cfg old past m t :=
  h.imp (fun h => h.sameAt hst) fun h => h.sameAt hst

theorem putRemote_incoming (h : Interrupted cfg old past m s) (hnew : NewBytes cfg m s.disk) :
    (putRemote cfg m >>= fun _ => (pure () : Sys Unit)).Safe (Recoverable cfg old past m)
      (fun _ => AsIncoming cfg past m) s := by
  refine safe_update_bind (Or.inl h) fun v t ht => safe_pure ?_
  cases hp : s.store.commitPut cfg.fold m false with
  | error e => rw [hp] at ht; cases ht
  | ok r =>
    rw [hp] at ht
    cases ht
    have hhist := Store.history_commitPut hp m.name
    rw [if_pos rfl, h.history] at hhist
    have hlocal : r.2.localIntents = s.store.localIntents := by
      obtain ⟨names, -, -, hr⟩ := Store.commitPut_ok hp
      rw [hr]
    refine ⟨(Store.replicaIntent_commitPut hp _).trans (if_pos rfl),
      ⟨_, (Store.getFile_commitPut hp _).trans (if_pos rfl), hhist⟩, ?_, hnew⟩
    rw [Store.hasLocalIntent, hlocal]
    exact h.trust

theorem clearReplicaIntent_before (h : Interrupted cfg old past m s) (hold : OldBytes cfg old m s.disk) :
    (clearReplicaIntent m.name).Safe (Recoverable cfg old past m)
      (fun _ => AsBefore cfg old past m) s :=
  safe_alter (Or.inl h) ⟨(Store.replicaIntent_clearReplicaIntent _ _ _).trans (if_pos rfl), h.row,
    h.history, h.trust, hold⟩

theorem Resolved.intent (h : Resolved cfg old past m s) :
    s.store.replicaIntent m.name = none :=
  h.elim AsBefore.intent AsIncoming.intent

theorem Interrupted.file_or_none (h : Interrupted cfg old past m s) (hm : m.deleted = false) :
    s.disk.lookup m.name = none ∨ ∃ o, s.disk.lookup m.name = some (.leaf (.file o)) := by
  have hfile : ∀ bs, bytesAt s.disk m.name = some bs →
      ∃ o, s.disk.lookup m.name = some (.leaf (.file o)) := fun bs hbs =>
    (bytesAt_eq_some.mp hbs).imp fun _ ho => ho.1
  rcases h.bytes with hb | hb
  · unfold OldBytes at hb
    cases hl : liveRow old with
    | none =>
      rw [hl] at hb
      exact Or.inl (hb.resolve_right (h.notDir hm))
    | some r =>
      rw [hl] at hb
      obtain ⟨bs, hbs, -⟩ := hb
      exact Or.inr (hfile bs hbs)
  · unfold NewBytes at hb
    rw [if_neg (by simp [hm])] at hb
    obtain ⟨bs, hbs, -⟩ := hb
    exact Or.inr (hfile bs hbs)

theorem recoverReplicaLocked_resolves (h : Recoverable cfg old past m s) :
    (recoverReplicaLocked cfg m.name).Safe (Recoverable cfg old past m)
      (fun _ => Resolved cfg old past m) s := by
  refine safe_look_bind h ?_
  rcases h with h | h
  · rw [h.intent]
    refine safe_look_bind (Or.inl h) ?_
    dsimp only
    cases hm : m.deleted with
    | true =>
      have hnew : s.disk.lookup m.name = none ∨ s.disk.lookup m.name = some .dir →
          NewBytes cfg m s.disk := fun hfree => by rwa [NewBytes, if_pos hm]
      have hold : ∀ x, s.disk.lookup m.name = some (.leaf x) → OldBytes cfg old m s.disk := by
        intro x hx
        refine h.bytes.resolve_right fun hb => ?_
        rw [NewBytes, if_pos hm, hx] at hb
        exact hb.elim nofun nofun
      rw [if_pos rfl]
      split
      · next he =>
        exact safe_barrier_bind (Or.inl h)
          ((putRemote_incoming h (hnew (Or.inl he))).imp fun _ _ => Or.inr)
      · next he =>
        exact safe_barrier_bind (Or.inl h)
          ((putRemote_incoming h (hnew (Or.inr he))).imp fun _ _ => Or.inr)
      · next x he => exact (clearReplicaIntent_before h (hold x he)).imp fun _ _ => Or.inl
    | false =>
      have hmatch : ∀ o : FileObj, s.disk.lookup m.name = some (.leaf (.file o)) →
          ¬ (cfg.digest.hash o.bytes = m.hash ∧ o.bytes.length = m.size) → OldBytes cfg old m s.disk := by
        intro o ho hne
        refine h.bytes.resolve_right fun hb => hne ?_
        rw [NewBytes, if_neg (by simp [hm])] at hb
        obtain ⟨bs, hbs, hhash, hsize⟩ := hb
        rw [bytesAt_eq_some.mpr ⟨o, ho, rfl⟩] at hbs
        obtain rfl := Option.some.inj hbs
        exact ⟨hhash.symm, hsize.symm⟩
      rw [if_neg (by simp)]
      rcases h.file_or_none hm with hnone | ⟨o, ho⟩
      · rw [hnone]
        refine (clearReplicaIntent_before h ?_).imp fun _ _ => Or.inl
        refine h.bytes.resolve_right fun hb => ?_
        rw [NewBytes, if_neg (by simp [hm])] at hb
        obtain ⟨bs, hbs, -⟩ := hb
        obtain ⟨o, ho, -⟩ := bytesAt_eq_some.mp hbs
        rw [hnone] at ho
        cases ho
      · rw [ho]
        refine safe_check_bind (Or.inl h) fun r hr => ?_
        simp only [ho, Except.ok.injEq] at hr
        subst hr
        dsimp only
        split
        · next heq =>
          have hnew : NewBytes cfg m s.disk := by
            rw [NewBytes, if_neg (by simp [hm])]
            exact ⟨o.bytes, bytesAt_eq_some.mpr ⟨o, ho, rfl⟩, heq.1.symm, heq.2.symm⟩
          have hstamp := (inspectedFrame cfg m.name).onlyIf
            (c := !sameModTime cfg o.modTime m.modTime) (chtimes_inspected m.modTime) s
          refine Safe.bind (hstamp.mono (fun u hu => Or.inl (h.sameAt hu.sameAt))
            fun _ _ => id) fun _ u hu => ?_
          have hu' := h.sameAt hu.sameAt
          exact safe_barrier_bind (Or.inl hu') (safe_barrier_bind (Or.inl hu')
            ((putRemote_incoming hu' (hnew.sameAt hu.sameAt)).imp fun _ _ => Or.inr))
        · next hne => exact (clearReplicaIntent_before h (hmatch o ho hne)).imp fun _ _ => Or.inl
  · rw [h.intent]
    exact safe_pure h

theorem Resolved.quiet (h : Resolved cfg old past m s) : Quiet cfg s m.name := by
  refine ⟨h.intent, ?_⟩
  have hheld : ∀ (r : FileMeta) (bs : Bytes), bytesAt s.disk m.name = some bs → r.hash = cfg.digest.hash bs →
      r.size = bs.length → s.store.hasLocalIntent m.name = false → Held cfg s m.name r := by
    intro r bs hbs hhash hsize htrust
    obtain ⟨o, ho, rfl⟩ := bytesAt_eq_some.mp hbs
    exact ⟨o, ho, hhash, hsize, Or.inr htrust⟩
  have hgone : s.disk.lookup m.name = none ∨ s.disk.lookup m.name = some .dir → bytesAt s.disk m.name = none := by
    intro hfree
    unfold bytesAt
    rcases hfree with hf | hf <;> rw [hf]
  rcases h with h | h
  · have hb := h.bytes
    unfold OldBytes at hb
    rw [h.row]
    cases hl : liveRow old with
    | none => rw [hl] at hb; exact Or.inr ⟨rfl, hgone hb⟩
    | some r =>
      rw [hl] at hb
      obtain ⟨bs, hbs, hhash, hsize⟩ := hb
      exact Or.inl ⟨r, rfl, hheld r bs hbs hhash hsize h.trust⟩
  · obtain ⟨v, hrow, -⟩ := h.row
    have hb := h.bytes
    unfold NewBytes at hb
    rw [hrow]
    cases hm : m.deleted with
    | true =>
      rw [if_pos hm] at hb
      exact Or.inr ⟨liveRow_of_deleted rfl, hgone hb⟩
    | false =>
      rw [if_neg (by simp [hm])] at hb
      obtain ⟨bs, hbs, hhash, hsize⟩ := hb
      exact Or.inl ⟨_, liveRow_of_live rfl, hheld _ bs hbs hhash hsize h.trust⟩

theorem refreshFileLocked_resolves {opts : IndexOptions} (h : Recoverable cfg old past m s)
    (hpub : opts.published m.name = none) :
    (refreshFileLocked cfg m.name opts).Safe (Recoverable cfg old past m)
      (fun _ => Resolved cfg old past m) s := by
  refine safe_check_bind h fun _ _ => safe_barrier_bind h (safe_look_bind h ?_)
  split
  · exact safe_raise h
  · refine Safe.bind (recoverReplicaLocked_resolves h) fun _ t ht => ?_
    have htr : Recoverable cfg old past m t := Or.inr ht
    refine Safe.bind ((trustedUnchanged_reads opts t).mono (fun u hu => hu ▸ htr) fun _ _ => id) ?_
    rintro unchanged u rfl
    split
    · exact safe_pure ht
    · have hhon : Honest cfg u m.name (opts.published m.name) := by
        rw [hpub]
        nofun
      refine Safe.bind (((inspectFile_inspected opts).along (inspectFile_quiet ht.quiet hhon)).mono
        (fun v hv => htr.sameAt hv.sameAt) fun _ _ => id) ?_
      rintro r v ⟨hv, rfl⟩
      exact safe_pure (ht.sameAt hv.sameAt)

theorem refreshFileLocked_recoverable {opts : IndexOptions} (h : Recoverable cfg old past m s)
    (hpub : opts.published m.name = none) (name : String) :
    (refreshFileLocked cfg name opts).Safe (Recoverable cfg old past m)
      (fun _ => Recoverable cfg old past m) s := by
  by_cases hn : m.name = name
  · subst hn
    exact (refreshFileLocked_resolves h hpub).imp fun _ _ => Or.inr
  · exact (refreshFileLocked_indexed opts).safe fun t ht => h.sameAt (ht.aside.sameAt hn)

theorem indexName_recoverable (h : Recoverable cfg old past m s) (name : String) :
    (indexName cfg {} name).Safe (Recoverable cfg old past m)
      (fun _ => Recoverable cfg old past m) s := by
  refine Safe.bind (R := fun _ => Recoverable cfg old past m)
    (safe_attempt (refreshFileLocked_recoverable h rfl name)) fun r t ht => ?_
  split
  · exact safe_pure ht
  · exact safe_raise ht
  · exact safe_rethrow ht

theorem recoverAll_resolves {names : List String} (h : Recoverable cfg old past m s)
    (hnames : m.name ∈ names ∨ Resolved cfg old past m s) :
    (forEach (recoverReplicaLocked cfg) names).Safe (Recoverable cfg old past m)
      (fun _ => Resolved cfg old past m) s := by
  induction names generalizing s with
  | nil => exact safe_pure (hnames.resolve_left nofun)
  | cons name names ih =>
    by_cases hn : m.name = name
    · subst hn
      exact Safe.bind (recoverReplicaLocked_resolves h) fun _ t ht => ih (Or.inr ht) (Or.inr ht)
    · refine Safe.bind ((recoverReplicaLocked_indexed s).mono
        (fun t ht => h.sameAt (ht.aside.sameAt hn)) fun _ _ => id) fun _ t ht => ?_
      have hst := ht.aside.sameAt hn
      refine ih (h.sameAt hst) (hnames.imp (fun hmem => ?_) fun hr => hr.sameAt hst)
      exact (List.mem_cons.mp hmem).resolve_left hn

theorem mem_replicaIntentNames {s : Store} {name : String} :
    name ∈ replicaIntentNames s ↔ ∃ i, s.replicaIntent name = some i := by
  unfold replicaIntentNames
  rw [List.mem_insertionSort, List.mem_map]
  constructor
  · rintro ⟨i, hi, rfl⟩
    exact ⟨i, Table.mem_rows_iff.mp hi⟩
  · rintro ⟨i, hi⟩
    exact ⟨i, Table.find_mem hi, Table.find_key hi⟩

theorem recoverReplicas_resolves (h : Recoverable cfg old past m s) :
    (recoverReplicas cfg).Safe (Recoverable cfg old past m) (fun _ => Resolved cfg old past m) s := by
  refine safe_look_bind h (recoverAll_resolves h (h.imp (fun hi => ?_) id))
  exact mem_replicaIntentNames.mpr ⟨m, hi.intent⟩

theorem validateStorageLocked_resolves (h : Recoverable cfg old past m s) (hrec : s.recovered = false) :
    (validateStorageLocked cfg).Safe (Recoverable cfg old past m)
      (fun _ => Resolved cfg old past m) s := by
  refine safe_barrier_bind h (safe_barrier_bind h (safe_look_bind h ?_))
  rw [hrec]
  refine safe_barrier_bind h (safe_look_bind h ?_)
  have hindex : (indexPathsLocked cfg (s.store.localIntents.insertionSort (· ≤ ·)) {}).Safe
      (Recoverable cfg old past m) (fun _ => Recoverable cfg old past m) s := by
    refine Safe.bind ((gatherPaths_reads _ _ s).mono (fun t ht => ht ▸ h) fun _ _ => id) ?_
    rintro names t rfl
    exact safe_forEach (fun name _ u hu => indexName_recoverable hu name) h
  refine Safe.bind hindex fun _ t ht => safe_alter_bind ht ?_
  have hu := ht.sameAt (endLocal_sameAt (s.store.localIntents.insertionSort (· ≤ ·)))
  exact Safe.bind (recoverReplicas_resolves hu) fun _ v hv =>
    safe_alter (Or.inr hv) (hv.sameAt { SameAt.refl _ _ with })

def startup (cfg : Config) (name : String) : Sys Unit := do
  validateStorageLocked cfg
  refreshFileLocked cfg name {}

theorem startup_resolves (h : Recoverable cfg old past m s) :
    (startup cfg m.name).Safe (fun _ => True) (fun _ => Resolved cfg old past m) s.restarted := by
  have hrestart : Recoverable cfg old past m s.restarted := h.sameAt { SameAt.refl _ _ with }
  refine Safe.bind ((validateStorageLocked_resolves hrestart rfl).weaken fun _ _ => id) ?_
  exact fun _ t ht => (refreshFileLocked_resolves (Or.inr ht) rfl).weaken fun _ _ => id

inductive ReplicaTail where
  | restamp (m : FileMeta)
  | publish (m : FileMeta) (temporary : Nat)
  | tombstone (m : FileMeta)

def ReplicaTail.incoming : ReplicaTail → FileMeta
  | .restamp m | .publish m _ | .tombstone m => m

def ReplicaTail.prog (cfg : Config) : ReplicaTail → Sys Unit
  | .restamp m => restampReplica cfg m
  | .publish m temporary => publishReplica cfg m temporary
  | .tombstone m => commitTombstone cfg m

/-- What the callers of a tail have established about its input: equal live bytes, a verified
transfer and a destination that is no directory, or a deletion. -/
def ReplicaTail.Fits (cfg : Config) (s : Node) : ReplicaTail → Prop
  | .restamp m => m.deleted = false ∧
      ∃ r, liveRow (s.store.getFile m.name) = some r ∧ r.hash = m.hash ∧ r.size = m.size
  | .publish m temporary => m.deleted = false ∧ s.disk.lookup m.name ≠ some .dir ∧
      ∃ o, s.scratch.find temporary = some o ∧ m.hash = cfg.digest.hash o.2.bytes ∧ m.size = o.2.bytes.length
  | .tombstone m => m.deleted = true

structure ReplicaTail.Ready (cfg : Config) (s : Node) (op : ReplicaTail) : Prop where
  intent : s.store.replicaIntent op.incoming.name = none
  trust : s.store.hasLocalIntent op.incoming.name = false
  bytes : OldBytes cfg (s.store.getFile op.incoming.name) op.incoming s.disk
  fits : op.Fits cfg s

theorem stageReplica_interrupted (h : AsBefore cfg old past m s)
    (hdir : m.deleted = false → s.disk.lookup m.name ≠ some .dir) :
    (stageReplica m).Safe (Recoverable cfg old past m) (fun _ t =>
      Interrupted cfg old past m t ∧ t.disk = s.disk ∧ t.scratch = s.scratch) s :=
  safe_alter (Or.inr (Or.inl h)) ⟨⟨(Store.replicaIntent_stageReplica _ _ _).trans (if_pos rfl),
    h.row, h.history, h.trust, Or.inl h.bytes, hdir⟩, rfl, rfl⟩

theorem notDir_of_bytes {d : Volume} {name : String} {bs : Bytes} (h : bytesAt d name = some bs) :
    d.lookup name ≠ some .dir := by
  obtain ⟨o, ho, -⟩ := bytesAt_eq_some.mp h
  rw [ho]
  nofun

theorem commit_incoming (h : Interrupted cfg old past m s) (hnew : NewBytes cfg m s.disk) :
    (fsync >>= fun _ => putRemote cfg m >>= fun _ => (pure () : Sys Unit)).Safe
      (Recoverable cfg old past m) (fun _ => AsIncoming cfg past m) s :=
  safe_barrier_bind (Or.inl h) (putRemote_incoming h hnew)

theorem restampReplica_recoverable (h : AsBefore cfg old past m s) (hm : m.deleted = false)
    {r : FileMeta} (hr : liveRow old = some r) (hhash : r.hash = m.hash) (hsize : r.size = m.size) :
    (restampReplica cfg m).Safe (Recoverable cfg old past m) (fun _ => AsIncoming cfg past m) s := by
  have hb := h.bytes
  unfold OldBytes at hb
  rw [hr] at hb
  obtain ⟨bs, hbs, hbhash, hbsize⟩ := hb
  have hnew : NewBytes cfg m s.disk := by
    rw [NewBytes, if_neg (by simp [hm])]
    exact ⟨bs, hbs, hhash ▸ hbhash, hsize ▸ hbsize⟩
  refine Safe.bind (stageReplica_interrupted h fun _ => notDir_of_bytes hbs) ?_
  rintro _ t ⟨ht, hdisk, -⟩
  refine Safe.bind ((@chtimes_inspected cfg m.name m.modTime t).mono
    (fun u hu => Or.inl (ht.sameAt hu.sameAt)) fun _ _ => id) fun _ u hu => ?_
  refine commit_incoming (ht.sameAt hu.sameAt) (NewBytes.sameAt ?_ hu.sameAt)
  exact hdisk ▸ hnew

theorem publishReplica_recoverable (h : AsBefore cfg old past m s) (hm : m.deleted = false)
    (hdir : s.disk.lookup m.name ≠ some .dir) {temporary : Nat} {o : Nat × FileObj}
    (ho : s.scratch.find temporary = some o) (hhash : m.hash = cfg.digest.hash o.2.bytes)
    (hsize : m.size = o.2.bytes.length) :
    (publishReplica cfg m temporary).Safe (Recoverable cfg old past m)
      (fun _ => AsIncoming cfg past m) s := by
  refine Safe.bind (stageReplica_interrupted h fun _ => hdir) ?_
  rintro _ t ⟨ht, -, hscratch⟩
  refine safe_update_bind (Or.inl ht) fun _ u hu => ?_
  rw [hscratch, ho] at hu
  dsimp only at hu
  cases hp : t.place m.name o.2 with
  | error e => rw [hp] at hu; cases hu
  | ok v =>
    rw [hp] at hu
    cases hu
    obtain ⟨d, hd, rfl⟩ := place_ok hp
    obtain ⟨-, -, hlook⟩ := FileTree.write_eq_some hd
    have hat : bytesAt d m.name = some o.2.bytes :=
      bytesAt_eq_some.mpr ⟨o.2, (hlook m.name).trans (if_pos rfl), rfl⟩
    have hnew : NewBytes cfg m d := by
      rw [NewBytes, if_neg (by simp [hm])]
      exact ⟨o.2.bytes, hat, hhash, hsize⟩
    exact commit_incoming ⟨ht.intent, ht.row, ht.history, ht.trust, Or.inr hnew, fun _ => notDir_of_bytes hat⟩ hnew

theorem removeReplicaFile_recoverable (h : Interrupted cfg old past m s) (hm : m.deleted = true) :
    (removeReplicaFile m.name).Safe (Recoverable cfg old past m) (fun _ t =>
      Interrupted cfg old past m t ∧ NewBytes cfg m t.disk) s := by
  have hnew : ∀ d : Volume, d.lookup m.name = none ∨ d.lookup m.name = some .dir →
      NewBytes cfg m d := fun d hfree => by rwa [NewBytes, if_pos hm]
  refine safe_look_bind (Or.inl h) ?_
  split
  · next he => exact safe_pure ⟨h, hnew _ (Or.inl he)⟩
  · next he => exact safe_pure ⟨h, hnew _ (Or.inr he)⟩
  · exact safe_raise (Or.inl h)
  · refine safe_update (Or.inl h) fun _ t ht => ?_
    split at ht
    · next d hd =>
      cases ht
      have hgone := hnew d (Or.inl (((FileTree.remove_eq_some hd).2 m.name).trans (if_pos rfl)))
      exact ⟨⟨h.intent, h.row, h.history, h.trust, Or.inr hgone, fun hm' => by simp [hm] at hm'⟩, hgone⟩
    · cases ht

theorem commitTombstone_recoverable (h : AsBefore cfg old past m s) (hm : m.deleted = true) :
    (commitTombstone cfg m).Safe (Recoverable cfg old past m) (fun _ => AsIncoming cfg past m) s := by
  refine Safe.bind (stageReplica_interrupted h fun hm' => by simp [hm] at hm') ?_
  rintro _ t ⟨ht, -, -⟩
  refine Safe.bind (removeReplicaFile_recoverable ht hm) ?_
  rintro _ u ⟨hu, hnew⟩
  refine safe_barrier_bind (Or.inl hu) ?_
  have hclean := (inspectedFrame cfg m.name).onlyIf (c := decide (m.supersededBy = ""))
    (cleanEmptyParents_inspected (n := m.name) fun d hd => hd) u
  refine Safe.bind (hclean.mono (fun v hv => Or.inl (hu.sameAt hv.sameAt)) fun _ _ => id) ?_
  exact fun _ v hv => putRemote_incoming (hu.sameAt hv.sameAt) (hnew.sameAt hv.sameAt)

theorem ReplicaTail.recoverable {op : ReplicaTail} (h : op.Ready cfg s) : (op.prog cfg).Safe
      (Recoverable cfg (s.store.getFile op.incoming.name) (s.store.history op.incoming.name) op.incoming)
      (fun _ => AsIncoming cfg (s.store.history op.incoming.name) op.incoming) s := by
  have hbefore : AsBefore cfg (s.store.getFile op.incoming.name)
      (s.store.history op.incoming.name) op.incoming s := ⟨h.intent, rfl, rfl, h.trust, h.bytes⟩
  have hfits := h.fits
  cases op with
  | restamp m =>
    obtain ⟨hm, r, hr, hhash, hsize⟩ := hfits
    exact restampReplica_recoverable hbefore hm hr hhash hsize
  | publish m temporary =>
    obtain ⟨hm, hdir, o, ho, hhash, hsize⟩ := hfits
    exact publishReplica_recoverable hbefore hm hdir ho hhash hsize
  | tombstone m => exact commitTombstone_recoverable hbefore hfits

/-- No commit but one of `n` is pending, and `n` does not collide with a reserved spelling. -/
structure Alone (cfg : Config) (n : String) (s : Node) : Prop where
  localIntents : s.store.localIntents = []
  intents : ∀ k i, s.store.replicaIntent k = some i → k = n
  spelling : s.store.checkName cfg.fold n = .ok ()

variable {n : String}

theorem aloneFrame (cfg : Config) (n : String) : Frame fun s t => Alone cfg n s → Alone cfg n t :=
  ⟨fun _ => id, fun h h' hs => h' (h hs)⟩

theorem Alone.of_commitPut {isLocal : Bool} {v : Int} {st : Store}
    (h : Alone cfg m.name s) (hp : s.store.commitPut cfg.fold m isLocal = .ok (v, st)) :
    Alone cfg m.name { s with store := st } := by
  have hintents : ∀ k i, st.replicaIntent k = some i → k = m.name := by
    intro k i hi
    rw [Store.replicaIntent_commitPut hp] at hi
    split at hi
    · cases hi
    · exact h.intents k i hi
  obtain ⟨names, hbind, -, rfl⟩ := Store.commitPut_ok hp
  exact ⟨h.localIntents, hintents, checkName_of_bindName hbind⟩

theorem Indexed.alone (hst : Indexed cfg n s t) (h : Alone cfg n s) : Alone cfg n t := by
  cases hst with
  | inspect hst =>
    refine ⟨hst.aside.localIntents.trans h.localIntents,
      fun k i hi => h.intents k i (hst.sameRows.replicaIntent k ▸ hi), ?_⟩
    cases hst with
    | stamp ho ht =>
      obtain ⟨d, -, rfl⟩ := place_ok ht
      exact h.spelling
    | rmdir | fence | setQuarantined | unfence | enqueue | defer => exact h.spelling
  | putLocal hn _ hp => subst hn; exact h.of_commitPut hp
  | finish hm hp =>
    have hn := Store.replicaIntent_name hm
    subst hn
    exact h.of_commitPut hp
  | drop =>
    refine ⟨h.localIntents, fun k i hi => ?_, h.spelling⟩
    rw [Store.replicaIntent_clearReplicaIntent] at hi
    split at hi
    · cases hi
    · exact h.intents k i hi

theorem IndexedRun.alone (hst : IndexedRun cfg n s t) (h : Alone cfg n s) : Alone cfg n t :=
  (aloneFrame cfg n).of_steps (fun _ _ => Indexed.alone) hst h

theorem SameIndex.alone (hst : SameIndex s t) (h : Alone cfg n s) : Alone cfg n t := by
  obtain ⟨h1, h2, h3⟩ := h
  rw [← hst.1] at h1 h2 h3
  exact ⟨h1, h2, h3⟩

theorem stageReplica_alone (m : FileMeta) :
    (stageReplica m).Within fun s t => Alone cfg m.name s → Alone cfg m.name t := by
  refine (aloneFrame cfg m.name).alter fun s h => ⟨h.localIntents, fun k i hi => ?_, h.spelling⟩
  rw [Store.replicaIntent_stageReplica] at hi
  split at hi
  · next hk => exact hk
  · exact h.intents k i hi

theorem putRemote_alone (m : FileMeta) :
    (putRemote cfg m).Within fun s t => Alone cfg m.name s → Alone cfg m.name t := by
  refine (aloneFrame cfg m.name).update fun s a t h hs => ?_
  cases hp : s.store.commitPut cfg.fold m false with
  | error e => rw [hp] at h; cases h
  | ok r =>
    rw [hp] at h
    cases h
    exact hs.of_commitPut hp

theorem ReplicaTail.alone (op : ReplicaTail) :
    (op.prog cfg).Within fun s t => Alone cfg op.incoming.name s → Alone cfg op.incoming.name t := by
  have F := aloneFrame cfg op.incoming.name
  have hvol : ∀ {α : Type} {p : Sys α}, p.Within SameIndex →
      p.Within fun s t => Alone cfg op.incoming.name s → Alone cfg op.incoming.name t :=
    fun h => h.mono fun _ _ => SameIndex.alone
  cases op with
  | restamp m =>
    exact F.bind (stageReplica_alone m) fun _ => F.bind (hvol (chtimes_sameIndex _ _)) fun _ =>
      F.bind F.barrier fun _ => F.bind (putRemote_alone m) fun _ => F.pure _
  | publish m temporary =>
    exact F.bind (stageReplica_alone m) fun _ => F.bind (hvol (renameScratch_sameIndex _ _)) fun _ =>
      F.bind F.barrier fun _ => F.bind (putRemote_alone m) fun _ => F.pure _
  | tombstone m =>
    exact F.bind (stageReplica_alone m) fun _ => F.bind (hvol (removeReplicaFile_sameIndex _))
      fun _ => F.bind F.barrier fun _ =>
      F.bind (hvol (sameIndexFrame.onlyIf (cleanEmptyParents_sameIndex _))) fun _ =>
      F.bind (putRemote_alone m) fun _ => F.pure _

theorem putRemote_finishes (hname : s.store.checkName cfg.fold m.name = .ok ()) (hm : ClockValid m) :
    (putRemote cfg m >>= fun _ => (pure () : Sys Unit)).Finishes (fun _ _ => True) s := by
  obtain ⟨names, hbind⟩ := bindName_of_check hname
  have hclock : validateClock m = .ok () := hm
  have hput : ∃ r, s.store.commitPut cfg.fold m false = .ok r := by
    unfold Store.commitPut
    rw [hbind]
    dsimp only
    rw [hclock]
    exact ⟨_, rfl⟩
  obtain ⟨r, hr⟩ := hput
  refine finishes_update_bind (a := r.1) (t := { s with store := r.2 }) ?_ (finishes_pure trivial)
  rw [hr]
  rfl

theorem recoverReplicaLocked_finishes (hvalid : ∀ m, s.store.replicaIntent n = some m → ClockValid m)
    (hname : s.store.replicaIntent n ≠ none → s.store.checkName cfg.fold n = .ok ())
    (hfile : ∀ m, s.store.replicaIntent n = some m → m.deleted = false →
      s.disk.lookup n = none ∨ ∃ o, s.disk.lookup n = some (.leaf (.file o))) :
    (recoverReplicaLocked cfg n).Finishes (fun _ _ => True) s := by
  have hdrop : (clearReplicaIntent n).Finishes (fun _ _ => True) s := finishes_alter trivial
  refine finishes_look_bind ?_
  cases hr : s.store.replicaIntent n with
  | none => exact finishes_pure trivial
  | some m =>
    have hm := hvalid m hr
    have hn := Store.replicaIntent_name hr
    have hput : ∀ t : Node, SameIndex s t →
        (putRemote cfg m >>= fun _ => (pure () : Sys Unit)).Finishes (fun _ _ => True) t := by
      intro t ht
      refine putRemote_finishes ?_ hm
      rw [ht.1, hn]
      exact hname (by rw [hr]; nofun)
    refine finishes_look_bind ?_
    dsimp only
    cases hdel : m.deleted with
    | true =>
      rw [if_pos rfl]
      split
      · exact finishes_barrier_bind (hput s ⟨rfl, rfl⟩)
      · exact finishes_barrier_bind (hput s ⟨rfl, rfl⟩)
      · exact hdrop
    | false =>
      rw [if_neg (by simp)]
      rcases hfile m hr hdel with hnone | ⟨o, ho⟩
      · rw [hnone]
        exact hdrop
      · rw [ho]
        refine finishes_check_bind (a := (o, cfg.digest.hash o.bytes)) (by rw [ho]) ?_
        dsimp only
        split
        · have hstamp : ∀ c, (onlyIf c (chtimes cfg n m.modTime)).Finishes (fun _ _ => True) s :=
            fun c => finishes_onlyIf (fun _ => chtimes_finishes ho _) fun _ => trivial
          refine Finishes.bind ((hstamp _).and_safe
            (sameIndexFrame.onlyIf (chtimes_sameIndex _ _) s)) ?_
          rintro _ u ⟨-, hu⟩
          exact finishes_barrier_bind (finishes_barrier_bind (hput u hu))
        · exact hdrop

theorem Recoverable.finishes (h : Recoverable cfg old past m s) (ha : Alone cfg m.name s)
    (hm : ClockValid m) : (recoverReplicaLocked cfg m.name).Finishes (fun _ _ => True) s := by
  have hintent : ∀ i, s.store.replicaIntent m.name = some i → i = m ∧ Interrupted cfg old past m s := by
    intro i hi
    rcases h with h | h
    · exact ⟨Option.some.inj (hi.symm.trans h.intent), h⟩
    · rw [h.intent] at hi
      cases hi
  refine recoverReplicaLocked_finishes (fun i hi => (hintent i hi).1 ▸ hm) (fun _ => ha.spelling) ?_
  intro i hi hdel
  obtain ⟨rfl, hint⟩ := hintent i hi
  exact hint.file_or_none hdel

theorem validateStorageLocked_finishes {I : Node → Prop} (hrec : s.recovered = false)
    (hlocal : s.store.localIntents = [])
    (h : (recoverReplicas cfg).Finishes (fun _ => I) { s with store := s.store.endLocal [] }) :
    (validateStorageLocked cfg).Finishes (fun _ t => ∃ u, I u ∧ t = { u with recovered := true }) s := by
  refine finishes_barrier_bind (finishes_barrier_bind (finishes_look_bind ?_))
  rw [hrec]
  refine finishes_barrier_bind (finishes_look_bind ?_)
  rw [hlocal]
  have horder : cfg.mapOrder (([] : List String).dedup) = [] :=
    List.Perm.eq_nil (cfg.mapOrder_perm _)
  have hindex : (indexPathsLocked cfg (([] : List String).insertionSort (· ≤ ·)) {}).Finishes
      (fun _ t => t = s) s := by
    refine finishes_pure_bind ?_
    rw [horder]
    exact finishes_pure rfl
  refine Finishes.bind hindex ?_
  rintro _ t rfl
  exact finishes_alter_bind (Finishes.bind h fun _ u hu => finishes_alter ⟨u, hu, rfl⟩)

theorem recoverReplicas_alone (h : Recoverable cfg old past m s) (ha : Alone cfg m.name s) (hm : ClockValid m) :
    (recoverReplicas cfg).Finishes (fun _ t => Alone cfg m.name t ∧ t.writers = s.writers) s := by
  let I : Node → Prop := fun t => Recoverable cfg old past m t ∧ Alone cfg m.name t ∧ t.writers = s.writers
  refine (finishes_look_bind (finishes_forEach (I := I) (fun k hk t ht => ?_) ⟨h, ha, rfl⟩)).imp
    fun _ _ ht => ht.2
  obtain ⟨i, hi⟩ := mem_replicaIntentNames.mp hk
  obtain rfl := ha.intents k i hi
  refine (((ht.1.finishes ht.2.1 hm).and_safe (recoverReplicaLocked_resolves ht.1)).and_safe
    (recoverReplicaLocked_indexed t)).imp ?_
  rintro _ u ⟨⟨-, hu⟩, hrun⟩
  exact ⟨Or.inr hu, hrun.alone ht.2.1, hrun.aside.writers.trans ht.2.2⟩

theorem startup_finishes (h : Recoverable cfg old past m s) (ha : Alone cfg m.name s)
    (hm : ClockValid m) : (startup cfg m.name).Finishes (fun _ _ => True) s.restarted := by
  have hrestart : Recoverable cfg old past m s.restarted := h.sameAt { SameAt.refl _ _ with }
  have ha' : Alone cfg m.name s.restarted := ⟨ha.localIntents, ha.intents, ha.spelling⟩
  have hend : Alone cfg m.name { s.restarted with store := s.restarted.store.endLocal [] } :=
    ⟨congrArg (List.filter _) ha.localIntents, ha.intents, ha.spelling⟩
  refine Finishes.bind ((validateStorageLocked_finishes rfl ha'.localIntents (recoverReplicas_alone
    (hrestart.sameAt (endLocal_sameAt [])) hend hm)).and_safe
      (validateStorageLocked_resolves hrestart rfl)) ?_
  rintro _ t ⟨⟨u, ⟨hu, hwriters⟩, rfl⟩, ht⟩
  refine refreshFileLocked_finishes ht.quiet rfl ?_ rfl hu.spelling
  rw [hwriters]
  nofun

end

/-- A replica commit stopped at any of its calls. Whenever the startup pass and the first
look at the name succeed, the name has its old row and its old bytes, or the incoming state
and its bytes; no intent is left and no local write was recorded. With nothing else pending
they do succeed. -/
theorem interrupted_replica_recovers (cfg : Config) (s : Node) (op : ReplicaTail)
    (h : op.Ready cfg s) (fs : List Fault) :
    (∀ gs u, (startup cfg op.incoming.name).run gs ((op.prog cfg).run fs s).2.restarted = (.returned (.ok ()), u) →
      u.store.replicaIntent op.incoming.name = none ∧
      ((u.store.getFile op.incoming.name = s.store.getFile op.incoming.name ∧
          OldBytes cfg (s.store.getFile op.incoming.name) op.incoming u.disk ∧
          u.store.history op.incoming.name = s.store.history op.incoming.name) ∨
        ∃ v, u.store.getFile op.incoming.name = some { op.incoming with version := v } ∧
          NewBytes cfg op.incoming u.disk ∧
          u.store.history op.incoming.name =
            (false, { op.incoming with version := v }) :: s.store.history op.incoming.name)) ∧
    (Alone cfg op.incoming.name s → ClockValid op.incoming →
      ∃ u, (startup cfg op.incoming.name).exec ((op.prog cfg).run fs s).2.restarted = (.ok (), u)) := by
  have hstop := (ReplicaTail.recoverable h).stops (fun _ _ ht => Or.inr (Or.inr ht))
    ⟨fs, rfl⟩
  refine ⟨fun gs u hu => ?_, fun ha hm => ?_⟩
  · have hrun := Sat.run (startup_resolves hstop) gs
    rw [hu] at hrun
    refine ⟨Resolved.intent hrun, hrun.imp (fun hb => ⟨hb.row, hb.bytes, hb.history⟩) fun hn => ?_⟩
    obtain ⟨v, hrow, hhist⟩ := hn.row
    exact ⟨v, hrow, hn.bytes, hhist⟩
  · have ha' := op.alone.stops ⟨fs, rfl⟩ ha
    obtain ⟨a, u, hu, -⟩ := startup_finishes hstop ha' hm
    exact ⟨u, hu⟩

theorem deletion_ready : (ReplicaTail.tombstone deletedA).Ready plainConfig nodeWithA := by
  have hrow : nodeWithA.store.getFile "a" = some { writtenA with version := 1 } := by decide +kernel
  refine ⟨by decide +kernel, by decide +kernel, ?_, rfl⟩
  show OldBytes plainConfig (nodeWithA.store.getFile "a") deletedA nodeWithA.disk
  rw [OldBytes, hrow, liveRow_of_live rfl]
  exact ⟨[], by decide +kernel, rfl, rfl⟩

/-- The process stops after it removed "a" and before it recorded the deletion. -/
theorem interrupted_replica_recovers_unlinked :
    ∃ u, (startup plainConfig "a").exec (((ReplicaTail.tombstone deletedA).prog plainConfig).run
        [.pass, .pass, .pass, .crash] nodeWithA).2.restarted = (.ok (), u) ∧
      u.store.replicaIntent "a" = none := by
  obtain ⟨hpart, hall⟩ := interrupted_replica_recovers plainConfig nodeWithA
    (.tombstone deletedA) deletion_ready [.pass, .pass, .pass, .crash]
  have halone : Alone plainConfig "a" nodeWithA := by
    have hnil : nodeWithA.store.replicaIntents.rows = [] := by decide +kernel
    refine ⟨by decide +kernel, fun k i hi => ?_, by decide +kernel⟩
    have := Table.find_mem hi
    rw [hnil] at this
    cases this
  obtain ⟨u, hu⟩ := hall halone (by decide)
  have hrun : (startup plainConfig "a").run [] (((ReplicaTail.tombstone deletedA).prog
      plainConfig).run [.pass, .pass, .pass, .crash] nodeWithA).2.restarted = (.returned (.ok ()), u) := by
    rw [run_nil]
    exact congrArg (fun r => (Outcome.returned r.1, r.2)) hu
  exact ⟨u, hu, (hpart [] u hrun).1⟩

end BirakFormal
