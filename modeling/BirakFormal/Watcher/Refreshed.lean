import BirakFormal.Watcher.Frames

/-!
# What a successful refresh says

When indexing a name returns without error, its row describes what is on the volume: a live
row stands for a regular file with those bytes, and no interrupted commit is left.
-/

namespace BirakFormal

open FileTrees Interruption Prog

def Held (cfg : Config) (s : Node) (n : String) (r : FileMeta) : Prop :=
  ∃ o, s.disk.lookup n = some (.leaf (.file o)) ∧ r.hash = cfg.digest.hash o.bytes ∧ r.size = o.bytes.length ∧
    (sameModTime cfg o.modTime r.modTime = true ∨ s.store.hasLocalIntent n = false)

/-- A hash that was computed before the lock was taken is that of the bytes at the name. -/
def Honest (cfg : Config) (s : Node) (n : String) (published : Option Hashed) : Prop :=
  ∀ h bs, published = some h → bytesAt s.disk n = some bs → h.hash = cfg.digest.hash bs

def Vouched (cfg : Config) (s : Node) (n : String) (published : Option Hashed) : Prop :=
  ∀ h o, published = some h → s.disk.lookup n = some (.leaf (.file o)) → o.ino = h.info.ino →
    h.hash = cfg.digest.hash o.bytes

theorem Honest.vouched {cfg : Config} {s : Node} {n : String} {published : Option Hashed}
    (h : Honest cfg s n published) : Vouched cfg s n published :=
  fun x o hx ho _ => h x o.bytes hx (bytesAt_eq_some.mpr ⟨o, ho, rfl⟩)

/-- What an inspection of `n` that returned `verdict` found. -/
def Found (cfg : Config) (n : String) (existing : Option FileMeta) (t : Node) :
    Option FileMeta → Prop
  | none => ∀ m, liveRow existing = some m → Held cfg t n m
  | some ev => ev.name = n ∧ (ev.deleted = true ∧ (t.disk.lookup n = none ∨ t.disk.lookup n = some .dir) ∨
        ev.deleted = false ∧ Held cfg t n ev)

variable {cfg : Config} {n : String}

theorem sameModTime_self (cfg : Config) (x : Int64) : sameModTime cfg x x = true := by
  unfold sameModTime
  rw [Int64.sub_self]
  split
  · rfl
  · next h =>
    have h1 : (1 : Int64) < cfg.granularity := Int64.not_le.mp h
    have h0 : (0 : Int64) < cfg.granularity := Int64.lt_trans (by decide) h1
    simpa [absDuration] using h0

theorem Aside.missing {s t : Node} (h : Aside n s t) {k : String} (hk : s.disk.lookup k = none) :
    t.disk.lookup k = none := by
  cases ht : t.disk.lookup k with
  | none => rfl
  | some e =>
    cases e with
    | dir => have := h.dirs k ht; rw [hk] at this; cases this
    | leaf x =>
      by_cases hkn : k = n
      · subst hkn
        cases x with
        | special => have := h.special.mp ht; rw [hk] at this; cases this
        | file o =>
          have hb : bytesAt t.disk k = some o.bytes := bytesAt_eq_some.mpr ⟨o, ht, rfl⟩
          rw [h.bytes] at hb
          obtain ⟨o', ho', -⟩ := bytesAt_eq_some.mp hb
          rw [hk] at ho'
          cases ho'
      · have := (h.leaves k x hkn).mp ht
        rw [hk] at this
        cases this

theorem quarantineFor_fails (m : FileMeta) (reason : String) :
    (quarantineFor cfg m reason).Returns fun _ => False := by
  refine returns_bind fun _ => returns_bind fun _ => returns_bind fun r => ?_
  match r with
  | .error _ => exact returns_raise _
  | .ok () =>
    dsimp only
    split
    · exact returns_raise _
    · exact returns_bind fun _ => returns_raise _

theorem readFailed_fails (existing : Option FileMeta) (e : Failure Err) :
    (readFailed cfg existing e).Returns fun _ => False := by
  cases e with
  | raised e => exact returns_raise e
  | fault =>
    refine returns_bind fun r => ?_
    match r with
    | .error e => exact returns_rethrow e
    | .ok () =>
      dsimp only
      split
      · exact quarantineFor_fails _ _
      · exact returns_raise _

variable {s : Node} {o : FileObj}

theorem snapshotWith_finds {published : Option Hashed}
    (ho : s.disk.lookup n = some (.leaf (.file o))) (hpub : Vouched cfg s n published) :
    (snapshotWith cfg n published).Safe (fun t => t = s)
      (fun r t => t = s ∧ r = (o.key, cfg.digest.hash o.bytes)) s := by
  have hsnap : (snapshot cfg n >>= fun r => (pure (r.1.key, r.2) : Sys _)).Safe (fun t => t = s)
      (fun r t => t = s ∧ r = (o.key, cfg.digest.hash o.bytes)) s := by
    refine safe_check_bind rfl fun r hr => safe_pure ⟨rfl, ?_⟩
    simp only [ho, Except.ok.injEq] at hr
    rw [← hr]
  cases published with
  | none => exact hsnap
  | some h =>
    refine safe_attempt_look_bind rfl hsnap ?_
    simp only [ho]
    split
    · next hkey => exact safe_pure ⟨rfl, by rw [← hkey, hpub h o rfl ho (congrArg ObjectKey.ino hkey)]⟩
    · exact hsnap

def SameView (s t : Node) : Prop :=
  t.disk = s.disk ∧ t.store.localIntents = s.store.localIntents

theorem sameViewFrame : Frame SameView :=
  ⟨fun _ => ⟨rfl, rfl⟩, fun h h' => ⟨h'.1.trans h.1, h'.2.trans h.2⟩⟩

theorem clearIntegrity_view (verified : Option ObjectKey) : (clearIntegrity n verified).Within SameView := by
  have F := sameViewFrame
  refine F.bind (F.look _) fun fenced => ?_
  split
  · exact F.pure ()
  · exact F.bind (F.onlyIf F.barrier) fun _ => F.alter fun s => ⟨rfl, rfl⟩

theorem inspectVerdict_finds (existing : Option FileMeta) (trusted : Bool)
    (ho : s.disk.lookup n = some (.leaf (.file o))) (htrust : trusted = s.store.hasLocalIntent n) :
    (inspectVerdict cfg n existing o.key (cfg.digest.hash o.bytes) trusted).Safe (fun _ => True)
      (fun r t => Found cfg n existing t r) s := by
  have hevent : Found cfg n existing s (some
      { name := n, modTime := o.modTime, size := o.bytes.length, hash := cfg.digest.hash o.bytes }) :=
    ⟨rfl, Or.inr ⟨rfl, o, ho, rfl, rfl, Or.inl (sameModTime_self cfg _)⟩⟩
  unfold inspectVerdict
  dsimp only
  split
  · exact safe_pure hevent
  · next e he =>
    have hnone : ∀ t, (∀ m, liveRow existing = some m → Held cfg t n m) ↔ Held cfg t n e :=
      fun t => ⟨fun h => h e he, fun h m hm => Option.some.inj (he.symm.trans hm) ▸ h⟩
    split
    · next heq =>
      split
      · next hsame => exact safe_pure ((hnone s).mpr ⟨o, ho, heq.1, heq.2, Or.inl hsame⟩)
      · split
        · exact safe_pure hevent
        · next hnt =>
          refine safe_update_bind trivial fun a t ht => safe_barrier_bind trivial (safe_pure ?_)
          simp only [ho] at ht
          cases hp : s.place n { o with modTime := cfg.stamp e.modTime } with
          | error err => rw [hp] at ht; cases ht
          | ok u =>
            rw [hp] at ht
            cases ht
            obtain ⟨d, hd, rfl⟩ := place_ok hp
            obtain ⟨-, -, hlook⟩ := FileTree.write_eq_some hd
            refine (hnone _).mpr ⟨{ o with modTime := cfg.stamp e.modTime }, ?_, heq.1, heq.2, ?_⟩
            · exact (hlook n).trans (if_pos rfl)
            · exact Or.inr (by rw [← htrust]; simpa using hnt)
    · exact safe_pure hevent

theorem inspectRegular_finds (existing : Option FileMeta)
    (opts : IndexOptions) (ho : s.disk.lookup n = some (.leaf (.file o)))
    (hpub : Vouched cfg s n (opts.published n)) :
    (inspectRegular cfg n existing opts).Safe (fun _ => True)
      (fun r t => Found cfg n existing t r) s := by
  have hfail : ∀ m reason t, (quarantineFor cfg m reason).Safe (fun _ => True)
      (fun r t => Found cfg n existing t r) t :=
    fun m reason t => (quarantineFor_fails m reason t).imp fun _ _ => False.elim
  refine Safe.bind (R := fun r t => match r with
      | .error _ => True
      | .ok p => t = s ∧ p = (o.key, cfg.digest.hash o.bytes))
    (safe_attempt (Sat.mono (snapshotWith_finds ho hpub) (fun _ _ => trivial)
      (fun _ _ _ => trivial) fun _ _ h => h)) ?_
  rintro r t hr
  match r with
  | .error e => exact (readFailed_fails existing e t).imp fun _ _ => False.elim
  | .ok p =>
    obtain ⟨rfl, rfl⟩ := hr
    refine safe_look_bind trivial (safe_look_bind trivial ?_)
    split
    · exact hfail _ _ _
    · split
      · exact hfail _ _ _
      · refine safe_look_bind trivial (Safe.bind (R := fun _ u => SameView t u)
          (((sameViewFrame.onlyIf ?_) t).mono (fun _ _ => trivial) fun _ _ => id) ?_)
        · exact sameViewFrame.bind sameViewFrame.barrier fun _ =>
            sameViewFrame.bind sameViewFrame.barrier fun _ => clearIntegrity_view _
        · rintro _ u ⟨hdisk, hlocal⟩
          refine inspectVerdict_finds existing _ (hdisk ▸ ho) ?_
          simp only [Store.hasLocalIntent, hlocal]

theorem inspectMissing_finds (existing : Option FileMeta) (opts : IndexOptions)
    (hs : s.disk.lookup n = none) (hdefer : opts.deferDeletion = false) :
    (inspectMissing n existing opts).Safe (fun _ => True)
      (fun r t => Found cfg n existing t r) s := by
  have F := inspectedFrame cfg n
  unfold inspectMissing
  split
  · next hlive =>
    exact Safe.bind (safe_trivial _ s) fun _ t _ => safe_pure fun m hm => by
      rw [hlive] at hm
      cases hm
  · rw [if_neg (by simp [hdefer])]
    refine Safe.bind (R := fun _ t => Aside n s t)
      ((@clearIntegrity_inspected cfg n none s).weaken fun _ _ h => h.indexed.aside)
      fun _ t ht => ?_
    refine Safe.bind (R := fun _ u => Aside n s u)
      ((@cleanEmptyParents_inspected cfg n _ (fun d hd => hd) t).weaken
        fun _ _ h => ht.trans h.indexed.aside) fun _ u hu => ?_
    exact safe_pure ⟨rfl, Or.inl ⟨rfl, Or.inl (hu.missing hs)⟩⟩

theorem inspectNonRegular_finds (existing : Option FileMeta) (isDir : Bool)
    (hs : isDir = true → s.disk.lookup n = some .dir) :
    (inspectNonRegular n existing isDir).Safe (fun _ => True)
      (fun r t => Found cfg n existing t r) s := by
  refine safe_look_bind trivial ?_
  split
  · next hlive =>
    exact safe_pure fun m hm => by
      rw [hlive] at hm
      cases hm
  · split
    · next htrust =>
      simp only [Bool.and_eq_true] at htrust
      exact safe_pure ⟨rfl, Or.inl ⟨rfl, Or.inr (hs htrust.1)⟩⟩
    · exact safe_raise trivial

def Watchable (cfg : Config) (n : String) : Prop :=
  isOutsideSyncDir n = false ∧ shouldIgnore cfg.patterns n = false

variable {opts : IndexOptions}

theorem inspectFile_finds (hn : Watchable cfg n)
    (hdefer : opts.deferDeletion = false) (hpub : Vouched cfg s n (opts.published n)) :
    (inspectFile cfg n opts).Safe (fun _ => True)
      (fun r t => SameRows s t ∧ Found cfg n (s.store.getFile n) t r) s := by
  refine ((inspectFile_inspected opts).along (Q := fun r t => Found cfg n (s.store.getFile n) t r)
    ?_).weaken fun _ _ h => ⟨h.1.sameRows, h.2⟩
  unfold inspectFile
  rw [if_neg (by simp [hn.1, hn.2])]
  refine safe_look_bind trivial ?_
  split
  · exact safe_raise trivial
  · refine safe_look_bind trivial (safe_look_bind trivial ?_)
    split
    · next h => exact inspectMissing_finds _ _ h hdefer
    · next h => exact inspectNonRegular_finds _ _ fun _ => h
    · exact inspectNonRegular_finds _ _ nofun
    · next o h => exact inspectRegular_finds _ _ h hpub

theorem recoverReplicaLocked_clears (s : Node) : (recoverReplicaLocked cfg n).Safe (fun _ => True)
      (fun _ t => t.store.replicaIntent n = none) s := by
  have hdrop : ∀ t, (clearReplicaIntent n).Safe (fun _ => True)
      (fun _ t => t.store.replicaIntent n = none) t :=
    fun t => safe_alter trivial (by rw [Store.replicaIntent_clearReplicaIntent, if_pos rfl])
  have hput : ∀ m t, m.name = n → (putRemote cfg m >>= fun _ => (pure () : Sys Unit)).Safe
      (fun _ => True) (fun _ t => t.store.replicaIntent n = none) t := by
    refine fun m t hm => safe_update_bind trivial fun v u h => safe_pure ?_
    cases hp : t.store.commitPut cfg.fold m false with
    | error e => rw [hp] at h; cases h
    | ok r =>
      rw [hp] at h
      cases h
      show r.2.replicaIntent n = none
      rw [Store.replicaIntent_commitPut hp, if_pos hm.symm]
  refine safe_look_bind trivial ?_
  cases hr : s.store.replicaIntent n with
  | none => exact safe_pure hr
  | some m =>
    have hm := Store.replicaIntent_name hr
    refine safe_look_bind trivial ?_
    dsimp only
    split
    · split
      · exact safe_barrier_bind trivial (hput m s hm)
      · exact safe_barrier_bind trivial (hput m s hm)
      · exact hdrop s
    · split
      · exact hdrop s
      · refine safe_check_bind trivial fun ⟨info, hash⟩ _ => ?_
        dsimp only
        split
        · exact Safe.bind (safe_trivial _ s) fun _ t _ =>
            safe_barrier_bind trivial (safe_barrier_bind trivial (hput m t hm))
        · exact hdrop s

theorem committedRow_content (s : Store) (m : FileMeta) (isLocal : Bool) :
    (s.committedRow m isLocal).hash = m.hash ∧ (s.committedRow m isLocal).size = m.size ∧
      (s.committedRow m isLocal).modTime = m.modTime ∧
      (s.committedRow m isLocal).deleted = m.deleted := by
  obtain ⟨c, b, h⟩ := advanceClock_eq m (namespaceClock s.files m.name)
  unfold Store.committedRow
  cases isLocal <;> simp [h]

def Refreshed (cfg : Config) (n : String) (t : Node) : Prop :=
  t.store.replicaIntent n = none ∧ ∀ r, liveRow (t.store.getFile n) = some r → Held cfg t n r

variable {existing : Option FileMeta}

theorem commitEvent_refreshes {ev : FileMeta} (opts : IndexOptions) (h : Found cfg n existing s (some ev)) :
    (commitEvent cfg ev opts).Safe (fun _ => True) (fun _ t => Refreshed cfg n t) s := by
  have hfsync : ∀ c, (onlyIf c fsync : Sys Unit).Safe (fun _ => True) (fun _ t => t = s) s :=
    fun c => (readFrame.onlyIf readFrame.barrier s).weaken fun _ _ => id
  refine Safe.bind (hfsync _) fun _ t ht => ht ▸ Safe.bind (hfsync _) fun _ u hu => hu ▸ ?_
  refine safe_update_bind trivial fun v w hw => safe_pure ?_
  cases hp : s.store.commitPut cfg.fold ev true with
  | error e => rw [hp] at hw; cases hw
  | ok r =>
    rw [hp] at hw
    cases hw
    obtain ⟨hname, hev⟩ := h
    have hrow := Store.getFile_commitPut hp n
    rw [if_pos hname.symm] at hrow
    obtain ⟨hhash, hsize, hmod, hdel⟩ := committedRow_content s.store ev true
    have hlocal : r.2.localIntents = s.store.localIntents := by
      obtain ⟨names, -, -, h2⟩ := Store.commitPut_ok hp
      rw [h2]
    refine ⟨(Store.replicaIntent_commitPut hp n).trans (if_pos hname.symm), fun m hm => ?_⟩
    change liveRow (r.2.getFile n) = some m at hm
    rw [hrow] at hm
    obtain ⟨hm, hlive⟩ := Option.filter_eq_some_iff.mp hm
    obtain rfl := Option.some.inj hm
    rcases hev with ⟨hd, -⟩ | ⟨-, o, ho, h1, h2, h3⟩
    · simp [hdel, hd] at hlive
    · refine ⟨o, ho, hhash.trans h1, hsize.trans h2, ?_⟩
      rw [hmod]
      simpa only [Store.hasLocalIntent, hlocal] using h3

theorem refreshFileLocked_finds (hn : Watchable cfg n)
    (htrust : opts.trustStat = false) (hdefer : opts.deferDeletion = false)
    (hpub : Honest cfg s n (opts.published n)) :
    (refreshFileLocked cfg n opts).Safe (fun _ => True) (fun _ t => Refreshed cfg n t) s := by
  refine safe_check_bind trivial fun _ _ => safe_barrier_bind trivial (safe_look_bind trivial ?_)
  split
  · exact safe_raise trivial
  · refine Safe.bind ((recoverReplicaLocked_indexed.along (recoverReplicaLocked_clears s)).weaken
      fun _ _ => id) ?_
    rintro _ t ⟨hst, hnone⟩
    have hpub' : Honest cfg t n (opts.published n) :=
      fun h bs hh hbs => hpub h bs hh (hst.aside.bytes n ▸ hbs)
    have hskip : (trustedUnchanged cfg n opts : Sys Bool) = pure false := by
      simp [trustedUnchanged, htrust]
    rw [hskip]
    refine Safe.bind (R := fun b u => b = false ∧ u = t) (safe_pure ⟨rfl, rfl⟩) ?_
    rintro b u ⟨rfl, rfl⟩
    refine Safe.bind (inspectFile_finds hn hdefer hpub'.vouched) ?_
    rintro r v ⟨hrows, hfound⟩
    cases r with
    | none =>
      refine safe_pure ⟨(hrows.replicaIntent n).trans hnone, fun m hm => ?_⟩
      rw [hrows.getFile n] at hm
      exact hfound m hm
    | some ev => exact commitEvent_refreshes opts hfound

def Quiet (cfg : Config) (s : Node) (n : String) : Prop :=
  s.store.replicaIntent n = none ∧ ((∃ r, liveRow (s.store.getFile n) = some r ∧ Held cfg s n r) ∨
      liveRow (s.store.getFile n) = none ∧ bytesAt s.disk n = none)

variable {e : FileMeta}

theorem inspectVerdict_quiet {trusted : Bool}
    (he : liveRow existing = some e) (hhash : e.hash = cfg.digest.hash o.bytes)
    (hsize : e.size = o.bytes.length)
    (htime : sameModTime cfg o.modTime e.modTime = true ∨ trusted = false) :
    (inspectVerdict cfg n existing o.key (cfg.digest.hash o.bytes) trusted).Returns (· = none) := by
  unfold inspectVerdict
  dsimp only
  rw [he]
  dsimp only
  rw [if_pos ⟨hhash, hsize⟩]
  split
  · exact returns_pure rfl
  · next hmod =>
    have htrust : trusted = false := htime.resolve_left hmod
    rw [if_neg (by simp [htrust])]
    exact returns_bind fun _ => returns_bind fun _ => returns_pure rfl

theorem inspectRegular_quiet (ho : s.disk.lookup n = some (.leaf (.file o)))
    (hpub : Honest cfg s n (opts.published n)) (he : liveRow existing = some e)
    (hhash : e.hash = cfg.digest.hash o.bytes) (hsize : e.size = o.bytes.length)
    (htime : sameModTime cfg o.modTime e.modTime = true ∨ s.store.hasLocalIntent n = false) :
    (inspectRegular cfg n existing opts).Safe (fun _ => True) (fun r _ => r = none) s := by
  have hfail : ∀ m reason t, (quarantineFor cfg m reason).Safe (fun _ => True)
      (fun r _ => r = none) t :=
    fun m reason t => (quarantineFor_fails m reason t).imp fun _ _ => False.elim
  refine Safe.bind (R := fun r t => match r with
      | .error _ => True
      | .ok p => t = s ∧ p = (o.key, cfg.digest.hash o.bytes))
    (safe_attempt (Sat.mono (snapshotWith_finds ho hpub.vouched) (fun _ _ => trivial)
      (fun _ _ _ => trivial) fun _ _ h => h)) ?_
  rintro r t hr
  match r with
  | .error err => exact (readFailed_fails existing err t).imp fun _ _ => False.elim
  | .ok p =>
    obtain ⟨rfl, rfl⟩ := hr
    refine safe_look_bind trivial (safe_look_bind trivial ?_)
    split
    · exact hfail _ _ _
    · split
      · exact hfail _ _ _
      · exact safe_look_bind trivial (Safe.bind (safe_trivial _ t) fun _ u _ =>
          inspectVerdict_quiet he hhash hsize htime u)

theorem inspectFile_quiet (h : Quiet cfg s n) (hpub : Honest cfg s n (opts.published n)) :
    (inspectFile cfg n opts).Safe (fun _ => True) (fun r _ => r = none) s := by
  unfold inspectFile
  split
  · exact safe_pure rfl
  · refine safe_look_bind trivial ?_
    split
    · exact safe_raise trivial
    · refine safe_look_bind trivial (safe_look_bind trivial ?_)
      rcases h.2 with ⟨r, hr, o, ho, hhash, hsize, htime⟩ | ⟨hlive, hbytes⟩
      · rw [ho]
        exact inspectRegular_quiet ho hpub hr hhash hsize htime
      · have hnonreg : ∀ isDir, (inspectNonRegular n (s.store.getFile n) isDir).Returns (· = none) := by
          intro isDir
          unfold inspectNonRegular
          rw [hlive]
          exact returns_bind fun _ => returns_pure rfl
        split
        · unfold inspectMissing
          rw [hlive]
          exact returns_bind (P := (· = none)) (fun _ => returns_pure rfl) s
        · exact hnonreg _ s
        · exact hnonreg _ s
        · next o ho =>
          rw [bytesAt_eq_some.mpr ⟨o, ho, rfl⟩] at hbytes
          cases hbytes

theorem refreshFileLocked_quiet (h : Quiet cfg s n) (hpub : Honest cfg s n (opts.published n)) :
    (refreshFileLocked cfg n opts).Safe (InspectedRun cfg n s) (fun _ => InspectedRun cfg n s) s := by
  refine safe_check_bind .refl fun _ _ => safe_barrier_bind .refl (safe_look_bind .refl ?_)
  split
  · exact safe_raise .refl
  · refine Safe.bind ((recoverReplicaLocked_idle h.1).mono (fun t ht => ht ▸ .refl) fun _ _ => id) ?_
    rintro _ t rfl
    refine Safe.bind ((trustedUnchanged_reads opts t).mono (fun u hu => hu ▸ .refl) fun _ _ => id) ?_
    rintro unchanged u rfl
    split
    · exact safe_pure .refl
    · refine Safe.bind ((inspectFile_inspected opts).along (inspectFile_quiet h hpub)) ?_
      rintro r v ⟨hv, rfl⟩
      exact safe_pure hv

theorem place_finishes (ho : s.disk.lookup n = some (.leaf (.file o)))
    (o' : FileObj) : ∃ t, s.place n o' = .ok t := by
  obtain ⟨d, hd⟩ := FileTree.write_ne_none (Leaf.file o') (by rw [ho]; nofun)
    fun a ha => FileTree.dir_of_beneath ha (by rw [ho]; nofun)
  exact ⟨{ s with disk := d }, by rw [Node.place, hd]⟩

theorem chtimes_finishes (ho : s.disk.lookup n = some (.leaf (.file o)))
    (x : Int64) : (chtimes cfg n x).Finishes (fun _ _ => True) s := by
  obtain ⟨t, ht⟩ := place_finishes ho { o with modTime := cfg.stamp x }
  refine finishes_update (a := ()) (t := t) ?_ trivial
  rw [ho]
  dsimp only
  rw [ht]
  rfl

theorem clearIntegrity_finishes (s : Node) (verified : Option ObjectKey) :
    (clearIntegrity n verified).Finishes (fun _ _ => True) s := by
  refine finishes_look_bind ?_
  split
  · exact finishes_pure trivial
  · exact Finishes.bind (R := fun _ _ => True) (finishes_onlyIf (fun _ => finishes_barrier trivial)
      fun _ => trivial) fun _ u _ => finishes_alter trivial

theorem inspectRegular_finishes (ho : s.disk.lookup n = some (.leaf (.file o)))
    (hpub : opts.published n = none) (he : liveRow existing = some e)
    (hhash : e.hash = cfg.digest.hash o.bytes) (hsize : e.size = o.bytes.length) :
    (inspectRegular cfg n existing opts).Finishes (fun _ _ => True) s := by
  have hsome : existing = some e := (liveRow_eq_some.mp he).1
  have hsnap : (snapshotWith cfg n (opts.published n)).Finishes
      (fun r t => r = (o.key, cfg.digest.hash o.bytes) ∧ t = s) s := by
    rw [hpub]
    exact finishes_check_bind (a := (o, cfg.digest.hash o.bytes)) (by rw [ho])
      (finishes_pure ⟨rfl, rfl⟩)
  refine Finishes.bind (R := fun r t => r = .ok (o.key, cfg.digest.hash o.bytes) ∧ t = s)
    (Finishes.attempt (hsnap.imp fun r t h => ⟨congrArg Except.ok h.1, h.2⟩)) ?_
  rintro r t ⟨rfl, rfl⟩
  refine finishes_look_bind (finishes_look_bind ?_)
  rw [if_neg (by simp [hsome, hhash]), if_neg (by simp [silentlyChanged, he, hhash])]
  refine finishes_look_bind ?_
  have hclear : ∀ c, (onlyIf c (fsync >>= fun _ => fsync >>= fun _ =>
      clearIntegrity n (some o.key))).Finishes (fun _ _ => True) t := fun c =>
    finishes_onlyIf (fun _ => finishes_barrier_bind (finishes_barrier_bind
      (clearIntegrity_finishes t _))) fun _ => trivial
  have hview : ∀ c, (onlyIf c (fsync >>= fun _ => fsync >>= fun _ =>
      clearIntegrity n (some o.key))).Within SameView := fun c =>
    sameViewFrame.onlyIf (sameViewFrame.bind sameViewFrame.barrier fun _ =>
      sameViewFrame.bind sameViewFrame.barrier fun _ => clearIntegrity_view _)
  refine Finishes.bind ((hclear _).and_safe (hview _ t)) ?_
  rintro _ u ⟨-, hdisk, -⟩
  unfold inspectVerdict
  dsimp only
  rw [he]
  dsimp only
  rw [if_pos ⟨hhash, hsize⟩]
  split
  · exact finishes_pure trivial
  · split
    · exact finishes_pure trivial
    · refine Finishes.bind (chtimes_finishes (o := o) (by rw [hdisk]; exact ho) _) fun _ v _ => ?_
      exact finishes_barrier_bind (finishes_pure trivial)

theorem inspectFile_finishes (h : Quiet cfg s n) (hpub : opts.published n = none) (hwriters : n ∉ s.writers) :
    (inspectFile cfg n opts).Finishes (fun _ _ => True) s := by
  unfold inspectFile
  split
  · exact finishes_pure trivial
  · refine finishes_look_bind ?_
    rw [if_neg (by simp [hwriters])]
    refine finishes_look_bind (finishes_look_bind ?_)
    rcases h.2 with ⟨r, hr, o, ho, hhash, hsize, -⟩ | ⟨hlive, hbytes⟩
    · rw [ho]
      exact inspectRegular_finishes ho hpub hr hhash hsize
    · have hnonreg : ∀ isDir, (inspectNonRegular n (s.store.getFile n) isDir).Finishes
          (fun _ _ => True) s := by
        intro isDir
        unfold inspectNonRegular
        rw [hlive]
        exact finishes_look_bind (finishes_pure trivial)
      split
      · unfold inspectMissing
        rw [hlive]
        exact Finishes.bind (clearIntegrity_finishes s none) fun _ w _ => finishes_pure trivial
      · exact hnonreg _
      · exact hnonreg _
      · next o ho =>
        rw [bytesAt_eq_some.mpr ⟨o, ho, rfl⟩] at hbytes
        cases hbytes

theorem refreshFileLocked_finishes (h : Quiet cfg s n)
    (hpub : opts.published n = none) (hwriters : n ∉ s.writers) (htrust : opts.trustStat = false)
    (hname : s.store.checkName cfg.fold n = .ok ()) :
    (refreshFileLocked cfg n opts).Finishes (fun _ _ => True) s := by
  refine finishes_check_bind hname (finishes_barrier_bind (finishes_look_bind ?_))
  rw [if_neg (by simp [hwriters])]
  have hrec : (recoverReplicaLocked cfg n).Finishes (fun _ t => t = s) s := by
    refine finishes_look_bind ?_
    rw [h.1]
    exact finishes_pure rfl
  refine Finishes.bind hrec ?_
  rintro _ t rfl
  have hskip : (trustedUnchanged cfg n opts : Sys Bool) = pure false := by
    simp [trustedUnchanged, htrust]
  rw [hskip]
  refine finishes_pure_bind ?_
  have hhon : Honest cfg t n (opts.published n) := by
    rw [hpub]
    nofun
  refine Finishes.bind ((inspectFile_finishes h hpub hwriters).and_safe (inspectFile_quiet h hhon)) ?_
  rintro r u ⟨-, rfl⟩
  exact finishes_pure trivial

end BirakFormal
