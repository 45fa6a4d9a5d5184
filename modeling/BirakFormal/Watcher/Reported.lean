import BirakFormal.Shared.CleanRuns
import BirakFormal.Store.Dominance
import BirakFormal.Watcher.Refreshed

/-!
# What indexing reports

Indexing changes no bytes, and a live row that it commits carries the hash of the bytes that
are at the name. It does not matter where it stops.
-/

namespace BirakFormal

open FileTrees Interruption Prog

structure Reported (cfg : Config) (names : String → Prop) (s t : Node) : Prop where
  files : ∀ k o', t.disk.lookup k = some (.leaf (.file o')) →
    ∃ o, s.disk.lookup k = some (.leaf (.file o)) ∧ o.ino = o'.ino ∧ o.bytes = o'.bytes
  bytes : ∀ k, bytesAt t.disk k = bytesAt s.disk k
  dirs : ∀ k, t.disk.lookup k = some .dir → s.disk.lookup k = some .dir
  special : ∀ k, t.disk.lookup k = some (.leaf .special) → s.disk.lookup k = some (.leaf .special)
  rows : ∀ k r, t.store.getFile k = some r → r.deleted = false → s.store.getFile k = some r ∨
    names k ∧ ∃ bs, bytesAt s.disk k = some bs ∧ r.hash = cfg.digest.hash bs

variable {cfg : Config} {names : String → Prop} {n : String}

theorem reportedFrame (cfg : Config) (names : String → Prop) : Frame (Reported cfg names) where
  refl s := ⟨fun _ o ho => ⟨o, ho, rfl, rfl⟩, fun _ => rfl, fun _ => id, fun _ => id, fun _ _ hr _ => Or.inl hr⟩
  trans {s t u} h h' := by
    refine ⟨fun k o'' ho'' => ?_, fun k => (h'.bytes k).trans (h.bytes k),
      fun k hk => h.dirs k (h'.dirs k hk), fun k hk => h.special k (h'.special k hk),
      fun k r hr hlive => ?_⟩
    · obtain ⟨o', ho', hi', hb'⟩ := h'.files k o'' ho''
      obtain ⟨o, ho, hi, hb⟩ := h.files k o' ho'
      exact ⟨o, ho, hi.trans hi', hb.trans hb'⟩
    rcases h'.rows k r hr hlive with hr | ⟨hk, bs, hbs, hhash⟩
    · exact h.rows k r hr hlive
    · exact Or.inr ⟨hk, bs, (h.bytes k).symm.trans hbs, hhash⟩

variable {s t : Node}

theorem Inspected.files (h : Inspected cfg n s t) {k : String} {o' : FileObj}
    (ho' : t.disk.lookup k = some (.leaf (.file o'))) :
    ∃ o, s.disk.lookup k = some (.leaf (.file o)) ∧ o.ino = o'.ino ∧ o.bytes = o'.bytes := by
  cases h with
  | stamp ho ht =>
    obtain ⟨d, hd, rfl⟩ := place_ok ht
    obtain ⟨-, -, hlook⟩ := FileTree.write_eq_some hd
    change d.lookup k = _ at ho'
    rw [hlook] at ho'
    split at ho'
    · next hk =>
      subst hk
      cases ho'
      exact ⟨_, ho, rfl, rfl⟩
    · exact ⟨o', ho', rfl, rfl⟩
  | rmdir hd hdir ht =>
    obtain ⟨-, hlook⟩ := FileTree.remove_eq_some ht
    rw [hlook] at ho'
    split at ho'
    · cases ho'
    · exact ⟨o', ho', rfl, rfl⟩
  | fence key => exact ⟨o', ho', rfl, rfl⟩
  | setQuarantined key => exact ⟨o', ho', rfl, rfl⟩
  | unfence verified => exact ⟨o', ho', rfl, rfl⟩
  | enqueue peer reason m => exact ⟨o', ho', rfl, rfl⟩
  | defer => exact ⟨o', ho', rfl, rfl⟩

theorem Inspected.reported (h : Inspected cfg n s t) : Reported cfg names s t := by
  have haside := h.aside
  refine ⟨fun _ _ => h.files, haside.bytes, haside.dirs, fun k hk => ?_, fun k r hr _ => Or.inl ?_⟩
  · by_cases hkn : k = n
    · exact hkn ▸ haside.special.mp (hkn ▸ hk)
    · exact (haside.leaves k _ hkn).mp hk
  · rw [← h.sameRows.getFile k]
    exact hr

theorem InspectedRun.reported (h : InspectedRun cfg n s t) : Reported cfg names s t :=
  (reportedFrame cfg names).of_steps (fun _ _ => Inspected.reported) h

theorem Reported.put {m : FileMeta} {isLocal : Bool} {v : Int} {st : Store}
    (h : Reported cfg names s t) (hp : t.store.commitPut cfg.fold m isLocal = .ok (v, st))
    (hname : names m.name) (hm : m.deleted = false → ∃ bs, bytesAt t.disk m.name = some bs ∧
      m.hash = cfg.digest.hash bs) : Reported cfg names s { t with store := st } := by
  refine (reportedFrame cfg names).trans h
    ⟨fun _ o ho => ⟨o, ho, rfl, rfl⟩, fun _ => rfl, fun _ => id, fun _ => id, fun k r hr hlive => ?_⟩
  rw [Store.getFile_commitPut hp] at hr
  split at hr
  · next hk =>
    obtain rfl := Option.some.inj hr
    obtain ⟨hhash, -, -, hdel⟩ := committedRow_content t.store m isLocal
    obtain ⟨bs, hbs, hmhash⟩ := hm (hdel.symm.trans hlive)
    exact Or.inr ⟨hk ▸ hname, bs, hk ▸ hbs, hhash.trans hmhash⟩
  · exact Or.inl hr

theorem Reported.of_rows (h : Reported cfg names s t) {st : Store}
    (hst : ∀ k, st.getFile k = t.store.getFile k) : Reported cfg names s { t with store := st } :=
  ⟨h.files, h.bytes, h.dirs, h.special, fun k r hr => h.rows k r ((hst k).symm.trans hr)⟩

theorem putRemote_reported {m : FileMeta} (h : Reported cfg names s t)
    (hname : names m.name) (hm : m.deleted = false → ∃ bs, bytesAt t.disk m.name = some bs ∧
      m.hash = cfg.digest.hash bs) :
    (putRemote cfg m >>= fun _ => (pure () : Sys Unit)).Safe (Reported cfg names s)
      (fun _ => Reported cfg names s) t := by
  refine Safe.bind (safe_update h fun v u hu => ?_) fun _ u hu => safe_pure hu
  cases hp : t.store.commitPut cfg.fold m false with
  | error e => rw [hp] at hu; cases hu
  | ok r =>
    rw [hp] at hu
    cases hu
    exact h.put hp hname hm

theorem recoverReplicaLocked_reported (hn : names n) (h : Reported cfg names s t) :
    (recoverReplicaLocked cfg n).Safe (Reported cfg names s) (fun _ => Reported cfg names s) t := by
  have drop : (clearReplicaIntent n).Safe (Reported cfg names s) (fun _ => Reported cfg names s) t :=
    safe_alter h (h.of_rows fun k => rfl)
  refine safe_look_bind h ?_
  cases hr : t.store.replicaIntent n with
  | none => exact safe_pure h
  | some m =>
    have hmn : names m.name := Store.replicaIntent_name hr ▸ hn
    refine safe_look_bind h ?_
    dsimp only
    split
    · next hdeleted =>
      have hput := putRemote_reported h hmn fun hlive => absurd (hdeleted.symm.trans hlive) nofun
      split
      · exact safe_barrier_bind h hput
      · exact safe_barrier_bind h hput
      · exact drop
    · split
      · exact drop
      · refine safe_check_bind h fun ⟨info, hash⟩ hsnap => ?_
        dsimp only
        split
        · next hmatch =>
          have hstamp := (inspectedFrame cfg n).onlyIf (c := !sameModTime cfg info.modTime m.modTime)
            (chtimes_inspected m.modTime) t
          refine Safe.bind (hstamp.mono (fun _ hu => (reportedFrame cfg names).trans h hu.reported)
            fun _ _ => id) ?_
          intro _ u hu
          have hsu := (reportedFrame cfg names).trans h hu.reported
          refine safe_barrier_bind hsu (safe_barrier_bind hsu (putRemote_reported hsu hmn fun _ => ?_))
          have htu : Reported cfg names t u := hu.reported
          rw [Store.replicaIntent_name hr, htu.bytes n]
          split at hsnap
          · next o ho =>
            obtain ⟨rfl, rfl⟩ := Prod.mk.inj (Except.ok.inj hsnap)
            exact ⟨o.bytes, bytesAt_eq_some.mpr ⟨o, ho, rfl⟩, hmatch.1.symm⟩
          · exact absurd hsnap nofun
          · exact absurd hsnap nofun
        · exact drop

variable {opts : IndexOptions}

theorem inspectFile_reported (h : Reported cfg names s t)
    (hdefer : opts.deferDeletion = false) (hpub : Vouched cfg t n (opts.published n)) :
    (inspectFile cfg n opts).Safe (Reported cfg names s) (fun r u => Reported cfg names s u ∧
      ∀ ev, r = some ev → ev.name = n ∧ (ev.deleted = false → ∃ bs, bytesAt u.disk n = some bs ∧
        ev.hash = cfg.digest.hash bs)) t := by
  by_cases hn : Watchable cfg n
  · refine ((inspectFile_inspected opts).along (inspectFile_finds hn hdefer hpub)).mono
      (fun _ hu => (reportedFrame cfg names).trans h hu.reported) ?_
    rintro r u ⟨hu, -, hfound⟩
    refine ⟨(reportedFrame cfg names).trans h hu.reported, fun ev hev => ?_⟩
    subst hev
    refine ⟨hfound.1, fun hlive => ?_⟩
    rcases hfound.2 with ⟨hdeleted, -⟩ | ⟨-, o, ho, hhash, -⟩
    · exact absurd (hdeleted.symm.trans hlive) nofun
    · exact ⟨o.bytes, bytesAt_eq_some.mpr ⟨o, ho, rfl⟩, hhash⟩
  · have hskip : inspectFile cfg n opts = pure none := by
      unfold inspectFile
      rw [if_pos]
      simpa only [Watchable, Bool.or_eq_true, not_and_or, Bool.not_eq_false] using hn
    rw [hskip]
    exact safe_pure ⟨h, nofun⟩

theorem refreshFileLocked_reported (hn : names n) (h : Reported cfg names s t) (hdefer : opts.deferDeletion = false)
    (hpub : Vouched cfg s n (opts.published n)) :
    (refreshFileLocked cfg n opts).Safe (Reported cfg names s) (fun _ => Reported cfg names s) t := by
  refine safe_check_bind h fun _ _ => safe_barrier_bind h (safe_look_bind h ?_)
  split
  · exact safe_raise h
  · refine Safe.bind (recoverReplicaLocked_reported hn h) fun _ u hu => ?_
    refine Safe.bind (R := fun _ v => v = u) ((trustedUnchanged_reads opts u).mono
      (fun _ hv => hv ▸ hu) fun _ _ => id) ?_
    rintro unchanged v rfl
    split
    · exact safe_pure hu
    · have hpub' : Vouched cfg v n (opts.published n) := by
        intro x o' hx ho' hi'
        obtain ⟨o, ho, hi, hb⟩ := hu.files n o' ho'
        rw [← hb]
        exact hpub x o hx ho (hi.trans hi')
      refine Safe.bind (inspectFile_reported hu hdefer hpub') ?_
      rintro r w ⟨hw, hev⟩
      match r with
      | none => exact safe_pure hw
      | some ev =>
        obtain ⟨hname, hlive⟩ := hev ev rfl
        have hfsync : ∀ c, (onlyIf c fsync : Sys Unit).Safe (Reported cfg names s) (fun _ x => x = w) w :=
          fun c => (readFrame.onlyIf readFrame.barrier w).mono (fun _ hx => hx ▸ hw) fun _ _ => id
        refine Safe.bind (hfsync _) fun _ x hx => hx ▸ Safe.bind (hfsync _) fun _ y hy => hy ▸ ?_
        refine Safe.bind (safe_update hw fun v x hx => ?_) fun _ x hx => safe_pure hx
        cases hp : w.store.commitPut cfg.fold ev true with
        | error e => rw [hp] at hx; cases hx
        | ok r =>
          rw [hp] at hx
          cases hx
          exact hw.put hp (hname ▸ hn) (hname ▸ hlive)

def InReach (paths : List String) (n : String) : Prop := ∃ p ∈ paths, n = p ∨ Beneath n p

theorem gatherNames_inReach {path : String} (h : n ∈ gatherNames cfg s path) :
    n = path ∨ Beneath n path := by
  unfold gatherNames at h
  split at h
  · exact absurd h List.not_mem_nil
  · rcases List.mem_append.mp h with h | h
    · rcases List.mem_append.mp h with h | h
      · obtain ⟨r, hr, rfl⟩ := List.mem_map.mp h
        have hsub := (List.mem_filter.mp hr).2
        simp only [inSubtree, Bool.and_eq_true, Bool.or_eq_true, decide_eq_true_eq] at hsub
        exact hsub.2.imp id fun hrange => beneath_of_range hrange.1 hrange.2
      · have hfenced := (List.mem_filter.mp h).2
        simp only [Bool.or_eq_true, decide_eq_true_eq] at hfenced
        exact hfenced.imp id beneath_iff.mpr
    · rcases List.mem_cons.mp (List.mem_of_mem_filter h) with h | h
      · exact Or.inl h
      · rw [walk, List.mem_insertionSort] at h
        exact Or.inr (FileTree.mem_under.mp h).2

theorem gatherPaths_inReach {paths all : List String} {names : List String}
    (hall : ∀ p ∈ paths, p ∈ all) (hnames : ∀ n ∈ names, InReach all n) :
    (gatherPaths cfg names paths).Safe (fun t => t = s)
      (fun r t => t = s ∧ ∀ n ∈ r, InReach all n) s := by
  induction paths generalizing names with
  | nil => exact safe_pure ⟨rfl, hnames⟩
  | cons path paths ih =>
    refine safe_look_bind rfl (ih (fun p hp => hall p (List.mem_cons_of_mem _ hp)) fun n hn => ?_)
    rcases List.mem_append.mp hn with hn | hn
    · exact hnames n hn
    · exact ⟨path, hall path List.mem_cons_self, gatherNames_inReach hn⟩

variable {paths : List String}

theorem indexPathsLocked_reported (h : Reported cfg names s t) (hpaths : ∀ n, InReach paths n → names n)
    (hdefer : opts.deferDeletion = false) (hpub : ∀ n, Vouched cfg s n (opts.published n)) :
    (indexPathsLocked cfg paths opts).Safe (Reported cfg names s) (fun _ => Reported cfg names s) t := by
  refine Safe.bind ((gatherPaths_inReach (fun _ => id) fun _ hn => absurd hn List.not_mem_nil).mono
    (fun _ hu => hu ▸ h) fun _ _ => id) ?_
  rintro gathered u ⟨rfl, hgathered⟩
  refine safe_forEach (fun n hn v hv => ?_) h
  have hn := hpaths n (hgathered n (List.mem_dedup.mp ((cfg.mapOrder_perm _).mem_iff.mp hn)))
  refine Safe.bind (R := fun _ => Reported cfg names s) (safe_attempt (Sat.mono (refreshFileLocked_reported hn hv hdefer (hpub n))
    (fun _ => id) (fun _ _ => id) fun _ _ => id)) fun r w hw => ?_
  split
  · exact safe_pure hw
  · split
    · exact safe_pure hw
    · exact safe_raise hw
  · exact safe_rethrow hw

theorem finishCommitLocked_reported {published : String → Option Hashed}
    (hpub : ∀ n, Vouched cfg s n (published n)) :
    (finishCommitLocked cfg paths published).Safe (Reported cfg (InReach paths) s)
      (fun _ => Reported cfg (InReach paths) s) s :=
  Safe.bind (indexPathsLocked_reported ((reportedFrame cfg _).refl s) (fun _ => id) rfl hpub)
    fun _ _ ht => safe_alter ht (ht.of_rows fun _ => rfl)

def prepareCommit (cfg : Config) (sources names : List String) : Sys Unit := do
  validateStorageLocked cfg
  onlyIf (!sources.isEmpty) (checkSourcesLocked cfg sources)
  beginCommitLocked cfg names

def settleCommit (cfg : Config) (names : List String) (published : String → Option Hashed) :
    Except (Failure Err) Unit → Sys Unit
  | .ok () => finishCommitLocked cfg names published
  | .error e => do
    validateStorageLocked cfg
    let _ ← attempt (finishCommitLocked cfg names published)
    rethrow e

theorem commitPublishedLocked_eq (cfg : Config) (sources names : List String)
    (published : String → Option Hashed) (fn : Sys Unit) :
    commitPublishedLocked cfg sources names published fn =
      prepareCommit cfg sources names >>= fun _ => attempt fn >>= settleCommit cfg names published := by
  unfold prepareCommit commitPublishedLocked
  simp only [Prog.bind_assoc]
  rfl

abbrev ReportedAny (cfg : Config) : Node → Node → Prop := Reported cfg fun _ => True

theorem indexPathsLocked_reportedAny (h : ReportedAny cfg s t) (hdefer : opts.deferDeletion = false)
    (hpub : ∀ n, opts.published n = none) :
    (indexPathsLocked cfg paths opts).Safe (ReportedAny cfg s) (fun _ => ReportedAny cfg s) t :=
  indexPathsLocked_reported h (fun _ _ => trivial) hdefer fun n x o hx => by
    rw [hpub n] at hx
    exact absurd hx nofun

theorem validateStorageLocked_reported (h : ReportedAny cfg s t) :
    (validateStorageLocked cfg).Safe (ReportedAny cfg s) (fun _ => ReportedAny cfg s) t := by
  refine safe_barrier_bind h (safe_barrier_bind h (safe_look_bind h ?_))
  split
  · exact safe_pure h
  · refine safe_barrier_bind h (safe_look_bind h ?_)
    refine Safe.bind (indexPathsLocked_reportedAny h rfl fun _ => rfl) fun _ u hu => ?_
    have hu' : ReportedAny cfg s
        { u with store := u.store.endLocal (t.store.localIntents.insertionSort (· ≤ ·)) } :=
      hu.of_rows fun _ => rfl
    refine safe_alter_bind hu (Safe.bind (R := fun _ => ReportedAny cfg s) (safe_look_bind hu' ?_)
      fun _ v hv => ?_)
    · exact safe_forEach (fun n _ v hv => recoverReplicaLocked_reported trivial hv) hu'
    exact safe_alter hv ⟨hv.files, hv.bytes, hv.dirs, hv.special, hv.rows⟩

theorem prepareCommit_reported {sources names : List String} (s : Node) :
    (prepareCommit cfg sources names).Safe (ReportedAny cfg s) (fun _ => ReportedAny cfg s) s := by
  have h := (reportedFrame cfg fun _ => True).refl s
  refine Safe.bind (validateStorageLocked_reported h) fun _ t ht => ?_
  refine Safe.bind (R := fun _ => ReportedAny cfg s) (safe_onlyIf (fun _ => ?_) fun _ => ht)
    fun _ u hu => ?_
  · refine Safe.bind (safe_forEach (fun n _ v hv => ?_) ht) fun _ v hv =>
      indexPathsLocked_reportedAny hv rfl fun _ => rfl
    exact safe_check hv fun _ _ => hv
  · refine Safe.bind (safe_forEach (fun n _ v hv => safe_check hv fun _ _ => hv) hu) fun _ v hv => ?_
    refine Safe.bind (safe_forEach (fun n _ x hx => safe_barrier hx hx) hv) fun _ x hx => ?_
    refine Safe.bind (indexPathsLocked_reportedAny hx rfl fun _ => rfl) fun _ y hy => ?_
    refine safe_update hy fun _ z hz => ?_
    cases hb : y.store.beginLocal cfg.fold names with
    | error e => rw [hb] at hz; cases hz
    | ok st =>
      rw [hb] at hz
      cases hz
      exact hy.of_rows fun k => by rw [Store.getFile, (beginLocal_rows hb).1]; rfl

end BirakFormal
