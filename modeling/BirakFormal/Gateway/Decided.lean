import BirakFormal.Daemon.Runs
import BirakFormal.Gateway.Conditions
import BirakFormal.Watcher.Reported

/-!
# What a conditional write replaces

Between the moment a condition is judged and the rename, the same section validates the storage
once more, which finds nothing left to recover, and indexes the destination. Indexing keeps the
file; it may restore the timestamp that the index has for its bytes.
-/

namespace BirakFormal

open FileTrees Interruption Prog

def SameFile (a b : Option (Entry Leaf)) : Prop :=
  regularFile a = none ∧ regularFile b = none ∨
    ∃ o x, regularFile a = some o ∧ regularFile b = some { o with modTime := x }

theorem SameFile.refl (a : Option (Entry Leaf)) : SameFile a a := by
  cases h : regularFile a with
  | none => exact Or.inl ⟨h, h⟩
  | some o => exact Or.inr ⟨o, o.modTime, h, h⟩

theorem SameFile.trans {a b c : Option (Entry Leaf)} (h : SameFile a b) (h' : SameFile b c) : SameFile a c := by
  rcases h with ⟨ha, hb⟩ | ⟨o, x, ha, hb⟩ <;> rcases h' with ⟨hb', hc⟩ | ⟨o', y, hb', hc⟩
  · exact Or.inl ⟨ha, hc⟩
  · rw [hb] at hb'
    cases hb'
  · rw [hb] at hb'
    cases hb'
  · obtain rfl := Option.some.inj (hb.symm.trans hb')
    exact Or.inr ⟨o, y, ha, hc⟩

variable {o : FileObj}

theorem regularFile_eq_some {e : Option (Entry Leaf)} :
    regularFile e = some o ↔ e = some (.leaf (.file o)) := by
  unfold regularFile
  split
  · simp
  · next h =>
    constructor
    · nofun
    · intro he
      exact absurd he (h o)

def FileKept (n : String) (s t : Node) : Prop := SameFile (s.disk.lookup n) (t.disk.lookup n)

theorem fileKeptFrame (n : String) : Frame (FileKept n) := ⟨fun _ => SameFile.refl _, SameFile.trans⟩

section
variable {cfg : Config} {n k : String} {s t : Node}

theorem Inspected.fileKept (h : Inspected cfg k s t) : FileKept n s t := by
  have hbytes := h.aside.bytes n
  cases ht : regularFile (t.disk.lookup n) with
  | none =>
    refine Or.inl ⟨?_, ht⟩
    cases hs : regularFile (s.disk.lookup n) with
    | none => rfl
    | some o =>
      rw [bytesAt_eq_some.mpr ⟨o, regularFile_eq_some.mp hs, rfl⟩] at hbytes
      obtain ⟨o', ho', -⟩ := bytesAt_eq_some.mp hbytes
      rw [regularFile_eq_some.mpr ho'] at ht
      cases ht
  | some o' =>
    obtain ⟨o, ho, hino, hbs⟩ := h.files (regularFile_eq_some.mp ht)
    refine Or.inr ⟨o, o'.modTime, regularFile_eq_some.mpr ho, ht.trans ?_⟩
    rw [hino, hbs]

theorem Indexed.fileKept (h : Indexed cfg k s t) : FileKept n s t := by
  cases h with
  | inspect h => exact h.fileKept
  | putLocal hn hs h => exact SameFile.refl _
  | finish hm h => exact SameFile.refl _
  | drop => exact SameFile.refl _

theorem fileKeptUpkeep (cfg : Config) (n : String) : Upkeep cfg (FileKept n) where
  frame := fileKeptFrame n
  refresh _ opts := (refreshFileLocked_indexed opts).mono fun _ _ =>
    (fileKeptFrame n).of_steps fun _ _ h => h.fileKept
  recover _ := recoverReplicaLocked_indexed.mono fun _ _ =>
    (fileKeptFrame n).of_steps fun _ _ h => h.fileKept
  endLocal _ _ := SameFile.refl _
  recovered _ := SameFile.refl _

/-- Nothing is recorded for the file at a name that would have its timestamp restored. -/
def Stamped (cfg : Config) (s : Node) (n : String) : Prop :=
  s.store.replicaIntent n = none ∧
    ∀ o r, s.disk.lookup n = some (.leaf (.file o)) → liveRow (s.store.getFile n) = some r →
      r.hash = cfg.digest.hash o.bytes → r.size = o.bytes.length →
        sameModTime cfg o.modTime r.modTime = true ∨ s.store.hasLocalIntent n = true

def DiskKept (s t : Node) : Prop := t.disk = s.disk

theorem diskKeptFrame : Frame DiskKept := ⟨fun _ => rfl, fun h h' => h'.trans h⟩

theorem quarantineFor_diskKept (m : FileMeta) (reason : String) : (quarantineFor cfg m reason).Within DiskKept := by
  have F := diskKeptFrame
  have hrepairs (peers : List String) : (enqueueRepairs cfg m reason peers).Within DiskKept := by
    induction peers with
    | nil => exact F.pure _
    | cons peer peers ih =>
      have hqueue : (perform fun s => s.enqueueChange cfg peer reason m : Sys Unit).Within DiskKept :=
        F.perform fun _ => rfl
      apply F.bind hqueue.attempt
      intro r
      match r with
      | .ok () => exact ih
      | .error _ => exact F.raise _
  refine F.bind (F.check _) fun key => F.bind (F.alter ?_) fun _ => F.bind (F.alter ?_).attempt fun r => ?_
  · exact fun _ => rfl
  · exact fun _ => rfl
  match r with
  | .error _ => exact F.raise _
  | .ok () =>
    dsimp only
    split
    · exact F.raise _
    · exact F.bind (hrepairs _) fun _ => F.raise _

theorem readFailed_diskKept (existing : Option FileMeta) (e : Failure Err) :
    (readFailed cfg existing e).Within DiskKept := by
  have F := diskKeptFrame
  cases e with
  | raised e => exact F.raise e
  | fault =>
    apply F.bind F.barrier.attempt
    intro r
    match r with
    | .error e => exact F.rethrow e
    | .ok () =>
      dsimp only
      split
      · exact quarantineFor_diskKept _ _
      · exact F.raise _

theorem inspectVerdict_diskKept {existing : Option FileMeta} {trusted : Bool}
    (h : ∀ r, liveRow existing = some r → r.hash = cfg.digest.hash o.bytes → r.size = o.bytes.length →
      sameModTime cfg o.modTime r.modTime = true ∨ trusted = true) :
    (inspectVerdict cfg n existing o.key (cfg.digest.hash o.bytes) trusted).Within DiskKept := by
  have F := diskKeptFrame
  unfold inspectVerdict
  dsimp only
  split
  · exact F.pure _
  · next r hr =>
    split
    · next heq =>
      have hstamp := h r hr heq.1 heq.2
      split
      · exact F.pure _
      · next hmod =>
        rw [if_pos (hstamp.resolve_left hmod)]
        exact F.pure _
    · exact F.pure _

variable {opts : IndexOptions}

theorem inspectRegular_diskKept {existing : Option FileMeta}
    (ho : s.disk.lookup n = some (.leaf (.file o))) (hpub : opts.published n = none)
    (h : ∀ r, liveRow existing = some r → r.hash = cfg.digest.hash o.bytes → r.size = o.bytes.length →
      sameModTime cfg o.modTime r.modTime = true ∨ s.store.hasLocalIntent n = true) :
    (inspectRegular cfg n existing opts).Safe (DiskKept s) (fun _ => DiskKept s) s := by
  have F := diskKeptFrame
  have hvouched : Vouched cfg s n (opts.published n) := by
    intro x _ hx
    rw [hpub] at hx
    cases hx
  refine Safe.bind (R := fun r t => t = s ∧ ∀ p, r = .ok p → p = (o.key, cfg.digest.hash o.bytes))
    (safe_attempt (Sat.mono (snapshotWith_finds ho hvouched) (fun _ ht => ht ▸ rfl)
      (fun _ _ ht => ⟨ht, nofun⟩) fun _ _ ht => ⟨ht.1, fun _ hp => Except.ok.inj hp ▸ ht.2⟩)) ?_
  rintro r t ⟨rfl, hr⟩
  match r with
  | .error e => exact readFailed_diskKept existing e t
  | .ok p =>
    obtain rfl := hr p rfl
    refine safe_look_bind rfl (safe_look_bind rfl ?_)
    split
    · exact quarantineFor_diskKept _ _ t
    · split
      · exact quarantineFor_diskKept _ _ t
      · refine safe_look_bind rfl (Safe.bind (R := fun _ => DiskKept t) (F.onlyIf ?_ t) fun _ u hu => ?_)
        · exact F.bind F.barrier fun _ => F.bind F.barrier fun _ =>
            (clearIntegrity_view _).mono fun _ _ => And.left
        · exact (inspectVerdict_diskKept h u).mono (fun _ => F.trans hu) fun _ _ => F.trans hu

theorem refreshFileLocked_diskKept (hs : Stamped cfg s n)
    (ho : s.disk.lookup n = some (.leaf (.file o))) (hpub : opts.published n = none) :
    (refreshFileLocked cfg n opts).Safe (DiskKept s) (fun _ => DiskKept s) s := by
  have F := diskKeptFrame
  refine safe_check_bind rfl fun _ _ => safe_barrier_bind rfl (safe_look_bind rfl ?_)
  split
  · exact safe_raise rfl
  · refine Safe.bind ((recoverReplicaLocked_idle hs.1).mono (fun _ ht => ht ▸ rfl) fun _ _ => id) ?_
    rintro _ t rfl
    refine Safe.bind ((trustedUnchanged_reads opts t).mono (fun _ hu => hu ▸ rfl) fun _ _ => id) ?_
    rintro unchanged u rfl
    split
    · exact safe_pure rfl
    · have hinspect : (inspectFile cfg n opts).Safe (DiskKept u) (fun _ => DiskKept u) u := by
        unfold inspectFile
        split
        · exact safe_pure rfl
        · refine safe_look_bind rfl ?_
          split
          · exact safe_raise rfl
          · refine safe_look_bind rfl (safe_look_bind rfl ?_)
            rw [ho]
            exact inspectRegular_diskKept ho hpub fun r => hs.2 o r ho
      refine Safe.bind hinspect fun r v hv => ?_
      match r with
      | none => exact safe_pure hv
      | some ev =>
        have hcommit : (commitEvent cfg ev opts).Within DiskKept := by
          refine F.bind (F.onlyIf F.barrier) fun _ => F.bind (F.onlyIf F.barrier) fun _ =>
            F.bind (F.update fun a _ b h => ?_) fun _ => F.pure _
          cases hp : a.store.commitPut cfg.fold ev true with
          | error e => rw [hp] at h; cases h
          | ok x => rw [hp] at h; cases h; rfl
        exact (hcommit v).mono (fun _ => F.trans hv) fun _ _ => F.trans hv

theorem indexName_safe {J : Node → Prop}
    (h : (refreshFileLocked cfg k opts).Safe J (fun _ => J) s) : (indexName cfg opts k).Safe J (fun _ => J) s := by
  refine Safe.bind (R := fun _ => J) (safe_attempt (Sat.mono h (fun _ => id) (fun _ _ => id) fun _ _ => id))
    fun r t ht => ?_
  split
  · exact safe_pure ht
  · split
    · exact safe_pure ht
    · exact safe_raise ht
  · exact safe_rethrow ht

theorem Aside.stamped (h : Aside k s t) (hk : n ≠ k) (ho : s.disk.lookup n = some (.leaf (.file o)))
    (hs : Stamped cfg s n) : t.disk.lookup n = some (.leaf (.file o)) ∧ Stamped cfg t n := by
  have ho' := (h.leaves n _ hk).mpr ho
  refine ⟨ho', (h.intents n hk).trans hs.1, fun o₁ r ho₁ hr hhash hsize => ?_⟩
  obtain rfl : o₁ = o := by
    rw [ho'] at ho₁
    cases ho₁
    rfl
  rw [h.rows n hk] at hr
  rw [Store.hasLocalIntent, h.localIntents]
  exact hs.2 o₁ r ho hr hhash hsize

theorem indexNames_exact (hpub : opts.published n = none) {names : List String}
    (hnames : names.Nodup) (ho : s.disk.lookup n = some (.leaf (.file o))) (hs : n ∈ names → Stamped cfg s n) :
    (forEach (indexName cfg opts) names).Safe (fun t => t.disk.lookup n = some (.leaf (.file o)))
      (fun _ t => t.disk.lookup n = some (.leaf (.file o))) s := by
  induction names generalizing s with
  | nil => exact safe_pure ho
  | cons k names ih =>
    obtain ⟨hk, hrest⟩ := List.nodup_cons.mp hnames
    by_cases hkn : k = n
    · subst hkn
      have hself := indexName_safe (refreshFileLocked_diskKept (hs List.mem_cons_self) ho hpub)
      refine Safe.bind (hself.mono (fun t ht => ?_) fun _ _ => id) fun _ t ht => ?_
      · rw [ht, ho]
      · exact ih hrest (by rw [ht, ho]) fun hin => absurd hin hk
    · have hother : (indexName cfg opts k).Safe (Aside k s) (fun _ => Aside k s) s :=
        indexName_safe ((refreshFileLocked_indexed opts).mono (fun _ _ => IndexedRun.aside) s)
      have hne : n ≠ k := fun h => hkn h.symm
      refine Safe.bind (hother.mono (fun t ht => (ht.leaves n _ hne).mpr ho) fun _ _ => id) fun _ t ht => ?_
      refine ih hrest ((ht.leaves n _ hne).mpr ho) fun hin => ?_
      exact (ht.stamped hne ho (hs (List.mem_cons_of_mem k hin))).2

theorem beginCommitLocked_exact (hs : Stamped cfg s n) (ho : s.disk.lookup n = some (.leaf (.file o)))
    (names : List String) :
    (beginCommitLocked cfg names).Safe (fun _ => True)
      (fun _ t => t.disk.lookup n = some (.leaf (.file o))) s := by
  refine Safe.bind (R := fun _ t => t = s) (safe_forEach (I := fun t => t = s) ?_ rfl) ?_
  · rintro name - t rfl
    exact safe_check trivial fun _ _ => rfl
  rintro _ t rfl
  refine Safe.bind (R := fun _ u => u = t) (safe_forEach (I := fun u => u = t) ?_ rfl) ?_
  · rintro name - u rfl
    exact safe_barrier trivial rfl
  rintro _ u rfl
  refine Safe.bind (R := fun _ v => v.disk.lookup n = some (.leaf (.file o))) ?_ fun _ v hv => ?_
  · refine Safe.bind ((gatherPaths_reads [] names u).mono (fun _ _ => trivial) fun _ _ => id) ?_
    rintro collected v rfl
    have horder : (cfg.mapOrder collected.dedup).Nodup :=
      (cfg.mapOrder_perm _).nodup_iff.mpr (List.nodup_dedup _)
    exact (indexNames_exact rfl horder ho fun _ => hs).mono (fun _ _ => trivial) fun _ _ => id
  · refine safe_update trivial fun _ w hw => ?_
    cases hb : v.store.beginLocal cfg.fold names with
    | error e => rw [hb] at hw; cases hw
    | ok st => rw [hb] at hw; cases hw; exact hv

end

section
variable {J : Type} {cfg : Config} {replay : J → Sys Unit} {s : Site J}

theorem onNode_safe {α : Type} {p : Sys α} {I : Node → Prop} {Q : α → Node → Prop} (h : p.Safe I Q s.node) :
    (onNode p).Safe (fun _ => True)
      (fun a (u : Site J) => Q a u.node ∧ u.journal = s.journal ∧ u.renames = s.renames) s := by
  refine (Safe.zoom Site.nodePart h).mono (fun _ _ => trivial) ?_
  rintro a u ⟨x, rfl, hx⟩
  exact ⟨hx, rfl, rfl⟩

theorem onNode_idle {p : Sys Unit} {I : Node → Prop} (h : p.Safe I (fun _ x => x = s.node) s.node) :
    (onNode p).Safe (fun _ => True) (fun _ u => u = s) s :=
  (onNode_safe h).imp fun _ _ hu => Site.ext hu.1 hu.2.1 hu.2.2

namespace Site

theorem recoverLocked_settles :
    (recoverLocked replay).Safe (fun _ => True) (fun _ u => u.journal = none ∧ u.renames = s.renames) s := by
  refine safe_look_bind trivial ?_
  cases hj : s.journal with
  | none => exact safe_pure ⟨hj, rfl⟩
  | some j =>
    exact Safe.bind (onNode_safe (safe_trivial _ _)) fun _ u hu => safe_alter trivial ⟨rfl, hu.2.2⟩

theorem recoverIntents_recovers (n : Node) :
    (recoverIntents cfg).Safe (fun _ => True) (fun _ t => t.recovered = true) n := by
  have hskip {α : Type} (p : Sys α) (t : Node) : p.Safe (fun _ => True) (fun _ _ => True) t := safe_trivial p t
  refine Safe.bind (hskip _ n) fun _ t _ => Safe.bind (hskip _ t) fun _ t _ => Safe.bind (hskip _ t) fun _ t _ =>
    Safe.bind (hskip _ t) fun _ t _ => Safe.bind (hskip _ t) fun _ t _ => safe_alter trivial rfl

theorem validateLocked_settles : (validateLocked cfg replay).Safe (fun _ => True)
      (fun _ u => u.journal = none ∧ u.node.recovered = true ∧ u.renames = s.renames) s := by
  refine Safe.bind (onNode_safe (safe_trivial _ _)) fun _ t ht => ?_
  refine Safe.bind recoverLocked_settles fun _ u hu => safe_look_bind trivial ?_
  have hrenames : u.renames = s.renames := hu.2.trans ht.2.2
  split
  · next hrec => exact safe_pure ⟨hu.1, hrec, hrenames⟩
  · refine (onNode_safe (recoverIntents_recovers u.node)).imp fun _ v hv => ?_
    exact ⟨hv.2.1.trans hu.1, hv.1, hv.2.2.trans hrenames⟩

theorem validateLocked_idle (hj : s.journal = none) (hr : s.node.recovered = true) :
    (validateLocked cfg replay).Safe (fun u => u = s) (fun _ u => u = s) s := by
  refine Safe.bind (R := fun _ u => u = s) ?_ ?_
  · refine (Safe.zoom Site.nodePart (safe_barrier (J := fun t => t = s.node)
      (Q := fun _ t => t = s.node) rfl rfl)).mono ?_ ?_
    · rintro u ⟨x, rfl, rfl⟩
      rfl
    · rintro _ u ⟨x, rfl, rfl⟩
      rfl
  rintro _ u rfl
  refine Safe.bind (R := fun _ v => v = u) (safe_look_bind rfl ?_) ?_
  · rw [hj]
    exact safe_pure rfl
  rintro _ v rfl
  refine safe_look_bind rfl ?_
  rw [hr]
  exact safe_pure rfl

/-- What a publication that succeeds did, from a state `u` in which nothing waits for recovery: one
rename, of a scratch file over what was at the name. -/
structure Replaces (cfg : Config) (name : String) (o : FileObj) (u t : Site J) (replaced : Option (Entry Leaf)) :
    Prop where
  renames : t.renames = u.renames ++ [⟨name, replaced, o⟩]
  same : SameFile (u.entry name) replaced
  exact : Stamped cfg u.node name → regularFile replaced = regularFile (u.entry name)
  present : ∃ x, t.entry name = some (.leaf (.file { o with modTime := x }))

theorem begin_keeps (name : String) :
    (onNode (beginCommitLocked cfg [name])).Safe (fun _ => True) (fun _ (v : Site J) => v.renames = s.renames ∧
      SameFile (s.entry name) (v.entry name) ∧
        (Stamped cfg s.node name → regularFile (v.entry name) = regularFile (s.entry name))) s := by
  have hkept : (beginCommitLocked cfg [name]).Safe (FileKept name s.node) (fun _ => FileKept name s.node) s.node :=
    (fileKeptUpkeep cfg name).beginCommitLocked (fun _ _ _ => SameFile.refl _) s.node
  have hexact : (beginCommitLocked cfg [name]).Safe (fun _ => True) (fun _ t => ∀ o, Stamped cfg s.node name →
      s.node.disk.lookup name = some (.leaf (.file o)) → t.disk.lookup name = some (.leaf (.file o))) s.node := by
    by_cases h : ∃ o, Stamped cfg s.node name ∧ s.node.disk.lookup name = some (.leaf (.file o))
    · obtain ⟨o, hs, ho⟩ := h
      refine (beginCommitLocked_exact hs ho [name]).imp fun _ t ht o' _ ho' => ?_
      rw [ht, ← ho, ho']
    · exact (safe_trivial _ _).imp fun _ t _ o hs ho => absurd ⟨o, hs, ho⟩ h
  refine (onNode_safe (hkept.and hexact)).imp fun _ v hv => ⟨hv.2.2, hv.1.1, fun hs => ?_⟩
  rcases hv.1.1 with ⟨hnone, hnone'⟩ | ⟨o, x, ho, hx⟩
  · exact hnone'.trans hnone.symm
  · have hnow := hv.1.2 o hs (regularFile_eq_some.mp ho)
    exact (regularFile_eq_some.mpr hnow).trans ho.symm

variable {name : String}

theorem renameScratch_replaces : (renameScratch name o).Safe (fun _ => True) (fun _ (t : Site J) =>
      t.renames = s.renames ++ [⟨name, s.entry name, o⟩] ∧ t.entry name = some (.leaf (.file o))) s := by
  refine safe_update trivial fun _ t ht => ?_
  cases hp : s.node.place name o with
  | error e => rw [hp] at ht; cases ht
  | ok n =>
    rw [hp] at ht
    cases ht
    obtain ⟨d, hd, rfl⟩ := place_ok hp
    obtain ⟨-, -, hlook⟩ := FileTree.write_eq_some hd
    exact ⟨rfl, (hlook name).trans (if_pos rfl)⟩

theorem publishScratch_replaces : (publishScratch name o).Safe (fun _ => True) (fun _ (t : Site J) =>
      t.renames = s.renames ++ [⟨name, s.entry name, o⟩] ∧ t.entry name = some (.leaf (.file o))) s := by
  refine safe_look_bind trivial ?_
  split
  · exact safe_raise trivial
  · refine Safe.bind renameScratch_replaces fun _ t ht => ?_
    have hsync : (fsync : Sys Unit).Safe (fun _ => True) (fun _ x => x = t.node) t.node := safe_barrier trivial rfl
    refine (onNode_idle hsync).imp fun _ u hu => ?_
    rw [hu]
    exact ht

theorem publishLocked_replaces (hj : s.journal = none) (hr : s.node.recovered = true) :
    (publishLocked cfg replay name o).Safe (fun _ => True)
      (fun _ t => ∃ replaced, Replaces cfg name o s t replaced) s := by
  refine Safe.bind ((validateLocked_idle hj hr).mono (fun _ _ => trivial) fun _ _ => id) ?_
  rintro _ u rfl
  have hsources : (onlyIf (!([] : List String).isEmpty) (checkSourcesLocked cfg [])).Safe (fun _ => True)
      (fun _ x => x = u.node) u.node := safe_pure rfl
  refine Safe.bind (onNode_idle hsources) ?_
  rintro _ u rfl
  refine Safe.bind (begin_keeps name) fun _ v hv => ?_
  obtain ⟨hrenames, hsame, hexact⟩ := hv
  refine Safe.bind publishScratch_replaces.attempt fun r w hw => ?_
  match r with
  | .ok () =>
    obtain ⟨hlog, hplaced⟩ := hw
    have hfinish := (fileKeptUpkeep cfg name).finishCommitLocked [name]
      (fun n => if n = name then some ⟨o.key, cfg.digest.hash o.bytes⟩ else none) w.node
    refine (onNode_safe hfinish).imp fun _ t ht => ⟨v.entry name, ?_, hsame, hexact, ?_⟩
    · rw [ht.2.2, hlog, hrenames]
    · rcases ht.1 with ⟨hnone, -⟩ | ⟨o', x, ho', hx⟩
      · rw [show regularFile (w.node.disk.lookup name) = some o from regularFile_eq_some.mpr hplaced] at hnone
        cases hnone
      · obtain rfl := Option.some.inj (ho'.symm.trans (regularFile_eq_some.mpr hplaced))
        exact ⟨x, regularFile_eq_some.mp hx⟩
  | .error e =>
    exact Safe.bind (safe_trivial _ _) fun _ _ _ => Safe.bind (safe_trivial _ _) fun _ _ _ => safe_rethrow trivial

/-- What a conditional write that was accepted did; `u` is the moment of its check. -/
structure Accepted (cfg : Config) (replay : J → Sys Unit) (judge : Precondition) (name : String) (o : FileObj)
    (s t u : Site J) (replaced : Option (Entry Leaf)) : Prop where
  validated : (validateLocked cfg replay).Yields s () u
  judged : judge (u.entry name) = .ok ()
  log : u.renames = s.renames
  replaces : Replaces cfg name o u t replaced

structure Untouched (cfg : Config) (replay : J → Sys Unit) (s t : Site J) : Prop where
  validated : (validateLocked cfg replay).Yields s () t
  idle : s.journal = none → s.node.recovered = true → t = s

theorem publishIf_judges (judge : Precondition) (name : String) (o : FileObj) :
    (publishIf cfg replay (some judge) name o).Safe (fun _ => True) (fun reply t => match reply with
      | .ok _ => ∃ u replaced, Accepted cfg replay judge name o s t u replaced
      | .error _ => Untouched cfg replay s t) s := by
  have hsync : (fsync : Sys Unit).Safe (fun _ => True) (fun _ x => x = s.node) s.node := safe_barrier trivial rfl
  refine Safe.bind (onNode_idle hsync) ?_
  rintro _ s rfl
  refine Safe.bind validateLocked_settles.yields fun _ u hu => safe_look_bind trivial ?_
  obtain ⟨⟨hj, hr, hlog⟩, hyields⟩ := hu
  cases hjudge : judge (u.entry name) with
  | error failure =>
    exact safe_pure ⟨hyields, fun hj hr => (validateLocked_idle hj hr).of_yields hyields⟩
  | ok _ =>
    refine Safe.bind (publishLocked_replaces hj hr) fun _ t ht => safe_pure ?_
    obtain ⟨replaced, hreplaces⟩ := ht
    exact ⟨u, replaced, hyields, hjudge, hlog, hreplaces⟩

end Site

structure WriteCall (J : Type) where
  before : Site J
  precondition : Option Precondition
  name : String
  object : FileObj
  reply : Except ObjectFailure ObjectKey
  after : Site J

/-- Sections that follow one another, any of which may stop early, with the writes that returned. The
other commits are those of `Publish`, `Remove` and `Rename`, around any work; others may change the
volume as well. -/
inductive Interleaving {J : Type} (cfg : Config) (replay : J → Sys Unit) (s : Site J) :
    List (WriteCall J) → Site J → Prop where
  | start : Interleaving cfg replay s [] s
  | returned {t u : Site J} {calls : List (WriteCall J)} {precondition : Option Precondition} {name : String}
      {o : FileObj} {reply : Except ObjectFailure ObjectKey} : Interleaving cfg replay s calls t →
      (Site.publishIf cfg replay precondition name o).Yields t reply u →
        Interleaving cfg replay s (calls ++ [⟨t, precondition, name, o, reply, u⟩]) u
  | stopped {t u : Site J} {calls : List (WriteCall J)} {precondition : Option Precondition} {name : String}
      {o : FileObj} : Interleaving cfg replay s calls t →
      (Site.publishIf cfg replay precondition name o).Stops t u → Interleaving cfg replay s calls u
  | commit {t u : Site J} {calls : List (WriteCall J)} {sources names : List String}
      {published : String → Option Hashed} {fn : SiteProg J Unit} : Interleaving cfg replay s calls t →
      (Site.commitLocked cfg replay sources names published fn).Stops t u → Interleaving cfg replay s calls u
  | outside {t : Site J} {calls : List (WriteCall J)} (node : Node) (journal : Option J) :
      Interleaving cfg replay s calls t → Interleaving cfg replay s calls { t with node, journal }

theorem Interleaving.yields {s t : Site J} {calls : List (WriteCall J)} (h : Interleaving cfg replay s calls t) :
    ∀ c ∈ calls, (Site.publishIf cfg replay c.precondition c.name c.object).Yields c.before c.reply c.after := by
  induction h with
  | start =>
    intro c hc
    exact absurd hc List.not_mem_nil
  | returned _ hyields ih =>
    intro c hc
    rcases List.mem_append.mp hc with hc | hc
    · exact ih c hc
    · obtain rfl := List.mem_singleton.mp hc
      exact hyields
  | stopped _ _ ih => exact ih
  | commit _ _ ih => exact ih
  | outside _ _ _ ih => exact ih

/-- The condition of an accepted write held of the destination when it was checked, in the section of
the write itself, and the write replaced that very file or nothing. -/
def WriteCall.Decided (cfg : Config) (replay : J → Sys Unit) (c : WriteCall J) : Prop :=
  ∀ judge key, c.precondition = some judge → c.reply = .ok key →
    ∃ u replaced, Site.Accepted cfg replay judge c.name c.object c.before c.after u replaced

/-- What the two headers then say: a free key was free until the rename, and a tag was the tag of the
file that was replaced, unless its timestamp was about to be restored. -/
structure Linearized (cfg : Config) (replay : J → Sys Unit) (calls : List (WriteCall J)) : Prop where
  decided : ∀ c ∈ calls, c.Decided cfg replay
  matched : ∀ c ∈ calls, ∀ conditions : WriteConditions, ∀ key, c.precondition = conditions.precondition →
    c.reply = .ok key → conditions.ifMatch ≠ [] → ∃ u o x,
      Site.Accepted cfg replay conditions.check c.name c.object c.before c.after u
        (some (.leaf (.file { o with modTime := x }))) ∧
      u.entry c.name = some (.leaf (.file o)) ∧ etagListMatches conditions.ifMatch (etagFor o) = true ∧
      (Stamped cfg u.node c.name → x = o.modTime)
  absent : ∀ xs ys zs c d, calls = xs ++ c :: ys ++ d :: zs → c.name = d.name →
    ∀ m m' : WriteConditions, ∀ key key', c.precondition = m.precondition → d.precondition = m'.precondition →
      m.ifNoneMatch = true → m'.ifNoneMatch = true → c.reply = .ok key → d.reply = .ok key' →
        (∃ o, c.after.entry c.name = some (.leaf (.file o))) ∧ ∃ u replaced,
          Site.Accepted cfg replay m'.check d.name d.object d.before d.after u replaced ∧
            regularFile (u.entry d.name) = none ∧ regularFile replaced = none
  refused : ∀ c ∈ calls, ∀ failure, c.reply = .error failure → Site.Untouched cfg replay c.before c.after

theorem Interleaving.decided {s t : Site J} {calls : List (WriteCall J)} (h : Interleaving cfg replay s calls t)
    {c : WriteCall J} (hc : c ∈ calls) : c.Decided cfg replay := by
  intro judge key hpre hreply
  have hyields := h.yields c hc
  rw [hpre, hreply] at hyields
  exact (Site.publishIf_judges judge c.name c.object).of_yields hyields

variable {m : WriteConditions}

theorem check_of_ifNoneMatch (hm : m.ifNoneMatch = true) {current : Option (Entry Leaf)}
    (h : m.check current = .ok ()) : regularFile current = none := by
  cases ho : regularFile current with
  | none => rfl
  | some o => simp [WriteConditions.check, hm, ho] at h

theorem check_of_ifMatch (hm : m.ifMatch ≠ []) {current : Option (Entry Leaf)} (h : m.check current = .ok ()) :
    ∃ o, regularFile current = some o ∧ etagListMatches m.ifMatch (etagFor o) = true := by
  unfold WriteConditions.check at h
  dsimp only at h
  split at h
  · cases h
  · split at h
    · cases h
    · next o ho =>
      split at h
      · next hmatch => exact ⟨o, ho, hmatch⟩
      · cases h

theorem precondition_eq_check (h : m.ifNoneMatch = true ∨ m.ifMatch ≠ []) :
    m.precondition = some m.check := by
  have hempty : m.empty = false := by
    rcases h with h | h
    · simp [WriteConditions.empty, h]
    · simp [WriteConditions.empty, h]
  rw [WriteConditions.precondition, hempty]
  rfl

end

/-- Conditional writes are decided in the section that publishes them, however the sections of
writers interleave. -/
theorem conditional_writes_linearized {J : Type} {cfg : Config} {replay : J → Sys Unit} {s t : Site J}
    {calls : List (WriteCall J)} (h : Interleaving cfg replay s calls t) : Linearized cfg replay calls where
  decided c hc := h.decided hc
  matched := by
    intro c hc m key hpre hreply hm
    rw [precondition_eq_check (Or.inr hm)] at hpre
    obtain ⟨u, replaced, hacc⟩ := h.decided hc m.check key hpre hreply
    obtain ⟨o, ho, hmatch⟩ := check_of_ifMatch hm hacc.judged
    rcases hacc.replaces.same with ⟨hnone, -⟩ | ⟨o', x, ho', hx⟩
    · rw [hnone] at ho
      cases ho
    · obtain rfl := Option.some.inj (ho'.symm.trans ho)
      have hreplaced := regularFile_eq_some.mp hx
      subst hreplaced
      refine ⟨u, o', x, hacc, regularFile_eq_some.mp ho, hmatch, fun hstamped => ?_⟩
      have hsame := hacc.replaces.exact hstamped
      rw [ho, hx] at hsame
      exact congrArg FileObj.modTime (Option.some.inj hsame)
  absent := by
    intro xs ys zs c d hcalls hname m m' key key' hpre hpre' hm hm' hreply hreply'
    rw [precondition_eq_check (Or.inl hm)] at hpre
    rw [precondition_eq_check (Or.inl hm')] at hpre'
    have hc : c ∈ calls := by
      rw [hcalls]
      simp
    have hd : d ∈ calls := by
      rw [hcalls]
      simp
    obtain ⟨_, _, hacc⟩ := h.decided hc m.check key hpre hreply
    obtain ⟨u, replaced, hacc'⟩ := h.decided hd m'.check key' hpre' hreply'
    obtain ⟨x, hx⟩ := hacc.replaces.present
    have hfree := check_of_ifNoneMatch hm' hacc'.judged
    refine ⟨⟨_, hx⟩, u, replaced, hacc', hfree, ?_⟩
    rcases hacc'.replaces.same with ⟨-, hnone⟩ | ⟨o, y, ho, -⟩
    · exact hnone
    · rw [hfree] at ho
      cases ho
  refused := by
    intro c hc failure hreply
    have hyields := h.yields c hc
    cases hpre : c.precondition with
    | none =>
      rw [hpre, hreply] at hyields
      have hnever : (Site.publishIf cfg replay none c.name c.object).Safe (fun _ => True)
          (fun reply _ => ∃ key, reply = .ok key) c.before :=
        Safe.bind (safe_trivial _ _) fun _ _ _ => Safe.bind (safe_trivial _ _) fun _ _ _ => safe_pure ⟨_, rfl⟩
      obtain ⟨key, hkey⟩ := hnever.of_yields hyields
      cases hkey
    | some judge =>
      rw [hpre, hreply] at hyields
      exact (Site.publishIf_judges judge c.name c.object).of_yields hyields

def noReplay : Unit → Sys Unit := fun _ => pure ()

def startedSite : Site Unit := ⟨startedNode, none, []⟩

def onlyIfFree : WriteConditions := ⟨true, []⟩

def createdSite : Site Unit :=
  ((Site.publishIf plainConfig noReplay onlyIfFree.precondition "k" ⟨[7], 1, 0⟩).exec startedSite).2

def touchedSite : Site Unit :=
  { createdSite with node := ((chtimes plainConfig "k" 2).exec createdSite.node).2 }

def onlyTouched : WriteConditions := ⟨false, ['"', '1', '-', '2', '"']⟩

/-- The replacement is accepted for the tag that the file has at the check, but its commit restores
the indexed timestamp first, so the file that the rename replaces has another tag. -/
theorem restamped_before_rename :
    onlyTouched.check (touchedSite.entry "k") = .ok () ∧
      ((Site.publishIf plainConfig noReplay onlyTouched.precondition "k" ⟨[8], 3, 1⟩).exec touchedSite).1 =
        .ok (.ok ⟨1, 1, 3⟩) ∧
      ((Site.publishIf plainConfig noReplay onlyTouched.precondition "k" ⟨[8], 3, 1⟩).exec touchedSite).2.renames =
        touchedSite.renames ++ [⟨"k", some (.leaf (.file ⟨[7], 1, 0⟩)), ⟨[8], 3, 1⟩⟩] ∧
      onlyTouched.check (some (.leaf (.file ⟨[7], 1, 0⟩))) = .error errPreconditionFailed := by
  decide +kernel

/-- A key that is free is written once. -/
theorem conditional_writes_linearized_create :
    ((Site.publishIf plainConfig noReplay onlyIfFree.precondition "k" ⟨[7], 1, 0⟩).exec startedSite).1 =
        .ok (.ok ⟨0, 1, 1⟩) ∧
      Linearized plainConfig noReplay
        [⟨startedSite, onlyIfFree.precondition, "k", ⟨[7], 1, 0⟩, .ok ⟨0, 1, 1⟩, createdSite⟩] := by
  have hreply : ((Site.publishIf plainConfig noReplay onlyIfFree.precondition "k" ⟨[7], 1, 0⟩).exec
      startedSite).1 = .ok (.ok ⟨0, 1, 1⟩) := by decide +kernel
  have hyields : (Site.publishIf plainConfig noReplay onlyIfFree.precondition "k" ⟨[7], 1, 0⟩).Yields
      startedSite (.ok ⟨0, 1, 1⟩) createdSite := ⟨[], by rw [run_nil, hreply]; rfl⟩
  exact ⟨hreply, conditional_writes_linearized (.returned .start hyields)⟩

end BirakFormal
