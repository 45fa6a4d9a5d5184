import BirakFormal.Syncer.Onward

/-!
# Rows along a settlement

Preserving a conflicting file commits the row of its copy; removing it commits its
tombstone. Neither touches the row of the name the settlement is for. The one way it could,
a copy whose own name is in the way, ends in an error: a file cannot be renamed over the
directory that holds it.
-/

namespace BirakFormal

open FileTrees Interruption Prog

def OnlyRow (n : String) (s t : Node) : Prop :=
  (∀ k, k ≠ n → t.store.getFile k = s.store.getFile k) ∧ t.recovered = s.recovered

theorem onlyRowFrame (n : String) : Frame (OnlyRow n) :=
  ⟨fun _ => ⟨fun _ _ => rfl, rfl⟩, fun h h' => ⟨fun k hk => (h'.1 k hk).trans (h.1 k hk), h'.2.trans h.2⟩⟩

theorem SameIndex.onlyRow {s t : Node} (n : String) (h : SameIndex s t) : OnlyRow n s t :=
  ⟨fun _ _ => by rw [h.1], h.2⟩

theorem IndexedRun.onlyRow {cfg : Config} {n : String} {s t : Node} (h : IndexedRun cfg n s t) :
    OnlyRow n s t :=
  ⟨h.aside.rows, h.aside.recovered⟩

section

theorem clockValid_of_fields {f g : FileMeta} (h : ClockValid f)
    (hb : g.bigClock = f.bigClock) (hc : g.clock = f.stateClock) : ClockValid g := by
  rw [clockValid_iff] at h ⊢
  rw [hb, hc]
  rcases h with h | ⟨hmax, hrest⟩
  · exact Or.inl h
  · refine Or.inr ⟨?_, hrest⟩
    rw [stateClock_of_pos (by rw [hmax]; decide), hmax]

theorem superseded_ok {w : FileMeta} (n : String) (h : ClockValid w) : StateOk (superseded n w) :=
  ⟨clockValid_of_fields h rfl rfl, nofun⟩

variable {m : FileMeta}

theorem advanceClock_copy_ok {p : Option FileMeta} (digest : Digest)
    (h : ClockValid m) (hp : ∀ q, p = some q → ClockValid q) :
    StateOk (advanceClock (conflictCopy digest m) p) := by
  refine ⟨advanceClock_valid (clockValid_of_fields h rfl rfl) hp, fun _ => ?_⟩
  obtain ⟨c, b, hadv⟩ := advanceClock_eq (conflictCopy digest m) p
  rw [hadv]
  rfl

theorem advanceClock_name (f : FileMeta) (p : Option FileMeta) : (advanceClock f p).name = f.name := by
  obtain ⟨c, b, h⟩ := advanceClock_eq f p
  rw [h]

theorem stateLe_advanceClock (f : FileMeta) {p : Option FileMeta}
    (hp : ∀ q, p = some q → ClockValid q) : StateLe p (some (advanceClock f p)) := by
  rw [stateLe_iff]
  cases p with
  | none => exact bot_le
  | some q => exact WithBot.coe_le_coe.mpr (rank_lt_of_clockRank (advanceClock_gt (hp q rfl))).le

theorem stateLe_of_remoteWins {mine : Option FileMeta} (h : remoteWins mine m = true) :
    StateLe mine (some m) := by
  unfold remoteWins at h
  rw [decide_eq_true_eq, compareState_gt_iff] at h
  exact stateLe_iff.mpr h.le

theorem stateLe_of_not_remoteWins {mine : Option FileMeta}
    (h : remoteWins mine m = false) : StateLe (some m) mine := by
  unfold remoteWins at h
  rw [decide_eq_false_iff_not, compareState_gt_iff, not_lt] at h
  exact stateLe_iff.mpr h

theorem Committed.stateLe {s₀ : Store} {t : Node} (h : Committed s₀ m t) :
    StateLe (some m) (t.store.getFile m.name) := by
  obtain ⟨v, hv⟩ := h.2.2
  rw [stateLe_iff, hv]
  exact le_refl (stateRank (some m))

end

variable {cfg : Config} {s₀ : Store}

theorem stageReplica_onlyRow (m : FileMeta) (n : String) : (stageReplica m).Within (OnlyRow n) :=
  (onlyRowFrame n).alter fun _ => ⟨fun _ _ => rfl, rfl⟩

theorem putRemote_onlyRow (m : FileMeta) : (putRemote cfg m).Within (OnlyRow m.name) := by
  refine (onlyRowFrame m.name).update fun s a t h => ?_
  cases hp : s.store.commitPut cfg.fold m false with
  | error e => rw [hp] at h; cases h
  | ok r =>
    rw [hp] at h
    cases h
    exact ⟨fun k hk => (Store.getFile_commitPut hp k).trans (if_neg hk), rfl⟩

theorem commitTombstone_onlyRow (m : FileMeta) : (commitTombstone cfg m).Within (OnlyRow m.name) := by
  have F := onlyRowFrame m.name
  have hvol : ∀ {α : Type} {p : Sys α}, p.Within SameIndex → p.Within (OnlyRow m.name) :=
    fun h => h.mono fun _ _ => SameIndex.onlyRow m.name
  exact F.bind (stageReplica_onlyRow m _) fun _ =>
    F.bind (hvol (removeReplicaFile_sameIndex _)) fun _ => F.bind F.barrier fun _ =>
      F.bind (hvol (sameIndexFrame.onlyIf (cleanEmptyParents_sameIndex _))) fun _ =>
        F.bind (putRemote_onlyRow m) fun _ => F.pure _

theorem createTemp_sameIndex : createTemp.Within SameIndex := by
  refine sameIndexFrame.update fun s a t h => ?_
  cases h
  exact ⟨rfl, rfl⟩

theorem openSource_reads (source : Source) : (openSource source).Within fun s t => t = s := by
  cases source with
  | named name => exact readFrame.check _
  | scratch id => exact readFrame.check _

theorem publishCopy_onlyRow (original copy : FileMeta) (source : Source) :
    (publishCopy cfg original copy source).Within (OnlyRow copy.name) := by
  have F := onlyRowFrame copy.name
  refine F.bind (F.readOnly (openSource_reads _)) fun o =>
    F.bind (createTemp_sameIndex.mono fun _ _ => SameIndex.onlyRow _) fun ino => ?_
  split
  · exact F.raise _
  · refine F.bind (F.readOnly (openSource_reads _)) fun current => ?_
    split
    · exact F.raise _
    · exact F.bind F.barrier fun _ => F.bind F.barrier fun _ =>
        F.bind (stageReplica_onlyRow _ _) fun _ =>
          F.bind ((place_sameIndex _ _).mono fun _ _ => SameIndex.onlyRow _) fun _ =>
            F.bind F.barrier fun _ => F.bind (putRemote_onlyRow copy) fun _ => F.pure _

variable {s : Node}

theorem publishCopy_safe {original copy : FileMeta} (source : Source) (h : Ahead s₀ s)
    (hm : StateOk copy) (hle : StateLe (s.store.getFile copy.name) (some copy)) :
    (publishCopy cfg original copy source).Safe (Ahead s₀) (fun _ => Committed s₀ copy) s := by
  have hopen : ∀ t : Node, Ahead s₀ t → (openSource source).Safe (Ahead s₀) (fun _ u => u = t) t :=
    fun t ht => (openSource_reads source t).mono (fun u hu => hu ▸ ht) fun _ _ => id
  refine Safe.bind (hopen s h) ?_
  rintro o t rfl
  refine Safe.bind ((createTemp_sameIndex t).mono (fun u hu => h.sameIndex hu) fun _ _ => id) ?_
  rintro ino u htu
  have hu := h.sameIndex htu
  split
  · exact safe_raise hu
  · refine Safe.bind (hopen u hu) ?_
    rintro current v rfl
    split
    · exact safe_raise hu
    · refine safe_barrier_bind hu (safe_barrier_bind hu ?_)
      have hle' : StateLe (v.store.getFile copy.name) (some copy) := htu.1 ▸ hle
      exact Safe.bind (stageReplica_staged hu hm hle') fun _ w hw =>
        Safe.bind (hw.safe (place_sameIndex _ _)) fun _ _ hx =>
          safe_barrier_bind hx.1 (putRemote_committed hx)

theorem publishCopy_above {original copy : FileMeta} {n : String} (hn : Beneath n copy.name) (s : Node) :
    (publishCopy cfg original copy (.named n)).Safe (fun _ => True) (fun _ _ => False) s := by
  refine safe_check_bind trivial fun o ho => safe_update_bind trivial fun ino t ht => ?_
  have hdisk : t.disk = s.disk := by
    cases ht
    rfl
  have hdir : t.disk.lookup copy.name = some .dir := by
    rw [hdisk]
    refine FileTree.dir_of_beneath hn ?_
    intro hnone
    simp only [hnone] at ho
    cases ho
  split
  · exact safe_raise trivial
  · refine safe_check_bind trivial fun current _ => ?_
    split
    · exact safe_raise trivial
    · refine safe_barrier_bind trivial (safe_barrier_bind trivial (safe_alter_bind trivial
        (safe_update_bind trivial fun _ u hu => ?_)))
      cases hp : Node.place { t with store := t.store.stageReplica copy } copy.name
          ⟨o.bytes, cfg.stamp original.modTime, ino⟩ with
      | error e => rw [hp] at hu; cases hu
      | ok v =>
        obtain ⟨d, hd, -⟩ := place_ok hp
        exact absurd hdir (FileTree.write_eq_some hd).1

theorem refreshLocked_indexed (h : s.recovered = true) (name : String) :
    (refreshLocked cfg name).Safe (IndexedRun cfg name s) (fun _ => IndexedRun cfg name s) s :=
  refreshWith_indexed name {} h

theorem refreshLocked_finds (h : s.recovered = true) {name : String} (hn : Watchable cfg name) :
    (refreshLocked cfg name).Safe (IndexedRun cfg name s)
      (fun _ t => IndexedRun cfg name s t ∧ Refreshed cfg name t) s := by
  refine safe_bind.mpr (safe_barrier_bind .refl (safe_barrier_bind .refl (safe_look_bind .refl ?_)))
  rw [h]
  exact (refreshFileLocked_indexed {}).along (refreshFileLocked_finds hn rfl rfl nofun)

variable {original : FileMeta}

theorem preserveConflictLocked_safe (source : Source) (h : Ahead s₀ s) (hm : ClockValid original) :
    (preserveConflictLocked cfg original source).Safe (Ahead s₀) (fun _ => Ahead s₀) s := by
  refine safe_barrier_bind h (safeLocalPath_bind h fun _ => ?_)
  refine Safe.bind ((refreshLocked_indexed h.recovered _).mono (fun t ht => h.indexed ht)
    fun _ _ => id) ?_
  intro _ t hst
  have ht : Ahead s₀ t := h.indexed hst
  refine safe_look_bind ht ?_
  split
  · split
    · exact safe_pure ht
    · exact safe_raise ht
  · have hprev : ∀ q, t.store.getFile (conflictCopy cfg.digest original).name = some q →
        ClockValid q := fun q hq => (ht.sound.rows_ok _ q hq).clock
    refine (publishCopy_safe source ht (advanceClock_copy_ok _ hm hprev) ?_).imp fun _ _ hc => hc.1
    rw [advanceClock_name]
    exact stateLe_advanceClock _ hprev

theorem preserveConflictLocked_onlyRow (source : Source) (h : s.recovered = true) :
    (preserveConflictLocked cfg original source).Safe (fun _ => True)
      (fun _ t => OnlyRow (conflictCopyName cfg.digest original.name original.hash) s t) s := by
  have F := onlyRowFrame (conflictCopyName cfg.digest original.name original.hash)
  refine safe_barrier_bind trivial (safeLocalPath_bind trivial fun _ => ?_)
  refine Safe.bind ((refreshLocked_indexed h _).weaken fun _ _ => IndexedRun.onlyRow) ?_
  intro _ t hst
  refine safe_look_bind trivial ?_
  split
  · split
    · exact safe_pure hst
    · exact safe_raise trivial
  · refine (publishCopy_onlyRow original _ source t).weaken fun _ u hu => F.trans hst ?_
    rwa [advanceClock_name] at hu

theorem preserveConflictLocked_above {n : String}
    (h : s.recovered = true) {x : Leaf} (hx : s.disk.lookup n = some (.leaf x))
    (hn : Beneath n (conflictCopyName cfg.digest original.name original.hash)) :
    (preserveConflictLocked cfg original (.named n)).Safe (fun _ => True) (fun _ _ => False) s := by
  refine safe_barrier_bind trivial (safeLocalPath_bind trivial fun hw => ?_)
  refine Safe.bind ((refreshLocked_finds h hw.watchable).weaken fun _ _ => id) ?_
  rintro _ t ⟨hst, hfresh⟩
  refine safe_look_bind trivial ?_
  split
  · next p hp =>
    obtain ⟨o, ho, -⟩ := hfresh.2 p hp
    have hx' : t.disk.lookup n = some (.leaf x) := (hst.aside.leaves n x hn.ne).mpr hx
    have hdir := FileTree.dir_of_beneath hn (by rw [hx']; nofun)
    have ho' : t.disk.lookup (conflictCopyName cfg.digest original.name original.hash) =
      some (.leaf (.file o)) := ho
    rw [hdir] at ho'
    cases ho'
  · refine publishCopy_above ?_ t
    rw [advanceClock_name]
    exact hn

theorem preserveConflictLocked_self {l : FileMeta} (h : s.recovered = true)
    (hrow : liveRow (s.store.getFile l.name) = some l) (hfresh : Refreshed cfg l.name s)
    (hself : conflictCopyName cfg.digest l.name l.hash = l.name) :
    (preserveConflictLocked cfg l (.named l.name)).Safe (fun _ => True)
      (fun _ t => t.store.getFile l.name = s.store.getFile l.name) s := by
  have hname : (conflictCopy cfg.digest l).name = l.name := hself
  have hquiet : Quiet cfg s l.name := ⟨hfresh.1, Or.inl ⟨l, hrow, hfresh.2 l hrow⟩⟩
  refine safe_barrier_bind trivial (safeLocalPath_bind trivial fun _ => ?_)
  rw [hname]
  have hrefresh : (refreshLocked cfg l.name).Safe (fun _ => True) (fun _ t => SameRows s t) s := by
    refine safe_bind.mpr (safe_barrier_bind trivial (safe_barrier_bind trivial
      (safe_look_bind trivial ?_)))
    rw [h]
    have hpub : Honest cfg s l.name (({} : IndexOptions).published l.name) := nofun
    exact (refreshFileLocked_quiet hquiet hpub).weaken fun _ _ ht => ht.sameRows
  refine Safe.bind hrefresh fun _ t ht => safe_look_bind trivial ?_
  have hprev : liveRow (t.store.getFile l.name) = some l := (ht.getFile _).symm ▸ hrow
  simp only [hprev]
  rw [if_pos ⟨rfl, rfl⟩]
  exact safe_pure (ht.getFile _)

def Crossing (a b : String) : Prop := Beneath a b ∨ Beneath b a

theorem Crossing.ne {a b : String} (h : Crossing a b) : a ≠ b :=
  h.elim Beneath.ne fun h => h.ne.symm

theorem preserveConflictLocked_keeps {l : FileMeta} (h : s.recovered = true)
    (hrow : liveRow (s.store.getFile l.name) = some l) (hfresh : Refreshed cfg l.name s)
    {k : String} (hk : k = l.name ∨ Crossing k l.name) :
    (preserveConflictLocked cfg l (.named l.name)).Safe (fun _ => True)
      (fun _ t => t.store.getFile k = s.store.getFile k) s := by
  obtain ⟨o, ho, -⟩ := hfresh.2 l hrow
  by_cases hck : k = conflictCopyName cfg.digest l.name l.hash
  · subst hck
    rcases hk with hself | hbelow | habove
    · rw [hself]
      exact preserveConflictLocked_self h hrow hfresh hself
    · exact absurd hbelow (not_beneath_conflictCopyName _ _ _ _)
    · exact (preserveConflictLocked_above h ho habove).weaken fun _ _ => False.elim
  · exact (preserveConflictLocked_onlyRow _ h).weaken fun _ t ht => ht.1 k hck

variable {m : FileMeta}

theorem displace_safe (h : Ahead s₀ s) (hw : Watchable cfg m.name) :
    (displace cfg m).Safe (Ahead s₀) (fun wins t => Ahead s₀ t ∧
      (if wins then StateLe (t.store.getFile m.name) (some m)
        else StateLe (some m) (t.store.getFile m.name))) s := by
  refine Safe.bind ((refreshLocked_finds h.recovered hw).mono (fun t ht => h.indexed ht)
    fun _ _ => id) ?_
  rintro _ t ⟨hst, hfresh⟩
  have ht : Ahead s₀ t := h.indexed hst
  refine safe_look_bind ht ?_
  cases hwins : remoteWins (t.store.getFile m.name) m with
  | false => exact safe_pure ⟨ht, stateLe_of_not_remoteWins hwins⟩
  | true =>
    have hle := stateLe_of_remoteWins hwins
    simp only [Bool.not_true, Bool.false_eq_true, if_false]
    split
    · exact safe_pure ⟨ht, hle⟩
    · next l hl =>
      have hln : l.name = m.name := Store.getFile_name (Option.filter_eq_some_iff.mp hl).1
      rw [← hln] at hl hfresh ⊢
      have hvalid := (ht.sound.rows_ok _ l (Option.filter_eq_some_iff.mp hl).1).clock
      refine Safe.bind (((preserveConflictLocked_safe _ ht hvalid).and
        (preserveConflictLocked_keeps ht.recovered hl hfresh (Or.inl rfl))).mono
          (fun _ => And.left) fun _ _ => id) ?_
      rintro _ u ⟨hu, hrow⟩
      refine safe_pure ⟨hu, ?_⟩
      rw [if_pos rfl, hrow, hln]
      exact hle

theorem displace_keeps (h : s.recovered = true) (hw : Watchable cfg m.name) {k : String} (hk : Crossing k m.name) :
    (displace cfg m).Safe (fun _ => True)
      (fun _ t => t.store.getFile k = s.store.getFile k) s := by
  refine Safe.bind ((refreshLocked_finds h hw).weaken fun _ _ => id) ?_
  rintro _ t ⟨hst, hfresh⟩
  have hrow := hst.aside.rows k hk.ne
  refine safe_look_bind trivial ?_
  split
  · exact safe_pure hrow
  · split
    · exact safe_pure hrow
    · next l hl =>
      have hln : l.name = m.name := Store.getFile_name (Option.filter_eq_some_iff.mp hl).1
      rw [← hln] at hl hfresh hk ⊢
      have hrec : t.recovered = true := hst.aside.recovered.trans h
      refine Safe.bind (preserveConflictLocked_keeps hrec hl hfresh (Or.inr hk)) fun _ u hu => ?_
      exact safe_pure (hu.trans hrow)

theorem commitDeletionLocked_safe (h : Ahead s₀ s) (hm : StateOk m) (hw : Watchable cfg m.name)
    (hplain : m.supersededBy = "" → StateLe (s.store.getFile m.name) (some m)) :
    (commitDeletionLocked cfg m).Safe (Ahead s₀)
      (fun _ t => Ahead s₀ t ∧ StateLe (some m) (t.store.getFile m.name)) s := by
  refine safe_barrier_bind h ?_
  have hdisplace : (displaceSuperseded cfg m).Safe (Ahead s₀) (fun wins t => Ahead s₀ t ∧
      (if wins then StateLe (t.store.getFile m.name) (some m)
        else StateLe (some m) (t.store.getFile m.name))) s := by
    unfold displaceSuperseded
    split
    · exact displace_safe h hw
    · next hs => exact safe_pure ⟨h, hplain (not_not.mp hs)⟩
  refine Safe.bind hdisplace ?_
  rintro wins t ⟨ht, hle⟩
  cases wins with
  | false => exact safe_pure ⟨ht, hle⟩
  | true =>
    refine safe_barrier_bind ht ((commitTombstone_safe ht hm hle).imp fun _ u hu => ?_)
    exact ⟨hu.1, hu.stateLe⟩

theorem commitDeletionLocked_keeps (h : s.recovered = true)
    (hw : Watchable cfg m.name) {k : String} (hk : Crossing k m.name) :
    (commitDeletionLocked cfg m).Safe (fun _ => True)
      (fun _ t => t.store.getFile k = s.store.getFile k) s := by
  refine safe_barrier_bind trivial ?_
  have hdisplace : (displaceSuperseded cfg m).Safe (fun _ => True)
      (fun _ t => t.store.getFile k = s.store.getFile k) s := by
    unfold displaceSuperseded
    split
    · exact displace_keeps h hw hk
    · exact safe_pure rfl
  refine Safe.bind hdisplace fun wins t ht => ?_
  split
  · exact safe_pure ht
  · refine safe_barrier_bind trivial ((commitTombstone_onlyRow m t).weaken fun _ u hu => ?_)
    exact (hu.1 k hk.ne).trans ht

structure Rival (name : String) (l : FileMeta) : Prop where
  crossing : Crossing name l.name
  live : l.deleted = false
  ok : StateOk l
  sync : validateSyncName l.name = .ok ()

theorem addConflict_safe (h : Ahead s₀ s) {name n : String} (hn : Crossing name n) :
    (addConflict cfg n).Safe (Ahead s₀)
      (fun l t => Ahead s₀ t ∧ OnlyRow n s t ∧ Rival name l) s := by
  refine safeLocalPath_bind h fun hsafe => safe_look_bind h ?_
  split
  · exact safe_raise h
  · refine Safe.bind ((refreshLocked_indexed h.recovered n).mono (fun t ht => h.indexed ht)
      fun _ _ => id) ?_
    intro _ t hst
    have ht := h.indexed hst
    refine safe_look_bind ht ?_
    split
    · exact safe_raise ht
    · next l hl =>
      obtain ⟨hrow, hlive⟩ := Option.filter_eq_some_iff.mp hl
      have hname := Store.getFile_name hrow
      exact safe_pure ⟨ht, hst.onlyRow, hname ▸ hn, by simpa using hlive,
        ht.sound.rows_ok _ l hrow, hname ▸ hsafe.sync⟩

/-- What is known of a list of conflicts with `name`, found since `s`. -/
def Rivals (s₀ : Store) (name : String) (s : Node) (found : List FileMeta) (t : Node) : Prop :=
  Ahead s₀ t ∧ t.store.getFile name = s.store.getFile name ∧ ∀ l ∈ found, Rival name l

theorem addConflicts_safe {name : String} {names : List String} {found : List FileMeta}
    {t : Node} (h : Rivals s₀ name s found t) (hnames : ∀ n ∈ names, Crossing name n) :
    (addConflicts cfg found names).Safe (Ahead s₀) (Rivals s₀ name s) t := by
  induction names generalizing found t with
  | nil => exact safe_pure h
  | cons n names ih =>
    obtain ⟨hcross, hnames⟩ := List.forall_mem_cons.mp hnames
    refine safeLocalPath_bind h.1 fun _ => safe_look_bind h.1 ?_
    split
    · refine Safe.bind (addConflict_safe h.1 hcross) ?_
      rintro l u ⟨hu, hrow, hrival⟩
      refine ih ⟨hu, (hrow.1 name hcross.ne).trans h.2.1, fun l' hl' => ?_⟩ hnames
      rcases List.mem_append.mp hl' with hl' | hl'
      · exact h.2.2 l' hl'
      · exact List.mem_singleton.mp hl' ▸ hrival
    · exact ih h hnames

theorem blockingAncestor_safe {J : Node → Prop} (h : J s) (names : List String) :
    (blockingAncestor names).Safe J (fun r t => t = s ∧ ∀ a, r = some a → a ∈ names) s := by
  induction names with
  | nil => exact safe_pure ⟨rfl, nofun⟩
  | cons a rest ih =>
    refine safe_look_bind h ?_
    split
    · exact safe_pure ⟨rfl, fun b hb => Option.some.inj hb ▸ List.mem_cons_self⟩
    · exact ih.imp fun r t ⟨ht, hr⟩ => ⟨ht, fun b hb => List.mem_cons_of_mem a (hr b hb)⟩

theorem mem_walk {d : Volume} {name n : String} : n ∈ walk d name ↔ n ∈ d.under name := by
  unfold walk
  exact List.mem_insertionSort _

theorem namespaceConflictsLocked_safe (h : Ahead s₀ s) (name : String) :
    (namespaceConflictsLocked cfg name).Safe (Ahead s₀) (Rivals s₀ name s) s := by
  refine Safe.bind (blockingAncestor_safe h _) ?_
  rintro r t ⟨rfl, hr⟩
  match r with
  | some a =>
    have hcross : Crossing name a := Or.inl (hr a rfl)
    refine Safe.bind (addConflict_safe h hcross) ?_
    rintro l u ⟨hu, hrow, hrival⟩
    exact safe_pure ⟨hu, hrow.1 name hcross.ne, fun l' hl' => List.mem_singleton.mp hl' ▸ hrival⟩
  | none =>
    have hnil : Rivals s₀ name t [] t := ⟨h, rfl, nofun⟩
    refine safe_look_bind h ?_
    split
    · next hdir =>
      refine safe_look_bind h ?_
      split
      · exact safe_raise h
      · refine safe_look_bind h (safeLocalPath_bind h fun _ => safe_look_bind h ?_)
        rw [hdir]
        exact addConflicts_safe hnil fun n hn => Or.inr (FileTree.mem_under.mp (mem_walk.mp hn)).2
    · exact safe_pure hnil

theorem greatest_spec (w : FileMeta) (ls : List FileMeta) :
    (greatest w ls = w ∨ greatest w ls ∈ ls ∧ w.rank < (greatest w ls).rank) ∧
      ∀ l ∈ w :: ls, l.rank ≤ (greatest w ls).rank := by
  induction ls generalizing w with
  | nil => exact ⟨Or.inl rfl, fun l hl => List.mem_singleton.mp hl ▸ le_refl _⟩
  | cons l ls ih =>
    unfold greatest
    split
    · next hgt =>
      have hlt : w.rank < l.rank := WithBot.coe_lt_coe.mp (compareState_gt_iff.mp hgt)
      obtain ⟨hor, hle⟩ := ih l
      have hl := hle l List.mem_cons_self
      refine ⟨Or.inr ?_, List.forall_mem_cons.mpr ⟨hlt.le.trans hl, hle⟩⟩
      rcases hor with heq | ⟨hmem, hlt'⟩
      · rw [heq]; exact ⟨List.mem_cons_self, hlt⟩
      · exact ⟨List.mem_cons_of_mem l hmem, hlt.trans hlt'⟩
    · next hgt =>
      have hle' : l.rank ≤ w.rank := by
        rw [compareState_gt_iff, not_lt] at hgt
        exact WithBot.coe_le_coe.mp hgt
      obtain ⟨hor, hle⟩ := ih w
      have hw := hle w List.mem_cons_self
      refine ⟨hor.imp id fun h => ⟨List.mem_cons_of_mem l h.1, h.2⟩, ?_⟩
      exact List.forall_mem_cons.mpr ⟨hw, List.forall_mem_cons.mpr
        ⟨hle'.trans hw, (List.forall_mem_cons.mp hle).2⟩⟩

theorem greatest_rival {ls : List FileMeta} (h : (greatest m ls).name ≠ m.name) :
    greatest m ls ∈ ls ∧ m.rank < (greatest m ls).rank :=
  (greatest_spec m ls).1.resolve_left fun heq => h (by rw [heq])

theorem removeEmptyTree_sameIndex (name : String) : (removeEmptyTree name).Within SameIndex := by
  have F := sameIndexFrame
  refine F.bind (F.look _) fun names => F.bind (F.look _) fun leaf => ?_
  split
  · exact F.raise _
  · exact F.forEach fun n _ => removeEntry_sameIndex n

theorem yieldTo_safe {m l : FileMeta} (h : Ahead s₀ s) (hm : ClockValid m)
    (hname : m.name ≠ "") (hl : Rival m.name l) :
    (yieldTo cfg m l).Safe (Ahead s₀)
      (fun _ t => Ahead s₀ t ∧ t.store.getFile m.name = s.store.getFile m.name) s := by
  refine safeLocalPath_bind h fun hsafe => ?_
  have hdel := commitDeletionLocked_safe (m := superseded l.name m) h (superseded_ok _ hm)
    hsafe.watchable fun hs => absurd hs hname
  have hkeep := commitDeletionLocked_keeps (m := superseded l.name m) h.recovered hsafe.watchable
    hl.crossing
  exact (hdel.and hkeep).mono (fun _ => And.left) fun _ _ ht => ⟨ht.1.1, ht.2⟩

theorem settleNamespaceLocked_safe (temporary : Nat) (h : Ahead s₀ s) (hm : ClockValid m) (hname : m.name ≠ "") :
    (settleNamespaceLocked cfg m temporary).Safe (Ahead s₀) (fun apply t => Ahead s₀ t ∧
      (if apply then t.store.getFile m.name = s.store.getFile m.name
        else StateLe (some m) (t.store.getFile m.name))) s := by
  refine Safe.bind (namespaceConflictsLocked_safe h m.name) ?_
  rintro rivals t ⟨ht, hrow, hrivals⟩
  dsimp only
  split
  · next hne =>
    obtain ⟨hmem, hlt⟩ := greatest_rival hne
    have hw := hrivals _ hmem
    refine Safe.bind (preserveConflictLocked_safe _ ht hm) fun _ u hu => ?_
    refine safeLocalPath_bind hu fun hsafe => Safe.bind (commitDeletionLocked_safe
      (m := superseded m.name (greatest m rivals)) hu (superseded_ok _ hw.ok.clock)
      hsafe.watchable fun hs => absurd hs (ne_empty_of_validateSyncName hw.sync)) ?_
    rintro _ v ⟨hv, hle⟩
    refine safe_pure ⟨hv, ?_⟩
    have hrank := superseded_rank m.name (ne_empty_of_validateSyncName hw.sync) hw.live
      (hw.ok.plain hw.live)
    rw [stateLe_iff, stateRank_some, hrank] at hle
    exact stateLe_iff.mpr ((WithBot.coe_le_coe.mpr hlt.le).trans hle)
  · have hloop : (forEach (yieldTo cfg m) rivals).Safe (Ahead s₀)
        (fun _ u => Ahead s₀ u ∧ u.store.getFile m.name = s.store.getFile m.name) t := by
      refine safe_forEach (fun l hl u hu => ?_) ⟨ht, hrow⟩
      exact (yieldTo_safe hu.1 hm hname (hrivals l hl)).imp fun _ v hv => ⟨hv.1, hv.2.trans hu.2⟩
    refine Safe.bind hloop ?_
    rintro _ u ⟨hu, hrow'⟩
    refine safeLocalPath_bind hu fun _ => safe_look_bind hu ?_
    split
    · refine Safe.bind ((removeEmptyTree_sameIndex m.name u).mono (fun v hv => hu.sameIndex hv)
        fun _ _ => id) fun _ v hv => safe_pure ⟨hu.sameIndex hv, ?_⟩
      rw [if_pos rfl, hv.1, hrow']
    · exact safe_pure ⟨hu, hrow'⟩

end BirakFormal
