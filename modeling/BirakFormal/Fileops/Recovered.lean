import BirakFormal.Fileops.Atomic
import BirakFormal.Store.Sha256

/-!
# Recovery of a replacement

From every phase a recovery that returns ends with the journal gone, and a replacement that is
stopped anywhere stops in a phase. Recoveries and crashes may follow each other in any order.
-/

namespace BirakFormal

open Interruption Prog Subtrees Relation

section
variable {t₁ : PathMap String Object} {s : Replacement} {digest : Digest} {u : Disk}

theorem recoverChecks_safe {J : Disk → Prop} {Q : Unit → Disk → Prop} (r : Replacement) (hJ : J u)
    (hr : Rooted u.tree) (hne : r.backup ≠ [])
    (h : (recoverTrees digest r (manifest digest u.tree r.backup) >>= fun _ =>
      finishReplacement r).Safe J Q u) : (recoverReplacement digest r).Safe J Q u := by
  have hparents : ∀ name, (safeReplacementParents name).Safe J (fun _ v => v = u) u :=
    fun name => safe_check hJ fun _ _ => rfl
  refine safe_check_bind hJ fun _ _ => ?_
  refine Safe.bind (hparents _) ?_
  rintro _ v rfl
  refine Safe.bind (hparents _) ?_
  rintro _ v rfl
  refine Safe.bind (hparents _) ?_
  rintro _ v rfl
  refine Safe.bind (replacementTree_spec hr hne hJ) ?_
  rintro m w ⟨rfl, rfl, -⟩
  exact h

theorem recoverReplacement_uncommitted (hp : Planned digest t₁ s) (h : Phase t₁ s u) (hj : u.journal = some s) :
    (recoverReplacement digest s).Safe (Phase t₁ s)
      (fun _ v => Phase t₁ s v ∧ v.journal = none) u := by
  refine recoverChecks_safe s h h.rooted (hp.root_ne .backup) ?_
  refine Safe.bind (recoverTrees_uncommitted hp h hj) ?_
  rintro _ v ⟨hv, hjv⟩
  exact finish_rolledBack hp hv hjv

theorem recoverReplacement_committed {c : Subtree} {g : Bool} (hp : Planned digest t₁ s)
    (hj : u.journal = some { s with committed := true })
    (hdir : isDirAt t₁ s.destination.dropLast = true)
    (h : Holds t₁ s nothing (newTree t₁ s) c g u) (hc : PartOf c (oldTree t₁ s))
    (hu : Lost t₁ s .backup (oldTree t₁ s) u) :
    (recoverReplacement digest { s with committed := true }).Safe (Phase t₁ s)
      (fun _ v => Phase t₁ s v ∧ v.journal = none) u := by
  have here : Phase t₁ s u := .cleaning hj hdir h hc hu
  refine recoverChecks_safe _ here h.rooted (hp.root_ne .backup) ?_
  refine Safe.bind (recoverTrees_committed hp hj hdir h hc hu) ?_
  rintro _ v ⟨hv, hl, hjv⟩
  exact finish_committed hp hdir hv hl hjv

theorem recoverJournal_safe (hp : Planned digest t₁ s) (h : Phase t₁ s u) :
    (recoverJournal digest).Safe (Phase t₁ s) (fun _ v => Phase t₁ s v ∧ v.journal = none) u := by
  refine safe_look_bind h ?_
  cases hr : u.journal with
  | none => exact safe_pure ⟨h, hr⟩
  | some r =>
    have hsome : u.journal = some s → (recoverReplacement digest r).Safe (Phase t₁ s)
        (fun _ v => Phase t₁ s v ∧ v.journal = none) u := by
      intro hj
      rw [Option.some.inj (hr.symm.trans hj)]
      exact recoverReplacement_uncommitted hp h hj
    have hne : u.journal ≠ none := by
      rw [hr]
      exact Option.some_ne_none r
    cases h with
    | before hj => exact hsome (hj.resolve_left hne)
    | undoing _ hj => exact hsome (hj.resolve_left hne)
    | backedUp hj => exact hsome hj
    | published hj => exact hsome hj
    | done hj => exact absurd hj hne
    | cleaning hj hdir h hc hu =>
      rw [Option.some.inj (hr.symm.trans hj)]
      exact recoverReplacement_committed hp hj hdir h hc hu

theorem writeReplacement_safe {J : Disk → Prop} (r : Replacement) (hJ : J u) (h : J { u with journal := some r }) :
    (writeReplacement r).Safe J (fun _ v => v = { u with journal := some r }) u :=
  safe_barrier_bind hJ (safe_barrier_bind hJ (safe_barrier_bind hJ (safe_alter_bind hJ
    (safe_barrier h rfl))))

theorem exchangeTrees_safe (hp : Planned digest t₁ s) (hj : u.journal = some s)
    (h : Holds t₁ s (newTree t₁ s) (oldTree t₁ s) nothing false u) (hu : u.unsynced = []) :
    (exchangeTrees s).Safe (fun v => Phase t₁ s v ∧ v.journal = some s)
      (fun _ v => v.journal = some s ∧ isDirAt t₁ s.destination.dropLast = true ∧
        Holds t₁ s nothing (newTree t₁ s) (oldTree t₁ s) false v ∧ v.unsynced = []) u := by
  refine Safe.bind (R := fun _ v => v.journal = some s ∧
    Holds t₁ s (newTree t₁ s) nothing (oldTree t₁ s) false v ∧ v.unsynced = []) ?_ ?_
  · refine safe_onlyIf (fun _ => ?_) fun hold => ?_
    · refine Safe.bind (R := fun _ v => v.journal = some s ∧
        Holds t₁ s (newTree t₁ s) nothing (oldTree t₁ s) false v ∧ v.unsynced = [])
        (safe_rename (i := .destination) (j := .backup) hp h (by decide)
          (fill_move_destination_backup _ _ _) ⟨.before (Or.inr hj) h hu, hj⟩ ?_) ?_
      · intro v hjv huv hv _
        exact ⟨hjv.trans hj, hv, huv.trans hu⟩
      rintro _ v ⟨hjv, hv, huv⟩
      refine syncDir_safe _ ⟨.backedUp hjv hv huv, hjv⟩ fun w hw => ?_
      exact ⟨hw.journal.trans hjv, hw.holds hv, hw.synced huv⟩
    · have hempty : oldTree t₁ s = nothing := hp.oldTree_empty (by simpa using hold)
      rw [hempty] at h ⊢
      exact ⟨hj, h, hu⟩
  · rintro _ v ⟨hjv, hv, huv⟩
    have here : Phase t₁ s v := .backedUp hjv hv huv
    refine Safe.bind (R := fun _ w => w.journal = some s ∧ isDirAt t₁ s.destination.dropLast = true ∧
      Holds t₁ s nothing (newTree t₁ s) (oldTree t₁ s) false w ∧ w.unsynced = [])
      (safe_rename (i := .source) (j := .destination) hp hv (by decide)
        (fill_move_source_destination _ _ _) ⟨here, hjv⟩ ?_) ?_
    · intro w hjw huw hw hdir
      exact ⟨hjw.trans hjv, (hv.isDirAt_parent hp).symm.trans hdir, hw, huw.trans huv⟩
    rintro _ w ⟨hjw, hdir, hw, huw⟩
    refine syncReplacementParents_safe _ (fun x hx => ?_) fun x hx => ?_
    · have hjx := hx.journal.trans hjw
      exact ⟨.published hjx hdir (hx.holds hw) (hx.synced huw), hjx⟩
    · exact ⟨hx.journal.trans hjw, hdir, hx.holds hw, hx.synced huw⟩

theorem commitReplacement_safe (hp : Planned digest t₁ s) (hj : u.journal = none)
    (h : Holds t₁ s (newTree t₁ s) (oldTree t₁ s) nothing false u) (hu : u.unsynced = []) :
    (commitReplacement digest s).Safe (Phase t₁ s) (fun _ => Phase t₁ s) u := by
  have hstart : Holds t₁ s (newTree t₁ s) (oldTree t₁ s) nothing false { u with journal := some s } :=
    ⟨h.laid, h.rooted⟩
  refine Safe.bind (writeReplacement_safe s (.before (Or.inl hj) h hu)
    (.before (Or.inr rfl) hstart hu)) ?_
  rintro _ v rfl
  have hexchange := (exchangeTrees_safe hp rfl hstart hu).attempt
  refine Safe.bind (hexchange.mono (fun _ => And.left) fun _ _ => id) ?_
  rintro (e | _) v hv
  · -- The error of the exchange is returned whatever becomes of the rollback.
    refine Safe.bind (R := fun _ => Phase t₁ s) ?_ fun _ w hw => safe_rethrow hw
    refine (recoverReplacement_uncommitted hp hv.1 hv.2).attempt.imp ?_
    rintro (e' | _) w hw
    · exact hw
    · exact hw.1
  · obtain ⟨hjv, hdir, hv, huv⟩ := hv
    have hlost : Lost t₁ s .backup (oldTree t₁ s) v := by
      rw [Lost, huv]
      exact fun _ hd => absurd hd List.not_mem_nil
    have hcommitted : Holds t₁ s nothing (newTree t₁ s) (oldTree t₁ s) false
        { v with journal := some { s with committed := true } } := ⟨hv.laid, hv.rooted⟩
    refine Safe.bind (writeReplacement_safe _ (.published hjv hdir hv huv)
      (.cleaning rfl hdir hcommitted (fun _ _ => id) hlost)) ?_
    rintro _ w rfl
    exact (recoverReplacement_committed hp rfl hdir hcommitted (fun _ _ => id) hlost).imp
      fun _ _ => And.left

variable {J : Disk → Prop}

theorem ne_nil_of_local {p : Path} (h : localReplacementName p = true) : p ≠ [] := by
  unfold localReplacementName at h
  simp only [Bool.and_eq_true, decide_eq_true_eq] at h
  exact h.1

theorem validateReplacement_ok (h : validateReplacement s = .ok ()) :
    (∀ i, s.root i ≠ []) ∧ overlaps s = false ∧ badCopyStage s = false := by
  unfold validateReplacement at h
  split at h
  · cases h
  · split at h
    · cases h
    · next hlocal =>
      split at h
      · cases h
      · next hover =>
        split at h
        · cases h
        · split at h
          · cases h
          · next hstage =>
            refine ⟨fun i => ?_, by simpa using hover, by simpa using hstage⟩
            simp only [List.any_cons, List.any_nil, Bool.or_false, Bool.or_eq_true,
              Bool.not_eq_true', not_or, Bool.not_eq_false] at hlocal
            cases i with
            | source => exact ne_nil_of_local hlocal.2.1
            | destination => exact ne_nil_of_local hlocal.1
            | backup => exact ne_nil_of_local hlocal.2.2

theorem separate_siblings {p q : Path} (hp : p ≠ []) (hq : q ≠ []) (hdir : p.dropLast = q.dropLast)
    (hne : p ≠ q) : Separate p q := by
  have hlen : p.length = q.length := by
    have heq := congrArg List.length hdir
    have hpos := List.length_pos_iff.mpr hp
    have hpos' := List.length_pos_iff.mpr hq
    rw [List.length_dropLast, List.length_dropLast] at heq
    omega
  exact ⟨fun h => hne (h.eq_of_length hlen), fun h => hne (h.eq_of_length hlen.symm).symm⟩

theorem separate_of_overlaps (hne : ∀ i, s.root i ≠ []) (h : overlaps s = false) :
    Pairwise fun i j => Separate (s.root i) (s.root j) := by
  unfold overlaps under at h
  simp only [Bool.or_eq_false_iff, decide_eq_false_iff_not, Bool.not_eq_false', ne_eq, not_not] at h
  obtain ⟨⟨⟨⟨⟨⟨hds, hsd⟩, hsb⟩, hbs⟩, hbd⟩, hdir⟩, -⟩ := h
  have hback : Separate s.backup s.destination :=
    separate_siblings (hne .backup) (hne .destination) hdir hbd
  intro i j hij
  cases i with
  | source =>
    cases j with
    | source => exact absurd rfl hij
    | destination => exact ⟨hsd, hds⟩
    | backup => exact ⟨hsb, hbs⟩
  | destination =>
    cases j with
    | source => exact ⟨hds, hsd⟩
    | destination => exact absurd rfl hij
    | backup => exact ⟨hback.2, hback.1⟩
  | backup =>
    cases j with
    | source => exact ⟨hbs, hsb⟩
    | destination => exact hback
    | backup => exact absurd rfl hij

theorem stage_of_badCopyStage {stage : Path} (h : badCopyStage s = false) (hs : s.copyStage = some stage) :
    s.source = stage ++ ["payload"] ∧ stage.dropLast = s.destination.dropLast ∧ stage ≠ [] ∧
      ¬ stage <+: s.destination := by
  unfold badCopyStage under at h
  rw [hs] at h
  simp only [Option.any_some, Bool.or_eq_false_iff, decide_eq_false_iff_not, Bool.not_eq_false',
    ne_eq, not_not] at h
  obtain ⟨⟨⟨⟨hlocal, hdir⟩, -⟩, hsource⟩, hunder⟩ := h
  exact ⟨hsource, hdir, ne_nil_of_local hlocal, hunder⟩

theorem prepareReplacement_spec {dst src backup : Path} {copyStage : Option Path} (hJ : J u) (hr : Rooted u.tree) :
    (prepareReplacement digest dst src backup copyStage).Safe J (fun s v => v = u ∧
      (s.destination = dst ∧ s.source = src ∧ s.backup = backup ∧ s.copyStage = copyStage) ∧
      Planned digest u.tree s) u := by
  have hparents : ∀ name, (safeReplacementParents name).Safe J (fun _ v => v = u ∧ name ≠ []) u := by
    intro name
    refine safe_check hJ fun _ h => ⟨rfl, ?_⟩
    split at h
    · next hlocal => exact ne_nil_of_local hlocal
    · cases h
  refine Safe.bind (hparents src) ?_
  rintro _ v ⟨rfl, hsrc⟩
  refine Safe.bind (hparents dst) ?_
  rintro _ v ⟨rfl, hdst⟩
  refine Safe.bind (replacementTree_spec hr hsrc hJ) ?_
  rintro m w ⟨rfl, rfl, hnew⟩
  split
  · exact safe_raise hJ
  · next hnonempty =>
    refine Safe.bind (replacementTree_spec hr hdst hJ) ?_
    rintro m w ⟨rfl, rfl, hold⟩
    refine safe_check_bind hJ fun _ hback => safe_check_bind hJ fun _ hvalid => safe_pure ?_
    obtain ⟨hne, hover, hbad⟩ := validateReplacement_ok hvalid
    have hdir : backup.dropLast = dst.dropLast := by
      unfold overlaps at hover
      simp only [Bool.or_eq_false_iff, decide_eq_false_iff_not, ne_eq, not_not] at hover
      exact hover.1.2
    refine ⟨rfl, ⟨rfl, rfl, rfl, rfl⟩, hr, separate_of_overlaps hne hover, hne, hdir, rfl, rfl, hnew,
      hold, ?_, ?_, rfl, fun stage hs => stage_of_badCopyStage hbad hs⟩
    · intro hnone
      refine hnonempty ?_
      rw [manifest_eq_nil (hr.none_below hsrc hnone)]
      rfl
    · split at hback
      · assumption
      · cases hback

end

/-- A MOVE of `src`, or a COPY that is built below a private stage. -/
inductive Request where
  | move (src : Path)
  | copy (stage : Path) (o : Object) (build : Fs Unit)

namespace Request

def source : Request → Path
  | move src => src
  | copy stage _ _ => stage ++ ["payload"]

def stage : Request → Option Path
  | move _ => none
  | copy stage _ _ => some stage

def replace (digest : Digest) (dst backup : Path) : Request → Fs Unit
  | move src => replaceLocked digest src dst backup
  | copy stage o build => copyReplaceLocked digest stage dst backup o build

/-- The new tree is complete in `b`; a MOVE has it from the start. -/
def Built (d₀ b : Disk) : Request → Prop
  | move _ => b = d₀
  | copy stage o build => ∃ m, (mkdirStage stage o).Yields d₀ () m ∧ build.Yields m () b

def Visible (r : Request) (p : Path) : Prop := ∀ stage, r.stage = some stage → ¬ stage <+: p

end Request

/-- What the caller's copy may do: make a tree at the payload, flushed when it returns. -/
structure BuildStep (stage : Path) (u v : Disk) : Prop where
  journal : v.journal = u.journal
  unsynced : v.unsynced = u.unsynced
  others : ∀ p, ¬ stage ++ ["payload"] <+: p → v.tree.lookup p = u.tree.lookup p
  rooted : Rooted u.tree → isDirAt u.tree stage = true → Rooted v.tree

def Request.Private : Request → Prop
  | .move _ => True
  | .copy stage _ build => build.Within (BuildStep stage)

/-- After a replacement has stopped: recoveries that may stop anywhere, and crashes. -/
inductive Later (digest : Digest) (u v : Disk) : Prop where
  | recovery (h : (recoverJournal digest).Stops u v)
  | crash (h : Crashes u v)

structure Unstarted (t₀ : PathMap String Object) (r : Request) (v : Disk) : Prop where
  journal : v.journal = none
  same : ∀ p, r.Visible p → v.tree.lookup p = t₀.lookup p
  lost : ∀ e ∈ v.unsynced, ¬ r.Visible e.1

def Stopped (digest : Digest) (r : Request) (dst backup : Path) (d₀ v : Disk) : Prop :=
  Unstarted d₀.tree r v ∨ ∃ b s, r.Built d₀ b ∧ (∀ p, r.Visible p → b.tree.lookup p = d₀.tree.lookup p) ∧
    (s.destination = dst ∧ s.source = r.source ∧ s.backup = backup ∧ s.copyStage = r.stage) ∧
    Planned digest b.tree s ∧ Phase b.tree s v

section
variable {digest : Digest} {r : Request} {dst backup : Path} {d₀ u v : Disk} {s : Replacement}

theorem Planned.start (hp : Planned digest u.tree s) :
    Holds u.tree s (newTree u.tree s) (oldTree u.tree s) nothing false u := by
  refine ⟨⟨fun i rel => ?_, fun p _ => ?_⟩, hp.rooted⟩
  · cases i with
    | source => rfl
    | destination => rfl
    | backup => exact hp.rooted.none_below (hp.root_ne .backup) hp.noBackup rel
  · rw [elsewhere, if_neg (by simp)]

variable {t₀ : PathMap String Object}

theorem Unstarted.crash (h : Unstarted t₀ r u) (hc : Crashes u v) :
    Unstarted t₀ r v := by
  refine ⟨hc.journal.trans h.journal, fun p hp => ?_, by rw [hc.unsynced]; nofun⟩
  rcases hc.entries p with hsame | ⟨o, hmem, -⟩
  · exact hsame.trans (h.same p hp)
  · exact absurd hp (h.lost _ hmem)

theorem Stopped.later (h : Stopped digest r dst backup d₀ u) (hl : Later digest u v) :
    Stopped digest r dst backup d₀ v := by
  rcases h with h | ⟨b, s, hb, hsame, hfields, hp, hph⟩
  · cases hl with
    | recovery hstop =>
      refine Or.inl (Safe.stops (J := Unstarted d₀.tree r) (Q := fun _ => Unstarted d₀.tree r)
        (safe_look_bind h ?_) (fun _ _ => id) hstop)
      rw [h.journal]
      exact safe_pure h
    | crash hc => exact Or.inl (h.crash hc)
  · refine Or.inr ⟨b, s, hb, hsame, hfields, hp, ?_⟩
    cases hl with
    | recovery hstop => exact (recoverJournal_safe hp hph).stops (fun _ _ => And.left) hstop
    | crash hc => exact hph.crash hp hc

theorem Stopped.run (h : Stopped digest r dst backup d₀ u) (hl : ReflTransGen (Later digest) u v) :
    Stopped digest r dst backup d₀ v := by
  induction hl with
  | refl => exact h
  | tail _ hlast ih => exact ih.later hlast

theorem replaceLocked_safe {src : Path} (hr : Rooted d₀.tree) (hj : d₀.journal = none) (hu : d₀.unsynced = []) :
    (replaceLocked digest src dst backup).Safe (Stopped digest (.move src) dst backup d₀)
      (fun _ => Stopped digest (.move src) dst backup d₀) d₀ := by
  have here : Stopped digest (.move src) dst backup d₀ d₀ :=
    Or.inl ⟨hj, fun _ _ => rfl, by rw [hu]; nofun⟩
  refine safe_barrier_bind here (safe_barrier_bind here ?_)
  refine Safe.bind (prepareReplacement_spec here hr) ?_
  rintro s v ⟨rfl, hfields, hp⟩
  refine (commitReplacement_safe hp hj hp.start hu).mono ?_ ?_
  · exact fun w hw => Or.inr ⟨v, s, rfl, fun _ _ => rfl, hfields, hp, hw⟩
  · exact fun _ w hw => Or.inr ⟨v, s, rfl, fun _ _ => rfl, hfields, hp, hw⟩

variable {p : Path}

theorem Rooted.put {t : PathMap String Object} {o : Object} (h : Rooted t)
    (hdir : isDirAt t p.dropLast = true) (ho : o.isDir = true) : Rooted (t.put p o) := by
  have hkept : ∀ k, isDirAt t k = true → isDirAt (t.put p o) k = true := by
    intro k hk
    by_cases hkp : k = p
    · refine isDirAt_iff.mpr (Or.inr ⟨o, ?_, ho⟩)
      show (if k = p then some o else t.lookup k) = some o
      rw [if_pos hkp]
    · rw [← hk]
      apply isDirAt_congr
      show (if k = p then some o else t.lookup k) = t.lookup k
      rw [if_neg hkp]
  intro k x hk
  change (if k ++ [x] = p then some o else t.lookup (k ++ [x])) ≠ none at hk
  split at hk
  · next heq =>
    apply hkept
    rw [← heq, List.dropLast_concat] at hdir
    exact hdir
  · exact hkept k (h k x hk)

theorem removeStage_unstarted {stage : Path} (hs : r.stage = some stage) (h : Unstarted t₀ r u) :
    (removeReplacementTree stage).Safe (Unstarted t₀ r) (fun _ => Unstarted t₀ r) u := by
  refine safe_look_bind h (safe_forEach (I := Unstarted t₀ r) (fun rel _ v hv => ?_) h)
  have hhidden : ¬ r.Visible (stage ++ rel) := fun hvis => hvis stage hs (List.prefix_append _ _)
  refine safe_update hv fun _ w hw => ?_
  split at hw
  · cases hw
  · obtain ⟨-, rfl⟩ := safe_unlink hw
    refine ⟨hv.journal, fun p hp => ?_, fun e he => ?_⟩
    · have hne : p ≠ stage ++ rel := fun heq => hhidden (heq ▸ hp)
      show (if p = stage ++ rel then none else v.tree.lookup p) = t₀.lookup p
      rw [if_neg hne]
      exact hv.same p hp
    · rcases List.mem_cons.mp he with rfl | he
      · exact hhidden
      · exact hv.lost e he

theorem Unstarted.flushed {dirs : List Path} (h : Unstarted t₀ r u) (hv : Flushed u dirs v) : Unstarted t₀ r v := by
  obtain ⟨f, -, rfl⟩ := hv
  exact ⟨h.journal, h.same, fun e he => h.lost e (List.mem_of_mem_filter he)⟩

theorem mkdirStage_safe {J : Disk → Prop} {stage : Path} {o : Object} (hJ : J u) :
    (mkdirStage stage o).Safe J (fun _ v => isDirAt u.tree stage.dropLast = true ∧
      v = { u with tree := u.tree.put stage { o with body := .dir } }) u := by
  refine safe_update hJ fun _ v h => ?_
  split at h
  · next hnew =>
    cases h
    exact ⟨hnew.1, rfl⟩
  · cases h

theorem copyReplaceLocked_safe {stage : Path} {o : Object} {build : Fs Unit} (hr : Rooted d₀.tree)
    (hj : d₀.journal = none) (hu : d₀.unsynced = []) (hbuild : build.Within (BuildStep stage)) :
    (copyReplaceLocked digest stage dst backup o build).Safe
      (Stopped digest (.copy stage o build) dst backup d₀)
      (fun _ => Stopped digest (.copy stage o build) dst backup d₀) d₀ := by
  have hvisible : ∀ {p}, Request.Visible (.copy stage o build) p → ¬ stage <+: p :=
    fun hp => hp stage rfl
  have here : Stopped digest (.copy stage o build) dst backup d₀ d₀ :=
    Or.inl ⟨hj, fun _ _ => rfl, by rw [hu]; nofun⟩
  refine safe_barrier_bind here (safe_barrier_bind here ?_)
  refine Safe.bind (mkdirStage_safe here).yields ?_
  rintro _ m ⟨⟨hdir, rfl⟩, hmade⟩
  let m : Disk := { d₀ with tree := d₀.tree.put stage { o with body := .dir } }
  have hroot : Rooted m.tree := hr.put hdir rfl
  have hstage : isDirAt m.tree stage = true := by
    refine isDirAt_iff.mpr (Or.inr ⟨_, if_pos rfl, rfl⟩)
  -- Up to the journal only the stage differs, however far the copy has come.
  have hunstarted : ∀ b, BuildStep stage m b → Unstarted d₀.tree (.copy stage o build) b := by
    intro b hb
    refine ⟨hb.journal.trans hj, fun p hp => ?_, ?_⟩
    · have hout : ¬ stage ++ ["payload"] <+: p := fun hpre =>
        hvisible hp ((List.prefix_append _ _).trans hpre)
      have hne : p ≠ stage := fun heq => hvisible hp (heq ▸ List.prefix_rfl)
      rw [hb.others p hout]
      exact if_neg hne
    · rw [hb.unsynced.trans hu]
      nofun
  have hcleanup : ∀ v, Unstarted d₀.tree (.copy stage o build) v →
      (attempt (removeReplacementTree stage)).Safe (Stopped digest (.copy stage o build) dst backup d₀)
        (fun _ => Unstarted d₀.tree (.copy stage o build)) v := by
    intro v hv
    refine (removeStage_unstarted rfl hv).attempt.mono (fun _ => Or.inl) ?_
    rintro (e | _) w hw
    · exact hw
    · exact hw
  refine Safe.bind (((hbuild m).yields.mono (fun b hb => hb) fun _ _ => id).attempt.mono
    (fun b hb => Or.inl (hunstarted b hb)) fun _ _ => id) ?_
  rintro (e | _) b hb
  · refine Safe.bind (hcleanup b (hunstarted b hb)) fun _ v hv => ?_
    refine Safe.bind (R := fun _ => Unstarted d₀.tree (.copy stage o build)) ?_
      fun _ w hw => safe_rethrow (Or.inl hw)
    refine (syncDir_safe (J := Unstarted d₀.tree (.copy stage o build))
      (Q := fun _ => Unstarted d₀.tree (.copy stage o build)) _ hv
      fun w hw => hv.flushed hw).attempt.mono (fun _ => Or.inl) ?_
    rintro (e' | _) w hw
    · exact hw
    · exact hw
  · obtain ⟨hstep, hbuilt⟩ := hb
    have hbr : Rooted b.tree := hstep.rooted hroot hstage
    have hbefore := hunstarted b hstep
    refine Safe.bind ((prepareReplacement_spec (J := Unstarted d₀.tree (.copy stage o build))
      hbefore hbr).attempt.mono (fun _ => Or.inl) fun _ _ => id) ?_
    rintro (e | s) v hv
    · exact Safe.bind (hcleanup v hv) fun _ w hw => safe_rethrow (Or.inl hw)
    · obtain ⟨rfl, hfields, hp⟩ := hv
      have hsame := hbefore.same
      refine (commitReplacement_safe hp hbefore.journal hp.start (hstep.unsynced.trans hu)).mono ?_ ?_
      · exact fun w hw => Or.inr ⟨v, s, ⟨m, hmade, hbuilt⟩, hsame, hfields, hp, hw⟩
      · exact fun _ w hw => Or.inr ⟨v, s, ⟨m, hmade, hbuilt⟩, hsame, hfields, hp, hw⟩

theorem Request.stopped (hr : Rooted d₀.tree) (hj : d₀.journal = none) (hu : d₀.unsynced = [])
    (hprivate : r.Private) (hstop : (r.replace digest dst backup).Stops d₀ u) :
    Stopped digest r dst backup d₀ u := by
  cases r with
  | move src => exact (replaceLocked_safe hr hj hu).stops (fun _ _ => id) hstop
  | copy stage o build =>
    exact (copyReplaceLocked_safe hr hj hu hprivate).stops (fun _ _ => id) hstop

/-- The new tree, as it is in `b`, has taken the place of the old one. -/
structure Replaced (r : Request) (dst backup : Path) (d₀ b v : Disk) : Prop where
  new : ∀ rel, v.tree.lookup (dst ++ rel) = b.tree.lookup (r.source ++ rel)
  source : ∀ rel, v.tree.lookup (r.source ++ rel) = none
  stage : ∀ p, ¬ r.Visible p → v.tree.lookup p = none
  backup : ∀ rel, v.tree.lookup (backup ++ rel) = none
  others : ∀ p, r.Visible p → ¬ r.source <+: p → ¬ dst <+: p → v.tree.lookup p = d₀.tree.lookup p

variable {t₁ : PathMap String Object}

theorem Holds.outside {a b c : Subtree} {g : Bool}
    (h : Holds t₁ s a b c g u) (hp : ∀ i, ¬ s.root i <+: p) (hs : s.copyStage ≠ some p) :
    u.tree.lookup p = t₁.lookup p := by
  rw [h.laid.outside p hp, elsewhere, if_neg (fun hand => hs hand.2)]

theorem Phase.others (hp : Planned digest t₁ s)
    (h : Phase t₁ s u) (hsource : ¬ s.source <+: p) (hdest : ¬ s.destination <+: p)
    (hs : s.copyStage ≠ some p) (hthere : t₁.lookup p ≠ none) :
    u.tree.lookup p = t₁.lookup p := by
  have hbackup : ¬ s.backup <+: p := by
    rintro ⟨rel, rfl⟩
    exact hthere (hp.rooted.none_below (hp.root_ne .backup) hp.noBackup rel)
  have hout : ∀ i, ¬ s.root i <+: p := by
    intro i
    cases i with
    | source => exact hsource
    | destination => exact hdest
    | backup => exact hbackup
  cases h with
  | before _ h | backedUp _ h | published _ _ h | cleaning _ _ h | undoing _ _ h | done _ h =>
    exact h.outside hout hs

theorem Holds.restored {a : Subtree} {g : Bool}
    (hp : Planned digest t₁ s) (h : Holds t₁ s a (oldTree t₁ s) nothing g u)
    (hsource : ¬ s.source <+: p) (hs : s.copyStage ≠ some p) : u.tree.lookup p = t₁.lookup p := by
  by_cases hdest : s.destination <+: p
  · obtain ⟨rel, rfl⟩ := hdest
    exact h.destination rel
  · by_cases hbackup : s.backup <+: p
    · obtain ⟨rel, rfl⟩ := hbackup
      exact (h.backup rel).trans (hp.rooted.none_below (hp.root_ne .backup) hp.noBackup rel).symm
    · refine h.outside (fun i => ?_) hs
      cases i with
      | source => exact hsource
      | destination => exact hdest
      | backup => exact hbackup

theorem Stopped.outcome (h : Stopped digest r dst backup d₀ v) (hj : v.journal = none) :
    (∀ p, r.Visible p → v.tree.lookup p = d₀.tree.lookup p) ∨ ∃ b, r.Built d₀ b ∧ Replaced r dst backup d₀ b v := by
  rcases h with h | ⟨b, s, hb, hsame, ⟨rfl, hsource, rfl, hstage⟩, hp, hph⟩
  · exact Or.inl h.same
  · have hsee : ∀ {p}, r.Visible p → s.copyStage ≠ some p := fun hvis heq =>
      hvis _ (hstage.symm.trans heq) List.prefix_rfl
    cases hph with
    | before _ hold =>
      refine Or.inl fun p hvis => ?_
      by_cases hpre : s.source <+: p
      · obtain ⟨rel, rfl⟩ := hpre
        exact (hold.source rel).trans (hsame _ hvis)
      · exact (hold.restored hp hpre (hsee hvis)).trans (hsame p hvis)
    | undoing hcopy _ hold =>
      refine Or.inl fun p hvis => ?_
      refine (hold.restored hp (fun hpre => ?_) (hsee hvis)).trans (hsame p hvis)
      obtain ⟨stage, hs⟩ := Option.isSome_iff_exists.mp hcopy
      obtain ⟨hpayload, -⟩ := hp.stage stage hs
      exact hvis stage (hstage.symm.trans hs) ((hpayload ▸ List.prefix_append _ _).trans hpre)
    | done _ hnew hgone =>
      refine Or.inr ⟨b, hb, fun rel => ?_, fun rel => ?_, fun p hhidden => ?_, hnew.backup, ?_⟩
      · rw [hnew.destination, newTree, hsource]
      · rw [← hsource]
        exact hnew.source rel
      · simp only [Request.Visible, not_forall, not_not, exists_prop] at hhidden
        obtain ⟨stage, hs, rel, rfl⟩ := hhidden
        have hs' := hstage.trans hs
        refine hnew.rooted.none_below (hp.stage stage hs').2.2.1 ?_ rel
        rw [hnew.laid.outside stage (hp.stage_outside hs'), elsewhere, if_pos]
        exact ⟨hgone (by rw [hs']; rfl), hs'⟩
      · intro p hvis hsrc hdst
        by_cases hback : s.backup <+: p
        · obtain ⟨rel, rfl⟩ := hback
          have hnone := hp.rooted.none_below (hp.root_ne .backup) hp.noBackup rel
          exact ((hnew.backup rel).trans hnone.symm).trans (hsame _ hvis)
        · refine (hnew.outside (fun i => ?_) (hsee hvis)).trans (hsame p hvis)
          cases i with
          | source => exact fun hpre => hsrc (hsource ▸ hpre)
          | destination => exact hdst
          | backup => exact hback
    | backedUp hj' | published hj' | cleaning hj' =>
      rw [hj'] at hj
      cases hj

theorem Stopped.others (h : Stopped digest r dst backup d₀ v) (hvis : r.Visible p)
    (hsrc : ¬ r.source <+: p) (hdst : ¬ dst <+: p) (hthere : d₀.tree.lookup p ≠ none) :
    v.tree.lookup p = d₀.tree.lookup p := by
  rcases h with h | ⟨b, s, hb, hsame, ⟨rfl, hsource, rfl, hstage⟩, hp, hph⟩
  · exact h.same p hvis
  · rw [← hsame p hvis] at hthere ⊢
    refine hph.others hp (hsource ▸ hsrc) hdst (fun heq => ?_) hthere
    exact hvis p (hstage.symm.trans heq) List.prefix_rfl

theorem Stopped.recovered (h : Stopped digest r dst backup d₀ u) (hv : (recoverJournal digest).Yields u () v) :
    Stopped digest r dst backup d₀ v ∧ v.journal = none := by
  obtain ⟨fs, hrun⟩ := hv
  have hstop : (recoverJournal digest).Stops u v := ⟨fs, by rw [hrun]⟩
  refine ⟨h.later (.recovery hstop), ?_⟩
  rcases h with h | ⟨b, s, -, -, -, hp, hph⟩
  · have hsafe : (recoverJournal digest).Safe (fun _ => True) (fun _ w => w.journal = none) u := by
      refine safe_look_bind trivial ?_
      rw [h.journal]
      exact safe_pure h.journal
    exact hsafe.of_yields ⟨fs, hrun⟩
  · exact ((recoverJournal_safe hp hph).of_yields ⟨fs, hrun⟩).2

/-- A replacement is atomic. Wherever it stops, and wherever the recoveries and crashes that
follow lead, nothing outside the two trees is touched; and once a recovery returns, the
journal is gone and the replacement has either not happened at all or is complete. -/
theorem replacement_atomic {d₁ d₂ : Disk} (hprivate : r.Private) (hr : Rooted d₀.tree)
    (hj : d₀.journal = none) (hu : d₀.unsynced = [])
    (hstop : (r.replace digest dst backup).Stops d₀ d₁)
    (hlater : ReflTransGen (Later digest) d₁ d₂) :
    (∀ p, r.Visible p → ¬ r.source <+: p → ¬ dst <+: p → d₀.tree.lookup p ≠ none →
      d₂.tree.lookup p = d₀.tree.lookup p) ∧
    ∀ d₃, (recoverJournal digest).Yields d₂ () d₃ → d₃.journal = none ∧
      ((∀ p, r.Visible p → d₃.tree.lookup p = d₀.tree.lookup p) ∨
        ∃ b, r.Built d₀ b ∧ Replaced r dst backup d₀ b d₃) := by
  have hstopped := (Request.stopped hr hj hu hprivate hstop).run hlater
  refine ⟨fun p hvis hsrc hdst hthere => hstopped.others hvis hsrc hdst hthere, fun d₃ hd₃ => ?_⟩
  obtain ⟨hout, hnone⟩ := hstopped.recovered hd₃
  exact ⟨hnone, hout.outcome hnone⟩

end

def twoFiles : Disk where
  tree := (PathMap.empty.put ["old"] ⟨0, 1, 420, .file [104] 5⟩).put ["new"] ⟨0, 2, 420, .file [105] 6⟩

theorem twoFiles_rooted : Rooted twoFiles.tree := by
  intro p x h
  change (if p ++ [x] = ["new"] then _ else if p ++ [x] = ["old"] then _ else none) ≠ none at h
  have hnil : ∀ y, p ++ [x] = [y] → p = [] := by
    intro y heq
    have hlen := congrArg List.length heq
    rw [List.length_append] at hlen
    exact List.eq_nil_of_length_eq_zero (by simpa using hlen)
  refine isDirAt_iff.mpr (Or.inl ?_)
  split at h
  · next heq => exact hnil _ heq
  · split at h
    · next heq => exact hnil _ heq
    · exact absurd rfl h

/-- The MOVE crashes when both renames are done and the journal is not yet committed. -/
def crashedMove : Disk :=
  ((replaceLocked sha256 ["new"] ["old"] [".birak-bak-1"]).run
    (List.replicate 18 .pass ++ [.crash]) twoFiles).2

def recoveredMove : Disk := ((recoverJournal sha256).run [] crashedMove).2

theorem recoverJournal_crashedMove : (recoverJournal sha256).Yields crashedMove () recoveredMove :=
  yields_of_run (by decide +kernel)

theorem replacement_atomic_crashedMove :
    crashedMove.tree.lookup ["new"] = none ∧ recoveredMove.journal = none ∧
      ((∀ p, (Request.move ["new"]).Visible p → recoveredMove.tree.lookup p = twoFiles.tree.lookup p) ∨
        ∃ b, (Request.move ["new"]).Built twoFiles b ∧
          Replaced (.move ["new"]) ["old"] [".birak-bak-1"] twoFiles b recoveredMove) := by
  have hstop : ((Request.move ["new"]).replace sha256 ["old"] [".birak-bak-1"]).Stops twoFiles
      crashedMove := ⟨_, rfl⟩
  exact ⟨by decide +kernel,
    (replacement_atomic (r := .move ["new"]) trivial twoFiles_rooted rfl rfl hstop .refl).2 _ recoverJournal_crashedMove⟩

end BirakFormal
