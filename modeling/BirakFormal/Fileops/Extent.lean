import BirakFormal.Fileops.Changes

/-!
# How far a change reaches

Each change leaves everything outside its own paths as it was, whatever call fails or cuts it
short. A journal that waits for recovery counts as reaching as far as the trees it names.
-/

namespace BirakFormal

open Interruption Prog

def Replacement.Reaches (s : Replacement) (k : Path) : Prop :=
  s.destination <+: k ∨ s.source <+: k ∨ s.backup <+: k ∨ ∃ stage, s.copyStage = some stage ∧ stage <+: k

def Disk.Bounded (reg : Path → Prop) (d : Disk) : Prop :=
  ∀ s, d.journal = some s → ∀ k, s.Reaches k → reg k

/-- Outside `reg` the tree stays as it is, and so does the journal's reach. -/
def Confined (reg : Path → Prop) (d d' : Disk) : Prop :=
  d.Bounded reg → d'.Bounded reg ∧ ∀ k, ¬ reg k → d'.tree.lookup k = d.tree.lookup k

def ConfinedTo (reg : Path → Prop) (w w' : Layered) : Prop := Confined reg w.disk w'.disk

theorem confinedFrame (reg : Path → Prop) : Frame (Confined reg) where
  refl _ hb := ⟨hb, fun _ _ => rfl⟩
  trans h h' hb := by
    obtain ⟨hb₁, h₁⟩ := h hb
    obtain ⟨hb₂, h₂⟩ := h' hb₁
    exact ⟨hb₂, fun k hk => (h₂ k hk).trans (h₁ k hk)⟩

theorem confinedToFrame (reg : Path → Prop) : Frame (ConfinedTo reg) where
  refl w := (confinedFrame reg).refl w.disk
  trans h h' := (confinedFrame reg).trans h h'

theorem Confined.of_tree {reg : Path → Prop} {d d' : Disk} (hj : d'.journal = d.journal)
    (h : ∀ k, ¬ reg k → d'.tree.lookup k = d.tree.lookup k) : Confined reg d d' :=
  fun hb => ⟨fun s hs => hb s (hj ▸ hs), h⟩

variable {o : Object}

section
variable {reg : Path → Prop} {p : Path}

theorem confined_put {d : Disk} (hp : reg p) :
    Confined reg d { d with tree := d.tree.put p o } := by
  refine .of_tree rfl fun k hk => ?_
  show (if k = p then some o else d.tree.lookup k) = _
  rw [if_neg]
  intro hkp
  exact hk (hkp ▸ hp)

theorem confined_erase {d : Disk} {d' : Disk} {u : Unit} (hp : reg p)
    (h : d.unlink p o = .ok (u, d')) : Confined reg d d' := by
  unfold Disk.unlink at h
  split at h
  · cases h
  · cases h
    refine .of_tree rfl fun k hk => ?_
    show (if k = p then none else d.tree.lookup k) = _
    rw [if_neg]
    intro hkp
    exact hk (hkp ▸ hp)

theorem removePath_confined (hp : reg p) : (removePath p).Within (Confined reg) := by
  refine (confinedFrame reg).update fun d u d' h => ?_
  split at h
  · cases h
  · exact confined_erase hp h

theorem removeIfThere_confined (hp : reg p) : (removeIfThere p).Within (Confined reg) := by
  refine (confinedFrame reg).update fun d u d' h => ?_
  split at h
  · cases h
    exact (confinedFrame reg).refl d
  · exact confined_erase hp h

theorem renamePath_confined {p q : Path} (hp : ∀ k, p <+: k → reg k) (hq : ∀ k, q <+: k → reg k) :
    (renamePath p q).Within (Confined reg) := by
  refine (confinedFrame reg).update fun d u d' h => ?_
  split at h
  · cases h
  · split at h
    · cases h
    · split at h
      · cases h
      · cases h
        refine .of_tree rfl fun k hk => ?_
        rw [Layering.move_lookup, if_neg (fun hpre => hk (hq k hpre)), if_neg fun hpre => hk (hp k hpre)]

theorem removeReplacementTree_confined (hp : ∀ k, p <+: k → reg k) :
    (removeReplacementTree p).Within (Confined reg) := by
  apply (confinedFrame reg).bind ((confinedFrame reg).look _)
  intro rels
  apply (confinedFrame reg).forEach
  intro rel _
  exact removePath_confined (hp _ (List.prefix_append p rel))

theorem writeReplacement_confined {s : Replacement} (hs : ∀ k, s.Reaches k → reg k) :
    (writeReplacement s).Within (Confined reg) := by
  have F := confinedFrame reg
  refine F.bind F.barrier fun _ => F.bind F.barrier fun _ => F.bind F.barrier fun _ =>
    F.bind (F.alter fun d _ => ⟨?_, fun _ _ => rfl⟩) fun _ => F.barrier
  intro s' hs'
  obtain rfl := Option.some.inj hs'
  exact hs

theorem removeJournal_confined : removeJournal.Within (Confined reg) := by
  refine (confinedFrame reg).update fun d u d' h => ?_
  split at h
  · cases h
  · cases h
    exact fun _ => ⟨nofun, fun _ _ => rfl⟩

theorem joinErrors_confined (a b : Except (Failure Err) Unit) : (joinErrors a b).Within (Confined reg) := by
  cases a with
  | error e => exact (confinedFrame reg).rethrow e
  | ok u =>
    cases b with
    | error e => exact (confinedFrame reg).rethrow e
    | ok v => exact (confinedFrame reg).pure ()

end

variable {reg : Path → Prop} {digest : Digest}

theorem onDisk_confined {α : Type} {p : Fs α} (h : p.Within (Confined reg)) :
    (Layered.onDisk p).Within (ConfinedTo reg) :=
  h.zoom Layered.diskPart

theorem onDisk_readOnly {α : Type} {p : Fs α} (h : p.Within fun d d' => d' = d) :
    (Layered.onDisk p).Within (ConfinedTo reg) :=
  onDisk_confined ((confinedFrame reg).readOnly h)

theorem syncDir_confined (dir : Path) : (Layered.syncDir dir).Within (ConfinedTo reg) :=
  (confinedToFrame reg).alter fun _ => .of_tree rfl fun _ _ => rfl

theorem syncParents_confined (dir : Path) : (Layered.syncParents dir).Within (ConfinedTo reg) :=
  (confinedToFrame reg).forEach fun dir _ => syncDir_confined dir

theorem syncSurvivingParent_confined (p : Path) : (Layered.syncSurvivingParent p).Within (ConfinedTo reg) :=
  (confinedToFrame reg).bind ((confinedToFrame reg).look _) fun _ => syncParents_confined _

theorem syncBoth_confined {p q : LayeredProg Unit} (hp : p.Within (ConfinedTo reg))
    (hq : q.Within (ConfinedTo reg)) : (Layered.syncBoth p q).Within (ConfinedTo reg) := by
  apply (confinedToFrame reg).bind hp.attempt
  intro a
  apply (confinedToFrame reg).bind hq.attempt
  intro b
  exact onDisk_confined (joinErrors_confined a b)

theorem renameTemp_confined {q : Path} (hq : reg q) : (Layered.renameTemp o q).Within (ConfinedTo reg) := by
  refine (confinedToFrame reg).update fun w u w' h => ?_
  split at h
  · cases h
  · cases h
    exact confined_put hq

theorem mkdir_confined {p : Path} {perm : Nat} (hp : p ≠ [] → reg p) :
    (Layered.mkdir p perm).Within (ConfinedTo reg) := by
  refine (confinedToFrame reg).update fun w u w' h => ?_
  split at h
  · next hfree =>
    cases h
    exact confined_put (hp hfree.1)
  · cases h

theorem mkdirAll_confined {p : Path} {perm : Nat} (hp : p ≠ [] → reg p) :
    (Layered.mkdirAll p perm).Within (ConfinedTo reg) := by
  apply (confinedToFrame reg).bind ((confinedToFrame reg).look _)
  intro there
  cases there with
  | true => exact (confinedToFrame reg).pure ()
  | false => exact mkdir_confined hp

theorem removeAll_confined {p : Path} (hp : ∀ k, p <+: k → reg k) :
    (Layered.removeAll p).Within (ConfinedTo reg) := by
  refine (confinedToFrame reg).alter fun w => .of_tree rfl fun k hk => ?_
  show (w.disk.tree.lookup k).bind (fun a => if p <+: k then none else some a) = _
  simp only [if_neg (fun hpre => hk (hp k hpre))]
  exact Option.bind_fun_some _

theorem writeTemp_confined (bytes : Bytes) (mtime : Int64) (perm : Nat) :
    (Layered.writeTemp bytes mtime perm).Within (ConfinedTo reg) := by
  have F := confinedToFrame reg
  refine F.bind (F.update fun w n w' h => ?_) fun inode => F.bind (F.alter fun w => ?_) fun _ => F.pure _
  · obtain ⟨-, rfl⟩ := Prod.mk.inj (Except.ok.inj h)
    exact F.refl w
  · exact F.refl w

section
variable {s : Replacement} (hs : ∀ k, s.Reaches k → reg k)

include hs

theorem reaches_destination : ∀ k, s.destination <+: k → reg k := fun k h => hs k (Or.inl h)

theorem reaches_source : ∀ k, s.source <+: k → reg k := fun k h => hs k (Or.inr (Or.inl h))

theorem reaches_backup : ∀ k, s.backup <+: k → reg k := fun k h => hs k (Or.inr (Or.inr (Or.inl h)))

omit hs in
theorem syncReplacementParents_confined (s : Replacement) :
    (Layered.syncReplacementParents s).Within (ConfinedTo reg) :=
  syncBoth_confined (syncSurvivingParent_confined _) (syncSurvivingParent_confined _)

theorem unpublish_confined (source dest : List ReplacementEntry) :
    (Layered.unpublish s source dest).Within (ConfinedTo reg) := by
  have F := confinedToFrame reg
  unfold Layered.unpublish
  split
  · exact F.pure ()
  · split
    · exact F.bind (onDisk_confined (renamePath_confined (reaches_destination hs) (reaches_source hs)))
        fun _ => syncReplacementParents_confined s
    · exact F.raise _

theorem restoreBackup_confined (source dest : List ReplacementEntry) :
    (Layered.restoreBackup s source dest).Within (ConfinedTo reg) := by
  have F := confinedToFrame reg
  apply F.bind (unpublish_confined hs source dest)
  intro _
  apply F.onlyIf
  exact F.bind (onDisk_confined (renamePath_confined (reaches_backup hs) (reaches_destination hs)))
    fun _ => syncDir_confined _

theorem restoreDestination_confined (backup source dest : List ReplacementEntry) :
    (Layered.restoreDestination s backup source dest).Within (ConfinedTo reg) := by
  have F := confinedToFrame reg
  unfold Layered.restoreDestination
  split
  · split
    · exact F.pure ()
    · exact F.raise _
  · split
    · exact restoreBackup_confined hs source dest
    · exact F.raise _

omit hs in
theorem replacementTree_confined (name : Path) :
    (Layered.onDisk (replacementTree digest name)).Within (ConfinedTo reg) :=
  onDisk_confined ((confinedFrame reg).check _)

theorem rollbackReplacement_confined (backup : List ReplacementEntry) :
    (Layered.rollbackReplacement digest s backup).Within (ConfinedTo reg) := by
  have F := confinedToFrame reg
  apply F.bind (replacementTree_confined s.source)
  intro source
  apply F.bind (replacementTree_confined s.destination)
  intro dest
  apply F.bind (restoreDestination_confined hs backup source dest)
  intro _
  exact F.onlyIf (onDisk_confined (removeReplacementTree_confined (reaches_source hs)))

theorem finishReplacement_confined : (Layered.finishReplacement s).Within (ConfinedTo reg) := by
  have F := confinedToFrame reg
  refine F.bind (onDisk_confined ?_) fun _ => F.bind (syncReplacementParents_confined s) fun _ =>
    onDisk_confined removeJournal_confined
  cases hstage : s.copyStage with
  | none => exact (confinedFrame reg).pure ()
  | some stage =>
    exact removeIfThere_confined (hs stage (Or.inr (Or.inr (Or.inr ⟨stage, hstage, List.prefix_rfl⟩))))

theorem recoverTrees_confined (backup : List ReplacementEntry) :
    (Layered.recoverTrees digest s backup).Within (ConfinedTo reg) := by
  unfold Layered.recoverTrees
  split
  · apply onDisk_confined
    unfold cleanupReplacement
    split
    · exact removeReplacementTree_confined (reaches_backup hs)
    · exact (confinedFrame reg).raise _
  · exact rollbackReplacement_confined hs backup

theorem recoverReplacement_confined : (Layered.recoverReplacement digest s).Within (ConfinedTo reg) := by
  have F := confinedToFrame reg
  have hparents (name : Path) : (Layered.onDisk (safeReplacementParents name)).Within (ConfinedTo reg) :=
    onDisk_confined ((confinedFrame reg).check _)
  apply F.bind (F.check _)
  intro _
  apply F.bind (hparents s.source)
  intro _
  apply F.bind (hparents s.destination)
  intro _
  apply F.bind (hparents s.backup)
  intro _
  apply F.bind (replacementTree_confined s.backup)
  intro backup
  exact F.bind (recoverTrees_confined hs backup) fun _ => finishReplacement_confined hs

theorem exchangeTrees_confined : (Layered.exchangeTrees s).Within (ConfinedTo reg) := by
  have F := confinedToFrame reg
  refine F.bind (F.onlyIf ?_) fun _ => F.bind ?_ fun _ => syncReplacementParents_confined s
  · exact F.bind (onDisk_confined (renamePath_confined (reaches_destination hs) (reaches_backup hs)))
      fun _ => syncDir_confined _
  · exact onDisk_confined (renamePath_confined (reaches_source hs) (reaches_destination hs))

theorem commitReplacement_confined : (Layered.commitReplacement digest s).Within (ConfinedTo reg) := by
  have F := confinedToFrame reg
  apply F.bind (onDisk_confined (writeReplacement_confined hs))
  intro _
  apply F.bind (exchangeTrees_confined hs).attempt
  intro r
  cases r with
  | error e => exact F.bind (recoverReplacement_confined hs).attempt fun _ => F.rethrow e
  | ok u =>
    have hdone : ∀ k, ({ s with committed := true } : Replacement).Reaches k → reg k := hs
    exact F.bind (onDisk_confined (writeReplacement_confined hdone)) fun _ =>
      recoverReplacement_confined hdone

end

theorem recoverJournal_confined : (Layered.recoverJournal digest).Within (ConfinedTo reg) := by
  intro w
  by_cases hb : w.disk.Bounded reg
  · apply safe_bind.mpr
    refine safe_look ((confinedToFrame reg).refl w) ?_
    cases hj : w.disk.journal with
    | none => exact (confinedToFrame reg).pure () w
    | some s => exact recoverReplacement_confined (hb s hj) w
  · exact (safe_trivial _ w).mono (fun _ _ hb' => absurd hb' hb) fun _ _ _ hb' => absurd hb' hb

theorem prepareReplacement_names (digest : Digest) (dst src backup : Path) (copyStage : Option Path) (d : Disk) :
    (prepareReplacement digest dst src backup copyStage).Safe (fun _ => True) (fun s _ =>
      s.destination = dst ∧ s.source = src ∧ s.backup = backup ∧ s.copyStage = copyStage) d := by
  refine Safe.bind (R := fun _ _ => True) (safe_check trivial fun _ _ => trivial) fun _ d _ => ?_
  refine Safe.bind (R := fun _ _ => True) (safe_check trivial fun _ _ => trivial) fun _ d _ => ?_
  refine Safe.bind (R := fun _ _ => True) (safe_check trivial fun _ _ => trivial) fun new d _ => ?_
  split
  · exact safe_raise trivial
  · refine Safe.bind (R := fun _ _ => True) (safe_check trivial fun _ _ => trivial) fun old d _ => ?_
    refine Safe.bind (R := fun _ _ => True) (safe_check trivial fun _ _ => trivial) fun _ d _ => ?_
    refine Safe.bind (R := fun _ _ => True) (safe_check trivial fun _ _ => trivial) fun _ d _ => ?_
    exact safe_pure ⟨rfl, rfl, rfl, rfl⟩

theorem prepareReplacement_reads (dst src backup : Path) (copyStage : Option Path) :
    (prepareReplacement digest dst src backup copyStage).Within fun d d' => d' = d := by
  have F : Frame fun d d' : Disk => d' = d := readFrame
  refine F.bind (F.check _) fun _ => F.bind (F.check _) fun _ => F.bind (F.check _) fun new => ?_
  split
  · exact F.raise _
  · exact F.bind (F.check _) fun old => F.bind (F.check _) fun _ => F.bind (F.check _) fun _ => F.pure _

theorem replaceLocked_confined {src dst backup : Path} (hsrc : ∀ k, src <+: k → reg k)
    (hdst : ∀ k, dst <+: k → reg k) (hbackup : ∀ k, backup <+: k → reg k) :
    (Layered.replaceLocked digest src dst backup).Within (ConfinedTo reg) := by
  apply (confinedToFrame reg).bind_of (onDisk_readOnly (prepareReplacement_reads dst src backup none))
  · intro w
    refine ((prepareReplacement_names digest dst src backup none w.disk).zoom Layered.diskPart).mono ?_ ?_
    · exact fun _ _ => trivial
    · rintro s u ⟨d, -, hs⟩
      exact hs
  · rintro s ⟨rfl, rfl, rfl, hstage⟩
    apply commitReplacement_confined
    rintro k (h | h | h | ⟨stage, h, -⟩)
    · exact hdst k h
    · exact hsrc k h
    · exact hbackup k h
    · rw [hstage] at h
      cases h

theorem copyReplaceLocked_confined {stage dst backup : Path} {copy : Path → LayeredProg Unit}
    (hstage : ∀ k, stage <+: k → reg k) (hdst : ∀ k, dst <+: k → reg k)
    (hbackup : ∀ k, backup <+: k → reg k)
    (hcopy : (copy (stage ++ ["payload"])).Within (ConfinedTo reg)) :
    (Layered.copyReplaceLocked digest stage dst backup copy).Within (ConfinedTo reg) := by
  have F := confinedToFrame reg
  apply F.bind (mkdir_confined fun _ => hstage stage List.prefix_rfl)
  intro _
  apply F.bind hcopy.attempt
  intro r
  cases r with
  | error e =>
    exact F.bind (removeAll_confined hstage) fun _ => F.bind (syncDir_confined _) fun _ => F.rethrow e
  | ok u =>
    have hprep := prepareReplacement_names digest dst (stage ++ ["payload"]) backup (some stage)
    apply F.bind_of (T := fun r => ∀ s, r = .ok s → s.destination = dst ∧ s.source = stage ++ ["payload"] ∧
        s.backup = backup ∧ s.copyStage = some stage)
      (onDisk_readOnly (prepareReplacement_reads dst _ backup (some stage))).attempt
    · intro w
      refine ((hprep w.disk).zoom Layered.diskPart).attempt.mono (fun _ _ => trivial) ?_
      rintro r u hr s rfl
      obtain ⟨d, -, hs⟩ := hr
      exact hs
    · intro r hr
      cases r with
      | error e => exact F.bind (removeAll_confined hstage) fun _ => F.rethrow e
      | ok s =>
        obtain ⟨hd, hsrc, hb, hst⟩ := hr s rfl
        apply commitReplacement_confined
        rintro k (h | h | h | ⟨stage', h, hk⟩)
        · exact hdst k (hd ▸ h)
        · exact hstage k ((List.prefix_append _ _).trans (hsrc ▸ h))
        · exact hbackup k (hb ▸ h)
        · rw [hst] at h
          obtain rfl := Option.some.inj h
          exact hstage k hk

variable {limit : Nat} {src dst : Path}

theorem copyFile_confined {copied : Nat} (hdst : reg dst) :
    (Layered.copyFile limit src dst copied).Within (ConfinedTo reg) := by
  have F := confinedToFrame reg
  apply F.bind (F.look _)
  intro found
  cases found with
  | none => exact F.raise _
  | some o =>
    dsimp only
    split
    · split
      · exact F.raise _
      · exact F.bind (writeTemp_confined _ _ _) fun tmp => F.bind (renameTemp_confined hdst) fun _ =>
          F.bind (syncDir_confined _) fun _ => F.pure _
    · exact F.raise _

theorem copyEntries_confined {copyDir : Path → Path → Nat → LayeredProg Nat} (hdst : ∀ k, dst <+: k → reg k)
    (hdir : ∀ x copied, (copyDir (src ++ [x]) (dst ++ [x]) copied).Within (ConfinedTo reg))
    (xs : List String) (copied : Nat) :
    (Layered.copyEntries limit copyDir src dst xs copied).Within (ConfinedTo reg) := by
  have F := confinedToFrame reg
  induction xs generalizing copied with
  | nil => exact F.pure copied
  | cons x xs ih =>
    apply F.bind (F.look _)
    intro entry
    split
    · exact ih copied
    · exact F.bind (hdir x copied) ih
    · exact F.bind (copyFile_confined (hdst _ (List.prefix_append _ _))) ih

theorem copyDir_confined (depth : Nat) {copied : Nat} (hdst : ∀ k, dst <+: k → reg k) :
    (Layered.copyDir limit depth src dst copied).Within (ConfinedTo reg) := by
  have F := confinedToFrame reg
  induction depth generalizing src dst copied with
  | zero => exact F.raise _
  | succ depth ih =>
    apply F.bind (F.look _)
    intro found
    cases found with
    | none => exact F.raise _
    | some o =>
      apply F.bind (mkdirAll_confined fun _ => hdst dst List.prefix_rfl)
      intro _
      apply F.bind (F.look _)
      intro entries
      have hsub (x : String) (copied : Nat) :
          (Layered.copyDir limit depth (src ++ [x]) (dst ++ [x]) copied).Within (ConfinedTo reg) :=
        ih fun k hk => hdst k ((List.prefix_append _ _).trans hk)
      exact F.bind (copyEntries_confined hdst hsub entries copied) fun _ =>
        F.bind (syncBoth_confined (syncDir_confined _) (syncDir_confined _)) fun _ => F.pure _

theorem publish_confined {dest : Path} (hdest : reg dest) : (Layered.publish o dest).Within (ConfinedTo reg) := by
  have F := confinedToFrame reg
  exact F.bind (F.check _) fun _ => F.bind (renameTemp_confined hdest) fun _ => syncParents_confined _

theorem remove_confined {path : Path} (hpath : reg path) : (Layered.remove path false).Within (ConfinedTo reg) := by
  have F := confinedToFrame reg
  exact F.bind (F.check _) fun _ => F.bind (onDisk_confined (removePath_confined hpath)) fun _ =>
    syncSurvivingParent_confined path

theorem removeFile_confined {file : Path} (hfile : reg file) :
    (Layered.removeFile file).Within (ConfinedTo reg) := by
  have F := confinedToFrame reg
  apply F.bind (F.look _)
  intro found
  cases found with
  | none => exact F.pure ()
  | some o => exact F.onlyIf (onDisk_confined (removePath_confined hfile))

theorem removeBatch_confined {files : List Path} (hfiles : ∀ file ∈ files, reg file) :
    (Layered.removeBatch files).Within (ConfinedTo reg) := by
  have F := confinedToFrame reg
  exact F.bind (F.forEach fun file hfile => removeFile_confined (hfiles file hfile)) fun _ =>
    F.forEach fun _ _ => syncDir_confined _

theorem removeEmptied_confined {changed : Bool} {dir : Path} (hdir : reg dir) :
    (Layered.removeEmptied changed dir).Within (ConfinedTo reg) := by
  have F := confinedToFrame reg
  apply F.bind (F.look _)
  intro gone
  apply F.bind (onDisk_confined (removePath_confined hdir)).attempt
  intro r
  cases r with
  | ok u => exact F.pure ()
  | error e =>
    dsimp only
    split
    · exact F.pure ()
    · exact F.rethrow e

theorem removeEmptyTree_confined {path : Path} (hpath : ∀ k, path <+: k → reg k) :
    (Layered.removeEmptyTree path).Within (ConfinedTo reg) := by
  have F := confinedToFrame reg
  apply F.bind (F.look _)
  intro rels
  apply F.bind (F.look _)
  intro dirs
  apply F.bind (F.forEach fun rel _ => removeEmptied_confined (hpath _ (List.prefix_append path rel)))
  intro _
  refine syncBoth_confined ?_ (syncSurvivingParent_confined path)
  split
  · exact F.raise _
  · exact F.pure ()

theorem move_confined {src dst backup : Path} {overwrite : Bool} (hsrc : ∀ k, src <+: k → reg k)
    (hdst : ∀ k, dst <+: k → reg k) (hbackup : ∀ k, backup <+: k → reg k) :
    (Layered.move digest src dst backup overwrite).Within (ConfinedTo reg) := by
  have F := confinedToFrame reg
  exact F.bind (F.check _) fun _ => F.bind (F.check _) fun _ =>
    F.bind (replaceLocked_confined hsrc hdst hbackup) fun _ =>
      syncBoth_confined (syncParents_confined _) (syncParents_confined _)

theorem copy_confined {src dst stage backup : Path} {overwrite isDir : Bool}
    (hstage : ∀ k, stage <+: k → reg k) (hdst : ∀ k, dst <+: k → reg k)
    (hbackup : ∀ k, backup <+: k → reg k) :
    (Layered.copy digest limit src dst stage backup overwrite isDir).Within (ConfinedTo reg) := by
  have F := confinedToFrame reg
  have hpayload : ∀ k, stage ++ ["payload"] <+: k → reg k :=
    fun k hk => hstage k ((List.prefix_append _ _).trans hk)
  apply F.bind (F.check _)
  intro _
  apply F.bind (F.check _)
  intro _
  apply F.bind (F.look _)
  intro depth
  refine F.bind (copyReplaceLocked_confined hstage hdst hbackup (F.bind ?_ fun _ => F.pure _)) fun _ =>
    syncParents_confined _
  split
  · exact copyDir_confined _ hpayload
  · exact copyFile_confined (hpayload _ List.prefix_rfl)

end BirakFormal
