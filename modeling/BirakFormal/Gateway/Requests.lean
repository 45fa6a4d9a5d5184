import BirakFormal.Fileops.Extent

/-!
# What a request does to the volume

The lock sections that the gateways put together: a commit, the creation of directories, the
removal of a tree in batches and the clean-up of directories that became empty.
-/

namespace BirakFormal

open Interruption Prog Subtrees

namespace Layered

variable (digest : Digest)

/-- A section that indexes nothing; what an interrupted replacement left is settled first. -/
def locked {α : Type} (p : LayeredProg α) : LayeredProg α := do
  recoverJournal digest
  p

/-- `CommitFrom`: the sources are verified and the intent is recorded before the change, and the
result is indexed after it, whether it failed or not. -/
def commit (c : Change) : LayeredProg Unit := do
  recoverJournal digest
  barrier
  barrier
  let r ← c.work digest
  barrier
  match r with
  | .ok () => pure ()
  | .error e => rethrow e

def makeDirs (p : Path) : LayeredProg Unit := forEach (fun dir => mkdirAll dir 0o755) p.inits

def makeDir (p : Path) (parents : Bool) : LayeredProg Unit := if parents then makeDirs p else mkdir p 0o755

def mkdirSection (p : Path) (parents : Bool) : LayeredProg Unit :=
  locked digest (do
    makeDir p parents
    syncParents p)

def emptyDirectory (w : Layered) (dir : Path) : Bool :=
  (w.disk.tree.lookup dir).any Object.isDir && !hasChildren w.disk.tree dir && !w.busyTree dir

def removeEmptyDirectory (dir : Path) : LayeredProg Unit :=
  update fun w => match w.disk.tree.lookup dir with
    | none => .error (.failed ("remove " ++ dir.text ++ ": no such file or directory"))
    | some o =>
      if o.isDir then (w.disk.unlink dir o).map fun r => ((), { w with disk := r.2 })
      else .error (.failed ("remove " ++ dir.text ++ ": not a directory"))

def parentsBelow (root file : Path) : List Path :=
  (file.dropLast.inits.filter fun dir => root.length < dir.length).reverse

/-- Climb and remove what is empty; every failure ends the climb and is not reported. -/
def cleanParents : List Path → LayeredProg Unit
  | [] => pure ()
  | dir :: dirs => do
    match ← attempt (look fun w => w.emptyDirectory dir) with
    | .ok true =>
      match ← attempt (do removeEmptyDirectory dir; syncDir dir.dropLast) with
      | .ok () => cleanParents dirs
      | .error _ => pure ()
    | _ => pure ()

def cleanEmptyParents (root file : Path) : LayeredProg Unit := cleanParents (parentsBelow root file)

def filesBelow (t : PathMap String Object) (path : Path) : List Path :=
  ((t.below walkOrder path).map (path ++ ·)).filter fun k => !(t.lookup k).any Object.isDir

def batches : List Nat → List Path → List (List Path)
  | _, [] => []
  | [], files => [files]
  | size :: sizes, files => files.take size :: batches sizes (files.drop size)

def removeIdle (files : List Path) : LayeredProg Nat := do
  let idle ← look fun w => files.filter fun file => !w.busy file
  onlyIf (!idle.isEmpty) (commit digest (.removeBatch idle))
  pure (files.length - idle.length)

def removeBatches : List (List Path) → Nat → LayeredProg Nat
  | [], kept => pure kept
  | files :: rest, kept => do
    let busy ← removeIdle digest files
    removeBatches rest (kept + busy)

/-- A directory is removed in batches, whose sizes depend on the time each takes, and its
directories go last. -/
def removeTree (sizes : List Nat) (path : Path) : LayeredProg Unit := do
  locked digest (check fun w => if w.busyTree path then .error .busy else .ok ())
  let files ← look fun w => filesBelow w.disk.tree path
  let kept ← removeBatches digest (batches sizes files) 0
  commit digest (.removeEmptyTree path)
  if 0 < kept then raise .busy else pure ()

/-- `fileops.Remove`. -/
def removePathSection (sizes : List Nat) (path : Path) (recursive : Bool) : LayeredProg Unit := do
  let isDir ← look fun w => (w.disk.tree.lookup path).any Object.isDir
  if recursive && isDir then removeTree digest sizes path
  else commit digest (.remove path recursive)

end Layered

variable {reg : Path → Prop} {digest : Digest}

theorem work_confined {c : Change} (hc : (c.run digest).Within (ConfinedTo reg)) :
    (c.work digest).Within (ConfinedTo reg) := by
  have F := confinedToFrame reg
  apply F.bind hc.attempt
  intro r
  cases r with
  | ok u => exact F.pure _
  | error e => exact F.bind recoverJournal_confined fun _ => F.pure _

theorem commit_confined {c : Change} (hc : (c.run digest).Within (ConfinedTo reg)) :
    (Layered.commit digest c).Within (ConfinedTo reg) := by
  have F := confinedToFrame reg
  apply F.bind recoverJournal_confined
  intro _
  apply F.bind F.barrier
  intro _
  apply F.bind F.barrier
  intro _
  apply F.bind (work_confined hc)
  intro r
  apply F.bind F.barrier
  intro _
  cases r with
  | ok u => exact F.pure ()
  | error e => exact F.rethrow e

theorem mkdirSection_confined {p : Path} {parents : Bool}
    (hp : ∀ dir, dir <+: p → dir ≠ [] → (parents = true ∨ dir = p) → reg dir) :
    (Layered.mkdirSection digest p parents).Within (ConfinedTo reg) := by
  have F := confinedToFrame reg
  apply F.bind recoverJournal_confined
  intro _
  refine F.bind ?_ fun _ => syncParents_confined p
  cases parents with
  | true =>
    apply F.forEach
    intro dir hdir
    exact mkdirAll_confined fun hne => hp dir ((List.mem_inits _ _).mp hdir) hne (Or.inl rfl)
  | false => exact mkdir_confined fun hne => hp p List.prefix_rfl hne (Or.inr rfl)

def Grows (w w' : Layered) : Prop :=
  w.disk.journal = none → w'.disk.journal = none ∧
    ∀ k o, w.disk.tree.lookup k = some o → w'.disk.tree.lookup k = some o

theorem growsFrame : Frame Grows where
  refl _ hj := ⟨hj, fun _ _ => id⟩
  trans h h' hj := by
    obtain ⟨hj₁, h₁⟩ := h hj
    obtain ⟨hj₂, h₂⟩ := h' hj₁
    exact ⟨hj₂, fun k o ho => h₂ k o (h₁ k o ho)⟩

theorem recoverJournal_idle {w : Layered} (hj : w.disk.journal = none) {J : Layered → Prop} (hJ : J w) :
    (Layered.recoverJournal digest).Safe J (fun _ u => u = w) w := by
  apply safe_bind.mpr
  refine safe_look hJ ?_
  rw [hj]
  exact safe_pure rfl

theorem recoverJournal_grows : (Layered.recoverJournal digest).Within Grows := by
  intro w
  cases hj : w.disk.journal with
  | none =>
    apply safe_bind.mpr
    refine safe_look (growsFrame.refl w) ?_
    rw [hj]
    exact growsFrame.pure () w
  | some s =>
    have hbusy : w.disk.journal ≠ none := by rw [hj]; nofun
    exact (safe_trivial _ w).mono (fun _ _ h => absurd h hbusy) fun _ _ _ h => absurd h hbusy

theorem mkdir_grows (p : Path) (perm : Nat) : (Layered.mkdir p perm).Within Grows := by
  refine growsFrame.update fun w u w' h => ?_
  split at h
  · next hfree =>
    cases h
    refine fun hj => ⟨hj, fun k o ho => ?_⟩
    show (if k = p then some _ else w.disk.tree.lookup k) = some o
    rw [if_neg, ho]
    rintro rfl
    rw [hfree.2.2] at ho
    cases ho
  · cases h

theorem mkdirSection_missing {p : Path} {w : Layered} (hj : w.disk.journal = none)
    (hp : ∀ dir, dir <+: p → dir ≠ [] → w.disk.tree.lookup dir = none → reg dir) :
    (Layered.mkdirSection digest p true).Safe (ConfinedTo reg w) (fun _ => ConfinedTo reg w) w := by
  have hgrows : (Layered.mkdirSection digest p true).Within Grows := by
    refine growsFrame.bind recoverJournal_grows fun _ => growsFrame.bind (growsFrame.forEach fun dir _ =>
      growsFrame.bind (growsFrame.look _) fun there => ?_) fun _ => growsFrame.forEach fun dir _ =>
        growsFrame.alter fun u hu => ⟨hu, fun _ _ => id⟩
    cases there with
    | true => exact growsFrame.pure ()
    | false => exact mkdir_grows dir 0o755
  have hchain : (Layered.mkdirSection digest p true).Within
      (ConfinedTo fun dir => dir <+: p ∧ dir ≠ []) :=
    mkdirSection_confined fun dir hdir hne _ => ⟨hdir, hne⟩
  have hboth : ∀ u, ConfinedTo (fun dir => dir <+: p ∧ dir ≠ []) w u ∧ Grows w u → ConfinedTo reg w u := by
    rintro u ⟨hc, hg⟩ -
    obtain ⟨hj', hkeep⟩ := hg hj
    have hbounded : u.disk.Bounded reg := by
      intro s hs
      rw [hj'] at hs
      cases hs
    refine ⟨hbounded, fun k hk => ?_⟩
    cases hold : w.disk.tree.lookup k with
    | some o => exact hkeep k o hold
    | none =>
      have hout : ¬ (k <+: p ∧ k ≠ []) := fun h => hk (hp k h.1 h.2 hold)
      have hempty : w.disk.Bounded fun dir => dir <+: p ∧ dir ≠ [] := by
        intro s hs
        rw [hj] at hs
        cases hs
      exact ((hc hempty).2 k hout).trans hold
  exact ((hchain w).and (hgrows w)).mono hboth fun _ => hboth

theorem removeEmptyDirectory_confined {dir : Path} (hdir : reg dir) :
    (Layered.removeEmptyDirectory dir).Within (ConfinedTo reg) := by
  refine (confinedToFrame reg).update fun w u w' h => ?_
  split at h
  · cases h
  · split at h
    · next o _ _ =>
      cases hu : w.disk.unlink dir o with
      | error e =>
        rw [hu] at h
        cases h
      | ok r =>
        rw [hu] at h
        cases h
        exact confined_erase hdir hu
    · cases h

theorem cleanParents_confined {dirs : List Path} (hdirs : ∀ dir ∈ dirs, reg dir) :
    (Layered.cleanParents dirs).Within (ConfinedTo reg) := by
  have F := confinedToFrame reg
  induction dirs with
  | nil => exact F.pure ()
  | cons dir dirs ih =>
    apply F.bind (F.look _).attempt
    intro r
    split
    · have hremove := F.bind (removeEmptyDirectory_confined (hdirs dir List.mem_cons_self)) fun _ =>
        syncDir_confined dir.dropLast
      apply F.bind hremove.attempt
      intro r
      cases r with
      | ok u => exact ih fun d hd => hdirs d (List.mem_cons_of_mem dir hd)
      | error e => exact F.pure ()
    · exact F.pure ()

theorem mem_parentsBelow {root file dir : Path} :
    dir ∈ Layered.parentsBelow root file ↔ dir <+: file.dropLast ∧ root.length < dir.length := by
  rw [Layered.parentsBelow, List.mem_reverse, List.mem_filter]
  exact and_congr (List.mem_inits _ _) decide_eq_true_iff

theorem cleanEmptyParents_confined {root file : Path}
    (h : ∀ dir, dir <+: file.dropLast → root.length < dir.length → reg dir) :
    (Layered.cleanEmptyParents root file).Within (ConfinedTo reg) :=
  cleanParents_confined fun dir hdir => h dir (mem_parentsBelow.mp hdir).1 (mem_parentsBelow.mp hdir).2

variable {sizes : List Nat}

theorem mem_batches {files batch : List Path} {file : Path}
    (hbatch : batch ∈ Layered.batches sizes files) (hfile : file ∈ batch) : file ∈ files := by
  induction sizes generalizing files with
  | nil =>
    cases files with
    | nil => cases hbatch
    | cons f fs =>
      obtain rfl := List.mem_singleton.mp hbatch
      exact hfile
  | cons size sizes ih =>
    cases files with
    | nil => cases hbatch
    | cons f fs =>
      rcases List.mem_cons.mp hbatch with rfl | hrest
      · exact List.mem_of_mem_take hfile
      · exact List.mem_of_mem_drop (ih hrest)

theorem mem_filesBelow {t : PathMap String Object} {path file : Path}
    (h : file ∈ Layered.filesBelow t path) : path <+: file := by
  obtain ⟨rel, -, rfl⟩ := List.mem_map.mp (List.mem_filter.mp h).1
  exact List.prefix_append path rel

theorem removeIdle_confined {files : List Path} (hfiles : ∀ file ∈ files, reg file) :
    (Layered.removeIdle digest files).Within (ConfinedTo reg) := by
  have F := confinedToFrame reg
  apply F.bind_of (T := fun idle : List Path => ∀ file ∈ idle, file ∈ files) (F.look _)
  · intro w
    exact safe_look trivial fun file hfile => (List.mem_filter.mp hfile).1
  · intro idle hidle
    refine F.bind (F.onlyIf (commit_confined ?_)) fun _ => F.pure _
    exact removeBatch_confined fun file hfile => hfiles file (hidle file hfile)

theorem removeBatches_confined {rest : List (List Path)} {kept : Nat}
    (hrest : ∀ batch ∈ rest, ∀ file ∈ batch, reg file) :
    (Layered.removeBatches digest rest kept).Within (ConfinedTo reg) := by
  have F := confinedToFrame reg
  induction rest generalizing kept with
  | nil => exact F.pure kept
  | cons files rest ih =>
    apply F.bind (removeIdle_confined (hrest files List.mem_cons_self))
    intro busy
    exact ih fun batch hbatch => hrest batch (List.mem_cons_of_mem files hbatch)

theorem removeTree_confined {path : Path} (hpath : ∀ k, path <+: k → reg k) :
    (Layered.removeTree digest sizes path).Within (ConfinedTo reg) := by
  have F := confinedToFrame reg
  apply F.bind (F.bind recoverJournal_confined fun _ => F.check _)
  intro _
  apply F.bind_of (T := fun files : List Path => ∀ file ∈ files, reg file) (F.look _)
  · intro w
    exact safe_look trivial fun file hfile => hpath file (mem_filesBelow hfile)
  · intro files hfiles
    apply F.bind (removeBatches_confined fun batch hbatch file hfile =>
      hfiles file (mem_batches hbatch hfile))
    intro kept
    have hempty : (Change.run digest (.removeEmptyTree path)).Within (ConfinedTo reg) :=
      removeEmptyTree_confined hpath
    apply F.bind (commit_confined hempty)
    intro _
    split
    · exact F.raise _
    · exact F.pure ()

theorem removePathSection_confined {path : Path} {recursive : Bool} (hpath : ∀ k, path <+: k → reg k) :
    (Layered.removePathSection digest sizes path recursive).Within (ConfinedTo reg) := by
  have F := confinedToFrame reg
  apply F.bind (F.look _)
  intro isDir
  split
  · exact removeTree_confined hpath
  · apply commit_confined
    apply F.bind (F.check _)
    intro _
    cases recursive with
    | true => exact F.bind (removeAll_confined hpath) fun _ => syncSurvivingParent_confined path
    | false =>
      exact F.bind (onDisk_confined (removePath_confined (hpath path List.prefix_rfl))) fun _ =>
        syncSurvivingParent_confined path

end BirakFormal
