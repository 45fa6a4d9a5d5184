import BirakFormal.Fileops.Changes

/-!
# Removing a tree while others write

The walk of `removeTree` runs without the lock. Between any two of its steps, and between two batches, other
commits, writers and programs may change the volume in any way. What a batch unlinks was found by the walk, is
covered by the intents of the batch and is held by no writer; the last commit takes empty directories only.
-/

namespace BirakFormal

open Interruption Prog Subtrees Relation

/-- One entry with nothing beneath it goes, for which `P` holds. -/
def UnlinksOne (P : Path → Object → Prop) (t t' : PathMap String Object) : Prop :=
  ∃ k o, t.lookup k = some o ∧ P k o ∧ hasChildren t k = false ∧ ∀ k', t'.lookup k' = if k' = k then none else t.lookup k'

def Unlinks (P : Path → Object → Prop) : PathMap String Object → PathMap String Object → Prop :=
  ReflTransGen (UnlinksOne P)

section
variable {P Q : Path → Object → Prop} {t t' : PathMap String Object}

theorem Unlinks.imp (h : Unlinks P t t') (hPQ : ∀ k o, P k o → Q k o) : Unlinks Q t t' :=
  ReflTransGen.mono (fun _ _ ⟨k, o, hk, hP, hrest⟩ => ⟨k, o, hk, hPQ k o hP, hrest⟩) _ _ h

theorem Unlinks.lookup (h : Unlinks P t t') {k : Path} {o : Object} (hk : t'.lookup k = some o) : t.lookup k = some o := by
  induction h with
  | refl => exact hk
  | tail _ hlast ih =>
    obtain ⟨k', -, -, -, -, hrest⟩ := hlast
    rw [hrest] at hk
    split at hk
    · cases hk
    · exact ih hk

theorem Unlinks.stays_none (h : Unlinks P t t') {k : Path} (hk : t.lookup k = none) : t'.lookup k = none := by
  cases hk' : t'.lookup k with
  | none => rfl
  | some o =>
    rw [h.lookup hk'] at hk
    cases hk

theorem Unlinks.ancestors (h : Unlinks P t t') {e a : Path} (he : t'.lookup e ≠ none) (ha : a <+: e) :
    t'.lookup a = t.lookup a := by
  induction h with
  | refl => rfl
  | @tail u v _ hlast ih =>
    obtain ⟨k, o, hk, -, hleaf, hrest⟩ := hlast
    rw [hrest] at he
    split at he
    · exact absurd rfl he
    · next hne =>
      have hak : a ≠ k := by
        rintro rfl
        have hbelow := List.any_eq_false.mp hleaf e ((u.mem_names e).mpr he)
        exact hbelow (by simp [ha, hne])
      rw [hrest, if_neg hak]
      exact ih he

end

def UnlinksOn (P : Path → Object → Prop) (w w' : Layered) : Prop := Unlinks P w.disk.tree w'.disk.tree

section
variable {P : Path → Object → Prop} {w : Layered}

theorem unlinksFrame (P : Path → Object → Prop) : Frame (UnlinksOn P) :=
  ⟨fun _ => ReflTransGen.refl, fun h h' => ReflTransGen.trans h h'⟩

theorem removePath_unlinks {k : Path} (hP : ∀ o, w.disk.tree.lookup k = some o → P k o) :
    (Layered.onDisk (removePath k)).Sat (· = w) (fun _ v => v = w)
      (fun _ v => UnlinksOn P w v ∧ v.disk.tree.lookup k = none) w := by
  have hdisk : (removePath k).Safe (· = w.disk)
      (fun _ d => Unlinks P w.disk.tree d.tree ∧ d.tree.lookup k = none) w.disk := by
    refine safe_update (show w.disk = w.disk from rfl) fun a d hd => ?_
    cases hk : w.disk.tree.lookup k with
    | none =>
      rw [hk] at hd
      cases hd
    | some o =>
      rw [hk] at hd
      dsimp only [Disk.unlink] at hd
      split at hd
      · cases hd
      · next hleaf =>
        cases hd
        exact ⟨.single ⟨k, o, hk, hP o hk, Bool.eq_false_of_not_eq_true hleaf, fun _ => rfl⟩, if_pos rfl⟩
  refine (Safe.zoom Layered.diskPart hdisk).mono ?_ ?_
  · rintro v ⟨d, rfl, rfl⟩
    rfl
  · rintro a v ⟨d, rfl, hd⟩
    exact hd

theorem syncDir_unlinks (dir : Path) : (Layered.syncDir dir).Within (UnlinksOn P) :=
  (unlinksFrame P).alter fun _ => ReflTransGen.refl

theorem removeBatch_unlinks {files : List Path} (hP : ∀ k ∈ files, ∀ o, o.isDir = false → P k o) :
    (Layered.removeBatch files).Within (UnlinksOn P) := by
  have F := unlinksFrame P
  refine F.bind (F.forEach fun file hfile => ?_) fun _ => F.forEach fun file _ => syncDir_unlinks _
  intro w
  apply safe_look_bind (F.refl w)
  cases hlook : w.disk.tree.lookup file with
  | none => exact safe_pure (F.refl w)
  | some o =>
    apply safe_onlyIf
    · intro hfile'
      refine (removePath_unlinks fun o' ho' => ?_).mono (fun v hv => hv ▸ F.refl w) (fun _ v hv => hv ▸ F.refl w)
        fun _ v hv => hv.1
      rw [hlook] at ho'
      cases ho'
      exact hP file hfile o (by simpa using hfile')
    · intro _
      exact F.refl w

theorem removeEmptied_unlinks {changed : Bool} {dir : Path} (hP : ∀ o, w.disk.tree.lookup dir = some o → P dir o) :
    (Layered.removeEmptied changed dir).Safe (UnlinksOn P w)
      (fun _ v => UnlinksOn P w v ∧ (changed = false → v.disk.tree.lookup dir = none)) w := by
  have F := unlinksFrame P
  apply safe_look_bind (F.refl w)
  have hremove : (Layered.onDisk (removePath dir)).attempt.Safe (UnlinksOn P w) (fun r v => match r with
      | .ok _ => UnlinksOn P w v ∧ v.disk.tree.lookup dir = none
      | .error _ => v = w) w :=
    safe_attempt ((removePath_unlinks hP).mono (fun v hv => hv ▸ F.refl w) (fun _ _ => id) fun _ _ => id)
  apply hremove.bind
  intro r v hv
  cases r with
  | ok u => exact safe_pure ⟨hv.1, fun _ => hv.2⟩
  | error e =>
    obtain rfl := hv
    dsimp only
    split
    · next hor =>
      refine safe_pure ⟨F.refl v, fun hsame => ?_⟩
      rw [hsame, Bool.or_false] at hor
      exact Option.isNone_iff_eq_none.mp hor
    · exact safe_rethrow (F.refl v)

theorem removeEmptied_forEach {changed : Bool} {path : Path} {dirs : List Path}
    (hP : ∀ rel ∈ dirs, ∀ o, w.disk.tree.lookup (path ++ rel) = some o → P (path ++ rel) o) :
    (forEach (fun rel => Layered.removeEmptied changed (path ++ rel)) dirs).Safe (UnlinksOn P w)
      (fun _ v => UnlinksOn P w v ∧ (changed = false → ∀ rel ∈ dirs, v.disk.tree.lookup (path ++ rel) = none)) w := by
  have F := unlinksFrame P
  induction dirs generalizing w with
  | nil => exact safe_pure ⟨F.refl w, fun _ rel hrel => absurd hrel List.not_mem_nil⟩
  | cons rel dirs ih =>
    apply (removeEmptied_unlinks (hP rel List.mem_cons_self)).bind
    intro _ u hu
    have hrest := ih fun rel' hrel' o ho => hP rel' (List.mem_cons_of_mem rel hrel') o (Unlinks.lookup hu.1 ho)
    refine hrest.mono (fun _ => F.trans hu.1) fun _ v hv => ⟨F.trans hu.1 hv.1, fun hsame rel' hrel' => ?_⟩
    rcases List.mem_cons.mp hrel' with rfl | hrel'
    · exact Unlinks.stays_none hv.1 (hu.2 hsame)
    · exact hv.2 hsame rel' hrel'

theorem removeEmptyTree_unlinks {path : Path} (hP : ∀ k o, path <+: k → o.isDir = true → P k o) :
    (Layered.removeEmptyTree path).Safe (UnlinksOn P w)
      (fun _ v => UnlinksOn P w v ∧ ∀ rel, v.disk.tree.lookup (path ++ rel) = none) w := by
  have F := unlinksFrame P
  apply safe_look_bind (F.refl w)
  apply safe_look_bind (F.refl w)
  dsimp only
  generalize hdirs : (w.disk.tree.below walkOrder path).filter
    (fun rel => (w.disk.tree.lookup (path ++ rel)).any Object.isDir) = dirs
  have hfound : ∀ rel ∈ dirs.reverse, ∀ o, w.disk.tree.lookup (path ++ rel) = some o → P (path ++ rel) o := by
    intro rel hrel o ho
    rw [← hdirs, List.mem_reverse, List.mem_filter, ho] at hrel
    exact hP _ o (List.prefix_append path rel) hrel.2
  apply (removeEmptied_forEach hfound).bind
  intro _ v hv
  have hsync : (Layered.syncSurvivingParent path).Within (UnlinksOn P) :=
    F.bind (F.look _) fun _ => F.forEach fun dir _ => syncDir_unlinks dir
  have hflush : (Layered.syncSurvivingParent path).attempt.Safe (UnlinksOn P w) (fun _ u => UnlinksOn P v u) v :=
    (hsync.attempt v).mono (fun _ => F.trans hv.1) fun _ _ => id
  by_cases hchanged : dirs.length < (w.disk.tree.below walkOrder path).length
  · -- Something else was found: the removal reports it.
    rw [if_pos (decide_eq_true hchanged)]
    exact hflush.bind fun _ u hu => F.trans hv.1 hu
  · rw [if_neg (by simpa using hchanged)]
    apply hflush.bind
    intro b u hu
    cases b with
    | error e => exact F.trans hv.1 hu
    | ok _ =>
      refine safe_pure ⟨F.trans hv.1 hu, fun rel => ?_⟩
      have hall : dirs = w.disk.tree.below walkOrder path := by
        rw [← hdirs]
        apply List.filter_sublist.eq_of_length_le
        rw [hdirs]
        exact Nat.le_of_not_lt hchanged
      by_cases hrel : w.disk.tree.lookup (path ++ rel) = none
      · exact Unlinks.stays_none (F.trans hv.1 hu) hrel
      · have hmem : rel ∈ dirs.reverse := by rwa [List.mem_reverse, hall, PathMap.mem_below]
        exact Unlinks.stays_none hu (hv.2 (decide_eq_false hchanged) rel hmem)

end

/-- The walk has entries of directories left to visit, the non-directories in the batch and the number of
files that were kept; or the call is over, without an error or with one. -/
inductive RemovalPhase where
  | entering
  | walking (todo : List (Path × Object)) (batch : List Path) (kept : Nat)
  | returned (ok : Bool)

/-- A commit of the removal: the world when it asked for writers, and those around its work. -/
structure RemovalCommit where
  intents : List Path
  asked : Layered
  before : Layered
  after : Layered

/-- `commits` and `read` are records: the commits so far, newest first, and the worlds in which the walk read
a directory. -/
structure Removal where
  phase : RemovalPhase := .entering
  commits : List RemovalCommit := []
  read : List Layered := []

/-- `os.ReadDir`; nothing is in a directory that is gone. -/
def childrenOf (w : Layered) (dir : Path) : List (Path × Object) :=
  ((w.disk.tree.below walkOrder dir).filter fun rel => rel.length = 1).filterMap fun rel =>
    (w.disk.tree.lookup (dir ++ rel)).map fun o => (dir ++ rel, o)

/-- A step of the removal or of anything else. Recovery of what another commit left comes between the
question for writers and the work of a commit. -/
inductive RemovalStep (path : Path) : Removal × Layered → Removal × Layered → Prop where
  | elsewhere {r : Removal} {w w' : Layered} : RemovalStep path (r, w) (r, w')
  -- A writer in the tree, or any call of the walk that fails.
  | fail {r : Removal} {w : Layered} (hr : ∀ ok, r.phase ≠ .returned ok) :
      RemovalStep path (r, w) ({ r with phase := .returned false }, w)
  | enter {r : Removal} {w : Layered} (hr : r.phase = .entering) :
      RemovalStep path (r, w) ({ r with
        phase := .walking ((w.disk.tree.lookup path).toList.map fun o => (path, o)) [] 0
        read := w :: r.read }, w)
  | visitFile {r : Removal} {w : Layered} {p : Path} {o : Object} {todo : List (Path × Object)} {batch : List Path} {kept : Nat}
      (hr : r.phase = .walking ((p, o) :: todo) batch kept) (ho : o.isDir = false) :
      RemovalStep path (r, w) ({ r with phase := .walking todo (batch ++ [p]) kept }, w)
  | visitDir {r : Removal} {w : Layered} {p : Path} {o : Object} {todo : List (Path × Object)} {batch : List Path} {kept : Nat}
      (hr : r.phase = .walking ((p, o) :: todo) batch kept) (ho : o.isDir = true) :
      RemovalStep path (r, w)
        ({ r with phase := .walking (childrenOf w p ++ todo) batch kept, read := w :: r.read }, w)
  | flush {r : Removal} {w v v' : Layered} {todo : List (Path × Object)} {batch idle : List Path} {kept : Nat}
      (hr : r.phase = .walking todo batch kept) (hidle : idle = batch.filter fun file => !w.busy file)
      (hrun : (Layered.removeBatch idle).Yields v () v') :
      RemovalStep path (r, w) ({ r with
        phase := .walking todo [] (kept + (batch.length - idle.length))
        commits := ⟨idle, w, v, v'⟩ :: r.commits }, v')
  | flushFails {r : Removal} {w v v' : Layered} {todo : List (Path × Object)} {batch idle : List Path} {kept : Nat}
      (hr : r.phase = .walking todo batch kept) (hidle : idle = batch.filter fun file => !w.busy file)
      (hrun : (Layered.removeBatch idle).Stops v v') :
      RemovalStep path (r, w) ({ r with phase := .returned false, commits := ⟨idle, w, v, v'⟩ :: r.commits }, v')
  | last {r : Removal} {w v v' : Layered} {kept : Nat} (hr : r.phase = .walking [] [] kept)
      (hrun : (Layered.removeEmptyTree path).Yields v () v') :
      RemovalStep path (r, w)
        ({ r with phase := .returned (decide (kept = 0)), commits := ⟨[path], w, v, v'⟩ :: r.commits }, v')
  | lastFails {r : Removal} {w v v' : Layered} {kept : Nat} (hr : r.phase = .walking [] [] kept)
      (hrun : (Layered.removeEmptyTree path).Stops v v') :
      RemovalStep path (r, w) ({ r with phase := .returned false, commits := ⟨[path], w, v, v'⟩ :: r.commits }, v')

def WalkedFile (read : List Layered) (k : Path) : Prop :=
  ∃ v ∈ read, ∃ o, v.disk.tree.lookup k = some o ∧ o.isDir = false

/-- What a commit unlinks: non-directories that the walk was told of, that are among its intents and that no
writer held when it asked, or directories of the tree. -/
def RemovalCommit.Allows (path : Path) (read : List Layered) (c : RemovalCommit) (k : Path) (o : Object) : Prop :=
  (o.isDir = false ∧ k ∈ c.intents ∧ c.asked.busy k = false ∧ WalkedFile read k) ∨ (o.isDir = true ∧ path <+: k)

structure Removal.Sound (path : Path) (r : Removal) : Prop where
  commits : ∀ c ∈ r.commits, UnlinksOn (c.Allows path r.read) c.before c.after
  walking : ∀ todo batch kept, r.phase = .walking todo batch kept →
    (∀ e ∈ todo, ∃ v ∈ r.read, v.disk.tree.lookup e.1 = some e.2) ∧ ∀ k ∈ batch, WalkedFile r.read k
  returned : r.phase = .returned true → ∃ c, r.commits.head? = some c ∧ ∀ rel, c.after.disk.tree.lookup (path ++ rel) = none

section
variable {path : Path} {r r' : Removal} {w w' : Layered}

theorem mem_childrenOf {dir : Path} {e : Path × Object} (he : e ∈ childrenOf w dir) : w.disk.tree.lookup e.1 = some e.2 := by
  obtain ⟨rel, -, hrel⟩ := List.mem_filterMap.mp he
  obtain ⟨o, ho, rfl⟩ := Option.map_eq_some_iff.mp hrel
  exact ho

variable {c : RemovalCommit}

theorem RemovalCommit.allows_read {read : List Layered} (h : UnlinksOn (c.Allows path read) c.before c.after)
    (v : Layered) : UnlinksOn (c.Allows path (v :: read)) c.before c.after := by
  apply Unlinks.imp h
  intro k o hk
  apply hk.imp_left
  rintro ⟨ho, hint, hbusy, u, hu, hseen⟩
  exact ⟨ho, hint, hbusy, u, List.mem_cons_of_mem v hu, hseen⟩

theorem idle_allows {batch idle : List Path} {v v' : Layered} (hbatch : ∀ k ∈ batch, WalkedFile r.read k)
    (hidle : idle = batch.filter fun file => !w.busy file) :
    (Layered.removeBatch idle).Within (UnlinksOn (RemovalCommit.Allows path r.read ⟨idle, w, v, v'⟩)) := by
  apply removeBatch_unlinks
  intro k hk o ho
  have hmem := hk
  rw [hidle] at hmem
  obtain ⟨hk', hbusy⟩ := List.mem_filter.mp hmem
  exact .inl ⟨ho, hk, by simpa using hbusy, hbatch k hk'⟩

theorem emptied_allows {read : List Layered} (v : Layered) :
    (Layered.removeEmptyTree path).Safe (UnlinksOn (c.Allows path read) v)
      (fun _ u => UnlinksOn (c.Allows path read) v u ∧ ∀ rel, u.disk.tree.lookup (path ++ rel) = none) v := by
  apply removeEmptyTree_unlinks
  intro k o hk ho
  exact .inr ⟨ho, hk⟩

theorem Removal.Sound.commit (h : r.Sound path) (hc : UnlinksOn (c.Allows path r.read) c.before c.after) :
    ∀ c' ∈ c :: r.commits, UnlinksOn (c'.Allows path r.read) c'.before c'.after := by
  intro c' hc'
  rcases List.mem_cons.mp hc' with rfl | hc'
  · exact hc
  · exact h.commits c' hc'

theorem Removal.Sound.step (h : r.Sound path) (hstep : RemovalStep path (r, w) (r', w')) : r'.Sound path := by
  cases hstep with
  | elsewhere => exact h
  | fail => exact ⟨h.commits, nofun, nofun⟩
  | enter hr =>
    refine ⟨fun c hc => RemovalCommit.allows_read (h.commits c hc) w, ?_, nofun⟩
    intro todo batch kept heq
    cases heq
    refine ⟨fun e he => ⟨w, List.mem_cons_self, ?_⟩, nofun⟩
    obtain ⟨o, ho, rfl⟩ := List.mem_map.mp he
    exact Option.mem_toList.mp ho
  | @visitFile _ _ p o todo batch kept hr ho =>
    obtain ⟨htodo, hbatch⟩ := h.walking _ _ _ hr
    refine ⟨h.commits, ?_, nofun⟩
    intro todo' batch' kept' heq
    cases heq
    refine ⟨fun e he => htodo e (List.mem_cons_of_mem _ he), fun k hk => ?_⟩
    rcases List.mem_append.mp hk with hk | hk
    · exact hbatch k hk
    · obtain rfl := List.mem_singleton.mp hk
      obtain ⟨v, hv, hlook⟩ := htodo (k, o) List.mem_cons_self
      exact ⟨v, hv, o, hlook, ho⟩
  | @visitDir _ _ p o todo batch kept hr ho =>
    obtain ⟨htodo, hbatch⟩ := h.walking _ _ _ hr
    refine ⟨fun c hc => RemovalCommit.allows_read (h.commits c hc) w, ?_, nofun⟩
    intro todo' batch' kept' heq
    cases heq
    constructor
    · intro e he
      rcases List.mem_append.mp he with he | he
      · exact ⟨w, List.mem_cons_self, mem_childrenOf he⟩
      · obtain ⟨v, hv, hlook⟩ := htodo e (List.mem_cons_of_mem _ he)
        exact ⟨v, List.mem_cons_of_mem w hv, hlook⟩
    · intro k hk
      obtain ⟨v, hv, hseen⟩ := hbatch k hk
      exact ⟨v, List.mem_cons_of_mem w hv, hseen⟩
  | flush hr hidle hrun =>
    obtain ⟨htodo, hbatch⟩ := h.walking _ _ _ hr
    refine ⟨h.commit ((idle_allows hbatch hidle _).of_yields hrun), ?_, nofun⟩
    intro todo' batch' kept' heq
    cases heq
    exact ⟨htodo, nofun⟩
  | flushFails hr hidle hrun =>
    exact ⟨h.commit ((idle_allows (h.walking _ _ _ hr).2 hidle).stops hrun), nofun, nofun⟩
  | last hr hrun =>
    obtain ⟨hunlinks, hempty⟩ := (emptied_allows _).of_yields hrun
    exact ⟨h.commit hunlinks, nofun, fun _ => ⟨_, rfl, hempty⟩⟩
  | lastFails hr hrun =>
    exact ⟨h.commit ((emptied_allows _).stops (fun _ _ => And.left) hrun), nofun, nofun⟩

end

def oneFileTree : Layered where
  disk := { tree := (PathMap.empty.put ["d"] ⟨0, 1, 0, .dir⟩).put ["d", "f"] ⟨0, 2, 0, .file [] 0⟩ }
  links := fun _ _ => none
  contents := fun _ => none
  next := 3

end BirakFormal
