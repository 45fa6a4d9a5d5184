import BirakFormal.Fileops.Replace

/-!
# Open writers

`OpenWriter` stages a whole new generation of a file next to its destination and registers
the writer; `CLOSE` publishes it, if the destination is still what it was. Between the two the
volume is unlocked, and other gateways, aborted writers and programs outside may change it.
Only what is done under the lock of the volume is one step. The staged file belongs to its
writer alone, so it is kept with the writer and not with the names of the volume.
-/

namespace BirakFormal

open Tables Relation

structure Generation where
  ino : Nat
  size : Nat
  modTime : Int64
  mode : Nat
  regular : Bool := true
  deriving DecidableEq, Repr

def Generation.same (a b : Generation) : Bool :=
  a.ino = b.ino && a.size = b.size && a.modTime = b.modTime && a.mode = b.mode

structure Occupant where
  gen : Generation
  bytes : Bytes
  deriving DecidableEq, Repr

inductive PathErr where
  | notExist
  | notDir
  | other
  deriving DecidableEq, Repr

/-- The names of a volume at one moment. A path leads where it leads once the symbolic links of
a part of it are resolved. -/
structure Names where
  evalSymlinks : Path → Except PathErr Path
  lookup : Path → Except PathErr Occupant
  resolves : ∀ p q, evalSymlinks p = .ok q → ∀ rest, lookup (q ++ rest) = lookup (p ++ rest)

namespace Names

variable (v : Names)

def stat (p : Path) : Except PathErr Generation := (v.lookup p).map Occupant.gen

/-- The loop of `ResolvePath`, over the path in reverse: the nearest existing ancestor is
resolved and the missing components are kept. -/
def resolveLoop : Path → Path → Except PathErr Path
  | [], rest => match v.evalSymlinks [] with
    | .ok q => .ok (q ++ rest)
    | .error e => .error e
  | base :: dir, rest => match v.evalSymlinks (base :: dir).reverse with
    | .ok q => .ok (q ++ rest)
    | .error .other => .error .other
    | .error _ => resolveLoop dir (base :: rest)

def resolvePath (p : Path) : Except PathErr Path := v.resolveLoop p.reverse []

def canonical (p : Path) : Path :=
  match v.resolvePath p with
  | .ok q => q
  | .error _ => p

theorem lookup_resolveLoop {p rest q : Path} (h : v.resolveLoop p rest = .ok q) :
    v.lookup q = v.lookup (p.reverse ++ rest) := by
  induction p generalizing rest with
  | nil =>
    simp only [resolveLoop] at h
    split at h
    · obtain rfl := Except.ok.inj h
      exact v.resolves _ _ ‹_› rest
    · exact absurd h nofun
  | cons base dir ih =>
    simp only [resolveLoop] at h
    split at h
    · obtain rfl := Except.ok.inj h
      exact v.resolves _ _ ‹_› rest
    · exact absurd h nofun
    · rw [ih h]
      simp only [List.reverse_cons, List.append_assoc, List.singleton_append]

theorem stat_canonical (p : Path) : v.stat (v.canonical p) = v.stat p := by
  unfold canonical
  split
  · rename_i q hq
    have hlookup := v.lookup_resolveLoop (show v.resolveLoop p.reverse [] = .ok q from hq)
    rw [stat, hlookup]
    simp only [List.reverse_reverse, List.append_nil, stat]
  · rfl

end Names

inductive WriteErr where
  | busy
  | closed
  | exist
  | notExist
  | notRegular
  | failed (text : String)
  deriving DecidableEq, Repr

structure Writer where
  file : Nat
  path : Path
  requested : Path
  original : Option Generation
  staged : Occupant
  deriving DecidableEq, Repr

structure Gateway where
  names : Names
  writers : Table Writer.file := .empty
  /-- The next file handle, and the inode of its scratch file. -/
  nextFile : Nat := 0

namespace Gateway

variable (s : Gateway)

def Writer.holds (v : Names) (path : Path) (w : Writer) : Bool :=
  v.canonical path = w.path || path = w.requested ||
    match v.stat path, w.original with
    | .ok info, some original => info.ino = original.ino
    | _, _ => false

/-- `BusyLocked`. -/
def busy (path : Path) : Bool := s.writers.rows.any (Writer.holds s.names path)

/-- `BusyTreeLocked`; `walk` are the files a walk of the tree finds. -/
def busyTree (path : Path) (walk : List Path) : Bool :=
  s.busy path ||
    s.writers.rows.any (fun w => under w.path (s.names.canonical path) || under w.requested path) ||
    walk.any s.busy

structure OpenFlags where
  create : Bool
  exclusive : Bool
  truncate : Bool
  mode : Nat
  validated : Except WriteErr Unit := .ok ()
  probed : Except WriteErr Unit := .ok ()
  /-- `CheckSources`, which may restore the timestamp of a file it indexes. -/
  checked : Except WriteErr Unit := .ok ()
  indexed : Names
  staging : Except WriteErr Unit := .ok ()
  stamp : Int64

def refusal (flags : OpenFlags) (info : Generation) : Except WriteErr Unit :=
  if !info.regular then .error .notRegular
  else if flags.exclusive && flags.create then .error .exist
  else do
    flags.probed
    if flags.truncate then .ok () else flags.checked

def examine (path : Path) (flags : OpenFlags) : Except WriteErr (Path × Option Generation) := do
  flags.validated
  if s.busy path then .error .busy
  else
    let dest := s.names.canonical path
    match s.names.stat dest with
    | .ok info => do
      refusal flags info
      .ok (dest, some info)
    | .error .notExist => if flags.create then .ok (dest, none) else .error .notExist
    | .error _ => .error (.failed "stat")

def openWriter (path : Path) (flags : OpenFlags) : Except WriteErr Nat × Gateway :=
  match s.examine path flags, flags.staging with
  | .error e, _ => (.error e, { s with names := flags.indexed })
  | .ok _, .error e => (.error e, { s with names := flags.indexed })
  | .ok (dest, original), .ok () =>
    let mode := (original.map Generation.mode).getD flags.mode
    let staged : Occupant := ⟨⟨s.nextFile, 0, flags.stamp, mode, true⟩, []⟩
    (.ok s.nextFile, {
      names := flags.indexed
      writers := s.writers.put ⟨s.nextFile, dest, path, original, staged⟩
      nextFile := s.nextFile + 1 })

structure CommitInput where
  validated : Except WriteErr Unit := .ok ()
  begun : Except WriteErr Unit := .ok ()
  /-- The names once the old destination has been indexed. -/
  indexed : Names
  changed : Except WriteErr Unit := .ok ()
  synced : Except WriteErr Unit := .ok ()
  recovered : Except WriteErr Unit := .ok ()
  finished : Except WriteErr Unit := .ok ()
  /-- The names once a scratch file has been renamed over a path. -/
  after : Path → Occupant → Names → Names
  after_dest : ∀ p f v, (after p f v).lookup p = .ok f

def errors (r : Except WriteErr Unit) : List WriteErr :=
  match r with
  | .ok () => []
  | .error e => [e]

/-- `commitPublishedLocked`, around the change it is given. A failed change is followed by
another look at the storage, and whatever is there is indexed. No error is `nil`. -/
def commitPublished (input : CommitInput) (change : Names → List WriteErr × Names) :
    List WriteErr × Names :=
  match input.validated, input.begun with
  | .error e, _ => ([e], s.names)
  | .ok (), .error e => ([e], input.indexed)
  | .ok (), .ok () =>
    match change input.indexed with
    | ([], v) => (errors input.finished, v)
    | (errs, v) => match input.recovered with
      | .error e => (errs ++ [e], v)
      | .ok () => (errs ++ errors input.finished, v)

def renameOver (input : CommitInput) (dest : Path) (f : Occupant) (v : Names) : List WriteErr × Names :=
  match input.changed with
  | .error e => ([e], v)
  | .ok () => (errors input.synced, input.after dest f v)

def publish (dest : Path) (f : Occupant) (input : CommitInput) : List WriteErr × Names :=
  s.commitPublished input fun v =>
    if ({ s with names := v } : Gateway).busy dest then ([.busy], v) else renameOver input dest f v

def publishIf (precondition : Option (Except PathErr Generation → Except WriteErr Unit)) (dest : Path)
    (f : Occupant) (input : CommitInput) : List WriteErr × Names :=
  match precondition with
  | none => s.publish dest f input
  | some judge =>
    match input.validated, judge (s.names.stat dest) with
    | .error e, _ => ([e], s.names)
    | .ok (), .error e => ([e], s.names)
    | .ok (), .ok () => s.publish dest f input

/-- A change of the namespace that a writer in one of the trees refuses: the sections of `Rename`
and `Remove`. The trees come with the files a walk of them finds, and `moved` are the names
once the system has renamed or removed. -/
def commitTrees (trees : List (Path × List Path)) (moved : Names) (input : CommitInput) :
    List WriteErr × Names :=
  s.commitPublished input fun v =>
    if trees.any fun tree => ({ s with names := v } : Gateway).busyTree tree.1 tree.2 then ([.busy], v)
    else match input.changed with
      | .error e => ([e], v)
      | .ok () => (errors input.synced, moved)

def rename (src dest : Path × List Path) (moved : Names) (input : CommitInput) :
    List WriteErr × Names :=
  s.commitTrees [src, dest] moved input

def remove (path : Path × List Path) (moved : Names) (input : CommitInput) : List WriteErr × Names :=
  s.commitTrees [path] moved input

def removeBatch (files : List Path) (moved : List Path → Names) (input : CommitInput) :
    List WriteErr × Names :=
  match files.filter fun p => !s.busy p with
  | [] => ([], s.names)
  | idle => s.commitPublished input fun v => match input.changed with
    | .error e => ([e], v)
    | .ok () => (errors input.synced, moved idle)

/-- The last commit of `removeTree`, of directories only, looks for no writer. -/
def removeEmptyTree (moved : Names) (input : CommitInput) : List WriteErr × Names :=
  s.commitTrees [] moved input

def unchanged (original : Option Generation) (current : Except PathErr Generation) :
    Except WriteErr Unit :=
  match original, current with
  | some info, .ok now => if info.same now then .ok () else .error .busy
  | some _, .error _ => .error .busy
  | none, .error .notExist => .ok ()
  | none, .error _ => .error (.failed "stat")
  | none, .ok _ => .error .busy

def publishStaged (w : Writer) (input : CommitInput) (v : Names) : List WriteErr × Names :=
  match unchanged w.original (v.stat w.path) with
  | .error e => ([e], v)
  | .ok () => renameOver input w.path w.staged v

/-- The section of `CLOSE`, after the staged file was flushed and closed with the given errors. -/
def closeWriter (f : Nat) (flushed : List WriteErr) (input : CommitInput) : List WriteErr × Gateway :=
  match s.writers.find f with
  | none => ([.closed], s)
  | some w =>
    if flushed ≠ [] then (flushed, { s with writers := s.writers.erase f })
    else
      let committed := s.commitPublished input (publishStaged w input)
      (committed.1, { s with names := committed.2, writers := s.writers.erase f })

def abortWriter (f : Nat) : Gateway := { s with writers := s.writers.erase f }

end Gateway

open Gateway

inductive GatewayStep (s : Gateway) : Gateway → Prop where
  | openWriter (path : Path) (flags : OpenFlags) : GatewayStep s (s.openWriter path flags).2
  /-- The staged file is seeded, written or given attributes. -/
  | stage (w : Writer) (staged : Occupant) (hw : s.writers.find w.file = some w)
      (hino : staged.gen.ino = w.staged.gen.ino) :
      GatewayStep s { s with writers := s.writers.put { w with staged } }
  | closeWriter (f : Nat) (flushed : List WriteErr) (input : CommitInput) :
      GatewayStep s (s.closeWriter f flushed input).2
  | abortWriter (f : Nat) : GatewayStep s (s.abortWriter f)
  | publish (precondition : Option (Except PathErr Generation → Except WriteErr Unit)) (dest : Path)
      (f : Occupant) (input : CommitInput) :
      GatewayStep s { s with names := (s.publishIf precondition dest f input).2 }
  | rename (src dest : Path × List Path) (moved : Names) (input : CommitInput) :
      GatewayStep s { s with names := (s.rename src dest moved input).2 }
  | remove (path : Path × List Path) (moved : Names) (input : CommitInput) :
      GatewayStep s { s with names := (s.remove path moved input).2 }
  | removeBatch (files : List Path) (moved : List Path → Names) (input : CommitInput) :
      GatewayStep s { s with names := (s.removeBatch files moved input).2 }
  | removeEmptyTree (moved : Names) (input : CommitInput) :
      GatewayStep s { s with names := (s.removeEmptyTree moved input).2 }
  | external (names : Names) : GatewayStep s { s with names }

structure Exclusive (s : Gateway) : Prop where
  path : ∀ w ∈ s.writers.rows, ∀ w' ∈ s.writers.rows, w.path = w'.path → w.file = w'.file
  inode : ∀ w ∈ s.writers.rows, ∀ w' ∈ s.writers.rows, ∀ o o', w.original = some o →
    w'.original = some o' → o.ino = o'.ino → w.file = w'.file

variable {s t : Gateway}

theorem Exclusive.of_rows (h : Exclusive s) (ht : ∀ w ∈ t.writers.rows, ∃ w' ∈ s.writers.rows,
    w'.file = w.file ∧ w'.path = w.path ∧ w'.original = w.original) : Exclusive t := by
  constructor
  · intro w hw w' hw' hpath
    obtain ⟨u, hu, hfile, hup, -⟩ := ht w hw
    obtain ⟨u', hu', hfile', hup', -⟩ := ht w' hw'
    rw [← hfile, ← hfile']
    exact h.path u hu u' hu' (by rw [hup, hup', hpath])
  · intro w hw w' hw' o o' ho ho' hino
    obtain ⟨u, hu, hfile, -, huo⟩ := ht w hw
    obtain ⟨u', hu', hfile', -, huo'⟩ := ht w' hw'
    rw [← hfile, ← hfile']
    exact h.inode u hu u' hu' o o' (huo ▸ ho) (huo' ▸ ho') hino

theorem Exclusive.erase (h : Exclusive s) (f : Nat) (names : Names) :
    Exclusive { s with names, writers := s.writers.erase f } :=
  h.of_rows fun w hw => ⟨w, (Table.mem_erase_rows.mp hw).1, rfl, rfl, rfl⟩

variable {original : Option Generation}

theorem examine_ok {path : Path} {flags : OpenFlags} {dest : Path}
    (h : s.examine path flags = .ok (dest, original)) :
    s.busy path = false ∧ dest = s.names.canonical path ∧
      ((∃ info, original = some info ∧ s.names.stat dest = .ok info) ∨
        original = none ∧ s.names.stat dest = .error .notExist) := by
  simp only [examine, bind, Except.bind] at h
  split at h
  · exact absurd h nofun
  · split at h
    · exact absurd h nofun
    · have hfree : s.busy path = false := by simpa using ‹¬ s.busy path = true›
      split at h
      · rename_i info hstat
        split at h
        · exact absurd h nofun
        · obtain ⟨rfl, rfl⟩ := Prod.mk.inj (Except.ok.inj h)
          exact ⟨hfree, rfl, Or.inl ⟨info, rfl, hstat⟩⟩
      · rename_i hstat
        split at h
        · obtain ⟨rfl, rfl⟩ := Prod.mk.inj (Except.ok.inj h)
          exact ⟨hfree, rfl, Or.inr ⟨rfl, hstat⟩⟩
        · exact absurd h nofun
      · exact absurd h nofun

theorem openWriter_cases (s : Gateway) (path : Path) (flags : OpenFlags) :
    (s.openWriter path flags).2 = { s with names := flags.indexed } ∨
      ∃ dest original staged, s.examine path flags = .ok (dest, original) ∧
        s.openWriter path flags = (.ok s.nextFile, ⟨flags.indexed,
          s.writers.put ⟨s.nextFile, dest, path, original, staged⟩, s.nextFile + 1⟩) := by
  unfold openWriter
  split
  · exact Or.inl rfl
  · exact Or.inl rfl
  · exact Or.inr ⟨_, _, _, ‹_›, rfl⟩

variable {w : Writer}

theorem not_holds {path : Path} (h : s.busy path = false) (hw : w ∈ s.writers.rows) :
    s.names.canonical path ≠ w.path ∧
      ∀ info o, s.names.stat path = .ok info → w.original = some o → info.ino ≠ o.ino := by
  have hw : Writer.holds s.names path w = false := by
    simpa using List.any_eq_false.mp h w hw
  simp only [Writer.holds, Bool.or_eq_false_iff, decide_eq_false_iff_not] at hw
  refine ⟨hw.1.1, fun info o hinfo ho => ?_⟩
  simpa [hinfo, ho] using hw.2

theorem Exclusive.openWriter (h : Exclusive s) (path : Path) (flags : OpenFlags) :
    Exclusive (s.openWriter path flags).2 := by
  rcases openWriter_cases s path flags with heq | ⟨dest, original, staged, hexamine, heq⟩
  · rw [heq]
    exact ⟨h.path, h.inode⟩
  obtain ⟨hfree, rfl, horiginal⟩ := examine_ok hexamine
  -- Whatever was registered before differs from the new writer in both respects.
  have hnew : ∀ w ∈ s.writers.rows, s.names.canonical path ≠ w.path ∧
      ∀ o o', original = some o → w.original = some o' → o.ino ≠ o'.ino := by
    intro w hw
    obtain ⟨hpath, hino⟩ := not_holds hfree hw
    refine ⟨hpath, fun o o' ho ho' => ?_⟩
    rcases horiginal with ⟨info, hsome, hstat⟩ | ⟨hnone, -⟩
    · obtain rfl := Option.some.inj (hsome.symm.trans ho)
      exact hino info o' (by rw [← s.names.stat_canonical, hstat]) ho'
    · exact absurd (hnone.symm.trans ho) nofun
  rw [heq]
  constructor
  · intro w hw w' hw' hpath
    rcases Table.mem_put_rows.mp hw with rfl | ⟨hw, -⟩ <;>
      rcases Table.mem_put_rows.mp hw' with rfl | ⟨hw', -⟩
    · rfl
    · exact absurd hpath (hnew w' hw').1
    · exact absurd hpath.symm (hnew w hw).1
    · exact h.path w hw w' hw' hpath
  · intro w hw w' hw' o o' ho ho' hino
    rcases Table.mem_put_rows.mp hw with rfl | ⟨hw, -⟩ <;>
      rcases Table.mem_put_rows.mp hw' with rfl | ⟨hw', -⟩
    · rfl
    · exact absurd hino ((hnew w' hw').2 o o' ho ho')
    · exact absurd hino.symm ((hnew w hw).2 o' o ho' ho)
    · exact h.inode w hw w' hw' o o' ho ho' hino

theorem closeWriter_writers (s : Gateway) (f : Nat) (flushed : List WriteErr) (input : CommitInput) :
    (s.closeWriter f flushed input).2.writers = s.writers ∨
      ∃ names, (s.closeWriter f flushed input).2 = { s with names, writers := s.writers.erase f } := by
  unfold closeWriter
  split
  · exact Or.inl rfl
  · split
    · exact Or.inr ⟨s.names, rfl⟩
    · exact Or.inr ⟨_, rfl⟩

theorem Exclusive.step (h : Exclusive s) (hst : GatewayStep s t) : Exclusive t := by
  cases hst with
  | openWriter path flags => exact h.openWriter path flags
  | stage w staged hw hino =>
    refine h.of_rows fun u hu => ?_
    rcases Table.mem_put_rows.mp hu with rfl | ⟨hu, -⟩
    · exact ⟨w, Table.find_mem hw, rfl, rfl, rfl⟩
    · exact ⟨u, hu, rfl, rfl, rfl⟩
  | closeWriter f flushed input =>
    rcases closeWriter_writers s f flushed input with heq | ⟨names, heq⟩
    · exact h.of_rows fun w hw => ⟨w, heq ▸ hw, rfl, rfl, rfl⟩
    · rw [heq]
      exact h.erase f names
  | abortWriter f => exact h.erase f s.names
  | publish | rename | remove | removeBatch | removeEmptyTree | external => exact ⟨h.path, h.inode⟩

def OpenedIn (w : Writer) (s₀ : Gateway) : Prop :=
  (∃ flags, (s₀.openWriter w.requested flags).1 = .ok w.file) ∧ w.path = s₀.names.canonical w.requested ∧
    ((∃ info, w.original = some info ∧ s₀.names.stat w.path = .ok info) ∨
      w.original = none ∧ s₀.names.stat w.path = .error .notExist)

theorem GatewayStep.writer (hst : GatewayStep s t) (hw : w ∈ t.writers.rows) :
    (∃ u ∈ s.writers.rows, ∀ s₀, OpenedIn u s₀ → OpenedIn w s₀) ∨ OpenedIn w s := by
  cases hst with
  | openWriter path flags =>
    rcases openWriter_cases s path flags with heq | ⟨dest, original, staged, hexamine, heq⟩
    · rw [heq] at hw
      exact Or.inl ⟨w, hw, fun _ => id⟩
    · rw [heq] at hw
      rcases Table.mem_put_rows.mp hw with rfl | ⟨hw, -⟩
      · obtain ⟨-, hdest, horiginal⟩ := examine_ok hexamine
        exact Or.inr ⟨⟨flags, by rw [heq]⟩, hdest, horiginal⟩
      · exact Or.inl ⟨w, hw, fun _ => id⟩
  | stage u staged hu hino =>
    rcases Table.mem_put_rows.mp hw with rfl | ⟨hw, -⟩
    · exact Or.inl ⟨u, Table.find_mem hu, fun _ => id⟩
    · exact Or.inl ⟨w, hw, fun _ => id⟩
  | closeWriter f flushed input =>
    rcases closeWriter_writers s f flushed input with heq | ⟨names, heq⟩
    · exact Or.inl ⟨w, heq ▸ hw, fun _ => id⟩
    · rw [heq] at hw
      exact Or.inl ⟨w, (Table.mem_erase_rows.mp hw).1, fun _ => id⟩
  | abortWriter f => exact Or.inl ⟨w, (Table.mem_erase_rows.mp hw).1, fun _ => id⟩
  | publish | rename | remove | removeBatch | removeEmptyTree | external => exact Or.inl ⟨w, hw, fun _ => id⟩

theorem opened_of_run {names : Names} (h : ReflTransGen GatewayStep { names } s)
    (hw : w ∈ s.writers.rows) : ∃ s₀, ReflTransGen GatewayStep { names } s₀ ∧
      ReflTransGen GatewayStep s₀ s ∧ OpenedIn w s₀ := by
  induction h generalizing w with
  | refl => exact absurd hw List.not_mem_nil
  | tail hrun hst ih =>
    rcases hst.writer hw with ⟨u, hu, hopened⟩ | hopened
    · obtain ⟨s₀, hbefore, hafter, hs₀⟩ := ih hu
      exact ⟨s₀, hbefore, hafter.tail hst, hopened s₀ hs₀⟩
    · exact ⟨_, hrun, .single hst, hopened⟩

theorem exclusive_of_run {names : Names} (h : ReflTransGen GatewayStep { names } s) : Exclusive s := by
  induction h with
  | refl => exact ⟨fun w hw => absurd hw List.not_mem_nil, fun w hw => absurd hw List.not_mem_nil⟩
  | tail _ hst ih => exact ih.step hst

def Unchanged (original : Option Generation) (current : Except PathErr Generation) : Prop :=
  match original with
  | some info => ∃ now, current = .ok now ∧ info.same now
  | none => current = .error .notExist

def Overwritten (original : Option Generation) (current : Except PathErr Generation) : Prop :=
  match original with
  | some info => ∀ now, current = .ok now → info.same now = false
  | none => ∃ now, current = .ok now

theorem unchanged_ok {current : Except PathErr Generation}
    (h : unchanged original current = .ok ()) : Unchanged original current := by
  unfold unchanged at h
  split at h
  · split at h
    · exact ⟨_, rfl, ‹_›⟩
    · exact absurd h nofun
  · exact absurd h nofun
  · rfl
  · exact absurd h nofun
  · exact absurd h nofun

theorem unchanged_busy {current : Except PathErr Generation}
    (h : Overwritten original current) : unchanged original current = .error .busy := by
  cases original with
  | none =>
    obtain ⟨now, rfl⟩ := h
    rfl
  | some info =>
    cases current with
    | error e => rfl
    | ok now =>
      have hne : info.same now = false := h now rfl
      simp only [unchanged, hne, Bool.false_eq_true, if_false]

variable {input : CommitInput}

theorem publishStaged_nil {v v' : Names} (h : publishStaged w input v = ([], v')) :
    Unchanged w.original (v.stat w.path) ∧ v'.lookup w.path = .ok w.staged := by
  unfold publishStaged renameOver at h
  split at h
  · exact absurd h nofun
  · rename_i hunchanged
    split at h
    · exact absurd h nofun
    · obtain ⟨-, rfl⟩ := Prod.mk.inj h
      exact ⟨unchanged_ok hunchanged, input.after_dest _ _ _⟩

variable {change : Names → List WriteErr × Names}

theorem commitPublished_nil (h : (s.commitPublished input change).1 = []) :
    change input.indexed = ([], (s.commitPublished input change).2) := by
  unfold commitPublished at h ⊢
  split at h
  · exact absurd h nofun
  · exact absurd h nofun
  · cases hchange : change input.indexed with
    | mk errs v =>
      simp only [hchange] at h ⊢
      cases errs with
      | nil => rfl
      | cons e errs =>
        exfalso
        dsimp only at h
        split at h <;> exact absurd h (by simp)

theorem commitPublished_error
    {e : WriteErr} {v : Names} (hvalid : input.validated = .ok ()) (hbegun : input.begun = .ok ())
    (h : change input.indexed = ([e], v)) :
    e ∈ (s.commitPublished input change).1 ∧ (s.commitPublished input change).2 = v := by
  simp only [commitPublished, hvalid, hbegun, h]
  split
  · exact ⟨List.mem_cons_self, rfl⟩
  · exact ⟨List.mem_cons_self, rfl⟩

/-- In every run there is one writer for each destination and for each inode it started from. A
close that returns no error found at its destination exactly what `OpenWriter` had seen there,
and published the staged file over it; a close that looks and finds anything else reports
`ErrBusy` and leaves it alone. -/
theorem no_lost_update (names : Names) {s : Gateway} (h : ReflTransGen GatewayStep { names } s) :
    Exclusive s ∧
    (∀ f flushed input, (s.closeWriter f flushed input).1 = [] → ∃ w, s.writers.find f = some w ∧
      (∃ s₀, ReflTransGen GatewayStep { names } s₀ ∧ ReflTransGen GatewayStep s₀ s ∧ OpenedIn w s₀) ∧
      Unchanged w.original (input.indexed.stat w.path) ∧
      (s.closeWriter f flushed input).2.names.lookup w.path = .ok w.staged) ∧
    ∀ f input w, s.writers.find f = some w → input.validated = .ok () → input.begun = .ok () →
      Overwritten w.original (input.indexed.stat w.path) →
      .busy ∈ (s.closeWriter f [] input).1 ∧ (s.closeWriter f [] input).2.names = input.indexed := by
  refine ⟨exclusive_of_run h, fun f flushed input hnil => ?_, fun f input w hw hvalid hbegun hreplaced => ?_⟩
  · unfold closeWriter at hnil ⊢
    cases hw : s.writers.find f with
    | none =>
      rw [hw] at hnil
      exact absurd hnil nofun
    | some w =>
      rw [hw] at hnil
      dsimp only at hnil ⊢
      by_cases hflushed : flushed = []
      · rw [if_neg (not_not.mpr hflushed)] at hnil ⊢
        exact ⟨w, rfl, opened_of_run h (Table.find_mem hw), publishStaged_nil (commitPublished_nil hnil)⟩
      · rw [if_pos hflushed] at hnil
        exact absurd hnil hflushed
  · have hchange : publishStaged w input input.indexed = ([.busy], input.indexed) := by
      simp only [publishStaged, unchanged_busy hreplaced]
    simp only [closeWriter, hw, ne_eq, not_true_eq_false, if_false]
    exact commitPublished_error hvalid hbegun hchange

def oneName (p : Path) (f : Occupant) : Names where
  evalSymlinks q := .ok q
  lookup q := if q = p then .ok f else .error .notExist
  resolves := by
    intro q r h rest
    obtain rfl := Except.ok.inj h
    rfl

def emptyNames : Names where
  evalSymlinks q := .ok q
  lookup _ := .error .notExist
  resolves _ _ _ _ := rfl

def creating : OpenFlags :=
  { create := true, exclusive := false, truncate := true, mode := 420, indexed := emptyNames, stamp := 5 }

def publishing : CommitInput :=
  { indexed := emptyNames, after := fun p f _ => oneName p f, after_dest := fun _ _ _ => if_pos rfl }

def openedA : Gateway := ((({ names := emptyNames } : Gateway)).openWriter ["a"] creating).2

/-- It is published where nothing was. -/
theorem no_lost_update_new : Unchanged none (emptyNames.stat ["a"]) ∧
    (openedA.closeWriter 0 [] publishing).2.names.lookup ["a"] = .ok ⟨⟨0, 0, 5, 420, true⟩, []⟩ := by
  have hrun : ReflTransGen GatewayStep { names := emptyNames } openedA :=
    .single (.openWriter ["a"] creating)
  have hfind : openedA.writers.find 0 = some ⟨0, ["a"], ["a"], none, ⟨⟨0, 0, 5, 420, true⟩, []⟩⟩ := rfl
  obtain ⟨w, hw, -, hunchanged, hpublished⟩ := (no_lost_update emptyNames hrun).2.1 0 [] publishing rfl
  obtain rfl := Option.some.inj (hfind.symm.trans hw)
  exact ⟨hunchanged, hpublished⟩

end BirakFormal
