import BirakFormal.Multipart.Assembly

/-!
# Copies of objects

A copy is staged in a scratch file and published with a rename. Before that, the bytes that were
read are held against the checksum the index recorded for the generation of the source: where the
index has a row for it. The parts of a multipart copy read a range only; the whole of the source is
verified once for each generation, by the first request that asks.
-/

namespace BirakFormal

open Interruption Prog

inductive CopyErr where
  | sourceChanged
  | sourceDamaged
  | isDirectory
  | tooLarge
  | failed
  | publish (e : Failure Err)

structure CopySource where
  name : String
  size : Nat
  modTime : Int64
  deriving DecidableEq, Repr

structure CopyRead where
  bytes : Bytes
  failed : Bool
  deriving DecidableEq, Repr

/-- What a copy finds: whether there is an index, what it answers for the name, the bytes that were
read, and whether the path still names the same generation then. -/
structure SourceView where
  digest : Digest
  indexed : Bool
  row : Except CopyErr (Option FileMeta)
  src : CopySource
  reading : CopyRead
  unchanged : Bool

/-- `indexedHash`: nothing where the index cannot vouch for the generation. -/
def SourceView.indexedHash (v : SourceView) : Except CopyErr (Option String) :=
  if !v.indexed then .ok none
  else match v.row with
    | .error e => .error e
    | .ok none => .ok none
    | .ok (some m) =>
      if m.deleted ∨ m.size ≠ v.src.size ∨ m.modTime ≠ v.src.modTime then .ok none else .ok (some m.hash)

def SourceView.checkSourceHash (v : SourceView) : Except CopyErr Unit :=
  match v.indexedHash with
  | .error e => .error e
  | .ok none => .ok ()
  | .ok (some want) => if v.digest.hash v.reading.bytes ≠ want then .error .sourceDamaged else .ok ()

/-- The index vouches for the generation: a live row of its size, and of its time as the volume keeps it. -/
structure SourceView.Vouches (v : SourceView) (cfg : Config) (m : FileMeta) : Prop where
  indexed : v.indexed = true
  row : v.row = .ok (some m)
  live : m.deleted = false
  size : m.size = v.src.size
  time : sameModTime cfg v.src.modTime m.modTime = true

/-- `sameFile` says that the destination is the source. -/
structure CopyRequest where
  view : SourceView
  dir : Path
  base : String
  sameFile : Bool
  maxUploadBytes : Nat
  now : Int64

inductive CopyReply where
  | itself
  | copied (o : Object)

namespace CopyRequest

variable (r : CopyRequest)

def dest : Path := r.dir ++ [r.base]

def stageCopy : LayeredProg (Except CopyErr Object) :=
  if r.view.reading.failed then pure (.error .failed)
  else if r.view.reading.bytes.length ≠ r.view.src.size then pure (.error .sourceChanged)
  else do
    match ← attempt (Layered.writeTemp r.view.reading.bytes r.now 0o600) with
    | .error _ => pure (.error .failed)
    | .ok tmp =>
      if !r.view.unchanged then pure (.error .sourceChanged)
      else match r.view.checkSourceHash with
        | .error e => pure (.error e)
        | .ok () => pure (.ok tmp)

/-- `firstMissingDir`: the directories that are missing, from the lowest up to the first that is there. -/
def missingDirs : List Path → LayeredProg (List Path)
  | [] => pure []
  | dir :: dirs => do
    match ← attempt (look fun w => (w.disk.tree.lookup dir).isSome) with
    | .ok true => pure []
    | _ => do
      let above ← missingDirs dirs
      pure (dir :: above)

def removeUp : List Path → LayeredProg Unit
  | [] => pure ()
  | dir :: dirs => do
    match ← attempt (Layered.onDisk (removePath dir)) with
    | .ok () => removeUp dirs
    | .error _ => pure ()

def removeCreatedDirs (dirs : List Path) : LayeredProg Unit :=
  if dirs = [] then pure ()
  else do
    let _ ← attempt (Layered.locked r.view.digest (removeUp dirs))
    pure ()

def run : LayeredProg (Except CopyErr CopyReply) := do
  let dst ← attempt (look fun w => w.disk.tree.lookup r.dest)
  if r.sameFile then pure (.ok .itself)
  else if (dst.toOption.getD none).any Object.isDir then pure (.error .isDirectory)
  else if 0 < r.maxUploadBytes ∧ r.maxUploadBytes < r.view.src.size then pure (.error .tooLarge)
  else do
    let created ← missingDirs r.dir.inits.reverse
    match ← attempt (Layered.mkdirSection r.view.digest r.dir true) with
    | .error _ => pure (.error .failed)
    | .ok () => do
      match ← attempt barrier with
      | .error _ => do
        r.removeCreatedDirs created
        pure (.error .failed)
      | .ok () => do
        match ← r.stageCopy with
        | .error e => do
          r.removeCreatedDirs created
          pure (.error e)
        | .ok tmp => do
          match ← attempt (Layered.publishIf r.view.digest none tmp r.dest) with
          | .error e => do
            r.removeCreatedDirs created
            pure (.error (.publish e))
          | .ok () => pure (.ok (.copied tmp))

end CopyRequest

/-- The copy of a part: what the index answers at first, the key of the generation of its source where
there is one, and what the verification finds, if this request is the one that runs it. -/
structure PartCopy (κ : Type) where
  row : Except CopyErr (Option FileMeta)
  key : Option κ
  view : SourceView

structure SourceCheck (κ : Type) where
  key : κ
  owner : Nat
  started : Int
  done : Bool

/-- The verifications that are remembered or run, which request each one waits for, and how they
ended. -/
structure SourceChecks (κ : Type) where
  checks : List (SourceCheck κ)
  waits : Nat → Option Nat
  results : Nat → Option (Except CopyErr Unit)

def SourceChecks.empty (κ : Type) : SourceChecks κ := ⟨[], fun _ => none, fun _ => none⟩

def sourceCheckTTL : Int := 3600 * 1000000000

section
variable {κ : Type} [DecidableEq κ]

def SourceChecks.current (s : SourceChecks κ) (now : Int) : List (SourceCheck κ) :=
  s.checks.filter fun c => !(c.done && sourceCheckTTL < now - c.started)

def PartCopy.recorded (p : PartCopy κ) : Except CopyErr (Option String) :=
  { p.view with row := p.row : SourceView }.indexedHash

def PartCopy.check (p : PartCopy κ) : Except CopyErr Unit :=
  if p.view.reading.failed then .error .failed
  else if !p.view.unchanged then .error .sourceChanged
  else p.view.checkSourceHash

/-- `verify` up to its first unlock: a request waits for the verification of its generation that is there,
or begins one. -/
def SourceChecks.arrive (s : SourceChecks κ) (i : Nat) (key : κ) (now : Int) : SourceChecks κ :=
  match (s.current now).find? fun c => c.key = key with
  | some c => { s with checks := s.current now, waits := Function.update s.waits i (some c.owner) }
  | none => { s with
      checks := s.current now ++ [⟨key, i, now, false⟩]
      waits := Function.update s.waits i (some i) }

def SourceChecks.enter (s : SourceChecks κ) (requests : Nat → PartCopy κ) (i : Nat) (now : Int) : SourceChecks κ :=
  match (requests i).recorded, (requests i).key with
  | .ok (some _), some key => s.arrive i key now
  | _, _ => s

/-- A request comes to its verification, or one that began a verification ends it. A failure is not
remembered. -/
inductive VerifyStep (requests : Nat → PartCopy κ) : SourceChecks κ → SourceChecks κ → Prop
  | enter {s : SourceChecks κ} (i : Nat) (now : Int) (hnew : s.waits i = none) :
    VerifyStep requests s (s.enter requests i now)
  | failed {s : SourceChecks κ} {i : Nat} {key : κ} {e : CopyErr} (hrun : s.waits i = some i)
    (hopen : s.results i = none) (hkey : (requests i).key = some key) (hcheck : (requests i).check = .error e) :
    VerifyStep requests s { s with
      checks := s.checks.filter fun c => c.key ≠ key
      results := Function.update s.results i (some (.error e)) }
  | passed {s : SourceChecks κ} {i : Nat} (hrun : s.waits i = some i) (hopen : s.results i = none)
    (hcheck : (requests i).check = .ok ()) :
    VerifyStep requests s { s with
      checks := s.checks.map fun c => if c.owner = i then { c with done := true } else c
      results := Function.update s.results i (some (.ok ())) }

/-- `verifySource`: what a request has learned of its source, once it has. -/
def SourceChecks.verified (s : SourceChecks κ) (requests : Nat → PartCopy κ) (i : Nat) : Option (Except CopyErr Unit) :=
  match (requests i).recorded with
  | .error e => some (.error e)
  | .ok none => some (.ok ())
  | .ok (some _) =>
    match (requests i).key with
    | none => some (.error .failed)
    | some _ => (s.waits i).bind s.results

def stagePartCopy (md5 : MD5) (sha : Digest) (limits : Limits) (verified : Except CopyErr Unit) (unchanged : Bool)
    (r : PartRequest) : StagingProg (Except CopyErr UploadPart) :=
  match verified with
  | .error e => pure (.error e)
  | .ok () =>
    if !unchanged then pure (.error .sourceChanged)
    else do
      match ← attempt (writePart md5 sha limits r) with
      | .error _ => pure (.error .failed)
      | .ok part => pure (.ok part)

end

variable {m : FileMeta}

theorem SourceView.indexedHash_eq {v : SourceView} {cfg : Config} (h : v.Vouches cfg m) :
    v.indexedHash = .ok (if m.modTime = v.src.modTime then some m.hash else none) := by
  unfold indexedHash
  rw [h.indexed, h.row]
  by_cases htime : m.modTime = v.src.modTime
  · simp [h.live, h.size, htime]
  · simp [htime]

theorem SourceView.checkSourceHash_damaged {v : SourceView}
    (hrecorded : v.indexedHash = .ok (some m.hash)) (hbytes : v.digest.hash v.reading.bytes ≠ m.hash) :
    v.checkSourceHash = .error .sourceDamaged := by
  rw [checkSourceHash, hrecorded]
  exact if_pos hbytes

section
variable {r : CopyRequest} {w : Layered}

theorem dest_ne_of_mem_inits {dir : Path} (h : dir ∈ r.dir.inits) : dir ≠ r.dest := by
  rintro rfl
  have hlen := ((List.mem_inits _ _).mp h).length_le
  simp [CopyRequest.dest] at hlen

theorem missingDirs_yields (dirs : List Path) (w : Layered) :
    (CopyRequest.missingDirs dirs).Sat (· = w) (fun _ _ => False) (fun created u => created <+: dirs ∧ u = w) w := by
  induction dirs with
  | nil => exact ⟨List.prefix_rfl, rfl⟩
  | cons dir dirs ih =>
    have habove : (CopyRequest.missingDirs dirs >>= fun above => pure (dir :: above)).Sat (· = w) (fun _ _ => False)
        (fun created u => created <+: dir :: dirs ∧ u = w) w := by
      refine sat_bind.mpr (ih.mono (fun _ => id) (fun _ _ => id) ?_)
      rintro above u ⟨hbegins, hu⟩
      exact ⟨(List.prefix_cons_inj dir).mpr hbegins, hu⟩
    refine sat_bind.mpr (sat_attempt.mpr ⟨rfl, habove, ?_⟩)
    show Sat _ _ _ (match (Except.ok (w.disk.tree.lookup dir).isSome : Except (Failure Err) Bool) with
      | .ok true => _
      | _ => _) w
    cases (w.disk.tree.lookup dir).isSome with
    | true => exact ⟨List.nil_prefix, rfl⟩
    | false => exact habove

theorem removeUp_confined {reg : Path → Prop} {dirs : List Path} (h : ∀ dir ∈ dirs, reg dir) :
    (CopyRequest.removeUp dirs).Within (ConfinedTo reg) := by
  have F := confinedToFrame reg
  induction dirs with
  | nil => exact F.pure ()
  | cons dir dirs ih =>
    apply F.bind (onDisk_confined (removePath_confined (h dir List.mem_cons_self))).attempt
    intro reply
    cases reply with
    | ok _ => exact ih fun d hd => h d (List.mem_cons_of_mem _ hd)
    | error _ => exact F.pure ()

theorem removeCreatedDirs_confined {reg : Path → Prop} {dirs : List Path} (h : ∀ dir ∈ dirs, reg dir) :
    (r.removeCreatedDirs dirs).Within (ConfinedTo reg) := by
  have F := confinedToFrame reg
  unfold CopyRequest.removeCreatedDirs
  split
  · exact F.pure ()
  · exact F.bind (F.bind recoverJournal_confined fun _ => removeUp_confined h).attempt fun _ => F.pure ()

def CopyRequest.Spared (r : CopyRequest) (w u : Layered) : Prop :=
  DestKept r.view.digest r.dest w u ∧ u.disk.Bounded (· ≠ r.dest)

theorem CopyRequest.Spared.step {u u' : Layered} (h : r.Spared w u) (hstep : SameObjects (· ≠ r.dest) u u') :
    r.Spared w u' := by
  obtain ⟨hbounded, hsame⟩ := hstep h.2
  exact ⟨h.1.trans (hsame r.dest fun hne => hne rfl), hbounded⟩

theorem CopyRequest.Spared.of_disk {u u' : Layered} (h : r.Spared w u) (hdisk : u'.disk = u.disk) : r.Spared w u' := by
  refine h.step fun hbounded => ⟨hdisk ▸ hbounded, fun k _ => ?_⟩
  rw [objectBytes, objectBytes, hdisk]

def CopyRequest.Refused (r : CopyRequest) : Except CopyErr CopyReply → Prop
  | .error _ => True
  | .ok .itself => r.sameFile = true
  | .ok (.copied _) => False

theorem takeBack_refuses {u : Layered} {created : List Path} (hcreated : created <+: r.dir.inits.reverse)
    (hu : r.Spared w u) (e : CopyErr) :
    (r.removeCreatedDirs created >>= fun _ => pure (.error e)).Safe (DestKept r.view.digest r.dest w)
      (fun reply v => DestKept r.view.digest r.dest w v ∧ r.Refused reply) u := by
  have hdirs : ∀ dir ∈ created, dir ≠ r.dest := by
    intro dir hdir
    exact dest_ne_of_mem_inits (List.mem_reverse.mp (hcreated.subset hdir))
  have hkept {v : Layered} (h : SameObjects (· ≠ r.dest) u v) : DestKept r.view.digest r.dest w v := (hu.step h).1
  refine Safe.bind ((within_sameObjects (removeCreatedDirs_confined hdirs) u).mono (fun v => hkept) fun _ v => hkept) ?_
  intro _ v hv
  exact safe_pure ⟨hv, trivial⟩

theorem stageCopy_refuses {u : Layered} (hrecorded : r.view.indexedHash = .ok (some m.hash))
    (hbytes : r.view.digest.hash r.view.reading.bytes ≠ m.hash) (hu : r.Spared w u) :
    r.stageCopy.Safe (r.Spared w) (fun reply v => r.Spared w v ∧ ∃ e, reply = .error e) u := by
  unfold CopyRequest.stageCopy
  split
  · exact safe_pure ⟨hu, _, rfl⟩
  · split
    · exact safe_pure ⟨hu, _, rfl⟩
    · have hwrite : (Layered.writeTemp r.view.reading.bytes r.now 0o600).Safe (r.Spared w) (fun _ => r.Spared w) u :=
        (writeTemp_makes _ _ _ u).mono (fun v hv => hu.of_disk hv) fun _ v hv => hu.of_disk hv.1
      refine Safe.bind hwrite.attempt ?_
      intro reply v hv
      cases reply with
      | error _ => exact safe_pure ⟨hv, _, rfl⟩
      | ok tmp =>
        dsimp only
        rw [r.view.checkSourceHash_damaged hrecorded hbytes]
        split
        · exact safe_pure ⟨hv, _, rfl⟩
        · exact safe_pure ⟨hv, _, rfl⟩

theorem copy_refuses (hrecorded : r.view.indexedHash = .ok (some m.hash))
    (hbytes : r.view.digest.hash r.view.reading.bytes ≠ m.hash) (w : Layered) :
    r.run.Safe (DestKept r.view.digest r.dest w)
      (fun reply u => DestKept r.view.digest r.dest w u ∧ r.Refused reply) w := by
  have hself : DestKept r.view.digest r.dest w w := destKept_self _ _
  have hstat : (attempt (look fun w : Layered => w.disk.tree.lookup r.dest) : LayeredProg _).Safe
      (DestKept r.view.digest r.dest w) (fun _ u => u = w) w := safe_attempt ⟨hself, rfl, rfl⟩
  refine Safe.bind hstat ?_
  rintro dst _ rfl
  split
  · next hsame => exact safe_pure ⟨hself, hsame⟩
  split
  · exact safe_pure ⟨hself, trivial⟩
  split
  · exact safe_pure ⟨hself, trivial⟩
  refine Safe.bind ((missingDirs_yields _ _).mono (fun v hv => hv ▸ hself) (fun _ _ => False.elim) fun _ _ => id) ?_
  rintro created _ ⟨hcreated, rfl⟩
  refine Safe.bind (mkdirSection_keeps_dest r.dir _).attempt ?_
  intro made u hu
  cases made with
  | error _ => exact safe_pure ⟨hu, trivial⟩
  | ok _ =>
    have hspared : r.Spared _ u := hu
    have htemp : (attempt barrier : LayeredProg _).Safe (DestKept r.view.digest r.dest _) (fun _ v => v = u) u :=
      safe_attempt ⟨hspared.1, rfl, rfl⟩
    refine Safe.bind htemp ?_
    rintro temp _ rfl
    cases temp with
    | error _ => exact takeBack_refuses hcreated hspared _
    | ok _ =>
      refine Safe.bind ((stageCopy_refuses hrecorded hbytes hspared).mono (fun v hv => hv.1) fun _ _ => id) ?_
      rintro staged v ⟨hv, e, rfl⟩
      exact takeBack_refuses hcreated hv e

end

section
variable {κ : Type} {requests : Nat → PartCopy κ} {s s' : SourceChecks κ}

structure PartCopy.Damaged (p : PartCopy κ) (cfg : Config) (m : FileMeta) : Prop where
  vouches : p.view.Vouches cfg m
  row : p.row = p.view.row
  bytes : p.view.digest.hash p.view.reading.bytes ≠ m.hash

variable {cfg : Config} {m : FileMeta} {p : PartCopy κ}

theorem PartCopy.Damaged.recorded_eq (h : p.Damaged cfg m) :
    p.recorded = p.view.indexedHash := by
  rw [PartCopy.recorded, h.row]

theorem PartCopy.check_eq (hread : p.view.reading.failed = false) (hsame : p.view.unchanged = true) :
    p.check = p.view.checkSourceHash := by
  rw [check, hread, hsame]
  rfl

theorem PartCopy.Damaged.check_fails (h : p.Damaged cfg m)
    {want : String} (hrecorded : p.recorded = .ok (some want)) : ∃ e, p.check = .error e := by
  have hwant : p.view.indexedHash = .ok (some m.hash) := by
    have heq := p.view.indexedHash_eq h.vouches
    rw [← h.recorded_eq, hrecorded] at heq ⊢
    split at heq
    · exact heq
    · cases heq
  unfold PartCopy.check
  split
  · exact ⟨_, rfl⟩
  · split
    · exact ⟨_, rfl⟩
    · exact ⟨_, p.view.checkSourceHash_damaged hwant h.bytes⟩

variable {now : Int}

theorem mem_of_mem_current {c : SourceCheck κ} (h : c ∈ s.current now) : c ∈ s.checks :=
  List.mem_of_mem_filter h

structure SourceChecks.Tracked (requests : Nat → PartCopy κ) (s : SourceChecks κ) : Prop where
  key : ∀ c ∈ s.checks, (requests c.owner).key = some c.key
  recorded : ∀ c ∈ s.checks, ∃ want, (requests c.owner).recorded = .ok (some want)
  running : ∀ c ∈ s.checks, c.done = false → s.results c.owner = none
  fresh : ∀ i, s.waits i = none → s.results i = none

variable [DecidableEq κ]

theorem enter_cases (s : SourceChecks κ) (requests : Nat → PartCopy κ) (i : Nat) (now : Int) :
    s.enter requests i now = s ∨ ∃ want key, (requests i).recorded = .ok (some want) ∧ (requests i).key = some key ∧
      s.enter requests i now = s.arrive i key now := by
  unfold SourceChecks.enter
  split
  · next want key hrecorded hkey => exact Or.inr ⟨want, key, hrecorded, hkey, rfl⟩
  · exact Or.inl rfl

theorem arrive_cases (s : SourceChecks κ) (i : Nat) (key : κ) (now : Int) :
    (∃ c ∈ s.current now, c.key = key ∧ s.arrive i key now =
        { s with checks := s.current now, waits := Function.update s.waits i (some c.owner) }) ∨
      s.arrive i key now = { s with
        checks := s.current now ++ [⟨key, i, now, false⟩]
        waits := Function.update s.waits i (some i) } := by
  unfold SourceChecks.arrive
  split
  · next c hc => exact Or.inl ⟨c, List.mem_of_find?_eq_some hc, by simpa using List.find?_some hc, rfl⟩
  · exact Or.inr rfl

theorem waits_of_update {waits : Nat → Option Nat} {i j o : Nat} (h : Function.update waits i (some o) j = none) :
    waits j = none := by
  by_cases hj : j = i
  · subst hj
    rw [Function.update_self] at h
    cases h
  · rwa [Function.update_of_ne hj] at h

variable {i : Nat}

theorem SourceChecks.Tracked.enter (h : s.Tracked requests) (hnew : s.waits i = none) :
    (s.enter requests i now).Tracked requests := by
  rcases enter_cases s requests i now with hsame | ⟨want, key, hrecorded, hkey, heq⟩
  · rw [hsame]
    exact h
  · rw [heq]
    rcases arrive_cases s i key now with ⟨c, -, -, heq⟩ | heq
    · rw [heq]
      exact ⟨fun c hc => h.key c (mem_of_mem_current hc), fun c hc => h.recorded c (mem_of_mem_current hc),
        fun c hc => h.running c (mem_of_mem_current hc), fun j hj => h.fresh j (waits_of_update hj)⟩
    · rw [heq]
      refine ⟨fun c hc => ?_, fun c hc => ?_, fun c hc => ?_, fun j hj => h.fresh j (waits_of_update hj)⟩
      all_goals rcases List.mem_append.mp hc with hc | hc
      · exact h.key c (mem_of_mem_current hc)
      · obtain rfl := List.mem_singleton.mp hc
        exact hkey
      · exact h.recorded c (mem_of_mem_current hc)
      · obtain rfl := List.mem_singleton.mp hc
        exact ⟨want, hrecorded⟩
      · exact h.running c (mem_of_mem_current hc)
      · obtain rfl := List.mem_singleton.mp hc
        exact fun _ => h.fresh i hnew

theorem fresh_of_update {waits : Nat → Option Nat} {results : Nat → Option (Except CopyErr Unit)} {i o : Nat}
    {r : Except CopyErr Unit} (h : ∀ j, waits j = none → results j = none) (hrun : waits i = some o) (j : Nat)
    (hj : waits j = none) : Function.update results i (some r) j = none := by
  have hne : j ≠ i := by
    rintro rfl
    rw [hrun] at hj
    cases hj
  rw [Function.update_of_ne hne]
  exact h j hj

theorem VerifyStep.tracked (hstep : VerifyStep requests s s') (h : s.Tracked requests) : s'.Tracked requests := by
  cases hstep with
  | enter i now hnew => exact h.enter hnew
  | @failed i key e hrun hopen hkey hcheck =>
    refine ⟨fun c hc => h.key c (List.mem_of_mem_filter hc), fun c hc => h.recorded c (List.mem_of_mem_filter hc),
      fun c hc hdone => ?_, fresh_of_update h.fresh hrun⟩
    -- the verification of the request that failed is forgotten, so this one is another's
    obtain ⟨hmem, hne⟩ := List.mem_filter.mp hc
    have howner : c.owner ≠ i := by
      intro heq
      have hc' := h.key c hmem
      rw [heq, hkey] at hc'
      exact (of_decide_eq_true hne) (Option.some.inj hc').symm
    exact (Function.update_of_ne howner _ _).trans (h.running c hmem hdone)
  | @passed i hrun hopen hcheck =>
    have hmem {c : SourceCheck κ} (hc : c ∈ s.checks.map fun c => if c.owner = i then { c with done := true } else c) :
        ∃ c₀ ∈ s.checks, c.owner = c₀.owner ∧ c.key = c₀.key ∧ (c.done = false → c.owner ≠ i ∧ c₀.done = false) := by
      obtain ⟨c₀, hc₀, rfl⟩ := List.mem_map.mp hc
      by_cases ho : c₀.owner = i
      · rw [if_pos ho]
        exact ⟨c₀, hc₀, rfl, rfl, nofun⟩
      · rw [if_neg ho]
        exact ⟨c₀, hc₀, rfl, rfl, fun hdone => ⟨ho, hdone⟩⟩
    refine ⟨fun c hc => ?_, fun c hc => ?_, fun c hc hdone => ?_, fresh_of_update h.fresh hrun⟩
    all_goals obtain ⟨c₀, hc₀, howner, hkey, hrest⟩ := hmem hc
    · rw [howner, hkey]
      exact h.key c₀ hc₀
    · rw [howner]
      exact h.recorded c₀ hc₀
    · obtain ⟨hne, hdone₀⟩ := hrest hdone
      refine (Function.update_of_ne hne _ _).trans ?_
      rw [howner]
      exact h.running c₀ hc₀ hdone₀

theorem tracked_of_reachable (h : Relation.ReflTransGen (VerifyStep requests) (.empty κ) s) : s.Tracked requests := by
  induction h with
  | refl => exact ⟨by simp [SourceChecks.empty], by simp [SourceChecks.empty], by simp [SourceChecks.empty], fun _ _ => rfl⟩
  | tail _ hstep ih => exact hstep.tracked ih

/-- Each request waits for one of its own generation, and those that ended well had found no fault. -/
structure SourceChecks.Answered (requests : Nat → PartCopy κ) (s : SourceChecks κ) : Prop where
  waits : ∀ i o, s.waits i = some o → (requests o).key = (requests i).key
  passed : ∀ o, s.results o = some (.ok ()) → (requests o).check = .ok ()

theorem VerifyStep.answered (hstep : VerifyStep requests s s') (ht : s.Tracked requests) (h : s.Answered requests) :
    s'.Answered requests := by
  cases hstep with
  | enter i now hnew =>
    rcases enter_cases s requests i now with hsame | ⟨want, key, -, hkey, heq⟩
    · rwa [hsame]
    · rw [heq]
      rcases arrive_cases s i key now with ⟨c, hc, rfl, heq⟩ | heq
      · have howner := ht.key c (mem_of_mem_current hc)
        rw [heq]
        exact ⟨fun j o => by grind [h.waits j o], h.passed⟩
      · rw [heq]
        exact ⟨fun j o => by grind [h.waits j o], h.passed⟩
  | failed | passed => exact ⟨h.waits, fun o => by grind [h.passed o]⟩

def SourceChecks.Doomed (requests : Nat → PartCopy κ) (i : Nat) (s : SourceChecks κ) : Prop :=
  ∃ o, s.waits i = some o ∧ (∃ e, (requests o).check = .error e) ∧ s.results o ≠ some (.ok ())

theorem VerifyStep.doomed (hstep : VerifyStep requests s s') (h : s.Doomed requests i) : s'.Doomed requests i := by
  obtain ⟨o, hwaits, ⟨e, he⟩, hresult⟩ := h
  cases hstep with
  | enter j now hnew =>
    rcases enter_cases s requests j now with hsame | ⟨want, key, hrecorded, hkey, heq⟩
    · rw [hsame]
      exact ⟨o, hwaits, ⟨e, he⟩, hresult⟩
    · have hij : i ≠ j := by
        rintro rfl
        rw [hwaits] at hnew
        cases hnew
      rw [heq]
      rcases arrive_cases s j key now with ⟨c, -, -, heq⟩ | heq
      all_goals
        rw [heq]
        exact ⟨o, (Function.update_of_ne hij _ _).trans hwaits, ⟨e, he⟩, hresult⟩
  | @failed j key e' hrun hopen hkey hcheck =>
    refine ⟨o, hwaits, ⟨e, he⟩, ?_⟩
    by_cases hoj : o = j
    · subst hoj
      simp
    · simpa [Function.update_of_ne hoj] using hresult
  | @passed j hrun hopen hcheck =>
    refine ⟨o, hwaits, ⟨e, he⟩, ?_⟩
    by_cases hoj : o = j
    · subst hoj
      rw [he] at hcheck
      cases hcheck
    · simpa [Function.update_of_ne hoj] using hresult

theorem doomed_of_enter (h : s.Tracked requests)
    (hnew : s.waits i = none) (hdamaged : (requests i).Damaged cfg m) {want : String}
    (hrecorded : (requests i).recorded = .ok (some want)) {key : κ} (hkey : (requests i).key = some key)
    (hpending : ∀ c ∈ s.current now, (requests i).key = some c.key →
      c.done = false ∧ ∃ m, (requests c.owner).Damaged cfg m) :
    (s.enter requests i now).Doomed requests i := by
  have hent : s.enter requests i now = s.arrive i key now := by
    rw [SourceChecks.enter, hrecorded, hkey]
  rw [hent]
  rcases arrive_cases s i key now with ⟨c, hc, rfl, heq⟩ | heq
  · rw [heq]
    obtain ⟨hrunning, m', howner⟩ := hpending c hc hkey
    obtain ⟨want', hwant'⟩ := h.recorded c (mem_of_mem_current hc)
    refine ⟨c.owner, Function.update_self i _ _, howner.check_fails hwant', ?_⟩
    exact (h.running c (mem_of_mem_current hc) hrunning).trans_ne nofun
  · rw [heq]
    exact ⟨i, Function.update_self i _ _, hdamaged.check_fails hrecorded, (h.fresh i hnew).trans_ne nofun⟩

theorem doomed_of_run (hrun : Relation.ReflTransGen (VerifyStep requests) s s')
    (h : s.Doomed requests i) : s'.Doomed requests i := by
  induction hrun with
  | refl => exact h
  | tail _ hstep ih => exact hstep.doomed ih

theorem verified_damaged {verdict : Except CopyErr Unit}
    (hreach : Relation.ReflTransGen (VerifyStep requests) (.empty κ) s) (hnew : s.waits i = none)
    (hdamaged : (requests i).Damaged cfg m) (htime : m.modTime = (requests i).view.src.modTime)
    (hpending : ∀ c ∈ s.current now, (requests i).key = some c.key →
      c.done = false ∧ ∃ m, (requests c.owner).Damaged cfg m)
    (hrun : Relation.ReflTransGen (VerifyStep requests) (s.enter requests i now) s')
    (hverdict : s'.verified requests i = some verdict) : ∃ e, verdict = .error e := by
  have hrecorded : (requests i).recorded = .ok (some m.hash) := by
    rw [hdamaged.recorded_eq, SourceView.indexedHash_eq hdamaged.vouches, if_pos htime]
  unfold SourceChecks.verified at hverdict
  rw [hrecorded] at hverdict
  cases hkey : (requests i).key with
  | none =>
    rw [hkey] at hverdict
    exact ⟨.failed, (Option.some.inj hverdict).symm⟩
  | some key =>
    rw [hkey] at hverdict
    obtain ⟨o, hwaits, -, hresult⟩ :=
      doomed_of_run hrun (doomed_of_enter (tracked_of_reachable hreach) hnew hdamaged hrecorded hkey hpending)
    simp only [hwaits, Option.bind_some] at hverdict
    cases verdict with
    | error e => exact ⟨e, rfl⟩
    | ok _ => exact absurd hverdict hresult

end

def hundredNanos : Config where
  digest := sha256
  fold := id
  patterns _ := false
  granularity := 100
  stamp t := t / 100 * 100
  repairPeers := []
  repairLimit := 0
  mapOrder := id
  mapOrder_perm := .refl

def rowAt (time : Int64) : FileMeta := { name := "b/a", size := 1, modTime := time, hash := sha256.hash [1] }

def damagedAt (time : Int64) : SourceView where
  digest := sha256
  indexed := true
  row := .ok (some (rowAt time))
  src := ⟨"b/a", 1, 100⟩
  reading := ⟨[2], false⟩
  unchanged := true

def copyDamaged (time : Int64) : CopyRequest := ⟨damagedAt time, ["b"], "c", false, 0, 200⟩

def partOfDamaged (time : Int64) : PartCopy Nat := ⟨.ok (some (rowAt time)), some 0, damagedAt time⟩

theorem damagedAt_vouches {time : Int64} (h : sameModTime hundredNanos 100 time = true) :
    (damagedAt time).Vouches hundredNanos (rowAt time) :=
  ⟨rfl, rfl, rfl, rfl, h⟩

theorem damagedAt_bytes (time : Int64) : (damagedAt time).digest.hash (damagedAt time).reading.bytes ≠ (rowAt time).hash := by
  show sha256.hash [2] ≠ sha256.hash [1]
  decide +kernel

def partOfIntact : PartCopy Nat :=
  ⟨.ok (some (rowAt 100)), some 0, { damagedAt 100 with reading := ⟨[1], false⟩ }⟩

end BirakFormal
