import BirakFormal.Gateway.Containment
import BirakFormal.Gateway.Requests
import BirakFormal.Store.Sha256

/-!
# Object keys

A key of a bucket becomes a file name: it is held to the limits of names, refused where it
climbs, and then resolved like any other client path. What the requests for one object do to
the volume stays within the file of that object and the directories above it.
-/

namespace BirakFormal

open Interruption Prog Subtrees

structure ObjectFailure where
  status : Nat
  code : String
  message : String
  deriving DecidableEq, Repr

def errKeyTooLong : ObjectFailure := ⟨400, "KeyTooLongError", "Your key is too long"⟩

def errInvalidKey : ObjectFailure :=
  ⟨400, "InvalidArgument", "Object keys must be valid UTF-8 without NUL characters."⟩

def errNoSuchKey : ObjectFailure := ⟨404, "NoSuchKey", "The specified key does not exist."⟩

def maxKeyLength : Nat := 1024

def maxSegmentLength : Nat := 255

/-- The checks on the key alone; a `String` is valid UTF-8. -/
def keyShapeFailure (key : String) : Option ObjectFailure :=
  if maxKeyLength < key.utf8ByteSize then some errKeyTooLong
  else if key.toList.contains '\x00' then some errInvalidKey
  else if (split key).any fun segment => maxSegmentLength < segment.utf8ByteSize then some errKeyTooLong
  else none

def keyFailure (patterns : String → Bool) (bucket key : String) : Option ObjectFailure :=
  match keyShapeFailure key with
  | some failure => some failure
  | none =>
    if (split key).any isScratchFile then some ⟨400, "InvalidArgument", "Invalid key"⟩
    else if shouldIgnore patterns (bucket ++ "/" ++ key) then some errNoSuchKey
    else none

def validateBucketName (name : String) : Bool :=
  if name = "" ∨ name = "." ∨ name = ".." then false
  else if name.toList.contains '/' || name.toList.contains '\\' then false
  else !isReserved name

def validateKey (key : String) : Bool :=
  if key = "" then false
  else if (split key).any (· = "..") then false
  else
    let cleaned := clean key
    !(hasPrefix cleaned "../" || hasPrefix cleaned "/" || cleaned = "..")

def pathResolvesWithin (h : Host) (cwd : List String) (rootDir fullPath : String) : Bool :=
  let absRoot := absPath cwd rootDir
  let absFull := absPath cwd fullPath
  if absFull ≠ absRoot ∧ !hasPrefix absFull (absRoot ++ "/") then false
  else (resolveNoSymlinkEscape h cwd absRoot absFull).isOk

def objectPath (h : Host) (cwd : List String) (syncDir : String) (patterns : String → Bool)
    (bucket key : String) : Option String :=
  match safePath h cwd syncDir (bucket ++ "/" ++ key) patterns with
  | .error _ => none
  | .ok (_, full) => if pathResolvesWithin h cwd (joinPath syncDir bucket) full then some full else none

structure AcceptedKey (h : Host) (cwd : List String) (syncDir : String) (patterns : String → Bool)
    (bucket key full : String) : Prop where
  bucketName : validateBucketName bucket = true
  shape : keyFailure patterns bucket key = none
  valid : validateKey key = true
  path : objectPath h cwd syncDir patterns bucket key = some full

def Literal (key : String) : Prop := "" ∉ split key ∧ "." ∉ split key

instance (key : String) : Decidable (Literal key) := inferInstanceAs (Decidable (_ ∧ _))

theorem bucket_plain {bucket : String} (h : validateBucketName bucket = true) :
    (bucket ≠ "" ∧ bucket ≠ "." ∧ bucket ≠ "..") ∧ split bucket = [bucket] := by
  unfold validateBucketName at h
  split at h
  · cases h
  · next hname =>
    split at h
    · cases h
    · next hslash =>
      simp only [not_or] at hname
      refine ⟨hname, ?_⟩
      simp only [Bool.or_eq_true, not_or, List.contains_iff_mem] at hslash
      exact split_joinSlash (List.cons_ne_nil bucket []) fun p hp => List.mem_singleton.mp hp ▸ hslash.1

theorem canonical_key {key : String} (hvalid : validateKey key = true) (h : Literal key) :
    Canonical (split key) := by
  intro p hp
  refine ⟨fun hempty => h.1 (hempty ▸ hp), fun hdot => h.2 (hdot ▸ hp), ?_⟩
  rintro rfl
  unfold validateKey at hvalid
  split at hvalid
  · cases hvalid
  · rw [if_pos (List.any_eq_true.mpr ⟨"..", hp, rfl⟩)] at hvalid
    cases hvalid

theorem cleanRequest_of_canonical {req : String} (h : Canonical (split req)) : cleanRequest req = req := by
  have hroot : hasPrefix req "/" = false := not_beginning h (p := "") (by decide) (Or.inl rfl)
  have hdot : ¬ (req = "." ∨ req = "/") := by
    rintro (rfl | rfl)
    · exact (h "." (by decide)).2.1 rfl
    · exact absurd hroot (by decide)
  unfold cleanRequest
  dsimp only
  rw [clean_canonical h, if_neg hdot, if_neg (by rw [hroot]; decide)]

theorem AcceptedKey.components {h : Host} {cwd : List String} {syncDir bucket key full : String}
    {patterns : String → Bool} (hk : AcceptedKey h cwd syncDir patterns bucket key full)
    (hlit : Literal key) :
    pathComponents (absPath cwd full) = pathComponents (absPath cwd syncDir) ++ bucket :: split key := by
  obtain ⟨hname, hsplit⟩ := bucket_plain hk.bucketName
  have hparts : split (bucket ++ "/" ++ key) = bucket :: split key := by
    rw [split_append_slash, hsplit]
    rfl
  have hcanon : Canonical (split (bucket ++ "/" ++ key)) := by
    rw [hparts]
    intro p hp
    rcases List.mem_cons.mp hp with rfl | hp
    · exact hname
    · exact canonical_key hk.valid hlit p hp
  have hpath := hk.path
  unfold objectPath at hpath
  split at hpath
  · cases hpath
  · next rel full' hsafe =>
    split at hpath
    · obtain rfl := Option.some.inj hpath
      have hrel : rel = bucket ++ "/" ++ key :=
        (safePath_rel hsafe).trans (cleanRequest_of_canonical hcanon)
      rcases safePath_ok hsafe with ⟨hempty, -⟩ | ⟨-, rfl, -, -⟩
      · exact absurd (hrel.symm.trans hempty) (ne_empty_of_canonical hcanon)
      · rw [pathComponents_absPath, pathComponents_absPath, hrel, absParts_joinPath cwd syncDir hcanon, hparts]
    · cases hpath

def belowRoot (cwd : List String) (syncDir full : String) : Path :=
  (pathComponents (absPath cwd full)).drop (pathComponents (absPath cwd syncDir)).length

/-- A request that writes or removes one object. A PUT, a copy and the completion of an upload
have a staged file and, possibly, a condition on the object they replace. -/
inductive ObjectRequest where
  | write (o : Object) (precondition : Layered → Except Err Unit)
  | delete

def ObjectRequest.run (digest : Digest) (bp op : Path) : ObjectRequest → LayeredProg Unit
  | write o precondition => do
    Layered.mkdirSection digest op.dropLast true
    Layered.locked digest (check precondition)
    Layered.commit digest (.publish o op)
  | delete => do
    match ← look fun w => w.disk.tree.lookup op with
    | none => pure ()
    | some o =>
      onlyIf (!o.isDir) (do
        Layered.commit digest (.remove op false)
        Layered.cleanEmptyParents bp op)

def objectBytes (w : Layered) (op : Path) : Option Bytes := (w.disk.tree.lookup op).bind Object.content

/-- Outside `reg` the files stay as they are; directories may come and go. -/
def SameObjects (reg : Path → Prop) (w w' : Layered) : Prop :=
  w.disk.Bounded reg → w'.disk.Bounded reg ∧ ∀ k, ¬ reg k → objectBytes w' k = objectBytes w k

theorem sameObjectsFrame (reg : Path → Prop) : Frame (SameObjects reg) where
  refl _ hb := ⟨hb, fun _ _ => rfl⟩
  trans h h' hb := by
    obtain ⟨hb₁, h₁⟩ := h hb
    obtain ⟨hb₂, h₂⟩ := h' hb₁
    exact ⟨hb₂, fun k hk => (h₂ k hk).trans (h₁ k hk)⟩

section
variable {reg : Path → Prop} {digest : Digest}

theorem ConfinedTo.sameObjects {w w' : Layered} (h : ConfinedTo reg w w') : SameObjects reg w w' := by
  intro hb
  obtain ⟨hb', hlook⟩ := h hb
  refine ⟨hb', fun k hk => ?_⟩
  rw [objectBytes, objectBytes, hlook k hk]

theorem within_sameObjects {α : Type} {p : LayeredProg α} (h : p.Within (ConfinedTo reg)) :
    p.Within (SameObjects reg) :=
  h.mono fun _ _ => ConfinedTo.sameObjects

theorem content_of_isDir {o : Object} (h : o.isDir = true) : o.content = none := by
  unfold Object.isDir at h
  unfold Object.content
  rw [of_decide_eq_true h]

theorem sameObjects_of_dirs {w w' : Layered} {p : Path} (hj : w'.disk.journal = w.disk.journal)
    (hold : objectBytes w p = none) (hnew : objectBytes w' p = none)
    (h : ∀ k, k ≠ p → w'.disk.tree.lookup k = w.disk.tree.lookup k) : SameObjects reg w w' := by
  intro hb
  refine ⟨fun s hs => hb s (hj ▸ hs), fun k _ => ?_⟩
  by_cases hk : k = p
  · rw [hk, hnew, hold]
  · rw [objectBytes, objectBytes, h k hk]

theorem mkdir_sameObjects (p : Path) (perm : Nat) : (Layered.mkdir p perm).Within (SameObjects reg) := by
  refine (sameObjectsFrame reg).update fun w u w' h => ?_
  split at h
  · next hfree =>
    cases h
    refine sameObjects_of_dirs rfl ?_ ?_ fun k hk => if_neg hk
    · rw [objectBytes, hfree.2.2]
      rfl
    · show (if p = p then some _ else w.disk.tree.lookup p).bind Object.content = none
      rw [if_pos rfl]
      rfl
  · cases h

theorem makeDir_sameObjects (p : Path) :
    (Layered.makeDir p true >>= fun _ => Layered.syncParents p).Within (SameObjects reg) := by
  have F := sameObjectsFrame reg
  refine F.bind (F.forEach fun dir _ => F.bind (F.look _) fun there => ?_) fun _ =>
    within_sameObjects (syncParents_confined p)
  cases there with
  | true => exact F.pure ()
  | false => exact mkdir_sameObjects dir 0o755

theorem mkdirSection_sameObjects (p : Path) : (Layered.mkdirSection digest p true).Within (SameObjects reg) :=
  (sameObjectsFrame reg).bind (within_sameObjects recoverJournal_confined) fun _ => makeDir_sameObjects p

theorem removeEmptyDirectory_sameObjects (dir : Path) :
    (Layered.removeEmptyDirectory dir).Within (SameObjects reg) := by
  refine (sameObjectsFrame reg).update fun w u w' h => ?_
  split at h
  · cases h
  · next o ho =>
    split at h
    · next hdir =>
      unfold Disk.unlink at h
      split at h
      · cases h
      · cases h
        refine sameObjects_of_dirs rfl ?_ ?_ fun k hk => if_neg hk
        · rw [objectBytes, ho]
          exact content_of_isDir hdir
        · show (if dir = dir then none else w.disk.tree.lookup dir).bind Object.content = none
          rw [if_pos rfl]
          rfl
    · cases h

theorem cleanParents_sameObjects (dirs : List Path) : (Layered.cleanParents dirs).Within (SameObjects reg) := by
  have F := sameObjectsFrame reg
  induction dirs with
  | nil => exact F.pure ()
  | cons dir dirs ih =>
    apply F.bind (F.look _).attempt
    intro r
    split
    · have hremove := F.bind (removeEmptyDirectory_sameObjects dir) fun _ =>
        within_sameObjects (syncDir_confined dir.dropLast)
      apply F.bind hremove.attempt
      intro r
      cases r with
      | ok u => exact ih
      | error e => exact F.pure ()
    · exact F.pure ()

theorem ObjectRequest.run_sameObjects (req : ObjectRequest) (bp op : Path) :
    (req.run digest bp op).Within (SameObjects (· = op)) := by
  have F := sameObjectsFrame (· = op)
  cases req with
  | write o precondition =>
    have hpublish : (Change.run digest (.publish o op)).Within (ConfinedTo (· = op)) :=
      publish_confined rfl
    apply F.bind (mkdirSection_sameObjects op.dropLast)
    intro _
    apply F.bind (F.bind (within_sameObjects recoverJournal_confined) fun _ => F.check precondition)
    intro _
    exact within_sameObjects (commit_confined hpublish)
  | delete =>
    have hremove : (Change.run digest (.remove op false)).Within (ConfinedTo (· = op)) :=
      remove_confined rfl
    apply F.bind (F.look _)
    intro found
    cases found with
    | none => exact F.pure ()
    | some o =>
      apply F.onlyIf
      exact F.bind (within_sameObjects (commit_confined hremove)) fun _ => cleanParents_sameObjects _

end

def bucketHost : Host where
  entry p := if p = ["data"] ∨ p = ["data", "b"] then some .dir else none
  rooted p c hp := by
    have hcases : p ++ [c] = ["data"] ∨ p ++ [c] = ["data", "b"] := by
      by_contra hnot
      exact hp (if_neg hnot)
    rcases hcases with h | h
    · exact Or.inl (List.append_inj' (show p ++ [c] = [] ++ ["data"] from h) rfl).1
    · have hparent : p = ["data"] := (List.append_inj' (show p ++ [c] = ["data"] ++ ["b"] from h) rfl).1
      exact Or.inr (by rw [hparent]; rfl)

def bucketVolume : Layered where
  disk := { tree := PathMap.empty.put ["b"] { inode := 1, body := .dir } }
  links _ _ := none
  contents _ := none
  next := 2

theorem bucketHost_accepts (key full : String)
    (h : (keyFailure (fun _ => false) "b" key = none ∧ validateKey key = true) ∧
      objectPath bucketHost [] "/data" (fun _ => false) "b" key = some full) :
    AcceptedKey bucketHost [] "/data" (fun _ => false) "b" key full :=
  ⟨by decide, h.1.1, h.1.2, h.2⟩

end BirakFormal
