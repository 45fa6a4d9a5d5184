import BirakFormal.Store.Conflicts

/-!
# What a peer may send

The checks every change passes before it is applied: a canonical name that the node does
not reserve, a well-formed hash and size, a valid clock, and the extra fields of namespace
tombstones and conflict copies. Ignore patterns enter as the set of path segments that
some configured pattern matches; the empty set stands for no patterns.
-/

namespace BirakFormal

/-- The components a cleaned path keeps; `kept` is in reverse. -/
def cleanParts (rooted : Bool) : List String → List String → List String
  | kept, [] => kept.reverse
  | kept, p :: ps =>
    if p = "" ∨ p = "." then cleanParts rooted kept ps
    else if p = ".." then
      match kept with
      | [] => if rooted then cleanParts rooted [] ps else cleanParts rooted [".."] ps
      | k :: ks => if k = ".." then cleanParts rooted (".." :: k :: ks) ps
          else cleanParts rooted ks ps
    else cleanParts rooted (p :: kept) ps

def clean (path : String) : String :=
  let rooted := hasPrefix path "/"
  let out := (if rooted then "/" else "") ++ joinSlash (cleanParts rooted [] (split path))
  if out = "" then "." else out

def isLocal (path : String) : Bool :=
  if hasPrefix path "/" ∨ path = "" then false
  else
    let path := if (split path).any (fun p => p = "." ∨ p = "..") then clean path else path
    !(path = ".." ∨ hasPrefix path "../")

def base (path : String) : String :=
  if path = "" then "."
  else match (split path).reverse.dropWhile (· = "") with
    | [] => "/"
    | p :: _ => p

/-- `filepath.Match(p + "*", name)` for a literal `p`. -/
def matchStar (p name : String) : Bool :=
  hasPrefix name p && !(name.toList.drop p.toList.length).contains '/'

def isScratchFile (name : String) : Bool :=
  hasPrefix name ".birak-tmp-" || hasPrefix name ".birak-bak-"

/-- Whether a path is excluded, for the segments that the configured patterns match. -/
def shouldIgnore (patterns : String → Bool) (relPath : String) : Bool :=
  let parts := split relPath
  parts.head? = some ".birak" || matchStar ".birak-tmp-" (base relPath) ||
    matchStar ".birak-bak-" (base relPath) || patterns (base relPath) ||
    parts.dropLast.any patterns

def quoted (s : String) : String := "\"" ++ s ++ "\""

def validateSyncName (name : String) : Except String Unit :=
  if name = "." ∨ ¬ isLocal name ∨ clean name ≠ name ∨ name.toList.contains '\x00' then
    .error ("non-canonical sync path " ++ quoted name)
  else if shouldIgnore (fun _ => false) name then .error ("reserved sync path " ++ quoted name)
  else if (split name).any isScratchFile then .error ("reserved sync path " ++ quoted name)
  else .ok ()

section
variable (digest : Digest)

def validateContent (change : FileMeta) : Except String Unit :=
  if change.deleted = false ∧ (change.size < 0 ∨ change.size = Int64.maxValue.toInt ∨
      ¬ isSHA256Hex change.hash) then
    .error ("malformed metadata (size=" ++ toString change.size ++ " hash=" ++ quoted change.hash ++ ")")
  else .ok ()

def validateSuperseded (change : FileMeta) : Except String Unit :=
  if change.supersededBy = "" then .ok ()
  else if ¬ change.deleted ∨ change.size ≠ 0 ∨ ¬ isSHA256Hex change.hash ∨
      ¬ namespaceConflict change.name change.supersededBy then
    .error ("malformed namespace tombstone for " ++ change.name)
  else validateSyncName change.supersededBy

def validateConflictOf (change : FileMeta) : Except String Unit :=
  if change.conflictOf = "" then .ok ()
  else if change.deleted ∨ change.name ≠ conflictCopyName digest change.conflictOf change.hash then
    .error ("malformed conflict copy for " ++ change.name)
  else validateSyncName change.conflictOf

def validateMetadata (change : FileMeta) : Except String Unit := do
  validateSyncName change.name
  validateContent change
  validateClock change
  validateSuperseded change
  validateConflictOf digest change

/-- `validateMetadata`, and none of the names is excluded here. -/
def validateChange (patterns : String → Bool) (change : FileMeta) : Except String Unit := do
  validateMetadata digest change
  match [change.name, change.supersededBy, change.conflictOf].find?
      (fun name => name ≠ "" && shouldIgnore patterns name) with
  | some name => .error ("ignored sync path " ++ quoted name)
  | none => .ok ()

end

theorem bind_ok_iff {ε : Type} {a b : Except ε Unit} : (a >>= fun _ => b) = .ok () ↔ a = .ok () ∧ b = .ok () := by
  cases a with
  | error e => exact ⟨nofun, nofun⟩
  | ok u => exact ⟨fun h => ⟨rfl, h⟩, fun h => h.2⟩

structure MetadataOk (digest : Digest) (m : FileMeta) : Prop where
  name : validateSyncName m.name = .ok ()
  content : m.deleted = false → 0 ≤ m.size ∧ m.size ≠ Int64.maxValue.toInt ∧ isSHA256Hex m.hash = true
  clock : ClockValid m
  superseded : m.supersededBy ≠ "" → m.deleted = true ∧ m.size = 0 ∧ isSHA256Hex m.hash = true ∧
    namespaceConflict m.name m.supersededBy = true ∧ validateSyncName m.supersededBy = .ok ()
  conflictOf : m.conflictOf ≠ "" → m.deleted = false ∧
    m.name = conflictCopyName digest m.conflictOf m.hash ∧ validateSyncName m.conflictOf = .ok ()

variable {m : FileMeta}

theorem validateContent_iff : validateContent m = .ok () ↔
    (m.deleted = false → 0 ≤ m.size ∧ m.size ≠ Int64.maxValue.toInt ∧ isSHA256Hex m.hash = true) := by
  unfold validateContent
  split
  · next h =>
    refine ⟨nofun, fun h' => ?_⟩
    obtain ⟨hsize, hmax, hhash⟩ := h' h.1
    rcases h.2 with h2 | h2 | h2
    · omega
    · exact absurd h2 hmax
    · exact absurd hhash h2
  · next h =>
    refine ⟨fun _ hd => ?_, fun _ => rfl⟩
    have h2 := fun hc => h ⟨hd, hc⟩
    refine ⟨?_, fun hm => h2 (Or.inr (Or.inl hm)), ?_⟩
    · by_contra hs; exact h2 (Or.inl (by omega))
    · by_contra hh; exact h2 (Or.inr (Or.inr hh))

theorem validateSuperseded_iff : validateSuperseded m = .ok () ↔
    (m.supersededBy ≠ "" → m.deleted = true ∧ m.size = 0 ∧ isSHA256Hex m.hash = true ∧
      namespaceConflict m.name m.supersededBy = true ∧ validateSyncName m.supersededBy = .ok ()) := by
  unfold validateSuperseded
  split
  · next h => exact ⟨fun _ h' => absurd h h', fun _ => rfl⟩
  · next h =>
    split
    · next hc =>
      refine ⟨nofun, fun h' => ?_⟩
      obtain ⟨h1, h2, h3, h4, -⟩ := h' h
      rcases hc with hc | hc | hc | hc
      · exact absurd h1 hc
      · exact absurd h2 hc
      · exact absurd h3 hc
      · exact absurd h4 hc
    · next hc =>
      simp only [not_or, not_not] at hc
      exact ⟨fun h' _ => ⟨hc.1, hc.2.1, hc.2.2.1, hc.2.2.2, h'⟩, fun h' => (h' h).2.2.2.2⟩

variable {digest : Digest}

theorem validateConflictOf_iff :
    validateConflictOf digest m = .ok () ↔ (m.conflictOf ≠ "" → m.deleted = false ∧
      m.name = conflictCopyName digest m.conflictOf m.hash ∧
      validateSyncName m.conflictOf = .ok ()) := by
  unfold validateConflictOf
  split
  · next h => exact ⟨fun _ h' => absurd h h', fun _ => rfl⟩
  · next h =>
    split
    · next hc =>
      refine ⟨nofun, fun h' => ?_⟩
      obtain ⟨h1, h2, -⟩ := h' h
      rcases hc with hc | hc
      · simp [h1] at hc
      · exact absurd h2 hc
    · next hc =>
      simp only [not_or, Bool.not_eq_true, not_not] at hc
      exact ⟨fun h' _ => ⟨hc.1, hc.2, h'⟩, fun h' => (h' h).2.2⟩

theorem validateMetadata_iff :
    validateMetadata digest m = .ok () ↔ MetadataOk digest m := by
  unfold validateMetadata
  rw [bind_ok_iff, bind_ok_iff, bind_ok_iff, bind_ok_iff, validateContent_iff,
    validateSuperseded_iff, validateConflictOf_iff]
  exact ⟨fun ⟨h1, h2, h3, h4, h5⟩ => ⟨h1, h2, h3, h4, h5⟩,
    fun h => ⟨h.name, h.content, h.clock, h.superseded, h.conflictOf⟩⟩

theorem metadataOk_of_validateChange {patterns : String → Bool}
    (h : validateChange digest patterns m = .ok ()) : MetadataOk digest m :=
  validateMetadata_iff.mp (bind_ok_iff.mp h).1

theorem ne_empty_of_validateSyncName {name : String} (h : validateSyncName name = .ok ()) :
    name ≠ "" := by
  rintro rfl
  exact absurd h (by decide)

example : validateSyncName "a/b" = .ok () := by decide

example : validateSyncName "a/../b" = .error "non-canonical sync path \"a/../b\"" := by decide

end BirakFormal
