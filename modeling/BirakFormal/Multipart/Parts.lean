import BirakFormal.Multipart.Completion
import BirakFormal.Shared.Paging

/-!
# Staged parts

A part of an upload is a file whose name carries its number and its digest. What has been staged is
read back from the names of the directory; where two files have one number, the newer one counts.
-/

namespace BirakFormal

/-- `%05d`. -/
def pad5 (n : Int) : List Char :=
  let sign := if n < 0 then ['-'] else []
  let digits := Nat.toDigits 10 n.natAbs
  sign ++ List.replicate (5 - sign.length - digits.length) '0' ++ digits

/-- `part-`. -/
def partStem : List Char := ['p', 'a', 'r', 't', '-']

def partFileName (number : Int) (md5hex : List Char) : List Char := partStem ++ pad5 number ++ '-' :: md5hex

def isHexMD5 (s : List Char) : Bool := s.length = 32 && s.all isLowerHex

def splitSign : List Char → Bool × List Char
  | '-' :: digits => (true, digits)
  | '+' :: digits => (false, digits)
  | digits => (false, digits)

/-- `strconv.Atoi` of a text too short to overflow. -/
def atoi (s : List Char) : Option Int :=
  let (negative, digits) := splitSign s
  if digits = [] || !digits.all Char.isDigit then none
  else some (if negative then -(Nat.ofDigitChars 10 digits 0 : Int) else Nat.ofDigitChars 10 digits 0)

def parsePartFileName (name : List Char) : Option (Int × List Char) :=
  if !partStem.isPrefixOf name then none
  else match Framing.cut '-' (name.drop partStem.length) with
    | none => none
    | some (numStr, digest) =>
      if numStr.length ≠ 5 || !isHexMD5 digest then none
      else match atoi numStr with
        | none => none
        | some n => if n < 1 then none else some (n, digest)

variable {n : Int}

theorem toDigits_length_le (h : n < 100000) (hpos : 1 ≤ n) : (Nat.toDigits 10 n.natAbs).length ≤ 5 := by
  rw [Nat.length_toDigits_le_iff (by decide) (by decide)]
  omega

theorem pad5_eq (hpos : 1 ≤ n) :
    pad5 n = List.replicate (5 - (Nat.toDigits 10 n.natAbs).length) '0' ++ Nat.toDigits 10 n.natAbs := by
  have hsign : ¬ n < 0 := by omega
  simp [pad5, hsign]

theorem pad5_isDigit (hpos : 1 ≤ n) : ∀ c ∈ pad5 n, c.isDigit = true := by
  intro c hc
  rw [pad5_eq hpos] at hc
  rcases List.mem_append.mp hc with hzero | hdigit
  · rw [List.eq_of_mem_replicate hzero]
    decide
  · exact Nat.isDigit_of_mem_toDigits (by decide) (by decide) hdigit

theorem pad5_length (hpos : 1 ≤ n) (h : n < 100000) : (pad5 n).length = 5 := by
  have hle := toDigits_length_le h hpos
  rw [pad5_eq hpos, List.length_append, List.length_replicate]
  omega

theorem splitSign_of_digits {s : List Char} (hall : ∀ c ∈ s, c.isDigit = true) : splitSign s = (false, s) := by
  unfold splitSign
  split
  · exact absurd (hall '-' List.mem_cons_self) (by decide)
  · exact absurd (hall '+' List.mem_cons_self) (by decide)
  · rfl

theorem atoi_of_digits {s : List Char} (hne : s ≠ []) (hall : ∀ c ∈ s, c.isDigit = true) :
    atoi s = some (Nat.ofDigitChars 10 s 0 : Int) := by
  have hdigits : s.all Char.isDigit = true := List.all_eq_true.mpr hall
  simp [atoi, splitSign_of_digits hall, hne, hdigits]

theorem atoi_pad5 (hpos : 1 ≤ n) (h : n < 100000) : atoi (pad5 n) = some n := by
  have hne : pad5 n ≠ [] := fun he => by
    have hlen := pad5_length hpos h
    rw [he] at hlen
    exact absurd hlen (by decide)
  rw [atoi_of_digits hne (pad5_isDigit hpos), pad5_eq hpos, Nat.ofDigitChars_append, Nat.ofDigitChars_replicate_zero,
    Nat.mul_zero, Nat.ofDigitChars_ten_toDigits]
  exact congrArg some (by omega)

theorem parsePartFileName_partFileName {digest : List Char} (hpos : 1 ≤ n) (h : n < 100000)
    (hdigest : isHexMD5 digest = true) : parsePartFileName (partFileName n digest) = some (n, digest) := by
  have hminus : '-' ∉ pad5 n := fun hm => absurd (pad5_isDigit hpos _ hm) (by decide)
  have hstem : partStem.isPrefixOf (partFileName n digest) = true := by
    rw [List.isPrefixOf_iff_prefix]
    exact ⟨_, (List.append_assoc _ _ _).symm⟩
  have hdrop : (partFileName n digest).drop partStem.length = pad5 n ++ '-' :: digest := by
    rw [partFileName, List.append_assoc, List.drop_left]
  unfold parsePartFileName
  rw [hstem, hdrop, Framing.cut_append hminus]
  simp only [Bool.not_true, Bool.false_eq_true, if_false, pad5_length hpos h, hdigest, ne_eq, not_true_eq_false,
    decide_false, Bool.or_self, atoi_pad5 hpos h, if_neg (show ¬ n < 1 by omega)]

theorem parsePartFileName_spec {name digest : List Char} (h : parsePartFileName name = some (n, digest)) :
    1 ≤ n ∧ isHexMD5 digest = true := by
  unfold parsePartFileName at h
  split at h
  · cases h
  · split at h
    · cases h
    · split at h
      · cases h
      · next hshape =>
        split at h
        · cases h
        · split at h
          · cases h
          · next hpos =>
            obtain ⟨rfl, rfl⟩ := Prod.mk.inj (Option.some.inj h)
            simp only [Bool.or_eq_true, not_or, Bool.not_eq_true, Bool.not_eq_false'] at hshape
            exact ⟨by omega, hshape.2⟩

theorem trimBoth_eq_self {p : Char → Bool} {l : List Char} (h : ∀ c ∈ l, p c = false) : trimBoth p l = l := by
  have hkeep {l : List Char} (h : ∀ c ∈ l, p c = false) : l.dropWhile p = l := by
    cases l with
    | nil => rfl
    | cons c l => rw [List.dropWhile_cons, h c List.mem_cons_self, if_neg Bool.false_ne_true]
  rw [trimBoth, hkeep h, hkeep fun c hc => h c (List.mem_reverse.mp hc), List.reverse_reverse]

theorem etagMatches_self {digest : List Char} (h : isHexMD5 digest = true) : etagMatches digest digest = true := by
  have hall : ∀ c ∈ digest, isLowerHex c = true := by
    simp only [isHexMD5, Bool.and_eq_true] at h
    exact List.all_eq_true.mp h.2
  have hspace : ∀ c ∈ digest, isSpace c = false := by
    intro c hc
    have hhex := isLowerHex_iff.mp (hall c hc)
    simp only [isSpace, List.mem_cons, List.not_mem_nil, or_false, Bool.or_eq_false_iff, decide_eq_false_iff_not,
      Bool.and_eq_false_iff]
    omega
  have hquote : ∀ c ∈ digest, decide (c = '"') = false := by
    intro c hc
    refine decide_eq_false ?_
    rintro rfl
    exact absurd (hall _ hc) (by decide)
  have hweak : ¬ ['W', '/'].isPrefixOf digest = true := by
    intro hprefix
    obtain ⟨rest, rfl⟩ := List.isPrefixOf_iff_prefix.mp hprefix
    exact absurd (hall 'W' List.mem_cons_self) (by decide)
  have hnormal : normalizeETag digest = digest := by
    rw [normalizeETag, trimSpace, trimBoth_eq_self hspace, if_neg hweak, trimBoth_eq_self hquote]
  rw [etagMatches, hnormal, equalFold]
  exact decide_eq_true rfl

structure StagedFile where
  bytes : Bytes
  modTime : Int
  deriving DecidableEq, Repr

/-- The files of the directory, as `os.ReadDir` lists them. -/
abbrev StagingDir := List (List Char × StagedFile)

namespace StagingDir

def rename (dir : StagingDir) (name : List Char) (f : StagedFile) : StagingDir :=
  (name, f) :: dir.filter fun e => e.1 ≠ name

def remove (dir : StagingDir) (name : List Char) : StagingDir := dir.filter fun e => e.1 ≠ name

variable {e : List Char × StagedFile}

theorem mem_rename {dir : StagingDir} {name : List Char} {f : StagedFile} :
    e ∈ dir.rename name f ↔ e = (name, f) ∨ e ∈ dir ∧ e.1 ≠ name := by
  simp [rename]

theorem mem_remove {dir : StagingDir} {name : List Char} :
    e ∈ dir.remove name ↔ e ∈ dir ∧ e.1 ≠ name := by
  simp [remove]

end StagingDir

structure UploadPart where
  number : Int
  size : Int
  etag : List Char
  lastModified : Int
  deriving DecidableEq, Repr

def candidatePart (e : List Char × StagedFile) : Option UploadPart :=
  (parsePartFileName e.1).map fun (number, digest) => ⟨number, e.2.bytes.length, digest, e.2.modTime⟩

def newerPart (candidate current : UploadPart) : Bool :=
  current.lastModified < candidate.lastModified ||
    (candidate.lastModified = current.lastModified && current.etag < candidate.etag)

/-- One round of the loop over the files; `byNumber` is a map. -/
def enterPart (byNumber : List UploadPart) (candidate : UploadPart) : List UploadPart :=
  match byNumber.find? fun p => p.number = candidate.number with
  | none => candidate :: byNumber
  | some current =>
    if newerPart candidate current then candidate :: byNumber.filter fun p => p.number ≠ candidate.number
    else byNumber

def partsByNumber (dir : StagingDir) : List UploadPart := (dir.filterMap candidatePart).foldl enterPart []

def stagedParts (dir : StagingDir) : List UploadPart :=
  (partsByNumber dir).insertionSort fun p q => p.number ≤ q.number

def listParts (dir : StagingDir) (numberMarker maxParts : Int) : List UploadPart × Bool × Int :=
  let filtered := (stagedParts dir).filter fun p => numberMarker < p.number
  if 0 < maxParts ∧ maxParts < filtered.length then
    let taken := filtered.take maxParts.toNat
    (taken, true, (taken.getLast?.map UploadPart.number).getD 0)
  else (filtered, false, 0)

def partsPage (dir : StagingDir) (maxParts numberMarker : Int) : List UploadPart × Option Int :=
  let (parts, truncated, next) := listParts dir numberMarker maxParts
  (parts, if truncated then some next else none)

structure Limits where
  minPartBytes : Int
  maxPartBytes : Int
  maxParts : Int
  maxObjectBytes : Int
  deriving DecidableEq, Repr

inductive CompleteErr where
  | noSuchUpload
  | emptyPartList
  | destination
  | invalidPartNumber
  | invalidPartOrder
  | invalidPart
  | partTooSmall
  | objectTooLarge
  | corruptPart
  | publish (e : Interruption.Failure Err)
  | retried (e : RepeatErr)
  | failed
  deriving DecidableEq, Repr

def checkOrder (limits : Limits) : Int → List CompletePart → Except CompleteErr Unit
  | _, [] => .ok ()
  | prev, w :: want =>
    if w.number < 1 ∨ limits.maxParts < w.number then .error .invalidPartNumber
    else if w.number ≤ prev then .error .invalidPartOrder
    else checkOrder limits w.number want

def selectParts (limits : Limits) (staged : List UploadPart) :
    List CompletePart → Int → Except CompleteErr (List UploadPart × Int)
  | [], total => .ok ([], total)
  | w :: want, total =>
    match staged.find? fun p => p.number = w.number with
    | none => .error .invalidPart
    | some p =>
      if !etagMatches w.etag p.etag then .error .invalidPart
      else if want ≠ [] ∧ p.size < limits.minPartBytes then .error .partTooSmall
      else if 0 < limits.maxObjectBytes ∧ limits.maxObjectBytes < total + p.size then .error .objectTooLarge
      else match selectParts limits staged want (total + p.size) with
        | .error e => .error e
        | .ok (selected, sum) => .ok (p :: selected, sum)

structure ByNumber (seen byNumber : List UploadPart) : Prop where
  distinct : byNumber.Pairwise fun p q => p.number ≠ q.number
  mem_seen : ∀ p ∈ byNumber, p ∈ seen
  covers : ∀ c ∈ seen, ∃ p ∈ byNumber, p.number = c.number

variable {seen byNumber : List UploadPart}

theorem ByNumber.enter (h : ByNumber seen byNumber) (c : UploadPart) :
    ByNumber (seen ++ [c]) (enterPart byNumber c) := by
  unfold enterPart
  split
  · next hnone =>
    have hnew : ∀ p ∈ byNumber, c.number ≠ p.number := fun p hp he => by
      have := List.find?_eq_none.mp hnone p hp
      simp [he] at this
    refine ⟨List.pairwise_cons.mpr ⟨hnew, h.distinct⟩, fun p hp => ?_, fun d hd => ?_⟩
    · rcases List.mem_cons.mp hp with rfl | hp
      · exact List.mem_append_right _ List.mem_cons_self
      · exact List.mem_append_left _ (h.mem_seen p hp)
    · rcases List.mem_append.mp hd with hd | hd
      · obtain ⟨p, hp, he⟩ := h.covers d hd
        exact ⟨p, List.mem_cons_of_mem _ hp, he⟩
      · rw [List.mem_singleton.mp hd]
        exact ⟨c, List.mem_cons_self, rfl⟩
  · next current hcurrent =>
    have hfound := List.mem_of_find?_eq_some hcurrent
    have hnumber : current.number = c.number := by simpa using List.find?_some hcurrent
    split
    · refine ⟨List.pairwise_cons.mpr ⟨fun p hp => ?_, h.distinct.filter _⟩, fun p hp => ?_, fun d hd => ?_⟩
      · exact Ne.symm (of_decide_eq_true (List.mem_filter.mp hp).2)
      · rcases List.mem_cons.mp hp with rfl | hp
        · exact List.mem_append_right _ List.mem_cons_self
        · exact List.mem_append_left _ (h.mem_seen p (List.mem_filter.mp hp).1)
      · by_cases hd' : d.number = c.number
        · exact ⟨c, List.mem_cons_self, hd'.symm⟩
        · rcases List.mem_append.mp hd with hd | hd
          · obtain ⟨p, hp, he⟩ := h.covers d hd
            refine ⟨p, List.mem_cons_of_mem _ (List.mem_filter.mpr ⟨hp, ?_⟩), he⟩
            simpa [he] using hd'
          · exact absurd (by rw [List.mem_singleton.mp hd]) hd'
    · refine ⟨h.distinct, fun p hp => List.mem_append_left _ (h.mem_seen p hp), fun d hd => ?_⟩
      rcases List.mem_append.mp hd with hd | hd
      · exact h.covers d hd
      · rw [List.mem_singleton.mp hd]
        exact ⟨current, hfound, hnumber⟩

theorem ByNumber.foldl (h : ByNumber seen byNumber) (candidates : List UploadPart) :
    ByNumber (seen ++ candidates) (candidates.foldl enterPart byNumber) := by
  induction candidates generalizing seen byNumber with
  | nil => simpa using h
  | cons c candidates ih =>
    have hstep := ih (h.enter c)
    rwa [List.append_assoc, List.singleton_append] at hstep

theorem partsByNumber_spec (dir : StagingDir) : ByNumber (dir.filterMap candidatePart) (partsByNumber dir) := by
  have hempty : ByNumber [] [] := ⟨List.Pairwise.nil, nofun, nofun⟩
  exact hempty.foldl (dir.filterMap candidatePart)

variable {dir : StagingDir}

theorem mem_stagedParts {p : UploadPart} : p ∈ stagedParts dir ↔ p ∈ partsByNumber dir :=
  (List.perm_insertionSort _ _).mem_iff

instance : Std.Total fun p q : UploadPart => p.number ≤ q.number := ⟨fun p q => Int.le_total p.number q.number⟩

instance : IsTrans UploadPart fun p q => p.number ≤ q.number := ⟨fun _ _ _ => Int.le_trans⟩

theorem stagedParts_sorted (dir : StagingDir) : (stagedParts dir).Pairwise fun p q => p.number < q.number := by
  have hsorted := List.pairwise_insertionSort (fun p q : UploadPart => p.number ≤ q.number) (partsByNumber dir)
  have hdistinct : (stagedParts dir).Pairwise fun p q => p.number ≠ q.number :=
    ((List.perm_insertionSort _ _).pairwise_iff fun h => Ne.symm h).mpr (partsByNumber_spec dir).distinct
  refine (hsorted.and hdistinct).imp fun h => ?_
  omega

theorem candidate_of_mem_stagedParts {p : UploadPart} (h : p ∈ stagedParts dir) :
    ∃ e ∈ dir, candidatePart e = some p :=
  List.mem_filterMap.mp ((partsByNumber_spec dir).mem_seen p (mem_stagedParts.mp h))

theorem exists_stagedPart {e : List Char × StagedFile} {c : UploadPart} (he : e ∈ dir)
    (hc : candidatePart e = some c) : ∃ p ∈ stagedParts dir, p.number = c.number := by
  obtain ⟨p, hp, hnumber⟩ := (partsByNumber_spec dir).covers c (List.mem_filterMap.mpr ⟨e, he, hc⟩)
  exact ⟨p, mem_stagedParts.mpr hp, hnumber⟩

theorem eq_of_stagedPart_number {p q : UploadPart} (hp : p ∈ stagedParts dir)
    (hq : q ∈ stagedParts dir) (h : p.number = q.number) : p = q := by
  by_contra hne
  have hpair : (stagedParts dir).Pairwise fun a b => a.number ≠ b.number :=
    (stagedParts_sorted dir).imp fun h => Int.ne_of_lt h
  have hsymm : Std.Symm fun a b : UploadPart => a.number ≠ b.number := ⟨fun _ _ => Ne.symm⟩
  exact hpair.forall hp hq hne h

end BirakFormal
