import BirakFormal.Gateway.Conditions
import BirakFormal.Shared.Framing

/-!
# Repeated completions

A completed upload leaves a record by which a retry of the completion is answered. The list of
parts is in the record only as the digest of a text: one line for each part, its number and its
normalized ETag.
-/

namespace BirakFormal

structure CompletePart where
  number : Int
  etag : List Char
  deriving DecidableEq, Repr

structure Upload where
  id : String
  bucket : String
  key : String
  deriving DecidableEq, Repr

structure StatInfo where
  regular : Bool
  size : Int
  modTime : Int
  deriving DecidableEq, Repr

structure Completion (D : Type) where
  uploadID : String
  bucket : String
  key : String
  dest : String
  parts : D
  partCount : Nat
  etag : List Char
  size : Int
  modTime : Int
  deriving DecidableEq, Repr

structure CompleteResult where
  bucket : String
  key : String
  etag : List Char
  size : Int
  parts : Nat
  info : StatInfo
  repeated : Bool
  deriving DecidableEq, Repr

inductive RepeatErr where
  | noSuchUpload
  | readRecord
  | parseRecord
  deriving DecidableEq, Repr

inductive RecordFile (D : Type) where
  | missing
  | unreadable
  | malformed
  | record (rec : Completion D)
  deriving DecidableEq, Repr

def itoa (n : Int) : List Char := (if n < 0 then ['-'] else []) ++ Nat.toDigits 10 n.natAbs

/-- `strings.EqualFold` with a hexadecimal digest, whose letters have no case variants beyond
ASCII. -/
def equalFold (s digest : List Char) : Bool := s.map Char.toLower = digest.map Char.toLower

def etagMatches (clientETag digest : List Char) : Bool := equalFold (normalizeETag clientETag) digest

section
variable {D Dest : Type} [DecidableEq D] (lower : Char → Char) (sha256 : List Char → D)
  (destName : Dest → Option String)

/-- The normalized ETag; `lower` is `unicode.ToLower`. -/
def CompletePart.normal (p : CompletePart) : List Char := (normalizeETag p.etag).map lower

def CompletePart.line (p : CompletePart) : List Char := itoa p.number ++ ':' :: p.normal lower ++ ['\n']

def partListDigest (parts : List CompletePart) : D := sha256 (parts.flatMap (CompletePart.line lower))

def recordCompletion (up : Upload) (parts : List CompletePart) (dest : Dest) (etag : List Char) (info : StatInfo) :
    Option (Completion D) :=
  (destName dest).map fun name =>
    { uploadID := up.id, bucket := up.bucket, key := up.key, dest := name, parts := partListDigest lower sha256 parts,
      partCount := parts.length, etag := etag, size := info.size, modTime := info.modTime }

def repeatCompletion (file : RecordFile D) (id : String) (want : List CompletePart) (dest : Dest)
    (stat : Option StatInfo) : Except RepeatErr CompleteResult :=
  match file with
  | .missing => .error .noSuchUpload
  | .unreadable => .error .readRecord
  | .malformed => .error .parseRecord
  | .record rec =>
    match destName dest with
    | none => .error .noSuchUpload
    | some name =>
      if rec.uploadID ≠ id ∨ rec.dest ≠ name ∨ rec.parts ≠ partListDigest lower sha256 want then .error .noSuchUpload
      else match stat with
        | none => .error .noSuchUpload
        | some info =>
          if !info.regular || info.size ≠ rec.size || info.modTime ≠ rec.modTime then .error .noSuchUpload
          else .ok { bucket := rec.bucket, key := rec.key, etag := rec.etag, size := rec.size, parts := rec.partCount,
                     info := info, repeated := true }

theorem mem_itoa {n : Int} {c : Char} (h : c ∈ itoa n) : c = '-' ∨ c.isDigit = true := by
  rcases List.mem_append.mp h with hsign | hdigit
  · split at hsign
    · exact Or.inl (List.mem_singleton.mp hsign)
    · cases hsign
  · exact Or.inr (Nat.isDigit_of_mem_toDigits (by decide) (by decide) hdigit)

theorem colon_not_mem_itoa (n : Int) : ':' ∉ itoa n := fun h => absurd (mem_itoa h) (by decide)

theorem newline_not_mem_itoa (n : Int) : '\n' ∉ itoa n := fun h => absurd (mem_itoa h) (by decide)

theorem toDigits_ten_inj {m n : Nat} (h : Nat.toDigits 10 m = Nat.toDigits 10 n) : m = n := by
  have hvalue := congrArg (fun l => Nat.ofDigitChars 10 l 0) h
  simpa only [Nat.ofDigitChars_ten_toDigits] using hvalue

theorem minus_cons_ne_toDigits (l : List Char) (n : Nat) : '-' :: l ≠ Nat.toDigits 10 n := by
  intro h
  have hmem : '-' ∈ Nat.toDigits 10 n := h ▸ List.mem_cons_self
  exact absurd (Nat.isDigit_of_mem_toDigits (by decide) (by decide) hmem) (by decide)

theorem itoa_inj {m n : Int} (h : itoa m = itoa n) : m = n := by
  unfold itoa at h
  split at h
  · split at h
    · have habs := toDigits_ten_inj (List.cons.inj h).2
      omega
    · exact absurd h (minus_cons_ne_toDigits _ _)
  · split at h
    · exact absurd h.symm (minus_cons_ne_toDigits _ _)
    · have habs := toDigits_ten_inj h
      omega

def SamePart (p q : CompletePart) : Prop := p.number = q.number ∧ p.normal lower = q.normal lower

variable {lower}

def CompletePart.body (lower : Char → Char) (p : CompletePart) : List Char := itoa p.number ++ ':' :: p.normal lower

theorem CompletePart.body_inj {p q : CompletePart} (h : p.body lower = q.body lower) : SamePart lower p q := by
  obtain ⟨hnumber, hetag⟩ := Framing.cut_inj (colon_not_mem_itoa _) (colon_not_mem_itoa _) h
  exact ⟨itoa_inj hnumber, hetag⟩

theorem newline_not_mem_body {p : CompletePart} (h : '\n' ∉ p.normal lower) : '\n' ∉ p.body lower := by
  intro hmem
  rcases List.mem_append.mp hmem with hnumber | hrest
  · exact newline_not_mem_itoa _ hnumber
  · rcases List.mem_cons.mp hrest with hcolon | hetag
    · cases hcolon
    · exact h hetag

theorem flatMap_line (parts : List CompletePart) :
    parts.flatMap (CompletePart.line lower) = Framing.frame '\n' (parts.map (CompletePart.body lower)) := by
  simp only [Framing.frame, List.flatMap_map]
  exact List.flatMap_congr fun p _ => by simp [CompletePart.line, CompletePart.body]

variable {want parts : List CompletePart}

theorem lines_inj (hwant : ∀ p ∈ want, '\n' ∉ p.normal lower) (hparts : ∀ p ∈ parts, '\n' ∉ p.normal lower)
    (h : want.flatMap (CompletePart.line lower) = parts.flatMap (CompletePart.line lower)) :
    List.Forall₂ (SamePart lower) want parts := by
  rw [flatMap_line, flatMap_line] at h
  have hbodies : want.map (CompletePart.body lower) = parts.map (CompletePart.body lower) := by
    refine Framing.frame_inj (fun x hx => ?_) (fun x hx => ?_) h
    · obtain ⟨p, hp, rfl⟩ := List.mem_map.mp hx
      exact newline_not_mem_body (hwant p hp)
    · obtain ⟨p, hp, rfl⟩ := List.mem_map.mp hx
      exact newline_not_mem_body (hparts p hp)
  have hforall : List.Forall₂ (fun p q => p.body lower = q.body lower) want parts := by
    rwa [← List.forall₂_eq_eq_eq, List.forall₂_map_left_iff, List.forall₂_map_right_iff] at hbodies
  exact hforall.imp fun _ _ => CompletePart.body_inj

theorem lines_eq (h : List.Forall₂ (SamePart lower) want parts) :
    want.flatMap (CompletePart.line lower) = parts.flatMap (CompletePart.line lower) := by
  induction h with
  | nil => rfl
  | cons hsame _ ih => simp only [List.flatMap_cons, CompletePart.line, hsame.1, hsame.2, ih]

theorem toNat_toLower (c : Char) :
    c.toLower.toNat = if 65 ≤ c.toNat ∧ c.toNat ≤ 90 then c.toNat + 32 else c.toNat := by
  unfold Char.toLower
  split
  · next h =>
    have hbounds : 65 ≤ c.toNat ∧ c.toNat ≤ 90 := h
    rw [if_pos hbounds]
    change (c.val + 32).toNat = c.toNat + 32
    have hval : c.val.toNat = c.toNat := rfl
    rw [UInt32.toNat_add, hval]
    exact Nat.mod_eq_of_lt (by simp only [UInt32.reduceToNat]; omega)
  · next h =>
    have hbounds : ¬ (65 ≤ c.toNat ∧ c.toNat ≤ 90) := h
    rw [if_neg hbounds]

theorem newline_not_mem_of_matches (hlower : ∀ c : Char, c.toNat < 128 → lower c = c.toLower) {p : CompletePart}
    {digest : List Char} (hdigest : ∀ c ∈ digest, isLowerHex c = true) (h : etagMatches p.etag digest = true) :
    '\n' ∉ p.normal lower := by
  intro hmem
  obtain ⟨c, hc, hnewline⟩ := List.mem_map.mp hmem
  have hfold : (normalizeETag p.etag).map Char.toLower = digest.map Char.toLower := of_decide_eq_true h
  have hin : c.toLower ∈ digest.map Char.toLower := hfold ▸ List.mem_map_of_mem hc
  obtain ⟨d, hd, hcd⟩ := List.mem_map.mp hin
  have hhex := isLowerHex_iff.mp (hdigest d hd)
  have hvalue := congrArg Char.toNat hcd
  rw [toNat_toLower, toNat_toLower] at hvalue
  have hascii : c.toNat < 128 := by
    split at hvalue <;> split at hvalue <;> omega
  have hresult := congrArg Char.toNat ((hlower c hascii).symm.trans hnewline)
  rw [toNat_toLower] at hresult
  have hten : '\n'.toNat = 10 := rfl
  rw [hten] at hresult
  split at hvalue <;> split at hvalue <;> split at hresult <;> omega

variable {sha256 : List Char → D} {destName : Dest → Option String}

theorem repeatCompletion_ok_iff {rec : Completion D} {id : String} {dest : Dest}
    {stat : Option StatInfo} {result : CompleteResult} :
    repeatCompletion lower sha256 destName (.record rec) id want dest stat = .ok result ↔
      rec.uploadID = id ∧ destName dest = some rec.dest ∧ partListDigest lower sha256 want = rec.parts ∧
        ∃ info, stat = some info ∧ info.regular = true ∧ info.size = rec.size ∧ info.modTime = rec.modTime ∧
          result = ⟨rec.bucket, rec.key, rec.etag, rec.size, rec.partCount, info, true⟩ := by
  constructor
  · intro h
    unfold repeatCompletion at h
    dsimp only at h
    split at h
    · cases h
    · next name hname =>
      split at h
      · cases h
      · next hsame =>
        push Not at hsame
        obtain ⟨hid, hdest, hparts⟩ := hsame
        split at h
        · cases h
        · next info =>
          split at h
          · cases h
          · next hinfo =>
            have hkept : info.regular = true ∧ info.size = rec.size ∧ info.modTime = rec.modTime := by
              simpa [and_assoc] using hinfo
            exact ⟨hid, hdest ▸ hname, hparts.symm, info, rfl, hkept.1, hkept.2.1, hkept.2.2, (Except.ok.inj h).symm⟩
  · rintro ⟨hid, hname, hparts, info, rfl, hregular, hsize, htime, rfl⟩
    unfold repeatCompletion
    simp [hid, hname, hparts, hregular, hsize, htime]

theorem repeated_of_repeatCompletion {file : RecordFile D} {id : String} {dest : Dest}
    {stat : Option StatInfo} {result : CompleteResult}
    (h : repeatCompletion lower sha256 destName file id want dest stat = .ok result) : result.repeated = true := by
  cases file with
  | missing => cases h
  | unreadable => cases h
  | malformed => cases h
  | record rec =>
    obtain ⟨-, -, -, info, -, -, -, -, rfl⟩ := repeatCompletion_ok_iff.mp h
    rfl

end

def firstDigest : List Char := List.replicate 32 'a'

def secondDigest : List Char := List.replicate 32 'b'

def completedList : List CompletePart := [⟨1, '"' :: firstDigest ++ ['"']⟩, ⟨2, secondDigest⟩]

def completedUpload : Upload := ⟨"id", "bucket", "key"⟩

def completedInfo : StatInfo := ⟨true, 7, 11⟩

def completedRecord : Completion (List Char) :=
  ⟨"id", "bucket", "key", "bucket/key", partListDigest Char.toLower id completedList, 2, firstDigest, 7, 11⟩

def repeatedResult : CompleteResult := ⟨"bucket", "key", firstDigest, 7, 2, completedInfo, true⟩

def retriedList : List CompletePart := [⟨1, List.replicate 32 'A'⟩, ⟨2, ['W', '/', '"'] ++ secondDigest ++ ['"']⟩]

def foldedList : List CompletePart := [⟨1, firstDigest ++ '\n' :: '2' :: ':' :: secondDigest⟩]

end BirakFormal
