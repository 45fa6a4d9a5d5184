import BirakFormal.Store.Advance

/-!
# Namespace conflicts and their copies

A file and a directory cannot share a name. The loser of such a conflict leaves a
tombstone that carries the winner's rank, and its bytes move to a copy whose name is a
digest of the original name and content. The digest is a parameter: everything below
holds for any function with 32 bytes of output.
-/

namespace BirakFormal

open FileTrees

abbrev Bytes := List UInt8

instance bytesLawfulBEq : LawfulBEq Bytes := inferInstance

/-- A digest with the output size of `sha256.Sum256`. -/
structure Digest where
  sum256 : Bytes → Bytes
  length_sum256 : ∀ data, (sum256 data).length = 32

def hexDigit (n : Nat) : Char := if n < 10 then Char.ofNat (48 + n) else Char.ofNat (87 + n)

/-- `hex.EncodeToString`. -/
def hexEncode (bytes : Bytes) : String :=
  String.ofList (bytes.flatMap fun b => [hexDigit (b.toNat / 16), hexDigit (b.toNat % 16)])

def isLowerHex (c : Char) : Bool := ('0' ≤ c && c ≤ '9') || ('a' ≤ c && c ≤ 'f')

def isSHA256Hex (value : String) : Bool := value.utf8ByteSize = 64 && value.toList.all isLowerHex

def Digest.hash (digest : Digest) (data : Bytes) : String := hexEncode (digest.sum256 data)

/-- One character of a JSON text as `encoding/json` writes it, HTML escapes included. -/
def jsonChar (c : Char) : List Char :=
  if c = '"' ∨ c = '\\' then ['\\', c]
  else if c.toNat = 8 then ['\\', 'b']
  else if c.toNat = 12 then ['\\', 'f']
  else if c = '\n' then ['\\', 'n']
  else if c = '\r' then ['\\', 'r']
  else if c = '\t' then ['\\', 't']
  else if c.toNat < 32 ∨ c = '<' ∨ c = '>' ∨ c = '&' then
    ['\\', 'u', '0', '0', hexDigit (c.toNat / 16), hexDigit (c.toNat % 16)]
  else if c.toNat = 0x2028 ∨ c.toNat = 0x2029 then
    ['\\', 'u', '2', '0', '2', hexDigit (c.toNat % 16)]
  else [c]

def jsonString (s : String) : List Char := '"' :: s.toList.flatMap jsonChar ++ ['"']

/-- `json.Marshal([2]string{name, hash})`. -/
def jsonPair (name hash : String) : String :=
  String.ofList ('[' :: jsonString name ++ ',' :: jsonString hash ++ [']'])

section
variable (digest : Digest)

/-- The copy's name lies outside the original tree and is bounded for long names. -/
def conflictCopyName (name hash : String) : String :=
  "birak-conflict-" ++ hexEncode (digest.sum256 (jsonPair name hash).toUTF8.toList)

def conflictCopy (m : FileMeta) : FileMeta :=
  { name := conflictCopyName digest m.name m.hash, modTime := m.modTime, clock := m.stateClock,
    bigClock := m.bigClock, size := m.size, hash := m.hash, conflictOf := m.name }

end

/-- A tombstone of `name` that records the winner's rank exactly. -/
def superseded (name : String) (winner : FileMeta) : FileMeta :=
  { name := name, deleted := true, clock := winner.stateClock, bigClock := winner.bigClock,
    modTime := winner.modTime, hash := winner.hash, supersededBy := winner.name }

theorem isLowerHex_hexDigit {n : Nat} (h : n < 16) : isLowerHex (hexDigit n) = true := by
  have small : ∀ n < 16, isLowerHex (hexDigit n) = true := by decide
  exact small n h

theorem hexEncode_lower (bytes : Bytes) : ∀ c ∈ (hexEncode bytes).toList, isLowerHex c = true := by
  intro c hc
  rw [hexEncode, String.toList_ofList, List.mem_flatMap] at hc
  obtain ⟨b, -, hc⟩ := hc
  have hb := b.toNat_lt
  simp only [List.mem_cons, List.not_mem_nil, or_false] at hc
  rcases hc with rfl | rfl
  · exact isLowerHex_hexDigit (by omega)
  · exact isLowerHex_hexDigit (by omega)

theorem isLowerHex_iff {c : Char} : isLowerHex c = true ↔
    48 ≤ c.toNat ∧ c.toNat ≤ 57 ∨ 97 ≤ c.toNat ∧ c.toNat ≤ 102 := by
  simp only [isLowerHex, Bool.or_eq_true, Bool.and_eq_true, decide_eq_true_eq]
  exact Iff.rfl

theorem no_slash_conflictCopyName (digest : Digest) (name hash : String) :
    '/' ∉ (conflictCopyName digest name hash).toList := by
  rw [conflictCopyName, String.toList_append, List.mem_append, not_or]
  refine ⟨by decide, fun h => ?_⟩
  exact absurd (hexEncode_lower _ _ h) (by decide)

theorem not_beneath_conflictCopyName (digest : Digest) (name hash a : String) :
    ¬ Beneath (conflictCopyName digest name hash) a :=
  not_beneath_of_no_slash (no_slash_conflictCopyName digest name hash)

end BirakFormal
