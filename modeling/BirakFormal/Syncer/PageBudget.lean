import BirakFormal.Shared.Utf8
import BirakFormal.Store.Conflicts

/-!
# The budget of a page

A peer's page is decoded through a reader that fails once more than 8 KiB for each entry asked
for, and 1 MiB, have been read. The encoder escapes characters of HTML: a byte of a name may
become six.
-/

namespace BirakFormal

open Utf8 (encode)

def jsonInt (n : Int) : List Char := (if n < 0 then ['-'] else []) ++ Nat.toDigits 10 n.natAbs

def jsonMember (key : String) (value : List Char) : List Char := jsonString key ++ ':' :: value

def FileMeta.members (m : FileMeta) : List (List Char) :=
  [jsonMember "name" (jsonString m.name), jsonMember "mod_time" (jsonInt m.modTime.toInt), jsonMember "size" (jsonInt m.size),
    jsonMember "hash" (jsonString m.hash), jsonMember "deleted" (if m.deleted then "true".toList else "false".toList),
    jsonMember "version" (jsonInt m.version)] ++
  (if m.bigClock ≠ "" then [jsonMember "big_clock" (jsonString m.bigClock)] else []) ++
  [jsonMember "clock" (jsonInt m.clock.toInt)] ++
  (if m.supersededBy ≠ "" then [jsonMember "superseded_by" (jsonString m.supersededBy)] else []) ++
  (if m.conflictOf ≠ "" then [jsonMember "conflict_of" (jsonString m.conflictOf)] else [])

def jsonRow (m : FileMeta) : List Char := '\x7b' :: [','].intercalate m.members ++ ['\x7d']

def jsonPage (rows : List FileMeta) : List Char :=
  if rows = [] then "null".toList else '[' :: [','].intercalate (rows.map jsonRow) ++ [']']

def writeJSON (rows : List FileMeta) : Bytes := encode (jsonPage rows ++ ['\n'])

def pageEntryBudget : Nat := 8192

def pageBaseBudget : Nat := 1048576

inductive BodyErr where
  | pageTooLarge
  | eof
  deriving DecidableEq, Repr

/-- `cappedReader`: what the connection still gives, and how much of it may be read. -/
structure CappedReader where
  body : Bytes
  left : Nat

/-- A read into a buffer, for which the connection gives at most `given` bytes at once. -/
def CappedReader.read (c : CappedReader) (buffer given : Nat) : Except BodyErr (Bytes × CappedReader) :=
  if c.left = 0 then .error .pageTooLarge
  else if c.body = [] then .error .eof
  else
    let room := if c.left < buffer then c.left else buffer
    let chunk := c.body.take (min room given)
    .ok (chunk, ⟨c.body.drop chunk.length, c.left - chunk.length⟩)

inductive Decoding where
  | decoded
  | pending
  | failed (e : BodyErr)
  deriving DecidableEq, Repr

/-- The decoder reads until it holds the whole of the value, which is `size` bytes long. -/
def decodeValue (size : Nat) : List (Nat × Nat) → Nat → CappedReader → Decoding
  | reads, got, c =>
    if size ≤ got then .decoded
    else match reads with
      | [] => .pending
      | (buffer, given) :: reads =>
        match c.read buffer given with
        | .error e => .failed e
        | .ok (chunk, c) => decodeValue size reads (got + chunk.length) c

def decodePage (rows : List FileMeta) (entries : Nat) (reads : List (Nat × Nat)) : Decoding :=
  let entries := if entries < 1 then 1 else entries
  decodeValue (encode (jsonPage rows)).length reads 0 ⟨writeJSON rows, entries * pageEntryBudget + pageBaseBudget⟩

def byteLength (cs : List Char) : Nat := (encode cs).length

theorem byteLength_append (a b : List Char) : byteLength (a ++ b) = byteLength a + byteLength b := by
  rw [byteLength, Utf8.encode_append, List.length_append]
  rfl

theorem byteLength_cons (c : Char) (cs : List Char) : byteLength (c :: cs) = byteLength [c] + byteLength cs :=
  byteLength_append [c] cs

theorem byteLength_ascii {cs : List Char} (h : ∀ c ∈ cs, c.toNat < 128) : byteLength cs = cs.length := by
  induction cs with
  | nil => rfl
  | cons c cs ih =>
    obtain ⟨hc, hcs⟩ := List.forall_mem_cons.mp h
    have hone : byteLength [c] = 1 := by
      rw [byteLength, Utf8.encode_cons, Utf8.encode_nil, List.append_nil]
      have hshape := Utf8.shape_encodeChar c
      generalize c.toNat = v, String.utf8EncodeChar c = e at hshape hc
      cases hshape with
      | one hv => rfl
      | two hv => omega
      | three hv => omega
      | four hv => omega
    rw [byteLength_cons, hone, ih hcs, List.length_cons, Nat.add_comm]

theorem byteLength_pos (c : Char) : 1 ≤ byteLength [c] := by
  obtain ⟨lead, tail, hlead, -⟩ := Utf8.encodeChar_lead c
  rw [byteLength, Utf8.encode_cons, hlead, List.length_append, List.length_cons]
  omega

theorem toNat_hexDigit_lt {n : Nat} (h : n < 16) : (hexDigit n).toNat < 128 := by
  have hvalid : ∀ k < 128, (Char.ofNat k).toNat = k := by decide
  unfold hexDigit
  split
  · rw [hvalid _ (by omega)]
    omega
  · rw [hvalid _ (by omega)]
    omega

def escapedLength (s : String) : Nat := byteLength (s.toList.flatMap jsonChar)

theorem jsonChar_cases (c : Char) : jsonChar c = [c] ∨ (jsonChar c).length ≤ 6 ∧ ∀ d ∈ jsonChar c, d.toNat < 128 := by
  have hslash : '\\'.toNat < 128 := by decide
  have hdigit : (hexDigit (c.toNat % 16)).toNat < 128 := toNat_hexDigit_lt (Nat.mod_lt _ (by decide))
  have htwo : ∀ d : Char, d.toNat < 128 → ∀ e ∈ ['\\', d], e.toNat < 128 := fun d hd =>
    List.forall_mem_cons.mpr ⟨hslash, List.forall_mem_singleton.mpr hd⟩
  unfold jsonChar
  split
  · next h =>
    refine Or.inr ⟨by simp, htwo c ?_⟩
    rcases h with rfl | rfl
    · decide
    · decide
  split
  · exact Or.inr ⟨by decide, htwo 'b' (by decide)⟩
  split
  · exact Or.inr ⟨by decide, htwo 'f' (by decide)⟩
  split
  · exact Or.inr ⟨by decide, htwo 'n' (by decide)⟩
  split
  · exact Or.inr ⟨by decide, htwo 'r' (by decide)⟩
  split
  · exact Or.inr ⟨by decide, htwo 't' (by decide)⟩
  split
  · next h =>
    have hsmall : c.toNat < 128 := by
      rcases h with h | rfl | rfl | rfl
      · omega
      · decide
      · decide
      · decide
    have hhigh : (hexDigit (c.toNat / 16)).toNat < 128 := toNat_hexDigit_lt (by omega)
    refine Or.inr ⟨Nat.le_refl 6, ?_⟩
    simp only [List.forall_mem_cons]
    exact ⟨hslash, by decide, by decide, by decide, hhigh, hdigit, fun d hd => absurd hd List.not_mem_nil⟩
  split
  · refine Or.inr ⟨Nat.le_refl 6, ?_⟩
    simp only [List.forall_mem_cons]
    exact ⟨hslash, by decide, by decide, by decide, by decide, hdigit, fun d hd => absurd hd List.not_mem_nil⟩
  · exact Or.inl rfl

theorem byteLength_jsonChar (c : Char) : byteLength (jsonChar c) ≤ 6 * byteLength [c] := by
  have hpos := byteLength_pos c
  rcases jsonChar_cases c with h | ⟨hlen, hascii⟩
  · rw [h]
    omega
  · rw [byteLength_ascii hascii]
    omega

theorem escapedLength_le (s : String) : escapedLength s ≤ 6 * byteLength s.toList := by
  unfold escapedLength
  induction s.toList with
  | nil => exact Nat.le_refl _
  | cons c cs ih =>
    rw [List.flatMap_cons, byteLength_append, byteLength_cons c cs]
    have hc := byteLength_jsonChar c
    omega

theorem byteLength_jsonString (s : String) : byteLength (jsonString s) = escapedLength s + 2 := by
  rw [jsonString, List.cons_append, byteLength_cons, byteLength_append]
  have hquote : byteLength ['"'] = 1 := by decide
  rw [hquote, escapedLength]
  omega

theorem byteLength_jsonInt {n : Int} (h : -2 ^ 63 ≤ n ∧ n < 2 ^ 63) : byteLength (jsonInt n) ≤ 20 := by
  have hdigits : (Nat.toDigits 10 n.natAbs).length ≤ 19 := by
    rw [Nat.length_toDigits_le_iff (by decide) (by decide)]
    omega
  have hascii : ∀ c ∈ jsonInt n, c.toNat < 128 := by
    intro c hc
    unfold jsonInt at hc
    rcases List.mem_append.mp hc with hc | hc
    · split at hc
      · rw [List.mem_singleton.mp hc]
        decide
      · exact absurd hc List.not_mem_nil
    · have hdigit := Nat.isDigit_of_mem_toDigits (by decide) (by decide) hc
      simp only [Char.isDigit, Bool.and_eq_true, decide_eq_true_eq] at hdigit
      have hnine : c.toNat ≤ 57 := hdigit.2
      omega
  rw [byteLength_ascii hascii, jsonInt, List.length_append]
  split
  · rw [List.length_singleton]
    omega
  · rw [List.length_nil]
    omega

theorem byteLength_intercalate (x : List Char) (l : List (List Char)) :
    byteLength ([','].intercalate (x :: l)) = byteLength x + (l.map fun y => byteLength y + 1).sum := by
  induction l generalizing x with
  | nil => simp
  | cons y l ih =>
    have hcomma : byteLength [','] = 1 := by decide
    rw [List.intercalate_cons_cons, byteLength_append, byteLength_append, ih, hcomma, List.map_cons, List.sum_cons]
    omega

/-- A row a peer can store: paths of at most 4095 bytes, a digest, and numbers of 64 bits. -/
structure FileMeta.Stored (m : FileMeta) : Prop where
  name : byteLength m.name.toList ≤ 4095
  supersededBy : byteLength m.supersededBy.toList ≤ 4095
  conflictOf : byteLength m.conflictOf.toList ≤ 4095
  digest : m.hash.toList.length = 64
  hex : ∀ c ∈ m.hash.toList, isLowerHex c = true
  bigClock : m.bigClock = ""
  size : -2 ^ 63 ≤ m.size ∧ m.size < 2 ^ 63
  version : -2 ^ 63 ≤ m.version ∧ m.version < 2 ^ 63

def FileMeta.paths (m : FileMeta) : Nat :=
  escapedLength m.name + escapedLength m.supersededBy + escapedLength m.conflictOf

theorem byteLength_jsonMember (key : String) (value : List Char) :
    byteLength (jsonMember key value) = escapedLength key + 3 + byteLength value := by
  have hcolon : byteLength [':'] = 1 := by decide
  rw [jsonMember, byteLength_append, byteLength_cons, byteLength_jsonString, hcolon]
  omega

theorem jsonChar_hex {c : Char} (h : isLowerHex c = true) : jsonChar c = [c] ∧ c.toNat < 128 := by
  have hrange := isLowerHex_iff.mp h
  have hne : ∀ d : Char, d.toNat < 48 ∨ (57 < d.toNat ∧ d.toNat < 97) → c ≠ d := by
    rintro d hd rfl
    omega
  have hslash : ¬ (c = '"' ∨ c = '\\') := not_or.mpr ⟨hne '"' (by decide), hne '\\' (by decide)⟩
  have hhtml : ¬ (c.toNat < 32 ∨ c = '<' ∨ c = '>' ∨ c = '&') :=
    not_or.mpr ⟨by omega, not_or.mpr ⟨hne '<' (by decide), not_or.mpr ⟨hne '>' (by decide), hne '&' (by decide)⟩⟩⟩
  refine ⟨?_, by omega⟩
  rw [jsonChar, if_neg hslash, if_neg (by omega), if_neg (by omega), if_neg (hne '\n' (by decide)), if_neg (hne '\r' (by decide)),
    if_neg (hne '\t' (by decide)), if_neg hhtml, if_neg (by omega)]

theorem escapedLength_hex {s : String} (h : ∀ c ∈ s.toList, isLowerHex c = true) : escapedLength s = s.toList.length := by
  have hsame : s.toList.flatMap jsonChar = s.toList := by
    rw [List.flatMap_congr fun c hc => (jsonChar_hex (h c hc)).1]
    exact List.flatMap_singleton' s.toList
  rw [escapedLength, hsame, byteLength_ascii fun c hc => (jsonChar_hex (h c hc)).2]

theorem FileMeta.Stored.byteLength_row {m : FileMeta} (h : m.Stored) : byteLength (jsonRow m) ≤ 257 + m.paths := by
  have hhash : escapedLength m.hash = 64 := by rw [escapedLength_hex h.hex, h.digest]
  have hmod : byteLength (jsonInt m.modTime.toInt) ≤ 20 := byteLength_jsonInt ⟨m.modTime.le_toInt, m.modTime.toInt_lt⟩
  have hclock : byteLength (jsonInt m.clock.toInt) ≤ 20 := byteLength_jsonInt ⟨m.clock.le_toInt, m.clock.toInt_lt⟩
  have hsize := byteLength_jsonInt h.size
  have hversion := byteLength_jsonInt h.version
  have hkeys : escapedLength "name" = 4 ∧ escapedLength "mod_time" = 8 ∧ escapedLength "size" = 4 ∧ escapedLength "hash" = 4 ∧
      escapedLength "deleted" = 7 ∧ escapedLength "version" = 7 ∧ escapedLength "clock" = 5 ∧
      escapedLength "superseded_by" = 13 ∧ escapedLength "conflict_of" = 11 := by decide
  have hdeleted : byteLength (if m.deleted then "true".toList else "false".toList) ≤ 5 := by
    cases m.deleted with
    | true => decide
    | false => decide
  have hbrace : byteLength ['\x7b'] = 1 ∧ byteLength ['\x7d'] = 1 := by decide
  have hoptional : ∀ (key value : String),
      ((if value ≠ "" then [jsonMember key (jsonString value)] else []).map fun y => byteLength y + 1).sum ≤
        escapedLength key + escapedLength value + 6 := by
    intro key value
    split
    · simp only [List.map_cons, List.map_nil, List.sum_cons, List.sum_nil, byteLength_jsonMember, byteLength_jsonString]
      omega
    · exact Nat.zero_le _
  have hsup := hoptional "superseded_by" m.supersededBy
  have hconf := hoptional "conflict_of" m.conflictOf
  have hempty : ¬ ("" : String) ≠ "" := fun hne => hne rfl
  rw [jsonRow, members, h.bigClock, if_neg hempty, List.cons_append, byteLength_cons, byteLength_append]
  simp only [List.cons_append, List.nil_append, List.append_nil, byteLength_intercalate, List.map_append,
    List.map_cons, List.sum_append, List.sum_cons, byteLength_jsonMember, byteLength_jsonString]
  unfold paths
  omega

theorem byteLength_page {rows : List FileMeta} {bound : Nat} (h : ∀ m ∈ rows, byteLength (jsonRow m) + 1 ≤ bound) :
    byteLength (jsonPage rows) ≤ rows.length * bound + 4 := by
  have hsum : ∀ l : List FileMeta, (∀ m ∈ l, byteLength (jsonRow m) + 1 ≤ bound) →
      ((l.map jsonRow).map fun y => byteLength y + 1).sum ≤ l.length * bound := by
    intro l hl
    induction l with
    | nil => exact Nat.zero_le _
    | cons m l ih =>
      obtain ⟨hm, hl⟩ := List.forall_mem_cons.mp hl
      rw [List.map_cons, List.map_cons, List.sum_cons, List.length_cons, Nat.succ_mul]
      have := ih hl
      omega
  unfold jsonPage
  cases rows with
  | nil =>
    have hnull : byteLength "null".toList = 4 := by decide
    rw [if_pos rfl, hnull]
    omega
  | cons m rows =>
    have hbracket : byteLength ['['] = 1 ∧ byteLength [']'] = 1 := by decide
    have hrest := hsum rows fun x hx => h x (List.mem_cons_of_mem m hx)
    have hm := h m List.mem_cons_self
    rw [if_neg (List.cons_ne_nil m rows), List.cons_append, byteLength_cons, byteLength_append, List.map_cons,
      byteLength_intercalate, List.length_cons, Nat.succ_mul]
    omega

theorem CappedReader.read_of_left {c : CappedReader} (h : c.left ≠ 0) (buffer given : Nat) :
    c.read buffer given = .error .eof ∨
      ∃ chunk c', c.read buffer given = .ok (chunk, c') ∧ c'.left + chunk.length = c.left := by
  unfold CappedReader.read
  rw [if_neg h]
  split
  · exact Or.inl rfl
  · refine Or.inr ⟨_, _, rfl, ?_⟩
    have hroom : (c.body.take (min (if c.left < buffer then c.left else buffer) given)).length ≤ c.left := by
      rw [List.length_take]
      split
      · omega
      · omega
    dsimp only
    omega

theorem decodeValue_not_refused {size : Nat} (reads : List (Nat × Nat)) {got : Nat} {c : CappedReader}
    (h : size ≤ got + c.left) : decodeValue size reads got c ≠ .failed .pageTooLarge := by
  induction reads generalizing got c with
  | nil =>
    unfold decodeValue
    split
    · exact Decoding.noConfusion
    · exact Decoding.noConfusion
  | cons r reads ih =>
    obtain ⟨buffer, given⟩ := r
    unfold decodeValue
    by_cases hdone : size ≤ got
    · rw [if_pos hdone]
      exact Decoding.noConfusion
    · rw [if_neg hdone]
      dsimp only
      rcases CappedReader.read_of_left (show c.left ≠ 0 by omega) buffer given with heof | ⟨chunk, c', hread, hleft⟩
      · rw [heof]
        exact fun heq => BodyErr.noConfusion (Decoding.failed.inj heq)
      · rw [hread]
        exact ih (by omega)

theorem decodeValue_refused {size : Nat} {c : CappedReader} (hbody : c.left ≤ c.body.length) (hpos : c.left ≠ 0)
    (h : c.left < size) : decodeValue size [(c.left, c.left), (1, 1)] 0 c = .failed .pageTooLarge := by
  have hne : c.body ≠ [] := by
    intro hnil
    rw [hnil, List.length_nil] at hbody
    omega
  have hchunk : (c.body.take c.left).length = c.left := List.length_take_of_le hbody
  have hread : c.read c.left c.left = .ok (c.body.take c.left, ⟨c.body.drop c.left, 0⟩) := by
    unfold CappedReader.read
    rw [if_neg hpos, if_neg hne, if_neg (Nat.lt_irrefl _)]
    dsimp only
    rw [Nat.min_self, hchunk, Nat.sub_self]
  unfold decodeValue
  rw [if_neg (by omega)]
  dsimp only
  rw [hread]
  dsimp only
  unfold decodeValue
  rw [Nat.zero_add, hchunk, if_neg (by omega)]
  rfl

def plainHash : String := String.ofList (List.replicate 64 'a')

theorem plainHash_toList : plainHash.toList = List.replicate 64 'a' := String.toList_ofList

theorem stored_of_name {name : String} (h : byteLength name.toList ≤ 4095) : ({ name, hash := plainHash } : FileMeta).Stored := by
  have hempty : byteLength "".toList ≤ 4095 := by decide
  have hzero : (-2 ^ 63 : Int) ≤ 0 ∧ (0 : Int) < 2 ^ 63 := by decide
  refine ⟨h, hempty, hempty, ?_, ?_, rfl, hzero, hzero⟩
  · dsimp only
    rw [plainHash_toList, List.length_replicate]
  · intro c hc
    dsimp only at hc
    rw [plainHash_toList] at hc
    rw [List.eq_of_mem_replicate hc]
    decide

def ampersands : List Char := List.replicate 252 '&' ++ (List.replicate 15 ('/' :: List.replicate 255 '&')).flatten

def ampersandRow (i : Nat) : FileMeta := { name := String.ofList (Char.ofNat (19968 + i) :: ampersands), hash := plainHash }

def ampersandRows : List FileMeta := (List.range 100).map ampersandRow

theorem byteLength_page_ge {rows : List FileMeta} {bound : Nat} (h : ∀ m ∈ rows, bound ≤ byteLength (jsonRow m)) :
    rows.length * bound ≤ byteLength (jsonPage rows) := by
  have hsum : ∀ l : List FileMeta, (∀ m ∈ l, bound ≤ byteLength (jsonRow m)) →
      l.length * bound ≤ ((l.map jsonRow).map fun y => byteLength y + 1).sum := by
    intro l hl
    induction l with
    | nil => rw [List.length_nil, Nat.zero_mul]; exact Nat.zero_le _
    | cons m l ih =>
      obtain ⟨hm, hl⟩ := List.forall_mem_cons.mp hl
      have hrest := ih hl
      rw [List.map_cons, List.map_cons, List.sum_cons, List.length_cons, Nat.succ_mul]
      omega
  unfold jsonPage
  cases rows with
  | nil => rw [List.length_nil, Nat.zero_mul]; exact Nat.zero_le _
  | cons m rows =>
    have hrest := hsum rows fun x hx => h x (List.mem_cons_of_mem m hx)
    have hm := h m List.mem_cons_self
    rw [if_neg (List.cons_ne_nil m rows), List.cons_append, byteLength_cons, byteLength_append, List.map_cons,
      byteLength_intercalate, List.length_cons, Nat.succ_mul]
    omega

theorem escapedLength_le_row (m : FileMeta) : escapedLength m.name ≤ byteLength (jsonRow m) := by
  rw [jsonRow, FileMeta.members, List.cons_append, byteLength_cons, byteLength_append]
  simp only [List.cons_append, byteLength_intercalate, byteLength_jsonMember, byteLength_jsonString]
  omega

end BirakFormal
