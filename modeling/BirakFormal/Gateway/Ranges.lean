import BirakFormal.Shared.Framing
import BirakFormal.Store.Conflicts

/-!
# Range headers

`classifyRange` decides a Range header before the library that serves the object parses it again.
The two parsers differ in what they trim: the first one every white space of Unicode, the second
one blanks and tabs only.
-/

namespace BirakFormal

def wideSpaces : List Bytes :=
  [[0xc2, 0x85], [0xc2, 0xa0], [0xe1, 0x9a, 0x80], [0xe2, 0x80, 0x80], [0xe2, 0x80, 0x81], [0xe2, 0x80, 0x82],
    [0xe2, 0x80, 0x83], [0xe2, 0x80, 0x84], [0xe2, 0x80, 0x85], [0xe2, 0x80, 0x86], [0xe2, 0x80, 0x87],
    [0xe2, 0x80, 0x88], [0xe2, 0x80, 0x89], [0xe2, 0x80, 0x8a], [0xe2, 0x80, 0xa8], [0xe2, 0x80, 0xa9],
    [0xe2, 0x80, 0xaf], [0xe2, 0x81, 0x9f], [0xe3, 0x80, 0x80]]

def spaces : List Bytes := [[9], [10], [11], [12], [13], [32]] ++ wideSpaces

/-- Drop what is in `tokens` from the front, at most `fuel` times. -/
def dropTokens (tokens : List Bytes) : Nat → Bytes → Bytes
  | 0, s => s
  | fuel + 1, s =>
    match tokens.find? fun t => t.isPrefixOf s with
    | none => s
    | some t => dropTokens tokens fuel (s.drop t.length)

def trimLeftTokens (tokens : List Bytes) (s : Bytes) : Bytes := dropTokens tokens s.length s

def trimTokens (tokens : List Bytes) (s : Bytes) : Bytes :=
  (trimLeftTokens (tokens.map List.reverse) (trimLeftTokens tokens s).reverse).reverse

/-- `strings.TrimSpace`. -/
def trimSpaceBytes (s : Bytes) : Bytes := trimTokens spaces s

def trimString (s : Bytes) : Bytes := trimTokens [[32], [9], [10], [13]] s

def digitValue (digits : Bytes) : Nat := digits.foldl (fun n d => 10 * n + (d.toNat - 48)) 0

def isDigits (s : Bytes) : Bool := s ≠ [] && s.all fun b => 48 ≤ b && b ≤ 57

/-- `strconv.ParseInt` in base 10 with 64 bits. -/
def parseInt (s : Bytes) : Option Int :=
  let (negative, digits) := match s with
    | 45 :: digits => (true, digits)
    | 43 :: digits => (false, digits)
    | digits => (false, digits)
  if !isDigits digits then none
  else if negative then (if digitValue digits ≤ 2 ^ 63 then some (-(digitValue digits : Int)) else none)
  else if digitValue digits < 2 ^ 63 then some (digitValue digits)
  else none

inductive RangeOutcome where
  | none
  | serve
  | ignore
  | unsatisfiable
  deriving DecidableEq, Repr

/-- `bytes=`. -/
def rangeUnit : Bytes := [98, 121, 116, 101, 115, 61]

/-- What one item of the list says: nothing, that the header is malformed, or whether it can be
satisfied. -/
inductive ItemOutcome where
  | blank
  | malformed
  | range (satisfiable : Bool)
  deriving DecidableEq, Repr

def classifySuffix (last : Bytes) (size : Int) : ItemOutcome :=
  match parseInt last with
  | none => .malformed
  | some n =>
    if last = [] ∨ last.head? = some 45 ∨ n < 0 then .malformed else .range (decide (0 < n) && decide (0 < size))

def classifyInterval (first last : Bytes) (size : Int) : ItemOutcome :=
  match parseInt first with
  | none => .malformed
  | some start =>
    if start < 0 then .malformed
    else if last = [] then .range (decide (start < size))
    else match parseInt last with
      | none => .malformed
      | some stop => if stop < start then .malformed else .range (decide (start < size))

def classifyItem (item : Bytes) (size : Int) : ItemOutcome :=
  let spec := trimSpaceBytes item
  if spec = [] then .blank
  else match Framing.cut 45 spec with
    | none => .malformed
    | some (first, last) =>
      let first := trimSpaceBytes first
      let last := trimSpaceBytes last
      if first = [] then classifySuffix last size else classifyInterval first last size

def classifyItems (size : Int) : List Bytes → Bool → Bool → RangeOutcome
  | [], satisfiable, named =>
    if !named then .ignore else if satisfiable then .serve else if size = 0 then .ignore else .unsatisfiable
  | item :: items, satisfiable, named =>
    match classifyItem item size with
    | .blank => classifyItems size items satisfiable named
    | .malformed => .ignore
    | .range s => classifyItems size items (satisfiable || s) true

def classifyRange (header : Bytes) (size : Int) : RangeOutcome :=
  if header = [] then .none
  else if !rangeUnit.isPrefixOf header then .ignore
  else classifyItems size ((header.drop rangeUnit.length).splitOn 44) false false

structure HttpRange where
  start : Int
  length : Int
  deriving DecidableEq, Repr

inductive RangeErr where
  | invalid
  | noOverlap
  deriving DecidableEq, Repr

def parseSuffix (last : Bytes) (size : Int) : Except RangeErr HttpRange :=
  if last = [] ∨ last.head? = some 45 then .error .invalid
  else match parseInt last with
    | none => .error .invalid
    | some n => if n < 0 then .error .invalid else .ok ⟨size - min n size, min n size⟩

def parseInterval (first last : Bytes) (size : Int) : Except RangeErr (Option HttpRange) :=
  match parseInt first with
  | none => .error .invalid
  | some start =>
    if start < 0 then .error .invalid
    else if size ≤ start then .ok none
    else if last = [] then .ok (some ⟨start, size - start⟩)
    else match parseInt last with
      | none => .error .invalid
      | some stop => if stop < start then .error .invalid else .ok (some ⟨start, min stop (size - 1) - start + 1⟩)

def parseItems (size : Int) : List Bytes → List HttpRange → Bool → Except RangeErr (List HttpRange)
  | [], ranges, skipped => if skipped && ranges.isEmpty then .error .noOverlap else .ok ranges
  | item :: items, ranges, skipped =>
    let ra := trimString item
    if ra = [] then parseItems size items ranges skipped
    else match Framing.cut 45 ra with
      | none => .error .invalid
      | some (first, last) =>
        let first := trimString first
        let last := trimString last
        if first = [] then
          match parseSuffix last size with
          | .error e => .error e
          | .ok r => parseItems size items (ranges ++ [r]) skipped
        else match parseInterval first last size with
          | .error e => .error e
          | .ok none => parseItems size items ranges true
          | .ok (some r) => parseItems size items (ranges ++ [r]) skipped

/-- `parseRange` of net/http. -/
def parseRange (header : Bytes) (size : Int) : Except RangeErr (List HttpRange) :=
  if header = [] then .ok []
  else if !rangeUnit.isPrefixOf header then .error .invalid
  else parseItems size ((header.drop rangeUnit.length).splitOn 44) [] false

structure Unspaced (wide : List Bytes) (s : Bytes) : Prop where
  bytes : ∀ b ∈ s, b = 9 ∨ 32 ≤ b
  wide : ∀ t ∈ wide, ¬ t <:+: s

section
variable {wide : List Bytes} {s x : Bytes}

theorem Unspaced.of_isInfix (h : Unspaced wide s) (hx : x <:+: s) : Unspaced wide x :=
  ⟨fun b hb => h.bytes b (hx.subset hb), fun t ht hin => h.wide t ht (hin.trans hx)⟩

theorem Unspaced.reverse (h : Unspaced wide s) : Unspaced (wide.map List.reverse) s.reverse := by
  refine ⟨fun b hb => h.bytes b (List.mem_reverse.mp hb), fun t ht hin => ?_⟩
  obtain ⟨u, hu, rfl⟩ := List.mem_map.mp ht
  exact h.wide u hu (List.reverse_infix.mp hin)

theorem Unspaced.find (h : Unspaced wide s) :
    ([[9], [10], [11], [12], [13], [32]] ++ wide).find? (fun t => t.isPrefixOf s) =
      [[32], [9], [10], [13]].find? fun t : Bytes => t.isPrefixOf s := by
  have hwide : wide.find? (fun t => t.isPrefixOf s) = none := by
    rw [List.find?_eq_none]
    intro t ht hprefix
    exact h.wide t ht (List.isPrefixOf_iff_prefix.mp hprefix).isInfix
  rw [List.find?_append, hwide, Option.or_none]
  cases s with
  | nil => rfl
  | cons b s =>
    have hb : b = 9 ∨ 32 ≤ b := h.bytes b List.mem_cons_self
    rcases hb with rfl | hb
    · rfl
    · have hne (k : UInt8) (hk : k < 32) : (k == b) = false := by
        rw [beq_eq_false_iff_ne]
        rintro rfl
        exact absurd hb (UInt8.not_le.mpr hk)
      simp only [List.find?_cons, List.isPrefixOf, hne 9 (by decide), hne 10 (by decide), hne 11 (by decide),
        hne 12 (by decide), hne 13 (by decide), Bool.false_and, List.find?_nil]

theorem Unspaced.dropTokens (h : Unspaced wide s) (fuel : Nat) :
    dropTokens ([[9], [10], [11], [12], [13], [32]] ++ wide) fuel s =
      dropTokens [[32], [9], [10], [13]] fuel s := by
  induction fuel generalizing s with
  | zero => rfl
  | succ fuel ih =>
    unfold BirakFormal.dropTokens
    rw [h.find]
    cases [[32], [9], [10], [13]].find? fun t : Bytes => t.isPrefixOf s with
    | none => rfl
    | some t => exact ih (h.of_isInfix (List.drop_suffix _ _).isInfix)

theorem dropTokens_suffix (tokens : List Bytes) (fuel : Nat) (s : Bytes) : dropTokens tokens fuel s <:+ s := by
  induction fuel generalizing s with
  | zero => exact List.suffix_refl s
  | succ fuel ih =>
    unfold dropTokens
    split
    · exact List.suffix_refl s
    · exact (ih _).trans (List.drop_suffix _ _)

theorem trimTokens_isInfix (tokens : List Bytes) (s : Bytes) : trimTokens tokens s <:+: s := by
  have hback := dropTokens_suffix (tokens.map List.reverse) (trimLeftTokens tokens s).reverse.length
    (trimLeftTokens tokens s).reverse
  have hfront : trimLeftTokens tokens s <:+ s := dropTokens_suffix tokens s.length s
  have hprefix : trimTokens tokens s <+: trimLeftTokens tokens s := List.reverse_suffix.mp (by
    rw [trimTokens, List.reverse_reverse]
    exact hback)
  exact hprefix.isInfix.trans hfront.isInfix

theorem trimSpaceBytes_eq (h : Unspaced wideSpaces s) : trimSpaceBytes s = trimString s := by
  have hleft : trimLeftTokens spaces s = trimLeftTokens [[32], [9], [10], [13]] s := h.dropTokens s.length
  have hrest : Unspaced wideSpaces (trimLeftTokens [[32], [9], [10], [13]] s) :=
    h.of_isInfix (dropTokens_suffix _ _ _).isInfix
  have hright := hrest.reverse.dropTokens (trimLeftTokens [[32], [9], [10], [13]] s).reverse.length
  unfold trimSpaceBytes trimString trimTokens
  rw [hleft]
  exact congrArg List.reverse hright

theorem infix_intercalate {α : Type} (sep : List α) {l : List (List α)} {x : List α} (hx : x ∈ l) :
    x <:+: sep.intercalate l := by
  induction l with
  | nil => cases hx
  | cons y l ih =>
    cases l with
    | nil =>
      rw [List.mem_singleton.mp hx]
      exact ⟨[], [], by simp [List.intercalate]⟩
    | cons z l =>
      have hsplit : sep.intercalate (y :: z :: l) = y ++ (sep ++ sep.intercalate (z :: l)) := by
        simp [List.intercalate, List.intersperse]
      rw [hsplit]
      rcases List.mem_cons.mp hx with rfl | hx
      · exact (List.prefix_append _ _).isInfix
      · exact (ih hx).trans ((List.suffix_append _ _).trans (List.suffix_append _ _)).isInfix

end

variable {size : Int}

theorem classifySuffix_ne_blank (last : Bytes) : classifySuffix last size ≠ .blank := by
  intro h
  unfold classifySuffix at h
  split at h
  · cases h
  · split at h <;> cases h

theorem classifyInterval_ne_blank (first last : Bytes) : classifyInterval first last size ≠ .blank := by
  intro h
  unfold classifyInterval at h
  split at h
  · cases h
  · split at h
    · cases h
    · split at h
      · cases h
      · split at h
        · cases h
        · split at h <;> cases h

theorem parseSuffix_of_classifySuffix {last : Bytes} {satisfiable : Bool}
    (h : classifySuffix last size = .range satisfiable) : ∃ r, parseSuffix last size = .ok r := by
  unfold classifySuffix at h
  unfold parseSuffix
  cases hn : parseInt last with
  | none =>
    rw [hn] at h
    cases h
  | some n =>
    rw [hn] at h
    dsimp only at h ⊢
    by_cases hbad : last = [] ∨ last.head? = some 45 ∨ n < 0
    · rw [if_pos hbad] at h
      cases h
    · rw [if_neg fun hb => hbad (hb.imp_right Or.inl), if_neg fun hb => hbad (Or.inr (Or.inr hb))]
      exact ⟨_, rfl⟩

theorem parseInterval_of_classifyInterval {first last : Bytes} {satisfiable : Bool}
    (h : classifyInterval first last size = .range satisfiable) :
    ∃ r, parseInterval first last size = .ok r ∧ (satisfiable = true → r.isSome = true) := by
  unfold classifyInterval at h
  unfold parseInterval
  cases hstart : parseInt first with
  | none =>
    rw [hstart] at h
    cases h
  | some start =>
    rw [hstart] at h
    dsimp only at h ⊢
    split at h
    · cases h
    rw [if_neg ‹_›]
    have hsat : satisfiable = decide (start < size) := by
      split at h
      · exact (ItemOutcome.range.inj h).symm
      · split at h
        · cases h
        · split at h
          · cases h
          · exact (ItemOutcome.range.inj h).symm
    split
    · exact ⟨none, rfl, fun ht => by simp_all; omega⟩
    · split at h
      · rw [if_pos ‹_›]
        exact ⟨_, rfl, fun _ => rfl⟩
      · rw [if_neg ‹_›]
        split at h
        · cases h
        · split at h
          · cases h
          · rw [if_neg ‹_›]
            exact ⟨_, rfl, fun _ => rfl⟩

theorem parseItems_of_classifyItems {items : List Bytes} {satisfiable named : Bool}
    (hitems : ∀ item ∈ items, Unspaced wideSpaces item) (h : classifyItems size items satisfiable named = .serve)
    {ranges : List HttpRange} (hranges : satisfiable = true → ranges ≠ []) (skipped : Bool) :
    ∃ rs, parseItems size items ranges skipped = .ok rs ∧ rs ≠ [] := by
  induction items generalizing satisfiable named ranges skipped with
  | nil =>
    have hsat : satisfiable = true := by
      unfold classifyItems at h
      split at h
      · cases h
      · split at h
        · next hs => exact hs
        · split at h <;> cases h
    have hne := hranges hsat
    refine ⟨ranges, ?_, hne⟩
    unfold parseItems
    rw [if_neg]
    simp [hne]
  | cons item items ih =>
    have hitem := hitems item List.mem_cons_self
    have hrest : ∀ x ∈ items, Unspaced wideSpaces x := fun x hx => hitems x (List.mem_cons_of_mem item hx)
    unfold classifyItems classifyItem at h
    unfold parseItems
    rw [← trimSpaceBytes_eq hitem]
    dsimp only at h ⊢
    by_cases hblank : trimSpaceBytes item = []
    · rw [if_pos hblank] at h ⊢
      exact ih hrest h hranges skipped
    rw [if_neg hblank] at h ⊢
    cases hcut : Framing.cut 45 (trimSpaceBytes item) with
    | none =>
      rw [hcut] at h
      cases h
    | some halves =>
      obtain ⟨first, last⟩ := halves
      obtain ⟨hfirst, hlast⟩ := Framing.cut_isInfix hcut
      have hinner : Unspaced wideSpaces (trimSpaceBytes item) := hitem.of_isInfix (trimTokens_isInfix spaces item)
      rw [hcut] at h
      dsimp only at h ⊢
      rw [← trimSpaceBytes_eq (hinner.of_isInfix hfirst), ← trimSpaceBytes_eq (hinner.of_isInfix hlast)]
      by_cases hsuffix : trimSpaceBytes first = []
      · rw [if_pos hsuffix] at h ⊢
        cases hitem : classifySuffix (trimSpaceBytes last) size with
        | blank => exact absurd hitem (classifySuffix_ne_blank _)
        | malformed =>
          rw [hitem] at h
          cases h
        | range s =>
          rw [hitem] at h
          obtain ⟨r, hr⟩ := parseSuffix_of_classifySuffix hitem
          rw [hr]
          exact ih hrest h (fun _ => List.append_ne_nil_of_right_ne_nil _ (List.cons_ne_nil r [])) skipped
      · rw [if_neg hsuffix] at h ⊢
        cases hitem : classifyInterval (trimSpaceBytes first) (trimSpaceBytes last) size with
        | blank => exact absurd hitem (classifyInterval_ne_blank _ _)
        | malformed =>
          rw [hitem] at h
          cases h
        | range s =>
          rw [hitem] at h
          obtain ⟨r, hr, hsome⟩ := parseInterval_of_classifyInterval hitem
          rw [hr]
          cases r with
          | none =>
            have hs : s = false := by simpa using hsome
            subst hs
            exact ih hrest h (fun ht => hranges (by simpa using ht)) true
          | some r =>
            exact ih hrest h (fun _ => List.append_ne_nil_of_right_ne_nil _ (List.cons_ne_nil r [])) skipped

/-- `bytes=0-1, -2`. -/
def twoRanges : Bytes := rangeUnit ++ [48, 45, 49, 44, 32, 45, 50]

/-- `bytes=0-1` with a no-break space before the first digit. -/
def wideRange : Bytes := rangeUnit ++ [0xc2, 0xa0, 48, 45, 49]

end BirakFormal
