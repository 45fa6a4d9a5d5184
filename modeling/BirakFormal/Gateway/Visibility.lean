import BirakFormal.Gateway.Cleaning

/-!
# The entries a listing shows

A listing decides from an entry's own name whether a client may see it. The patterns are a list,
and one of them matches a segment or does not; `validateClientPath` of a path is given here with
its test whether there are patterns at all.
-/

namespace BirakFormal

section
variable {P : Type} (matched : P → String → Bool) (ignorePatterns : List P)

def matchesAny (segment : String) : Bool := ignorePatterns.any fun pattern => matched pattern segment

/-- `validateClientPath`, for a list of patterns. -/
def validatePath (rel : String) : Except String Unit :=
  if rel ≠ "" ∧ 0 < ignorePatterns.length ∧ shouldIgnore (matchesAny matched ignorePatterns) rel then
    .error "ignored path"
  else if rel.toList.contains '\x00' then .error "invalid name"
  else if (split rel).head?.any isReserved then .error "reserved path"
  else if (split rel).any isScratchSpelling then .error "reserved path"
  else .ok ()

def clientVisibleName (dirRel name : String) : Bool :=
  if dirRel = "" ∧ isReserved name then false
  else if name.toList.contains '\x00' ∨ isScratchSpelling name then false
  else !matchesAny matched ignorePatterns name

/-- The path of an entry: a slash stands between the two, unless the directory is the root or ends with one. -/
def joinEntry (dirRel name : String) : String :=
  if (split dirRel).getLast? = some "" then dirRel ++ name else dirRel ++ "/" ++ name

/-- The segments in front of the entries of a directory. -/
def directories (dirRel : String) : List String :=
  if (split dirRel).getLast? = some "" then (split dirRel).dropLast else split dirRel

theorem split_entry {name : String} (hslash : '/' ∉ name.toList) : split name = [name] := by
  have hparts : ∀ p ∈ [name], '/' ∉ p.toList := by simpa using hslash
  exact split_joinSlash (List.cons_ne_nil name []) hparts

theorem directories_empty : directories "" = [] := by decide

theorem directories_within (dirRel : String) : directories dirRel <+: split dirRel := by
  unfold directories
  split
  · exact List.dropLast_prefix _
  · exact List.prefix_rfl

theorem directories_ne_nil {dirRel : String} (h : dirRel ≠ "") : directories dirRel ≠ [] := by
  unfold directories
  split
  · next hlast =>
    intro hnil
    have hsplit := List.dropLast_append_getLast? "" hlast
    rw [hnil, List.nil_append] at hsplit
    have hjoin := joinSlash_split dirRel
    rw [← hsplit] at hjoin
    exact h hjoin.symm
  · exact split_ne_nil dirRel

theorem split_joinEntry (dirRel : String) {name : String} (hslash : '/' ∉ name.toList) :
    split (joinEntry dirRel name) = directories dirRel ++ [name] := by
  unfold joinEntry directories
  split
  · next hlast =>
    have hsplit := List.dropLast_append_getLast? "" hlast
    generalize (split dirRel).dropLast = above at hsplit ⊢
    have hjoin : dirRel ++ name = joinSlash (above ++ [name]) := by
      rw [← joinSlash_split dirRel, ← hsplit]
      cases above with
      | nil => exact String.empty_append
      | cons d ds =>
        rw [joinSlash_concat (List.cons_ne_nil d ds), joinSlash_concat (List.cons_ne_nil d ds), String.append_empty]
    rw [hjoin]
    refine split_joinSlash (by simp) fun q hq => ?_
    rcases List.mem_append.mp hq with hq | hq
    · exact split_no_slash (hsplit ▸ List.mem_append_left _ hq)
    · rwa [List.mem_singleton.mp hq]
  · rw [split_append_slash, split_entry hslash]

theorem base_eq_last {path last : String} {above : List String} (h : split path = above ++ [last])
    (hlast : last ≠ "") : base path = last := by
  have hne : path ≠ "" := by
    rintro rfl
    have hempty : [] ++ [""] = above ++ [last] := h
    have hsame := List.append_inj_right' hempty rfl
    exact hlast (List.cons.inj hsame).1.symm
  rw [base, if_neg hne, h, List.reverse_append, List.reverse_singleton, List.singleton_append,
    List.dropWhile_cons_of_neg (by simpa using hlast)]

theorem hasPrefixFold_of_matchStar {p name : String} (h : matchStar p name = true) : hasPrefixFold name p = true := by
  obtain ⟨rest, hrest⟩ := hasPrefix_iff.mp (Bool.and_eq_true_iff.mp h).1
  simp [hasPrefixFold, ← hrest]

variable {matched ignorePatterns}

theorem directories_pass {rel : String} (h : validatePath matched ignorePatterns rel = .ok ()) :
    (∀ s ∈ directories rel, matchesAny matched ignorePatterns s = false) ∧ '\x00' ∉ rel.toList ∧
      (split rel).head?.any isReserved = false ∧ (split rel).any isScratchSpelling = false := by
  unfold validatePath at h
  simp only [ite_error_eq_ok, Bool.not_eq_true, and_true, List.contains_eq_mem, decide_eq_false_iff_not] at h
  obtain ⟨hignored, hrest⟩ := h
  refine ⟨fun s hs => ?_, hrest⟩
  cases ignorePatterns with
  | nil => rfl
  | cons pattern rest =>
    have hne : rel ≠ "" := by
      rintro rfl
      rw [directories_empty] at hs
      cases hs
    have hkept : ¬ shouldIgnore (matchesAny matched (pattern :: rest)) rel = true :=
      fun hi => hignored ⟨hne, by simp, hi⟩
    obtain ⟨above, last, hsplit⟩ := (List.eq_nil_or_concat' (split rel)).resolve_left (split_ne_nil rel)
    simp only [shouldIgnore, Bool.or_eq_true, not_or, List.any_eq_true, not_exists, not_and, Bool.not_eq_true,
      hsplit, List.dropLast_concat] at hkept
    by_cases hlast : last = ""
    · rw [directories, hsplit, List.getLast?_concat, if_pos (congrArg some hlast), List.dropLast_concat] at hs
      exact hkept.2 s hs
    · rw [directories, hsplit, List.getLast?_concat, if_neg (by simpa using hlast), List.mem_append,
        List.mem_singleton] at hs
      rcases hs with hs | rfl
      · exact hkept.2 s hs
      · rw [base_eq_last hsplit hlast] at hkept
        exact hkept.1.2

/-- The rule for ignored paths is applied only where there are patterns, but what it refuses
without them is refused by the rules for reserved names. -/
theorem validatePath_ok_iff {rel last : String} {above : List String} (h : split rel = above ++ [last])
    (hlast : last ≠ "") :
    validatePath matched ignorePatterns rel = .ok () ↔
      (∀ s ∈ split rel, matchesAny matched ignorePatterns s = false) ∧ '\x00' ∉ rel.toList ∧
        (split rel).head?.any isReserved = false ∧ (split rel).any isScratchSpelling = false := by
  have hmem : last ∈ split rel := by simp [h]
  have hdrop : (split rel).dropLast = above := by simp [h]
  constructor
  · intro hok
    have hdirs : directories rel = split rel := by
      rw [directories, if_neg]
      simpa [h] using hlast
    exact hdirs ▸ directories_pass hok
  · rintro ⟨hkept, hnul, hreserved, hscratch⟩
    unfold validatePath
    simp only [ite_error_eq_ok, Bool.not_eq_true, and_true, List.contains_eq_mem, decide_eq_false_iff_not]
    refine ⟨?_, hnul, hreserved, hscratch⟩
    rintro ⟨-, -, hignored⟩
    have hspelling : isScratchSpelling last = false := by
      simpa using List.any_eq_false.mp hscratch last hmem
    simp only [isScratchSpelling, Bool.or_eq_false_iff] at hspelling
    simp only [shouldIgnore, base_eq_last h hlast, hdrop, Bool.or_eq_true, List.any_eq_true,
      decide_eq_true_eq] at hignored
    rcases hignored with (((hhead | htmp) | hbak) | hbase) | ⟨s, hs, hsegment⟩
    · rw [hhead] at hreserved
      exact absurd hreserved (by decide)
    · rw [hasPrefixFold_of_matchStar htmp] at hspelling
      exact absurd hspelling.1 (by decide)
    · rw [hasPrefixFold_of_matchStar hbak] at hspelling
      exact absurd hspelling.2 (by decide)
    · rw [hkept last hmem] at hbase
      exact absurd hbase (by decide)
    · rw [hkept s (h ▸ List.mem_append_left _ hs)] at hsegment
      exact absurd hsegment (by decide)

theorem clientVisibleName_iff {dirRel name : String} :
    clientVisibleName matched ignorePatterns dirRel name = true ↔
      ¬ (dirRel = "" ∧ isReserved name = true) ∧ '\x00' ∉ name.toList ∧ isScratchSpelling name = false ∧
        matchesAny matched ignorePatterns name = false := by
  unfold clientVisibleName
  split
  · next hreserved => simp [hreserved]
  · next hreserved =>
    split
    · next hhidden =>
      rcases hhidden with hnul | hscratch
      · simp [List.contains_iff_mem.mp hnul]
      · simp [hscratch]
    · next hhidden =>
      obtain ⟨hnul, hscratch⟩ := not_or.mp hhidden
      rw [List.contains_iff_mem] at hnul
      simp [hreserved, hnul, hscratch]

end

/-- In a directory that passed the rules a listing shows an entry if and only if the path of the
entry passes them. -/
theorem clientVisibleName_iff_valid {P : Type} (matched : P → String → Bool) (ignorePatterns : List P)
    {dirRel name : String} (hdir : dirRel = "" ∨ validatePath matched ignorePatterns dirRel = .ok ())
    (hslash : '/' ∉ name.toList) (hname : name ≠ "") :
    clientVisibleName matched ignorePatterns dirRel name = true ↔
      validatePath matched ignorePatterns (joinEntry dirRel name) = .ok () := by
  have hsplit := split_joinEntry dirRel hslash
  rw [clientVisibleName_iff, validatePath_ok_iff hsplit hname, hsplit, List.forall_mem_append,
    List.forall_mem_singleton, List.any_append]
  by_cases hempty : dirRel = ""
  · subst hempty
    have hjoin : joinEntry "" name = name := String.empty_append
    rw [hjoin, directories_empty]
    simp only [List.nil_append, List.head?_cons, Option.any_some, List.any_cons, List.any_nil, Bool.or_false,
      Bool.false_or, true_and, Bool.not_eq_true]
    tauto
  · obtain ⟨hkept, hnul, hreserved, hscratch⟩ := directories_pass (hdir.resolve_left hempty)
    have hhead : (directories dirRel ++ [name]).head?.any isReserved = false := by
      obtain ⟨rest, hrest⟩ := directories_within dirRel
      rw [← hrest, List.head?_append_of_ne_nil _ (directories_ne_nil hempty)] at hreserved
      rw [List.head?_append_of_ne_nil _ (directories_ne_nil hempty), hreserved]
    have hscratch' : (directories dirRel).any isScratchSpelling = false :=
      List.any_eq_false.mpr fun s hs => List.any_eq_false.mp hscratch s ((directories_within dirRel).subset hs)
    have hnul' : '\x00' ∈ (joinEntry dirRel name).toList ↔ '\x00' ∈ name.toList := by
      unfold joinEntry
      split <;> simp [hnul]
    rw [hhead, hscratch', hnul']
    simp only [hempty, List.any_cons, List.any_nil, Bool.or_false, Bool.false_or, false_and, not_false_eq_true,
      true_and, and_iff_right hkept]
    tauto

theorem clientVisibleName_iff_valid_docs :
    clientVisibleName (fun p s : String => p == s) ["tmp"] "docs" "a" = true ∧
      validatePath (fun p s : String => p == s) ["tmp"] (joinEntry "docs" "a") = .ok () := by
  have hvisible : clientVisibleName (fun p s : String => p == s) ["tmp"] "docs" "a" = true := by decide
  have hdir : validatePath (fun p s : String => p == s) ["tmp"] "docs" = .ok () := by decide
  exact ⟨hvisible, (clientVisibleName_iff_valid _ _ (Or.inr hdir) (by decide) (by decide)).mp hvisible⟩

end BirakFormal
