import BirakFormal.Gateway.Paths

/-!
# What cleaning leaves

Cleaning a path is a fold over its components with a stack. An absolute path is left with real
components only, so cleaning it again, or after something was put in front, changes nothing
that was cleaned before.
-/

namespace BirakFormal

def Plain (parts : List String) : Prop := Canonical parts ∧ ∀ p ∈ parts, '/' ∉ p.toList

theorem canonical_nil : Canonical [] := fun _ hp => absurd hp List.not_mem_nil

theorem Plain.append {a b : List String} (ha : Plain a) (hb : Plain b) : Plain (a ++ b) := by
  refine ⟨fun p hp => ?_, fun p hp => ?_⟩
  · rcases List.mem_append.mp hp with h | h
    · exact ha.1 p h
    · exact hb.1 p h
  · rcases List.mem_append.mp hp with h | h
    · exact ha.2 p h
    · exact hb.2 p h

theorem Plain.of_subset {a b : List String} (h : Plain b) (hsub : ∀ p ∈ a, p ∈ b) : Plain a :=
  ⟨fun p hp => h.1 p (hsub p hp), fun p hp => h.2 p (hsub p hp)⟩

theorem split_append_slash (a b : String) : split (a ++ "/" ++ b) = split a ++ split b := by
  have hno : ∀ p ∈ split a ++ split b, '/' ∉ p.toList := by
    intro p hp
    rcases List.mem_append.mp hp with hp | hp
    · exact split_no_slash hp
    · exact split_no_slash hp
  have hjoin := joinSlash_append (split_ne_nil a) (split_ne_nil b)
  rw [joinSlash_split, joinSlash_split] at hjoin
  rw [← hjoin, split_joinSlash (by simp [split_ne_nil]) hno]

theorem render_cons (p : List String) (hp : p ≠ []) : render p = joinSlash ("" :: p) := by
  rw [joinSlash_cons "" hp, render, String.empty_append]

variable {p : List String}

theorem split_render (hp : ∀ c ∈ p, '/' ∉ c.toList) :
    split (render p) = "" :: if p = [] then [""] else p := by
  by_cases hnil : p = []
  · subst hnil
    decide
  · rw [if_neg hnil, render_cons p hnil, split_joinSlash (List.cons_ne_nil _ _)]
    intro c hc
    rcases List.mem_cons.mp hc with rfl | hc
    · decide
    · exact hp c hc

theorem hasPrefix_render (p : List String) : hasPrefix (render p) "/" = true := by
  rw [hasPrefix_iff, render, String.toList_append]
  exact List.prefix_append _ _

theorem render_inj {p q : List String} (hp : Plain p) (hq : Plain q) (h : render p = render q) : p = q := by
  have hs := congrArg split h
  rw [split_render hp.2, split_render hq.2] at hs
  have hs' := (List.cons.inj hs).2
  by_cases hpn : p = []
  · by_cases hqn : q = []
    · rw [hpn, hqn]
    · rw [if_pos hpn, if_neg hqn] at hs'
      exact absurd rfl (hq.1 "" (hs' ▸ List.mem_cons_self)).1
  · by_cases hqn : q = []
    · rw [if_neg hpn, if_pos hqn] at hs'
      exact absurd rfl (hp.1 "" (hs' ▸ List.mem_cons_self)).1
    · rwa [if_neg hpn, if_neg hqn] at hs'

theorem pathComponents_render (hp : Plain p) : pathComponents (render p) = p := by
  have hkeep : p.filter (· ≠ "") = p := by
    rw [List.filter_eq_self]
    intro c hc
    simpa using (hp.1 c hc).1
  rw [pathComponents, split_render hp.2]
  by_cases hnil : p = []
  · subst hnil
    decide
  · rw [if_neg hnil]
    simpa using hkeep

theorem prefix_of_render {p q : List String} (hp : Plain p) (hq : Plain q)
    (h : hasPrefix (render q) (render p ++ "/") = true) : p <+: q := by
  have hpre := split_prefix_of_beneath (beneath_iff.mpr h)
  rw [split_render hp.2, split_render hq.2, List.cons_prefix_cons] at hpre
  by_cases hpn : p = []
  · rw [hpn]
    exact List.nil_prefix
  · rw [if_neg hpn] at hpre
    by_cases hqn : q = []
    · rw [if_pos hqn] at hpre
      obtain ⟨c, cs, rfl⟩ := List.exists_cons_of_ne_nil hpn
      have hc := (List.cons_prefix_cons.mp hpre.2).1
      exact absurd hc (hp.1 c List.mem_cons_self).1
    · rw [if_neg hqn] at hpre
      exact hpre.2

def dropTop (rooted : Bool) : List String → List String
  | [] => if rooted then [] else [".."]
  | k :: ks => if k = ".." then ".." :: k :: ks else ks

def push (rooted : Bool) (kept : List String) (p : String) : List String :=
  match stepOf p with
  | .stay => kept
  | .up => dropTop rooted kept
  | .name p => p :: kept

theorem stepOf_cases (p : String) : (p = "" ∨ p = ".") ∧ stepOf p = .stay ∨
    p = ".." ∧ stepOf p = .up ∨ (p ≠ "" ∧ p ≠ "." ∧ p ≠ "..") ∧ stepOf p = .name p := by
  unfold stepOf
  by_cases hstay : p = "" ∨ p = "."
  · exact Or.inl ⟨hstay, if_pos hstay⟩
  · rw [if_neg hstay]
    rw [not_or] at hstay
    by_cases hup : p = ".."
    · exact Or.inr (Or.inl ⟨hup, if_pos hup⟩)
    · exact Or.inr (Or.inr ⟨⟨hstay.1, hstay.2, hup⟩, if_neg hup⟩)

theorem stepOf_plain {p : String} (h : p ≠ "" ∧ p ≠ "." ∧ p ≠ "..") : stepOf p = .name p := by
  unfold stepOf
  rw [if_neg (by simp [h.1, h.2.1]), if_neg h.2.2]

section
variable {rooted : Bool} {kept : List String} {p : String}

theorem push_stay (h : stepOf p = .stay) : push rooted kept p = kept := by
  unfold push
  rw [h]

theorem push_up (h : stepOf p = .up) : push rooted kept p = dropTop rooted kept := by
  unfold push
  rw [h]

theorem push_plain (h : p ≠ "" ∧ p ≠ "." ∧ p ≠ "..") : push rooted kept p = p :: kept := by
  unfold push
  rw [stepOf_plain h]

end

theorem cleanParts_eq_foldl (rooted : Bool) (kept parts : List String) :
    cleanParts rooted kept parts = (parts.foldl (push rooted) kept).reverse := by
  induction parts generalizing kept with
  | nil =>
    unfold cleanParts
    rfl
  | cons p parts ih =>
    unfold cleanParts
    rw [List.foldl_cons, ← ih]
    rcases stepOf_cases p with ⟨hstay, hstep⟩ | ⟨rfl, hstep⟩ | ⟨hp, -⟩
    · rw [if_pos hstay, push_stay hstep]
    · rw [push_up hstep, if_neg (by decide), if_pos rfl]
      cases kept with
      | nil =>
        cases rooted with
        | true => rfl
        | false => rfl
      | cons k ks =>
        dsimp only [dropTop]
        split
        · rfl
        · rfl
    · rw [push_plain hp, if_neg (by simp [hp.1, hp.2.1]), if_neg hp.2.2]

variable {rooted : Bool}

theorem foldl_push_plain {kept parts : List String} (h : Canonical parts) :
    parts.foldl (push rooted) kept = parts.reverse ++ kept := by
  induction parts generalizing kept with
  | nil => rfl
  | cons p parts ih =>
    rw [List.foldl_cons, push_plain (h p List.mem_cons_self), ih fun q hq => h q (List.mem_cons_of_mem p hq)]
    simp

variable {kept : List String}

theorem push_rooted (h : Canonical kept) (p : String) :
    Canonical (push true kept p) := by
  rcases stepOf_cases p with ⟨-, hstep⟩ | ⟨-, hstep⟩ | ⟨hp, -⟩
  · rwa [push_stay hstep]
  · rw [push_up hstep]
    cases kept with
    | nil => exact nofun
    | cons k ks =>
      rw [dropTop, if_neg (h k List.mem_cons_self).2.2]
      intro q hq
      exact h q (List.mem_cons_of_mem k hq)
  · rw [push_plain hp]
    intro q hq
    rcases List.mem_cons.mp hq with rfl | hq
    · exact hp
    · exact h q hq

theorem mem_push {p q : String} (h : q ∈ push rooted kept p) :
    q ∈ kept ∨ q = ".." ∨ q = p := by
  rcases stepOf_cases p with ⟨-, hstep⟩ | ⟨-, hstep⟩ | ⟨hp, -⟩
  · rw [push_stay hstep] at h
    exact Or.inl h
  · rw [push_up hstep] at h
    cases kept with
    | nil =>
      cases rooted with
      | true => cases h
      | false => exact Or.inr (Or.inl (List.mem_singleton.mp h))
    | cons k ks =>
      rw [dropTop] at h
      split at h
      · rcases List.mem_cons.mp h with h | h
        · exact Or.inr (Or.inl h)
        · exact Or.inl h
      · exact Or.inl (List.mem_cons_of_mem _ h)
  · rw [push_plain hp] at h
    rcases List.mem_cons.mp h with h | h
    · exact Or.inr (Or.inr h)
    · exact Or.inl h

theorem foldl_push_rooted (h : Canonical kept) (parts : List String) :
    Canonical (parts.foldl (push true) kept) := by
  induction parts generalizing kept with
  | nil => exact h
  | cons p parts ih => exact ih (push_rooted h p)

theorem mem_foldl_push {kept parts : List String} {q : String}
    (h : q ∈ parts.foldl (push rooted) kept) : q ∈ kept ∨ q = ".." ∨ q ∈ parts := by
  induction parts generalizing kept with
  | nil => exact Or.inl h
  | cons p parts ih =>
    rcases ih h with h | h | h
    · rcases mem_push h with h | h | rfl
      · exact Or.inl h
      · exact Or.inr (Or.inl h)
      · exact Or.inr (Or.inr List.mem_cons_self)
    · exact Or.inr (Or.inl h)
    · exact Or.inr (Or.inr (List.mem_cons_of_mem p h))

def rootedParts (parts : List String) : List String := (parts.foldl (push true) []).reverse

variable {parts : List String}

theorem plain_rootedParts (h : ∀ p ∈ parts, '/' ∉ p.toList) :
    Plain (rootedParts parts) := by
  refine ⟨fun p hp => ?_, fun p hp => ?_⟩
  · exact foldl_push_rooted canonical_nil parts p (List.mem_reverse.mp hp)
  · rcases mem_foldl_push (List.mem_reverse.mp hp) with hp | rfl | hp
    · exact absurd hp List.not_mem_nil
    · decide
    · exact h p hp

theorem rootedParts_append_plain (parts : List String) {more : List String} (h : Canonical more) :
    rootedParts (parts ++ more) = rootedParts parts ++ more := by
  rw [rootedParts, List.foldl_append, foldl_push_plain h, List.reverse_append, List.reverse_reverse, rootedParts]

theorem rootedParts_plain (h : Canonical parts) : rootedParts parts = parts := by
  rw [rootedParts, foldl_push_plain h, List.append_nil, List.reverse_reverse]

theorem rootedParts_empty_cons (parts : List String) : rootedParts ("" :: parts) = rootedParts parts := rfl

theorem clean_rooted {path : String} (h : hasPrefix path "/" = true) :
    clean path = render (rootedParts (split path)) := by
  unfold clean
  rw [h]
  dsimp only
  rw [if_pos rfl, cleanParts_eq_foldl]
  have hne : "/" ++ joinSlash ((split path).foldl (push true) []).reverse ≠ "" := by
    intro heq
    have := congrArg String.toList heq
    simp at this
  rw [if_neg hne]
  rfl

def Stacked (kept : List String) : Prop :=
  ∃ names ups, kept = names ++ ups ∧ Canonical names ∧ ∀ p ∈ ups, p = ".."

theorem push_stacked (h : Stacked kept) (p : String) :
    Stacked (push false kept p) := by
  obtain ⟨names, ups, rfl, hnames, hups⟩ := h
  rcases stepOf_cases p with ⟨-, hstep⟩ | ⟨-, hstep⟩ | ⟨hp, -⟩
  · rw [push_stay hstep]
    exact ⟨names, ups, rfl, hnames, hups⟩
  · rw [push_up hstep]
    cases names with
    | nil =>
      cases ups with
      | nil => exact ⟨[], [".."], rfl, nofun, fun p hp => List.mem_singleton.mp hp⟩
      | cons k ks =>
        rw [List.nil_append, dropTop, if_pos (hups k List.mem_cons_self)]
        refine ⟨[], ".." :: k :: ks, rfl, nofun, fun p hp => ?_⟩
        rcases List.mem_cons.mp hp with hp | hp
        · exact hp
        · exact hups p hp
    | cons k ks =>
      rw [List.cons_append, dropTop, if_neg (hnames k List.mem_cons_self).2.2]
      exact ⟨ks, ups, rfl, fun p hp => hnames p (List.mem_cons_of_mem k hp), hups⟩
  · rw [push_plain hp]
    refine ⟨p :: names, ups, rfl, fun q hq => ?_, hups⟩
    rcases List.mem_cons.mp hq with rfl | hq
    · exact hp
    · exact hnames q hq

theorem foldl_push_stacked (h : Stacked kept) (parts : List String) :
    Stacked (parts.foldl (push false) kept) := by
  induction parts generalizing kept with
  | nil => exact h
  | cons p parts ih => exact ih (push_stacked h p)

theorem foldl_push_reverse {base kept : List String} (hkept : Stacked kept) (parts : List String) :
    ((parts.foldl (push false) kept).reverse).foldl (push true) base =
      (kept.reverse ++ parts).foldl (push true) base := by
  induction parts generalizing kept with
  | nil => rw [List.foldl_nil, List.append_nil]
  | cons p parts ih =>
    rw [List.foldl_cons, ih (push_stacked hkept p), List.foldl_append, List.foldl_append, List.foldl_cons]
    congr 1
    rcases stepOf_cases p with ⟨-, hstep⟩ | ⟨rfl, hstep⟩ | ⟨hp, -⟩
    · rw [push_stay hstep, push_stay hstep]
    · obtain ⟨names, ups, rfl, hnames, hups⟩ := hkept
      rw [push_up hstep]
      cases names with
      | nil =>
        cases ups with
        | nil => rfl
        | cons k ks =>
          -- Both sides take one more component back.
          rw [List.nil_append, dropTop, if_pos (hups k List.mem_cons_self), List.reverse_cons, List.foldl_append]
          rfl
      | cons k ks =>
        have hk := hnames k List.mem_cons_self
        rw [List.cons_append, dropTop, if_neg hk.2.2, List.reverse_cons, List.foldl_append,
          List.foldl_cons, List.foldl_nil, push_plain hk, push_up hstep, dropTop, if_neg hk.2.2]
    · rw [push_plain hp, List.reverse_cons, List.foldl_append, List.foldl_cons, List.foldl_nil]

theorem stacked_nil : Stacked [] := ⟨[], [], rfl, canonical_nil, nofun⟩

def relativeParts (parts : List String) : List String := (parts.foldl (push false) []).reverse

theorem rootedParts_append_relative (base parts : List String) :
    rootedParts (base ++ relativeParts parts) = rootedParts (base ++ parts) := by
  rw [rootedParts, rootedParts, List.foldl_append, List.foldl_append, relativeParts,
    foldl_push_reverse stacked_nil, List.reverse_nil, List.nil_append]

theorem no_slash_relativeParts (h : ∀ p ∈ parts, '/' ∉ p.toList) :
    ∀ p ∈ relativeParts parts, '/' ∉ p.toList := by
  intro p hp
  rcases mem_foldl_push (List.mem_reverse.mp hp) with hp | rfl | hp
  · exact absurd hp List.not_mem_nil
  · decide
  · exact h p hp

theorem mem_relativeParts {p : String} (h : p ∈ relativeParts parts) :
    p = ".." ∨ p ≠ "" ∧ p ≠ "." ∧ p ≠ ".." := by
  obtain ⟨names, ups, hstack, hnames, hups⟩ := foldl_push_stacked stacked_nil parts
  rw [relativeParts, hstack, List.mem_reverse, List.mem_append] at h
  rcases h with h | h
  · exact Or.inr (hnames p h)
  · exact Or.inl (hups p h)

theorem empty_not_mem_relativeParts (parts : List String) : "" ∉ relativeParts parts := by
  intro hmem
  rcases mem_relativeParts hmem with h | h
  · exact absurd h (by decide)
  · exact h.1 rfl

theorem clean_relative {path : String} (h : hasPrefix path "/" = false) :
    clean path = if relativeParts (split path) = [] then "." else joinSlash (relativeParts (split path)) := by
  have hparts : cleanParts false [] (split path) = relativeParts (split path) :=
    cleanParts_eq_foldl false [] (split path)
  unfold clean
  rw [h]
  dsimp only
  rw [if_neg Bool.false_ne_true, String.empty_append, hparts]
  by_cases hnil : relativeParts (split path) = []
  · rw [if_pos hnil, hnil]
    rfl
  · rw [if_neg hnil, if_neg]
    intro hempty
    have hsplit := split_joinSlash hnil (no_slash_relativeParts fun p hp => split_no_slash hp)
    rw [hempty] at hsplit
    exact empty_not_mem_relativeParts (split path) (hsplit ▸ by decide)

def absParts (cwd : List String) (path : String) : List String :=
  rootedParts (if hasPrefix path "/" then split path else split (render cwd) ++ split path)

theorem plain_absParts (cwd : List String) (path : String) : Plain (absParts cwd path) := by
  apply plain_rootedParts
  intro p hp
  split at hp
  · exact split_no_slash hp
  · rcases List.mem_append.mp hp with hp | hp
    · exact split_no_slash hp
    · exact split_no_slash hp

theorem render_ne_empty (p : List String) : render p ≠ "" := by
  intro h
  have := congrArg String.toList h
  simp [render] at this

theorem hasPrefix_append {a : String} (h : hasPrefix a "/" = true) (b : String) :
    hasPrefix (a ++ b) "/" = true := by
  rw [hasPrefix_iff] at h ⊢
  rw [String.toList_append]
  exact h.trans (List.prefix_append _ _)

theorem absPath_eq (cwd : List String) (path : String) : absPath cwd path = render (absParts cwd path) := by
  unfold absPath absParts
  by_cases h : hasPrefix path "/" = true
  · rw [if_pos h, if_pos h]
    exact clean_rooted h
  · rw [if_neg h, if_neg h, joinPath, if_neg (render_ne_empty cwd), String.append_assoc,
      clean_rooted (hasPrefix_append (hasPrefix_render cwd) _), ← String.append_assoc, split_append_slash]

theorem pathComponents_absPath (cwd : List String) (path : String) :
    pathComponents (absPath cwd path) = absParts cwd path := by
  rw [absPath_eq, pathComponents_render (plain_absParts cwd path)]

theorem joinPath_render (hp : ∀ c ∈ p, '/' ∉ c.toList) {more : List String}
    (hmore : Plain more) : joinPath (render p) (joinSlash more) = render (rootedParts p ++ more) := by
  rw [joinPath, if_neg (render_ne_empty p), String.append_assoc,
    clean_rooted (hasPrefix_append (hasPrefix_render p) _), ← String.append_assoc, split_append_slash]
  have hfront : ∀ parts, rootedParts (split (render p) ++ parts) = rootedParts (p ++ parts) := by
    intro parts
    rw [split_render hp, List.cons_append, rootedParts_empty_cons]
    by_cases hnil : p = []
    · rw [if_pos hnil, hnil]
      rfl
    · rw [if_neg hnil]
  rw [hfront]
  by_cases hnil : more = []
  · subst hnil
    have hempty : rootedParts (p ++ split (joinSlash [])) = rootedParts p := by
      show rootedParts (p ++ [""]) = rootedParts p
      rw [rootedParts, List.foldl_append, rootedParts]
      rfl
    rw [hempty, List.append_nil]
  · rw [split_joinSlash hnil hmore.2, rootedParts_append_plain p hmore.1]

theorem empty_mem_split {s : String} (h : hasPrefix s "/" = true) : "" ∈ split s := by
  rw [hasPrefix_iff] at h
  obtain ⟨rest, hrest⟩ := h
  have hs : s = "" ++ "/" ++ String.ofList rest := by
    rw [← String.toList_inj, ← hrest]
    simp
  exact head_of_append (by decide) hs

theorem hasPrefix_append_of_ne {a : String} (ha : a ≠ "") (h : hasPrefix a "/" = false) (b : String) :
    hasPrefix (a ++ b) "/" = false := by
  rw [← Bool.not_eq_true, hasPrefix_iff] at h ⊢
  obtain ⟨c, cs, hcs⟩ := List.exists_cons_of_ne_nil (fun hnil => ha (String.toList_inj.mp hnil))
  rw [hcs] at h
  rw [String.toList_append, hcs, List.cons_append]
  intro hpre
  exact h (List.cons_prefix_cons.mpr ⟨(List.cons_prefix_cons.mp hpre).1, List.nil_prefix⟩)

theorem absParts_joinPath (cwd : List String) (rootDir : String) {name : String} (h : Canonical (split name)) :
    absParts cwd (joinPath rootDir name) = absParts cwd rootDir ++ split name := by
  have hname : name ≠ "" := ne_empty_of_canonical h
  have hrel : hasPrefix name "/" = false :=
    not_beginning h (p := "") (by decide) (Or.inl rfl)
  have hplain : Plain (split name) := ⟨h, fun p hp => split_no_slash hp⟩
  by_cases hempty : rootDir = ""
  · have hcwd : hasPrefix "" "/" = false := by decide
    rw [joinPath, if_pos hempty, if_neg hname, clean_canonical h, hempty, absParts, absParts,
      if_neg (by rw [hrel]; decide), if_neg (by rw [hcwd]; decide), rootedParts_append_plain _ h]
    have hnone : rootedParts (split (render cwd) ++ split "") = rootedParts (split (render cwd)) := by
      rw [rootedParts, List.foldl_append, rootedParts]
      rfl
    rw [hnone]
  · rw [joinPath, if_neg hempty]
    by_cases hroot : hasPrefix rootDir "/" = true
    · rw [String.append_assoc, clean_rooted (hasPrefix_append hroot _), ← String.append_assoc,
        split_append_slash, rootedParts_append_plain _ h, absParts, absParts, if_pos hroot,
        if_pos (hasPrefix_render _)]
      have hp : Plain (rootedParts (split rootDir) ++ split name) :=
        (plain_rootedParts fun p hp => split_no_slash hp).append hplain
      rw [split_render hp.2, rootedParts_empty_cons]
      rw [if_neg (by simp [split_ne_nil]), rootedParts_plain hp.1]
    · have hroot : hasPrefix rootDir "/" = false := Bool.eq_false_of_not_eq_true hroot
      have hparts : relativeParts (split rootDir ++ split name) = relativeParts (split rootDir) ++ split name := by
        rw [relativeParts, List.foldl_append, foldl_push_plain h, List.reverse_append,
          List.reverse_reverse, relativeParts]
      have hne : relativeParts (split rootDir) ++ split name ≠ [] := by simp [split_ne_nil]
      have hno : ∀ p ∈ relativeParts (split rootDir) ++ split name, '/' ∉ p.toList := by
        rw [← hparts, ← split_append_slash]
        exact no_slash_relativeParts fun p hp => split_no_slash hp
      have hjoined : split (joinSlash (relativeParts (split rootDir) ++ split name)) =
          relativeParts (split rootDir) ++ split name := split_joinSlash hne hno
      have hclean : clean (rootDir ++ "/" ++ name) = joinSlash (relativeParts (split rootDir) ++ split name) := by
        rw [String.append_assoc, clean_relative (hasPrefix_append_of_ne hempty hroot _),
          ← String.append_assoc, split_append_slash, hparts, if_neg hne]
      have hnot : hasPrefix (joinSlash (relativeParts (split rootDir) ++ split name)) "/" = false := by
        refine Bool.eq_false_of_not_eq_true fun hpre => ?_
        have hmem := empty_mem_split hpre
        rw [hjoined, ← hparts] at hmem
        exact empty_not_mem_relativeParts _ hmem
      rw [hclean, absParts, absParts, if_neg (by rw [hnot]; decide), if_neg (by rw [hroot]; decide),
        hjoined, ← hparts, rootedParts_append_relative, ← List.append_assoc, rootedParts_append_plain _ h]

theorem cleanRequest_canonical {req : String} (hne : cleanRequest req ≠ "")
    (hup : ¬ (hasPrefix (cleanRequest req) "../" = true ∨ cleanRequest req = "..")) :
    Canonical (split (cleanRequest req)) := by
  unfold cleanRequest at hne hup ⊢
  by_cases h : hasPrefix req "/" = true
  · -- An absolute request: only its leading separator goes.
    have hplain : Plain (rootedParts (split req)) := plain_rootedParts fun p hp => split_no_slash hp
    rw [clean_rooted h] at hne hup ⊢
    by_cases hnil : rootedParts (split req) = []
    · rw [hnil] at hne
      exact absurd (by decide) hne
    · have htail : String.ofList ((render (rootedParts (split req))).toList.drop 1) =
          joinSlash (rootedParts (split req)) := by
        apply String.toList_inj.mp
        simp [render]
      have hnot : ¬ (render (rootedParts (split req)) = "." ∨ render (rootedParts (split req)) = "/") := by
        rintro (heq | heq)
        · have := congrArg String.toList heq
          simp [render] at this
        · exact hnil (render_inj hplain ⟨canonical_nil, nofun⟩ heq)
      dsimp only
      rw [if_neg hnot, if_pos (hasPrefix_render _), htail, split_joinSlash hnil hplain.2]
      exact hplain.1
  · have h : hasPrefix req "/" = false := Bool.eq_false_of_not_eq_true h
    rw [clean_relative h] at hne hup ⊢
    by_cases hnil : relativeParts (split req) = []
    · rw [if_pos hnil] at hne
      exact absurd (by decide) hne
    · rw [if_neg hnil] at hne hup ⊢
      have hsplit := split_joinSlash hnil (no_slash_relativeParts fun p hp => split_no_slash hp)
      have hroot : hasPrefix (joinSlash (relativeParts (split req))) "/" = false := by
        refine Bool.eq_false_of_not_eq_true fun hpre => ?_
        have hmem := empty_mem_split hpre
        rw [hsplit] at hmem
        exact empty_not_mem_relativeParts _ hmem
      have hkeep : (if joinSlash (relativeParts (split req)) = "." ∨
          joinSlash (relativeParts (split req)) = "/" then "" else joinSlash (relativeParts (split req))) =
          joinSlash (relativeParts (split req)) := by
        refine if_neg fun heq => ?_
        rcases heq with heq | heq
        · rw [heq] at hsplit
          have hdot : "." ∈ relativeParts (split req) := hsplit ▸ by decide
          rcases mem_relativeParts hdot with h | h
          · exact absurd h (by decide)
          · exact h.2.1 rfl
        · rw [heq] at hroot
          exact absurd hroot (by decide)
      dsimp only at hne hup ⊢
      rw [hkeep, if_neg (by rw [hroot]; decide)] at hup ⊢
      rw [hsplit]
      -- The stack is names on top of ".."; there is none, or the text would begin with it.
      obtain ⟨names, ups, hstack, hnames, hups⟩ := foldl_push_stacked stacked_nil (split req)
      have hR : relativeParts (split req) = ups.reverse ++ names.reverse := by
        rw [relativeParts, hstack, List.reverse_append]
      cases hu : ups.reverse with
      | nil =>
        rw [hR, hu, List.nil_append]
        intro p hp
        exact hnames p (List.mem_reverse.mp hp)
      | cons u us =>
        exfalso
        obtain rfl : u = ".." := hups u (List.mem_reverse.mp (hu ▸ List.mem_cons_self))
        rw [hR, hu, List.cons_append] at hup
        by_cases hrest : us ++ names.reverse = []
        · rw [hrest] at hup
          exact hup (Or.inr rfl)
        · rw [joinSlash_cons _ hrest] at hup
          refine hup (Or.inl (hasPrefix_iff.mpr ?_))
          rw [String.toList_append]
          exact List.prefix_append _ _

end BirakFormal
