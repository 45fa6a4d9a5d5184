import BirakFormal.Shared.FileTrees

/-!
# Names of the synchronized namespace

A name is a slash-separated string. `NamespaceConflict` in the source compares two names
by string prefixes; here the same relation is the strict ancestor order of a file tree,
so a volume can be a `FileTree` keyed by names.
-/

namespace BirakFormal

open FileTrees

/-- `strings.HasPrefix(s, p)`. -/
def hasPrefix (s p : String) : Bool := p.toList.isPrefixOf s.toList

theorem hasPrefix_iff {s p : String} : hasPrefix s p = true ↔ p.toList <+: s.toList :=
  List.isPrefixOf_iff_prefix

def namespaceConflict (a b : String) : Bool := hasPrefix a (b ++ "/") || hasPrefix b (a ++ "/")

def splitSlash : List Char → List (List Char)
  | [] => [[]]
  | c :: cs =>
    if c = '/' then [] :: splitSlash cs
    else match splitSlash cs with
      | [] => [[c]]
      | p :: ps => (c :: p) :: ps

/-- `strings.Split(name, "/")`. -/
def split (name : String) : List String := (splitSlash name.toList).map String.ofList

/-- `strings.Join(parts, "/")`. -/
def joinSlash : List String → String
  | [] => ""
  | [p] => p
  | p :: ps => p ++ "/" ++ joinSlash ps

theorem splitSlash_ne_nil (cs : List Char) : splitSlash cs ≠ [] := by
  cases cs with
  | nil => nofun
  | cons c cs =>
    unfold splitSlash
    split
    · nofun
    · split <;> nofun

theorem splitSlash_cons {c : Char} (hc : c ≠ '/') {cs p : List Char} {ps : List (List Char)}
    (h : splitSlash cs = p :: ps) : splitSlash (c :: cs) = (c :: p) :: ps := by
  rw [splitSlash, if_neg hc, h]

theorem splitSlash_no_slash {cs p : List Char} (h : p ∈ splitSlash cs) : '/' ∉ p := by
  induction cs generalizing p with
  | nil =>
    rw [List.mem_singleton.mp h]
    exact List.not_mem_nil
  | cons c cs ih =>
    by_cases hc : c = '/'
    · rw [splitSlash, if_pos hc] at h
      rcases List.mem_cons.mp h with rfl | hp
      · exact List.not_mem_nil
      · exact ih hp
    · obtain ⟨q, qs, hq⟩ := List.exists_cons_of_ne_nil (splitSlash_ne_nil cs)
      rw [splitSlash_cons hc hq] at h
      rw [hq] at ih
      rcases List.mem_cons.mp h with rfl | hp
      · intro hmem
        rcases List.mem_cons.mp hmem with heq | hin
        · exact hc heq.symm
        · exact ih List.mem_cons_self hin
      · exact ih (List.mem_cons_of_mem q hp)

theorem splitSlash_of_no_slash {p : List Char} (h : '/' ∉ p) : splitSlash p = [p] := by
  induction p with
  | nil => rfl
  | cons c p ih =>
    exact splitSlash_cons (fun hc => h (hc ▸ List.mem_cons_self))
      (ih fun hin => h (List.mem_cons_of_mem c hin))

theorem splitSlash_append {p : List Char} (h : '/' ∉ p) (cs : List Char) :
    splitSlash (p ++ '/' :: cs) = p :: splitSlash cs := by
  induction p with
  | nil =>
    show splitSlash ('/' :: cs) = _
    rw [splitSlash, if_pos rfl]
  | cons c p ih =>
    exact splitSlash_cons (fun hc => h (hc ▸ List.mem_cons_self))
      (ih fun hin => h (List.mem_cons_of_mem c hin))

theorem split_ne_nil (name : String) : split name ≠ [] := by
  intro h
  exact splitSlash_ne_nil _ (List.map_eq_nil_iff.mp h)

theorem split_no_slash {name part : String} (h : part ∈ split name) : '/' ∉ part.toList := by
  obtain ⟨p, hp, rfl⟩ := List.mem_map.mp h
  rw [String.toList_ofList]
  exact splitSlash_no_slash hp

variable {ps : List String}

theorem joinSlash_cons (p : String) (h : ps ≠ []) :
    joinSlash (p :: ps) = p ++ "/" ++ joinSlash ps := by
  cases ps with
  | nil => exact absurd rfl h
  | cons q qs => rfl

theorem joinSlash_concat (h : ps ≠ []) (p : String) :
    joinSlash (ps ++ [p]) = joinSlash ps ++ "/" ++ p := by
  induction ps with
  | nil => exact absurd rfl h
  | cons q qs ih =>
    by_cases hqs : qs = []
    · subst hqs
      rfl
    · rw [List.cons_append, joinSlash_cons q (by simp), ih hqs, joinSlash_cons q hqs]
      simp only [String.append_assoc]

theorem joinSlash_append {ps qs : List String} (hp : ps ≠ []) (hq : qs ≠ []) :
    joinSlash (ps ++ qs) = joinSlash ps ++ "/" ++ joinSlash qs := by
  induction ps with
  | nil => exact absurd rfl hp
  | cons p ps ih =>
    by_cases hps : ps = []
    · subst hps
      exact joinSlash_cons p hq
    · rw [List.cons_append, joinSlash_cons p (by simp [hps]), ih hps, joinSlash_cons p hps]
      simp only [String.append_assoc]

theorem joinSlash_split (name : String) : joinSlash (split name) = name := by
  have hchars : ∀ cs : List Char, joinSlash ((splitSlash cs).map String.ofList) = String.ofList cs := by
    intro cs
    induction cs with
    | nil => rfl
    | cons c cs ih =>
      have hne : (splitSlash cs).map String.ofList ≠ [] := by simpa using splitSlash_ne_nil cs
      by_cases hc : c = '/'
      · rw [splitSlash, if_pos hc, List.map_cons, joinSlash_cons _ hne, ih, hc]
        apply String.toList_inj.mp
        simp
      · obtain ⟨p, ps, hp⟩ := List.exists_cons_of_ne_nil (splitSlash_ne_nil cs)
        rw [splitSlash_cons hc hp]
        rw [hp] at ih
        have hhead : ∀ qs : List String, joinSlash (String.ofList (c :: p) :: qs) =
            String.ofList [c] ++ joinSlash (String.ofList p :: qs) := by
          intro qs
          cases qs with
          | nil =>
            apply String.toList_inj.mp
            simp [joinSlash]
          | cons q qs =>
            apply String.toList_inj.mp
            simp [joinSlash]
        rw [List.map_cons, hhead, ← List.map_cons, ih]
        apply String.toList_inj.mp
        simp
  have h := hchars name.toList
  rwa [String.ofList_toList] at h

theorem split_joinSlash (hne : ps ≠ []) (h : ∀ p ∈ ps, '/' ∉ p.toList) :
    split (joinSlash ps) = ps := by
  induction ps with
  | nil => exact absurd rfl hne
  | cons p ps ih =>
    have hp := h p List.mem_cons_self
    by_cases hps : ps = []
    · subst hps
      show split p = [p]
      rw [split, splitSlash_of_no_slash hp, List.map_singleton, String.ofList_toList]
    · have hrest := ih hps fun q hq => h q (List.mem_cons_of_mem p hq)
      unfold split at hrest ⊢
      rw [joinSlash_cons p hps, String.append_assoc, String.toList_append, String.toList_append]
      show (splitSlash (p.toList ++ '/' :: (joinSlash ps).toList)).map String.ofList = p :: ps
      rw [splitSlash_append hp, List.map_cons, String.ofList_toList, hrest]

def cuts : List Char → List (List Char)
  | [] => []
  | c :: cs => (if c = '/' then [[]] else []) ++ (cuts cs).map (c :: ·)

theorem mem_cuts {p cs : List Char} : p ∈ cuts cs ↔ p ++ ['/'] <+: cs := by
  induction cs generalizing p with
  | nil => simp [cuts]
  | cons c cs ih =>
    cases p with
    | nil =>
      by_cases h : c = '/'
      · simp [cuts, h]
      · simp [cuts, h, Ne.symm h]
    | cons d p =>
      have hc : (d :: p) ∈ cuts (c :: cs) ↔ d = c ∧ p ∈ cuts cs := by
        by_cases h : c = '/' <;> simp [cuts, h, eq_comm, and_comm]
      rw [hc, ih]
      simp [List.cons_prefix_cons]

/-- `path.Dir` applied again and again until it answers ".". -/
def parents (name : String) : List String := (cuts name.toList).reverse.map String.ofList

theorem mem_parents {a name : String} : a ∈ parents name ↔ a.toList ++ ['/'] <+: name.toList := by
  rw [← mem_cuts]
  simp only [parents, List.mem_map, List.mem_reverse]
  constructor
  · rintro ⟨p, hp, rfl⟩
    simpa using hp
  · exact fun h => ⟨a.toList, h, by simp⟩

/-- Names form a tree under their slashes. -/
instance : TreeOrder String where
  ancestors := parents
  ancestors_trans := by
    intro p a b ha hb
    rw [mem_parents] at *
    exact hb.trans ((List.prefix_append _ _).trans ha)
  ancestors_irrefl := by
    intro p h
    have := (mem_parents.mp h).length_le
    simp only [List.length_append, List.length_singleton] at this
    omega
  ancestors_linear := by
    intro p a b ha hb
    rw [mem_parents] at ha hb
    have shorter : ∀ {x y : String}, x.toList ++ ['/'] <+: p.toList →
        y.toList ++ ['/'] <+: p.toList → x.toList.length < y.toList.length → x ∈ parents y := by
      intro x y hx hy hlt
      refine mem_parents.mpr (List.prefix_of_prefix_length_le hx
        ((List.prefix_append _ _).trans hy) ?_)
      simpa using Nat.succ_le_of_lt hlt
    rcases Nat.lt_trichotomy a.toList.length b.toList.length with h | h | h
    · exact Or.inr (Or.inl (shorter ha hb h))
    · left
      have hpre := List.prefix_of_prefix_length_le ((List.prefix_append _ _).trans ha)
        ((List.prefix_append _ _).trans hb) (Nat.le_of_eq h)
      exact String.toList_inj.mp (hpre.eq_of_length h)
    · exact Or.inr (Or.inr (shorter hb ha h))

variable {n a : String}

theorem beneath_iff : Beneath n a ↔ hasPrefix n (a ++ "/") = true := by
  rw [hasPrefix_iff, String.toList_append]
  exact mem_parents

theorem split_prefix_of_beneath (h : Beneath n a) : split a <+: split n := by
  obtain ⟨rest, hrest⟩ := mem_parents.mp h
  have hn : n = joinSlash (split a ++ split (String.ofList rest)) := by
    rw [joinSlash_append (split_ne_nil a) (split_ne_nil _), joinSlash_split, joinSlash_split]
    apply String.toList_inj.mp
    rw [← hrest]
    simp
  have hno : ∀ p ∈ split a ++ split (String.ofList rest), '/' ∉ p.toList := by
    intro p hp
    rcases List.mem_append.mp hp with hp | hp
    · exact split_no_slash hp
    · exact split_no_slash hp
  rw [hn, split_joinSlash (by simp [split_ne_nil]) hno]
  exact List.prefix_append _ _

theorem split_prefix_iff : split a <+: split n ↔ a = n ∨ Beneath n a := by
  constructor
  · rintro ⟨rest, hrest⟩
    by_cases hnil : rest = []
    · left
      rw [← joinSlash_split a, ← joinSlash_split n, ← hrest, hnil, List.append_nil]
    · right
      rw [beneath_iff, hasPrefix_iff]
      have hn : n = a ++ "/" ++ joinSlash rest := by
        rw [← joinSlash_split n, ← hrest, joinSlash_append (split_ne_nil a) hnil, joinSlash_split]
      have htext : n.toList = (a ++ "/").toList ++ (joinSlash rest).toList := by
        rw [hn, String.toList_append]
      rw [htext]
      exact List.prefix_append _ _
  · rintro (rfl | h)
    · exact List.prefix_rfl
    · exact split_prefix_of_beneath h

theorem namespaceConflict_iff {a b : String} :
    namespaceConflict a b = true ↔ Beneath a b ∨ Beneath b a := by
  simp [namespaceConflict, beneath_iff]

theorem namespaceConflict_ne {a b : String} (h : namespaceConflict a b = true) : a ≠ b := by
  rcases namespaceConflict_iff.mp h with h | h
  · exact h.ne
  · exact h.ne.symm

theorem not_beneath_of_no_slash (h : '/' ∉ n.toList) : ¬ Beneath n a := by
  intro hb
  exact h ((mem_parents.mp hb).subset (by simp))

theorem slash_mem_of_beneath (h : Beneath n a) : '/' ∈ n.toList :=
  (mem_parents.mp h).subset (by simp)

example : parents "a/b/c" = ["a/b", "a"] := by decide

end BirakFormal
