import BirakFormal.Syncer.Apply
import BirakFormal.Store.Portable

/-!
# Names that are indexed and names that are accepted

The watcher indexes what its ignore rule and the store let through. A peer, and the source when
it is asked for the file, apply rules of their own. They agree on every name whose components
spell no reserved name in another letter case.
-/

namespace BirakFormal

def Canonical (parts : List String) : Prop := ∀ p ∈ parts, p ≠ "" ∧ p ≠ "." ∧ p ≠ ".."

theorem canonical_of_go {fold : String → String} {name folded original : String}
    {parts : List String} {ps : List (String × String)}
    (h : nameParts.go fold name folded original parts = .ok ps) : Canonical parts := by
  induction parts generalizing folded original ps with
  | nil => nofun
  | cons part parts ih =>
    unfold nameParts.go at h
    split at h
    · cases h
    · next hpart =>
      dsimp only at h
      split at h
      · next hrest =>
        simp only [not_or] at hpart
        intro p hp
        rcases List.mem_cons.mp hp with rfl | hp
        · exact hpart
        · exact ih hrest p hp
      · cases h

theorem canonical_of_bindName {fold : String → String} {names names' : Spellings} {name : String}
    (h : bindName fold names name = .ok names') : Canonical (split name) := by
  obtain ⟨⟨ps, hps, -⟩, -⟩ := bindName_ok h
  unfold nameParts at hps
  split at hps
  · cases hps
  · exact canonical_of_go hps

theorem cleanParts_canonical {parts kept : List String} (h : Canonical parts) :
    cleanParts false kept parts = kept.reverse ++ parts := by
  induction parts generalizing kept with
  | nil =>
    unfold cleanParts
    rw [List.append_nil]
  | cons p parts ih =>
    obtain ⟨hempty, hdot, hdots⟩ := h p List.mem_cons_self
    unfold cleanParts
    rw [if_neg (by simp [hempty, hdot]), if_neg hdots, ih fun q hq => h q (List.mem_cons_of_mem p hq)]
    simp

theorem head_of_append {name p rest : String} (hp : '/' ∉ p.toList) (h : name = p ++ "/" ++ rest) :
    p ∈ split name := by
  unfold split
  rw [h, String.append_assoc, String.toList_append, String.toList_append]
  show p ∈ (splitSlash (p.toList ++ '/' :: rest.toList)).map String.ofList
  rw [splitSlash_append hp, List.map_cons, String.ofList_toList]
  exact List.mem_cons_self

section
variable {name : String} (hc : Canonical (split name))

include hc

theorem ne_empty_of_canonical : name ≠ "" := by
  rintro rfl
  exact (hc "" (by decide)).1 rfl

theorem not_beginning {p : String} (hp : '/' ∉ p.toList) (hbad : p = "" ∨ p = "..") :
    hasPrefix name (p ++ "/") = false := by
  rw [← Bool.not_eq_true, hasPrefix_iff]
  rintro ⟨rest, hrest⟩
  have hname : name = p ++ "/" ++ String.ofList rest := by
    apply String.toList_inj.mp
    rw [String.toList_append, String.toList_ofList]
    exact hrest.symm
  obtain ⟨hempty, -, hdots⟩ := hc p (head_of_append hp hname)
  rcases hbad with h | h
  · exact hempty h
  · exact hdots h

theorem clean_canonical : clean name = name := by
  have hroot : hasPrefix name "/" = false := not_beginning hc (p := "") (by decide) (Or.inl rfl)
  have hne := ne_empty_of_canonical hc
  unfold clean
  simp only [hroot, Bool.false_eq_true, if_false]
  rw [cleanParts_canonical hc, List.reverse_nil, List.nil_append, joinSlash_split, String.empty_append, if_neg hne]

theorem isLocal_canonical : isLocal name = true := by
  have hroot : hasPrefix name "/" = false := not_beginning hc (p := "") (by decide) (Or.inl rfl)
  have hup : hasPrefix name "../" = false := not_beginning hc (p := "..") (by decide) (Or.inr rfl)
  have hdots : (split name).any (fun p => p = "." ∨ p = "..") = false := by
    rw [List.any_eq_false]
    intro p hp
    obtain ⟨-, hdot, hdots⟩ := hc p hp
    simp [hdot, hdots]
  have hname : name ≠ ".." := by
    rintro rfl
    exact (hc ".." (by decide)).2.2 rfl
  unfold isLocal
  rw [if_neg (by simp [hroot, ne_empty_of_canonical hc]), hdots]
  simp [hname, hup]

end

theorem base_joinSlash {parts : List String} {p : String} (hslash : ∀ q ∈ parts ++ [p], '/' ∉ q.toList)
    (hp : p ≠ "") : base (joinSlash (parts ++ [p])) = p := by
  have hsplit : split (joinSlash (parts ++ [p])) = parts ++ [p] := split_joinSlash (by simp) hslash
  have hne : joinSlash (parts ++ [p]) ≠ "" := by
    intro hempty
    rw [hempty] at hsplit
    have hmem : p ∈ split "" := by
      rw [hsplit]
      exact List.mem_append_right _ List.mem_cons_self
    rw [show split "" = [""] by decide, List.mem_singleton] at hmem
    exact hp hmem
  unfold base
  rw [if_neg hne, hsplit, List.reverse_append]
  simp [hp]

theorem component_base {name p : String} (hc : Canonical (split name)) (hp : p ∈ split name) :
    ∃ a, (a = name ∨ a ∈ parents name) ∧ base a = p := by
  obtain ⟨before, after, hsplit⟩ := List.append_of_mem hp
  have hslash : ∀ q ∈ before ++ [p], '/' ∉ q.toList := by
    intro q hq
    have hmem : q ∈ split name := by
      rw [hsplit]
      rcases List.mem_append.mp hq with hq | hq
      · exact List.mem_append_left _ hq
      · rw [List.mem_singleton.mp hq]
        exact List.mem_append_right _ List.mem_cons_self
    exact split_no_slash hmem
  refine ⟨joinSlash (before ++ [p]), ?_, base_joinSlash hslash (hc p hp).1⟩
  have hname := joinSlash_split name
  rw [hsplit, ← List.singleton_append, ← List.append_assoc] at hname
  by_cases hafter : after = []
  · left
    rw [hafter, List.append_nil] at hname
    exact hname
  · right
    rw [joinSlash_append (by simp) hafter] at hname
    rw [mem_parents, ← hname, String.toList_append, String.toList_append]
    exact List.prefix_append _ _

theorem matchStar_of_component {p part name : String} (hpart : part ∈ split name)
    (h : hasPrefix part p = true) : matchStar p part = true := by
  unfold matchStar
  rw [h, Bool.true_and, Bool.not_eq_true', ← Bool.not_eq_true, List.contains_iff_mem]
  intro hmem
  exact split_no_slash hpart (List.mem_of_mem_drop hmem)

theorem shouldIgnore_of_base {patterns : String → Bool} {a part name : String}
    (hpart : part ∈ split name) (hbase : base a = part) (h : isScratchFile part = true) :
    shouldIgnore patterns a = true := by
  unfold isScratchFile at h
  unfold shouldIgnore
  rw [hbase]
  rcases Bool.or_eq_true_iff.mp h with h | h
  · simp [matchStar_of_component hpart h]
  · simp [matchStar_of_component hpart h]

/-- A file at `n` is indexed: no rule of the watcher excludes it or a directory above it, and the
store takes the name. A volume has no name with a NUL. -/
structure Indexable (fold : String → String) (patterns : String → Bool) (names : Spellings)
    (n : String) : Prop where
  noNul : '\x00' ∉ n.toList
  kept : shouldIgnore patterns n = false
  keptAbove : ∀ a ∈ parents n, shouldIgnore patterns a = false
  bound : ∃ names', bindName fold names n = .ok names'

def PlainlySpelled (n : String) : Prop :=
  (∀ p ∈ split n, isScratchSpelling p = true → isScratchFile p = true) ∧
    ∀ p, (split n).head? = some p → isReserved p = true → p = ".birak"

section
variable {fold : String → String} {patterns : String → Bool} {names : Spellings} {n : String}

theorem Indexable.canonical (h : Indexable fold patterns names n) : Canonical (split n) := by
  obtain ⟨names', hbind⟩ := h.bound
  exact canonical_of_bindName hbind

theorem Indexable.not_scratch (h : Indexable fold patterns names n) {p : String}
    (hp : p ∈ split n) : isScratchFile p = false := by
  obtain ⟨a, ha, hbase⟩ := component_base h.canonical hp
  rw [← Bool.not_eq_true]
  intro hscratch
  have hignored : shouldIgnore patterns a = true := shouldIgnore_of_base hp hbase hscratch
  rcases ha with rfl | ha
  · rw [h.kept] at hignored
    cases hignored
  · rw [h.keptAbove a ha] at hignored
    cases hignored

theorem Indexable.not_private (h : Indexable fold patterns names n) : (split n).head? ≠ some ".birak" := by
  intro hhead
  have hkept := h.kept
  unfold shouldIgnore at hkept
  simp [hhead] at hkept

theorem shouldIgnore_none {a : String} (h : shouldIgnore patterns a = false) :
    shouldIgnore (fun _ => false) a = false := by
  unfold shouldIgnore at h ⊢
  simp only [Bool.or_eq_false_iff] at h ⊢
  exact ⟨⟨h.1.1, trivial⟩, by simp⟩

theorem Indexable.validateSyncName (h : Indexable fold patterns names n) :
    validateSyncName n = .ok () := by
  have hc := h.canonical
  have hdot : n ≠ "." := by
    rintro rfl
    exact (hc "." (by decide)).2.1 rfl
  have hscratch : (split n).any isScratchFile = false := by
    rw [List.any_eq_false]
    intro p hp
    rw [h.not_scratch hp]
    simp
  unfold BirakFormal.validateSyncName
  rw [if_neg, if_neg, if_neg]
  · rw [hscratch]
    simp
  · rw [shouldIgnore_none h.kept]
    simp
  · rw [isLocal_canonical hc, clean_canonical hc, List.contains_iff_mem]
    simp [hdot, h.noNul]

theorem Indexable.validateClientPath (h : Indexable fold patterns names n) (hs : PlainlySpelled n) :
    validateClientPath patterns n = .ok () := by
  have hscratch : (split n).any isScratchSpelling = false := by
    rw [List.any_eq_false]
    intro p hp hspell
    have hfile := hs.1 p hp hspell
    rw [h.not_scratch hp] at hfile
    cases hfile
  have hreserved : (split n).head?.any isReserved = false := by
    cases hhead : (split n).head? with
    | none => rfl
    | some p =>
      rw [Option.any_some, ← Bool.not_eq_true]
      intro hres
      rw [hs.2 p hhead hres] at hhead
      exact h.not_private hhead
  exact validateClientPath_ok_iff.mpr ⟨Or.inr h.kept, h.noNul, hreserved, hscratch⟩

end

theorem indexable_docs : Indexable id (fun _ => false) .empty "docs/a" := by
  refine ⟨by decide, by decide, by decide, ?_⟩
  apply bindName_of_check (s := {})
  decide

end BirakFormal
