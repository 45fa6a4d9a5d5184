import Mathlib

/-!
# Framed texts

A sequence of fields written one after the other can be read back when each field ends at a
separator that no field contains.
-/

namespace Framing

variable {α : Type} {sep : α}

theorem cut_inj {a b x y : List α} (ha : sep ∉ a) (hb : sep ∉ b) (h : a ++ sep :: x = b ++ sep :: y) :
    a = b ∧ x = y := by
  induction a generalizing b with
  | nil =>
    cases b with
    | nil => exact ⟨rfl, (List.cons.inj h).2⟩
    | cons d b => exact absurd ((List.cons.inj h).1 ▸ List.mem_cons_self) hb
  | cons c a ih =>
    cases b with
    | nil => exact absurd ((List.cons.inj h).1 ▸ List.mem_cons_self) ha
    | cons d b =>
      obtain ⟨rfl, htail⟩ := List.cons.inj h
      obtain ⟨rfl, hxy⟩ := ih (fun hm => ha (List.mem_cons_of_mem c hm)) (fun hm => hb (List.mem_cons_of_mem c hm)) htail
      exact ⟨rfl, hxy⟩

def cut [DecidableEq α] (sep : α) (s : List α) : Option (List α × List α) :=
  if sep ∈ s then some (s.takeWhile (· ≠ sep), (s.dropWhile (· ≠ sep)).tail) else none

theorem cut_append [DecidableEq α] {a x : List α} (ha : sep ∉ a) : cut sep (a ++ sep :: x) = some (a, x) := by
  have hne : ∀ c ∈ a, (decide (c ≠ sep)) = true := fun c hc => decide_eq_true fun h => ha (h ▸ hc)
  rw [cut, if_pos (List.mem_append_right a List.mem_cons_self), List.takeWhile_append_of_pos hne,
    List.dropWhile_append_of_pos hne]
  simp

theorem cut_eq_none [DecidableEq α] {s : List α} : cut sep s = none ↔ sep ∉ s := by
  unfold cut
  split
  · next h => exact ⟨nofun, fun hno => absurd h hno⟩
  · next h => exact ⟨fun _ => h, fun _ => rfl⟩

theorem eq_of_cut [DecidableEq α] {s first last : List α} (h : cut sep s = some (first, last)) :
    sep ∉ first ∧ s = first ++ sep :: last := by
  have hmem : sep ∈ s := by
    apply Decidable.byContradiction
    intro hno
    rw [cut_eq_none.mpr hno] at h
    cases h
  obtain ⟨a, b, rfl, ha⟩ := List.eq_append_cons_of_mem hmem
  rw [cut_append ha] at h
  cases h
  exact ⟨ha, rfl⟩

theorem cut_isInfix [DecidableEq α] {s first last : List α} (h : cut sep s = some (first, last)) :
    first <:+: s ∧ last <:+: s := by
  unfold cut at h
  split at h
  · obtain ⟨rfl, rfl⟩ := Prod.mk.inj (Option.some.inj h)
    exact ⟨(List.takeWhile_prefix _).isInfix, ((List.tail_suffix _).trans (List.dropWhile_suffix _)).isInfix⟩
  · cases h

def frame (sep : α) (fields : List (List α)) : List α := fields.flatMap fun field => field ++ [sep]

@[simp] theorem frame_nil : frame sep [] = [] := rfl

theorem frame_cons (field : List α) (fields : List (List α)) :
    frame sep (field :: fields) = field ++ sep :: frame sep fields := by
  simp [frame]

variable {l m : List (List α)}

theorem frame_inj (hl : ∀ x ∈ l, sep ∉ x) (hm : ∀ x ∈ m, sep ∉ x) (h : frame sep l = frame sep m) : l = m := by
  induction l generalizing m with
  | nil =>
    cases m with
    | nil => rfl
    | cons y m =>
      rw [frame_nil, frame_cons] at h
      exact absurd h (by simp)
  | cons x l ih =>
    cases m with
    | nil =>
      rw [frame_nil, frame_cons] at h
      exact absurd h (by simp)
    | cons y m =>
      rw [frame_cons, frame_cons] at h
      obtain ⟨rfl, hrest⟩ := cut_inj (hl x List.mem_cons_self) (hm y List.mem_cons_self) h
      rw [ih (fun z hz => hl z (List.mem_cons_of_mem _ hz)) (fun z hz => hm z (List.mem_cons_of_mem _ hz)) hrest]

theorem cut_last_inj {a b x y : List α} (hx : sep ∉ x) (hy : sep ∉ y) (h : a ++ sep :: x = b ++ sep :: y) :
    a = b ∧ x = y := by
  have hrev : x.reverse ++ sep :: a.reverse = y.reverse ++ sep :: b.reverse := by
    simpa using congrArg List.reverse h
  obtain ⟨hxy, hab⟩ := cut_inj (by simpa using hx) (by simpa using hy) hrev
  exact ⟨List.reverse_inj.mp hab, List.reverse_inj.mp hxy⟩

section

theorem join_cons_cons (x y : List α) (l : List (List α)) :
    [sep].intercalate (x :: y :: l) = x ++ sep :: [sep].intercalate (y :: l) := by
  simp [List.intercalate, List.intersperse]

theorem not_mem_join {c : α} (hc : c ≠ sep) {l : List (List α)} (hl : ∀ x ∈ l, c ∉ x) : c ∉ [sep].intercalate l := by
  induction l with
  | nil => exact List.not_mem_nil
  | cons x l ih =>
    have hx := hl x List.mem_cons_self
    cases l with
    | nil => simpa [List.intercalate] using hx
    | cons y l =>
      rw [join_cons_cons]
      simp only [List.mem_append, List.mem_cons, not_or]
      exact ⟨hx, hc, ih fun z hz => hl z (List.mem_cons_of_mem x hz)⟩

theorem join_ne_nil {l : List (List α)} (hl : ∀ x ∈ l, x ≠ []) (hne : l ≠ []) : [sep].intercalate l ≠ [] := by
  cases l with
  | nil => exact absurd rfl hne
  | cons x l =>
    have hx := hl x List.mem_cons_self
    cases l with
    | nil => simpa [List.intercalate] using hx
    | cons y l =>
      rw [join_cons_cons]
      exact fun h => hx (List.append_eq_nil_iff.mp h).1

variable [DecidableEq α]

theorem not_mem_of_mem_splitOn {s : List α} {field : List α} (h : field ∈ s.splitOn sep) : sep ∉ field := by
  induction s generalizing field with
  | nil =>
    rw [List.splitOn_nil, List.mem_singleton] at h
    rw [h]
    exact List.not_mem_nil
  | cons c s ih =>
    rw [List.splitOn_cons_eq_if_modifyHead] at h
    split at h
    · rcases List.mem_cons.mp h with rfl | h
      · exact List.not_mem_nil
      · exact ih h
    · next hc =>
      have hne : c ≠ sep := by simpa using hc
      cases hs : s.splitOn sep with
      | nil => exact absurd hs (List.splitOn_ne_nil sep s)
      | cons front rest =>
        rw [hs, List.modifyHead_cons] at h
        rw [hs] at ih
        rcases List.mem_cons.mp h with rfl | h
        · simp only [List.mem_cons, not_or]
          exact ⟨Ne.symm hne, ih List.mem_cons_self⟩
        · exact ih (List.mem_cons_of_mem _ h)

theorem join_inj (hl : ∀ x ∈ l, sep ∉ x) (hm : ∀ x ∈ m, sep ∉ x) (hln : l ≠ []) (hmn : m ≠ [])
    (h : [sep].intercalate l = [sep].intercalate m) : l = m := by
  rw [← List.splitOn_intercalate sep hl hln, h, List.splitOn_intercalate sep hm hmn]

theorem join_inj_of_ne_nil (hl : ∀ x ∈ l, sep ∉ x) (hm : ∀ x ∈ m, sep ∉ x) (hln : ∀ x ∈ l, x ≠ [])
    (hmn : ∀ x ∈ m, x ≠ []) (h : [sep].intercalate l = [sep].intercalate m) : l = m := by
  by_cases hl0 : l = []
  · by_cases hm0 : m = []
    · rw [hl0, hm0]
    · rw [hl0] at h
      exact absurd h.symm (join_ne_nil hmn hm0)
  · by_cases hm0 : m = []
    · rw [hm0] at h
      exact absurd h (join_ne_nil hln hl0)
    · exact join_inj hl hm hl0 hm0 h

theorem count_join {l : List (List α)} (hl : ∀ x ∈ l, sep ∉ x) (hne : l ≠ []) :
    ([sep].intercalate l).count sep + 1 = l.length := by
  induction l with
  | nil => exact absurd rfl hne
  | cons x l ih =>
    have hx : x.count sep = 0 := List.count_eq_zero.mpr (hl x List.mem_cons_self)
    cases l with
    | nil => simp [List.intercalate, hx]
    | cons y l =>
      have hrest := ih (fun z hz => hl z (List.mem_cons_of_mem x hz)) (List.cons_ne_nil _ _)
      rw [join_cons_cons, List.count_append, List.count_cons_self, List.length_cons, hx]
      omega

theorem count_join_of_ne {c : α} (hc : sep ≠ c) (l : List (List α)) :
    ([sep].intercalate l).count c = (l.map (List.count c)).sum := by
  induction l with
  | nil => rfl
  | cons x l ih =>
    cases l with
    | nil => simp [List.intercalate]
    | cons y l =>
      rw [join_cons_cons, List.count_append, List.count_cons_of_ne hc, ih]
      simp

end

variable {mark bar : α}

def rowsText (sep mark : α) (rows : List (List α × List α)) : List α :=
  rows.flatMap fun r => r.1 ++ mark :: r.2 ++ [sep]

def table (sep mark bar : α) (rows : List (List α × List α)) : List α :=
  rowsText sep mark rows ++ sep :: [bar].intercalate (rows.map Prod.fst)

theorem rowsText_cons (r : List α × List α) (rows : List (List α × List α)) :
    rowsText sep mark (r :: rows) = r.1 ++ mark :: (r.2 ++ sep :: rowsText sep mark rows) := by
  simp [rowsText]

variable {l m : List (List α × List α)}

theorem rowsText_inj (hl : ∀ r ∈ l, sep ∉ r.2) (hm : ∀ r ∈ m, sep ∉ r.2)
    (hnames : l.map Prod.fst = m.map Prod.fst) (h : rowsText sep mark l = rowsText sep mark m) : l = m := by
  induction l generalizing m with
  | nil => exact (List.map_eq_nil_iff.mp hnames.symm).symm
  | cons r l ih =>
    cases m with
    | nil => cases hnames
    | cons r' m =>
      rw [List.map_cons, List.map_cons] at hnames
      obtain ⟨hname, hrest⟩ := List.cons.inj hnames
      rw [rowsText_cons, rowsText_cons, hname] at h
      have htext := (List.cons.inj (List.append_cancel_left h)).2
      obtain ⟨hvalue, htail⟩ := cut_inj (hl r List.mem_cons_self) (hm r' List.mem_cons_self) htext
      rw [ih (fun x hx => hl x (List.mem_cons_of_mem r hx)) (fun x hx => hm x (List.mem_cons_of_mem r' hx)) hrest htail,
        Prod.ext hname hvalue]

variable [DecidableEq α]

theorem count_rowsText {rows : List (List α × List α)} (hmark : mark ≠ sep) (hvalues : ∀ r ∈ rows, sep ∉ r.2) :
    (rowsText sep mark rows).count sep = rows.length + ((rows.map Prod.fst).map (List.count sep)).sum := by
  induction rows with
  | nil => rfl
  | cons r rows ih =>
    have hr : r.2.count sep = 0 := List.count_eq_zero.mpr (hvalues r List.mem_cons_self)
    have hrest := ih fun x hx => hvalues x (List.mem_cons_of_mem r hx)
    rw [rowsText_cons, List.count_append, List.count_cons_of_ne hmark, List.count_append, List.count_cons_self, hr, hrest]
    simp only [List.length_cons, List.map_cons, List.sum_cons]
    omega

theorem count_table {rows : List (List α × List α)} (hmark : mark ≠ sep) (hbar : bar ≠ sep)
    (hvalues : ∀ r ∈ rows, sep ∉ r.2) :
    (table sep mark bar rows).count sep =
      rows.length + 2 * ([bar].intercalate (rows.map Prod.fst)).count sep + 1 := by
  rw [table, List.count_append, List.count_cons_self, count_rowsText hmark hvalues, count_join_of_ne hbar]
  omega

theorem table_names_not_longer (hmark : mark ≠ sep) (hbar : bar ≠ sep)
    (hl : ∀ r ∈ l, sep ∉ r.2) (hm : ∀ r ∈ m, sep ∉ r.2) (hln : ∀ r ∈ l, bar ∉ r.1) (hmn : ∀ r ∈ m, bar ∉ r.1)
    (hl0 : l ≠ []) (hm0 : m ≠ []) (h : table sep mark bar l = table sep mark bar m) {z : List α} :
    [bar].intercalate (m.map Prod.fst) ≠ z ++ sep :: [bar].intercalate (l.map Prod.fst) := by
  intro hnames
  have hlen {rows : List (List α × List α)} (hrows : ∀ r ∈ rows, bar ∉ r.1) (hne : rows ≠ []) :
      ([bar].intercalate (rows.map Prod.fst)).count bar + 1 = rows.length := by
    have hjoin := @count_join α bar _ (rows.map Prod.fst) (by simpa using hrows) (by simpa using hne)
    rwa [List.length_map] at hjoin
  have hcount := congrArg (List.count sep) h
  rw [count_table hmark hbar hl, count_table hmark hbar hm, hnames, List.count_append, List.count_cons_self] at hcount
  have hbars := hlen hmn hm0
  have hbars' := hlen hln hl0
  rw [hnames, List.count_append, List.count_cons_of_ne (Ne.symm hbar)] at hbars
  omega

theorem table_inj (hmark : mark ≠ sep) (hbar : bar ≠ sep)
    (hl : ∀ r ∈ l, sep ∉ r.2) (hm : ∀ r ∈ m, sep ∉ r.2) (hln : ∀ r ∈ l, bar ∉ r.1) (hmn : ∀ r ∈ m, bar ∉ r.1)
    (hl0 : l ≠ []) (hm0 : m ≠ []) (h : table sep mark bar l = table sep mark bar m) : l = m := by
  have hsame : rowsText sep mark l = rowsText sep mark m ∧
      [bar].intercalate (l.map Prod.fst) = [bar].intercalate (m.map Prod.fst) := by
    -- the two lists of names are ends of one text, and neither can be the longer
    rcases List.append_eq_append_iff.mp h with ⟨a, ha, hnames⟩ | ⟨a, ha, hnames⟩
    · cases a with
      | nil => exact ⟨by simpa using ha.symm, by simpa using hnames⟩
      | cons c a =>
        have hlonger := (List.cons.inj hnames).2
        exact absurd hlonger (table_names_not_longer hmark hbar hm hl hmn hln hm0 hl0 h.symm)
    · cases a with
      | nil => exact ⟨by simpa using ha, by simpa using hnames.symm⟩
      | cons c a =>
        have hlonger := (List.cons.inj hnames).2
        exact absurd hlonger (table_names_not_longer hmark hbar hl hm hln hmn hl0 hm0 h)
  have hnames : l.map Prod.fst = m.map Prod.fst := by
    apply join_inj (by simpa using hln) (by simpa using hmn) (by simpa using hl0) (by simpa using hm0) hsame.2
  exact rowsText_inj hl hm hnames hsame.1

end Framing
