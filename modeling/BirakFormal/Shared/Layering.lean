import BirakFormal.Shared.Subtrees

/-!
# Trees and what a flush has kept of them

A tree is shown as a map from paths to objects; what survives is kept object by object: the
entries of each directory and the content of each file. Flushing a directory keeps the entries
it shows at that moment. A renamed directory takes the entries kept for it along, so a rename
leaves only the new entry itself to be flushed.
-/

namespace Layering

open Subtrees

variable {κ α ι β : Type}

def walk (links : ι → κ → Option ι) : ι → List κ → Option ι
  | i, [] => some i
  | i, k :: ks => (links i k).bind fun j => walk links j ks

theorem walk_append (links : ι → κ → Option ι) (i : ι) (p q : List κ) :
    walk links i (p ++ q) = (walk links i p).bind fun j => walk links j q := by
  induction p generalizing i with
  | nil => rfl
  | cons k p ih =>
    cases h : links i k with
    | none => simp [walk, h]
    | some j => simpa [walk, h] using ih j

/-- What is kept at a path: the content of the object the kept entries lead to. -/
def kept (root : ι) (links : ι → κ → Option ι) (contents : ι → Option β) (p : List κ) : Option β :=
  (walk links root p).bind contents

section
variable (root : ι) (ino : α → ι)

def inoAt (t : PathMap κ α) (p : List κ) : Option ι :=
  if p = [] then some root else (t.lookup p).map ino

/-- Keep the entries that the directory at `p` shows. -/
def flush [DecidableEq ι] (t : PathMap κ α) (links : ι → κ → Option ι) (p : List κ) : ι → κ → Option ι :=
  fun i k => if inoAt root ino t p = some i then (t.lookup (p ++ [k])).map ino else links i k

/-- Every object has one path, none is the root, and every entry is in a directory. -/
structure WellFormed (t : PathMap κ α) : Prop where
  named : ∀ p a, t.lookup p = some a → p ≠ [] ∧ ino a ≠ root
  inj : ∀ p q a b, t.lookup p = some a → t.lookup q = some b → ino a = ino b → p = q
  closed : ∀ p k, t.lookup (p ++ [k]) ≠ none → p = [] ∨ t.lookup p ≠ none

/-- Every entry outside `pending` is kept. -/
def Linked (pending : List κ → Prop) (links : ι → κ → Option ι) (t : PathMap κ α) : Prop :=
  ∀ p k a, t.lookup (p ++ [k]) = some a → ¬ pending (p ++ [k]) →
    ∃ i, inoAt root ino t p = some i ∧ links i k = some (ino a)

def Stored (content : α → Option β) (contents : ι → Option β) (t : PathMap κ α) : Prop :=
  ∀ p a b, t.lookup p = some a → content a = some b → contents (ino a) = some b

end

variable {root : ι} {ino : α → ι} {t t' : PathMap κ α} {links : ι → κ → Option ι}
variable {pending : List κ → Prop} {p q : List κ}

theorem inoAt_of_ne (hp : p ≠ []) : inoAt root ino t p = (t.lookup p).map ino := if_neg hp

theorem WellFormed.inoAt_inj (h : WellFormed root ino t) {i : ι} (hp : inoAt root ino t p = some i)
    (hq : inoAt root ino t q = some i) : p = q := by
  have hroot : ∀ r, r ≠ [] → inoAt root ino t r ≠ some root := by
    intro r hr heq
    rw [inoAt_of_ne hr] at heq
    obtain ⟨a, ha, hia⟩ := Option.map_eq_some_iff.mp heq
    exact (h.named r a ha).2 hia
  by_cases hpn : p = []
  · by_cases hqn : q = []
    · rw [hpn, hqn]
    · obtain rfl : root = i := by simpa [inoAt, hpn] using hp
      exact absurd hq (hroot q hqn)
  · by_cases hqn : q = []
    · obtain rfl : root = i := by simpa [inoAt, hqn] using hq
      exact absurd hp (hroot p hpn)
    · rw [inoAt_of_ne hpn] at hp
      rw [inoAt_of_ne hqn] at hq
      obtain ⟨a, ha, hia⟩ := Option.map_eq_some_iff.mp hp
      obtain ⟨b, hb, hib⟩ := Option.map_eq_some_iff.mp hq
      exact h.inj p q a b ha hb (hia.trans hib.symm)

theorem WellFormed.inoAt_parent (h : WellFormed root ino t) {k : κ}
    (hk : t.lookup (p ++ [k]) ≠ none) : ∃ i, inoAt root ino t p = some i := by
  by_cases hp : p = []
  · exact ⟨root, if_pos hp⟩
  · rcases h.closed p k hk with hnil | hsome
    · exact absurd hnil hp
    · obtain ⟨a, ha⟩ := Option.ne_none_iff_exists'.mp hsome
      exact ⟨ino a, by rw [inoAt_of_ne hp, ha]; rfl⟩

theorem Linked.mono (h : Linked root ino pending links t) {pending' : List κ → Prop}
    (hsub : ∀ k, t.lookup k ≠ none → pending k → pending' k) :
    Linked root ino pending' links t := by
  intro p k a ha hpend
  exact h p k a ha fun hp => hpend (hsub _ (by rw [ha]; nofun) hp)

theorem Linked.walk (h : Linked root ino pending links t) {i : ι}
    (hi : inoAt root ino t p = some i) (hpend : ∀ q, q <+: p → ¬ pending q) :
    walk links root p = some i := by
  induction p using List.reverseRecOn generalizing i with
  | nil => simpa [inoAt, Layering.walk] using hi
  | append_singleton p k ih =>
    rw [inoAt_of_ne (by simp)] at hi
    obtain ⟨a, ha, rfl⟩ := Option.map_eq_some_iff.mp hi
    obtain ⟨j, hj, hlink⟩ := h p k a ha (hpend _ List.prefix_rfl)
    have hwalk := ih hj fun q hq => hpend q (hq.trans (List.prefix_append p [k]))
    rw [walk_append, hwalk]
    simp [Layering.walk, hlink]

variable {contents : ι → Option β} {a : α} {content : α → Option β}

theorem Linked.kept (h : Linked root ino pending links t) (hs : Stored ino content contents t) (hw : WellFormed root ino t) {b : β} (ha : t.lookup p = some a) (hb : content a = some b)
    (hpend : ∀ q, q <+: p → ¬ pending q) : kept root links contents p = some b := by
  have hi : inoAt root ino t p = some (ino a) := by
    rw [inoAt_of_ne (hw.named p a ha).1, ha]
    rfl
  rw [Layering.kept, h.walk hi hpend]
  exact hs p a b ha hb

theorem Linked.flush [DecidableEq ι] (h : Linked root ino pending links t) (hw : WellFormed root ino t)
    (d : List κ) :
    Linked root ino (fun k => pending k ∧ k.dropLast ≠ d) (flush root ino t links d) t := by
  intro p k a ha hpend
  simp only [List.dropLast_concat] at hpend
  by_cases hp : p = d
  · subst hp
    obtain ⟨i, hi⟩ := hw.inoAt_parent (by rw [ha]; nofun)
    exact ⟨i, hi, by rw [Layering.flush, if_pos hi, ha]; rfl⟩
  · obtain ⟨i, hi, hlink⟩ := h p k a ha fun hk => hpend ⟨hk, hp⟩
    refine ⟨i, hi, ?_⟩
    rw [Layering.flush, if_neg fun hd => hp (hw.inoAt_inj hi hd)]
    exact hlink

def Within (ino : α → ι) (content : α → Option β) (t' t : PathMap κ α) : Prop :=
  ∀ p a', t'.lookup p = some a' → ∃ a, t.lookup p = some a ∧ ino a = ino a' ∧ content a = content a'

section
variable {content : α → Option β} {contents : ι → Option β}

theorem WellFormed.within (h : WellFormed root ino t) (hsub : Within ino content t' t)
    (hclosed : ∀ p k, t'.lookup (p ++ [k]) ≠ none → p = [] ∨ t'.lookup p ≠ none) :
    WellFormed root ino t' := by
  refine ⟨fun p a' ha' => ?_, fun p q a' b' ha' hb' hab => ?_, hclosed⟩
  · obtain ⟨a, ha, hi, -⟩ := hsub p a' ha'
    exact hi ▸ h.named p a ha
  · obtain ⟨a, ha, hi, -⟩ := hsub p a' ha'
    obtain ⟨b, hb, hj, -⟩ := hsub q b' hb'
    exact h.inj p q a b ha hb (hi.trans (hab.trans hj.symm))

theorem Linked.within (h : Linked root ino pending links t) (hsub : Within ino content t' t)
    (hw : WellFormed root ino t') : Linked root ino pending links t' := by
  intro p k a' ha' hpend
  obtain ⟨a, ha, hia, -⟩ := hsub _ a' ha'
  obtain ⟨i, hi, hlink⟩ := h p k a ha hpend
  refine ⟨i, ?_, by rw [← hia]; exact hlink⟩
  rcases hw.closed p k (by rw [ha']; nofun) with rfl | hsome
  · exact hi
  · obtain ⟨b', hb'⟩ := Option.ne_none_iff_exists'.mp hsome
    obtain ⟨b, hb, hib, -⟩ := hsub p b' hb'
    have hp := (hw.named p b' hb').1
    rw [inoAt_of_ne hp, hb] at hi
    rw [inoAt_of_ne hp, hb', ← hi, Option.map_some, Option.map_some, hib]

theorem Stored.within (h : Stored ino content contents t) (hsub : Within ino content t' t) :
    Stored ino content contents t' := by
  intro p a' b ha' hb
  obtain ⟨a, ha, hia, hcontent⟩ := hsub p a' ha'
  rw [← hia]
  exact h p a b ha (hcontent.trans hb)

end

variable [DecidableEq κ]

theorem move_lookup (t : PathMap κ α) (p q k : List κ) : (t.move p q).lookup k =
    if q <+: k then t.lookup (p ++ k.drop q.length) else if p <+: k then none else t.lookup k := rfl

theorem move_lookup_under (t : PathMap κ α) (p q rel : List κ) :
    (t.move p q).lookup (q ++ rel) = t.lookup (p ++ rel) := by
  rw [move_lookup, if_pos (List.prefix_append q rel), List.drop_left]

theorem move_origin {k : List κ} (h : (t.move p q).lookup k = some a) :
    (∃ rel, k = q ++ rel ∧ t.lookup (p ++ rel) = some a) ∨ ¬ q <+: k ∧ ¬ p <+: k ∧ t.lookup k = some a := by
  by_cases hq : q <+: k
  · obtain ⟨rel, rfl⟩ := hq
    rw [move_lookup_under] at h
    exact Or.inl ⟨rel, rfl, h⟩
  · rw [move_lookup, if_neg hq] at h
    split at h
    · exact absurd h nofun
    · next hp => exact Or.inr ⟨hq, hp, h⟩

theorem WellFormed.move (h : WellFormed root ino t) (hqp : ¬ q <+: p)
    (hclosed : ∀ r k, (t.move p q).lookup (r ++ [k]) ≠ none → r = [] ∨ (t.move p q).lookup r ≠ none) :
    WellFormed root ino (t.move p q) := by
  have hq : q ≠ [] := fun hnil => hqp (hnil ▸ List.nil_prefix)
  refine ⟨fun k a ha => ?_, fun k l a b ha hb hab => ?_, hclosed⟩
  · rcases move_origin ha with ⟨rel, rfl, ha'⟩ | ⟨-, -, ha'⟩
    · exact ⟨fun hnil => hq (List.append_eq_nil_iff.mp hnil).1, (h.named _ a ha').2⟩
    · exact h.named k a ha'
  · rcases move_origin ha with ⟨rel, rfl, ha'⟩ | ⟨-, hpk, ha'⟩ <;>
      rcases move_origin hb with ⟨rel', rfl, hb'⟩ | ⟨-, hpl, hb'⟩
    · rw [List.append_cancel_left (h.inj _ _ a b ha' hb' hab)]
    · exact absurd (h.inj _ _ a b ha' hb' hab ▸ List.prefix_append p rel) hpl
    · exact absurd ((h.inj _ _ a b ha' hb' hab).symm ▸ List.prefix_append p rel') hpk
    · exact h.inj _ _ a b ha' hb' hab

theorem Linked.move (h : Linked root ino pending links t) (hpq : ¬ p <+: q) (hqp : ¬ q <+: p) :
    Linked root ino (fun k => k = q ∨ pending k ∨ ∃ x rel, k = q ++ x :: rel ∧ pending (p ++ x :: rel))
      links (t.move p q) := by
  have hp : p ≠ [] := fun hnil => hpq (hnil ▸ List.nil_prefix)
  have hq : q ≠ [] := fun hnil => hqp (hnil ▸ List.nil_prefix)
  intro r x a ha hpend
  rcases move_origin ha with ⟨rel, hrel, ha⟩ | ⟨hqr, hpr, ha⟩
  · -- The entry is the new one itself, or one of a directory that moved along.
    rcases List.eq_nil_or_concat' rel with rfl | ⟨rel, y, rfl⟩
    · exact absurd (Or.inl (by rw [hrel, List.append_nil])) hpend
    · rw [← List.append_assoc] at hrel ha
      obtain ⟨rfl, hxy⟩ := List.append_inj' hrel rfl
      obtain rfl : x = y := by simpa using hxy
      have hold : ¬ pending (p ++ rel ++ [x]) := by
        intro hpending
        refine hpend (Or.inr (Or.inr ?_))
        rw [List.append_assoc] at hpending
        obtain ⟨y, rel', hy⟩ : ∃ y rel', rel ++ [x] = y :: rel' := by
          cases rel with
          | nil => exact ⟨x, [], rfl⟩
          | cons y rel => exact ⟨y, rel ++ [x], rfl⟩
        exact ⟨y, rel', by rw [List.append_assoc, hy], by rw [← hy]; exact hpending⟩
      obtain ⟨i, hi, hlink⟩ := h (p ++ rel) x a ha hold
      refine ⟨i, ?_, hlink⟩
      rw [inoAt_of_ne (fun hnil => hp (List.append_eq_nil_iff.mp hnil).1)] at hi
      rw [inoAt_of_ne (fun hnil => hq (List.append_eq_nil_iff.mp hnil).1), move_lookup_under]
      exact hi
  · obtain ⟨i, hi, hlink⟩ := h r x a ha fun hpending => hpend (Or.inr (Or.inl hpending))
    refine ⟨i, ?_, hlink⟩
    have hsame : (t.move p q).lookup r = t.lookup r := by
      rw [move_lookup, if_neg fun hpre => hqr (hpre.trans (List.prefix_append r [x])),
        if_neg fun hpre => hpr (hpre.trans (List.prefix_append r [x]))]
    rw [inoAt, hsame]
    exact hi

theorem Stored.move (h : Stored ino content contents t) : Stored ino content contents (t.move p q) := by
  intro k a b ha hb
  rcases move_origin ha with ⟨rel, -, ha⟩ | ⟨-, -, ha⟩
  · exact h _ a b ha hb
  · exact h _ a b ha hb

theorem put_lookup (t : PathMap κ α) (q k : List κ) (a : α) :
    (t.put q a).lookup k = if k = q then some a else t.lookup k := rfl

theorem WellFormed.put (h : WellFormed root ino t) (hq : q ≠ []) (hroot : ino a ≠ root)
    (hfresh : ∀ k b, t.lookup k = some b → ino b ≠ ino a)
    (hclosed : ∀ r k, (t.put q a).lookup (r ++ [k]) ≠ none → r = [] ∨ (t.put q a).lookup r ≠ none) :
    WellFormed root ino (t.put q a) := by
  refine ⟨fun k b hb => ?_, fun k l b c hb hc hbc => ?_, hclosed⟩
  · rw [put_lookup] at hb
    split at hb
    · next hk => cases hb; exact ⟨hk ▸ hq, hroot⟩
    · exact h.named k b hb
  · rw [put_lookup] at hb hc
    split at hb
    · next hk =>
      cases hb
      split at hc
      · next hl => rw [hk, hl]
      · exact absurd hbc.symm (hfresh l c hc)
    · split at hc
      · cases hc; exact absurd hbc (hfresh k b hb)
      · exact h.inj k l b c hb hc hbc

theorem Linked.put (h : Linked root ino pending links t) (hleaf : ∀ x, t.lookup (q ++ [x]) = none) :
    Linked root ino (fun k => k = q ∨ pending k) links (t.put q a) := by
  intro r x b hb hpend
  have hne : r ++ [x] ≠ q := fun heq => hpend (Or.inl heq)
  rw [put_lookup, if_neg hne] at hb
  obtain ⟨i, hi, hlink⟩ := h r x b hb fun hpending => hpend (Or.inr hpending)
  have hrq : r ≠ q := by
    rintro rfl
    rw [hleaf x] at hb
    cases hb
  exact ⟨i, by rw [inoAt, put_lookup, if_neg hrq]; exact hi, hlink⟩

theorem Stored.put (h : Stored ino content contents t) (ha : ∀ b, content a = some b → contents (ino a) = some b) :
    Stored ino content contents (t.put q a) := by
  intro k b c hb hc
  rw [put_lookup] at hb
  split at hb
  · cases hb; exact ha c hc
  · exact h k b c hb hc

end Layering
