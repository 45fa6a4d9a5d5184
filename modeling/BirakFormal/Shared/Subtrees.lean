import Mathlib

/-!
# Maps from paths, with whole subtrees moved at once

A `PathMap` is a finite map from paths to objects. `move` renames a whole subtree. A map is
laid out along separate roots if it is given by one subtree per root and a rest; moving one
root to another then exchanges two slots and leaves everything else alone.
-/

namespace Subtrees

variable {κ α ι : Type}

/-- A finite map from paths; `names` lists its domain. -/
structure PathMap (κ α : Type) where
  lookup : List κ → Option α
  names : List (List κ)
  nodup : names.Nodup
  mem_names : ∀ p, p ∈ names ↔ lookup p ≠ none

def Separate (p q : List κ) : Prop := ¬ p <+: q ∧ ¬ q <+: p

theorem Separate.not_both {p q k : List κ} (h : Separate p q) (hp : p <+: k) (hq : q <+: k) :
    False := by
  rcases List.prefix_or_prefix_of_prefix hp hq with hpq | hqp
  · exact h.1 hpq
  · exact h.2 hqp

namespace PathMap

def empty : PathMap κ α := ⟨fun _ => none, [], List.nodup_nil, fun _ => by simp⟩

variable [DecidableEq κ]

def put (t : PathMap κ α) (p : List κ) (a : α) : PathMap κ α where
  lookup k := if k = p then some a else t.lookup k
  names := p :: t.names.filter (· ≠ p)
  nodup := List.nodup_cons.mpr ⟨by simp, t.nodup.filter _⟩
  mem_names k := by
    by_cases hk : k = p
    · simp [hk]
    · simp [hk, t.mem_names]

def erase (t : PathMap κ α) (p : List κ) : PathMap κ α where
  lookup k := if k = p then none else t.lookup k
  names := t.names.filter (· ≠ p)
  nodup := t.nodup.filter _
  mem_names k := by
    by_cases hk : k = p
    · simp [hk]
    · simp [hk, t.mem_names]

/-- Rename `p` to `q`, with everything beneath; what was at `q` is gone. -/
def move (t : PathMap κ α) (p q : List κ) : PathMap κ α where
  lookup k :=
    if q <+: k then t.lookup (p ++ k.drop q.length)
    else if p <+: k then none else t.lookup k
  names := (t.names.filter fun k => ¬ p <+: k ∧ ¬ q <+: k) ++
    (t.names.filter fun k => p <+: k).map fun k => q ++ k.drop p.length
  nodup := by
    refine List.nodup_append'.mpr ⟨t.nodup.filter _, ?_, ?_⟩
    · refine (List.nodup_map_iff_inj_on (t.nodup.filter _)).mpr ?_
      intro k hk k' hk' heq
      obtain ⟨rel, rfl⟩ := of_decide_eq_true (List.mem_filter.mp hk).2
      obtain ⟨rel', rfl⟩ := of_decide_eq_true (List.mem_filter.mp hk').2
      rw [List.drop_left, List.drop_left] at heq
      rw [List.append_cancel_left heq]
    · intro k hk hk'
      obtain ⟨k', -, rfl⟩ := List.mem_map.mp hk'
      exact (of_decide_eq_true (List.mem_filter.mp hk).2).2 (List.prefix_append q _)
  mem_names k := by
    rw [List.mem_append, List.mem_filter, List.mem_map, decide_eq_true_eq]
    by_cases hq : q <+: k
    · obtain ⟨rel, rfl⟩ := hq
      rw [if_pos (List.prefix_append q rel), List.drop_left, ← t.mem_names]
      constructor
      · rintro (⟨-, -, h⟩ | ⟨k', hk', heq⟩)
        · exact absurd (List.prefix_append q rel) h
        · obtain ⟨hmem, hp⟩ := List.mem_filter.mp hk'
          obtain ⟨rel', rfl⟩ := of_decide_eq_true hp
          rw [List.drop_left] at heq
          rwa [← List.append_cancel_left heq]
      · intro hmem
        refine Or.inr ⟨p ++ rel, List.mem_filter.mpr ⟨hmem, ?_⟩, by rw [List.drop_left]⟩
        exact decide_eq_true (List.prefix_append p rel)
    · rw [if_neg hq]
      have hmap : ¬ ∃ a, a ∈ t.names.filter (fun k => decide (p <+: k)) ∧ q ++ a.drop p.length = k := by
        rintro ⟨a, -, rfl⟩
        exact hq (List.prefix_append q _)
      rw [or_iff_left hmap]
      by_cases hp : p <+: k
      · simp [hp]
      · simp [hp, hq, t.mem_names]

omit [DecidableEq κ] in
def filterMap (t : PathMap κ α) (f : List κ → α → Option α) : PathMap κ α where
  lookup k := (t.lookup k).bind (f k)
  names := t.names.filter fun k => ((t.lookup k).bind (f k)).isSome
  nodup := t.nodup.filter _
  mem_names k := by
    rw [List.mem_filter, t.mem_names, Option.isSome_iff_ne_none, and_iff_right_iff_imp]
    intro hk hnone
    rw [hnone] at hk
    exact hk rfl

def prune (t : PathMap κ α) (p : List κ) : PathMap κ α :=
  t.filterMap fun k a => if p <+: k then none else some a

/-- The paths of the subtree at `p`, relative to it, in the order of `le`. -/
def below (le : List κ → List κ → Bool) (t : PathMap κ α) (p : List κ) : List (List κ) :=
  ((t.names.filter fun k => p <+: k).map fun k => k.drop p.length).insertionSort fun a b => le a b

theorem mem_below {le : List κ → List κ → Bool} {t : PathMap κ α} {p rel : List κ} :
    rel ∈ t.below le p ↔ t.lookup (p ++ rel) ≠ none := by
  rw [below, List.mem_insertionSort, List.mem_map, ← t.mem_names]
  constructor
  · rintro ⟨k, hk, rfl⟩
    obtain ⟨hmem, hp⟩ := List.mem_filter.mp hk
    obtain ⟨rel, rfl⟩ := of_decide_eq_true hp
    rwa [List.drop_left]
  · intro hmem
    refine ⟨p ++ rel, List.mem_filter.mpr ⟨hmem, ?_⟩, List.drop_left⟩
    exact decide_eq_true (List.prefix_append p rel)

theorem nodup_below (le : List κ → List κ → Bool) (t : PathMap κ α) (p : List κ) : (t.below le p).Nodup := by
  refine (List.perm_insertionSort _ _).nodup_iff.mpr
    ((List.nodup_map_iff_inj_on (t.nodup.filter _)).mpr ?_)
  intro k hk k' hk' heq
  obtain ⟨rel, rfl⟩ := of_decide_eq_true (List.mem_filter.mp hk).2
  obtain ⟨rel', rfl⟩ := of_decide_eq_true (List.mem_filter.mp hk').2
  rw [List.drop_left, List.drop_left] at heq
  rw [heq]

end PathMap

/-- One subtree for each root, and `rest` everywhere else. -/
structure Laid (roots : ι → List κ) (rest : List κ → Option α) (slots : ι → List κ → Option α)
    (t : PathMap κ α) : Prop where
  slot : ∀ i rel, t.lookup (roots i ++ rel) = slots i rel
  outside : ∀ p, (∀ i, ¬ roots i <+: p) → t.lookup p = rest p

variable [DecidableEq κ]
variable {roots : ι → List κ} {rest : List κ → Option α} {slots : ι → List κ → Option α}
variable {t : PathMap κ α}

theorem Laid.move [DecidableEq ι] (h : Laid roots rest slots t) (hsep : Pairwise fun i j => Separate (roots i) (roots j))
    {i j : ι} (hij : i ≠ j) :
    Laid roots rest (Function.update (Function.update slots j (slots i)) i fun _ => none)
      (t.move (roots i) (roots j)) := by
  refine ⟨fun k rel => ?_, fun p hp => ?_⟩
  · show (if roots j <+: roots k ++ rel then _ else _) = _
    by_cases hkj : k = j
    · subst hkj
      rw [if_pos (List.prefix_append _ rel), List.drop_left, h.slot, Function.update_of_ne hij.symm,
        Function.update_self]
    · have hnot : ¬ roots j <+: roots k ++ rel := fun hj =>
        (hsep hkj).not_both (List.prefix_append _ rel) hj
      rw [if_neg hnot]
      by_cases hki : k = i
      · subst hki
        rw [if_pos (List.prefix_append _ rel), Function.update_self]
      · have hnot' : ¬ roots i <+: roots k ++ rel := fun hi =>
          (hsep hki).not_both (List.prefix_append _ rel) hi
        rw [if_neg hnot', Function.update_of_ne hki, Function.update_of_ne hkj, h.slot]
  · show (if roots j <+: p then _ else _) = _
    rw [if_neg (hp j), if_neg (hp i)]
    exact h.outside p hp

theorem Laid.erase [DecidableEq ι] (h : Laid roots rest slots t)
    (hsep : Pairwise fun i j => Separate (roots i) (roots j)) (i : ι) (rel : List κ) :
    Laid roots rest (Function.update slots i fun r => if r = rel then none else slots i r)
      (t.erase (roots i ++ rel)) := by
  refine ⟨fun k r => ?_, fun p hp => ?_⟩
  · show (if roots k ++ r = roots i ++ rel then none else t.lookup (roots k ++ r)) = _
    by_cases hki : k = i
    · subst hki
      rw [Function.update_self, h.slot]
      simp only [List.append_cancel_left_eq]
    · have hne : roots k ++ r ≠ roots i ++ rel := fun heq =>
        (hsep hki).not_both (List.prefix_append _ r) (heq ▸ List.prefix_append _ rel)
      rw [if_neg hne, Function.update_of_ne hki, h.slot]
  · show (if p = roots i ++ rel then none else t.lookup p) = _
    have hne : p ≠ roots i ++ rel := fun heq => hp i (heq ▸ List.prefix_append _ rel)
    rw [if_neg hne]
    exact h.outside p hp

theorem Laid.erase_outside (h : Laid roots rest slots t) {q : List κ} (hq : ∀ i, ¬ roots i <+: q) :
    Laid roots (fun p => if p = q then none else rest p) slots (t.erase q) := by
  refine ⟨fun k r => ?_, fun p hp => ?_⟩
  · show (if roots k ++ r = q then none else t.lookup (roots k ++ r)) = _
    have hne : roots k ++ r ≠ q := fun heq => hq k (heq ▸ List.prefix_append _ r)
    rw [if_neg hne, h.slot]
  · show (if p = q then none else t.lookup p) = _
    rw [h.outside p hp]

end Subtrees
