import BirakFormal.Shared.Framing

/-!
# Chains of digests

Each value of a chain is made of the one before it and of a datum. If values are made in one way only, and
the first in none, then a value tells all the data that led to it.
-/

namespace Chains

variable {P D : Type} {link : P → D → P} {seed : P}

def links (link : P → D → P) : P → List D → List P
  | _, [] => []
  | p, d :: ds => link p d :: links link (link p d) ds

theorem mem_links {p q : P} {ds : List D} (h : q ∈ links link p ds) : ∃ es, es <+: ds ∧ es.foldl link p = q := by
  induction ds generalizing p with
  | nil => cases h
  | cons d ds ih =>
    rcases List.mem_cons.mp h with rfl | h
    · exact ⟨[d], List.cons_prefix_cons.mpr ⟨rfl, List.nil_prefix⟩, rfl⟩
    · obtain ⟨es, hes, hq⟩ := ih h
      exact ⟨d :: es, List.cons_prefix_cons.mpr ⟨rfl, hes⟩, hq⟩

theorem foldl_inj (hinj : ∀ p d p' d', link p d = link p' d' → p = p' ∧ d = d') (hseed : ∀ p d, link p d ≠ seed)
    {ds es : List D} (h : ds.foldl link seed = es.foldl link seed) : ds = es := by
  induction ds using List.reverseRecOn generalizing es with
  | nil =>
    induction es using List.reverseRecOn with
    | nil => rfl
    | append_singleton es e _ =>
      rw [List.foldl_append] at h
      exact absurd h.symm (hseed _ _)
  | append_singleton ds d ih =>
    induction es using List.reverseRecOn with
    | nil =>
      rw [List.foldl_append] at h
      exact absurd h (hseed _ _)
    | append_singleton es e _ =>
      rw [List.foldl_append, List.foldl_append] at h
      obtain ⟨hprev, rfl⟩ := hinj _ _ _ _ h
      rw [ih hprev]

theorem eq_of_last_mem (hinj : ∀ p d p' d', link p d = link p' d' → p = p' ∧ d = d') (hseed : ∀ p d, link p d ≠ seed)
    {stop : D} {ds es : List D} (hds : stop ∉ ds) (hes : stop ∉ es)
    (h : (es ++ [stop]).foldl link seed ∈ links link seed (ds ++ [stop])) : es = ds := by
  obtain ⟨front, ⟨back, hback⟩, hfold⟩ := mem_links h
  have hfront := foldl_inj hinj hseed hfold
  subst hfront
  rw [List.append_assoc] at hback
  exact (Framing.cut_inj hes hds hback).1

end Chains
