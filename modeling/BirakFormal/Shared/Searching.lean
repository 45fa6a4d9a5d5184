import Mathlib

/-!
# Searching by halves

A search by halves finds the first place at which a test holds, if the test never fails behind a place at
which it holds.
-/

namespace Searching

/-- The loop of the search: the first place is between `i` and `j`. -/
def halve (f : Nat → Bool) : Nat → Nat → Nat → Nat
  | 0, i, _ => i
  | fuel + 1, i, j =>
    if i < j then
      let h := (i + j) / 2
      if f h then halve f fuel i h else halve f fuel (h + 1) j
    else i

/-- The first of `n` places at which the test holds, or `n`. -/
def search (n : Nat) (f : Nat → Bool) : Nat := halve f n 0 n

theorem halve_spec {f : Nat → Bool} (hmono : ∀ a b, a ≤ b → f a = true → f b = true) {n fuel i j : Nat} (hij : i ≤ j)
    (hj : j ≤ n) (hfuel : j - i ≤ fuel) (hlow : ∀ a < i, f a = false) (hhigh : ∀ a, j ≤ a → a < n → f a = true) :
    (∀ a < halve f fuel i j, f a = false) ∧ (∀ a, halve f fuel i j ≤ a → a < n → f a = true) := by
  induction fuel generalizing i j with
  | zero =>
    obtain rfl : i = j := by omega
    exact ⟨hlow, hhigh⟩
  | succ fuel ih =>
    unfold halve
    by_cases hlt : i < j
    · rw [if_pos hlt]
      dsimp only
      cases hf : f ((i + j) / 2) with
      | true =>
        rw [if_pos rfl]
        exact ih (by omega) (by omega) (by omega) hlow fun a ha _ => hmono _ a ha hf
      | false =>
        rw [if_neg (by decide)]
        apply ih (by omega) hj (by omega) _ hhigh
        intro a ha
        cases hfa : f a with
        | false => rfl
        | true =>
          rw [hmono a ((i + j) / 2) (by omega) hfa] at hf
          cases hf
    · obtain rfl : i = j := by omega
      rw [if_neg hlt]
      exact ⟨hlow, hhigh⟩

variable {α : Type}

def searchList (p : α → Bool) (l : List α) : Nat := search l.length fun i => l[i]?.all p

theorem drop_searchList {p : α → Bool} {l : List α} (hmono : l.Pairwise fun a b => p a = true → p b = true) :
    l.drop (searchList p l) = l.filter p := by
  have hf : ∀ a b : Nat, a ≤ b → l[a]?.all p = true → l[b]?.all p = true := by
    intro a b hab ha
    cases hb : l[b]? with
    | none => rfl
    | some y =>
      obtain ⟨hlt, rfl⟩ := List.getElem?_eq_some_iff.mp hb
      have hx : l[a]? = some l[a] := List.getElem?_eq_getElem (by omega)
      rw [hx] at ha
      rcases Nat.lt_or_eq_of_le hab with hab | rfl
      · exact List.pairwise_iff_getElem.mp hmono a b (by omega) hlt hab ha
      · exact ha
  have hspec : (∀ a < searchList p l, l[a]?.all p = false) ∧ ∀ a, searchList p l ≤ a → a < l.length → l[a]?.all p = true :=
    halve_spec hf (Nat.zero_le _) (Nat.le_refl _) (Nat.sub_le _ _) (fun a ha => absurd ha (Nat.not_lt_zero a))
      (fun a ha hlt => absurd hlt (by omega))
  obtain ⟨hlow, hhigh⟩ := hspec
  have hfront : (l.take (searchList p l)).filter p = [] := by
    rw [List.filter_eq_nil_iff]
    intro x hx hpx
    obtain ⟨i, hi, rfl⟩ := List.getElem_of_mem hx
    rw [List.length_take] at hi
    have hfalse := hlow i (by omega)
    rw [List.getElem?_eq_getElem (by omega), Option.all_some] at hfalse
    rw [List.getElem_take, hfalse] at hpx
    cases hpx
  have hback : (l.drop (searchList p l)).filter p = l.drop (searchList p l) := by
    rw [List.filter_eq_self]
    intro x hx
    obtain ⟨i, hi, rfl⟩ := List.getElem_of_mem hx
    rw [List.length_drop] at hi
    have htrue := hhigh (searchList p l + i) (Nat.le_add_right _ _) (by omega)
    rw [List.getElem?_eq_getElem (by omega), Option.all_some] at htrue
    rw [List.getElem_drop]
    exact htrue
  conv_rhs => rw [← List.take_append_drop (searchList p l) l, List.filter_append, hfront, hback]
  rfl

end Searching
