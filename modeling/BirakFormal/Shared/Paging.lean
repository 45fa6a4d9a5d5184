import Mathlib

/-!
# Listings in pages

A listing in ascending order of its keys is handed out in pages: each page holds the first items
above a marker, and a page that is cut short names the marker to go on from. Following the
markers gives every item exactly once.
-/

namespace Paging

variable {α κ : Type}

/-- Follow the markers, at most `fuel` pages. -/
def follow (page : κ → List α × Option κ) : Nat → κ → List α
  | 0, _ => []
  | fuel + 1, after =>
    match page after with
    | (items, none) => items
    | (items, some next) => items ++ follow page fuel next

theorem follow_congr {f g : κ → List α × Option κ} (P : κ → Prop) (heq : ∀ a, P a → f a = g a)
    (hnext : ∀ a b, P a → (g a).2 = some b → P b) (fuel : Nat) {a : κ} (ha : P a) : follow f fuel a = follow g fuel a := by
  induction fuel generalizing a with
  | zero => rfl
  | succ fuel ih =>
    unfold follow
    rw [heq a ha]
    rcases hpage : g a with ⟨items, next⟩
    cases next with
    | none => rfl
    | some b => exact congrArg (items ++ ·) (ih (hnext a b ha (congrArg Prod.snd hpage)))

theorem follow_filterMap {β : Type} (page : κ → List α × Option κ) (p : α → Option β) (fuel : Nat) (a : κ) :
    follow (fun a => ((page a).1.filterMap p, (page a).2)) fuel a = (follow page fuel a).filterMap p := by
  induction fuel generalizing a with
  | zero => rfl
  | succ fuel ih =>
    unfold follow
    rcases page a with ⟨items, next⟩
    cases next with
    | none => rfl
    | some b => rw [List.filterMap_append, ← ih b]

variable [LinearOrder κ] (key : α → κ)

def rest (l : List α) (after : κ) : List α := l.filter fun x => after < key x

def page (l : List α) (size : Nat) (after : κ) : List α × Option κ :=
  if size < (rest key l after).length then
    ((rest key l after).take size, ((rest key l after).take size).getLast?.map key)
  else (rest key l after, none)

variable {key} {l : List α}

theorem mem_rest {a : κ} {x : α} : x ∈ rest key l a ↔ x ∈ l ∧ a < key x := by
  rw [rest, List.mem_filter, decide_eq_true_iff]

theorem rest_rest {a b : κ} (h : a ≤ b) : rest key (rest key l a) b = rest key l b := by
  rw [rest, rest, rest, List.filter_filter]
  refine List.filter_congr fun x _ => ?_
  simp only [← Bool.decide_and, decide_eq_decide]
  exact ⟨fun hx => hx.1, fun hx => ⟨hx, lt_of_le_of_lt h hx⟩⟩

theorem rest_getLast {r l : List α} {x : α} (hsorted : (l ++ x :: r).Pairwise fun a b => key a < key b) :
    rest key (l ++ x :: r) (key x) = r := by
  obtain ⟨-, hright, hcross⟩ := List.pairwise_append.mp hsorted
  have hleft : ∀ y ∈ l, ¬ key x < key y := fun y hy => not_lt.mpr (le_of_lt (hcross y hy x List.mem_cons_self))
  have hafter : ∀ y ∈ r, key x < key y := (List.pairwise_cons.mp hright).1
  rw [rest, List.filter_append, List.filter_cons, List.filter_eq_nil_iff.mpr fun y hy => by simpa using hleft y hy,
    List.filter_eq_self.mpr fun y hy => by simpa using hafter y hy]
  simp

theorem mem_take_rest (hsorted : l.Pairwise fun a b => key a < key b) {size : Nat} {after : κ} {x y : α}
    (hx : x ∈ rest key l after) (hlast : y ∈ (rest key l after).take size) (hle : key x ≤ key y) :
    x ∈ (rest key l after).take size := by
  have hr : (rest key l after).Pairwise fun a b => key a < key b := hsorted.filter _
  rw [← List.take_append_drop size (rest key l after)] at hx hr
  rcases List.mem_append.mp hx with hx | hx
  · exact hx
  · exact absurd ((List.pairwise_append.mp hr).2.2 y hlast x hx) (not_lt.mpr hle)

theorem page_cases (hsorted : l.Pairwise fun a b => key a < key b) {size : Nat} (hsize : 0 < size) (after : κ) :
    page key l size after = (rest key l after, none) ∨
      ∃ items next, page key l size after = (items, some next) ∧ items ≠ [] ∧ rest key l after = items ++ rest key l next := by
  by_cases hcut : size < (rest key l after).length
  · right
    have hr : (rest key l after).Pairwise fun a b => key a < key b := hsorted.filter _
    have hne : (rest key l after).take size ≠ [] := by
      intro h
      have hlen := congrArg List.length h
      rw [List.length_take, List.length_nil] at hlen
      omega
    obtain ⟨front, x, hfront⟩ : ∃ front x, (rest key l after).take size = front ++ [x] :=
      ⟨_, _, (List.dropLast_append_getLast hne).symm⟩
    have hsplit : rest key l after = front ++ x :: (rest key l after).drop size := by
      conv_lhs => rw [← List.take_append_drop size (rest key l after), hfront]
      simp
    have hx : x ∈ rest key l after := by
      rw [hsplit]
      exact List.mem_append_right _ List.mem_cons_self
    have hnext : rest key l (key x) = (rest key l after).drop size := by
      have hlast : rest key (front ++ x :: (rest key l after).drop size) (key x) = (rest key l after).drop size :=
        rest_getLast (hsplit ▸ hr)
      rw [← hsplit, rest_rest (le_of_lt (mem_rest.mp hx).2)] at hlast
      exact hlast
    refine ⟨_, key x, ?_, hne, ?_⟩
    · rw [page, if_pos hcut, hfront, List.getLast?_concat, Option.map_some]
    · rw [hnext, List.take_append_drop]
  · left
    rw [page, if_neg hcut]

theorem follow_page (hsorted : l.Pairwise fun a b => key a < key b) {size : Nat} (hsize : 0 < size)
    {fuel : Nat} {after : κ} (hfuel : (rest key l after).length < fuel) :
    follow (page key l size) fuel after = rest key l after := by
  induction fuel generalizing after with
  | zero => exact absurd hfuel (Nat.not_lt_zero _)
  | succ fuel ih =>
    unfold follow
    rcases page_cases hsorted hsize after with hall | ⟨items, next, hpage, hne, hrest⟩
    · rw [hall]
    · have hshort : (rest key l next).length < fuel := by
        have hpos := List.length_pos_iff.mpr hne
        rw [hrest, List.length_append] at hfuel
        omega
      rw [hpage]
      dsimp only
      rw [ih hshort, hrest]

end Paging
