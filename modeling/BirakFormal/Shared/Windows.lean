import Mathlib

/-!
# Sliding windows

Events are admitted in groups. A ledger has one entry for each group: how many events it
admitted, stamped no earlier than any of them. If each group fits into what the ledger of
the last window leaves of a limit, no window of that length sees more events than the limit.
-/

namespace Windows

universe u

variable {T : Type u}

structure Entry (T : Type u) where
  time : T
  count : Nat
  deriving DecidableEq, Repr

section
variable [LinearOrder T]

def after (c : T) (events : List T) : Nat := events.countP (c < ·)

def recent (c : T) (ledger : List (Entry T)) : List (Entry T) := ledger.filter (c < ·.time)

def used (c : T) (ledger : List (Entry T)) : Nat := ((recent c ledger).map Entry.count).sum

/-- From the time `c` on, the ledger accounts for every event. -/
def Covers (ledger : List (Entry T)) (c : T) (events : List T) : Prop :=
  ∀ d, c ≤ d → after d events ≤ used d ledger

variable {ledger : List (Entry T)} {events : List T}

theorem Covers.mono {c d : T} (h : Covers ledger c events) (hcd : c ≤ d) : Covers ledger d events :=
  fun e hde => h e (hcd.trans hde)

theorem covers_nil (ledger : List (Entry T)) (c : T) : Covers ledger c [] := by
  intro d _
  simp [after]

theorem used_recent {c d : T} (h : c ≤ d) (ledger : List (Entry T)) :
    used d (recent c ledger) = used d ledger := by
  unfold used recent
  rw [List.filter_filter]
  congr 2
  apply List.filter_congr
  intro e _
  simp only [Bool.and_eq_left_iff_imp, decide_eq_true_eq]
  exact h.trans_lt

theorem Covers.recent {c : T} (h : Covers ledger c events) : Covers (recent c ledger) c events := by
  intro d hcd
  rw [used_recent hcd]
  exact h d hcd

theorem used_perm {c : T} {ledger ledger' : List (Entry T)} (h : ledger.Perm ledger') :
    used c ledger = used c ledger' :=
  ((h.filter _).map _).sum_eq

theorem Covers.perm {ledger ledger' : List (Entry T)} {c : T}
    (h : Covers ledger c events) (hp : ledger.Perm ledger') : Covers ledger' c events :=
  fun d hcd => used_perm (c := d) hp ▸ h d hcd

theorem Covers.append {c : T} {events new : List T} {e : Entry T}
    (h : Covers ledger c events) (hsize : new.length ≤ e.count) (htime : ∀ t ∈ new, t ≤ e.time) :
    Covers (ledger ++ [e]) c (new ++ events) := by
  intro d hcd
  have hold := h d hcd
  have hnew : after d new ≤ used d [e] := by
    by_cases hd : d < e.time
    · have hcount : after d new ≤ new.length := List.countP_le_length
      simp only [used, Windows.recent, List.filter_cons, hd, decide_true, if_true, List.filter_nil,
        List.map_cons, List.map_nil, List.sum_cons, List.sum_nil]
      omega
    · have hnone : after d new = 0 := by
        apply List.countP_eq_zero.mpr
        intro t ht hlt
        exact hd ((of_decide_eq_true hlt).trans_le (htime t ht))
      omega
  have hsplit : used d (ledger ++ [e]) = used d ledger + used d [e] := by
    simp only [used, Windows.recent, List.filter_append, List.map_append, List.sum_append]
  have hcount : after d (new ++ events) = after d new + after d events := List.countP_append
  omega

end

variable [AddCommGroup T] [LinearOrder T] [IsOrderedAddMonoid T]

/-- The events of the window of length `w` that begins at `x`. -/
def inside (w x : T) (events : List T) : Nat := events.countP fun t => x ≤ t ∧ t < x + w

/-- A group that starts at `s` and fits into what is left of the limit. -/
theorem inside_append_le {w s : T} {limit : Nat} {ledger : List (Entry T)} {events new : List T}
    (hcover : Covers ledger (s - w) events) (hnew : ∀ t ∈ new, s ≤ t)
    (hfits : new.length + used (s - w) ledger ≤ limit) (h : ∀ x, inside w x events ≤ limit)
    (x : T) : inside w x (new ++ events) ≤ limit := by
  have hcount : inside w x (new ++ events) = inside w x new + inside w x events :=
    List.countP_append
  by_cases hmeet : ∃ t ∈ new, x ≤ t ∧ t < x + w
  · obtain ⟨t, ht, -, htx⟩ := hmeet
    have hstart : s - w < x := sub_lt_iff_lt_add.mpr ((hnew t ht).trans_lt htx)
    -- Every older event of this window is still in the ledger of the group.
    have hold : inside w x events ≤ after (s - w) events := by
      apply List.countP_mono_left
      intro u _ hu
      simp only [decide_eq_true_eq] at hu ⊢
      exact hstart.trans_le hu.1
    have hcovered := hcover (s - w) le_rfl
    have hlen : inside w x new ≤ new.length := List.countP_le_length
    omega
  · have hnone : inside w x new = 0 := by
      apply List.countP_eq_zero.mpr
      intro t ht hin
      exact hmeet ⟨t, ht, of_decide_eq_true hin⟩
    have hx := h x
    omega

end Windows
