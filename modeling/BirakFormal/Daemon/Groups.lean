import BirakFormal.Daemon.Budget

/-!
# Groups of deletions are decided exactly

A group forgets names beyond its bound and takes over the count of names that another group has
forgotten. It forgets only once it is full, and a full group that has forgotten anything does not
fit into any budget.
-/

namespace BirakFormal

open Interruption Prog

/-- The groups that calls of `add` and `merge` build while the limit stays, and the names that were
added. -/
inductive Collects (limit : Nat) : DeletionGroup → Finset String → Prop where
  | sweep : Collects limit (.new limit) ∅
  | events : Collects limit (.new (max 1 limit)) ∅
  | add {g : DeletionGroup} {added : Finset String} (name : String) : Collects limit g added →
      Collects limit (g.add name) (insert name added)
  | merge {g other : DeletionGroup} {added more : Finset String} : Collects limit g added →
      Collects limit other more → Collects limit (g.merge (some other)) (added ∪ more)

structure Exact (limit : Nat) (g : DeletionGroup) (added : Finset String) : Prop where
  keep : g.keep = limit
  nodup : g.names.Nodup
  mem_added : ∀ x ∈ g.names, x ∈ added
  card_le : added.card ≤ g.count
  length_le : g.names.length ≤ limit
  full : g.names.length = g.count ∨ g.names.length = limit

section
variable {limit : Nat} {g other : DeletionGroup} {added more : Finset String}

theorem exact_new (limit : Nat) : Exact limit (.new limit) ∅ :=
  ⟨rfl, .nil, nofun, le_rfl, Nat.zero_le _, Or.inl rfl⟩

theorem Exact.add (h : Exact limit g added) (name : String) : Exact limit (g.add name) (insert name added) := by
  have hcard : (insert name added).card ≤ g.count + 1 :=
    (Finset.card_insert_le name added).trans (Nat.add_le_add_right h.card_le 1)
  unfold DeletionGroup.add
  split
  · next hin =>
    rw [Finset.insert_eq_of_mem (h.mem_added name hin)]
    exact h
  · next hin =>
    have hadded : ∀ x ∈ g.names, x ∈ insert name added := fun x hx => Finset.mem_insert_of_mem (h.mem_added x hx)
    split
    · next hroom =>
      rw [h.keep] at hroom
      refine ⟨h.keep, ?_, ?_, hcard, ?_, ?_⟩
      · exact List.nodup_append.mpr ⟨h.nodup, List.nodup_singleton name, fun a ha b hb => by
          rintro rfl
          exact hin (List.mem_singleton.mp hb ▸ ha)⟩
      · intro x hx
        rcases List.mem_append.mp hx with hx | hx
        · exact hadded x hx
        · exact List.mem_singleton.mp hx ▸ Finset.mem_insert_self _ _
      · rw [List.length_append]
        exact hroom
      · rcases h.full with hfull | hfull
        · exact Or.inl (by rw [List.length_append, hfull, List.length_singleton])
        · omega
    · next hroom =>
      rw [h.keep] at hroom
      exact ⟨h.keep, h.nodup, hadded, hcard, h.length_le, Or.inr (Nat.le_antisymm h.length_le (not_lt.mp hroom))⟩

theorem names_add (g : DeletionGroup) (name : String) : g.names ⊆ (g.add name).names := by
  unfold DeletionGroup.add
  split
  · exact List.Subset.refl _
  · split
    · exact List.subset_append_left _ _
    · exact List.Subset.refl _

theorem Exact.mem_add (h : Exact limit g added) (name : String) :
    name ∈ (g.add name).names ∨ (g.add name).names.length = limit := by
  unfold DeletionGroup.add
  split
  · next hin => exact Or.inl hin
  · split
    · exact Or.inl (List.mem_append_right _ (List.mem_singleton_self name))
    · next hroom =>
      rw [h.keep] at hroom
      exact Or.inr (Nat.le_antisymm h.length_le (not_lt.mp hroom))

theorem Exact.length_of_subset {l : List String} (h : Exact limit g added) (hl : l.Nodup) (hsub : l ⊆ g.names)
    (hlen : l.length = limit) : g.names.length = limit :=
  Nat.le_antisymm h.length_le (hlen ▸ (hl.subperm hsub).length_le)

theorem Exact.foldl (h : Exact limit g added) (l : List String) :
    Exact limit (l.foldl DeletionGroup.add g) (added ∪ l.toFinset) ∧ g.names ⊆ (l.foldl DeletionGroup.add g).names ∧
      (l ⊆ (l.foldl DeletionGroup.add g).names ∨ (l.foldl DeletionGroup.add g).names.length = limit) := by
  induction l generalizing g added with
  | nil =>
    rw [List.toFinset_nil, Finset.union_empty]
    exact ⟨h, List.Subset.refl _, Or.inl (List.nil_subset _)⟩
  | cons name l ih =>
    obtain ⟨hexact, hsub, hall⟩ := ih (h.add name)
    have hunion : insert name added ∪ l.toFinset = added ∪ (name :: l).toFinset := by
      rw [List.toFinset_cons, Finset.insert_union, Finset.union_insert]
    refine ⟨hunion ▸ hexact, List.Subset.trans (names_add g name) hsub, ?_⟩
    rcases hall with hall | hfull
    · rcases h.mem_add name with hin | hfull
      · exact Or.inl (List.cons_subset.mpr ⟨hsub hin, hall⟩)
      · exact Or.inr (hexact.length_of_subset (h.add name).nodup hsub hfull)
    · exact Or.inr hfull

theorem Exact.merge (h : Exact limit g added) (h' : Exact limit other more) :
    Exact limit (g.merge (some other)) (added ∪ more) := by
  obtain ⟨hall, -, hin⟩ := h.foldl other.names
  -- Names that the other group has forgotten are counted with it.
  have hforgotten : (more \ other.names.toFinset).card ≤ other.count - other.names.length := by
    have hsub : other.names.toFinset ⊆ more := fun x hx => h'.mem_added x (List.mem_toFinset.mp hx)
    rw [Finset.card_sdiff_of_subset hsub, List.toFinset_card_of_nodup h'.nodup]
    exact Nat.sub_le_sub_right h'.card_le _
  have hunion : added ∪ more ⊆ added ∪ other.names.toFinset ∪ (more \ other.names.toFinset) := by
    intro x hx
    simp only [Finset.mem_union, Finset.mem_sdiff] at hx ⊢
    tauto
  refine ⟨hall.keep, hall.nodup, fun x hx => ?_, ?_, hall.length_le, ?_⟩
  · rcases Finset.mem_union.mp (hall.mem_added x hx) with hx | hx
    · exact Finset.mem_union_left _ hx
    · exact Finset.mem_union_right _ (h'.mem_added x (List.mem_toFinset.mp hx))
  · calc (added ∪ more).card
        ≤ (added ∪ other.names.toFinset ∪ (more \ other.names.toFinset)).card := Finset.card_le_card hunion
      _ ≤ (added ∪ other.names.toFinset).card + (more \ other.names.toFinset).card := Finset.card_union_le _ _
      _ ≤ _ := Nat.add_le_add hall.card_le hforgotten
  · rcases h'.full with hfull | hfull
    · rcases hall.full with hall | hall
      · refine Or.inl (hall.trans ?_)
        show _ = _ + (other.count - other.names.length)
        rw [hfull, Nat.sub_self, Nat.add_zero]
      · exact Or.inr hall
    · rcases hin with hin | hin
      · exact Or.inr (hall.length_of_subset h'.nodup hin hfull)
      · exact Or.inr hin

theorem Collects.exact (hlimit : 0 < limit) (h : Collects limit g added) : Exact limit g added := by
  induction h with
  | sweep => exact exact_new limit
  | events =>
    rw [Nat.max_eq_right hlimit]
    exact exact_new limit
  | add name _ ih => exact ih.add name
  | merge _ _ ih ih' => exact ih.merge ih'

theorem Exact.mem_names (h : Exact limit g added) (hfits : g.count ≤ limit) (x : String) :
    x ∈ g.names ↔ x ∈ added := by
  have hlen : g.count ≤ g.names.length := by
    rcases h.full with hfull | hfull
    · exact hfull.ge
    · omega
  have hsub : g.names.toFinset ⊆ added := fun y hy => h.mem_added y (List.mem_toFinset.mp hy)
  have heq : g.names.toFinset = added := by
    apply Finset.eq_of_subset_of_card_le hsub
    rw [List.toFinset_card_of_nodup h.nodup]
    exact h.card_le.trans hlen
  rw [← heq, List.mem_toFinset]

end

section
variable (cfg : Config) (env : Surroundings) (limit : Nat)

def deletionBudget : Breaker Nat := do
  loadDeletionWindow
  publishedInWindow env

def decideGroup (group : Option DeletionGroup) (authoritative : Bool) (used : Nat) : Breaker Unit := do
  let alreadyHeld ← look fun w => decide (0 < w.held)
  match group.filter fun g => g.count ≠ 0 with
  | none => onlyIf authoritative (setHeldDeletions 0 "")
  | some g =>
    if !authoritative && alreadyHeld then do
      let message ← look fun w => w.heldError
      raise (errHeldDeletions message)
    else if 0 < limit ∧ limit < used + g.count then do
      setHeldDeletions g.count (holding limit used g)
      raise (errHeldDeletions (holding limit used g))
    else publishGroup cfg env g authoritative

theorem settleDeletions_eq (group : Option DeletionGroup) (authoritative : Bool) :
    settleDeletions cfg env limit group authoritative =
      deletionBudget env >>= decideGroup cfg env limit group authoritative := by
  unfold deletionBudget
  rw [Prog.bind_assoc]
  rfl

def HoldKept (w w' : Guarded) : Prop :=
  w'.held = w.held ∧ w'.heldError = w.heldError ∧ w'.node.store.tombstones = w.node.store.tombstones

theorem holdKeptFrame : Frame HoldKept :=
  ⟨fun _ => ⟨rfl, rfl, rfl⟩, fun h h' => ⟨h'.1.trans h.1, h'.2.1.trans h.2.1, h'.2.2.trans h.2.2⟩⟩

variable {cfg env limit}

theorem deletionBudget_holdKept : (deletionBudget env).Within HoldKept := by
  have F := holdKeptFrame
  have hload : loadDeletionWindow.Within HoldKept := by
    apply F.bind (F.look _)
    intro loaded
    split
    · exact F.pure _
    · refine F.bind (F.alter fun _ => ?_) fun _ => F.bind (F.look _).attempt fun r => ?_
      · exact ⟨rfl, rfl, rfl⟩
      · split
        · exact F.alter fun _ => ⟨rfl, rfl, rfl⟩
        · exact F.alter fun _ => ⟨rfl, rfl, rfl⟩
  refine F.bind hload fun _ => F.bind (F.alter fun _ => ?_) fun _ => F.perform fun _ => ?_
  · exact ⟨rfl, rfl, rfl⟩
  · exact ⟨rfl, rfl, rfl⟩

variable {g : DeletionGroup} {w : Guarded}

theorem decideGroup_past_hold {used : Nat} (hheld : 0 < w.held) :
    (decideGroup cfg env limit (some g) false used).Safe (fun u => u = w) (fun _ u => u = w) w := by
  refine safe_look_bind rfl ?_
  split
  · exact safe_pure rfl
  · rw [decide_eq_true hheld]
    exact safe_look_bind rfl (safe_raise rfl)

theorem decideGroup_over_limit {authoritative : Bool} {used : Nat}
    (hlimit : 0 < limit) (hover : limit < used + g.count) :
    (decideGroup cfg env limit (some g) authoritative used).Safe (fun u => u.node = w.node)
      (fun _ u => u.node = w.node) w := by
  have hclear : (onlyIf authoritative (setHeldDeletions 0 "")).Safe (fun u => u.node = w.node)
      (fun _ u => u.node = w.node) w := safe_onlyIf (fun _ => safe_alter rfl rfl) fun _ => rfl
  refine safe_look_bind rfl ?_
  split
  · exact hclear
  · next g' hg' =>
    obtain ⟨hg, -⟩ := Option.filter_eq_some_iff.mp hg'
    obtain rfl := Option.some.inj hg
    split
    · exact safe_look_bind rfl (safe_raise rfl)
    · rw [if_pos ⟨hlimit, hover⟩]
      exact safe_alter_bind rfl (safe_raise rfl)

theorem decideGroup_fits {authoritative : Bool} {used : Nat} (fs : List Fault)
    (hfits : used + g.count ≤ limit) (hcount : g.count ≠ 0) (hheld : authoritative = true ∨ w.held = 0) :
    (decideGroup cfg env limit (some g) authoritative used).run (.pass :: fs) w =
      (publishGroup cfg env g authoritative).run fs w := by
  have hfilter : (some g).filter (fun g => decide (g.count ≠ 0)) = some g := by simp [hcount]
  have hopen : (!authoritative && decide (0 < w.held)) = false := by
    rcases hheld with h | h
    · simp [h]
    · simp [h]
  show (match (some g).filter (fun g => decide (g.count ≠ 0)) with
    | none => onlyIf authoritative (setHeldDeletions 0 "")
    | some g => _ : Breaker Unit).run fs w = _
  simp only [hfilter, hopen]
  rw [if_neg (by simp), if_neg (by omega)]

end

def pairGroup : DeletionGroup := ((DeletionGroup.new 1).add "a").merge (some ((DeletionGroup.new 1).add "b"))

end BirakFormal
