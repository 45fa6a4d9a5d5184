import Mathlib

/-!
# Directory trees with symbolic links

A tree says what stands at each path of real components. Following a list of steps from a
directory replaces every symbolic link by the steps of its target. `Follows` says how many
links were followed; `follow` does it with a budget. Chains of any length and cycles are
allowed: a cycle uses up every budget.
-/

namespace Symlinks

variable {κ : Type}

inductive Step (κ : Type) where
  | stay
  | up
  | name (k : κ)
  deriving DecidableEq, Repr

inductive Kind (κ : Type) where
  | dir
  | file
  | link (absolute : Bool) (target : List (Step κ))
  deriving DecidableEq, Repr

structure Tree (κ : Type) where
  entry : List κ → Option (Kind κ)
  rooted : ∀ p k, entry (p ++ [k]) ≠ none → p = [] ∨ entry p = some .dir

/-- Where the target of a link in `dir` starts. -/
def start (absolute : Bool) (dir : List κ) : List κ := if absolute then [] else dir

variable (t : Tree κ)

/-- Following the steps from `dir` ends at `dest` and meets `n` links on the way. Only the last
step may lead to a file. -/
inductive Follows : Nat → List κ → List (Step κ) → List κ → Prop where
  | done (dir : List κ) : Follows 0 dir [] dir
  | stay {n dir rest dest} (h : Follows n dir rest dest) : Follows n dir (.stay :: rest) dest
  | up {n dir rest dest} (h : Follows n dir.dropLast rest dest) : Follows n dir (.up :: rest) dest
  | dir {n dir k rest dest} (hk : t.entry (dir ++ [k]) = some .dir)
      (h : Follows n (dir ++ [k]) rest dest) : Follows n dir (.name k :: rest) dest
  | file {dir k} (hk : t.entry (dir ++ [k]) = some .file) : Follows 0 dir [.name k] (dir ++ [k])
  | link {n dir k absolute target rest dest} (hk : t.entry (dir ++ [k]) = some (.link absolute target))
      (h : Follows n (start absolute dir) (target ++ rest) dest) : Follows (n + 1) dir (.name k :: rest) dest

inductive Halt (κ : Type) where
  | here (dest : List κ)
  | via (dir : List κ) (steps : List (Step κ))

def advance : List κ → List (Step κ) → Option (Halt κ)
  | dir, [] => some (.here dir)
  | dir, .stay :: rest => advance dir rest
  | dir, .up :: rest => advance dir.dropLast rest
  | dir, .name k :: rest =>
    match t.entry (dir ++ [k]) with
    | none => none
    | some .dir => advance (dir ++ [k]) rest
    | some .file => if rest.isEmpty then some (.here (dir ++ [k])) else none
    | some (.link absolute target) => some (.via (start absolute dir) (target ++ rest))

/-- Follow at most `budget` links; the rest of the budget is returned. -/
def follow (budget : Nat) (dir : List κ) (steps : List (Step κ)) : Option (List κ × Nat) :=
  match advance t dir steps with
  | none => none
  | some (.here dest) => some (dest, budget)
  | some (.via dir steps) =>
    match budget with
    | 0 => none
    | budget + 1 => follow budget dir steps

variable {t} {steps : List (Step κ)} {dir dest : List κ}

theorem advance_here (h : advance t dir steps = some (.here dest)) : Follows t 0 dir steps dest := by
  induction steps generalizing dir with
  | nil =>
    cases h
    exact .done _
  | cons step rest ih =>
    cases step with
    | stay => exact .stay (ih h)
    | up => exact .up (ih h)
    | name k =>
      rw [advance] at h
      split at h
      · cases h
      · next hk => exact .dir hk (ih h)
      · next hk =>
        split at h
        · next hrest =>
          cases h
          rw [List.isEmpty_iff.mp hrest]
          exact .file hk
        · cases h
      · cases h

theorem advance_via {dir dir' dest : List κ} {steps steps' : List (Step κ)} {n : Nat}
    (h : advance t dir steps = some (.via dir' steps')) (hf : Follows t n dir' steps' dest) :
    Follows t (n + 1) dir steps dest := by
  induction steps generalizing dir with
  | nil => cases h
  | cons step rest ih =>
    cases step with
    | stay => exact .stay (ih h)
    | up => exact .up (ih h)
    | name k =>
      rw [advance] at h
      split at h
      · cases h
      · next hk => exact .dir hk (ih h)
      · split at h
        · cases h
        · cases h
      · next hk =>
        cases h
        exact .link hk hf

theorem follow_sound {budget left : Nat} (h : follow t budget dir steps = some (dest, left)) :
    ∃ n, n + left = budget ∧ Follows t n dir steps dest := by
  induction budget generalizing dir steps with
  | zero =>
    rw [follow] at h
    split at h
    · cases h
    · next hadv =>
      cases h
      exact ⟨0, rfl, advance_here hadv⟩
    · cases h
  | succ budget ih =>
    rw [follow] at h
    split at h
    · cases h
    · next hadv =>
      cases h
      exact ⟨0, Nat.zero_add _, advance_here hadv⟩
    · next hadv =>
      obtain ⟨n, hn, hf⟩ := ih h
      exact ⟨n + 1, by omega, advance_via hadv hf⟩

theorem follow_complete {n left : Nat}
    (h : Follows t n dir steps dest) : follow t (n + left) dir steps = some (dest, left) := by
  induction h with
  | done dir => rw [follow]; simp [advance]
  | stay h ih =>
    rw [follow] at ih ⊢
    exact ih
  | up h ih =>
    rw [follow] at ih ⊢
    exact ih
  | dir hk h ih =>
    rw [follow] at ih ⊢
    rw [advance, hk]
    exact ih
  | file hk =>
    rw [follow, advance, hk]
    simp
  | link hk h ih =>
    rw [follow, advance, hk, Nat.add_right_comm]
    exact ih

theorem Follows.unique {n m : Nat} {dir dest dest' : List κ}
    (h : Follows t n dir steps dest) (h' : Follows t m dir steps dest') : n = m ∧ dest = dest' := by
  have hn : follow t (n + m) dir steps = some (dest, m) := follow_complete h
  have hm : follow t (n + m) dir steps = some (dest', n) := Nat.add_comm n m ▸ follow_complete h'
  rw [hn] at hm
  cases hm
  exact ⟨rfl, rfl⟩

theorem Follows.split {n : Nat} {a b : List (Step κ)} (h : Follows t n dir (a ++ b) dest) :
    ∃ n₁ n₂ mid, n₁ + n₂ = n ∧ Follows t n₁ dir a mid ∧ Follows t n₂ mid b dest := by
  generalize hs : a ++ b = steps at h
  induction h generalizing a with
  | done dir =>
    obtain ⟨rfl, rfl⟩ := List.append_eq_nil_iff.mp hs
    exact ⟨0, 0, dir, rfl, .done dir, .done dir⟩
  | stay h ih =>
    cases a with
    | nil =>
      change b = _ at hs
      subst hs
      exact ⟨0, _, _, Nat.zero_add _, .done _, .stay h⟩
    | cons step a =>
      obtain ⟨rfl, hs'⟩ := List.cons.inj hs
      obtain ⟨n₁, n₂, mid, hn, h₁, h₂⟩ := ih hs'
      exact ⟨n₁, n₂, mid, hn, .stay h₁, h₂⟩
  | up h ih =>
    cases a with
    | nil =>
      change b = _ at hs
      subst hs
      exact ⟨0, _, _, Nat.zero_add _, .done _, .up h⟩
    | cons step a =>
      obtain ⟨rfl, hs'⟩ := List.cons.inj hs
      obtain ⟨n₁, n₂, mid, hn, h₁, h₂⟩ := ih hs'
      exact ⟨n₁, n₂, mid, hn, .up h₁, h₂⟩
  | dir hk h ih =>
    cases a with
    | nil =>
      change b = _ at hs
      subst hs
      exact ⟨0, _, _, Nat.zero_add _, .done _, .dir hk h⟩
    | cons step a =>
      obtain ⟨rfl, hs'⟩ := List.cons.inj hs
      obtain ⟨n₁, n₂, mid, hn, h₁, h₂⟩ := ih hs'
      exact ⟨n₁, n₂, mid, hn, .dir hk h₁, h₂⟩
  | file hk =>
    cases a with
    | nil =>
      change b = _ at hs
      subst hs
      exact ⟨0, _, _, Nat.zero_add _, .done _, .file hk⟩
    | cons step a =>
      obtain ⟨rfl, hs'⟩ := List.cons.inj hs
      obtain ⟨rfl, rfl⟩ := List.append_eq_nil_iff.mp hs'
      exact ⟨0, 0, _, rfl, .file hk, .done _⟩
  | link hk h ih =>
    cases a with
    | nil =>
      change b = _ at hs
      subst hs
      exact ⟨0, _, _, Nat.zero_add _, .done _, .link hk h⟩
    | cons step a =>
      obtain ⟨rfl, rfl⟩ := List.cons.inj hs
      obtain ⟨n₁, n₂, mid, hn, h₁, h₂⟩ := ih (List.append_assoc _ a b)
      exact ⟨n₁ + 1, n₂, mid, by omega, .link hk h₁, h₂⟩

theorem Follows.append {n m : Nat} {dir mid dest : List κ} {a b : List (Step κ)}
    (h : Follows t n dir a mid) (h' : Follows t m mid b dest) (hmid : mid = [] ∨ t.entry mid ≠ some .file) :
    Follows t (n + m) dir (a ++ b) dest := by
  induction h with
  | done dir => rwa [Nat.zero_add]
  | stay h ih => exact .stay (ih h' hmid)
  | up h ih => exact .up (ih h' hmid)
  | dir hk h ih => exact .dir hk (ih h' hmid)
  | file hk =>
    rcases hmid with hnil | hne
    · simp at hnil
    · exact absurd hk hne
  | link hk h ih =>
    have hnext := ih h' hmid
    rw [List.append_assoc] at hnext
    rw [Nat.add_right_comm]
    exact .link hk hnext

theorem Follows.not_file {m : Nat} {mid dest : List κ} {k : κ} {rest : List (Step κ)}
    (h : Follows t m mid (.name k :: rest) dest) : mid = [] ∨ t.entry mid ≠ some .file := by
  have hsome : t.entry (mid ++ [k]) ≠ none := by
    cases h with
    | dir hk => rw [hk]; nofun
    | file hk => rw [hk]; nofun
    | link hk => rw [hk]; nofun
  rcases t.rooted mid k hsome with hnil | hdir
  · exact Or.inl hnil
  · exact Or.inr (by rw [hdir]; nofun)

theorem Follows.names {P : κ → Prop} (hlinks : ∀ p absolute target,
      t.entry p = some (.link absolute target) → ∀ k, Step.name k ∈ target → P k)
    {n : Nat} (h : Follows t n dir steps dest)
    (hdir : ∀ k ∈ dir, P k) (hsteps : ∀ k, Step.name k ∈ steps → P k) : ∀ k ∈ dest, P k := by
  induction h with
  | done dir => exact hdir
  | stay h ih => exact ih hdir fun k hk => hsteps k (List.mem_cons_of_mem _ hk)
  | up h ih =>
    exact ih (fun k hk => hdir k ((List.dropLast_prefix _).subset hk))
      fun k hk => hsteps k (List.mem_cons_of_mem _ hk)
  | dir hk h ih =>
    refine ih (fun k' hk' => ?_) fun k' hk' => hsteps k' (List.mem_cons_of_mem _ hk')
    rcases List.mem_append.mp hk' with hk' | hk'
    · exact hdir k' hk'
    · exact List.mem_singleton.mp hk' ▸ hsteps _ List.mem_cons_self
  | file hk =>
    intro k' hk'
    rcases List.mem_append.mp hk' with hk' | hk'
    · exact hdir k' hk'
    · exact List.mem_singleton.mp hk' ▸ hsteps _ List.mem_cons_self
  | link hk h ih =>
    refine ih (fun k' hk' => ?_) fun k' hk' => ?_
    · unfold start at hk'
      split at hk'
      · exact absurd hk' List.not_mem_nil
      · exact hdir k' hk'
    · rcases List.mem_append.mp hk' with hk' | hk'
      · exact hlinks _ _ _ hk k' hk'
      · exact hsteps k' (List.mem_cons_of_mem _ hk')

end Symlinks
