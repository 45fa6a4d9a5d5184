import BirakFormal.Shared.Tables

/-!
# Trees of directories and leaves

Paths are any type with a list of ancestors for each path. A `FileTree` maps paths to
directories and leaves, and carries the fact that everything above an entry is a
directory; a path below a leaf therefore cannot hold an entry. The root is not a path.

The operations are those of a volume seen by one process: replace a leaf, remove an entry
that nothing lies beneath, create a chain of directories.
-/

namespace FileTrees

open Tables

/-- Paths with their strict ancestors, nearest first. -/
class TreeOrder (P : Type) where
  ancestors : P → List P
  ancestors_trans : ∀ {p a b : P}, a ∈ ancestors p → b ∈ ancestors a → b ∈ ancestors p
  ancestors_irrefl : ∀ p : P, p ∉ ancestors p
  ancestors_linear : ∀ {p a b : P}, a ∈ ancestors p → b ∈ ancestors p → a = b ∨ a ∈ ancestors b ∨ b ∈ ancestors a

/-- `p` lies strictly beneath `a`. -/
def Beneath {P : Type} [TreeOrder P] (p a : P) : Prop := a ∈ TreeOrder.ancestors p

instance {P : Type} [DecidableEq P] [TreeOrder P] (p a : P) : Decidable (Beneath p a) :=
  inferInstanceAs (Decidable (a ∈ TreeOrder.ancestors p))

theorem Beneath.trans {P : Type} [TreeOrder P] {p a b : P} (h : Beneath p a) (h' : Beneath a b) :
    Beneath p b :=
  TreeOrder.ancestors_trans h h'

theorem Beneath.ne {P : Type} [TreeOrder P] {p a : P} (h : Beneath p a) : p ≠ a := by
  rintro rfl
  exact TreeOrder.ancestors_irrefl p h

inductive Entry (φ : Type) where
  | dir
  | leaf (x : φ)
  deriving DecidableEq, Repr

/-- Whether a path is a directory is decided without comparing leaves. -/
instance {φ : Type} : (e : Option (Entry φ)) → Decidable (e = some .dir)
  | some .dir => .isTrue rfl
  | some (.leaf _) => .isFalse nofun
  | none => .isFalse nofun

/-- The entry a table of paths holds at `p`. -/
def entryAt {P φ : Type} [DecidableEq P] (entries : Table (Prod.fst : P × Entry φ → P)) (p : P) :
    Option (Entry φ) :=
  (entries.find p).map Prod.snd

theorem entryAt_put {P φ : Type} [DecidableEq P] (entries : Table (Prod.fst : P × Entry φ → P))
    (p q : P) (e : Entry φ) :
    entryAt (entries.put (p, e)) q = if q = p then some e else entryAt entries q := by
  unfold entryAt
  rw [Table.find_put]
  split <;> rfl

theorem entryAt_erase {P φ : Type} [DecidableEq P] (entries : Table (Prod.fst : P × Entry φ → P))
    (p q : P) : entryAt (entries.erase p) q = if q = p then none else entryAt entries q := by
  unfold entryAt
  rw [Table.find_erase]
  split <;> rfl

structure FileTree (P φ : Type) [DecidableEq P] [TreeOrder P] where
  entries : Table (Prod.fst : P × Entry φ → P)
  rooted : ∀ p a, Beneath p a → entryAt entries p ≠ none → entryAt entries a = some .dir

namespace FileTree

variable {P φ : Type} [DecidableEq P] [TreeOrder P]

def lookup (t : FileTree P φ) (p : P) : Option (Entry φ) := entryAt t.entries p

def empty : FileTree P φ := ⟨Table.empty, fun _ _ _ h => absurd rfl h⟩

variable {t : FileTree P φ}

theorem dir_of_beneath {p a : P} (h : Beneath p a) (hp : t.lookup p ≠ none) :
    t.lookup a = some .dir :=
  t.rooted p a h hp

theorem lookup_ne_none_iff {p : P} :
    t.lookup p ≠ none ↔ ∃ e, (p, e) ∈ t.entries.rows := by
  constructor
  · intro h
    cases hf : t.entries.find p with
    | none => exact absurd (by simp [lookup, entryAt, hf]) h
    | some r =>
      obtain ⟨q, e⟩ := r
      obtain rfl : q = p := Table.find_key hf
      exact ⟨e, Table.find_mem hf⟩
  · rintro ⟨e, he⟩
    have : t.entries.find p = some (p, e) := Table.mem_rows_iff.mp he
    simp [lookup, entryAt, this]

/-- The paths of all entries strictly beneath `p`. -/
def under (t : FileTree P φ) (p : P) : List P :=
  (t.entries.rows.map Prod.fst).filter fun q => Beneath q p

theorem mem_under {p q : P} :
    q ∈ t.under p ↔ t.lookup q ≠ none ∧ Beneath q p := by
  rw [lookup_ne_none_iff]
  simp [under]

/-- Put a leaf at `p`, over a leaf that is there. Refused at a directory and where a parent
directory is missing. -/
def write (t : FileTree P φ) (p : P) (x : φ) : Option (FileTree P φ) :=
  if h : t.lookup p ≠ some .dir ∧ ∀ a ∈ TreeOrder.ancestors p, t.lookup a = some .dir then
    some {
      entries := t.entries.put (p, .leaf x)
      rooted := by
        intro q a hqa hq
        rw [entryAt_put] at hq ⊢
        by_cases hap : a = p
        · subst hap
          rw [if_neg hqa.ne] at hq
          exact absurd (t.rooted q a hqa hq) h.1
        · rw [if_neg hap]
          by_cases hqp : q = p
          · subst hqp; exact h.2 a hqa
          · rw [if_neg hqp] at hq; exact t.rooted q a hqa hq }
  else none

theorem write_eq_some {t t' : FileTree P φ} {p : P} {x : φ} (h : t.write p x = some t') :
    t.lookup p ≠ some .dir ∧ (∀ a, Beneath p a → t.lookup a = some .dir) ∧
      ∀ q, t'.lookup q = if q = p then some (.leaf x) else t.lookup q := by
  unfold write at h
  split at h
  · next hc => cases h; exact ⟨hc.1, hc.2, fun q => entryAt_put _ _ _ _⟩
  · cases h

theorem write_ne_none {p : P} (x : φ) (hp : t.lookup p ≠ some .dir)
    (ha : ∀ a, Beneath p a → t.lookup a = some .dir) : ∃ t', t.write p x = some t' := by
  unfold write
  rw [dif_pos ⟨hp, ha⟩]
  exact ⟨_, rfl⟩

def remove (t : FileTree P φ) (p : P) : Option (FileTree P φ) :=
  if h : ∀ q ∈ t.under p, False then
    some {
      entries := t.entries.erase p
      rooted := by
        intro q a hqa hq
        rw [entryAt_erase] at hq ⊢
        by_cases hqp : q = p
        · simp [hqp] at hq
        · rw [if_neg hqp] at hq
          have hne : a ≠ p := by
            rintro rfl
            exact h q (mem_under.mpr ⟨hq, hqa⟩)
          rw [if_neg hne]
          exact t.rooted q a hqa hq }
  else none

theorem remove_eq_some {t t' : FileTree P φ} {p : P} (h : t.remove p = some t') :
    t.under p = [] ∧ ∀ q, t'.lookup q = if q = p then none else t.lookup q := by
  unfold remove at h
  split at h
  · next hc =>
    cases h
    exact ⟨List.eq_nil_iff_forall_not_mem.mpr hc, fun q => entryAt_erase _ _ _⟩
  · cases h

/-- Make sure `p` is a directory; its parent directories have to exist. -/
def mkdir (t : FileTree P φ) (p : P) : Option (FileTree P φ) :=
  match t.lookup p with
  | some .dir => some t
  | some (.leaf _) => none
  | none =>
    if h : ∀ a ∈ TreeOrder.ancestors p, t.lookup a = some .dir then
      some {
        entries := t.entries.put (p, .dir)
        rooted := by
          intro q a hqa hq
          rw [entryAt_put] at hq ⊢
          split
          · rfl
          · by_cases hqp : q = p
            · subst hqp; exact h a hqa
            · rw [if_neg hqp] at hq; exact t.rooted q a hqa hq }
    else none

def mkdirs (t : FileTree P φ) : List P → Option (FileTree P φ)
  | [] => some t
  | p :: ps => (t.mkdir p).bind fun t' => t'.mkdirs ps

end FileTree

end FileTrees
