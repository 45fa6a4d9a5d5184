import Mathlib

/-!
# Tables with a primary key

A `Table key` is a list of rows no two of which share a key. Its operations are those of
a keyed relation: look a row up, put a row in place of the one with its key, erase a key.
The rows stay enumerable, so a query over the whole table is a query over a list.
-/

namespace Tables

variable {κ α : Type}

structure Table (key : α → κ) where
  rows : List α
  unique : (rows.map key).Nodup

namespace Table

variable {key : α → κ}

def empty : Table key := ⟨[], by simp⟩

instance : Inhabited (Table key) := ⟨empty⟩

variable [DecidableEq κ]

def find (t : Table key) (k : κ) : Option α := t.rows.find? fun r => key r = k

def erase (t : Table key) (k : κ) : Table key :=
  ⟨t.rows.filter fun r => key r ≠ k, t.unique.sublist (List.filter_sublist.map key)⟩

variable {t : Table key} {k : κ} {r : α}

theorem mem_erase_rows :
    r ∈ (t.erase k).rows ↔ r ∈ t.rows ∧ key r ≠ k := by
  simp [erase]

/-- Put `r` in place of the row that has its key, if any. -/
def put (t : Table key) (r : α) : Table key where
  rows := r :: (t.erase (key r)).rows
  unique := by
    refine List.nodup_cons.mpr ⟨fun h => ?_, (t.erase (key r)).unique⟩
    obtain ⟨r', hr', hk⟩ := List.mem_map.mp h
    exact (mem_erase_rows.mp hr').2 hk

theorem mem_put_rows {r r' : α} :
    r' ∈ (t.put r).rows ↔ r' = r ∨ r' ∈ t.rows ∧ key r' ≠ key r := by
  simp [put, mem_erase_rows]

theorem find_key (h : t.find k = some r) : key r = k := by
  simpa using List.find?_some h

theorem find_mem (h : t.find k = some r) : r ∈ t.rows :=
  List.mem_of_find?_eq_some h

theorem find_eq_none_iff : t.find k = none ↔ ∀ r ∈ t.rows, key r ≠ k := by
  simp [find]

theorem mem_rows_iff : r ∈ t.rows ↔ t.find (key r) = some r := by
  refine ⟨fun h => ?_, find_mem⟩
  cases hf : t.find (key r) with
  | none => exact absurd rfl (find_eq_none_iff.mp hf r h)
  | some r' =>
    have hinj := List.inj_on_of_nodup_map t.unique
    rw [hinj (find_mem hf) h (find_key hf)]

theorem find_eq_some_iff :
    t.find k = some r ↔ r ∈ t.rows ∧ key r = k := by
  refine ⟨fun h => ⟨find_mem h, find_key h⟩, ?_⟩
  rintro ⟨h, rfl⟩
  exact mem_rows_iff.mp h

@[simp] theorem find_put (t : Table key) (r : α) (k : κ) :
    (t.put r).find k = if k = key r then some r else t.find k := by
  split
  · next h => subst h; simp [find, put]
  · next h =>
    refine Option.ext fun r' => ?_
    rw [find_eq_some_iff, find_eq_some_iff, mem_put_rows]
    constructor
    · rintro ⟨rfl | ⟨hm, -⟩, hk⟩
      · exact absurd hk.symm h
      · exact ⟨hm, hk⟩
    · rintro ⟨hm, rfl⟩
      exact ⟨Or.inr ⟨hm, h⟩, rfl⟩

@[simp] theorem find_erase (t : Table key) (k k' : κ) :
    (t.erase k').find k = if k = k' then none else t.find k := by
  refine Option.ext fun r => ?_
  rw [find_eq_some_iff, mem_erase_rows]
  split
  · next h => subst h; simp
  · next h =>
    rw [find_eq_some_iff]
    exact ⟨fun ⟨⟨hm, _⟩, hk⟩ => ⟨hm, hk⟩, fun ⟨hm, hk⟩ => ⟨⟨hm, hk ▸ h⟩, hk⟩⟩

theorem perm_cons_erase (h : t.find k = some r) :
    t.rows.Perm (r :: (t.erase k).rows) := by
  have hnodup : t.rows.Nodup := List.Nodup.of_map key t.unique
  refine (List.perm_ext_iff_of_nodup hnodup ?_).mpr fun r' => ?_
  · refine List.nodup_cons.mpr ⟨fun hmem => ?_, hnodup.filter _⟩
    exact (mem_erase_rows.mp hmem).2 (find_key h)
  · rw [List.mem_cons, mem_erase_rows]
    constructor
    · intro hmem
      by_cases hk : key r' = k
      · left
        have hfind := mem_rows_iff.mp hmem
        rw [hk, h] at hfind
        exact (Option.some.inj hfind).symm
      · exact Or.inr ⟨hmem, hk⟩
    · rintro (rfl | ⟨hmem, -⟩)
      · exact find_mem h
      · exact hmem

theorem erase_of_find_none (h : t.find k = none) : (t.erase k).rows = t.rows :=
  List.filter_eq_self.mpr fun r hr => decide_eq_true (find_eq_none_iff.mp h r hr)

theorem length_filter_erase (t : Table key) (k : κ) (p : α → Bool) :
    ((t.erase k).rows.filter p).length + (((t.find k).filter p).toList).length = (t.rows.filter p).length := by
  cases h : t.find k with
  | none => simp [erase_of_find_none h]
  | some r =>
    rw [((perm_cons_erase h).filter p).length_eq, List.filter_cons]
    by_cases hp : p r = true
    · simp [hp]
    · simp [hp]

end Table

end Tables
