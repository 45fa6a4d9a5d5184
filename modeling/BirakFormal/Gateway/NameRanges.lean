import BirakFormal.Gateway.Catalog
import BirakFormal.Store.Dominance

/-!
# Ranges of names

The index is asked for names with a prefix as a range in byte order. The upper bound counts up the last
character that can be, and for the names below a directory it replaces the slash by the character after it.
-/

namespace BirakFormal

open Utf8 (encode decode)

theorem begins_iff_between {α : Type} [LinearOrder α] {a b : α} (hnext : ∀ c, ¬ c < a ∧ c < b ↔ c = a) (q n : List α) :
    q ++ [a] <+: n ↔ ¬ n < q ++ [a] ∧ n < q ++ [b] := by
  induction q generalizing n with
  | nil =>
    cases n with
    | nil => simp
    | cons c n =>
      simp only [List.nil_append, List.cons_prefix_cons, List.nil_prefix, and_true, List.cons_lt_cons_iff, List.not_lt_nil,
        and_false, or_false]
      rw [hnext]
      exact eq_comm
  | cons d q ih =>
    cases n with
    | nil => simp
    | cons c n =>
      rw [List.cons_append, List.cons_append, List.cons_prefix_cons, List.cons_lt_cons_iff, List.cons_lt_cons_iff, ih, not_or,
        not_and]
      constructor
      · rintro ⟨rfl, hlow, hhigh⟩
        exact ⟨⟨lt_irrefl _, fun _ => hlow⟩, .inr ⟨rfl, hhigh⟩⟩
      · rintro ⟨⟨hge, hlow⟩, hlt | ⟨rfl, hhigh⟩⟩
        · exact absurd hlt hge
        · exact ⟨rfl, hlow rfl, hhigh⟩

theorem begins_slash_iff (path name : String) :
    hasPrefix name (path ++ "/") = true ↔ path ++ "/" ≤ name ∧ name < path ++ "0" := by
  rw [← beneath_iff]
  exact ⟨beneath_range, fun h => beneath_of_range h.1 h.2⟩

variable {r : FileMeta}

namespace Store

def listSubtree (s : Store) (path : String) : List FileMeta :=
  s.files.rows.filter fun r => r.name = path || (path ++ "/" ≤ r.name && r.name < path ++ "0")

def listLiveSubtree (s : Store) (path : String) : List FileMeta :=
  s.files.rows.filter fun r => !r.deleted && (r.name = path || (path ++ "/" ≤ r.name && r.name < path ++ "0"))

theorem mem_listSubtree {s : Store} {path : String} :
    r ∈ s.listSubtree path ↔ r ∈ s.files.rows ∧ (r.name = path ∨ hasPrefix r.name (path ++ "/") = true) := by
  simp only [listSubtree, List.mem_filter, Bool.or_eq_true, Bool.and_eq_true, decide_eq_true_eq, begins_slash_iff]

theorem mem_listLiveSubtree {s : Store} {path : String} :
    r ∈ s.listLiveSubtree path ↔ r ∈ s.files.rows ∧ r.deleted = false ∧ (r.name = path ∨ hasPrefix r.name (path ++ "/") = true) := by
  simp only [listLiveSubtree, List.mem_filter, Bool.or_eq_true, Bool.and_eq_true, decide_eq_true_eq, begins_slash_iff,
    Bool.not_eq_true']

end Store

theorem inNamespace_iff {name : String} :
    inNamespace name r = true ↔ r.name = name ∨ r.name ∈ parents name ∨ hasPrefix r.name (name ++ "/") = true := by
  simp only [inNamespace, Bool.or_eq_true, Bool.and_eq_true, decide_eq_true_eq, begins_slash_iff, or_assoc]

open scoped ByteOrder

/-- The range of a prefix holds the names that begin with it, and no other; the range of a directory holds
what is below it, so that the clock of a namespace and the rows of a subtree are read of these names. -/
theorem ranges_select_begins :
    (∀ p n : Bytes, validString p = true → validString n = true → (∃ c ∈ decode p, c ≠ maxRune) →
      (p ≤ n ∧ n < prefixEnd p ↔ p <+: n)) ∧
    (∀ q n : Bytes, q ++ [47] ≤ n ∧ n < q ++ [48] ↔ q ++ [47] <+: n) ∧
    (∀ name r, inNamespace name r = true ↔ r.name = name ∨ r.name ∈ parents name ∨ hasPrefix r.name (name ++ "/") = true) ∧
    ∀ (s : Store) (path : String) (r : FileMeta),
      (r ∈ s.listSubtree path ↔ r ∈ s.files.rows ∧ (r.name = path ∨ hasPrefix r.name (path ++ "/") = true)) ∧
      (r ∈ s.listLiveSubtree path ↔ r ∈ s.files.rows ∧ r.deleted = false ∧ (r.name = path ∨ hasPrefix r.name (path ++ "/") = true)) := by
  refine ⟨?_, ?_, fun _ _ => inNamespace_iff, fun _ _ _ => ⟨Store.mem_listSubtree, Store.mem_listLiveSubtree⟩⟩
  · intro p n hp hn hsome
    obtain ⟨cp, rfl⟩ := validString_iff.mp hp
    obtain ⟨cn, rfl⟩ := validString_iff.mp hn
    rw [Utf8.decode_encode] at hsome
    rw [← not_lt, prefixEnd, Utf8.decode_encode, Utf8.encode_prefix_iff, Utf8.encode_lt_iff, Utf8.encode_lt_iff]
    exact (prefix_iff_between hsome).symm
  · intro q n
    have hnext : ∀ c : UInt8, ¬ c < 47 ∧ c < 48 ↔ c = 47 := by
      intro c
      rw [UInt8.lt_iff_toNat_lt, UInt8.lt_iff_toNat_lt, ← UInt8.toNat_inj]
      show ¬ c.toNat < 47 ∧ c.toNat < 48 ↔ c.toNat = 47
      omega
    rw [← not_lt]
    exact (begins_iff_between hnext q n).symm

/-- A prefix that ends before the surrogates. -/
theorem ranges_select_begins_surrogates :
    encode [Char.ofNat 0xd7ff] ≤ encode [Char.ofNat 0xd7ff, 'a'] ∧
      encode [Char.ofNat 0xd7ff, 'a'] < prefixEnd (encode [Char.ofNat 0xd7ff]) :=
  (ranges_select_begins.1 (encode [Char.ofNat 0xd7ff]) (encode [Char.ofNat 0xd7ff, 'a']) (by decide) (by decide)
    ⟨Char.ofNat 0xd7ff, by decide, by decide⟩).mpr (by decide)

end BirakFormal
