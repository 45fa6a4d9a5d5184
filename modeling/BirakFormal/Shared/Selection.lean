import Mathlib

/-!
# The least items of a stream

Items come in any order, and an item may come again. Those with the least keys are kept in
ascending order, one of each key. Keeping only the first `k` of them at every step loses nothing
of the first `k` at the end.
-/

namespace Selection

variable {α κ : Type} [LinearOrder κ] (key : α → κ)

def Ascending (l : List α) : Prop := l.Pairwise fun a b => key a < key b

def insertKey (x : α) : List α → List α
  | [] => [x]
  | y :: l => if key x < key y then x :: y :: l else if key x = key y then y :: l else y :: insertKey x l

def collect (stream : List α) : List α := stream.foldl (fun l x => insertKey key x l) []

variable {key} {x y : α} {l l' stream : List α}

theorem mem_of_mem_insertKey (h : y ∈ insertKey key x l) : y = x ∨ y ∈ l := by
  induction l with
  | nil => exact Or.inl (List.mem_singleton.mp h)
  | cons z l ih =>
    unfold insertKey at h
    split at h
    · exact List.mem_cons.mp h
    · split at h
      · exact Or.inr h
      · rcases List.mem_cons.mp h with rfl | h
        · exact Or.inr List.mem_cons_self
        · exact (ih h).imp_right (List.mem_cons_of_mem z)

theorem mem_insertKey_of_mem (h : y ∈ l) : y ∈ insertKey key x l := by
  induction l with
  | nil => exact absurd h List.not_mem_nil
  | cons z l ih =>
    unfold insertKey
    split
    · exact List.mem_cons_of_mem x h
    · split
      · exact h
      · rcases List.mem_cons.mp h with rfl | h
        · exact List.mem_cons_self
        · exact List.mem_cons_of_mem z (ih h)

theorem exists_key_insertKey (l : List α) (x : α) : ∃ y ∈ insertKey key x l, key y = key x := by
  induction l with
  | nil => exact ⟨x, List.mem_singleton_self x, rfl⟩
  | cons z l ih =>
    unfold insertKey
    split
    · exact ⟨x, List.mem_cons_self, rfl⟩
    · split
      · next heq => exact ⟨z, List.mem_cons_self, heq.symm⟩
      · obtain ⟨y, hy, hkey⟩ := ih
        exact ⟨y, List.mem_cons_of_mem z hy, hkey⟩

theorem Ascending.insertKey (h : Ascending key l) : Ascending key (insertKey key x l) := by
  induction l with
  | nil => exact List.pairwise_singleton _ _
  | cons z l ih =>
    obtain ⟨hz, hl⟩ := List.pairwise_cons.mp h
    unfold Selection.insertKey
    split
    · next hlt =>
      refine List.pairwise_cons.mpr ⟨fun y hy => ?_, h⟩
      rcases List.mem_cons.mp hy with rfl | hy
      · exact hlt
      · exact lt_trans hlt (hz y hy)
    · next hle =>
      split
      · exact h
      · next hne =>
        refine List.pairwise_cons.mpr ⟨fun y hy => ?_, ih hl⟩
        rcases mem_of_mem_insertKey hy with rfl | hy
        · exact lt_of_le_of_ne (not_lt.mp hle) (Ne.symm hne)
        · exact hz y hy

theorem insertKey_of_present (h : Ascending key l) (hy : y ∈ l) (hkey : key y = key x) : insertKey key x l = l := by
  induction l with
  | nil => exact absurd hy List.not_mem_nil
  | cons z l ih =>
    obtain ⟨hz, hl⟩ := List.pairwise_cons.mp h
    unfold insertKey
    rcases List.mem_cons.mp hy with rfl | hmem
    · rw [if_neg (by rw [hkey]; exact lt_irrefl _), if_pos hkey.symm]
    · have hlt : key z < key x := hkey ▸ hz y hmem
      rw [if_neg (not_lt.mpr (le_of_lt hlt)), if_neg (ne_of_gt hlt), ih hl hmem]

theorem insertKey_of_above (h : ∀ y ∈ l, key y < key x) : insertKey key x l = l ++ [x] := by
  induction l with
  | nil => rfl
  | cons z l ih =>
    have hz := h z List.mem_cons_self
    rw [insertKey, if_neg (not_lt.mpr (le_of_lt hz)), if_neg (ne_of_gt hz), ih fun y hy => h y (List.mem_cons_of_mem z hy),
      List.cons_append]

theorem insertKey_append (h : key x < key y) : insertKey key x (l ++ [y]) = insertKey key x l ++ [y] := by
  induction l with
  | nil => simp only [List.nil_append, insertKey, if_pos h, List.cons_append]
  | cons z l ih =>
    rw [List.cons_append, insertKey, insertKey, ih]
    split
    · rfl
    · split
      · rfl
      · rfl

theorem length_insertKey (h : ∀ y ∈ l, key y ≠ key x) : (insertKey key x l).length = l.length + 1 := by
  induction l with
  | nil => rfl
  | cons z l ih =>
    unfold insertKey
    split
    · rfl
    · rw [if_neg (Ne.symm (h z List.mem_cons_self)), List.length_cons, ih fun y hy => h y (List.mem_cons_of_mem z hy),
        List.length_cons]

theorem take_insertKey (k : Nat) (x : α) (l : List α) :
    (insertKey key x (l.take k)).take k = (insertKey key x l).take k := by
  induction l generalizing k with
  | nil => rw [List.take_nil]
  | cons z l ih =>
    cases k with
    | zero => rw [List.take_zero, List.take_zero]
    | succ k =>
      rw [List.take_succ_cons, insertKey, insertKey]
      split
      · have hfront : (z :: l.take k).take k = (z :: l).take k := by
          rw [← List.take_succ_cons, List.take_take, Nat.min_eq_left (Nat.le_succ k)]
        rw [List.take_succ_cons, List.take_succ_cons, hfront]
      · split
        · rw [List.take_succ_cons, List.take_succ_cons, List.take_take, Nat.min_self]
        · rw [List.take_succ_cons, List.take_succ_cons, ih]

theorem foldl_take (k : Nat) (stream l : List α) :
    stream.foldl (fun c x => (insertKey key x c).take k) (l.take k) =
      (stream.foldl (fun c x => insertKey key x c) l).take k := by
  induction stream generalizing l with
  | nil => rfl
  | cons x stream ih => rw [List.foldl_cons, List.foldl_cons, take_insertKey, ih]

theorem ascending_collect (stream : List α) : Ascending key (collect key stream) := by
  have h : ∀ l, Ascending key l → Ascending key (stream.foldl (fun l x => insertKey key x l) l) := by
    induction stream with
    | nil => exact fun l hl => hl
    | cons x stream ih => exact fun l hl => ih _ hl.insertKey
  exact h [] List.Pairwise.nil

theorem mem_collect (hsame : ∀ a ∈ stream, ∀ b ∈ stream, key a = key b → a = b) :
    y ∈ collect key stream ↔ y ∈ stream := by
  suffices h : ∀ l, (∀ a ∈ l ++ stream, ∀ b ∈ l ++ stream, key a = key b → a = b) →
      (y ∈ stream.foldl (fun l x => insertKey key x l) l ↔ y ∈ l ++ stream) by
    simpa [collect] using h [] (by simpa using hsame)
  induction stream with
  | nil =>
    intro l _
    rw [List.foldl_nil, List.append_nil]
  | cons x stream ih =>
    intro l hl
    have hmem : ∀ z, z ∈ insertKey key x l ↔ z = x ∨ z ∈ l := by
      intro z
      refine ⟨mem_of_mem_insertKey, fun hz => ?_⟩
      rcases hz with rfl | hz
      · obtain ⟨w, hw, hkey⟩ : ∃ w ∈ insertKey key z l, key w = key z := exists_key_insertKey l z
        rcases mem_of_mem_insertKey hw with rfl | hwl
        · exact hw
        · have hwz : w = z := hl w (List.mem_append_left _ hwl) z (List.mem_append_right _ List.mem_cons_self) hkey
          exact hwz ▸ hw
      · exact mem_insertKey_of_mem hz
    have hall : ∀ z, z ∈ insertKey key x l ++ stream ↔ z ∈ l ++ x :: stream := by
      intro z
      rw [List.mem_append, List.mem_append, hmem, List.mem_cons]
      tauto
    rw [List.foldl_cons, ih (fun a ha b hb => hsame a (List.mem_cons_of_mem x ha) b (List.mem_cons_of_mem x hb)) _
      (fun a ha b hb => hl a ((hall a).mp ha) b ((hall b).mp hb)), hall]

theorem Ascending.nodup (h : Ascending key l) : l.Nodup :=
  List.Pairwise.imp (fun hab heq => absurd (congrArg key heq) (ne_of_lt hab)) h

theorem Ascending.eq_of_key (h : Ascending key l) (hx : x ∈ l) (hy : y ∈ l) (hkey : key x = key y) : x = y := by
  induction l with
  | nil => exact absurd hx List.not_mem_nil
  | cons z l ih =>
    obtain ⟨hz, hl⟩ := List.pairwise_cons.mp h
    rcases List.mem_cons.mp hx with hxz | hxl
    · rcases List.mem_cons.mp hy with hyz | hyl
      · rw [hxz, hyz]
      · exact absurd (hxz ▸ hkey) (ne_of_lt (hz y hyl))
    · rcases List.mem_cons.mp hy with hyz | hyl
      · exact absurd (hyz ▸ hkey).symm (ne_of_lt (hz x hxl))
      · exact ih hl hxl hyl

theorem Ascending.eq_of_mem_iff (h : Ascending key l) (h' : Ascending key l') (hmem : ∀ y, y ∈ l ↔ y ∈ l') : l = l' := by
  have hperm : l.Perm l' := (List.perm_ext_iff_of_nodup h.nodup h'.nodup).mpr hmem
  exact hperm.eq_of_pairwise (fun a b _ _ hab hba => absurd (lt_trans hab hba) (lt_irrefl _)) h h'

end Selection
