import BirakFormal.Store.Index

/-!
# Reserved spellings

A name reserves one spelling for each of its beginnings, up to folding. Reserving keeps
what is reserved, and succeeds exactly where checking does.
-/

namespace BirakFormal

open Tables

abbrev Spellings := Table (Prod.fst : String × String → String)

variable {parts : List (String × String)}

theorem checkParts_iff {names : Spellings} :
    checkParts names parts = .ok () ↔ ∀ p ∈ parts, ∀ a, names.find p.1 = some a → a.2 = p.2 := by
  induction parts with
  | nil => simp [checkParts]
  | cons p parts ih =>
    rw [List.forall_mem_cons, ← ih, checkParts]
    cases hf : names.find p.1 with
    | none => simp
    | some a =>
      by_cases ha : a.2 = p.2
      · simp [ha]
      · simp [ha]

theorem bindParts_of_check {names : Spellings}
    (hdist : parts.Pairwise fun p q => p.1 ≠ q.1) (h : checkParts names parts = .ok ()) :
    ∃ names', bindParts names parts = .ok names' := by
  induction parts generalizing names with
  | nil => exact ⟨names, rfl⟩
  | cons p parts ih =>
    obtain ⟨hp, hdist⟩ := List.pairwise_cons.mp hdist
    obtain ⟨hhead, htail⟩ := List.forall_mem_cons.mp (checkParts_iff.mp h)
    unfold bindParts
    cases hf : names.find p.1 with
    | none =>
      refine ih hdist (checkParts_iff.mpr fun q hq a ha => ?_)
      rw [Table.find_put, if_neg (fun hqp => hp q hq hqp.symm)] at ha
      exact htail q hq a ha
    | some a =>
      dsimp only
      rw [if_pos (hhead a hf)]
      exact ih hdist (checkParts_iff.mpr htail)

theorem bindParts_ok {names names' : Spellings} (h : bindParts names parts = .ok names') :
    (∀ k a, names.find k = some a → names'.find k = some a) ∧
    (∀ p ∈ parts, names'.find p.1 = some p) ∧
    (∀ k a, names'.find k = some a → names.find k = some a ∨ a ∈ parts) := by
  induction parts generalizing names with
  | nil =>
    cases h
    exact ⟨fun _ _ => id, nofun, fun _ _ => Or.inl⟩
  | cons p parts ih =>
    unfold bindParts at h
    cases hf : names.find p.1 with
    | none =>
      rw [hf] at h
      obtain ⟨hkeep, hnew, hfrom⟩ := ih h
      have hp : names'.find p.1 = some p := hkeep p.1 p (by rw [Table.find_put, if_pos rfl])
      refine ⟨fun k a ha => hkeep k a ?_, List.forall_mem_cons.mpr ⟨hp, hnew⟩, fun k a ha => ?_⟩
      · rw [Table.find_put, if_neg]
        · exact ha
        · rintro rfl
          rw [hf] at ha
          cases ha
      · rcases hfrom k a ha with h' | h'
        · rw [Table.find_put] at h'
          split at h'
          · exact Or.inr (Option.some.inj h' ▸ List.mem_cons_self)
          · exact Or.inl h'
        · exact Or.inr (List.mem_cons_of_mem p h')
    | some a =>
      rw [hf] at h
      dsimp only at h
      split at h
      · next ha =>
        obtain ⟨hkeep, hnew, hfrom⟩ := ih h
        have hap : a = p := Prod.ext (Table.find_key hf) ha
        refine ⟨hkeep, List.forall_mem_cons.mpr ⟨hkeep _ _ (hap ▸ hf), hnew⟩, fun k b hb => ?_⟩
        exact (hfrom k b hb).imp id (List.mem_cons_of_mem p)
      · cases h

variable {fold : String → String} {ps : List (String × String)}

theorem nameParts_go_lengths {name folded original : String} {parts : List String} (hne : original ≠ "")
    (h : nameParts.go fold name folded original parts = .ok ps) :
    (∀ p ∈ ps, folded.length < p.1.length) ∧ ps.Pairwise fun p q => p.1.length < q.1.length := by
  induction parts generalizing folded original ps with
  | nil =>
    cases h
    exact ⟨nofun, List.Pairwise.nil⟩
  | cons part parts ih =>
    unfold nameParts.go at h
    split at h
    · cases h
    · dsimp only at h
      split at h
      · next rest hrest =>
        cases h
        have hne' : original ++ "/" ++ part ≠ "" := by
          intro he
          have := congrArg String.length he
          simp [String.length_append] at this
        obtain ⟨hlong, hpair⟩ := ih hne' hrest
        have hlen : folded.length < (folded ++ "/" ++ fold part).length := by
          simp only [String.length_append]
          have : ("/" : String).length = 1 := by decide
          omega
        exact ⟨List.forall_mem_cons.mpr ⟨hlen, fun p hp => hlen.trans (hlong p hp)⟩,
          List.pairwise_cons.mpr ⟨hlong, hpair⟩⟩
      · cases h

variable {name : String}

theorem nameParts_distinct (h : nameParts fold name = .ok ps) : ps.Pairwise fun p q => p.1 ≠ q.1 := by
  unfold nameParts at h
  split at h
  · cases h
  · cases hparts : split name with
    | nil =>
      rw [hparts] at h
      cases h
      exact List.Pairwise.nil
    | cons part parts =>
      rw [hparts] at h
      unfold nameParts.go at h
      split at h
      · cases h
      · next hpart =>
        dsimp only at h
        rw [if_neg (by simp), if_neg (by simp)] at h
        split at h
        · next rest hrest =>
          cases h
          have hne : "" ++ part ≠ "" := by
            rw [String.empty_append]
            exact fun he => hpart (Or.inl he)
          obtain ⟨hlong, hpair⟩ := nameParts_go_lengths hne hrest
          refine List.pairwise_cons.mpr ⟨fun q hq he => ?_, hpair.imp fun hlt he => ?_⟩
          · have := hlong q hq
            rw [← he] at this
            exact lt_irrefl _ this
          · rw [he] at hlt
            exact lt_irrefl _ hlt
        · cases h

theorem bindName_of_check {s : Store}
    (h : s.checkName fold name = .ok ()) : ∃ names', bindName fold s.names name = .ok names' := by
  unfold Store.checkName at h
  unfold bindName
  split at h
  · cases h
  · next parts hparts => exact bindParts_of_check (nameParts_distinct hparts) h

theorem checkName_of_bindName {s t : Store}
    (h : bindName fold s.names name = .ok t.names) : t.checkName fold name = .ok () := by
  unfold bindName at h
  unfold Store.checkName
  split at h
  · cases h
  · next parts hparts =>
    refine checkParts_iff.mpr fun p hp a ha => ?_
    rw [(bindParts_ok h).2.1 p hp] at ha
    rw [← Option.some.inj ha]

end BirakFormal
