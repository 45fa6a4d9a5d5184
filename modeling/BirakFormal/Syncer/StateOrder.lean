import BirakFormal.Syncer.Validate
import BirakFormal.Store.Sha256

/-!
# The order of replicated states

`compareState` is a total preorder; two valid states of one name that compare equal agree
on everything a node acts on; and the tombstone a namespace conflict leaves behind ranks
exactly as the file that won it.
-/

namespace BirakFormal

theorem compareState_self (a : Option FileMeta) : compareState a a = .eq :=
  compareState_eq_iff.mpr rfl

theorem compareState_swap (a b : Option FileMeta) : compareState a b = (compareState b a).swap := by
  rw [compareState_eq, compareState_eq]
  exact Std.OrientedOrd.eq_swap

theorem stateLe_total (a b : Option FileMeta) : StateLe a b ∨ StateLe b a := by
  rw [stateLe_iff, stateLe_iff]
  exact le_total _ _

theorem stateLe_trans {a b c : Option FileMeta} (hab : StateLe a b) (hbc : StateLe b c) :
    StateLe a c := by
  rw [stateLe_iff] at *
  exact hab.trans hbc

variable {a b : FileMeta}

theorem rank_eq_iff : a.rank = b.rank ↔
    a.clockRank = b.clockRank ∧ a.modTime = b.modTime ∧ a.content = b.content := by
  constructor
  · intro h
    have h' := Prod.mk.inj (toLex.injective h)
    have h'' := Prod.mk.inj (toLex.injective h'.2)
    exact ⟨h'.1, Int64.toInt_inj.mp h''.1, h''.2⟩
  · rintro ⟨h1, h2, h3⟩
    rw [FileMeta.rank, FileMeta.rank, h1, h2, h3]

theorem content_eq_iff : a.content = b.content ↔
    a.live = b.live ∧ (a.live = true → a.hash = b.hash ∧ a.liveName = b.liveName) := by
  unfold FileMeta.content
  cases ha : a.live <;> cases hb : b.live
  · simp
  · simp
  · simp
  · simp only [if_true, WithBot.coe_inj, EmbeddingLike.apply_eq_iff_eq, Prod.mk.injEq, true_and, forall_const]

variable {digest : Digest}

theorem supersededBy_eq_of_liveName (ha : MetadataOk digest a)
    (hb : MetadataOk digest b) (hname : a.name = b.name) (h : a.liveName = b.liveName) :
    a.supersededBy = b.supersededBy := by
  unfold FileMeta.liveName at h
  by_cases hsa : a.supersededBy = "" <;> by_cases hsb : b.supersededBy = ""
  · rw [hsa, hsb]
  · rw [if_neg (not_not.mpr hsa), if_pos hsb] at h
    have hc := (hb.superseded hsb).2.2.2.1
    exact absurd (hname.symm.trans h) (namespaceConflict_ne hc)
  · rw [if_pos hsa, if_neg (not_not.mpr hsb)] at h
    have hc := (ha.superseded hsa).2.2.2.1
    exact absurd (hname.trans h.symm) (namespaceConflict_ne hc)
  · rwa [if_pos hsa, if_pos hsb] at h

theorem deleted_of_live {m : FileMeta} (h : MetadataOk digest m)
    (hl : m.live = true) : m.deleted = decide (m.supersededBy ≠ "") := by
  by_cases hs : m.supersededBy = ""
  · simpa [FileMeta.live, hs] using hl
  · simp [hs, (h.superseded hs).1]

theorem agree_of_rank_eq (ha : MetadataOk digest a)
    (hb : MetadataOk digest b) (hname : a.name = b.name) (h : a.rank = b.rank) :
    a.deleted = b.deleted ∧ a.supersededBy = b.supersededBy ∧ (a.live = true → a.hash = b.hash) := by
  obtain ⟨hlive, hcontent⟩ := content_eq_iff.mp (rank_eq_iff.mp h).2.2
  cases hl : a.live with
  | false =>
    have hla : a.deleted = true ∧ a.supersededBy = "" := by simpa [FileMeta.live] using hl
    have hlb : b.deleted = true ∧ b.supersededBy = "" := by
      rw [hl] at hlive
      simpa [FileMeta.live] using hlive.symm
    exact ⟨hla.1.trans hlb.1.symm, hla.2.trans hlb.2.symm, nofun⟩
  | true =>
    obtain ⟨hhash, hlname⟩ := hcontent hl
    have hs := supersededBy_eq_of_liveName ha hb hname hlname
    refine ⟨?_, hs, fun _ => hhash⟩
    rw [deleted_of_live ha hl, deleted_of_live hb (hlive ▸ hl), hs]

theorem superseded_stateClock (n : String) (w : FileMeta) : (superseded n w).stateClock = w.stateClock := by
  show (if w.stateClock ≠ 0 then w.stateClock else w.modTime) = w.stateClock
  by_cases hc : w.clock = 0
  · simp [FileMeta.stateClock, hc]
  · simp [FileMeta.stateClock, hc]

theorem superseded_rank {w : FileMeta} (n : String) (hname : w.name ≠ "")
    (hlive : w.deleted = false) (hs : w.supersededBy = "") : (superseded n w).rank = w.rank := by
  refine rank_eq_iff.mpr ⟨?_, rfl, ?_⟩
  · unfold FileMeta.clockRank
    rw [superseded_stateClock]
    rfl
  · refine content_eq_iff.mpr ⟨?_, fun _ => ⟨rfl, ?_⟩⟩
    · simp [FileMeta.live, superseded, hname, hlive]
    · simp [FileMeta.liveName, superseded, hname, hs]

theorem superseded_rank_of_valid {w : FileMeta} (n : String)
    (hw : MetadataOk digest w) (hlive : w.deleted = false) : (superseded n w).rank = w.rank := by
  refine superseded_rank n (ne_empty_of_validateSyncName hw.name) hlive ?_
  by_contra hs
  rw [(hw.superseded hs).1] at hlive
  cases hlive

/-- The order of states is a total preorder that identifies, for one name, only states a
node treats alike, and a namespace tombstone stands in it exactly where its winner does. -/
theorem compareState_laws (digest : Digest) : (∀ a, compareState a a = .eq) ∧
    (∀ a b, compareState a b = (compareState b a).swap) ∧
    (∀ a b, StateLe a b ∨ StateLe b a) ∧
    (∀ a b c, StateLe a b → StateLe b c → StateLe a c) ∧
    (∀ a b : FileMeta, validateMetadata digest a = .ok () → validateMetadata digest b = .ok () →
      a.name = b.name → compareState (some a) (some b) = .eq →
      a.deleted = b.deleted ∧ a.supersededBy = b.supersededBy ∧
        (¬ ((a.deleted = true ∧ a.supersededBy = "") ∧ (b.deleted = true ∧ b.supersededBy = "")) →
          a.hash = b.hash)) ∧
    (∀ (w : FileMeta) (n : String), validateMetadata digest w = .ok () → w.deleted = false →
      namespaceConflict n w.name = true →
      compareState (some (superseded n w)) (some w) = .eq ∧ ∀ x : Option FileMeta, (∀ m, x = some m → m.name = n) →
          (compareState (some (superseded n w)) x = .gt ↔ compareState (some w) x = .gt)) := by
  refine ⟨compareState_self, compareState_swap, stateLe_total, fun a b c => stateLe_trans,
    fun a b ha hb hname h => ?_, fun w n hw hlive _ => ?_⟩
  · rw [compareState_eq_iff, stateRank_some, stateRank_some, WithBot.coe_inj] at h
    obtain ⟨hd, hs, hh⟩ := agree_of_rank_eq (validateMetadata_iff.mp ha)
      (validateMetadata_iff.mp hb) hname h
    refine ⟨hd, hs, fun hplain => hh ?_⟩
    by_contra hl
    have hla : a.deleted = true ∧ a.supersededBy = "" := by simpa [FileMeta.live] using hl
    exact hplain ⟨hla, hd ▸ hla.1, hs ▸ hla.2⟩
  · have hrank := superseded_rank_of_valid n (validateMetadata_iff.mp hw) hlive
    refine ⟨?_, fun x _ => ?_⟩
    · rw [compareState_eq_iff, stateRank_some, stateRank_some, hrank]
    · rw [compareState_gt_iff, compareState_gt_iff, stateRank_some, stateRank_some, hrank]

/-- A file and a directory of one name: the tombstone of "a" left by "a/b" beats exactly
what "a/b" beats. -/
theorem compareState_laws_conflict :
    let w : FileMeta := { name := "a/b", clock := 7, hash := sha256.hash [], size := 0 }
    let x : FileMeta := { name := "a", clock := 5, hash := sha256.hash [1], size := 1 }
    compareState (some (superseded "a" w)) (some w) = .eq ∧
      (compareState (some (superseded "a" w)) (some x) = .gt ↔ compareState (some w) (some x) = .gt) := by
  intro w x
  have h := (compareState_laws sha256).2.2.2.2.2 w "a" (by decide +kernel) rfl (by decide)
  exact ⟨h.1, h.2 (some x) fun m hm => by cases hm; rfl⟩

end BirakFormal
