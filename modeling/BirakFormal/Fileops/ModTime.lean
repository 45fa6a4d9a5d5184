import BirakFormal.Fileops.Volume
import BirakFormal.Store.Sha256

/-!
# Timestamps at the granularity of a volume

A peer may announce any timestamp, and its difference to the one on disk is taken in 64 bits. It
wraps where the two are far apart, and the least value is its own absolute value.
-/

namespace BirakFormal

/-- The distance of two timestamps as integers is none, or is below one step of a coarser volume. -/
def Agree (granularity onDisk recorded : Int64) : Prop :=
  if granularity ≤ 1 then |onDisk.toInt - recorded.toInt| = 0
  else |onDisk.toInt - recorded.toInt| < granularity.toInt

theorem toInt_sub_cases (a b : Int64) :
    -2 ^ 63 ≤ (a - b).toInt ∧ (a - b).toInt < 2 ^ 63 ∧
      ((a - b).toInt = a.toInt - b.toInt ∨ (a - b).toInt = a.toInt - b.toInt - 2 ^ 64 ∨
        (a - b).toInt = a.toInt - b.toInt + 2 ^ 64) := by
  have ha := a.le_toInt
  have ha' := a.toInt_lt
  have hb := b.le_toInt
  have hb' := b.toInt_lt
  rw [Int64.toInt_sub, Int.bmod]
  split
  · omega
  · omega

theorem absDuration_lt_iff {d g : Int64} (hg : 1 < g) :
    absDuration d < g ↔ d.toInt = -2 ^ 63 ∨ |d.toInt| < g.toInt := by
  have hpos : 1 < g.toInt := Int64.lt_iff_toInt_lt.mp hg
  have hd := d.le_toInt
  have hd' := d.toInt_lt
  unfold absDuration
  split
  · next hneg =>
    have hneg : d.toInt < 0 := Int64.lt_iff_toInt_lt.mp hneg
    rw [Int64.lt_iff_toInt_lt, Int64.toInt_neg, Int.bmod, abs_of_neg hneg]
    split
    · omega
    · omega
  · next hneg =>
    have hneg : ¬ d.toInt < 0 := fun h => hneg (Int64.lt_iff_toInt_lt.mpr h)
    rw [Int64.lt_iff_toInt_lt, abs_of_nonneg (not_lt.mp hneg)]
    omega

/-- On a volume that is coarser than a nanosecond the wrapped difference is short, or the least
value, exactly where the distance is 2⁶³ or less than one step below 2⁶⁴. -/
theorem sameModTime_exact_iff (cfg : Config) (onDisk recorded : Int64) :
    (sameModTime cfg onDisk recorded = true ↔ Agree cfg.granularity onDisk recorded) ↔
      cfg.granularity ≤ 1 ∨ |onDisk.toInt - recorded.toInt| ≠ 2 ^ 63 ∧
        |onDisk.toInt - recorded.toInt| ≤ 2 ^ 64 - cfg.granularity.toInt := by
  obtain ⟨hlow, hhigh, hwrap⟩ := toInt_sub_cases onDisk recorded
  have ha := onDisk.le_toInt
  have ha' := onDisk.toInt_lt
  have hb := recorded.le_toInt
  have hb' := recorded.toInt_lt
  have habs := abs_cases (onDisk.toInt - recorded.toInt)
  unfold sameModTime Agree
  by_cases hg : cfg.granularity ≤ 1
  · rw [if_pos hg, if_pos hg]
    have hzero : onDisk - recorded = 0 ↔ (onDisk - recorded).toInt = 0 := Int64.toInt_inj.symm
    simp only [decide_eq_true_eq, hzero, hg, true_or, iff_true]
    omega
  · rw [if_neg hg, if_neg hg]
    have hg' : 1 < cfg.granularity := Int64.not_le.mp hg
    have hpos : 1 < cfg.granularity.toInt := Int64.lt_iff_toInt_lt.mp hg'
    have hmax := cfg.granularity.toInt_lt
    have habs' := abs_cases (onDisk - recorded).toInt
    simp only [decide_eq_true_eq, absDuration_lt_iff hg', hg, false_or]
    omega

def twoSeconds : Config where
  digest := sha256
  fold := id
  patterns _ := false
  granularity := 2000000000
  stamp := id
  repairPeers := []
  repairLimit := 0
  mapOrder := id
  mapOrder_perm := .refl

/-- The least timestamp a peer can announce is taken for the beginning of 1970. -/
theorem sameModTime_of_least :
    sameModTime twoSeconds 0 Int64.minValue = true ∧ ¬ Agree twoSeconds.granularity 0 Int64.minValue := by
  refine ⟨by decide, ?_⟩
  unfold Agree
  decide

end BirakFormal
