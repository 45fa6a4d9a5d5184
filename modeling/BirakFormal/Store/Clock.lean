import BirakFormal.Store.Names

/-!
# File states and their order

`FileMeta` is one replicated state of a name. Two states are compared by `compareState`:
clock, modification time, class (a plain tombstone is below everything else), hash, and
the name of the live state behind it. `rank` writes the same data into a linear order, so
that every fact about the comparison is a fact about that order.
-/

namespace BirakFormal

structure FileMeta where
  name : String := ""
  modTime : Int64 := 0
  size : Int := 0
  hash : String := ""
  deleted : Bool := false
  version : Int := 0
  bigClock : String := ""
  clock : Int64 := 0
  supersededBy : String := ""
  conflictOf : String := ""
  deriving DecidableEq, Repr

def FileMeta.stateClock (f : FileMeta) : Int64 := if f.clock ≠ 0 then f.clock else f.modTime

def compareDecimal (a b : String) : Ordering :=
  (compare a.utf8ByteSize b.utf8ByteSize).then (compare a b)

/-- `strconv.FormatInt(math.MaxInt64, 10)`. -/
def maxInt64Digits : String := "9223372036854775807"

def validateClock (f : FileMeta) : Except String Unit :=
  if f.bigClock = "" then .ok ()
  else if f.clock ≠ Int64.maxValue ∨ f.bigClock.utf8ByteSize < 19 ∨
      f.bigClock.toList.head? = some '0' then .error "non-canonical extended clock"
  else if f.bigClock.toList.any (fun c => c < '0' || '9' < c) then .error "invalid extended clock"
  else if (compareDecimal f.bigClock maxInt64Digits).isLE then
    .error "extended clock must exceed int64"
  else .ok ()

def compareClock (a b : FileMeta) : Ordering :=
  if a.bigClock ≠ "" ∧ b.bigClock ≠ "" then compareDecimal a.bigClock b.bigClock
  else if a.bigClock ≠ "" then .gt
  else if b.bigClock ≠ "" then .lt
  else compare a.stateClock b.stateClock

/-- Live in the order: a live file, or a tombstone that stands for a live winner. -/
def FileMeta.live (f : FileMeta) : Bool := !f.deleted || f.supersededBy ≠ ""

/-- The name of the live state behind `f`. -/
def FileMeta.liveName (f : FileMeta) : String := if f.supersededBy ≠ "" then f.supersededBy else f.name

def compareMeta (a b : FileMeta) : Ordering :=
  match compareClock a b with
  | .lt => .lt
  | .gt => .gt
  | .eq =>
    if a.modTime < b.modTime then .lt
    else if b.modTime < a.modTime then .gt
    else if a.live ≠ b.live then (if !a.live then .lt else .gt)
    else if !a.live then .eq
    else (compare a.hash b.hash).then (compare a.liveName b.liveName)

def compareState : Option FileMeta → Option FileMeta → Ordering
  | none, none => .eq
  | none, some _ => .lt
  | some _, none => .gt
  | some a, some b => compareMeta a b

/-- Clocks that fit an `int64`, below the extended ones. -/
abbrev ClockRank := ℤ ⊕ₗ (ℕ ×ₗ String)

def FileMeta.clockRank (f : FileMeta) : ClockRank :=
  if f.bigClock = "" then toLex (.inl f.stateClock.toInt)
  else toLex (.inr (toLex (f.bigClock.utf8ByteSize, f.bigClock)))

def FileMeta.content (f : FileMeta) : WithBot (String ×ₗ String) :=
  if f.live then ↑(toLex (f.hash, f.liveName)) else ⊥

abbrev Rank := ClockRank ×ₗ ℤ ×ₗ WithBot (String ×ₗ String)

def FileMeta.rank (f : FileMeta) : Rank := toLex (f.clockRank, toLex (f.modTime.toInt, f.content))

def stateRank (f : Option FileMeta) : WithBot Rank := f.map FileMeta.rank

@[simp] theorem stateRank_some (f : FileMeta) : stateRank (some f) = (f.rank : WithBot Rank) := rfl

theorem compare_int64 (a b : Int64) : compare a b = compare a.toInt b.toInt := by
  rcases lt_trichotomy a.toInt b.toInt with h | h | h
  · rw [compare_lt_iff_lt.mpr h, Std.compare_eq_lt, Int64.lt_iff_toInt_lt]
    exact h
  · rw [compare_eq_iff_eq.mpr h, Int64.toInt_inj.mp h]
    exact Std.ReflOrd.compare_self
  · rw [compare_gt_iff_gt.mpr h, Std.compare_eq_gt, Int64.lt_iff_toInt_lt]
    exact h

theorem compareDecimal_eq (a b : String) :
    compareDecimal a b = compare (toLex (a.utf8ByteSize, a)) (toLex (b.utf8ByteSize, b)) := rfl

theorem compareDecimal_gt_iff {a b : String} : compareDecimal a b = .gt ↔
    toLex (b.utf8ByteSize, b) < toLex (a.utf8ByteSize, a) := by
  rw [compareDecimal_eq, compare_gt_iff_gt]

theorem compareDecimal_ne_gt_iff {a b : String} : compareDecimal a b ≠ .gt ↔
    toLex (a.utf8ByteSize, a) ≤ toLex (b.utf8ByteSize, b) := by
  rw [ne_eq, compareDecimal_gt_iff, not_lt]

theorem compare_of_lt_iff {α β : Type} [LinearOrder α] [LinearOrder β] {a b : α} {c d : β}
    (hlt : a < b ↔ c < d) (hgt : b < a ↔ d < c) : compare a b = compare c d := by
  rcases lt_trichotomy a b with h | h | h
  · rw [compare_lt_iff_lt.mpr h, compare_lt_iff_lt.mpr (hlt.mp h)]
  · have hc : c = d := le_antisymm (not_lt.mp fun hc => (hgt.mpr hc).ne h.symm)
      (not_lt.mp fun hc => (hlt.mpr hc).ne h)
    rw [compare_eq_iff_eq.mpr h, compare_eq_iff_eq.mpr hc]
  · rw [compare_gt_iff_gt.mpr h, compare_gt_iff_gt.mpr (hgt.mp h)]

theorem compare_withBot {α : Type} [LinearOrder α] (a b : α) :
    compare (a : WithBot α) (b : WithBot α) = compare a b :=
  compare_of_lt_iff WithBot.coe_lt_coe WithBot.coe_lt_coe

theorem compareClock_eq (a b : FileMeta) : compareClock a b = compare a.clockRank b.clockRank := by
  unfold compareClock FileMeta.clockRank
  by_cases ha : a.bigClock = "" <;> by_cases hb : b.bigClock = ""
  · simp only [ha, hb, ne_eq, not_true_eq_false, and_self, if_false, if_true, compare_int64]
    exact compare_of_lt_iff Sum.Lex.inl_lt_inl_iff.symm Sum.Lex.inl_lt_inl_iff.symm
  · simp only [ha, hb, ne_eq, not_true_eq_false, not_false_eq_true, false_and, if_false, if_true]
    exact (compare_lt_iff_lt.mpr (Sum.Lex.inl_lt_inr _ _)).symm
  · simp only [ha, hb, ne_eq, not_true_eq_false, not_false_eq_true, and_false, if_false, if_true]
    exact (compare_gt_iff_gt.mpr (Sum.Lex.inl_lt_inr _ _)).symm
  · simp only [ha, hb, ne_eq, not_false_eq_true, and_self, if_false, if_true, compareDecimal_eq]
    exact compare_of_lt_iff Sum.Lex.inr_lt_inr_iff.symm Sum.Lex.inr_lt_inr_iff.symm

theorem compare_content (a b : FileMeta) :
    compare a.content b.content = if a.live ≠ b.live then (if !a.live then .lt else .gt)
      else if !a.live then .eq
      else (compare a.hash b.hash).then (compare a.liveName b.liveName) := by
  unfold FileMeta.content
  cases ha : a.live <;> cases hb : b.live
  · simp
  · simpa using compare_lt_iff_lt.mpr (WithBot.bot_lt_coe (toLex (b.hash, b.liveName)))
  · simpa using compare_gt_iff_gt.mpr (WithBot.bot_lt_coe (toLex (a.hash, a.liveName)))
  · simp only [ne_eq, not_true_eq_false, if_false, if_true, Bool.not_true, Bool.false_eq_true]
    exact compare_withBot _ _

theorem compareMeta_eq (a b : FileMeta) : compareMeta a b = compare a.rank b.rank := by
  have hrank : compare a.rank b.rank = (compare a.clockRank b.clockRank).then
      ((compare a.modTime.toInt b.modTime.toInt).then (compare a.content b.content)) := rfl
  rw [hrank, compare_content, ← compareClock_eq]
  unfold compareMeta
  cases compareClock a b with
  | lt => rfl
  | gt => rfl
  | eq =>
    simp only [Int64.lt_iff_toInt_lt, Ordering.then]
    rcases lt_trichotomy a.modTime.toInt b.modTime.toInt with h | h | h
    · rw [if_pos h, compare_lt_iff_lt.mpr h]
    · rw [if_neg h.not_lt, if_neg h.symm.not_lt, compare_eq_iff_eq.mpr h]
    · rw [if_neg h.not_gt, if_pos h, compare_gt_iff_gt.mpr h]

theorem compareState_eq (a b : Option FileMeta) :
    compareState a b = compare (stateRank a) (stateRank b) := by
  cases a with
  | none =>
    cases b with
    | none => rfl
    | some b => exact (compare_lt_iff_lt.mpr (WithBot.bot_lt_coe b.rank)).symm
  | some a =>
    cases b with
    | none => exact (compare_gt_iff_gt.mpr (WithBot.bot_lt_coe a.rank)).symm
    | some b =>
      rw [compareState, compareMeta_eq, stateRank_some, stateRank_some, compare_withBot]

/-- `CompareState(a, b) <= 0`. -/
def StateLe (a b : Option FileMeta) : Prop := (compareState a b).isLE = true

instance (a b : Option FileMeta) : Decidable (StateLe a b) :=
  inferInstanceAs (Decidable (_ = true))

variable {a b : Option FileMeta}

theorem stateLe_iff : StateLe a b ↔ stateRank a ≤ stateRank b := by
  rw [StateLe, compareState_eq, ← Ordering.ne_gt_iff_isLE]
  exact compare_le_iff_le

theorem compareState_gt_iff :
    compareState a b = .gt ↔ stateRank b < stateRank a := by
  rw [compareState_eq, compare_gt_iff_gt]

theorem compareState_eq_iff :
    compareState a b = .eq ↔ stateRank a = stateRank b := by
  rw [compareState_eq, compare_eq_iff_eq]

theorem compareClock_gt_iff {a b : FileMeta} :
    compareClock a b = .gt ↔ b.clockRank < a.clockRank := by
  rw [compareClock_eq, compare_gt_iff_gt]

theorem rank_lt_of_clockRank {a b : FileMeta} (h : a.clockRank < b.clockRank) : a.rank < b.rank :=
  Prod.Lex.toLex_lt_toLex.mpr (Or.inl h)

end BirakFormal
