import BirakFormal.Store.Clock

/-!
# Advancing a clock

`advanceClock` gives a local write a clock above everything the node has observed at its
name. Beyond `int64` the clock continues as a decimal text that is incremented digit by
digit, so no observed value can exhaust it.
-/

namespace BirakFormal

/-- Add one to a decimal from its last digit on; the flag is the carry out of the first. -/
def incrementDigits : List Char → List Char × Bool
  | [] => ([], true)
  | c :: cs =>
    let (cs', carry) := incrementDigits cs
    if carry then
      if c = '9' then ('0' :: cs', true) else (Char.ofNat (c.toNat + 1) :: cs', false)
    else (c :: cs', false)

def incrementDecimal (digits : String) : String :=
  match incrementDigits digits.toList with
  | (cs, true) => String.ofList ('1' :: cs)
  | (cs, false) => String.ofList cs

def floorClock (f : FileMeta) : FileMeta :=
  if f.bigClock = "" then { f with clock := max (max 1 f.clock) f.modTime } else f

/-- The next clock after an observed state, decimal where `int64` ends. -/
def clockAbove (f previous : FileMeta) : FileMeta :=
  if previous.bigClock = "" ∧ previous.stateClock < Int64.maxValue then
    { f with clock := previous.stateClock + 1, bigClock := "" }
  else
    let digits := if previous.bigClock = "" then toString previous.stateClock.toInt
      else previous.bigClock
    { f with clock := Int64.maxValue, bigClock := incrementDecimal digits }

def advanceClock (f : FileMeta) : Option FileMeta → FileMeta
  | none => floorClock f
  | some previous =>
    if compareClock (floorClock f) previous = .gt then floorClock f
    else clockAbove (floorClock f) previous

example : incrementDecimal "999" = "1000" := by decide

def IsDigit (c : Char) : Prop := ¬ (c < '0' || '9' < c) = true

instance (c : Char) : Decidable (IsDigit c) := inferInstanceAs (Decidable (¬ _))

variable {c : Char}

theorem isDigit_iff : IsDigit c ↔ 48 ≤ c.toNat ∧ c.toNat ≤ 57 := by
  simp only [IsDigit, Bool.or_eq_true, decide_eq_true_eq, not_or, Char.not_lt]
  exact Iff.rfl

theorem isDigit_utf8Size (h : IsDigit c) : c.utf8Size = 1 := by
  have h' := (isDigit_iff.mp h).2
  rw [Char.utf8Size_eq_one_iff]
  exact h'.trans (by decide)

theorem toNat_ofNat_succ (h : IsDigit c) : (Char.ofNat (c.toNat + 1)).toNat = c.toNat + 1 := by
  have small : ∀ n < 58, (Char.ofNat (n + 1)).toNat = n + 1 := by decide
  exact small c.toNat (by have := (isDigit_iff.mp h).2; omega)

theorem isDigit_succ (h : IsDigit c) (h9 : c ≠ '9') :
    IsDigit (Char.ofNat (c.toNat + 1)) ∧ c < Char.ofNat (c.toNat + 1) := by
  have hne : c.toNat ≠ 57 := fun hc => h9 (Char.toNat_inj.mp hc)
  have hd := isDigit_iff.mp h
  refine ⟨isDigit_iff.mpr ?_, ?_⟩
  · rw [toNat_ofNat_succ h]; omega
  · show c.toNat < (Char.ofNat (c.toNat + 1)).toNat
    rw [toNat_ofNat_succ h]; omega

theorem incrementDigits_length (cs : List Char) : (incrementDigits cs).1.length = cs.length := by
  induction cs with
  | nil => rfl
  | cons c cs ih =>
    simp only [incrementDigits]
    split <;> (try split) <;> simp [ih]

variable {cs : List Char}

theorem incrementDigits_digits (h : ∀ c ∈ cs, IsDigit c) :
    ∀ c ∈ (incrementDigits cs).1, IsDigit c := by
  induction cs with
  | nil => simp [incrementDigits]
  | cons c cs ih =>
    have hc := h c List.mem_cons_self
    have ih := ih fun d hd => h d (List.mem_cons_of_mem c hd)
    simp only [incrementDigits]
    split
    · split
      · exact List.forall_mem_cons.mpr ⟨by decide, ih⟩
      · next h9 => exact List.forall_mem_cons.mpr ⟨(isDigit_succ hc h9).1, ih⟩
    · exact List.forall_mem_cons.mpr ⟨hc, ih⟩

theorem incrementDigits_lt (h : ∀ c ∈ cs, IsDigit c)
    (hc : (incrementDigits cs).2 = false) : cs < (incrementDigits cs).1 := by
  induction cs with
  | nil => simp [incrementDigits] at hc
  | cons c cs ih =>
    have hd := h c List.mem_cons_self
    simp only [incrementDigits] at hc ⊢
    split at hc
    · split at hc
      · simp at hc
      · next hcarry h9 =>
        rw [if_pos hcarry, if_neg h9, List.cons_lt_cons_iff]
        exact Or.inl (isDigit_succ hd h9).2
    · next hcarry =>
      rw [if_neg hcarry, List.cons_lt_cons_iff]
      refine Or.inr ⟨rfl, ih (fun d hd => h d (List.mem_cons_of_mem c hd)) ?_⟩
      simpa using hcarry

theorem incrementDigits_head (h : ∀ c ∈ cs, IsDigit c)
    (hc : (incrementDigits cs).2 = false) (h0 : cs.head? ≠ some '0') :
    (incrementDigits cs).1.head? ≠ some '0' := by
  cases cs with
  | nil => simp [incrementDigits] at hc
  | cons c cs =>
    have hd := h c List.mem_cons_self
    simp only [incrementDigits] at hc ⊢
    split at hc
    · split at hc
      · simp at hc
      · next hcarry h9 =>
        rw [if_pos hcarry, if_neg h9]
        intro heq
        have hlt := (isDigit_succ hd h9).2
        rw [Option.some.inj heq] at hlt
        exact absurd (isDigit_iff.mp hd).1 (Nat.not_le_of_lt hlt)
    · next hcarry =>
      rw [if_neg hcarry]
      exact h0

theorem utf8Len_of_ascii (h : ∀ c ∈ cs, c.utf8Size = 1) :
    String.utf8Len cs = cs.length := by
  induction cs with
  | nil => rfl
  | cons c cs ih =>
    rw [String.utf8Len_cons, ih fun d hd => h d (List.mem_cons_of_mem c hd),
      h c List.mem_cons_self, List.length_cons]

theorem utf8ByteSize_of_ascii {s : String} (h : ∀ c ∈ s.toList, c.utf8Size = 1) :
    s.utf8ByteSize = s.toList.length := by
  rw [← utf8Len_of_ascii h, ← String.utf8ByteSize_ofList, String.ofList_toList]

theorem utf8ByteSize_digits {s : String} (h : ∀ c ∈ s.toList, IsDigit c) :
    s.utf8ByteSize = s.toList.length :=
  utf8ByteSize_of_ascii fun c hc => isDigit_utf8Size (h c hc)

theorem incrementDecimal_spec {s : String} (h : ∀ c ∈ s.toList, IsDigit c) (h0 : s.toList.head? ≠ some '0') :
    compareDecimal (incrementDecimal s) s = .gt ∧ (∀ c ∈ (incrementDecimal s).toList, IsDigit c) ∧
      s.utf8ByteSize ≤ (incrementDecimal s).utf8ByteSize ∧
      (incrementDecimal s).toList.head? ≠ some '0' := by
  have hlen := incrementDigits_length s.toList
  have hdig := incrementDigits_digits h
  rw [compareDecimal_gt_iff, Prod.Lex.toLex_lt_toLex, utf8ByteSize_digits h]
  unfold incrementDecimal
  cases hc : incrementDigits s.toList with
  | mk cs carry =>
    rw [hc] at hlen hdig
    cases carry with
    | true =>
      have hdig' : ∀ c ∈ (String.ofList ('1' :: cs)).toList, IsDigit c := by
        rw [String.toList_ofList]
        exact List.forall_mem_cons.mpr ⟨by decide, hdig⟩
      have hsize := utf8ByteSize_digits hdig'
      simp only [String.toList_ofList, List.length_cons] at hsize hlen
      refine ⟨Or.inl ?_, hdig', ?_, by simp⟩ <;> simp only [hsize] <;> omega
    | false =>
      have hlt := incrementDigits_lt h (by rw [hc])
      have hhead := incrementDigits_head h (by rw [hc]) h0
      rw [hc] at hlt hhead
      have hdig' : ∀ c ∈ (String.ofList cs).toList, IsDigit c := by
        rw [String.toList_ofList]
        exact hdig
      have hsize := utf8ByteSize_digits hdig'
      simp only [String.toList_ofList] at hsize hlen
      refine ⟨Or.inr ⟨?_, ?_⟩, hdig', ?_, by rwa [String.toList_ofList]⟩
      · simp only [hsize]; omega
      · rw [String.lt_iff_toList_lt, String.toList_ofList]
        exact hlt
      · simp only [hsize]; omega

def ClockValid (f : FileMeta) : Prop := validateClock f = .ok ()

instance (f : FileMeta) : Decidable (ClockValid f) :=
  match h : validateClock f with
  | .ok () => .isTrue h
  | .error _ => .isFalse fun h' => by rw [ClockValid, h] at h'; cases h'

variable {f : FileMeta}

theorem clockValid_iff :
    ClockValid f ↔ f.bigClock = "" ∨ f.clock = Int64.maxValue ∧ 19 ≤ f.bigClock.utf8ByteSize ∧
      f.bigClock.toList.head? ≠ some '0' ∧ (∀ c ∈ f.bigClock.toList, IsDigit c) ∧
      compareDecimal f.bigClock maxInt64Digits = .gt := by
  unfold ClockValid validateClock
  by_cases hb : f.bigClock = ""
  · simp [hb]
  · rw [if_neg hb]
    by_cases h1 : f.clock ≠ Int64.maxValue ∨ f.bigClock.utf8ByteSize < 19 ∨ f.bigClock.toList.head? = some '0'
    · rw [if_pos h1]
      simp only [reduceCtorEq, hb, false_or, false_iff]
      rintro ⟨hc, hs, hh, -⟩
      rcases h1 with h1 | h1 | h1
      · exact h1 hc
      · omega
      · exact hh h1
    · rw [if_neg h1]
      have h1' := not_or.mp h1
      have h1'' := not_or.mp h1'.2
      simp only [hb, false_or, not_not.mp h1'.1, true_and, not_lt.mp h1''.1, h1''.2, ne_eq, not_false_eq_true]
      by_cases h2 : f.bigClock.toList.any (fun c => c < '0' || '9' < c) = true
      · rw [if_pos h2]
        obtain ⟨c, hc, hd⟩ := List.any_eq_true.mp h2
        simp only [reduceCtorEq, false_iff]
        exact fun h => h.1 c hc hd
      · rw [if_neg h2]
        have hdig : ∀ c ∈ f.bigClock.toList, IsDigit c := by
          intro c hc hd
          exact h2 (List.any_eq_true.mpr ⟨c, hc, hd⟩)
        cases compareDecimal f.bigClock maxInt64Digits with
        | lt => simp
        | eq => simp
        | gt => simpa using hdig

theorem advanceClock_eq (f : FileMeta) (p : Option FileMeta) :
    ∃ c b, advanceClock f p = { f with clock := c, bigClock := b } := by
  have hfloor : ∃ c b, floorClock f = { f with clock := c, bigClock := b } := by
    unfold floorClock
    split <;> exact ⟨_, _, rfl⟩
  obtain ⟨c, b, h⟩ := hfloor
  cases p with
  | none => exact ⟨c, b, h⟩
  | some p =>
    simp only [advanceClock, clockAbove, h]
    split
    · exact ⟨c, b, rfl⟩
    · split <;> exact ⟨_, _, rfl⟩

theorem toInt_max (a b : Int64) : (max a b).toInt = max a.toInt b.toInt := by
  show (if a ≤ b then b else a).toInt = _
  rw [max_def]
  simp only [Int64.le_iff_toInt_le]
  split <;> rfl

theorem toInt_le_maxValue (a : Int64) : a.toInt ≤ Int64.maxValue.toInt := by
  have hm : Int64.maxValue.toInt = 9223372036854775807 := by decide
  have := a.toInt_lt
  omega

theorem toInt_succ {a : Int64} (h : a < Int64.maxValue) : (a + 1).toInt = a.toInt + 1 := by
  have h1 := Int64.lt_iff_toInt_lt.mp h
  have h2 := a.le_toInt
  rw [Int64.toInt_add]
  have hm : Int64.maxValue.toInt = 9223372036854775807 := by decide
  have h1' : (1 : Int64).toInt = 1 := by decide
  rw [hm] at h1
  rw [h1']
  exact Int.bmod_eq_of_le (by omega) (by omega)

theorem clockRank_small (h : f.bigClock = "") :
    f.clockRank = toLex (.inl f.stateClock.toInt) := if_pos h

theorem clockRank_big (h : f.bigClock ≠ "") :
    f.clockRank = toLex (.inr (toLex (f.bigClock.utf8ByteSize, f.bigClock))) := if_neg h

theorem clockRank_small_lt_big {f g : FileMeta} (hf : f.bigClock = "") (hg : g.bigClock ≠ "") :
    f.clockRank < g.clockRank := by
  rw [clockRank_small hf, clockRank_big hg]
  exact Sum.Lex.inl_lt_inr _ _

theorem stateClock_of_pos (h : 0 < f.clock.toInt) : f.stateClock = f.clock := by
  refine if_pos fun h0 => ?_
  rw [h0] at h
  exact absurd h (by decide)

theorem floorClock_clock (h : f.bigClock = "") :
    (floorClock f).clock.toInt = max (max 1 f.clock.toInt) f.modTime.toInt := by
  rw [floorClock, if_pos h]
  simp only [toInt_max]
  rfl

theorem floorClock_bigClock (f : FileMeta) : (floorClock f).bigClock = f.bigClock := by
  unfold floorClock
  split <;> rfl

theorem floorClock_valid (h : ClockValid f) : ClockValid (floorClock f) := by
  by_cases hb : f.bigClock = ""
  · exact clockValid_iff.mpr (Or.inl ((floorClock_bigClock f).trans hb))
  · rwa [floorClock, if_neg hb]

theorem isDigit_maxInt64 : ∀ c ∈ maxInt64Digits.toList, IsDigit c := by
  unfold maxInt64Digits IsDigit
  simp

theorem toString_maxInt64 : toString Int64.maxValue.toInt = maxInt64Digits := by decide

theorem compareDecimal_trans {a b c : String} (h : compareDecimal a b = .gt)
    (h' : compareDecimal b c = .gt) : compareDecimal a c = .gt := by
  rw [compareDecimal_gt_iff] at *
  exact lt_trans h' h

theorem clockValid_increment {d : String} (f : FileMeta) (hdig : ∀ c ∈ d.toList, IsDigit c)
    (hhead : d.toList.head? ≠ some '0') (hsize : 19 ≤ d.utf8ByteSize)
    (hmax : d = maxInt64Digits ∨ compareDecimal d maxInt64Digits = .gt) :
    ClockValid { f with clock := Int64.maxValue, bigClock := incrementDecimal d } ∧ incrementDecimal d ≠ "" := by
  obtain ⟨hinc, hdig', hsize', hhead'⟩ := incrementDecimal_spec hdig hhead
  refine ⟨clockValid_iff.mpr (Or.inr ⟨rfl, hsize.trans hsize', hhead', hdig', ?_⟩), fun h0 => ?_⟩
  · rcases hmax with rfl | hmax
    · exact hinc
    · exact compareDecimal_trans hinc hmax
  · rw [h0] at hsize'
    have : ("" : String).utf8ByteSize = 0 := by decide
    omega

theorem clockAbove_big {f p : FileMeta} (hp : ClockValid p)
    (h : ¬ (p.bigClock = "" ∧ p.stateClock < Int64.maxValue)) :
    ClockValid (clockAbove f p) ∧ p.clockRank < (clockAbove f p).clockRank := by
  rw [clockAbove, if_neg h]
  by_cases hb : p.bigClock = ""
  · have hmax : p.stateClock = Int64.maxValue := by
      have hge : ¬ p.stateClock < Int64.maxValue := fun hlt => h ⟨hb, hlt⟩
      rw [Int64.lt_iff_toInt_lt] at hge
      exact Int64.toInt_inj.mp (le_antisymm (toInt_le_maxValue _) (not_lt.mp hge))
    simp only [if_pos hb, hmax, toString_maxInt64]
    obtain ⟨hvalid, hne⟩ := clockValid_increment f isDigit_maxInt64 (by decide)
      (by decide) (Or.inl rfl)
    exact ⟨hvalid, clockRank_small_lt_big hb hne⟩
  · obtain ⟨-, hsize, hhead, hdig, hgt⟩ := (clockValid_iff.mp hp).resolve_left hb
    simp only [if_neg hb]
    obtain ⟨hvalid, hne⟩ := clockValid_increment f hdig hhead hsize (Or.inr hgt)
    have hinc := (incrementDecimal_spec hdig hhead).1
    refine ⟨hvalid, ?_⟩
    rw [clockRank_big hb, clockRank_big (by exact hne)]
    exact Sum.Lex.inr_lt_inr_iff.mpr (compareDecimal_gt_iff.mp hinc)

theorem clockAbove_small {f p : FileMeta} (h : p.bigClock = "" ∧ p.stateClock < Int64.maxValue)
    (hpos : 0 < p.stateClock.toInt) :
    ClockValid (clockAbove f p) ∧ p.clockRank < (clockAbove f p).clockRank := by
  have hs := toInt_succ h.2
  have hclock : (clockAbove f p).clock = p.stateClock + 1 := by rw [clockAbove, if_pos h]
  have hbig : (clockAbove f p).bigClock = "" := by rw [clockAbove, if_pos h]
  refine ⟨clockValid_iff.mpr (Or.inl hbig), ?_⟩
  have hstate : (clockAbove f p).stateClock = p.stateClock + 1 := by
    rw [stateClock_of_pos (by rw [hclock]; omega), hclock]
  rw [clockRank_small h.1, clockRank_small hbig, hstate]
  exact Sum.Lex.inl_lt_inl_iff.mpr (by omega)

theorem stateClock_pos_of_not_gt {f p : FileMeta} (h : compareClock (floorClock f) p ≠ .gt)
    (hp : p.bigClock = "") : 0 < p.stateClock.toInt := by
  by_contra hneg
  refine h (compareClock_gt_iff.mpr ?_)
  by_cases hb : f.bigClock = ""
  · have hc := floorClock_clock hb
    have hs := stateClock_of_pos (show 0 < (floorClock f).clock.toInt by omega)
    rw [clockRank_small hp, clockRank_small ((floorClock_bigClock f).trans hb), hs]
    exact Sum.Lex.inl_lt_inl_iff.mpr (by omega)
  · exact clockRank_small_lt_big hp (by rwa [floorClock_bigClock])

theorem advanceClock_valid {p : Option FileMeta} (hf : ClockValid f)
    (hp : ∀ q, p = some q → ClockValid q) : ClockValid (advanceClock f p) := by
  cases p with
  | none => exact floorClock_valid hf
  | some p =>
    simp only [advanceClock]
    split
    · exact floorClock_valid hf
    · next h =>
      by_cases hs : p.bigClock = "" ∧ p.stateClock < Int64.maxValue
      · exact (clockAbove_small hs (stateClock_pos_of_not_gt h hs.1)).1
      · exact (clockAbove_big (hp p rfl) hs).1

theorem advanceClock_gt {f p : FileMeta} (hp : ClockValid p) :
    p.clockRank < (advanceClock f (some p)).clockRank := by
  simp only [advanceClock]
  split
  · next h => exact compareClock_gt_iff.mp h
  · next h =>
    by_cases hs : p.bigClock = "" ∧ p.stateClock < Int64.maxValue
    · exact (clockAbove_small hs (stateClock_pos_of_not_gt h hs.1)).2
    · exact (clockAbove_big hp hs).2

end BirakFormal
