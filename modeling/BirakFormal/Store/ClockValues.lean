import BirakFormal.Store.Advance

/-!
# Clocks as integers

A clock is an `int64` or, beyond it, a decimal text. Both stand for integers: the comparison of clocks is
that of the integers, and advancing a clock adds one, however long the run of nines that it carries through.
-/

namespace BirakFormal

def decimalValue : List Char → Nat
  | [] => 0
  | c :: cs => (c.toNat - 48) * 10 ^ cs.length + decimalValue cs

variable {cs : List Char}

theorem decimalValue_lt (h : ∀ c ∈ cs, IsDigit c) : decimalValue cs < 10 ^ cs.length := by
  induction cs with
  | nil => exact Nat.one_pos
  | cons c cs ih =>
    have hc := isDigit_iff.mp (h c List.mem_cons_self)
    have hrest := ih fun d hd => h d (List.mem_cons_of_mem c hd)
    have hdigit : (c.toNat - 48) * 10 ^ cs.length ≤ 9 * 10 ^ cs.length := Nat.mul_le_mul_right _ (by omega)
    rw [decimalValue, List.length_cons, Nat.pow_succ]
    omega

theorem pow_le_decimalValue {c : Char} (hc : IsDigit c) (h0 : c ≠ '0') :
    10 ^ cs.length ≤ decimalValue (c :: cs) := by
  have hrange := isDigit_iff.mp hc
  have hne : c.toNat ≠ 48 := fun h => h0 (Char.ext (UInt32.toNat_inj.mp h))
  have hpos : 1 * 10 ^ cs.length ≤ (c.toNat - 48) * 10 ^ cs.length := Nat.mul_le_mul_right _ (by omega)
  rw [decimalValue]
  omega

theorem decimalValue_lt_of_lt {cs ds : List Char} (hcs : ∀ c ∈ cs, IsDigit c) (hds : ∀ d ∈ ds, IsDigit d)
    (hlen : cs.length = ds.length) (h : cs < ds) : decimalValue cs < decimalValue ds := by
  induction cs generalizing ds with
  | nil =>
    rw [List.eq_nil_of_length_eq_zero hlen.symm] at h
    exact absurd h (List.lt_irrefl [])
  | cons c cs ih =>
    cases ds with
    | nil => cases hlen
    | cons d ds =>
      have hc := isDigit_iff.mp (hcs c List.mem_cons_self)
      have hcs' : ∀ x ∈ cs, IsDigit x := fun x hx => hcs x (List.mem_cons_of_mem c hx)
      have hds' : ∀ x ∈ ds, IsDigit x := fun x hx => hds x (List.mem_cons_of_mem d hx)
      have hlen' : cs.length = ds.length := Nat.succ.inj hlen
      rw [decimalValue, decimalValue, hlen']
      rcases List.cons_lt_cons_iff.mp h with hlt | ⟨rfl, hlt⟩
      · have hnat : c.toNat < d.toNat := hlt
        have hfirst : (c.toNat - 48 + 1) * 10 ^ ds.length ≤ (d.toNat - 48) * 10 ^ ds.length :=
          Nat.mul_le_mul_right _ (by omega)
        have hrest := decimalValue_lt hcs'
        rw [hlen'] at hrest
        rw [Nat.add_mul] at hfirst
        omega
      · have hrest := ih hcs' hds' hlen' hlt
        omega

structure IsDecimal (s : String) : Prop where
  digits : ∀ c ∈ s.toList, IsDigit c
  ne_nil : s.toList ≠ []
  head : s.toList.head? ≠ some '0'

variable {a b : String}

theorem IsDecimal.lt_of_length (ha : IsDecimal a) (hb : IsDecimal b)
    (h : a.toList.length < b.toList.length) : decimalValue a.toList < decimalValue b.toList := by
  cases hcs : b.toList with
  | nil => exact absurd hcs hb.ne_nil
  | cons d ds =>
    have hdigit := hb.digits d (hcs ▸ List.mem_cons_self)
    have hd : d ≠ '0' := by
      rintro rfl
      exact hb.head (by rw [hcs]; rfl)
    rw [hcs, List.length_cons] at h
    calc decimalValue a.toList < 10 ^ a.toList.length := decimalValue_lt ha.digits
      _ ≤ 10 ^ ds.length := Nat.pow_le_pow_right (by decide) (by omega)
      _ ≤ decimalValue (d :: ds) := pow_le_decimalValue hdigit hd

theorem IsDecimal.lt_iff (ha : IsDecimal a) (hb : IsDecimal b) :
    toLex (a.utf8ByteSize, a) < toLex (b.utf8ByteSize, b) ↔ decimalValue a.toList < decimalValue b.toList := by
  rw [Prod.Lex.toLex_lt_toLex]
  simp only [utf8ByteSize_digits ha.digits, utf8ByteSize_digits hb.digits, String.lt_iff_toList_lt]
  constructor
  · rintro (hlen | ⟨hlen, hlt⟩)
    · exact ha.lt_of_length hb hlen
    · exact decimalValue_lt_of_lt ha.digits hb.digits hlen hlt
  · intro hlt
    rcases Nat.lt_trichotomy a.toList.length b.toList.length with hlen | hlen | hlen
    · exact .inl hlen
    · refine .inr ⟨hlen, ?_⟩
      rcases lt_trichotomy a.toList b.toList with h | h | h
      · exact h
      · rw [h] at hlt
        exact absurd hlt (Nat.lt_irrefl _)
      · exact absurd (decimalValue_lt_of_lt hb.digits ha.digits hlen.symm h) (Nat.lt_asymm hlt)
    · exact absurd (hb.lt_of_length ha hlen) (Nat.lt_asymm hlt)

theorem IsDecimal.compare (ha : IsDecimal a) (hb : IsDecimal b) :
    compareDecimal a b = Ord.compare (decimalValue a.toList) (decimalValue b.toList) := by
  rw [compareDecimal_eq]
  exact compare_of_lt_iff (ha.lt_iff hb) (hb.lt_iff ha)

theorem incrementDigits_value (h : ∀ c ∈ cs, IsDigit c) :
    decimalValue (incrementDigits cs).1 + (if (incrementDigits cs).2 then 10 ^ cs.length else 0) = decimalValue cs + 1 := by
  induction cs with
  | nil => rfl
  | cons c cs ih =>
    have hc := h c List.mem_cons_self
    have hrange := isDigit_iff.mp hc
    have ih := ih fun d hd => h d (List.mem_cons_of_mem c hd)
    have hlen := incrementDigits_length cs
    unfold incrementDigits
    rcases hinc : incrementDigits cs with ⟨cs', carry⟩
    rw [hinc] at ih hlen
    dsimp only at ih hlen ⊢
    cases carry with
    | false =>
      simp only [Bool.false_eq_true, if_false, Nat.add_zero, decimalValue, hlen] at ih ⊢
      omega
    | true =>
      simp only [if_true] at ih ⊢
      by_cases h9 : c = '9'
      · subst h9
        simp only [if_true, decimalValue, hlen, List.length_cons, Nat.pow_succ]
        have hnine : ('9' : Char).toNat - 48 = 9 := by decide
        have hzero : ('0' : Char).toNat - 48 = 0 := by decide
        rw [hnine, hzero]
        omega
      · rw [if_neg h9]
        have hsucc : (Char.ofNat (c.toNat + 1)).toNat - 48 = c.toNat - 48 + 1 := by
          rw [toNat_ofNat_succ hc]
          omega
        simp only [Bool.false_eq_true, if_false, decimalValue, hlen, hsucc, Nat.add_mul]
        omega

theorem incrementDecimal_value {s : String} (h : ∀ c ∈ s.toList, IsDigit c) :
    decimalValue (incrementDecimal s).toList = decimalValue s.toList + 1 := by
  have hvalue := incrementDigits_value h
  have hlen := incrementDigits_length s.toList
  unfold incrementDecimal
  cases hinc : incrementDigits s.toList with
  | mk cs carry =>
    rw [hinc] at hvalue hlen
    cases carry with
    | true =>
      simp only [String.toList_ofList, decimalValue, if_true] at hvalue hlen ⊢
      have hone : ('1' : Char).toNat - 48 = 1 := by decide
      rw [hone, hlen]
      omega
    | false =>
      simp only [String.toList_ofList, Bool.false_eq_true, if_false] at hvalue ⊢
      omega

def FileMeta.clockValue (f : FileMeta) : Int :=
  if f.bigClock = "" then f.stateClock.toInt else decimalValue f.bigClock.toList

/-- The clock that a write asks for before it is compared with what was observed. -/
def FileMeta.candidate (f : FileMeta) : Int :=
  if f.bigClock = "" then max (max 1 f.clock.toInt) f.modTime.toInt else decimalValue f.bigClock.toList

theorem decimalValue_maxInt64 : (decimalValue maxInt64Digits.toList : Int) = Int64.maxValue.toInt := by decide

theorem isDecimal_maxInt64 : IsDecimal maxInt64Digits := ⟨isDigit_maxInt64, by decide, by decide⟩

theorem isDecimal_of_valid {f : FileMeta} (h : ClockValid f) (hbig : f.bigClock ≠ "") : IsDecimal f.bigClock := by
  obtain ⟨-, hsize, hhead, hdigits, -⟩ := (clockValid_iff.mp h).resolve_left hbig
  refine ⟨hdigits, fun hnil => ?_, hhead⟩
  rw [utf8ByteSize_digits hdigits, hnil] at hsize
  exact absurd hsize (by decide)

theorem maxValue_lt_clockValue {f : FileMeta} (h : ClockValid f) (hbig : f.bigClock ≠ "") :
    Int64.maxValue.toInt < f.clockValue := by
  obtain ⟨-, -, -, -, hgt⟩ := (clockValid_iff.mp h).resolve_left hbig
  rw [(isDecimal_of_valid h hbig).compare isDecimal_maxInt64, compare_gt_iff_gt] at hgt
  rw [FileMeta.clockValue, if_neg hbig, ← decimalValue_maxInt64]
  exact Int.ofNat_lt.mpr hgt

theorem compareClock_value {a b : FileMeta} (ha : ClockValid a) (hb : ClockValid b) :
    compareClock a b = compare a.clockValue b.clockValue := by
  unfold compareClock
  by_cases habig : a.bigClock = ""
  · by_cases hbbig : b.bigClock = ""
    · simp only [habig, hbbig, ne_eq, not_true_eq_false, and_self, if_false, compare_int64, FileMeta.clockValue, if_true]
    · have hlt : a.clockValue < b.clockValue := by
        refine lt_of_le_of_lt ?_ (maxValue_lt_clockValue hb hbbig)
        rw [FileMeta.clockValue, if_pos habig]
        exact toInt_le_maxValue _
      simp only [habig, hbbig, ne_eq, not_true_eq_false, not_false_eq_true, false_and, if_false, if_true]
      exact (compare_lt_iff_lt.mpr hlt).symm
  · by_cases hbbig : b.bigClock = ""
    · have hlt : b.clockValue < a.clockValue := by
        refine lt_of_le_of_lt ?_ (maxValue_lt_clockValue ha habig)
        rw [FileMeta.clockValue, if_pos hbbig]
        exact toInt_le_maxValue _
      simp only [habig, hbbig, ne_eq, not_true_eq_false, not_false_eq_true, and_false, if_false, if_true]
      exact (compare_gt_iff_gt.mpr hlt).symm
    · simp only [habig, hbbig, ne_eq, not_false_eq_true, and_self, if_true, FileMeta.clockValue, if_false]
      rw [(isDecimal_of_valid ha habig).compare (isDecimal_of_valid hb hbbig)]
      exact compare_of_lt_iff Int.ofNat_lt.symm Int.ofNat_lt.symm

theorem clockValue_floorClock (f : FileMeta) : (floorClock f).clockValue = f.candidate := by
  unfold FileMeta.clockValue FileMeta.candidate
  rw [floorClock_bigClock]
  split
  · next hsmall =>
    have hclock := floorClock_clock hsmall
    rw [stateClock_of_pos (by omega), hclock]
  · rfl

theorem clockValue_clockAbove {f p : FileMeta} (hp : ClockValid p) (hpos : p.bigClock = "" → 0 < p.stateClock.toInt) :
    (clockAbove f p).clockValue = p.clockValue + 1 := by
  by_cases hsmall : p.bigClock = "" ∧ p.stateClock < Int64.maxValue
  · have hsucc := toInt_succ hsmall.2
    have hfirst := hpos hsmall.1
    have hclock : (clockAbove f p).clock = p.stateClock + 1 := by rw [clockAbove, if_pos hsmall]
    have hbig : (clockAbove f p).bigClock = "" := by rw [clockAbove, if_pos hsmall]
    rw [FileMeta.clockValue, if_pos hbig, FileMeta.clockValue, if_pos hsmall.1,
      stateClock_of_pos (by rw [hclock]; omega), hclock, hsucc]
  · -- the digits of the clock before it, if need be those of the greatest `int64`
    have hdigits : ∃ d, IsDecimal d ∧ (clockAbove f p).bigClock = incrementDecimal d ∧ (decimalValue d.toList : Int) = p.clockValue := by
      by_cases hbig : p.bigClock = ""
      · have hmax : p.stateClock = Int64.maxValue := by
          have hge : ¬ p.stateClock < Int64.maxValue := fun hlt => hsmall ⟨hbig, hlt⟩
          rw [Int64.lt_iff_toInt_lt] at hge
          exact Int64.toInt_inj.mp (le_antisymm (toInt_le_maxValue _) (not_lt.mp hge))
        refine ⟨maxInt64Digits, isDecimal_maxInt64, ?_, ?_⟩
        · rw [clockAbove, if_neg hsmall]
          simp only [if_pos hbig, hmax, toString_maxInt64]
        · rw [FileMeta.clockValue, if_pos hbig, hmax, decimalValue_maxInt64]
      · refine ⟨p.bigClock, isDecimal_of_valid hp hbig, ?_, ?_⟩
        · rw [clockAbove, if_neg hsmall]
          simp only [if_neg hbig]
        · rw [FileMeta.clockValue, if_neg hbig]
    obtain ⟨d, hd, hbig, hvalue⟩ := hdigits
    have hinc := incrementDecimal_value hd.digits
    have hne : (clockAbove f p).bigClock ≠ "" := by
      rw [hbig]
      intro hnil
      rw [hnil] at hinc
      have hzero : decimalValue ("" : String).toList = 0 := by decide
      omega
    rw [FileMeta.clockValue, if_neg hne, hbig, hinc, ← hvalue]
    rfl

/-- Clocks are unbounded integers: valid clocks compare as their values, and an advanced clock is valid and
has the value asked for, or the one after the value observed. -/
theorem clocks_are_integers :
    (∀ a b, ClockValid a → ClockValid b → compareClock a b = compare a.clockValue b.clockValue) ∧
      ∀ (f : FileMeta) (previous : Option FileMeta), ClockValid f → (∀ p, previous = some p → ClockValid p) →
        ClockValid (advanceClock f previous) ∧ (advanceClock f previous).clockValue = match previous with
          | none => f.candidate
          | some p => if p.clockValue < f.candidate then f.candidate else p.clockValue + 1 := by
  refine ⟨fun a b => compareClock_value, fun f previous hf hprevious => ⟨advanceClock_valid hf hprevious, ?_⟩⟩
  cases previous with
  | none => exact clockValue_floorClock f
  | some p =>
    have hp := hprevious p rfl
    have hcompare := compareClock_value (floorClock_valid hf) hp
    rw [clockValue_floorClock] at hcompare
    simp only [advanceClock]
    split
    · next hgt =>
      rw [hcompare, compare_gt_iff_gt] at hgt
      rw [if_pos hgt, clockValue_floorClock]
    · next hle =>
      have hle' := hle
      rw [hcompare, compare_gt_iff_gt] at hle'
      rw [if_neg hle', clockValue_clockAbove hp (stateClock_pos_of_not_gt hle)]

/-- The step beyond `int64`. -/
theorem clocks_are_integers_maxInt64 :
    (advanceClock { clock := 5 } (some { clock := Int64.maxValue })).clockValue = 9223372036854775808 :=
  (clocks_are_integers.2 { clock := 5 } (some { clock := Int64.maxValue }) (by decide)
    (fun p hp => by cases hp; decide)).2.trans (by decide)

end BirakFormal
