import BirakFormal.Store.Forward

/-!
# Local writes dominate their namespace

A local write takes a clock above the rows at its name, above it and below it. The rows below
are found by a range of strings, which is the range of names with that beginning. Versions
come from one counter that only a committed transaction moves.
-/

namespace BirakFormal

open Tables FileTrees

theorem beneath_range {n a : String} (h : Beneath n a) : a ++ "/" ≤ n ∧ n < a ++ "0" := by
  obtain ⟨rest, hrest⟩ : a.toList ++ ['/'] <+: n.toList := mem_parents.mp h
  rw [String.le_iff_toList_le, String.lt_iff_toList_lt, String.toList_append, String.toList_append, ← hrest]
  constructor
  · cases rest with
    | nil => exact le_of_eq (List.append_nil _).symm
    | cons c cs =>
      apply le_of_lt
      have hlt : a.toList ++ ['/'] ++ [] < a.toList ++ ['/'] ++ c :: cs :=
        List.append_left_lt (List.nil_lt_cons c cs)
      rwa [List.append_nil] at hlt
  · rw [List.append_assoc]
    apply List.append_left_lt
    apply List.cons_lt_cons_iff.mpr
    left
    decide

theorem prefix_of_range {l m : List Char} (hlo : ¬ m < l ++ ['/']) (hhi : m < l ++ ['0']) :
    l ++ ['/'] <+: m := by
  induction l generalizing m with
  | nil =>
    cases m with
    | nil => exact absurd (List.nil_lt_cons _ _) hlo
    | cons c cs =>
      rcases List.cons_lt_cons_iff.mp hhi with hc | ⟨-, hcs⟩
      · have hle : '/' ≤ c := by
          by_contra hlt
          exact hlo (List.cons_lt_cons_iff.mpr (Or.inl (not_le.mp hlt)))
        have hlow : '/'.val.toNat ≤ c.val.toNat := hle
        have hhigh : c.val.toNat < '0'.val.toNat := hc
        have hslash : ('/').val.toNat = 47 := by decide
        have hzero : ('0').val.toNat = 48 := by decide
        have hval : c.val.toNat = ('/').val.toNat := by omega
        obtain rfl : c = '/' := Char.ext (UInt32.toNat_inj.mp hval)
        exact ⟨cs, rfl⟩
      · exact absurd hcs (List.not_lt_nil cs)
  | cons x l ih =>
    cases m with
    | nil => exact absurd (List.nil_lt_cons x (l ++ ['/'])) hlo
    | cons c cs =>
      have hxc : x = c := by
        rcases List.cons_lt_cons_iff.mp hhi with hc | ⟨hc, -⟩
        · exact absurd (List.cons_lt_cons_iff.mpr (Or.inl hc)) hlo
        · exact hc.symm
      subst hxc
      have hlo' : ¬ cs < l ++ ['/'] := fun hlt => hlo (List.cons_lt_cons_iff.mpr (Or.inr ⟨rfl, hlt⟩))
      have hhi' : cs < l ++ ['0'] := by
        rcases List.cons_lt_cons_iff.mp hhi with hc | ⟨-, hc⟩
        · exact absurd hc (lt_irrefl x)
        · exact hc
      obtain ⟨rest, rfl⟩ := ih hlo' hhi'
      exact ⟨rest, rfl⟩

theorem beneath_of_range {n a : String} (hlo : a ++ "/" ≤ n) (hhi : n < a ++ "0") : Beneath n a := by
  rw [String.le_iff_toList_le, String.toList_append] at hlo
  rw [String.lt_iff_toList_lt, String.toList_append] at hhi
  exact mem_parents.mpr (prefix_of_range (not_lt.mpr hlo) hhi)

theorem inNamespace_of_conflict {n : String} {r : FileMeta}
    (h : r.name = n ∨ Beneath r.name n ∨ Beneath n r.name) : inNamespace n r = true := by
  unfold inNamespace
  simp only [Bool.or_eq_true, decide_eq_true_eq, Bool.and_eq_true]
  rcases h with heq | hbelow | habove
  · exact Or.inl (Or.inl heq)
  · exact Or.inr (beneath_range hbelow)
  · exact Or.inl (Or.inr habove)

variable {f : FileMeta}

theorem clockValid_pos (h : ClockValid f) (hbig : f.bigClock ≠ "") :
    0 < f.clock.toInt := by
  rcases clockValid_iff.mp h with hnone | ⟨hmax, -⟩
  · exact absurd hnone hbig
  · rw [hmax]
    decide

theorem floorClock_pos (h : ClockValid f) : 0 < (floorClock f).clock.toInt := by
  by_cases hbig : f.bigClock = ""
  · rw [floorClock_clock hbig]
    omega
  · exact clockValid_pos (floorClock_valid h) (by rwa [floorClock_bigClock])

theorem advanceClock_pos {p : Option FileMeta} (h : ClockValid f) :
    0 < (advanceClock f p).clock.toInt := by
  cases p with
  | none => exact floorClock_pos h
  | some p =>
    simp only [advanceClock]
    split
    · exact floorClock_pos h
    · next hle =>
      unfold clockAbove
      split
      · next hsmall =>
        have hpos := stateClock_pos_of_not_gt hle hsmall.1
        have hsucc := toInt_succ hsmall.2
        show 0 < (p.stateClock + 1).toInt
        omega
      · show 0 < Int64.maxValue.toInt
        decide

namespace Store

/-- One transaction that puts a row; it may be rolled back by an error of its own or of the
database. -/
structure PutAttempt where
  row : FileMeta
  isLocal : Bool
  rolledBack : Bool := false

def attemptPut (s : Store) (fold : String → String) (a : PutAttempt) : Option Int × Store :=
  if a.rolledBack then (none, s)
  else match s.commitPut fold a.row a.isLocal with
    | .ok (v, s') => (some v, s')
    | .error _ => (none, s)

def attemptPuts (s : Store) (fold : String → String) : List PutAttempt → List Int × Store
  | [] => ([], s)
  | a :: as =>
    let r := s.attemptPut fold a
    let rest := r.2.attemptPuts fold as
    (r.1.toList ++ rest.1, rest.2)

def versionsAfter (v : Int) (k : Nat) : List Int := (List.range k).map fun i : Nat => v + 1 + (i : Int)

theorem versionsAfter_succ (v : Int) (k : Nat) :
    versionsAfter v (k + 1) = (v + 1) :: versionsAfter (v + 1) k := by
  unfold versionsAfter
  rw [List.range_succ_eq_map, List.map_cons, List.map_map]
  refine congrArg₂ List.cons (by simp) (List.map_congr_left fun i _ => ?_)
  simp only [Function.comp_apply, Nat.succ_eq_add_one, Int.natCast_add, Int.cast_ofNat_Int]
  omega

theorem commitPut_version {s s' : Store} {fold : String → String} {m : FileMeta} {isLocal : Bool}
    {v : Int} (h : s.commitPut fold m isLocal = .ok (v, s')) :
    v = s.lastVersion + 1 ∧ s'.lastVersion = s.lastVersion + 1 := by
  unfold commitPut at h
  split at h
  · cases h
  · split at h
    · cases h
    · cases h
      exact ⟨rfl, rfl⟩

theorem attemptPuts_versions (s : Store) (fold : String → String) (as : List PutAttempt) :
    (s.attemptPuts fold as).1 = versionsAfter s.lastVersion (s.attemptPuts fold as).1.length ∧
      (s.attemptPuts fold as).2.lastVersion = s.lastVersion + ((s.attemptPuts fold as).1.length : Int) := by
  induction as generalizing s with
  | nil => exact ⟨rfl, (Int.add_zero _).symm⟩
  | cons a as ih =>
    obtain ⟨hlist, hlast⟩ := ih (s.attemptPut fold a).2
    have hstep : (s.attemptPut fold a).1 = none ∧ (s.attemptPut fold a).2 = s ∨
        (s.attemptPut fold a).1 = some (s.lastVersion + 1) ∧
          (s.attemptPut fold a).2.lastVersion = s.lastVersion + 1 := by
      unfold attemptPut
      split
      · exact Or.inl ⟨rfl, rfl⟩
      · split
        · next hput =>
          obtain ⟨hv, hs⟩ := commitPut_version hput
          exact Or.inr ⟨congrArg some hv, hs⟩
        · exact Or.inl ⟨rfl, rfl⟩
    unfold attemptPuts
    dsimp only
    rcases hstep with ⟨hnone, hsame⟩ | ⟨hsome, hnext⟩
    · rw [hnone, Option.toList_none, List.nil_append]
      rw [hsame] at hlist hlast ⊢
      exact ⟨hlist, hlast⟩
    · rw [hsome, Option.toList_some, List.singleton_append, List.length_cons, versionsAfter_succ]
      rw [hnext] at hlist hlast
      refine ⟨congrArg _ hlist, ?_⟩
      rw [hlast, Int.natCast_add]
      omega

/-- A local write takes a positive, valid clock above every row at its name, above it and below
it, changes no other row, and takes the version after the last one ever assigned. -/
theorem putLocal_dominates {s s' : Store} {fold : String → String} {m : FileMeta} {v : Int}
    (hrows : ∀ n r, s.getFile n = some r → ClockValid r) (hm : ClockValid m)
    (hput : s.commitPut fold m true = .ok (v, s')) :
    (∃ row, s'.getFile m.name = some row ∧ 0 < row.clock.toInt ∧ ClockValid row ∧ row.version = v ∧
      ∀ n r, s.getFile n = some r → n = m.name ∨ Beneath n m.name ∨ Beneath m.name n → compareClock row r = .gt) ∧
    (∀ n, n ≠ m.name → s'.getFile n = s.getFile n) ∧
    ∀ (s₀ : Store) as, s = (s₀.attemptPuts fold as).2 → ∃ k,
      (s₀.attemptPuts fold as).1 = versionsAfter s₀.lastVersion k ∧ v = s₀.lastVersion + k + 1 := by
  have hget := getFile_commitPut hput
  have hvalid : ∀ r ∈ s.files.rows, ClockValid r := fun r hr => hrows r.name r (Table.mem_rows_iff.mp hr)
  refine ⟨⟨s.committedRow m true, by rw [hget, if_pos rfl], ?_, ?_, ?_, ?_⟩, ?_, ?_⟩
  · exact advanceClock_pos hm
  · exact advanceClock_valid hm fun p hp => (namespaceClock_spec hvalid hp).1
  · exact (commitPut_version hput).1.symm
  · intro n r hr hconflict
    rw [← getFile_name hr] at hconflict
    exact compareClock_gt_iff.mpr
      (committedRow_local_clock hvalid (Table.find_mem hr) (inNamespace_of_conflict hconflict))
  · intro n hn
    rw [hget, if_neg hn]
  · rintro s₀ as rfl
    obtain ⟨hlist, hlast⟩ := attemptPuts_versions s₀ fold as
    refine ⟨_, hlist, ?_⟩
    rw [(commitPut_version hput).1, hlast]

/-- A store with one row, at the end of the range of `int64` clocks. -/
def lastClock : Store where
  files := Table.empty.put { name := "a", modTime := 7, clock := Int64.maxValue, version := 1 }
  lastVersion := 1

theorem lastClock_rows {n : String} {r : FileMeta} (h : lastClock.getFile n = some r) :
    r = { name := "a", modTime := 7, clock := Int64.maxValue, version := 1 } := by
  change (Table.empty.put _).find n = some r at h
  rw [Table.find_put] at h
  split at h
  · exact (Option.some.inj h).symm
  · cases h

/-- The next clock below it has to be a decimal. -/
theorem putLocal_dominates_lastClock :
    ∃ v s', lastClock.commitPut id { name := "a/b", hash := "h" } true = .ok (v, s') ∧
      ∃ row, s'.getFile "a/b" = some row ∧ ClockValid row ∧
        compareClock row { name := "a", modTime := 7, clock := Int64.maxValue, version := 1 } = .gt := by
  have hok : (lastClock.commitPut id { name := "a/b", hash := "h" } true).isOk = true := by
    decide +kernel
  cases hput : lastClock.commitPut id { name := "a/b", hash := "h" } true with
  | error e =>
    rw [hput] at hok
    cases hok
  | ok r =>
    have hrows : ∀ n r, lastClock.getFile n = some r → ClockValid r := by
      intro n r hr
      rw [lastClock_rows hr]
      decide
    obtain ⟨⟨row, hrow, -, hvalid, -, hgt⟩, -⟩ := putLocal_dominates hrows (by decide) hput
    exact ⟨r.1, r.2, rfl, row, hrow, hvalid, hgt "a" _ rfl (by decide)⟩

end Store

end BirakFormal
