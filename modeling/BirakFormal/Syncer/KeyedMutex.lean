import Mathlib

/-!
# A mutex for each name

Any number of calls of `lock` and of the functions it returns. What runs under `mu` touches the map
and the counts only, and nothing touches these without it, so each of the two sections is one step;
taking and giving back the mutex of an entry are the other two.
-/

namespace BirakFormal

open Relation

structure KeyedEntry where
  refs : Int := 0
  locked : Bool := false
  deriving DecidableEq, Repr

/-- Where a call is: counted but not yet past the mutex of its entry, past it, or in the release
function between its two steps. -/
inductive LockPhase where
  | waiting
  | holding
  | unlocked
  deriving DecidableEq, Repr

structure LockCall where
  key : String
  entry : Nat
  phase : LockPhase
  deriving DecidableEq, Repr

/-- Entries are allocated one after the other. -/
structure KeyedMutex where
  locks : String → Option Nat := fun _ => none
  entries : Nat → KeyedEntry := fun _ => {}
  fresh : Nat := 0
  calls : List LockCall := []

namespace KeyedMutex

variable {s t : KeyedMutex}

/-- The entry of a key, which is made where there is none. -/
def entryOf (s : KeyedMutex) (key : String) : Nat × KeyedMutex :=
  match s.locks key with
  | some e => (e, s)
  | none => (s.fresh, { s with
      locks := Function.update s.locks key (some s.fresh)
      entries := Function.update s.entries s.fresh {}
      fresh := s.fresh + 1 })

def setEntry (s : KeyedMutex) (e : Nat) (x : KeyedEntry) : KeyedMutex :=
  { s with entries := Function.update s.entries e x }

def lock (s : KeyedMutex) (key : String) : KeyedMutex :=
  let r := s.entryOf key
  let entry := r.2.entries r.1
  { r.2.setEntry r.1 { entry with refs := entry.refs + 1 } with calls := ⟨key, r.1, .waiting⟩ :: r.2.calls }

/-- The section at the end of the release function. -/
def release (s : KeyedMutex) (c : LockCall) : KeyedMutex :=
  let entry := s.entries c.entry
  let s := s.setEntry c.entry { entry with refs := entry.refs - 1 }
  if entry.refs - 1 = 0 then { s with locks := Function.update s.locks c.key none } else s

theorem release_eq (s : KeyedMutex) (c : LockCall) :
    s.release c = { s.setEntry c.entry { s.entries c.entry with refs := (s.entries c.entry).refs - 1 } with
      locks := if (s.entries c.entry).refs - 1 = 0 then Function.update s.locks c.key none else s.locks } := by
  dsimp only [release]
  split <;> rfl

inductive Step : KeyedMutex → KeyedMutex → Prop
  | lock (s : KeyedMutex) (key : String) : Step s (s.lock key)
  | acquire (s : KeyedMutex) (pre post : List LockCall) (key : String) (e : Nat)
      (hcalls : s.calls = pre ++ ⟨key, e, .waiting⟩ :: post) (hfree : (s.entries e).locked = false) :
      Step s { s.setEntry e { s.entries e with locked := true } with calls := pre ++ ⟨key, e, .holding⟩ :: post }
  | unlock (s : KeyedMutex) (pre post : List LockCall) (key : String) (e : Nat)
      (hcalls : s.calls = pre ++ ⟨key, e, .holding⟩ :: post) :
      Step s { s.setEntry e { s.entries e with locked := false } with calls := pre ++ ⟨key, e, .unlocked⟩ :: post }
  | release (s : KeyedMutex) (pre post : List LockCall) (key : String) (e : Nat)
      (hcalls : s.calls = pre ++ ⟨key, e, .unlocked⟩ :: post) :
      Step s { s.release ⟨key, e, .unlocked⟩ with calls := pre ++ post }

/-- Every call is counted in its entry, which is the one in the map; an entry in the map is
somebody's; an entry is locked if one call is past its mutex, and there is never more than one. -/
structure Sound (s : KeyedMutex) : Prop where
  counted : ∀ e, (s.entries e).refs = s.calls.countP (·.entry = e)
  held : ∀ e, s.calls.countP (fun c => c.entry = e ∧ c.phase = .holding) = if (s.entries e).locked then 1 else 0
  mapped : ∀ c ∈ s.calls, s.locks c.key = some c.entry
  used : ∀ key e, s.locks key = some e → ∃ c ∈ s.calls, c.key = key
  apart : ∀ key key' e, s.locks key = some e → s.locks key' = some e → key = key'
  allocated : ∀ key e, s.locks key = some e → e < s.fresh

/-- What looking up an entry leaves: the key has it, and no other key. -/
structure Found (s : KeyedMutex) (key : String) (e : Nat) (t : KeyedMutex) : Prop where
  found : t.locks key = some e
  kept : ∀ k x, s.locks k = some x → t.locks k = some x
  only : ∀ k x, t.locks k = some x → s.locks k = some x ∨ k = key ∧ x = e
  alone : ∀ k, s.locks k = some e → k = key
  entries : t.entries = s.entries
  calls : t.calls = s.calls
  fresh : s.fresh ≤ t.fresh ∧ e < t.fresh

namespace Sound

theorem blank (h : s.Sound) : s.entries s.fresh = {} := by
  have hnone : ∀ c ∈ s.calls, c.entry ≠ s.fresh := fun c hc => (h.allocated c.key c.entry (h.mapped c hc)).ne
  have hrefs : s.calls.countP (·.entry = s.fresh) = 0 := by
    simpa [List.countP_eq_zero] using hnone
  have hheld : s.calls.countP (fun c => c.entry = s.fresh ∧ c.phase = .holding) = 0 := by
    simpa [List.countP_eq_zero] using fun c hc he => absurd he (hnone c hc)
  have hcounted := h.counted s.fresh
  have hlocked := h.held s.fresh
  rw [hrefs] at hcounted
  rw [hheld] at hlocked
  cases hentry : s.entries s.fresh with
  | mk refs locked =>
    rw [hentry] at hcounted hlocked
    cases locked with
    | false => simpa using hcounted
    | true => simp at hlocked

theorem entryOf (h : s.Sound) (key : String) : Found s key (s.entryOf key).1 (s.entryOf key).2 := by
  unfold KeyedMutex.entryOf
  cases hfind : s.locks key with
  | some e =>
    exact ⟨hfind, fun _ _ => id, fun _ _ => Or.inl, fun k hk => h.apart k key e hk hfind, rfl, rfl, le_rfl,
      h.allocated key e hfind⟩
  | none =>
    refine ⟨by simp, fun k x hk => ?_, fun k x hk => ?_, fun k hk => ?_, ?_, rfl, by simp, by simp⟩
    · have hne : k ≠ key := by
        rintro rfl
        rw [hfind] at hk
        cases hk
      simpa [hne] using hk
    · by_cases hkey : k = key
      · subst hkey
        exact Or.inr ⟨rfl, by simpa using hk.symm⟩
      · exact Or.inl (by simpa [hkey] using hk)
    · exact absurd (h.allocated k _ hk) (lt_irrefl _)
    · dsimp only
      rw [← h.blank, Function.update_eq_self]

theorem lock (h : s.Sound) (key : String) : (s.lock key).Sound := by
  have hf := h.entryOf key
  unfold KeyedMutex.lock setEntry
  generalize s.entryOf key = r at hf ⊢
  obtain ⟨e, t⟩ := r
  dsimp only at hf ⊢
  refine ⟨fun x => ?_, fun x => ?_, ?_, fun k x hk => ?_, fun k k' x hk hk' => ?_, fun k x hk => ?_⟩
  · rw [hf.calls, hf.entries]
    by_cases hx : x = e
    · simp [hx, h.counted e]
    · simp [hx, Ne.symm hx, h.counted x]
  · rw [hf.calls, hf.entries]
    have hheld := h.held x
    by_cases hx : x = e
    · subst hx
      simpa using hheld
    · simpa [hx] using hheld
  · rw [hf.calls]
    intro c hc
    rcases List.mem_cons.mp hc with rfl | hc
    · exact hf.found
    · exact hf.kept _ _ (h.mapped c hc)
  · rw [hf.calls]
    rcases hf.only k x hk with hold | ⟨rfl, -⟩
    · obtain ⟨c, hc, hkey⟩ := h.used k x hold
      exact ⟨c, List.mem_cons_of_mem _ hc, hkey⟩
    · exact ⟨_, List.mem_cons_self, rfl⟩
  · rcases hf.only k x hk with hold | ⟨rfl, rfl⟩
    · rcases hf.only k' x hk' with hold' | ⟨rfl, rfl⟩
      · exact h.apart k k' x hold hold'
      · exact hf.alone k hold
    · rcases hf.only k' x hk' with hold' | ⟨rfl, -⟩
      · exact (hf.alone k' hold').symm
      · rfl
  · rcases hf.only k x hk with hold | ⟨-, rfl⟩
    · exact (h.allocated k x hold).trans_le hf.fresh.1
    · exact hf.fresh.2

/-- A call that moves on, with the mutex of its entry, and is counted as before. -/
theorem move (h : s.Sound) {pre post : List LockCall} {key : String} {e : Nat} {phase phase' : LockPhase}
    (hcalls : s.calls = pre ++ ⟨key, e, phase⟩ :: post) {locked : Bool}
    (hheld : (if phase' = .holding then 1 else 0) + (if (s.entries e).locked then 1 else 0) =
      (if phase = .holding then 1 else 0) + if locked then 1 else 0) :
    Sound { s.setEntry e { s.entries e with locked := locked } with calls := pre ++ ⟨key, e, phase'⟩ :: post } := by
  have hown := h.mapped ⟨key, e, phase⟩ (by simp [hcalls])
  have hrest : ∀ c ∈ pre ++ post, s.locks c.key = some c.entry := fun c hc =>
    h.mapped c (by rw [hcalls]; simp only [List.mem_append, List.mem_cons] at hc ⊢; tauto)
  refine ⟨fun x => ?_, fun x => ?_, fun c hc => ?_, fun k x hk => ?_, h.apart, h.allocated⟩
  · have hcounted := h.counted x
    rw [hcalls] at hcounted
    by_cases hx : x = e
    · subst hx
      simpa [setEntry] using hcounted
    · simpa [setEntry, hx, List.countP_cons] using hcounted
  · have hold := h.held x
    rw [hcalls] at hold
    simp only [List.countP_append, List.countP_cons, setEntry] at hold ⊢
    by_cases hx : x = e
    · subst hx
      simp only [Function.update_self, true_and, decide_eq_true_eq] at hold ⊢
      omega
    · simp only [Function.update_of_ne hx, Ne.symm hx, false_and, decide_false] at hold ⊢
      exact hold
  · simp only [List.mem_append, List.mem_cons] at hc
    rcases hc with hc | rfl | hc
    · exact hrest c (List.mem_append_left _ hc)
    · exact hown
    · exact hrest c (List.mem_append_right _ hc)
  · obtain ⟨c, hc, hkey⟩ := h.used k x hk
    rw [hcalls] at hc
    simp only [List.mem_append, List.mem_cons] at hc
    rcases hc with hc | rfl | hc
    · exact ⟨c, by simp [hc], hkey⟩
    · exact ⟨⟨key, e, phase'⟩, by simp, hkey⟩
    · exact ⟨c, by simp [hc], hkey⟩

/-- The last call to leave an entry takes it out of the map. -/
theorem release (h : s.Sound) {pre post : List LockCall} {key : String} {e : Nat}
    (hcalls : s.calls = pre ++ ⟨key, e, .unlocked⟩ :: post) :
    Sound { s.release ⟨key, e, .unlocked⟩ with calls := pre ++ post } := by
  have hown : s.locks key = some e := h.mapped ⟨key, e, .unlocked⟩ (by simp [hcalls])
  have hmem : ∀ c, c ∈ s.calls ↔ c ∈ pre ++ post ∨ c = ⟨key, e, .unlocked⟩ := by
    intro c
    simp only [hcalls, List.mem_append, List.mem_cons]
    tauto
  have hcounted : ∀ x, (s.entries x).refs = (pre ++ post).countP (·.entry = x) + if e = x then 1 else 0 := by
    intro x
    rw [h.counted x, hcalls]
    simp only [List.countP_append, List.countP_cons, decide_eq_true_eq]
    push_cast
    split_ifs <;> omega
  have hleft : (s.entries e).refs - 1 = 0 ↔ ∀ c ∈ pre ++ post, c.entry ≠ e := by
    rw [hcounted e, if_pos rfl, add_sub_cancel_right, Int.natCast_eq_zero, List.countP_eq_zero]
    simp
  have hlocks : ∀ k x, (if (s.entries e).refs - 1 = 0 then Function.update s.locks key none else s.locks) k = some x ↔
      s.locks k = some x ∧ ¬((s.entries e).refs - 1 = 0 ∧ k = key) := by
    intro k x
    by_cases hlast : (s.entries e).refs - 1 = 0 <;> by_cases hk : k = key <;> simp [hlast, hk]
  rw [release_eq]
  refine ⟨fun x => ?_, fun x => ?_, fun c hc => ?_, fun k x hk => ?_,
    fun k k' x hk hk' => h.apart k k' x ((hlocks k x).mp hk).1 ((hlocks k' x).mp hk').1,
    fun k x hk => h.allocated k x ((hlocks k x).mp hk).1⟩
  · by_cases hx : x = e
    · subst hx
      simp [setEntry, hcounted x]
    · simp [setEntry, hx, Ne.symm hx, hcounted x]
  · have hheld := h.held x
    rw [hcalls] at hheld
    by_cases hx : x = e
    · subst hx
      simpa [setEntry] using hheld
    · simpa [setEntry, hx] using hheld
  · have hc' : s.locks c.key = some c.entry := h.mapped c ((hmem c).mpr (Or.inl hc))
    refine (hlocks _ _).mpr ⟨hc', ?_⟩
    rintro ⟨hlast, hkey⟩
    rw [hkey, hown] at hc'
    exact hleft.mp hlast c hc (Option.some.inj hc').symm
  · obtain ⟨hold, hkeep⟩ := (hlocks k x).mp hk
    by_cases hkey : k = key
    · have hmore : ∃ c ∈ pre ++ post, c.entry = e := by
        by_contra hno
        push Not at hno
        exact hkeep ⟨hleft.mpr hno, hkey⟩
      obtain ⟨c, hc, rfl⟩ := hmore
      exact ⟨c, hc, (h.apart _ _ _ (h.mapped c ((hmem c).mpr (Or.inl hc))) hown).trans hkey.symm⟩
    · obtain ⟨c, hc, rfl⟩ := h.used k x hold
      rcases (hmem c).mp hc with hc | rfl
      · exact ⟨c, hc, rfl⟩
      · exact absurd rfl hkey

theorem step (h : s.Sound) (hstep : Step s t) : t.Sound := by
  cases hstep with
  | lock key => exact h.lock key
  | acquire pre post key e hcalls hfree => exact h.move hcalls (by simp [hfree])
  | unlock pre post key e hcalls =>
    -- the call is one of those the mutex of its entry counts, so this is locked
    have hlocked : (s.entries e).locked = true := by
      have hheld := h.held e
      by_contra hfree
      rw [hcalls, if_neg hfree, List.countP_eq_zero] at hheld
      exact hheld ⟨key, e, .holding⟩ (by simp) (by simp)
    exact h.move hcalls (by simp [hlocked])
  | release pre post key e hcalls => exact h.release hcalls

theorem run (hrun : ReflTransGen Step {} s) : s.Sound := by
  induction hrun with
  | refl => exact ⟨by simp, by simp, by simp, by simp, by simp, by simp⟩
  | tail _ hstep ih => exact ih.step hstep

theorem one_holder (h : s.Sound) (key : String) :
    s.calls.countP (fun c => c.key = key ∧ c.phase = .holding) ≤ 1 := by
  cases hkey : s.locks key with
  | none =>
    have hnobody : ∀ c ∈ s.calls, c.key ≠ key := by
      rintro c hc rfl
      rw [h.mapped c hc] at hkey
      cases hkey
    have hzero : s.calls.countP (fun c => c.key = key ∧ c.phase = .holding) = 0 := by
      simpa [List.countP_eq_zero] using fun c hc hk => absurd hk (hnobody c hc)
    omega
  | some e =>
    have hentry : s.calls.countP (fun c => c.key = key ∧ c.phase = .holding) ≤
        s.calls.countP (fun c => c.entry = e ∧ c.phase = .holding) := by
      refine List.countP_mono_left fun c hc hk => ?_
      simp only [decide_eq_true_eq] at hk ⊢
      obtain ⟨rfl, hphase⟩ := hk
      rw [h.mapped c hc] at hkey
      exact ⟨Option.some.inj hkey, hphase⟩
    have hheld := h.held e
    split_ifs at hheld <;> omega

end Sound

/-- Along any run: a key has at most one call past the mutex; every call, from the time it is
counted until its release is over, has the entry that is in the map for its key; and a key nobody
has a call for is not in the map. -/
theorem keyedMutex_exclusive (hrun : ReflTransGen Step {} s) :
    (∀ key, s.calls.countP (fun c => c.key = key ∧ c.phase = .holding) ≤ 1) ∧
      (∀ c ∈ s.calls, s.locks c.key = some c.entry) ∧
      ∀ key, (∀ c ∈ s.calls, c.key ≠ key) → s.locks key = none := by
  have h := Sound.run hrun
  refine ⟨h.one_holder, h.mapped, fun key hnobody => ?_⟩
  cases hkey : s.locks key with
  | none => rfl
  | some e =>
    obtain ⟨c, hc, hk⟩ := h.used key e hkey
    exact absurd hk (hnobody c hc)

theorem keyedMutex_exclusive_locked : (lock {} "a").locks "a" = some 0 ∧ (lock {} "a").locks "b" = none := by
  obtain ⟨-, hmapped, habsent⟩ := keyedMutex_exclusive (.single (.lock {} "a"))
  refine ⟨hmapped ⟨"a", 0, .waiting⟩ (by decide), habsent "b" ?_⟩
  decide

def stepsLeft : LockPhase → Nat
  | .waiting => 3
  | .holding => 2
  | .unlocked => 1

def left (s : KeyedMutex) : Nat := (s.calls.map fun c => stepsLeft c.phase).sum

theorem Sound.progress (h : s.Sound) (hs : s.calls ≠ []) : ∃ t, Step s t ∧ t.left < s.left := by
  by_cases hall : ∀ c ∈ s.calls, c.phase = .waiting
  · obtain ⟨⟨key, e, phase⟩, hc⟩ := List.exists_mem_of_ne_nil _ hs
    obtain rfl : phase = .waiting := hall _ hc
    obtain ⟨pre, post, hcalls⟩ := List.append_of_mem hc
    have hheld := h.held e
    rw [List.countP_eq_zero.mpr fun c hc => by simp [hall c hc]] at hheld
    exact ⟨_, .acquire s pre post key e hcalls (by simpa using hheld), by simp [left, hcalls, stepsLeft]⟩
  · push Not at hall
    obtain ⟨⟨key, e, phase⟩, hc, hphase⟩ := hall
    obtain ⟨pre, post, hcalls⟩ := List.append_of_mem hc
    cases phase with
    | waiting => exact absurd rfl hphase
    | holding => exact ⟨_, .unlock s pre post key e hcalls, by simp [left, hcalls, stepsLeft]⟩
    | unlocked => exact ⟨_, .release s pre post key e hcalls, by simp [left, hcalls, stepsLeft]⟩

/-- No deadlock: from wherever a run has come, the calls can all be brought to their end, and then
the map is empty. A step that is not a new call brings the end nearer. -/
theorem keyedMutex_drains (hrun : ReflTransGen Step {} s) :
    (∀ t, Step s t → t.left < s.left ∨ ∃ key, t = s.lock key) ∧
      ∃ t, ReflTransGen Step s t ∧ t.calls = [] ∧ ∀ key, t.locks key = none := by
  constructor
  · intro t hstep
    cases hstep with
    | lock key => exact .inr ⟨key, rfl⟩
    | acquire pre post key e hcalls | unlock pre post key e hcalls | release pre post key e hcalls =>
      exact .inl (by simp [left, hcalls, stepsLeft])
  · induction hn : s.left using Nat.strong_induction_on generalizing s with
    | _ n ih =>
      have h := Sound.run hrun
      by_cases hs : s.calls = []
      · refine ⟨s, .refl, hs, fun key => ?_⟩
        by_contra hsome
        obtain ⟨e, he⟩ := Option.ne_none_iff_exists'.mp hsome
        obtain ⟨c, hc, -⟩ := h.used key e he
        simp [hs] at hc
      · obtain ⟨t, hstep, hlt⟩ := h.progress hs
        obtain ⟨u, hu, hend⟩ := ih t.left (hn ▸ hlt) (hrun.tail hstep) rfl
        exact ⟨u, .head hstep hu, hend⟩

theorem keyedMutex_drains_locked : ∃ t, ReflTransGen Step (lock {} "a") t ∧ t.locks "a" = none := by
  obtain ⟨t, hrun, -, hnone⟩ := (keyedMutex_drains (.single (.lock {} "a"))).2
  exact ⟨t, hrun, hnone "a"⟩

/-- A call that has given the mutex back and not yet counted itself out: nobody waits for the key or
holds it, and the entry is there. -/
theorem entry_outlives_holder : ∃ s, ReflTransGen Step {} s ∧ s.calls = [⟨"a", 0, .unlocked⟩] ∧ s.locks "a" = some 0 := by
  have hlock := Step.lock {} "a"
  have hacquire := Step.acquire (lock {} "a") [] [] "a" 0 rfl rfl
  exact ⟨_, ((ReflTransGen.single hlock).tail hacquire).tail (.unlock _ [] [] "a" 0 rfl), rfl, rfl⟩

end KeyedMutex

end BirakFormal
