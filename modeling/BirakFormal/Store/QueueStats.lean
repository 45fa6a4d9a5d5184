import BirakFormal.Store.Repairs

/-!
# The summary of the repair queue

A summary is remembered until the queue changes. A write commits first and drops the remembered summary
after that; a reader that was slow may not store its answer once a write has counted the generation up. Two
of the three numbers depend on the time, which nothing but the next write makes the cache forget.
-/

namespace BirakFormal

open Tables

structure RepairStats where
  total : Nat
  due : Nat
  oldestAgeMS : Int
  deriving DecidableEq, Repr

def queryRepairStats (queue : Table RepairRow.key) (dueAt ageAt : Int) : RepairStats where
  total := queue.rows.length
  due := (queue.rows.filter fun r => r.nextAttempt ≤ dueAt).length
  oldestAgeMS :=
    match (queue.rows.map RepairRow.firstSeen).min? with
    | none => 0
    | some oldest => (ageAt - oldest).tdiv 1000000

structure QueueInstant where
  queue : Table RepairRow.key
  clock : Int

def QueueInstant.stats (i : QueueInstant) : RepairStats := queryRepairStats i.queue i.clock i.clock

inductive QueueWrite where
  | enqueue (peer reason : String) (batch : List QueuedChange)
  | resolveRepair (peer name : String)
  | resolveRepairItem (item : RepairRow)
  | deferRepair (peer name : String) (retryAfter : Int) (cause : String)
  | deferRepairItem (item : RepairRow) (retryAfter : Int) (cause : String)
  -- A statement of a resolve or a defer that fails; the cache is dropped all the same.
  | failed

def QueueWrite.commit (limit clock : Int) (s : Store) : QueueWrite → Option Store
  | .enqueue peer reason batch =>
    let r := s.enqueue limit clock peer reason batch
    if r.1.1 = 0 then none else some r.2
  | .resolveRepair peer name => some (s.resolveRepair peer name)
  | .resolveRepairItem item => some (s.resolveRepairItem item)
  | .deferRepair peer name retryAfter cause => some (s.deferRepair peer name (clock + retryAfter) cause)
  | .deferRepairItem item retryAfter cause => some (s.deferRepairItem item (clock + retryAfter) cause)
  | .failed => some s

inductive StatsPhase where
  | begun (gen : Nat)
  | timed (gen : Nat) (dueAt : Int)
  | queried (gen : Nat) (dueAt : Int) (queue : Table RepairRow.key)
  | answered (gen : Nat) (st : RepairStats)
  | returned (st : RepairStats)
  | failed

def StatsPhase.isOver : StatsPhase → Bool
  | .returned _ | .failed => true
  | _ => false

def StatsPhase.isQuerying : StatsPhase → Bool
  | .timed _ _ | .queried _ _ _ => true
  | _ => false

def StatsPhase.isComputing : StatsPhase → Bool
  | .answered _ _ => true
  | phase => phase.isQuerying

/-- A call, whether every earlier write had dropped the summary when it began, and the instants since. -/
structure StatsCall where
  phase : StatsPhase
  current : Bool
  seen : List QueueInstant

/-- `pending`: a write has committed and has yet to drop the summary. The lock of the store lets no other
write in before. -/
structure StatsNode where
  store : Store
  clock : Int
  statsCache : RepairStats := ⟨0, 0, 0⟩
  statsValid : Bool := false
  statsGen : Nat := 0
  pending : Bool := false
  calls : List StatsCall := []

inductive StatsEvent where
  | write (w : QueueWrite)
  | invalidate
  | tick (d : Nat)
  | call
  | advance (i : Nat)
  | fail (i : Nat)

namespace StatsNode

def now (s : StatsNode) : QueueInstant := ⟨s.store.repairQueue, s.clock⟩

def noted (s : StatsNode) : StatsNode :=
  { s with calls := s.calls.map fun c => if c.phase.isOver then c else { c with seen := s.now :: c.seen } }

def nextPhase (s : StatsNode) : StatsPhase → StatsPhase
  | .begun gen => .timed gen s.clock
  | .timed gen dueAt => .queried gen dueAt s.store.repairQueue
  | .queried gen dueAt queue => .answered gen (queryRepairStats queue dueAt s.clock)
  | .answered _ st => .returned st
  | phase => phase

def remember (s : StatsNode) : StatsPhase → StatsNode
  | .answered gen st => if s.statsGen = gen then { s with statsCache := st, statsValid := true } else s
  | _ => s

def setPhase (s : StatsNode) (i : Nat) (c : StatsCall) (phase : StatsPhase) : StatsNode :=
  { s with calls := s.calls.set i { c with phase } }

def step (limit : Int) (s : StatsNode) : StatsEvent → StatsNode
  | .write w =>
    if s.pending then s
    else
      match w.commit limit s.clock s.store with
      | none => s
      | some store => { s with store, pending := true }.noted
  | .invalidate => if s.pending then { s with statsGen := s.statsGen + 1, statsValid := false, pending := false } else s
  | .tick d => { s with clock := s.clock + d }.noted
  | .call =>
    let phase := if s.statsValid then .returned s.statsCache else .begun s.statsGen
    { s with calls := { phase, current := !s.pending, seen := [s.now] } :: s.calls }
  | .advance i =>
    match s.calls[i]? with
    | none => s
    | some c => (s.remember c.phase).setPhase i c (s.nextPhase c.phase)
  | .fail i =>
    match s.calls[i]? with
    | some c => if c.phase matches .timed _ _ then s.setPhase i c .failed else s
    | none => s

def run (limit : Int) (s : StatsNode) (events : List StatsEvent) : StatsNode := events.foldl (step limit) s

/-- Time does not pass while a summary is remembered or computed, and no write commits during a query. -/
def Calm (s : StatsNode) : StatsEvent → Prop
  | .tick _ => s.statsValid = false ∧ ∀ c ∈ s.calls, c.phase.isComputing = false
  | .write _ => ∀ c ∈ s.calls, c.phase.isQuerying = false
  | _ => True

instance (s : StatsNode) : (e : StatsEvent) → Decidable (s.Calm e)
  | .tick _ => inferInstanceAs (Decidable (_ ∧ _))
  | .write _ => inferInstanceAs (Decidable (∀ c ∈ s.calls, c.phase.isQuerying = false))
  | .invalidate | .call | .advance _ | .fail _ => isTrue trivial

def CalmRun (limit : Int) : StatsNode → List StatsEvent → Prop
  | _, [] => True
  | s, e :: events => s.Calm e ∧ CalmRun limit (s.step limit e) events

instance decidableCalmRun (limit : Int) : (s : StatsNode) → (events : List StatsEvent) → Decidable (CalmRun limit s events)
  | _, [] => isTrue trivial
  | s, e :: events =>
    have := decidableCalmRun limit (s.step limit e) events
    inferInstanceAs (Decidable (_ ∧ _))

end StatsNode

/-- A summary has the number of rows of the instant and, if `calm`, is the summary of the instant. -/
def RepairStats.At (calm : Prop) (st : RepairStats) (i : QueueInstant) : Prop :=
  st.total = i.queue.rows.length ∧ (calm → st = i.stats)

/-- What is known of a call at the present generation and instant. A call of the present generation began
after the last write dropped the summary, so that its rows are the present ones. -/
def StatsCall.Sound (calm : Prop) (gen : Nat) (pending : Bool) (now : QueueInstant) (c : StatsCall) : Prop :=
  (c.phase.isOver = false → now ∈ c.seen) ∧
  match c.phase with
  | .begun g => g ≤ gen
  | .timed g dueAt => g ≤ gen ∧ (calm → dueAt = now.clock)
  | .queried g dueAt queue => g ≤ gen ∧ (∃ i ∈ c.seen, queue = i.queue) ∧ (calm → dueAt = now.clock ∧ queue = now.queue) ∧
      (g = gen → pending = false → queue = now.queue)
  | .answered g st => g ≤ gen ∧ (∃ i ∈ c.seen, st.At calm i) ∧ (g = gen → pending = false → st.At calm now)
  | .returned st => c.current = true → ∃ i ∈ c.seen, st.At calm i
  | .failed => True

structure StatsNode.Sound (calm : Prop) (s : StatsNode) : Prop where
  cache : s.statsValid = true → s.pending = false → s.statsCache.At calm s.now
  calls : ∀ c ∈ s.calls, c.Sound calm s.statsGen s.pending s.now

section
variable {calm : Prop} {s : StatsNode} {c : StatsCall}

theorem StatsNode.Sound.setPhase (h : s.Sound calm) {i : Nat} {phase : StatsPhase}
    (hc : StatsCall.Sound calm s.statsGen s.pending s.now { c with phase }) : (s.setPhase i c phase).Sound calm where
  cache := h.cache
  calls c' hc' := by
    rcases List.mem_or_eq_of_mem_set hc' with hmem | rfl
    · exact h.calls c' hmem
    · exact hc

theorem StatsCall.Sound.next (h : c.Sound calm s.statsGen s.pending s.now) :
    StatsCall.Sound calm s.statsGen s.pending s.now { c with phase := s.nextPhase c.phase } := by
  obtain ⟨phase, current, seen⟩ := c
  obtain ⟨hnow, hphase⟩ := h
  cases phase with
  | begun gen => exact ⟨fun _ => hnow rfl, hphase, fun _ => rfl⟩
  | timed gen dueAt =>
    exact ⟨fun _ => hnow rfl, hphase.1, ⟨s.now, hnow rfl, rfl⟩, fun hcalm => ⟨hphase.2 hcalm, rfl⟩, fun _ _ => rfl⟩
  | queried gen dueAt queue =>
    obtain ⟨hgen, ⟨i, hi, hqueue⟩, hcalm, hfresh⟩ := hphase
    have hstats : calm → queryRepairStats queue dueAt s.clock = s.now.stats := by
      intro h
      rw [(hcalm h).1, (hcalm h).2]
      rfl
    refine ⟨fun _ => hnow rfl, hgen, ?_, fun hg hp => ⟨congrArg (fun q => q.rows.length) (hfresh hg hp), hstats⟩⟩
    -- Only a calm query has all its numbers from one instant.
    by_cases h : calm
    · exact ⟨s.now, hnow rfl, congrArg (fun q => q.rows.length) (hcalm h).2, hstats⟩
    · exact ⟨i, hi, congrArg (fun q => q.rows.length) hqueue, fun h' => absurd h' h⟩
  | answered gen st => exact ⟨fun h => absurd h (by simp [StatsNode.nextPhase, StatsPhase.isOver]), fun _ => hphase.2.1⟩
  | returned st => exact ⟨hnow, hphase⟩
  | failed => exact ⟨hnow, hphase⟩

theorem StatsNode.Sound.advance (h : s.Sound calm) {i : Nat} (hc : c ∈ s.calls) :
    ((s.remember c.phase).setPhase i c (s.nextPhase c.phase)).Sound calm := by
  have hnext := (h.calls c hc).next
  obtain ⟨phase, current, seen⟩ := c
  cases phase with
  | answered gen st =>
    obtain ⟨-, -, -, hfresh⟩ := h.calls _ hc
    by_cases hgen : s.statsGen = gen
    · have hcached : ({ s with statsCache := st, statsValid := true } : StatsNode).Sound calm :=
        ⟨fun _ hp => hfresh hgen.symm hp, h.calls⟩
      rw [StatsNode.remember, if_pos hgen]
      exact hcached.setPhase hnext
    · rw [StatsNode.remember, if_neg hgen]
      exact h.setPhase hnext
  | begun gen => exact h.setPhase hnext
  | timed gen dueAt => exact h.setPhase hnext
  | queried gen dueAt queue => exact h.setPhase hnext
  | returned st => exact h.setPhase hnext
  | failed => exact h.setPhase hnext

theorem StatsNode.Sound.write (h : s.Sound calm) (store : Store) (hcalm : calm → s.Calm (.write .failed)) :
    (StatsNode.noted { s with store, pending := true }).Sound calm where
  cache _ hp := by cases hp
  calls c' hc' := by
    obtain ⟨⟨phase, current, seen⟩, hc, rfl⟩ := List.mem_map.mp hc'
    have hquiet : calm → phase.isQuerying = false := fun hcl => hcalm hcl _ hc
    obtain ⟨-, hphase⟩ := h.calls _ hc
    cases phase with
    | begun gen => exact ⟨fun _ => List.mem_cons_self, hphase⟩
    | timed gen dueAt => exact ⟨fun _ => List.mem_cons_self, hphase.1, fun hcl => (by cases hquiet hcl)⟩
    | queried gen dueAt queue =>
      obtain ⟨hgen, ⟨i, hi, hqueue⟩, -, -⟩ := hphase
      exact ⟨fun _ => List.mem_cons_self, hgen, ⟨i, List.mem_cons_of_mem _ hi, hqueue⟩, fun hcl => (by cases hquiet hcl),
        fun _ hp => (by cases hp)⟩
    | answered gen st =>
      obtain ⟨hgen, ⟨i, hi, hat⟩, -⟩ := hphase
      exact ⟨fun _ => List.mem_cons_self, hgen, ⟨i, List.mem_cons_of_mem _ hi, hat⟩, fun _ hp => (by cases hp)⟩
    | returned st => exact ⟨fun hover => (by cases hover), hphase⟩
    | failed => exact ⟨fun hover => (by cases hover), trivial⟩

theorem StatsNode.Sound.tick (h : s.Sound calm) (d : Nat) (hcalm : calm → s.Calm (.tick d)) :
    (StatsNode.noted { s with clock := s.clock + d }).Sound calm where
  cache hv hp := by
    refine ⟨(h.cache hv hp).1, fun hcl => ?_⟩
    have hno := (hcalm hcl).1
    rw [show s.statsValid = true from hv] at hno
    cases hno
  calls c' hc' := by
    obtain ⟨⟨phase, current, seen⟩, hc, rfl⟩ := List.mem_map.mp hc'
    have hquiet : calm → phase.isComputing = false := fun hcl => (hcalm hcl).2 _ hc
    obtain ⟨-, hphase⟩ := h.calls _ hc
    cases phase with
    | begun gen => exact ⟨fun _ => List.mem_cons_self, hphase⟩
    | timed gen dueAt => exact ⟨fun _ => List.mem_cons_self, hphase.1, fun hcl => (by cases hquiet hcl)⟩
    | queried gen dueAt queue =>
      obtain ⟨hgen, ⟨i, hi, hqueue⟩, -, hfresh⟩ := hphase
      exact ⟨fun _ => List.mem_cons_self, hgen, ⟨i, List.mem_cons_of_mem _ hi, hqueue⟩, fun hcl => (by cases hquiet hcl), hfresh⟩
    | answered gen st =>
      obtain ⟨hgen, ⟨i, hi, hat⟩, hfresh⟩ := hphase
      exact ⟨fun _ => List.mem_cons_self, hgen, ⟨i, List.mem_cons_of_mem _ hi, hat⟩,
        fun hg hp => ⟨(hfresh hg hp).1, fun hcl => (by cases hquiet hcl)⟩⟩
    | returned st => exact ⟨fun hover => (by cases hover), hphase⟩
    | failed => exact ⟨fun hover => (by cases hover), trivial⟩

theorem StatsNode.Sound.invalidate (h : s.Sound calm) :
    StatsNode.Sound calm { s with statsGen := s.statsGen + 1, statsValid := false, pending := false } where
  cache hv := by cases hv
  calls c hc := by
    obtain ⟨phase, current, seen⟩ := c
    obtain ⟨hnow, hphase⟩ := h.calls _ hc
    refine ⟨hnow, ?_⟩
    cases phase with
    | begun gen => exact Nat.le_succ_of_le hphase
    | timed gen dueAt => exact ⟨Nat.le_succ_of_le hphase.1, hphase.2⟩
    | queried gen dueAt queue =>
      obtain ⟨hgen, hseen, hcl, -⟩ := hphase
      exact ⟨Nat.le_succ_of_le hgen, hseen, hcl, fun hg => absurd hg (by dsimp only; omega)⟩
    | answered gen st =>
      obtain ⟨hgen, hseen, -⟩ := hphase
      exact ⟨Nat.le_succ_of_le hgen, hseen, fun hg => absurd hg (by dsimp only; omega)⟩
    | returned st => exact hphase
    | failed => exact hphase

theorem StatsNode.Sound.call (h : s.Sound calm) (limit : Int) : (s.step limit .call).Sound calm where
  cache := h.cache
  calls c hc := by
    rcases List.mem_cons.mp hc with rfl | hc
    · refine ⟨fun _ => List.mem_singleton_self _, ?_⟩
      cases hv : s.statsValid with
      | false => exact Nat.le_refl _
      | true => exact fun hcur => ⟨s.now, List.mem_singleton_self _, h.cache hv (by simpa using hcur)⟩
    · exact h.calls c hc

theorem StatsNode.Sound.step (h : s.Sound calm) (limit : Int) (e : StatsEvent) (hcalm : calm → s.Calm e) :
    (s.step limit e).Sound calm := by
  cases e with
  | write w =>
    dsimp only [StatsNode.step]
    split
    · exact h
    · split
      · exact h
      · next store _ => exact h.write store hcalm
  | invalidate =>
    dsimp only [StatsNode.step]
    split
    · exact h.invalidate
    · exact h
  | tick d => exact h.tick d hcalm
  | call => exact h.call limit
  | advance i =>
    dsimp only [StatsNode.step]
    cases hi : s.calls[i]? with
    | none => exact h
    | some c => exact h.advance (List.mem_of_getElem? hi)
  | fail i =>
    dsimp only [StatsNode.step]
    split
    · split
      · exact h.setPhase ⟨fun hover => (by cases hover), trivial⟩
      · exact h
    · exact h

theorem StatsNode.Sound.run (limit : Int) {events : List StatsEvent} (h : s.Sound calm)
    (hcalm : calm → StatsNode.CalmRun limit s events) : (s.run limit events).Sound calm := by
  induction events generalizing s with
  | nil => exact h
  | cons e events ih => exact ih (h.step limit e fun hcl => (hcalm hcl).1) fun hcl => (hcalm hcl).2

end

/-- A call that begins after every earlier write has dropped the summary returns the number of rows of an
instant of the call. If the run is calm, all it returns is the summary of one instant of the call. -/
theorem queue_stats_current (limit : Int) (s : Store) (clock : Int) (events : List StatsEvent) (c : StatsCall)
    (hc : c ∈ (StatsNode.run limit { store := s, clock } events).calls) (st : RepairStats) (hst : c.phase = .returned st)
    (hcurrent : c.current = true) :
    (∃ i ∈ c.seen, st.total = i.queue.rows.length) ∧ (StatsNode.CalmRun limit { store := s, clock } events →
        ∃ i ∈ c.seen, st.total = i.stats.total ∧ st.due = i.stats.due ∧ st.oldestAgeMS = i.stats.oldestAgeMS) := by
  have hstart : StatsNode.Sound (StatsNode.CalmRun limit { store := s, clock } events) { store := s, clock } :=
    ⟨fun hv => (by cases hv), fun c hc => (by cases hc)⟩
  obtain ⟨phase, current, seen⟩ := c
  subst hst
  obtain ⟨-, hreturned⟩ := (hstart.run limit id).calls _ hc
  obtain ⟨i, hi, htotal, hcalm⟩ := hreturned hcurrent
  refine ⟨⟨i, hi, htotal⟩, fun hcl => ⟨i, hi, ?_⟩⟩
  rw [hcalm hcl]
  exact ⟨rfl, rfl, rfl⟩

/-- A row is queued and put off for five nanoseconds, a summary is taken, a second passes, and it is asked
for again. -/
def secondLater : List StatsEvent :=
  [.write (.enqueue "p" "changed" [⟨"a", 1, none⟩]), .invalidate, .write (.deferRepair "p" "a" 5 "refused"), .invalidate,
    .call, .advance 0, .advance 0, .advance 0, .advance 0, .tick 1000000000, .call]

theorem queue_stats_outdated :
    ∃ c ∈ (StatsNode.run 0 { store := {}, clock := 0 } secondLater).calls, c.phase = .returned ⟨1, 0, 0⟩ ∧
      c.current = true ∧ ∀ i ∈ c.seen, i.stats = ⟨1, 1, 1000⟩ :=
  ⟨_, List.mem_cons_self, rfl, rfl, by decide +kernel⟩

theorem queue_stats_current_calm :
    ∃ c ∈ (StatsNode.run 0 { store := {}, clock := 0 }
        (secondLater.take 4 ++ [.tick 1000000000, .call, .advance 0, .advance 0, .advance 0, .advance 0])).calls,
      c.phase = .returned ⟨1, 1, 1000⟩ ∧ (∃ i ∈ c.seen, 1 = i.queue.rows.length) ∧
        ∃ i ∈ c.seen, 1 = i.stats.total ∧ 1 = i.stats.due ∧ 1000 = i.stats.oldestAgeMS := by
  have h := queue_stats_current 0 {} 0
    (secondLater.take 4 ++ [.tick 1000000000, .call, .advance 0, .advance 0, .advance 0, .advance 0])
    _ List.mem_cons_self ⟨1, 1, 1000⟩ rfl rfl
  exact ⟨_, List.mem_cons_self, rfl, h.1, h.2 (by decide +kernel)⟩

end BirakFormal
