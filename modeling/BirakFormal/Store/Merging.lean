import BirakFormal.Store.Forward
import BirakFormal.Store.Repairs

/-!
# Merging into the repair queue

What every call on the queue but a resolution has in common: a row that holds a state keeps
holding one at least as great, and a row whose revision is not new holds what it held.
-/

namespace BirakFormal

open Tables

namespace Store

def QueuedAtLeast (s : Store) (key : String × String) (m : FileMeta) : Prop :=
  ∃ row kept, s.repairQueue.find key = some row ∧ row.metadata = some kept ∧ StateLe (some m) (some kept)

structure Merged (s t : Store) : Prop where
  revision : s.repairRevision ≤ t.repairRevision
  kept : ∀ key m, s.QueuedAtLeast key m → t.QueuedAtLeast key m
  fresh : ∀ key row, t.repairQueue.find key = some row → row.revision ≤ s.repairRevision →
    ∃ old, s.repairQueue.find key = some old ∧ old.revision = row.revision ∧ old.metadata = row.metadata
  bounded : (∀ key row, s.repairQueue.find key = some row → row.revision ≤ s.repairRevision) →
    ∀ key row, t.repairQueue.find key = some row → row.revision ≤ t.repairRevision

theorem Merged.refl (s : Store) : Merged s s where
  revision := le_rfl
  kept := fun _ _ => id
  fresh := fun _ row hrow _ => ⟨row, hrow, rfl, rfl⟩
  bounded := id

theorem Merged.trans {s t u : Store} (h : Merged s t) (h' : Merged t u) : Merged s u where
  revision := h.revision.trans h'.revision
  kept := fun key m hq => h'.kept key m (h.kept key m hq)
  fresh := by
    intro key row hrow hle
    obtain ⟨mid, hmid, hrev, hmeta⟩ := h'.fresh key row hrow (hle.trans h.revision)
    obtain ⟨old, hold, hrev', hmeta'⟩ := h.fresh key mid hmid (hrev ▸ hle)
    exact ⟨old, hold, hrev'.trans hrev, hmeta'.trans hmeta⟩
  bounded := fun hs => h'.bounded (h.bounded hs)

theorem Merged.of_eq {s t : Store} (hqueue : t.repairQueue = s.repairQueue)
    (hrev : t.repairRevision = s.repairRevision) : Merged s t where
  revision := hrev.ge
  kept := by
    intro key m hq
    unfold QueuedAtLeast at *
    rw [hqueue]
    exact hq
  fresh := by
    intro key row hrow _
    rw [hqueue] at hrow
    exact ⟨row, hrow, rfl, rfl⟩
  bounded := by
    rw [hqueue, hrev]
    exact id

end Store

variable {m : FileMeta}

section
variable {limit : Int} {peer reason : String} {now : Int} {queued : Nat}

/-- The part of a store the loop of `enqueue` works on. -/
def EnqueueState.over (st : EnqueueState) (s : Store) : Store :=
  { s with repairQueue := st.queue, repairRevision := st.revision }

theorem queuedAtLeast_enqueueOne (c : QueuedChange) (st : EnqueueState) (s : Store) (hm : c.meta? = some m) :
    ((enqueueOne peer reason now c st).over s).QueuedAtLeast (peer, c.name) m := by
  cases hq : alreadyQueued c (st.queue.find (peer, c.name)) with
  | true =>
    rw [enqueueOne_of_queued hq]
    obtain ⟨m', row, kept, hm', hfind, hkept, hle⟩ := alreadyQueued_iff.mp hq
    rw [hm] at hm'
    cases hm'
    exact ⟨row, kept, hfind, hkept, hle⟩
  | false =>
    rw [enqueueOne_of_new hq]
    refine ⟨queuedRow peer reason now c (st.queue.find (peer, c.name)) (st.revision + 1), m, ?_, ?_, ?_⟩
    · unfold EnqueueState.over
      rw [Table.find_put, queuedRow_key fun _ => Table.find_key, if_pos rfl]
    · rw [queuedRow_metadata, hm]
      rfl
    · rw [stateLe_iff]

theorem merged_enqueueOne (c : QueuedChange) (st : EnqueueState) (s : Store) :
    Store.Merged (st.over s) ((enqueueOne peer reason now c st).over s) := by
  cases hq : alreadyQueued c (st.queue.find (peer, c.name)) with
  | true =>
    rw [enqueueOne_of_queued hq]
    exact Store.Merged.refl _
  | false =>
    rw [enqueueOne_of_new hq]
    have hkey : (queuedRow peer reason now c (st.queue.find (peer, c.name)) (st.revision + 1)).key =
      (peer, c.name) := queuedRow_key fun _ => Table.find_key
    refine ⟨?_, ?_, ?_, ?_⟩
    · show st.revision ≤ st.revision + 1
      omega
    · rintro key m ⟨row, kept, hfind, hmeta, hle⟩
      unfold EnqueueState.over at hfind ⊢
      by_cases hk : key = (peer, c.name)
      · subst hk
        rw [show st.queue.find (peer, c.name) = some row from hfind] at hq ⊢
        refine ⟨_, (c.meta?.or (some kept)).getD kept, by
          rw [Table.find_put, queuedRow_key fun r hr => Option.some.inj hr ▸ Table.find_key hfind,
            if_pos rfl], ?_, ?_⟩
        · rw [queuedRow_metadata, Option.bind_some, hmeta]
          cases c.meta? <;> rfl
        · cases hm : c.meta? with
          | none => exact hle
          | some x =>
            have hlt : ¬StateLe (some x) (some kept) := by
              intro hxk
              rw [alreadyQueued_iff.mpr ⟨x, row, kept, hm, rfl, hmeta, hxk⟩] at hq
              exact absurd hq (by decide)
            rw [stateLe_iff] at hle hlt ⊢
            exact hle.trans (not_le.mp hlt).le
      · refine ⟨row, kept, ?_, hmeta, hle⟩
        rw [Table.find_put, hkey, if_neg hk]
        exact hfind
    · intro key row hrow hle
      unfold EnqueueState.over at hrow hle ⊢
      rw [Table.find_put, hkey] at hrow
      split at hrow
      · -- The rewritten row has the next revision.
        rw [← Option.some.inj hrow, queuedRow_revision] at hle
        dsimp only at hle
        omega
      · exact ⟨row, hrow, rfl, rfl⟩
    · intro hbound key row hrow
      unfold EnqueueState.over at hbound hrow ⊢
      rw [Table.find_put, hkey] at hrow
      split at hrow
      · rw [← Option.some.inj hrow, queuedRow_revision]
      · have hle := hbound key row hrow
        dsimp only at hle ⊢
        omega

theorem merged_enqueueLoop (batch : List QueuedChange) (st : EnqueueState) (s : Store) :
    Store.Merged (st.over s) ((enqueueLoop limit peer reason now queued batch st).1.over s) :=
  enqueueLoop_keeps (P := fun u => Store.Merged (st.over s) (u.over s)) (Store.Merged.refl _) fun c _ u _ hu =>
    hu.trans (merged_enqueueOne c u s)

theorem queuedAtLeast_enqueueLoop {batch : List QueuedChange} {st : EnqueueState} (s : Store)
    (h : (enqueueLoop limit peer reason now queued batch st).2 = none) {c : QueuedChange}
    (hc : c ∈ batch) (hm : c.meta? = some m) :
    ((enqueueLoop limit peer reason now queued batch st).1.over s).QueuedAtLeast (peer, c.name) m := by
  induction batch generalizing st with
  | nil => exact absurd hc List.not_mem_nil
  | cons c' cs ih =>
    by_cases hroom : NoRoom limit peer queued c' st
    · rw [enqueueLoop_of_noRoom hroom] at h
      exact absurd h (by simp)
    · rw [enqueueLoop_of_room hroom] at h ⊢
      rcases List.mem_cons.mp hc with rfl | hc
      · exact (merged_enqueueLoop cs _ s).kept _ _ (queuedAtLeast_enqueueOne c st s hm)
      · exact ih h hc

end

variable {peer reason : String}

namespace Store

theorem merged_enqueue (s : Store) (limit now : Int) (peer reason : String)
    (batch : List QueuedChange) : Merged s (s.enqueue limit now peer reason batch).2 :=
  merged_enqueueLoop batch
    { queue := s.repairQueue, revision := s.repairRevision, fresh := 0, written := 0 } s

theorem merged_enqueueChange (s : Store) (limit now : Int) (peer reason : String) (m : FileMeta) :
    Merged s (s.enqueueChange limit now peer reason m).2 := s.merged_enqueue _ _ _ _ _

theorem merged_enqueueChanges (s : Store) (limit now : Int) (peer reason : String)
    (ms : List FileMeta) : Merged s (s.enqueueChanges limit now peer reason ms).2 :=
  s.merged_enqueue _ _ _ _ _

theorem queuedAtLeast_enqueueChanges {s : Store} {limit now : Int}
    {ms : List FileMeta} (h : (s.enqueueChanges limit now peer reason ms).1.2 = none)
    (hm : m ∈ ms) : (s.enqueueChanges limit now peer reason ms).2.QueuedAtLeast (peer, m.name) m :=
  queuedAtLeast_enqueueLoop s h (List.mem_map_of_mem hm) rfl

theorem merged_postponed {s t : Store} (h : Repairs.Postponed s t) : Merged s t := by
  rcases h with rfl | ⟨row, row', hmem, hkey, hmeta, hrev, -, rfl⟩
  · exact Merged.refl _
  · have hfind := Table.mem_rows_iff.mp hmem
    refine ⟨le_rfl, ?_, ?_, ?_⟩
    · rintro key m ⟨old, kept, hold, hkept, hle⟩
      unfold QueuedAtLeast
      dsimp only
      rw [Table.find_put, hkey]
      by_cases hk : key = row.key
      · rw [if_pos hk]
        rw [hk, hfind] at hold
        refine ⟨row', kept, rfl, ?_, hle⟩
        rw [hmeta, Option.some.inj hold, hkept]
      · rw [if_neg hk]
        exact ⟨old, kept, hold, hkept, hle⟩
    · intro key r hr _
      dsimp only at hr
      rw [Table.find_put, hkey] at hr
      by_cases hk : key = row.key
      · rw [if_pos hk] at hr
        cases hr
        exact ⟨row, hk ▸ hfind, hrev.symm, hmeta.symm⟩
      · rw [if_neg hk] at hr
        exact ⟨r, hr, rfl, rfl⟩
    · intro hbound key r hr
      dsimp only at hr ⊢
      rw [Table.find_put, hkey] at hr
      split at hr
      · cases hr
        rw [hrev]
        exact hbound row.key row hfind
      · exact hbound key r hr

theorem merged_deferRepairItem (s : Store) (item : RepairRow) (next : Int) (cause : String) :
    Merged s (s.deferRepairItem item next cause) :=
  merged_postponed (Repairs.postponed_deferRepairItem s item next cause)

end Store

def EachQueued (P : String × String → FileMeta → Prop) (queue : Table RepairRow.key) : Prop :=
  ∀ key row m, queue.find key = some row → row.metadata = some m → P key m

section
variable {P : String × String → FileMeta → Prop}

/-- The loop of `enqueue` adds rows for its own peer, with states it was given. -/
theorem EachQueued.enqueueLoop {limit : Int} {now : Int} {queued : Nat}
    {batch : List QueuedChange} {st : EnqueueState} (hs : EachQueued P st.queue)
    (hbatch : ∀ c ∈ batch, ∀ m, c.meta? = some m → P (peer, c.name) m) :
    EachQueued P (enqueueLoop limit peer reason now queued batch st).1.queue := by
  refine enqueueLoop_keeps (P := fun u => EachQueued P u.queue) hs fun c hc u _ hu => ?_
  cases hqueued : alreadyQueued c (u.queue.find (peer, c.name)) with
  | true =>
    rw [enqueueOne_of_queued hqueued]
    exact hu
  | false =>
    rw [enqueueOne_of_new hqueued]
    intro key row m hrow hm
    change (u.queue.put _).find key = some row at hrow
    rw [Table.find_put, queuedRow_key fun _ => Table.find_key] at hrow
    split at hrow
    · next hkey =>
      rw [← Option.some.inj hrow, queuedRow_metadata] at hm
      rw [hkey]
      rcases Option.or_eq_some_iff.mp hm with hm | ⟨-, hm⟩
      · exact hbatch c hc m hm
      · obtain ⟨old, hold, hmeta⟩ := Option.bind_eq_some_iff.mp hm
        exact hu _ old m hold hmeta
    · exact hu key row m hrow hm

theorem EachQueued.enqueueChanges {s : Store} (hs : EachQueued P s.repairQueue) {limit now : Int}
    {ms : List FileMeta} (hms : ∀ m ∈ ms, P (peer, m.name) m) :
    EachQueued P (s.enqueueChanges limit now peer reason ms).2.repairQueue := by
  have hstart : EachQueued P (⟨s.repairQueue, s.repairRevision, 0, 0⟩ : EnqueueState).queue := hs
  refine hstart.enqueueLoop fun c hc m hm => ?_
  obtain ⟨m', hm', rfl⟩ := List.mem_map.mp hc
  cases hm
  exact hms m hm'

theorem EachQueued.deferRepairItem {s : Store} (hs : EachQueued P s.repairQueue) (item : RepairRow)
    (next : Int) (cause : String) : EachQueued P (s.deferRepairItem item next cause).repairQueue := by
  rcases Repairs.postponed_deferRepairItem s item next cause with h | ⟨row, row', hmem, hkey, hmeta, -, -, h⟩
  · rw [h]
    exact hs
  · rw [h]
    intro key r m hr hm
    dsimp only at hr
    rw [Table.find_put, hkey] at hr
    split at hr
    · next heq =>
      rw [← Option.some.inj hr, hmeta] at hm
      exact hs key row m (heq ▸ Table.mem_rows_iff.mp hmem) hm
    · exact hs key r m hr hm

end

namespace Store

def Logged (s : Store) : Prop := ∀ n m, s.getFile n = some m → ∃ p ∈ s.puts, p.2 = m

structure Offered (s t : Store) : Prop where
  logged : t.Logged
  log : ∀ p ∈ s.puts, p ∈ t.puts
  queue : EachQueued (fun key m =>
    (∃ old, s.repairQueue.find key = some old ∧ old.metadata = some m) ∨
      m.name = key.2 ∧ ∃ p ∈ t.puts, p.2 = m) t.repairQueue

variable {s : Store}

theorem Offered.refl (h : s.Logged) : Offered s s :=
  ⟨h, fun _ => id, fun _ row _ hrow hm => Or.inl ⟨row, hrow, hm⟩⟩

theorem Offered.trans {s t u : Store} (h : Offered s t) (h' : Offered t u) : Offered s u where
  logged := h'.logged
  log := fun p hp => h'.log p (h.log p hp)
  queue := by
    intro key row m hrow hm
    rcases h'.queue key row m hrow hm with ⟨mid, hmid, hm'⟩ | hnew
    · rcases h.queue key mid m hmid hm' with hold | ⟨hname, p, hp, hpm⟩
      · exact Or.inl hold
      · exact Or.inr ⟨hname, p, h'.log p hp, hpm⟩
    · exact Or.inr hnew

theorem Offered.of_eq {s t : Store} (h : s.Logged) (hfiles : t.files = s.files)
    (hputs : t.puts = s.puts) (hqueue : t.repairQueue = s.repairQueue) : Offered s t where
  logged := by
    intro n m hm
    have hget : t.getFile n = s.getFile n := congrArg (·.find n) hfiles
    rw [hputs]
    exact h n m (hget ▸ hm)
  log := fun p hp => hputs ▸ hp
  queue := by
    rw [hqueue]
    exact fun _ row _ hrow hm => Or.inl ⟨row, hrow, hm⟩

theorem offered_commitPut {s st : Store} (h : s.Logged) {fold : String → String}
    {isLocal : Bool} {v : Int} (hput : s.commitPut fold m isLocal = .ok (v, st)) : Offered s st := by
  obtain ⟨names, -, -, rfl⟩ := commitPut_ok hput
  refine ⟨fun n r hr => ?_, fun p hp => List.mem_cons_of_mem _ hp, fun _ row _ hrow hm => Or.inl ⟨row, hrow, hm⟩⟩
  change (s.files.put _).find n = some r at hr
  rw [Table.find_put] at hr
  split at hr
  · exact ⟨_, List.mem_cons_self, Option.some.inj hr⟩
  · obtain ⟨p, hp, hpm⟩ := h n r hr
    exact ⟨p, List.mem_cons_of_mem _ hp, hpm⟩

theorem offered_enqueueChange (h : s.Logged)
    (hm : s.getFile m.name = some m) (limit now : Int) (peer reason : String) :
    Offered s (s.enqueueChange limit now peer reason m).2 := by
  refine ⟨h, fun _ => id, ?_⟩
  have hstart : EachQueued _ (⟨s.repairQueue, s.repairRevision, 0, 0⟩ : EnqueueState).queue :=
    (Offered.refl h).queue
  refine hstart.enqueueLoop fun c hc m' hm' => ?_
  obtain rfl := List.mem_singleton.mp hc
  cases hm'
  exact Or.inr ⟨rfl, h m.name m hm⟩

theorem Sound.logged (h : s.Sound) : s.Logged := by
  intro n m hm
  rw [h.puts_latest n] at hm
  obtain ⟨p, hp, rfl⟩ := Option.map_eq_some_iff.mp hm
  exact ⟨p, List.mem_of_find?_eq_some hp, rfl⟩

theorem Sound.logged_le (h : s.Sound) {p : Bool × FileMeta} (hp : p ∈ s.puts) :
    StateLe (some p.2) (s.getFile p.2.name) := by
  rw [h.puts_latest]
  exact latest_ge h.puts_inOrder hp

end Store

end BirakFormal
