import BirakFormal.Daemon.Peers

/-!
# No change of a peer is lost

The cursor of a peer may only pass a row once the row's state is here or queued. Four things
keep that true while all the loops run: a page is recorded whole before the cursor moves, the
queue keeps the greater state, a worker clears only the very row it read, and only once it
has reached it, and rows never fall back.
-/

namespace BirakFormal

open Tables Interruption

def Store.Covers (s : Store) (peer : String) (m : FileMeta) : Prop :=
  StateLe (some m) (s.getFile m.name) ∨ s.QueuedAtLeast (peer, m.name) m

def Store.Current (s : Store) (item : RepairRow) : Prop :=
  item.revision ≤ s.repairRevision ∧ ∀ row, s.repairQueue.find item.key = some row →
    row.revision = item.revision → row.metadata = item.metadata

def Store.Counted (s : Store) : Prop :=
  ∀ key row, s.repairQueue.find key = some row → row.revision ≤ s.repairRevision

structure Steady (peer : String) (s t : Store) : Prop where
  sound : s.Sound → t.Sound
  forward : s.Forward t
  covers : ∀ m, s.Covers peer m → t.Covers peer m
  current : ∀ item, s.Current item → t.Current item
  counted : s.Counted → t.Counted

section
variable {peer : String} {s t : Store}

theorem Store.Covers.mono {m : FileMeta} (h : s.Covers peer m) (hrows : s.Forward t)
    (hqueue : ∀ key m, s.QueuedAtLeast key m → t.QueuedAtLeast key m) : t.Covers peer m := by
  rcases h with h | h
  · left
    have hle := hrows m.name
    rw [stateLe_iff] at *
    exact h.trans hle
  · exact Or.inr (hqueue _ _ h)

theorem Steady.of_merged (hsound : s.Sound → t.Sound) (hrows : s.Forward t) (hqueue : s.Merged t) :
    Steady peer s t where
  sound := hsound
  forward := hrows
  covers := fun _ h => h.mono hrows hqueue.kept
  current := by
    rintro item ⟨hle, hsame⟩
    refine ⟨hle.trans hqueue.revision, fun row hrow hrev => ?_⟩
    obtain ⟨old, hold, hrev', hmeta⟩ := hqueue.fresh _ row hrow (hrev ▸ hle)
    exact hmeta ▸ hsame old hold (hrev'.trans hrev)
  counted := hqueue.bounded

theorem sound_of_rows (hfiles : t.files = s.files) (hintents : t.replicaIntents = s.replicaIntents)
    (hputs : t.puts = s.puts) : (s.Sound → t.Sound) ∧ s.Forward t := by
  have honward : Onward { store := s } { store := t } := SameRows.onward ⟨hfiles, hintents, hputs⟩
  refine ⟨fun hs => (honward hs).1, fun n => ?_⟩
  have hget : t.getFile n = s.getFile n := congrArg (·.find n) hfiles
  rw [hget, stateLe_iff]

theorem steady_enqueueChanges (limit now : Int) (q reason : String) (ms : List FileMeta) :
    Steady peer s (s.enqueueChanges limit now q reason ms).2 := by
  obtain ⟨hsound, hrows⟩ : (s.Sound → (s.enqueueChanges limit now q reason ms).2.Sound) ∧
    s.Forward (s.enqueueChanges limit now q reason ms).2 := sound_of_rows rfl rfl rfl
  exact .of_merged hsound hrows (s.merged_enqueueChanges _ _ _ _ _)

theorem steady_setPeerState (q : String) (state : PeerState) : Steady peer s (s.setPeerState q state) := by
  obtain ⟨hsound, hrows⟩ : (s.Sound → (s.setPeerState q state).Sound) ∧
    s.Forward (s.setPeerState q state) := sound_of_rows rfl rfl rfl
  exact .of_merged hsound hrows (.of_eq rfl rfl)

theorem deferRepairItem_rows (item : RepairRow) (next : Int) (cause : String) :
    (s.deferRepairItem item next cause).files = s.files ∧
      (s.deferRepairItem item next cause).replicaIntents = s.replicaIntents ∧
      (s.deferRepairItem item next cause).puts = s.puts ∧
      (s.deferRepairItem item next cause).cursors = s.cursors := by
  unfold Store.deferRepairItem
  split
  · dsimp only
    split
    · exact ⟨rfl, rfl, rfl, rfl⟩
    · exact ⟨rfl, rfl, rfl, rfl⟩
  · exact ⟨rfl, rfl, rfl, rfl⟩

theorem steady_deferRepairItem (item : RepairRow) (next : Int) (cause : String) :
    Steady peer s (s.deferRepairItem item next cause) := by
  obtain ⟨hf, hi, hp, -⟩ := deferRepairItem_rows (s := s) item next cause
  obtain ⟨hsound, hrows⟩ := sound_of_rows hf hi hp
  exact .of_merged hsound hrows (s.merged_deferRepairItem item next cause)

theorem resolveRepairItem_rows (item : RepairRow) : (s.resolveRepairItem item).files = s.files ∧
      (s.resolveRepairItem item).replicaIntents = s.replicaIntents ∧
      (s.resolveRepairItem item).puts = s.puts ∧ (s.resolveRepairItem item).cursors = s.cursors ∧
      (s.resolveRepairItem item).repairRevision = s.repairRevision := by
  rcases Repairs.resolveRepairItem_cases s item with h | h
  · rw [h]
    exact ⟨rfl, rfl, rfl, rfl, rfl⟩
  · rw [h]
    exact ⟨rfl, rfl, rfl, rfl, rfl⟩

variable {item : RepairRow}

theorem find_resolveRepairItem {key : String × String} {row : RepairRow}
    (h : (s.resolveRepairItem item).repairQueue.find key = some row) :
    s.repairQueue.find key = some row := by
  rcases Repairs.resolveRepairItem_cases s item with heq | heq
  · rw [heq] at h
    dsimp only at h
    rw [Table.find_erase] at h
    split at h
    · cases h
    · exact h
  · rwa [heq] at h

theorem queuedAtLeast_resolveRepairItem {key : String × String} {m : FileMeta}
    (hs : key = item.key → s.Current item) (h : s.QueuedAtLeast key m) :
    (s.resolveRepairItem item).QueuedAtLeast key m ∨
      key = item.key ∧ ∃ kept, item.metadata = some kept ∧ StateLe (some m) (some kept) := by
  obtain ⟨row, kept, hfind, hmeta, hle⟩ := h
  unfold Store.resolveRepairItem
  cases hitem : s.repairQueue.find item.key with
  | none => exact Or.inl ⟨row, kept, hfind, hmeta, hle⟩
  | some current =>
    dsimp only
    split
    · next hrev =>
      by_cases hkey : key = item.key
      · right
        rw [hkey, hitem] at hfind
        have hsame := (hs hkey).2 current hitem hrev
        rw [Option.some.inj hfind, hmeta] at hsame
        exact ⟨hkey, kept, hsame.symm, hle⟩
      · left
        refine ⟨row, kept, ?_, hmeta, hle⟩
        rw [Table.find_erase, if_neg hkey]
        exact hfind
    · exact Or.inl ⟨row, kept, hfind, hmeta, hle⟩

theorem steady_resolveRepairItem (hs : item.peer = peer → s.Current item)
    (hheld : item.peer = peer → ∀ m, item.metadata = some m → StateLe (some m) (s.getFile item.name)) :
    Steady peer s (s.resolveRepairItem item) := by
  obtain ⟨hf, hi, hp, -, hrev⟩ := resolveRepairItem_rows (s := s) item
  obtain ⟨hsound, hrows⟩ := sound_of_rows hf hi hp
  refine ⟨hsound, hrows, ?_, ?_, ?_⟩
  · rintro m (h | h)
    · have hle := hrows m.name
      rw [stateLe_iff] at h hle
      exact Or.inl (stateLe_iff.mpr (h.trans hle))
    · have hcurrent : (peer, m.name) = item.key → s.Current item :=
        fun hkey => hs (congrArg Prod.fst hkey).symm
      rcases queuedAtLeast_resolveRepairItem hcurrent h with h | ⟨hkey, kept, hkept, hle⟩
      · exact Or.inr h
      · -- The cleared row held what is reached by now.
        have hpeer : item.peer = peer := (congrArg Prod.fst hkey).symm
        have hname : item.name = m.name := (congrArg Prod.snd hkey).symm
        have hreached := hheld hpeer kept hkept
        have hrow := hrows m.name
        rw [hname, stateLe_iff] at hreached
        rw [stateLe_iff] at hle hrow
        exact Or.inl (stateLe_iff.mpr ((hle.trans hreached).trans hrow))
  · rintro other ⟨hle, hsame⟩
    exact ⟨hrev ▸ hle, fun row hrow => hsame row (find_resolveRepairItem hrow)⟩
  · intro hcounted key row hrow
    rw [hrev]
    exact hcounted key row (find_resolveRepairItem hrow)

theorem getPeerState_setPeerState (q : String) (state : PeerState) :
    (s.setPeerState q state).getPeerState peer = if peer = q then state else s.getPeerState peer := by
  unfold Store.getPeerState Store.setPeerState
  dsimp only
  rw [Table.find_put]
  split
  · rfl
  · rfl

theorem getPeerState_of_cursors (h : t.cursors = s.cursors) :
    t.getPeerState peer = s.getPeerState peer := by
  unfold Store.getPeerState
  rw [h]

theorem OtherPeer.steady {cfg : Config} (h : OtherPeer cfg peer s t) : Steady peer s t := by
  cases h with
  | enqueue now q reason ms hq => exact steady_enqueueChanges _ _ _ _ _
  | resolve item hq => exact steady_resolveRepairItem (fun h => absurd h hq) fun h => absurd h hq
  | defer item next cause hq => exact steady_deferRepairItem _ _ _
  | cursor q state hq => exact steady_setPeerState _ _

theorem OtherPeer.cursor_eq {cfg : Config} (h : OtherPeer cfg peer s t) :
    t.getPeerState peer = s.getPeerState peer := by
  cases h with
  | enqueue now q reason ms hq => rfl
  | resolve item hq => exact getPeerState_of_cursors (resolveRepairItem_rows item).2.2.2.1
  | defer item next cause hq => exact getPeerState_of_cursors (deferRepairItem_rows item _ _).2.2.2
  | cursor q state hq => rw [getPeerState_setPeerState, if_neg (Ne.symm hq)]

end

variable {cfg : Config} {peer : String} {s t : Store}

theorem Store.QueueUsable.offered (hs : s.QueueUsable cfg peer) (ht : t.Sound) (hrows : s.Forward t)
    (hst : s.Offered t) : t.QueueUsable cfg peer := by
  intro key row m hrow hm hkey
  rcases hst.queue key row m hrow hm with ⟨old, hold, hmeta⟩ | ⟨hname, p, hp, rfl⟩
  · obtain ⟨hname, hval | hle⟩ := hs key old m hold hmeta hkey
    · exact ⟨hname, Or.inl hval⟩
    · have hrow := hrows m.name
      rw [stateLe_iff] at hle hrow
      exact ⟨hname, Or.inr (stateLe_iff.mpr (hle.trans hrow))⟩
  · exact ⟨hname, Or.inr (ht.logged_le hp)⟩

theorem Store.QueueUsable.enqueueChanges (hs : s.QueueUsable cfg peer) {limit now : Int}
    {q reason : String} {ms : List FileMeta}
    (hms : q = peer → ∀ m ∈ ms, validateChange cfg.digest cfg.patterns m = .ok ()) :
    (s.enqueueChanges limit now q reason ms).2.QueueUsable cfg peer :=
  EachQueued.enqueueChanges hs fun m hm hq => ⟨rfl, Or.inl (hms hq m hm)⟩

theorem Store.QueueUsable.resolveRepairItem (hs : s.QueueUsable cfg peer) (item : RepairRow) :
    (s.resolveRepairItem item).QueueUsable cfg peer := by
  intro key row m hrow
  have hget : (s.resolveRepairItem item).getFile m.name = s.getFile m.name :=
    congrArg (·.find m.name) (resolveRepairItem_rows item).1
  dsimp only
  rw [hget]
  exact hs key row m (find_resolveRepairItem hrow)

theorem Store.QueueUsable.deferRepairItem (hs : s.QueueUsable cfg peer) (item : RepairRow)
    (next : Int) (cause : String) : (s.deferRepairItem item next cause).QueueUsable cfg peer := by
  intro key row m hrow
  have hget : (s.deferRepairItem item next cause).getFile m.name = s.getFile m.name :=
    congrArg (·.find m.name) (deferRepairItem_rows item next cause).1
  dsimp only
  rw [hget]
  exact EachQueued.deferRepairItem hs item next cause key row m hrow

theorem OtherPeer.queueUsable (h : OtherPeer cfg peer s t) (hs : s.QueueUsable cfg peer) :
    t.QueueUsable cfg peer := by
  cases h with
  | enqueue now q reason ms hq => exact hs.enqueueChanges fun h => absurd h hq
  | resolve item hq => exact hs.resolveRepairItem item
  | defer item next cause hq => exact hs.deferRepairItem item next cause
  | cursor q state hq => exact hs

end BirakFormal
