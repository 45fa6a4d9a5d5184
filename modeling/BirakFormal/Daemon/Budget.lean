import BirakFormal.Daemon.Runs
import BirakFormal.Watcher.Breaker

/-!
# No window sees more deletions than the limit

The ledger covers every deletion the breaker recorded, in memory and in the store, whenever
no group is being published. A group that fits then keeps every window of ten minutes within
the limit. What breaks the account is a crash after a deletion and before the ledger is saved.
-/

namespace BirakFormal

open Tables Interruption Prog Relation
open Windows (used recent inside Covers)

def SameLog (s t : Node) : Prop :=
  t.store.tombstones = s.store.tombstones ∧ t.store.now = s.store.now ∧ t.recovered = s.recovered

theorem sameLogFrame : Frame SameLog :=
  ⟨fun _ => ⟨rfl, rfl, rfl⟩, fun h h' => ⟨h'.1.trans h.1, h'.2.1.trans h.2.1, h'.2.2.trans h.2.2⟩⟩

def Recorded (n : String) (s t : Node) : Prop :=
  t.store.tombstones = s.store.now :: s.store.tombstones ∧ t.store.now = s.store.now ∧
    t.recovered = s.recovered ∧ ∃ m, t.store.getFile n = some m ∧ m.deleted = true

section
variable {cfg : Config} {n : String} {s t : Node}

theorem Inspected.sameLog (h : Inspected cfg n s t) : SameLog s t := by
  cases h with
  | stamp ho ht => obtain ⟨d, -, rfl⟩ := place_ok ht; exact ⟨rfl, rfl, rfl⟩
  | rmdir | fence | setQuarantined | unfence | enqueue | defer => exact ⟨rfl, rfl, rfl⟩

theorem recoverReplicaLocked_sameLog : (recoverReplicaLocked cfg n).Within SameLog := by
  refine recoverReplicaLocked_within sameLogFrame (fun _ _ => Inspected.sameLog) ?_
    fun _ => ⟨rfl, rfl, rfl⟩
  intro s m v st hm hp
  obtain ⟨names, -, -, rfl⟩ := Store.commitPut_ok hp
  exact ⟨rfl, rfl, rfl⟩

theorem commitEvent_log {ev : FileMeta} (hev : ev.name = n) (opts : IndexOptions) :
    (commitEvent cfg ev opts).Safe (SameLog s) (fun _ t => SameLog s t ∨ Recorded n s t) s := by
  have F := sameLogFrame
  have here := F.refl s
  refine Safe.bind (R := fun _ t => t = s) (safe_onlyIf (fun _ => safe_barrier here rfl) fun _ => rfl) ?_
  rintro _ t rfl
  refine Safe.bind (R := fun _ u => u = t) (safe_onlyIf (fun _ => safe_barrier here rfl) fun _ => rfl) ?_
  rintro _ u rfl
  refine Safe.bind (R := fun _ v => SameLog u v ∨ Recorded n u v)
    (safe_update here fun a v h => ?_) fun _ v hv => safe_pure hv
  cases hp : u.store.commitPut cfg.fold ev true with
  | error e => rw [hp] at h; cases h
  | ok r =>
    rw [hp] at h
    cases h
    have hrow := Store.getFile_commitPut hp n
    rw [if_pos hev.symm] at hrow
    obtain ⟨names, -, -, hst⟩ := Store.commitPut_ok hp
    cases hdel : ev.deleted with
    | false =>
      refine Or.inl ⟨?_, ?_, rfl⟩ <;> simp [hst, hdel]
    | true =>
      refine Or.inr ⟨?_, ?_, rfl, _, hrow, (committedRow_content _ _ _).2.2.2.trans hdel⟩ <;>
        simp [hst, hdel]

theorem refreshFileLocked_log (opts : IndexOptions) :
    (refreshFileLocked cfg n opts).Safe (SameLog s) (fun _ t => SameLog s t ∨ Recorded n s t) s := by
  have F := sameLogFrame
  have here := F.refl s
  refine safe_check_bind here fun _ _ => safe_barrier_bind here (safe_look_bind here ?_)
  split
  · exact safe_raise here
  · refine Safe.bind (recoverReplicaLocked_sameLog s) fun _ t ht => ?_
    refine Safe.bind (R := fun _ u => SameLog s u) ((F.readOnly (trustedUnchanged_reads opts) t).mono
      (fun _ => F.trans ht) fun _ _ => F.trans ht) fun unchanged u hu => ?_
    split
    · exact safe_pure (Or.inl hu)
    · refine Safe.bind (R := fun r v => SameLog s v ∧ EventOf n r)
        (((inspectFile_inspected opts).along (inspectFile_returns opts u)).mono
          (fun v hv => F.trans hu (F.of_steps (fun _ _ => Inspected.sameLog) hv))
          fun r v hv => ⟨F.trans hu (F.of_steps (fun _ _ => Inspected.sameLog) hv.1), hv.2⟩) ?_
      rintro r v ⟨hv, hr⟩
      match r with
      | none => exact safe_pure (Or.inl hv)
      | some ev =>
        refine (commitEvent_log (hr ev rfl).1 opts).mono (fun _ => F.trans hv) fun _ x hx => ?_
        rcases hx with hx | ⟨hlog, hnow, hrec, hrow⟩
        · exact Or.inl (F.trans hv hx)
        · refine Or.inr ⟨?_, hnow.trans hv.2.1, hrec.trans hv.2.2, hrow⟩
          rw [hlog, hv.1, hv.2.1]

theorem publishDeletion_log (hs : s.recovered = true) :
    (publishDeletion cfg n).Clean (fun t => SameLog s t ∨ Recorded n s t) (fun _ => SameLog s)
      (fun b t => SameLog s t ∨ Recorded n s t ∧ b = true) s := by
  have here := sameLogFrame.refl s
  refine Clean.bind (R := fun _ t => t = s) (clean_attempt.mpr ((Sat.clean
    (validateStorageLocked_idle hs)).mono (fun _ ht => Or.inl (ht.symm ▸ here)) (fun _ _ ht => ht)
    fun _ _ ht => ht)) ?_
  rintro res t rfl
  match res with
  | .error e => exact here
  | .ok () =>
    refine clean_look_bind (Or.inl here) ?_
    split
    · exact Or.inl here
    · refine Clean.bind ((Sat.clean (refreshFileLocked_log {})).mono (fun _ => Or.inl)
        (fun _ _ => id) fun _ _ => id) ?_
      intro _ u hu
      refine clean_look_bind hu ?_
      rcases hu with hu | hu
      · exact Or.inl hu
      · obtain ⟨m, hm, hdel⟩ := hu.2.2.2
        refine Or.inr ⟨hu, ?_⟩
        rw [hm]
        exact hdel

end

def Guarded.now (w : Guarded) : Int := w.node.store.now

def Guarded.log (w : Guarded) : List Int := w.node.store.tombstones

structure Accounted (env : Surroundings) (limit : Nat) (w : Guarded) : Prop where
  time : w.now = env.clock w.tick
  saved : Covers (w.saved.getD []) (w.now - externalDeletionWindow) w.log
  bound : ∀ x, inside externalDeletionWindow x w.log ≤ limit

structure Balanced (env : Surroundings) (limit : Nat) (w : Guarded) : Prop
    extends Accounted env limit w where
  recovered : w.node.recovered = true
  window : w.loaded = true → Covers w.window (w.now - externalDeletionWindow) w.log

section
variable {cfg : Config} {env : Surroundings} {limit : Nat} {w u : Guarded}

theorem now_become (h : w.now = env.clock w.tick) (n : Node) : w.now ≤ (w.become env n).now := by
  rw [h]
  exact env.clock_mono (Nat.le_succ _)

theorem Accounted.become (h : Accounted env limit w) (n : Node) :
    Accounted env limit (w.become env n) where
  time := rfl
  saved := h.saved.mono (Int.sub_le_sub_right (now_become h.time n) _)
  bound := h.bound

theorem Balanced.become (h : Balanced env limit w) (n : Node) :
    Balanced env limit (w.become env n) where
  toAccounted := h.toAccounted.become n
  recovered := rfl
  window hl := (h.window hl).mono (Int.sub_le_sub_right (now_become h.time n) _)

theorem loadDeletionWindow_clean (h : Balanced env limit w) :
    (loadDeletionWindow).Clean (fun u => u.log = w.log → Accounted env limit u)
      (fun _ => Balanced env limit)
      (fun _ u => Balanced env limit u ∧ u.loaded = true ∧ u.log = w.log) w := by
  have hw := h.toAccounted
  refine clean_look_bind (fun _ => hw) ?_
  split
  · next hl => exact ⟨h, hl, rfl⟩
  · refine clean_alter_bind (fun _ => hw) ?_
    refine Clean.bind (R := fun r u => r = .ok w.saved ∧ u = { w with loaded := true })
      (clean_attempt.mpr ⟨fun _ => ⟨hw.time, hw.saved, hw.bound⟩, rfl, rfl⟩) ?_
    rintro r u ⟨rfl, rfl⟩
    refine clean_alter (fun _ => ⟨hw.time, hw.saved, hw.bound⟩) ⟨?_, rfl, rfl⟩
    refine ⟨⟨hw.time, hw.saved, hw.bound⟩, h.recovered, fun _ => ?_⟩
    exact hw.saved.perm (List.perm_insertionSort _ _).symm

theorem publishedInWindow_clean (h : Balanced env limit w) (hl : w.loaded = true) :
    (publishedInWindow env).Clean (fun u => u.log = w.log → Accounted env limit u)
      (fun _ => Balanced env limit)
      (fun k u => Balanced env limit u ∧ u.loaded = true ∧ u.log = w.log ∧
        k = used (u.now - externalDeletionWindow) u.window) w := by
  have hnext := h.become (env.moves w.tick w.node)
  refine clean_alter_bind (fun _ => h.toAccounted) ⟨fun _ => hnext.toAccounted, ?_⟩
  refine ⟨⟨⟨hnext.time, hnext.saved, hnext.bound⟩, hnext.recovered, fun _ => ?_⟩, hl, rfl, ?_⟩
  · exact (hnext.window hl).recent
  · exact (Windows.used_recent le_rfl _).symm

/-- While a group is published that began at `w`: the ledgers are untouched, and at most `k`
deletions were recorded since. -/
structure Publishing (env : Surroundings) (w : Guarded) (k : Nat) (u : Guarded) : Prop where
  time : u.now = env.clock u.tick
  later : w.now ≤ u.now
  recovered : u.node.recovered = true
  saved : u.saved = w.saved
  window : u.window = w.window
  loaded : u.loaded = w.loaded
  grown : ∃ new, u.log = new ++ w.log ∧ new.length ≤ k ∧ ∀ t ∈ new, w.now ≤ t ∧ t ≤ u.now

theorem Balanced.publishing (h : Balanced env limit w) : Publishing env w 0 w :=
  ⟨h.time, le_rfl, h.recovered, rfl, rfl, rfl, [], rfl, le_rfl, nofun⟩

theorem Publishing.mono {j k : Nat} (h : Publishing env w j u) (hjk : j ≤ k) :
    Publishing env w k u := by
  obtain ⟨new, hlog, hlen, htimes⟩ := h.grown
  exact { h with grown := ⟨new, hlog, hlen.trans hjk, htimes⟩ }

theorem Accounted.later (hw : Accounted env limit w) (htime : u.now = env.clock u.tick)
    (hlater : w.now ≤ u.now) (hsaved : u.saved = w.saved) (hlog : u.log = w.log) :
    Accounted env limit u := by
  refine ⟨htime, ?_, ?_⟩
  · rw [hsaved, hlog]
    exact hw.saved.mono (Int.sub_le_sub_right hlater _)
  · rw [hlog]
    exact hw.bound

variable {k : Nat}

theorem Publishing.become (h : Publishing env w k u) (n : Node) :
    Publishing env w k (u.become env n) := by
  have hnow := now_become h.time n
  obtain ⟨new, hlog, hlen, htimes⟩ := h.grown
  refine ⟨rfl, h.later.trans hnow, rfl, h.saved, h.window, h.loaded, new, hlog, hlen, ?_⟩
  intro t ht
  exact ⟨(htimes t ht).1, (htimes t ht).2.trans hnow⟩

theorem Publishing.sameLog {s : Node} (h : Publishing env w k u)
    (hs : SameLog u.node s) : Publishing env w k { u with node := s } := by
  obtain ⟨hlog, hnow, hrec⟩ := hs
  have hnow' : ({ u with node := s } : Guarded).now = u.now := hnow
  have hlog' : ({ u with node := s } : Guarded).log = u.log := hlog
  obtain ⟨new, hnew, hlen, htimes⟩ := h.grown
  refine ⟨hnow'.trans h.time, hnow' ▸ h.later, hrec.trans h.recovered, h.saved, h.window, h.loaded,
    new, hlog'.trans hnew, hlen, ?_⟩
  rw [hnow']
  exact htimes

theorem Publishing.recorded {s : Node} {n : String} (h : Publishing env w k u)
    (hs : Recorded n u.node s) : Publishing env w (k + 1) { u with node := s } := by
  obtain ⟨hlog, hnow, hrec, -⟩ := hs
  have hnow' : ({ u with node := s } : Guarded).now = u.now := hnow
  have hlog' : ({ u with node := s } : Guarded).log = u.now :: u.log := hlog
  obtain ⟨new, hnew, hlen, htimes⟩ := h.grown
  refine ⟨hnow'.trans h.time, hnow' ▸ h.later, hrec.trans h.recovered, h.saved, h.window, h.loaded,
    u.now :: new, ?_, Nat.succ_le_succ hlen, ?_⟩
  · rw [hlog', hnew]
    rfl
  · rw [hnow']
    intro t ht
    rcases List.mem_cons.mp ht with rfl | ht
    · exact ⟨h.later, le_rfl⟩
    · exact htimes t ht

theorem publishDeletions_clean {names : List String} (h : Publishing env w k u) :
    (publishDeletions cfg env names k).Clean (fun v => ∃ j, Publishing env w j v)
      (fun _ _ => False) (fun r v => Publishing env w r.1 v ∧ r.1 ≤ k + names.length) u := by
  induction names generalizing k u with
  | nil => exact ⟨h, le_rfl⟩
  | cons name names ih =>
    have hstop : ∀ {v e}, Publishing env w k v → (pure (k, e) : Breaker (Nat × Option (Failure Err))).Clean
        (fun v => ∃ j, Publishing env w j v) (fun _ _ => False)
        (fun r v => Publishing env w r.1 v ∧ r.1 ≤ k + (name :: names).length) v :=
      fun hv => ⟨hv, Nat.le_add_right _ _⟩
    refine clean_look_bind ⟨k, h⟩ ?_
    split
    · exact hstop h
    · have hnext := h.become (env.moves u.tick u.node)
      refine clean_alter_bind ⟨k, h⟩ ?_
      refine Clean.bind (R := fun r v => (∃ e, r = .error e) ∧ Publishing env w k v ∨
          r = .ok false ∧ Publishing env w k v ∨ r = .ok true ∧ Publishing env w (k + 1) v)
        (clean_attempt.mpr ((Clean.zoom nodePart (publishDeletion_log rfl)).mono ?_ ?_ ?_)) ?_
      · rintro v ⟨s, rfl, hs | hs⟩
        · exact ⟨k, hnext.sameLog hs⟩
        · exact ⟨k + 1, hnext.recorded hs⟩
      · rintro e v ⟨s, rfl, hs⟩
        exact Or.inl ⟨⟨e, rfl⟩, hnext.sameLog hs⟩
      · rintro b v ⟨s, rfl, hs | ⟨hs, rfl⟩⟩
        · have hv := hnext.sameLog hs
          cases b with
          | false => exact Or.inr (Or.inl ⟨rfl, hv⟩)
          | true => exact Or.inr (Or.inr ⟨rfl, hv.mono (Nat.le_succ k)⟩)
        · exact Or.inr (Or.inr ⟨rfl, hnext.recorded hs⟩)
      · rintro r v (⟨⟨e, rfl⟩, hv⟩ | ⟨rfl, hv⟩ | ⟨rfl, hv⟩)
        · dsimp only
          split
          · refine (ih hv).mono (fun _ => id) (fun _ _ => id) fun r x hx => ⟨hx.1, ?_⟩
            rw [List.length_cons]
            omega
          · exact hstop hv
        · refine (ih hv).mono (fun _ => id) (fun _ _ => id) fun r x hx => ⟨hx.1, ?_⟩
          rw [List.length_cons]
          omega
        · refine (ih hv).mono (fun _ => id) (fun _ _ => id) fun r x hx => ⟨hx.1, ?_⟩
          rw [List.length_cons]
          omega

theorem recordPublished_clean (hw : Balanced env limit w) (hl : w.loaded = true) (h : Publishing env w k u)
    (hfits : k + used (w.now - externalDeletionWindow) w.window ≤ limit) :
    (recordPublished env k).Clean (fun v => v.log = w.log → Accounted env limit v)
      (fun _ _ => False) (fun _ => Balanced env limit) u := by
  have h1 := h.become (env.moves u.tick u.node)
  obtain ⟨new, hlog, hlen, htimes⟩ := h1.grown
  have hbound : ∀ x, inside externalDeletionWindow x (new ++ w.log) ≤ limit :=
    Windows.inside_append_le (hw.window hl) (fun t ht => (htimes t ht).1)
      ((Nat.add_le_add_right hlen _).trans hfits) hw.bound
  generalize hu1 : u.become env (env.moves u.tick u.node) = u1 at h1 hlog htimes
  let u2 : Guarded := { u1 with window := u1.window ++ [⟨u1.node.store.now, k⟩] }
  have hcover : Covers u2.window (u2.now - externalDeletionWindow) u2.log := by
    show Covers (u1.window ++ [⟨u1.now, k⟩]) (u1.now - externalDeletionWindow) u1.log
    rw [hlog, h1.window]
    exact ((hw.window hl).mono (Int.sub_le_sub_right h1.later _)).append hlen
      fun t ht => (htimes t ht).2
  let u3 := u2.become env (env.moves u2.tick u2.node)
  have hnow : u2.now ≤ u3.now := now_become h1.time _
  have hrecent : Covers (recent (u3.now - externalDeletionWindow) u2.window)
      (u3.now - externalDeletionWindow) u3.log :=
    (hcover.mono (Int.sub_le_sub_right hnow _)).recent
  have hbound3 : ∀ x, inside externalDeletionWindow x u3.log ≤ limit := by
    show ∀ x, inside externalDeletionWindow x u1.log ≤ limit
    rw [hlog]
    exact hbound
  have hold := hw.toAccounted
  refine clean_alter_bind (hold.later h.time h.later h.saved) ?_
  rw [hu1]
  refine clean_alter_bind (hold.later h1.time h1.later h1.saved) ?_
  -- From here on the entry is in memory; the old saved ledger covers what it did before.
  let u4 : Guarded := { u3 with window := recent (u3.now - externalDeletionWindow) u2.window }
  refine Clean.bind (R := fun _ v => v = u4) ?_ ?_
  · refine clean_alter_bind (hold.later h1.time h1.later h1.saved) ⟨?_, rfl⟩
    exact hold.later rfl (h1.later.trans hnow) h1.saved
  · rintro _ v rfl
    refine Clean.bind (R := fun _ x => Balanced env limit x) (clean_attempt.mpr ?_) fun _ _ hx => hx
    refine clean_alter (hold.later rfl (h1.later.trans hnow) h1.saved) ?_
    exact ⟨⟨rfl, hrecent, hbound3⟩, rfl, fun _ => hrecent⟩

theorem Balanced.setHeld (h : Balanced env limit w) (count : Nat) (message : String) :
    Balanced env limit { w with held := count, heldError := message } :=
  ⟨⟨h.time, h.saved, h.bound⟩, h.recovered, h.window⟩

theorem clearHeld_clean {authoritative : Bool} {log : List Int} (h : Balanced env limit u) :
    (onlyIf authoritative (setHeldDeletions 0 "")).Clean (fun v => v.log = log → Accounted env limit v)
      (fun _ => Balanced env limit) (fun _ => Balanced env limit) u := by
  cases authoritative with
  | true => exact clean_alter (fun _ => h.toAccounted) (h.setHeld 0 "")
  | false => exact h

theorem publishGroup_clean {g : DeletionGroup} {authoritative : Bool} (hw : Balanced env limit w)
    (hl : w.loaded = true)
    (hfits : g.count + used (w.now - externalDeletionWindow) w.window ≤ limit) :
    (publishGroup cfg env g authoritative).Clean (fun v => v.log = w.log → Accounted env limit v)
      (fun _ => Balanced env limit) (fun _ => Balanced env limit) w := by
  refine Clean.bind ((publishDeletions_clean hw.publishing).mono ?_ (fun _ _ => False.elim)
    fun _ _ => id) ?_
  · rintro v ⟨j, hv⟩
    exact hw.toAccounted.later hv.time hv.later hv.saved
  · rintro ⟨published, err⟩ u ⟨hu, hcount⟩
    have hle : published ≤ g.count := by
      have hnames := g.names_le
      simp only [Nat.zero_add] at hcount
      omega
    refine Clean.bind (R := fun _ => Balanced env limit) ?_ ?_
    · cases hpub : decide (0 < published) with
      | true =>
        exact (recordPublished_clean hw hl hu ((Nat.add_le_add_right hle _).trans hfits)).mono
          (fun _ => id) (fun _ _ => False.elim) fun _ _ => id
      | false =>
        obtain rfl : published = 0 := by simpa using hpub
        obtain ⟨new, hlog, hlen, -⟩ := hu.grown
        obtain rfl := List.eq_nil_of_length_eq_zero (Nat.le_zero.mp hlen)
        refine ⟨hw.toAccounted.later hu.time hu.later hu.saved hlog, hu.recovered, fun _ => ?_⟩
        rw [hu.window, hlog]
        exact (hw.window hl).mono (Int.sub_le_sub_right hu.later _)
    · intro _ v hv
      cases err with
      | some e => exact hv
      | none => exact clearHeld_clean hv

theorem settleDeletions_clean (hlimit : 0 < limit) (group : Option DeletionGroup)
    (authoritative : Bool) (h : Balanced env limit w) :
    (settleDeletions cfg env limit group authoritative).Clean
      (fun v => v.log = w.log → Accounted env limit v)
      (fun _ => Balanced env limit) (fun _ => Balanced env limit) w := by
  refine Clean.bind (loadDeletionWindow_clean h) ?_
  rintro _ w1 ⟨h1, hl1, hlog1⟩
  rw [← hlog1]
  refine Clean.bind (publishedInWindow_clean h1 hl1) ?_
  rintro k w2 ⟨h2, hl2, hlog2, rfl⟩
  rw [← hlog2]
  refine clean_look_bind (fun _ => h2.toAccounted) ?_
  split
  · exact clearHeld_clean h2
  · next g _ =>
    split
    · exact clean_look_bind (fun _ => h2.toAccounted) h2
    · split
      · exact clean_alter_bind (fun _ => h2.toAccounted) (h2.setHeld _ _)
      · next hfits =>
        refine publishGroup_clean h2 hl2 ?_
        omega

theorem takeEventDeletions_clean (h : Balanced env limit w) :
    (takeEventDeletions).Clean (fun v => v.log = w.log → Accounted env limit v)
      (fun _ => Balanced env limit) (fun _ v => Balanced env limit v ∧ v.log = w.log) w :=
  ⟨fun _ => h.toAccounted, ⟨⟨h.time, h.saved, h.bound⟩, h.recovered, h.window⟩, rfl⟩

theorem settleEventDeletions_clean (hlimit : 0 < limit) (h : Balanced env limit w) :
    (settleEventDeletions cfg env limit).Clean (fun v => v.log = w.log → Accounted env limit v)
      (fun _ => Balanced env limit) (fun _ => Balanced env limit) w := by
  refine Clean.bind (takeEventDeletions_clean h) ?_
  rintro group v ⟨hv, hlog⟩
  rw [← hlog]
  split
  · exact hv
  · next g _ =>
    refine Clean.bind (R := fun _ => Balanced env limit) (clean_attempt.mpr ?_) fun _ _ hx => hx
    exact settleDeletions_clean hlimit (some g) false hv

theorem settleSweep_clean (hlimit : 0 < limit) (group : DeletionGroup) (h : Balanced env limit w) :
    (settleSweep cfg env limit group).Clean (fun v => v.log = w.log → Accounted env limit v)
      (fun _ => Balanced env limit) (fun _ => Balanced env limit) w := by
  refine Clean.bind (takeEventDeletions_clean h) ?_
  rintro waiting v ⟨hv, hlog⟩
  rw [← hlog]
  exact settleDeletions_clean hlimit _ true hv

inductive Settlement where
  | events
  | sweep (group : DeletionGroup)

def Settlement.prog (cfg : Config) (env : Surroundings) (limit : Nat) : Settlement → Breaker Unit
  | .events => settleEventDeletions cfg env limit
  | .sweep group => settleSweep cfg env limit group

/-- A new process at the next moment: memory is gone, the store is as it was, and the
storage has been validated. -/
def Guarded.restarted (env : Surroundings) (w : Guarded) (n : Node) : Guarded :=
  { node := (w.become env n).node, tick := w.tick + 1, saved := w.saved }

/-- One step of a node with its breaker; `mayCrash` says in which states, of a settlement
that began in `w`, the process may be killed. -/
inductive GuardedStep (cfg : Config) (env : Surroundings) (limit : Nat)
    (mayCrash : Guarded → Guarded → Prop) : Guarded → Guarded → Prop where
  | settle (w : Guarded) (by_ : Settlement) :
      GuardedStep cfg env limit mayCrash w ((by_.prog cfg env limit).exec w).2
  | crash (w : Guarded) (by_ : Settlement) (n : Node) {fs : List Fault} (hfs : .fail ∉ fs)
      (h : ((by_.prog cfg env limit).run fs w).1 = .crashed)
      (hu : mayCrash w ((by_.prog cfg env limit).run fs w).2) :
      GuardedStep cfg env limit mayCrash w (((by_.prog cfg env limit).run fs w).2.restarted env n)
  | restart (w : Guarded) (n : Node) : GuardedStep cfg env limit mayCrash w (w.restarted env n)
  | missing (w : Guarded) (name : String) :
      GuardedStep cfg env limit mayCrash w (w.deferEventDeletion limit name)
  | idle (w : Guarded) (n : Node) : GuardedStep cfg env limit mayCrash w (w.become env n)

def Guarded.fresh (env : Surroundings) (n : Node) : Guarded :=
  { node := { n with recovered := true, store := { n.store with now := env.clock 0, tombstones := [] } } }

theorem Settlement.clean (hlimit : 0 < limit) (by_ : Settlement) (h : Balanced env limit w) :
    (by_.prog cfg env limit).Clean (fun v => v.log = w.log → Accounted env limit v)
      (fun _ => Balanced env limit) (fun _ => Balanced env limit) w := by
  cases by_ with
  | events => exact settleEventDeletions_clean hlimit h
  | sweep group => exact settleSweep_clean hlimit group h

theorem Accounted.restarted (h : Accounted env limit w) (n : Node) :
    Balanced env limit (w.restarted env n) := by
  have hnext := h.become n
  exact ⟨⟨hnext.time, hnext.saved, hnext.bound⟩, rfl, nofun⟩

theorem GuardedStep.balanced (hlimit : 0 < limit)
    (h : GuardedStep cfg env limit (fun w u => u.log = w.log) w u) (hw : Balanced env limit w) :
    Balanced env limit u := by
  have hclean : ∀ by_ : Settlement, (by_.prog cfg env limit).Clean _ _ _ w :=
    fun by_ => by_.clean hlimit hw
  cases h with
  | settle by_ =>
    have hmeets := (hclean by_).run (List.not_mem_nil (a := Fault.fail))
    rw [run_nil] at hmeets
    cases hexec : (by_.prog cfg env limit).exec w with
    | mk r u =>
      rw [hexec] at hmeets
      cases r <;> exact hmeets
  | @crash by_ n fs hfs hcrash hlog =>
    have hmeets := (hclean by_).run hfs
    cases hrun : (by_.prog cfg env limit).run fs w with
    | mk r u =>
      rw [hrun] at hmeets hcrash hlog
      subst hcrash
      exact Accounted.restarted (hmeets hlog) n
  | restart n => exact hw.toAccounted.restarted n
  | missing name => exact ⟨⟨hw.time, hw.saved, hw.bound⟩, hw.recovered, hw.window⟩
  | idle n => exact hw.become n

theorem balanced_fresh (env : Surroundings) (limit : Nat) (n : Node) :
    Balanced env limit (.fresh env n) :=
  ⟨⟨rfl, Windows.covers_nil _ _, fun _ => Nat.zero_le _⟩, rfl, nofun⟩

end

/-- If no process is killed between the first deletion of a group and the end of its
settlement, no window of ten minutes holds more inferred deletions than the limit. -/
theorem deletions_within_budget (cfg : Config) (env : Surroundings) {limit : Nat}
    (hlimit : 0 < limit) (n : Node) {w : Guarded}
    (h : ReflTransGen (GuardedStep cfg env limit fun w u => u.log = w.log) (.fresh env n) w) (x : Int) :
    inside externalDeletionWindow x w.log ≤ limit := by
  have hw : Balanced env limit w :=
    (invariantFrame (Balanced env limit)).of_steps (fun _ _ hst => hst.balanced hlimit) h
      (balanced_fresh env limit n)
  exact hw.bound x

def quietSurroundings : Surroundings where
  clock t := t
  clock_mono _ _ h := Int.ofNat_le.mpr h
  moves _ n := n
  cancelled _ := false

def missingNode : Node :=
  let live (name : String) : FileMeta := { name, modTime := 5, clock := 5, hash := sha256.hash [] }
  { store := { files := (Table.empty.put (live "a")).put (live "b") } }

def missingOne (name : String) : Settlement := .sweep ((DeletionGroup.new 1).add name)

def guardedNode : Guarded := .fresh quietSurroundings missingNode

def settledNode : Guarded :=
  (((missingOne "a").prog plainConfig quietSurroundings 1).exec guardedNode).2

/-- One deletion is recorded, which is what the limit allows. -/
theorem deletions_within_budget_one :
    settledNode.log = [2] ∧ inside externalDeletionWindow 0 settledNode.log ≤ 1 :=
  ⟨by decide +kernel, deletions_within_budget plainConfig quietSurroundings Nat.zero_lt_one
    missingNode (.single (.settle _ (missingOne "a"))) 0⟩

def killed : Outcome Err Unit × Guarded :=
  ((missingOne "a").prog plainConfig quietSurroundings 1).run
    (List.replicate 24 .pass ++ [.crash]) guardedNode

def overdrawnNode : Guarded :=
  (((missingOne "b").prog plainConfig quietSurroundings 1).exec
    (killed.2.restarted quietSurroundings killed.2.node)).2

/-- Three moments after the first, a second deletion is recorded under a limit of one. -/
theorem restart_overdraws_budget :
    ReflTransGen (GuardedStep plainConfig quietSurroundings 1 fun _ _ => True) guardedNode
        overdrawnNode ∧
      overdrawnNode.log = [5, 2] ∧ inside externalDeletionWindow 0 overdrawnNode.log = 2 := by
  refine ⟨?_, by decide +kernel, by decide +kernel⟩
  refine ReflTransGen.tail (.single ?_) (.settle _ (missingOne "b"))
  exact .crash _ (missingOne "a") killed.2.node (by decide) (by decide +kernel) trivial

end BirakFormal
