import BirakFormal.Store.Index

/-!
# Rows only move forward

A local write takes a clock above every row of its namespace, so it outranks the row it
replaces. A replicated write keeps the clock it came with; it outranks the old row only
because its caller compared the two. `Sound` is the condition on a store under which both
kinds of write, and every intent left behind by an interrupted one, keep that order.
-/

namespace BirakFormal

open Tables

theorem maxStateClock_spec {rs : List FileMeta} {c : Int64} (h : maxStateClock rs = some c) :
    (∀ r ∈ rs, r.stateClock.toInt ≤ c.toInt) ∧ ∃ r ∈ rs, r.stateClock = c := by
  induction rs generalizing c with
  | nil => simp [maxStateClock] at h
  | cons r rs ih =>
    simp only [maxStateClock] at h
    split at h
    · next hnone =>
      obtain rfl := Option.some.inj h
      have hnil : rs = [] := by
        cases rs with
        | nil => rfl
        | cons r' rs => simp only [maxStateClock] at hnone; split at hnone <;> cases hnone
      simp [hnil]
    · next d hd =>
      obtain rfl := Option.some.inj h
      obtain ⟨hle, r', hr', heq⟩ := ih hd
      refine ⟨fun q hq => ?_, ?_⟩
      · rw [toInt_max]
        rcases List.mem_cons.mp hq with rfl | hq
        · exact le_max_left _ _
        · exact (hle q hq).trans (le_max_right _ _)
      · rcases le_total d.toInt r.stateClock.toInt with hdr | hdr
        · refine ⟨r, List.mem_cons_self, Int64.toInt_inj.mp ?_⟩
          rw [toInt_max, max_eq_left hdr]
        · refine ⟨r', List.mem_cons_of_mem r hr', Int64.toInt_inj.mp ?_⟩
          rw [toInt_max, max_eq_right hdr, heq]

theorem maxStateClock_none {rs : List FileMeta} (h : maxStateClock rs = none) : rs = [] := by
  cases rs with
  | nil => rfl
  | cons r rs => simp only [maxStateClock] at h; split at h <;> cases h

theorem maxBigClock_spec (rs : List FileMeta) : (maxBigClock rs = "" → ∀ r ∈ rs, r.bigClock = "") ∧
    (maxBigClock rs ≠ "" → (∃ r ∈ rs, r.bigClock = maxBigClock rs) ∧
      ∀ r ∈ rs, r.bigClock ≠ "" → compareDecimal r.bigClock (maxBigClock rs) ≠ .gt) := by
  induction rs with
  | nil => simp [maxBigClock]
  | cons r rs ih =>
    obtain ⟨ihe, ihn⟩ := ih
    simp only [maxBigClock]
    by_cases hr : r.bigClock = ""
    · rw [if_pos hr]
      refine ⟨fun h => List.forall_mem_cons.mpr ⟨hr, ihe h⟩, fun h => ?_⟩
      obtain ⟨⟨q, hq, heq⟩, hle⟩ := ihn h
      exact ⟨⟨q, List.mem_cons_of_mem r hq, heq⟩, List.forall_mem_cons.mpr ⟨fun hne => absurd hr hne, hle⟩⟩
    · rw [if_neg hr]
      by_cases hbest : maxBigClock rs = "" ∨ compareDecimal r.bigClock (maxBigClock rs) = .gt
      · rw [if_pos hbest]
        refine ⟨fun h => absurd h hr, fun _ => ⟨⟨r, List.mem_cons_self, rfl⟩, ?_⟩⟩
        refine List.forall_mem_cons.mpr ⟨fun _ => ?_, fun q hq hne => ?_⟩
        · rw [compareDecimal_eq, compare_eq_iff_eq.mpr rfl]; decide
        · rcases hbest with hb | hb
          · exact absurd (ihe hb q hq) hne
          · have hb0 : maxBigClock rs ≠ "" := by
              intro h0
              exact hne (ihe h0 q hq)
            have hq' := (ihn hb0).2 q hq hne
            rw [compareDecimal_ne_gt_iff] at hq' ⊢
            exact hq'.trans (compareDecimal_gt_iff.mp hb).le
      · rw [if_neg hbest]
        obtain ⟨hb0, hgt⟩ := not_or.mp hbest
        obtain ⟨⟨q, hq, heq⟩, hle⟩ := ihn hb0
        exact ⟨fun h => absurd h hb0, fun _ => ⟨⟨q, List.mem_cons_of_mem r hq, heq⟩,
          List.forall_mem_cons.mpr ⟨fun _ => hgt, hle⟩⟩⟩

theorem stateClock_bare (c : Int64) (b : String) : ({ clock := c, bigClock := b } : FileMeta).stateClock = c := by
  unfold FileMeta.stateClock
  split
  · rfl
  · next h => exact (not_not.mp h).symm

theorem namespaceClock_spec {files : Table FileMeta.name} {name : String} {p : FileMeta}
    (hvalid : ∀ r ∈ files.rows, ClockValid r) (h : namespaceClock files name = some p) :
    ClockValid p ∧ ∀ r ∈ files.rows, inNamespace name r = true → r.clockRank ≤ p.clockRank := by
  unfold namespaceClock at h
  simp only at h
  set rs := files.rows.filter (inNamespace name) with hrs
  have hmem : ∀ r ∈ rs, r ∈ files.rows := fun r hr => (List.mem_filter.mp hr).1
  cases hc : maxStateClock rs with
  | none => simp [hc] at h
  | some c =>
    simp only [hc, Option.some.injEq] at h
    subst h
    obtain ⟨hle, -⟩ := maxStateClock_spec hc
    obtain ⟨hempty, hbig⟩ := maxBigClock_spec rs
    refine ⟨clockValid_iff.mpr ?_, fun r hr hin => ?_⟩
    · by_cases hb : maxBigClock rs = ""
      · exact Or.inl hb
      · obtain ⟨⟨r, hr, heq⟩, -⟩ := hbig hb
        have hv := (clockValid_iff.mp (hvalid r (hmem r hr))).resolve_left (heq ▸ hb)
        refine Or.inr ⟨?_, heq ▸ hv.2.1, heq ▸ hv.2.2.1, heq ▸ hv.2.2.2.1, heq ▸ hv.2.2.2.2⟩
        have hs : r.stateClock = Int64.maxValue := by
          rw [stateClock_of_pos (by rw [hv.1]; decide), hv.1]
        have hge := hle r hr
        rw [hs] at hge
        exact Int64.toInt_inj.mp (le_antisymm (toInt_le_maxValue c) hge)
    · have hr' : r ∈ rs := List.mem_filter.mpr ⟨hr, hin⟩
      by_cases hrb : r.bigClock = ""
      · by_cases hb : maxBigClock rs = ""
        · rw [clockRank_small hrb, clockRank_small (by exact hb), stateClock_bare]
          exact Sum.Lex.inl_le_inl_iff.mpr (hle r hr')
        · exact (clockRank_small_lt_big hrb (by exact hb)).le
      · have hb : maxBigClock rs ≠ "" := fun h0 => hrb (hempty h0 r hr')
        have hcmp := (hbig hb).2 r hr' hrb
        rw [clockRank_big hrb, clockRank_big (by exact hb)]
        exact Sum.Lex.inr_le_inr_iff.mpr (compareDecimal_ne_gt_iff.mp hcmp)

/-- What every stored state satisfies: a valid clock, and only a tombstone names a winner. -/
structure StateOk (m : FileMeta) : Prop where
  clock : ClockValid m
  plain : m.deleted = false → m.supersededBy = ""

namespace Store

def InOrder (puts : List (Bool × FileMeta)) : Prop :=
  puts.Pairwise fun later earlier => later.2.name = earlier.2.name → StateLe (some earlier.2) (some later.2)

def latest (puts : List (Bool × FileMeta)) (n : String) : Option FileMeta :=
  (puts.find? fun p => p.2.name = n).map Prod.snd

structure Sound (s : Store) : Prop where
  rows_ok : ∀ n r, s.getFile n = some r → StateOk r
  intents_ok : ∀ n m, s.replicaIntent n = some m → StateOk m
  intents_ahead : ∀ n m, s.replicaIntent n = some m → StateLe (s.getFile n) (some m)
  puts_latest : ∀ n, s.getFile n = latest s.puts n
  puts_inOrder : InOrder s.puts

def Forward (s t : Store) : Prop := ∀ n, StateLe (s.getFile n) (t.getFile n)

theorem Forward.refl (s : Store) : s.Forward s := fun _ => stateLe_iff.mpr le_rfl

theorem Forward.trans {s t u : Store} (h : s.Forward t) (h' : t.Forward u) : s.Forward u :=
  fun n => stateLe_iff.mpr ((stateLe_iff.mp (h n)).trans (stateLe_iff.mp (h' n)))

theorem sound_empty : ({} : Store).Sound := ⟨nofun, nofun, nofun, fun _ => rfl, List.Pairwise.nil⟩

theorem Sound.congr {s t : Store} (h : s.Sound) (hf : ∀ n, t.getFile n = s.getFile n)
    (hi : ∀ n, t.replicaIntent n = s.replicaIntent n) (hp : t.puts = s.puts) : t.Sound where
  rows_ok n r hr := h.rows_ok n r (hf n ▸ hr)
  intents_ok n m hm := h.intents_ok n m (hi n ▸ hm)
  intents_ahead n m hm := hf n ▸ h.intents_ahead n m (hi n ▸ hm)
  puts_latest n := (hf n).trans (hp ▸ h.puts_latest n)
  puts_inOrder := hp ▸ h.puts_inOrder

theorem latest_ge {puts : List (Bool × FileMeta)} (h : InOrder puts) {p : Bool × FileMeta}
    (hp : p ∈ puts) : StateLe (some p.2) (latest puts p.2.name) := by
  induction puts with
  | nil => cases hp
  | cons q puts ih =>
    obtain ⟨hq, hrest⟩ := List.pairwise_cons.mp h
    unfold latest
    rw [List.find?_cons]
    by_cases hname : q.2.name = p.2.name
    · rw [decide_eq_true hname]
      rcases List.mem_cons.mp hp with rfl | hp
      · exact stateLe_iff.mpr le_rfl
      · exact hq p hp hname
    · rw [decide_eq_false hname]
      rcases List.mem_cons.mp hp with rfl | hp
      · exact absurd rfl hname
      · exact ih hrest hp

variable {s : Store}

theorem Sound.mem_valid (h : s.Sound) : ∀ r ∈ s.files.rows, ClockValid r :=
  fun r hr => (h.rows_ok r.name r (Table.mem_rows_iff.mp hr)).clock

variable {m : FileMeta}

theorem committedRow_ok (h : s.Sound) (hm : StateOk m) (isLocal : Bool) : StateOk (s.committedRow m isLocal) := by
  cases isLocal with
  | false => exact ⟨hm.clock, hm.plain⟩
  | true =>
    refine ⟨advanceClock_valid hm.clock fun p hp => (namespaceClock_spec h.mem_valid hp).1, ?_⟩
    obtain ⟨c, b, hadv⟩ := advanceClock_eq m (namespaceClock s.files m.name)
    simpa [committedRow, hadv] using hm.plain

theorem committedRow_local_clock (h : ∀ r ∈ s.files.rows, ClockValid r) {m r : FileMeta}
    (hr : r ∈ s.files.rows) (hin : inNamespace m.name r = true) :
    r.clockRank < (s.committedRow m true).clockRank := by
  cases hp : namespaceClock s.files m.name with
  | none =>
    have hnil : s.files.rows.filter (inNamespace m.name) = [] := by
      unfold namespaceClock at hp
      simp only at hp
      split at hp
      · next hnone => exact maxStateClock_none hnone
      · cases hp
    have hmem : r ∈ s.files.rows.filter (inNamespace m.name) := List.mem_filter.mpr ⟨hr, hin⟩
    rw [hnil] at hmem
    cases hmem
  | some p =>
    obtain ⟨hvalid, hle⟩ := namespaceClock_spec h hp
    have hgt := advanceClock_gt (f := m) hvalid
    have hrow : (s.committedRow m true).clockRank = (advanceClock m (some p)).clockRank := by
      simp only [committedRow, if_true, hp]
      rfl
    rw [hrow]
    exact (hle r hr hin).trans_lt hgt

theorem committedRow_local_gt (h : s.Sound) {m r : FileMeta}
    (hr : r ∈ s.files.rows) (hin : inNamespace m.name r = true) :
    r.rank < (s.committedRow m true).rank :=
  rank_lt_of_clockRank (committedRow_local_clock h.mem_valid hr hin)

theorem stateLe_committedRow_local (h : s.Sound) (m : FileMeta) :
    stateRank (s.getFile m.name) < stateRank (some (s.committedRow m true)) := by
  cases hr : s.getFile m.name with
  | none => exact WithBot.bot_lt_coe _
  | some r =>
    refine WithBot.coe_lt_coe.mpr (committedRow_local_gt h (Table.find_mem hr) ?_)
    simp [inNamespace, getFile_name hr]

variable {fold : String → String}

theorem commitPut_sound {s s' : Store} {isLocal : Bool}
    {v : Int} (h : s.Sound) (hplain : m.deleted = false → m.supersededBy = "")
    (hput : s.commitPut fold m isLocal = .ok (v, s'))
    (hle : stateRank (s.getFile m.name) ≤ stateRank (some (s.committedRow m isLocal))) :
    s'.Sound ∧ s.Forward s' := by
  obtain ⟨names, -, hm, hs'⟩ := commitPut_ok hput
  have hf := getFile_commitPut hput
  have hi := replicaIntent_commitPut hput
  have hputs : s'.puts = (isLocal, s.committedRow m isLocal) :: s.puts := by rw [hs']
  refine ⟨⟨fun n r hr => ?_, fun n i hn => ?_, fun n i hn => ?_, fun n => ?_, ?_⟩, fun n => ?_⟩
  · rw [hf] at hr
    split at hr
    · exact Option.some.inj hr ▸ committedRow_ok h ⟨hm, hplain⟩ isLocal
    · exact h.rows_ok n r hr
  · rw [hi] at hn
    split at hn
    · cases hn
    · exact h.intents_ok n i hn
  · rw [hi] at hn
    split at hn
    · cases hn
    · next hne => rw [hf, if_neg hne]; exact h.intents_ahead n i hn
  · rw [hf, hputs, latest, List.find?_cons, committedRow_name]
    by_cases hn : n = m.name
    · rw [if_pos hn, decide_eq_true hn.symm]
      rfl
    · rw [if_neg hn, decide_eq_false fun he => hn he.symm]
      exact h.puts_latest n
  · rw [hputs]
    refine List.pairwise_cons.mpr ⟨fun p hp hname => ?_, h.puts_inOrder⟩
    have hge := latest_ge h.puts_inOrder hp
    rw [← hname, committedRow_name, ← h.puts_latest] at hge
    exact stateLe_iff.mpr ((stateLe_iff.mp hge).trans hle)
  · rw [hf]
    split
    · next heq => subst heq; exact stateLe_iff.mpr hle
    · exact stateLe_iff.mpr le_rfl

theorem putLocal_sound {s s' : Store} {v : Int}
    (h : s.Sound) (hs : m.supersededBy = "") (hput : s.commitPut fold m true = .ok (v, s')) :
    s'.Sound ∧ s.Forward s' :=
  commitPut_sound h (fun _ => hs) hput (stateLe_committedRow_local h m).le

theorem putRemote_sound {s s' : Store} {v : Int}
    (h : s.Sound) (hm : StateOk m) (hput : s.commitPut fold m false = .ok (v, s'))
    (hle : StateLe (s.getFile m.name) (some m)) : s'.Sound ∧ s.Forward s' := by
  have hrank := stateLe_iff.mp hle
  exact commitPut_sound h hm.plain hput hrank

theorem stageReplica_sound (h : s.Sound) (hm : StateOk m)
    (hle : StateLe (s.getFile m.name) (some m)) : (s.stageReplica m).Sound where
  rows_ok := h.rows_ok
  puts_latest := h.puts_latest
  puts_inOrder := h.puts_inOrder
  intents_ok n i hn := by
    rw [replicaIntent_stageReplica] at hn
    split at hn
    · exact Option.some.inj hn ▸ hm
    · exact h.intents_ok n i hn
  intents_ahead n i hn := by
    rw [replicaIntent_stageReplica] at hn
    split at hn
    · next heq => subst heq; exact Option.some.inj hn ▸ hle
    · exact h.intents_ahead n i hn

theorem clearReplicaIntent_sound (h : s.Sound) (name : String) : (s.clearReplicaIntent name).Sound where
  rows_ok := h.rows_ok
  puts_latest := h.puts_latest
  puts_inOrder := h.puts_inOrder
  intents_ok n i hn := by
    rw [replicaIntent_clearReplicaIntent] at hn
    split at hn
    · cases hn
    · exact h.intents_ok n i hn
  intents_ahead n i hn := by
    rw [replicaIntent_clearReplicaIntent] at hn
    split at hn
    · cases hn
    · exact h.intents_ahead n i hn

end Store

end BirakFormal
