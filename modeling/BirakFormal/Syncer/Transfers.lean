import BirakFormal.Store.Sha256
import BirakFormal.Syncer.Apply
import BirakFormal.Syncer.Partial

/-!
# Transfers publish verified bytes

Wherever an attempt stops, the hash under way has been fed exactly the leading bytes of the
scratch file up to the offset, and a recorded prefix lies within what is flushed. So a file
that is renamed over its destination has the size and the hash it was announced with, and a
transfer that is picked up again starts from a checkpoint.
-/

namespace BirakFormal

open Interruption Prog Tables Relation

namespace Transfers

variable (s : Transfers) (path q : String)

@[simp] theorem file_edit (g : Flushing.Flushed UInt8 → Flushing.Flushed UInt8) :
    (s.edit path g).file q = if q = path then (s.file path).map g else s.file q := by
  unfold edit file
  cases h : s.files.find path with
  | none =>
    dsimp only
    split
    · next heq =>
      rw [heq, h]
      rfl
    · rfl
  | some x =>
    dsimp only
    rw [Table.find_put, Table.find_key h]
    split
    · rfl
    · rfl

@[simp] theorem file_link : (s.link path).file q = s.file q := by
  unfold link file
  cases h : s.files.find path with
  | none => rfl
  | some x =>
    dsimp only
    rw [Table.find_put, Table.find_key h]
    split
    · next heq =>
      rw [heq, h]
      rfl
    · rfl

end Transfers

theorem file_erase (s : Transfers) (path q : String) :
    ({ s with files := s.files.erase path } : Transfers).file q = if q = path then none else s.file q := by
  unfold Transfers.file
  dsimp only
  rw [Table.find_erase]
  split
  · rfl
  · rfl

section
variable (digest : Digest)

def Fed (s : Transfers) (st : Stage) : Prop :=
  ∃ f, s.file st.path = some f ∧ st.offset ≤ f.content.length ∧
    st.hasher = f.content.take st.offset ∧ st.offset ≤ st.position

structure Kept (s : Transfers) : Prop where
  hashed : ∀ st, s.stage = some st → Fed s st
  same : ∀ r, s.partials = some r → s.record = some r
  drawn : ∀ r, s.record = some r → r.path ∈ s.drawn
  backed : ∀ r, s.record = some r → ∀ f, s.file r.path = some f →
    r.verified ≤ f.content.length → r.verified ≤ f.flushed
  named : ∀ st, s.stage = some st → st.path ∈ s.drawn
  owned : ∀ st, s.stage = some st → ∀ r, s.record = some r → r.path = st.path →
    st.recorded = true ∧ r.verified ≤ st.offset
  published : ∀ p ∈ s.published, (p.2.length : Int) = p.1.size ∧ digest.hash p.2 = p.1.hash

def Tight (s : Transfers) : Prop :=
  ∃ st f, s.stage = some st ∧ s.file st.path = some f ∧ f.content.length = st.offset ∧ st.position = st.offset

def Still (s t : Transfers) : Prop := Kept digest s → Kept digest t ∧ (Tight s → Tight t)

theorem stillFrame : Frame (Still digest) where
  refl := fun _ h => ⟨h, id⟩
  trans := fun h h' hs => ⟨(h' (h hs).1).1, fun ht => (h' (h hs).1).2 ((h hs).2 ht)⟩

variable {digest} {s : Transfers}

theorem still_fsync {st : Stage} (hst : s.stage = some st) :
    Still digest s (s.edit st.path Flushing.Flushed.sync) := by
  intro h
  refine ⟨⟨?_, h.same, h.drawn, ?_, h.named, h.owned, h.published⟩, ?_⟩
  · intro st' hst'
    obtain rfl : st = st' := Option.some.inj (hst.symm.trans hst')
    obtain ⟨f, hf, hrest⟩ := h.hashed st hst
    exact ⟨f.sync, by simp [hf], hrest⟩
  · intro r hr f hf hle
    rw [Transfers.file_edit] at hf
    split at hf
    · obtain ⟨f', hf', rfl⟩ := Option.map_eq_some_iff.mp hf
      exact hle
    · exact h.backed r hr f hf hle
  · rintro ⟨st', f, hst', hf, hrest⟩
    obtain rfl : st = st' := Option.some.inj (hst.symm.trans hst')
    exact ⟨st, f.sync, hst, by simp [hf], hrest⟩

theorem still_bookkeeping {t : Transfers} {st st' : Stage} (hst : s.stage = some st)
    (hst' : t.stage = some st') (hfile : ∀ q, t.file q = s.file q) (hpath : st'.path = st.path)
    (hposition : st'.position = st.position) (hoffset : st'.offset = st.offset)
    (hhasher : st'.hasher = st.hasher) (hdrawn : t.drawn = s.drawn)
    (hpublished : t.published = s.published) (h : Kept digest s)
    (hsame : ∀ r, t.partials = some r → t.record = some r)
    (hnamed : ∀ r, t.record = some r → r.path ∈ s.drawn)
    (hbacked : ∀ r, t.record = some r → ∀ f, s.file r.path = some f →
      r.verified ≤ f.content.length → r.verified ≤ f.flushed)
    (howned : ∀ r, t.record = some r → r.path = st.path → st'.recorded = true ∧ r.verified ≤ st.offset) :
    Kept digest t ∧ (Tight s → Tight t) := by
  refine ⟨⟨?_, hsame, ?_, ?_, ?_, ?_, ?_⟩, ?_⟩
  · intro x hx
    obtain rfl : st' = x := Option.some.inj (hst'.symm.trans hx)
    unfold Fed
    rw [hfile, hpath, hposition, hoffset, hhasher]
    exact h.hashed st hst
  · rw [hdrawn]
    exact hnamed
  · intro r hr f
    rw [hfile]
    exact hbacked r hr f
  · intro x hx
    obtain rfl : st' = x := Option.some.inj (hst'.symm.trans hx)
    rw [hdrawn, hpath]
    exact h.named st hst
  · intro x hx r hr
    obtain rfl : st' = x := Option.some.inj (hst'.symm.trans hx)
    rw [hpath, hoffset]
    exact howned r hr
  · rw [hpublished]
    exact h.published
  · rintro ⟨x, f, hx, hf, hlength, hpos⟩
    obtain rfl : st = x := Option.some.inj (hst.symm.trans hx)
    refine ⟨st', f, hst', ?_, ?_, ?_⟩
    · rw [hfile, hpath]
      exact hf
    · rw [hoffset]
      exact hlength
    · rw [hposition, hoffset]
      exact hpos

def Synced (s : Transfers) : Prop :=
  ∀ st f, s.stage = some st → s.file st.path = some f → f.flushed = f.content.length

theorem safe_onStage {g : Stage → Transfers → Transfers} {J : Transfers → Prop}
    {Q : Unit → Transfers → Prop} (h : J s) (hnone : s.stage = none → Q () s)
    (hsome : ∀ st, s.stage = some st → Q () (g st s)) : (onStage g).Safe J Q s := by
  refine safe_alter h ?_
  split
  · next st hst => exact hsome st hst
  · next hst => exact hnone hst

theorem synced_of_no_stage (h : s.stage = none) : Synced s :=
  fun _ _ hst => absurd (h.symm.trans hst) nofun

theorem fsyncStage_safe :
    fsyncStage.Safe (Still digest s) (fun _ t => Still digest s t ∧ Synced t ∧ t.stage = s.stage) s := by
  have hrefl := (stillFrame digest).refl s
  refine safe_onStage hrefl (fun hnone => ⟨hrefl, synced_of_no_stage hnone, rfl⟩) fun st hst => ?_
  refine ⟨still_fsync hst, fun st' f hst' hf => ?_, rfl⟩
  obtain rfl : st = st' := Option.some.inj (hst.symm.trans hst')
  rw [Transfers.file_edit, if_pos rfl] at hf
  obtain ⟨f', -, rfl⟩ := Option.map_eq_some_iff.mp hf
  rfl

theorem checkpoint_still : (checkpoint digest).Within (Still digest) := by
  intro s
  have F := stillFrame digest
  refine Safe.bind fsyncStage_safe fun _ t ht => ?_
  obtain ⟨hst, hsynced, -⟩ := ht
  refine safe_look_bind hst (Safe.bind (R := fun _ t => Still digest s t ∧ Synced t)
    (safe_onlyIf (fun _ => ?_) fun _ => ⟨hst, hsynced⟩) fun _ u hu => ?_)
  · refine safe_onStage hst (fun _ => ⟨hst, hsynced⟩) fun st hstage => ⟨F.trans hst fun ht => ?_, ?_⟩
    · refine still_bookkeeping hstage rfl (fun q => t.file_link st.path q) rfl rfl rfl rfl rfl rfl
        ht ht.same ht.drawn ht.backed ?_
      exact fun r hr hpath => ht.owned st hstage r hr hpath
    · intro st' f hst' hf
      obtain rfl := Option.some.inj hst'
      exact hsynced st f hstage (t.file_link st.path st.path ▸ hf)
  · refine safe_onStage hu.1 (fun _ => hu.1) fun st hstage => F.trans hu.1 fun hk => ?_
    obtain ⟨f, hf, hoffset, -, -⟩ := hk.hashed st hstage
    refine still_bookkeeping hstage rfl (fun _ => rfl) rfl rfl rfl rfl rfl rfl hk
      (fun r hr => hr) (fun r hr => ?_) (fun r hr f' hf' _ => ?_) fun r hr _ => ?_
    · cases hr
      exact hk.named st hstage
    · cases hr
      rw [hu.2 st f' hstage hf']
      rw [hf] at hf'
      cases hf'
      exact hoffset
    · cases hr
      exact ⟨rfl, le_rfl⟩

variable {f : Flushing.Flushed UInt8}

theorem Kept.append (h : Kept digest s) {st st' : Stage} {p : Bytes}
    (hst : s.stage = some st) (hf : s.file st.path = some f) (hlength : f.content.length = st.offset)
    (hpos : st.position = st.offset) (hpath : st'.path = st.path)
    (hrecorded : st'.recorded = st.recorded) (hle : st.offset ≤ st'.offset)
    (hle' : st'.offset ≤ (f.content ++ p).length) (hposition : st'.offset ≤ st'.position)
    (hhasher : st'.hasher = (f.content ++ p).take st'.offset) :
    Kept digest { s.edit st.path (·.writeAt st.position p) with stage := some st' } := by
  have hfile : ∀ q, ({ s.edit st.path (·.writeAt st.position p) with stage := some st' } :
      Transfers).file q = if q = st.path then some (f.writeAt st.position p) else s.file q := by
    intro q
    change (s.edit st.path (·.writeAt st.position p)).file q = _
    rw [Transfers.file_edit, hf]
    rfl
  have hcontent : (f.writeAt st.position p).content = f.content ++ p :=
    Flushing.Flushed.content_writeAt_end (hpos.trans hlength.symm)
  refine ⟨?_, h.same, h.drawn, ?_, ?_, ?_, h.published⟩
  · intro x hx
    cases hx
    refine ⟨_, (hfile _).trans (if_pos hpath), ?_, ?_, hposition⟩
    · rw [hcontent]
      exact hle'
    · rw [hcontent]
      exact hhasher
  · intro r hr g hg _
    rw [hfile] at hg
    split at hg
    · next heq =>
      -- The recorded prefix lies before the write.
      obtain ⟨-, hver⟩ := h.owned st hst r hr heq
      have hflushed := h.backed r hr f (heq ▸ hf) (hver.trans hlength.ge)
      cases hg
      exact le_min hflushed (hpos ▸ hver)
    · exact h.backed r hr g hg ‹_›
  · intro x hx
    cases hx
    rw [hpath]
    exact h.named st hst
  · intro x hx r hr heq
    cases hx
    obtain ⟨hrec, hver⟩ := h.owned st hst r hr (heq.trans hpath)
    exact ⟨hrecorded.trans hrec, hver.trans hle⟩

theorem fileWrite_safe (p : Bytes) (short : Option Nat) (h : Kept digest s) (ht : Tight s) :
    (fileWrite p short).Safe (Kept digest) (fun _ t => Kept digest t ∧ Tight t) s := by
  obtain ⟨st, f, hst, hf, hlength, hpos⟩ := ht
  obtain ⟨f', hf', -, hhasher, -⟩ := h.hashed st hst
  obtain rfl : f = f' := Option.some.inj (hf.symm.trans hf')
  rw [← hlength, List.take_length] at hhasher
  refine safe_perform h (fun a t hrun => ?_) fun e t hrun => ?_
  · rw [hst] at hrun
    cases short with
    | some n => cases hrun
    | none =>
      cases hrun
      have hend : (f.content ++ p).length = st.offset + p.length := by
        rw [List.length_append, hlength]
      refine ⟨h.append hst hf hlength hpos rfl rfl (Nat.le_add_right _ _) hend.ge ?_ ?_, ?_⟩
      · exact (congrArg (· + p.length) hpos).ge
      · dsimp only
        rw [← hend, List.take_length, hhasher]
      · refine ⟨_, f.writeAt st.position p, rfl, ?_, ?_, congrArg (· + p.length) hpos⟩
        · change (s.edit st.path (·.writeAt st.position p)).file st.path = _
          rw [Transfers.file_edit, if_pos rfl, hf]
          rfl
        · rw [Flushing.Flushed.content_writeAt_end (hpos.trans hlength.symm)]
          exact hend
  · rw [hst] at hrun
    cases short with
    | none => cases hrun
    | some n =>
      cases hrun
      refine h.append hst hf hlength hpos rfl rfl le_rfl ?_ ?_ ?_
      · rw [List.length_append, hlength]
        exact Nat.le_add_right _ _
      · exact hpos.ge.trans (Nat.le_add_right _ _)
      · rw [← hlength, List.take_append_length, hhasher]

theorem write_safe (limits : TransferLimits) (p : Bytes) (short : Option Nat) (h : Kept digest s)
    (ht : Tight s) : (Stage.write digest limits p short).Safe (Kept digest)
      (fun _ t => Kept digest t ∧ Tight t) s := by
  refine Safe.bind (fileWrite_safe p short h ht) fun _ t ht => safe_look_bind ht.1 ?_
  refine safe_onlyIf (fun _ => ?_) fun _ => ht
  have hstill : (checkpoint digest).attempt.Within (Still digest) := checkpoint_still.attempt
  refine Safe.bind (R := fun _ u => Kept digest u ∧ Tight u) ((hstill t).mono ?_ ?_) fun _ _ hu => hu
  · exact fun u hu => (hu ht.1).1
  · exact fun _ u hu => ⟨(hu ht.1).1, (hu ht.1).2 ht.2⟩

theorem receiveBody_safe (limits : TransferLimits) (body : List BodyRead) (h : Kept digest s)
    (ht : Tight s) : (receiveBody digest limits body).Safe (Kept digest)
      (fun _ t => Kept digest t ∧ Tight t) s := by
  induction body generalizing s with
  | nil => exact ⟨h, ht⟩
  | cons r rest ih =>
    cases r with
    | failed => exact safe_raise h
    | data p short =>
      unfold receiveBody
      split
      · exact ih h ht
      · refine safe_look_bind h ?_
        split
        · exact safe_raise h
        · refine Safe.bind (write_safe limits p short h ht).attempt fun r t hr => ?_
          cases r with
          | error e => exact safe_raise hr
          | ok _ => exact ih hr.1 hr.2

theorem still_dropped : Still digest s s.dropped := by
  intro h
  cases hst : s.stage with
  | none =>
    have hnone : s.dropped.stage = none := congrArg (Option.map _) hst
    refine ⟨⟨?_, nofun, nofun, nofun, ?_, ?_, h.published⟩, ?_⟩
    · exact fun st hst' => absurd (hnone.symm.trans hst') nofun
    · exact fun st hst' => absurd (hnone.symm.trans hst') nofun
    · exact fun st hst' => absurd (hnone.symm.trans hst') nofun
    · rintro ⟨st, f, hst', -⟩
      exact absurd (hst.symm.trans hst') nofun
  | some st =>
    have hsome : s.dropped.stage = some { st with recorded := false } := congrArg (Option.map _) hst
    exact still_bookkeeping hst hsome (fun _ => rfl) rfl rfl rfl rfl rfl rfl h nofun nofun nofun nofun

theorem still_dropRecord : dropRecord.Within (Still digest) :=
  (stillFrame digest).alter fun _ => still_dropped

theorem still_forgetPartial : forgetPartial.Within (Still digest) := by
  refine (stillFrame digest).alter fun s h => ⟨?_, id⟩
  exact ⟨h.hashed, nofun, h.drawn, h.backed, h.named, h.owned, h.published⟩

theorem still_forgetRecord : forgetRecord.Within (Still digest) := by
  have F := stillFrame digest
  refine F.bind still_dropRecord.attempt fun r => ?_
  cases r with
  | ok _ => exact F.pure _
  | error _ => exact still_forgetPartial

theorem Kept.erase (h : Kept digest s) (path : String) :
    Kept digest { s with files := s.files.erase path, stage := none } := by
  refine ⟨nofun, h.same, h.drawn, ?_, nofun, nofun, h.published⟩
  intro r hr f hf
  have hf' := (file_erase s path r.path).symm.trans hf
  split at hf'
  · cases hf'
  · exact h.backed r hr f hf'

theorem Kept.emptied (h : Kept digest s) {st : Stage} (hst : s.stage = some st)
    (hfree : ∀ r, s.record = some r → r.path ≠ st.path) :
    Kept digest { s.edit st.path (·.truncate 0) with
        stage := some { st with position := 0, offset := 0, checkpointed := 0, hasher := [] } } ∧
      Tight { s.edit st.path (·.truncate 0) with
        stage := some { st with position := 0, offset := 0, checkpointed := 0, hasher := [] } } := by
  obtain ⟨f, hf, -⟩ := h.hashed st hst
  have hfile : ∀ q, (s.edit st.path (·.truncate 0)).file q =
      if q = st.path then some (f.truncate 0) else s.file q := by
    intro q
    rw [Transfers.file_edit, hf]
    rfl
  have hself : (s.edit st.path (·.truncate 0)).file st.path = some (f.truncate 0) :=
    (hfile _).trans (if_pos rfl)
  refine ⟨⟨?_, h.same, h.drawn, ?_, ?_, ?_, h.published⟩, ?_⟩
  · intro x hx
    obtain rfl := Option.some.inj hx
    exact ⟨f.truncate 0, hself, Nat.zero_le _, rfl, le_rfl⟩
  · intro r hr g hg
    have hg := (hfile r.path).symm.trans hg
    rw [if_neg (hfree r hr)] at hg
    exact h.backed r hr g hg
  · intro x hx
    obtain rfl := Option.some.inj hx
    exact h.named st hst
  · intro x hx r hr hpath
    obtain rfl := Option.some.inj hx
    exact absurd hpath (hfree r hr)
  · exact ⟨_, f.truncate 0, rfl, hself, rfl, rfl⟩

theorem restart_safe (h : Kept digest s) (hs : s.stage.isSome = true) :
    Stage.restart.Safe (Kept digest) (fun _ t => Kept digest t ∧ Tight t) s := by
  refine safe_look_bind h (Safe.bind (R := fun _ t => Kept digest t ∧ t.stage.isSome = true ∧
    ∀ st, t.stage = some st → ∀ r, t.record = some r → r.path ≠ st.path)
    (safe_onlyIf (fun _ => ?_) fun hrec => ?_) fun _ t ht => ?_)
  · refine safe_alter h ⟨(still_dropped h).1, Option.isSome_map.trans hs, ?_⟩
    exact fun st _ r hr => absurd hr nofun
  · refine ⟨h, hs, fun st hst r hr hpath => ?_⟩
    have hown := (h.owned st hst r hr hpath).1
    rw [hst] at hrec
    exact absurd (hown.symm.trans hrec) nofun
  · obtain ⟨hk, hsome, hfree⟩ := ht
    refine safe_onStage hk (fun hnone => ?_) fun st hst => hk.emptied hst (hfree st hst)
    rw [hnone] at hsome
    cases hsome

theorem discard_safe (h : Kept digest s) :
    Stage.discard.Safe (Kept digest) (fun _ => Kept digest) s := by
  refine Safe.bind (R := fun _ t => t = s) (safe_attempt ⟨h, rfl, rfl⟩) ?_
  rintro _ t rfl
  refine safe_look_bind h ?_
  split
  · exact safe_pure h
  · next st hst =>
    have hforget : ((onlyIf st.recorded forgetRecord).attempt).Within (Still digest) :=
      ((stillFrame digest).onlyIf still_forgetRecord).attempt
    refine Safe.bind (hforget.safe fun u hu => (hu h).1) fun _ u hu => ?_
    exact Safe.bind (R := fun _ => Kept digest) (safe_attempt ⟨hu, hu, hu.erase _⟩) fun _ _ hv => hv

theorem release_safe (invalid : Bool) (h : Kept digest s) :
    (Stage.release digest invalid).Safe (Kept digest) (fun _ => Kept digest) s := by
  refine safe_look_bind h ?_
  split
  · exact safe_pure h
  · split
    · split
      · have hstill : (checkpoint digest).attempt.Within (Still digest) := checkpoint_still.attempt
        refine Safe.bind (hstill.safe fun u hu => (hu h).1) fun r u hu => ?_
        cases r with
        | ok _ => exact hu
        | error _ => exact discard_safe hu
      · exact safe_pure h
    · exact discard_safe h

theorem hashPrefix_safe (limits : TransferLimits) {path : String}
    (hf : s.file path = some f) {fuel n pos : Nat} (hfuel : n ≤ fuel) (hasher : Bytes) :
    (hashPrefix limits path fuel n pos hasher).Safe (fun t => t = s)
      (fun a t => t = s ∧ a = hasher ++ (f.content.drop pos).take n) s := by
  induction fuel generalizing n pos hasher with
  | zero =>
    obtain rfl : n = 0 := by omega
    exact ⟨rfl, by simp⟩
  | succ fuel ih =>
    unfold hashPrefix
    split
    · next hn =>
      subst hn
      exact ⟨rfl, by simp⟩
    · next hn =>
      have hbuffer := limits.buffer_pos
      refine safe_barrier_bind rfl (safe_look_bind rfl ?_)
      rw [hf]
      dsimp only [Option.map_some, Option.getD_some]
      split
      · exact safe_raise rfl
      · refine (ih (by omega) _).imp fun a t ht => ⟨ht.1, ?_⟩
        rw [ht.2, List.append_assoc, ← List.drop_drop, ← List.take_add]
        congr 2
        omega

/-- The scratch file holds the recorded prefix and nothing else, all of it flushed. -/
def Resumed (digest : Digest) (s : Transfers) (st : Stage) : Prop :=
  ∃ record f, s.record = some record ∧ record.path = st.path ∧ s.file st.path = some f ∧
    st.offset = record.verified ∧ f.content.length = record.verified ∧
    digest.hash f.content = record.prefixHash ∧ record.verified ≤ f.flushed

def Idle (digest : Digest) (s : Transfers) : Prop := Kept digest s ∧ s.stage = none

variable {record : PartialDownload}

theorem Idle.cut (h : Idle digest s) (hrecord : s.record = some record) (hf : s.file record.path = some f)
    (hle : record.verified ≤ f.content.length) :
    Idle digest (s.edit record.path (·.truncate record.verified)) := by
  obtain ⟨hk, hstage⟩ := h
  refine ⟨⟨?_, hk.same, hk.drawn, ?_, ?_, ?_, hk.published⟩, hstage⟩
  · exact fun st hst => absurd (hstage.symm.trans hst) nofun
  · intro r hr g hg _
    obtain rfl : record = r := Option.some.inj (hrecord.symm.trans hr)
    rw [Transfers.file_edit, if_pos rfl, hf] at hg
    cases hg
    exact le_min (hk.backed record hrecord f hf hle) le_rfl
  · exact fun st hst => absurd (hstage.symm.trans hst) nofun
  · exact fun st hst => absurd (hstage.symm.trans hst) nofun

theorem Idle.reopened (h : Idle digest s) (hrecord : s.record = some record) (hf : s.file record.path = some f)
    (hlength : f.content.length = record.verified) (st : Stage) (hpath : st.path = record.path)
    (hposition : st.position = record.verified) (hoffset : st.offset = record.verified)
    (hhasher : st.hasher = f.content) (hrec : st.recorded = true) :
    Kept digest { s with stage := some st } ∧ Tight { s with stage := some st } := by
  obtain ⟨hk, -⟩ := h
  refine ⟨⟨?_, hk.same, hk.drawn, hk.backed, ?_, ?_, hk.published⟩, ?_⟩
  · intro x hx
    obtain rfl := Option.some.inj hx
    refine ⟨f, hpath ▸ hf, ?_, ?_, ?_⟩
    · rw [hoffset, hlength]
    · rw [hoffset, ← hlength, List.take_length]
      exact hhasher
    · rw [hoffset, hposition]
  · intro x hx
    obtain rfl := Option.some.inj hx
    exact hpath ▸ hk.drawn record hrecord
  · intro x hx r hr _
    obtain rfl := Option.some.inj hx
    obtain rfl : record = r := Option.some.inj (hrecord.symm.trans hr)
    exact ⟨hrec, hoffset.ge⟩
  · exact ⟨st, f, rfl, hpath ▸ hf, hlength.trans hoffset.symm, hposition.trans hoffset.symm⟩

theorem resumeStage_safe (limits : TransferLimits) (m : FileMeta)
    (h : Idle digest s) (hrecord : s.record = some record) :
    (resumeStage digest limits record m).Safe (Idle digest)
      (fun _ t => Kept digest t ∧ Tight t ∧ ∀ st, t.stage = some st → Resumed digest t st) s := by
  have hopen : (openPartialFile record.path).Safe (Idle digest) (fun size t => t = s ∧
      ∃ f, s.file record.path = some f ∧ size = f.content.length) s := by
    unfold openPartialFile
    split
    · exact safe_raise h
    · refine safe_check h fun size hsize => ⟨rfl, ?_⟩
      split at hsize
      · next f hf =>
        cases hsize
        exact ⟨f, hf, rfl⟩
      · cases hsize
  refine Safe.bind hopen ?_
  rintro size t ⟨rfl, f, hf, rfl⟩
  split
  · exact safe_raise h
  · next hsize =>
    have hle : record.verified ≤ f.content.length := by
      simp only [not_or, not_lt] at hsize
      exact hsize.2.2
    refine Safe.bind ((hashPrefix_safe limits hf le_rfl []).mono (fun _ hu => hu ▸ h) fun _ _ => id) ?_
    rintro hasher u ⟨rfl, rfl⟩
    rw [List.nil_append, List.drop_zero]
    split
    · exact safe_raise h
    · next hhash =>
      -- Anything beyond the checkpoint goes before the stage is there.
      have hcut := h.cut hrecord hf hle
      refine safe_alter_bind h ?_
      refine safe_alter hcut ?_
      have hfile : (u.edit record.path (·.truncate record.verified)).file record.path =
          some (f.truncate record.verified) := by
        rw [Transfers.file_edit, if_pos rfl, hf]
        rfl
      have hlength : (f.truncate record.verified).content.length = record.verified := by
        change (f.content.take record.verified).length = _
        rw [List.length_take]
        omega
      obtain ⟨hkept, htight⟩ := hcut.reopened hrecord hfile hlength {
        fileMeta := m, path := record.path, position := record.verified, offset := record.verified,
        checkpointed := record.verified, hasher := f.content.take record.verified,
        resumable := true, recorded := true, dirSynced := true } rfl rfl rfl rfl rfl
      refine ⟨hkept, htight, fun st hst => ?_⟩
      obtain rfl := Option.some.inj hst
      refine ⟨record, _, hrecord, rfl, hfile, rfl, hlength, not_not.mp hhash, ?_⟩
      exact hcut.1.backed record hrecord _ hfile hlength.ge

theorem Idle.dropped (h : Idle digest s) : Idle digest s.dropped :=
  ⟨(still_dropped h.1).1, congrArg (Option.map _) h.2⟩

theorem Idle.erase (h : Idle digest s) (path : String) :
    Idle digest { s with files := s.files.erase path } := by
  have hk := h.1.erase path
  rw [← h.2] at hk
  exact ⟨hk, h.2⟩

theorem dropPartial_safe (record : PartialDownload) (h : Idle digest s) :
    (dropPartial record).Safe (Idle digest) (fun _ => Idle digest) s := by
  refine Safe.bind (R := fun _ => Idle digest) (safe_attempt ⟨h, h, h.dropped⟩) fun r t ht => ?_
  cases r with
  | error _ => exact safe_pure ht
  | ok _ =>
    dsimp only
    split
    · exact Safe.bind (R := fun _ => Idle digest) (safe_attempt ⟨ht, ht, ht.erase _⟩) fun _ _ hu => hu
    · exact safe_pure ht

theorem resumableStage_safe (limits : TransferLimits) (m : FileMeta) (cancelled : Bool) (h : Idle digest s) :
    (resumableStage digest limits m cancelled).Safe (Idle digest) (fun _ t => Kept digest t ∧
      (t.stage = none ∨ Tight t) ∧ ∀ st, t.stage = some st → Resumed digest t st) s := by
  have hidle : ∀ t, Idle digest t → Kept digest t ∧ (t.stage = none ∨ Tight t) ∧
      ∀ st, t.stage = some st → Resumed digest t st :=
    fun t ht => ⟨ht.1, Or.inl ht.2, fun st hst => absurd (ht.2.symm.trans hst) nofun⟩
  refine safe_look_bind h ?_
  split
  · exact hidle s h
  · next record hpartial =>
    split
    · have hrecord := h.1.same record hpartial
      refine Safe.bind (resumeStage_safe limits m h hrecord).attempt fun r t hr => ?_
      cases r with
      | ok _ => exact ⟨hr.1, Or.inr hr.2.1, hr.2.2⟩
      | error _ =>
        dsimp only
        split
        · exact safe_raise hr
        · exact (dropPartial_safe record hr).imp fun _ => hidle
    · exact (dropPartial_safe record h).imp fun _ => hidle

theorem newStage_safe (limits : TransferLimits) (m : FileMeta) (path : String) (h : Idle digest s) :
    (newStage limits m path).Safe (Kept digest) (fun _ t => Kept digest t ∧ Tight t) s := by
  refine safe_barrier_bind h.1 (safe_update h.1 fun a t ht => ?_)
  split at ht
  · cases ht
  · next hnew =>
    cases ht
    obtain ⟨hk, -⟩ := h
    have hfresh : path ∉ s.drawn := fun hmem => hnew (Or.inl hmem)
    have hfile : ∀ q, ((s.files.put ⟨path, .empty, false⟩).find q).map ScratchFile.data =
        if q = path then some .empty else s.file q := by
      intro q
      rw [Table.find_put]
      split
      · rfl
      · rfl
    have hself := (hfile path).trans (if_pos rfl)
    refine ⟨⟨?_, hk.same, ?_, ?_, ?_, ?_, hk.published⟩, ⟨_, .empty, rfl, hself, rfl, rfl⟩⟩
    · intro st hst
      obtain rfl := Option.some.inj hst
      exact ⟨.empty, hself, le_rfl, rfl, le_rfl⟩
    · exact fun r hr => List.mem_cons_of_mem _ (hk.drawn r hr)
    · intro r hr f hf
      have hne : r.path ≠ path := fun heq => hfresh (heq ▸ hk.drawn r hr)
      have hf := (hfile r.path).symm.trans hf
      rw [if_neg hne] at hf
      exact hk.backed r hr f hf
    · intro st hst
      obtain rfl := Option.some.inj hst
      exact List.mem_cons_self
    · intro st hst r hr heq
      obtain rfl := Option.some.inj hst
      exact absurd ((show r.path = path from heq) ▸ hk.drawn r hr) hfresh

def Ready (digest : Digest) (s : Transfers) : Prop := Kept digest s ∧ (s.stage = none ∨ Tight s)

theorem acceptStatus_safe (m : FileMeta) (status : ReplyStatus) (h : Ready digest s) :
    (acceptStatus m status).Safe (Kept digest) (fun _ => Ready digest) s := by
  cases status with
  | ok =>
    refine safe_look_bind h.1 ?_
    split
    · next hsome =>
      refine Safe.bind (restart_safe h.1 hsome).attempt fun r t hr => ?_
      cases r with
      | ok _ => exact ⟨hr.1, Or.inr hr.2⟩
      | error _ => exact safe_raise hr
    · exact h
  | partialContent contentRange =>
    refine safe_look_bind h.1 ?_
    split
    · exact safe_raise h.1
    · split
      · exact h
      · exact safe_raise h.1
  | requestedRangeNotSatisfiable => exact safe_raise h.1
  | notFound => exact safe_raise h.1
  | other _ => exact safe_raise h.1

theorem publish_safe (m : FileMeta) (wins : Bool) (h : Kept digest s) (ht : Tight s) :
    (publish digest m wins).Safe (Kept digest) (fun _ => Kept digest) s := by
  refine safe_look_bind h ?_
  obtain ⟨st, f, hst, hf, hlength, hpos⟩ := ht
  rw [hst]
  dsimp only
  split
  · exact safe_raise h
  · next hsize =>
    split
    · exact safe_raise h
    · next hhash =>
      refine safe_barrier_bind h (Safe.bind (fsyncStage_safe.mono (fun t ht => (ht h).1)
        fun _ _ => id) fun _ t ht => ?_)
      obtain ⟨hstill, -, hstage⟩ := ht
      obtain ⟨hk, htight⟩ := hstill h
      refine safe_barrier_bind hk ?_
      split
      · exact safe_pure hk
      · -- The file still has the bytes that were hashed.
        obtain ⟨st', f', hst', hf', hlength', -⟩ := htight ⟨st, f, hst, hf, hlength, hpos⟩
        rw [hstage, hst] at hst'
        cases hst'
        obtain ⟨f'', hf'', -, hhasher, -⟩ := hk.hashed st (hstage.trans hst)
        obtain rfl : f' = f'' := Option.some.inj (hf'.symm.trans hf'')
        rw [← hlength', List.take_length] at hhasher
        refine Safe.bind (safe_update hk fun _ u hu => ?_) fun _ u (hu : Kept digest u) =>
          ((stillFrame digest).onlyIf still_forgetRecord).safe fun v hv => (hv hu).1
        rw [hf'] at hu
        cases hu
        have herased := hk.erase st.path
        refine { herased with published := fun p hp => ?_ }
        rcases List.mem_cons.mp hp with rfl | hp
        · refine ⟨?_, ?_⟩
          · rw [hlength']
            exact not_not.mp hsize
          · rw [← hhasher]
            exact not_not.mp hhash
        · exact hk.published p hp

theorem transfer_safe (limits : TransferLimits) (m : FileMeta) (input : TransferInput) (h : Ready digest s) :
    (transfer digest limits m input).Safe (Kept digest) (fun _ => Kept digest) s := by
  unfold transfer
  split
  · exact safe_raise h.1
  · refine Safe.bind (acceptStatus_safe m _ h) fun _ t ht => ?_
    split
    · exact safe_raise ht.1
    · refine safe_look_bind ht.1 (Safe.bind (R := fun _ u => Kept digest u ∧ Tight u)
        (safe_onlyIf (fun hnone => ?_) fun hsome => ?_) fun _ u hu => ?_)
      · refine newStage_safe limits m _ ⟨ht.1, ?_⟩
        cases hst : t.stage with
        | none => rfl
        | some st =>
          rw [hst] at hnone
          cases hnone
      · refine ⟨ht.1, ht.2.resolve_left fun hnone => ?_⟩
        rw [hnone] at hsome
        cases hsome
      · refine safe_look_bind hu.1 (Safe.bind (receiveBody_safe limits _ hu.1 hu.2) ?_)
        exact fun _ v hv => publish_safe m _ hv.1 hv.2

theorem downloadStaged_safe (limits : TransferLimits) (m : FileMeta) (input : TransferInput) (h : Idle digest s) :
    (downloadStaged digest limits m input).Safe (Kept digest) (fun _ => Kept digest) s := by
  refine safe_barrier_bind h.1 ?_
  split
  · exact safe_raise h.1
  · refine safe_barrier_bind h.1 (Safe.bind ((resumableStage_safe limits m _ h).mono
      (fun _ => And.left) fun _ _ => id) fun _ t ht => ?_)
    have hready : Ready digest t := ⟨ht.1, ht.2.1⟩
    refine Safe.bind (R := fun _ => Kept digest) (safe_attempt (transfer_safe limits m input hready))
      fun r u hu => ?_
    refine Safe.bind (R := fun _ => Kept digest) (safe_attempt (release_safe _ hu)) fun _ v hv => ?_
    cases r with
    | ok _ => exact safe_pure hv
    | error _ => exact safe_rethrow hv

theorem loadPartials_safe (queued expired : Bool) (h : Idle digest s) :
    (loadPartials queued expired).Safe (Idle digest) (fun _ => Idle digest) s := by
  have hempty : Idle digest { s with partials := none } :=
    ⟨⟨h.1.hashed, nofun, h.1.drawn, h.1.backed, h.1.named, h.1.owned, h.1.published⟩, h.2⟩
  refine safe_alter_bind h (safe_look_bind hempty ?_)
  split
  · exact safe_pure hempty
  · next record hrecord =>
    have hk := hempty.1
    refine safe_look_bind hempty ?_
    split
    · refine safe_alter hempty ⟨⟨hk.hashed, fun r hr => ?_, hk.drawn, hk.backed, hk.named, hk.owned,
        hk.published⟩, h.2⟩
      cases hr
      exact hrecord
    · have hdropped : Idle digest { s with partials := none, record := none } :=
        ⟨⟨hk.hashed, nofun, nofun, nofun, hk.named,
          fun st hst => absurd (h.2.symm.trans hst) nofun, hk.published⟩, h.2⟩
      exact Safe.bind (R := fun _ => Idle digest) (safe_attempt ⟨hempty, hempty, hdropped⟩)
        fun _ _ hu => hu

end

/-- After a loss of power a file whose entry was flushed is there, with what was flushed of it;
anything may be left of the others. -/
def PowerLoss (s : Transfers) (files : Table ScratchFile.path) : Prop :=
  (∀ x ∈ s.files.rows, x.linked = true → ∃ y ∈ files.rows, y.path = x.path ∧ x.data.Survives y.data) ∧
  ∀ y ∈ files.rows, y.path ∈ s.drawn ∧ y.data.flushed = y.data.content.length

section
variable (digest : Digest) (limits : TransferLimits) (name : String)

inductive TransferStep : Transfers → Transfers → Prop where
  /-- The stage is a variable of the attempt. -/
  | attempt {s t : Transfers} (m : FileMeta) (input : TransferInput) {fs : List Fault}
      {r : Except (Failure TransferErr) Unit} (hm : m.name = name) (hs : s.started = true)
      (h : (downloadStaged digest limits m input).run fs s = (.returned r, t)) :
      TransferStep s { t with stage := none }
  /-- The state the transfer was for is held by now. -/
  | settle {s t : Transfers} {record : PartialDownload} (hs : s.started = true)
      (hrecord : s.partials = some record) (h : (dropPartial record).Stops s t) : TransferStep s t
  /-- The process is killed, or the power is lost. -/
  | die {s t : Transfers} (files : Table ScratchFile.path)
      (h : t = s ∨ ∃ m input, m.name = name ∧ (downloadStaged digest limits m input).Stops s t)
      (hfiles : files = t.files ∨ PowerLoss t files) :
      TransferStep s { t with files := files, partials := none, stage := none, started := false }
  | start {s t : Transfers} (queued expired : Bool) {fs : List Fault}
      {r : Except (Failure TransferErr) Unit} (hs : s.started = false)
      (h : (loadPartials queued expired).run fs s = (.returned r, t)) :
      TransferStep s { t with started := true }
  | cutStart {s t : Transfers} (queued expired : Bool) (hs : s.started = false)
      (h : (loadPartials queued expired).Stops s t) : TransferStep s { t with partials := none }
  /-- The startup janitor takes scratch files nothing retains. -/
  | janitor {s : Transfers} {path : String} (hs : s.started = true)
      (h : ∀ record, s.partials = some record → record.path ≠ path) :
      TransferStep s { s with files := s.files.erase path }

variable {digest limits name} {s t : Transfers}

theorem Kept.died (h : Kept digest t) {files : Table ScratchFile.path}
    (hfiles : files = t.files ∨ PowerLoss t files) :
    Idle digest { t with files := files, partials := none, stage := none, started := false } := by
  refine ⟨⟨nofun, nofun, h.drawn, fun r hr f hf hle => ?_, nofun, nofun, h.published⟩, rfl⟩
  rcases hfiles with rfl | ⟨-, hflushed⟩
  · exact h.backed r hr f hf hle
  · obtain ⟨x, hx, rfl⟩ := Option.map_eq_some_iff.mp hf
    rw [(hflushed x (Table.find_mem hx)).2]
    exact hle

theorem Kept.returned (h : Kept digest t) : Idle digest { t with stage := none } :=
  ⟨⟨nofun, h.same, h.drawn, h.backed, nofun, nofun, h.published⟩, rfl⟩

theorem Idle.step (h : Idle digest s) (hstep : TransferStep digest limits name s t) :
    Idle digest t := by
  cases hstep with
  | attempt m input hm hs hrun =>
    have hstops : (downloadStaged digest limits m input).Stops s _ := ⟨_, congrArg Prod.snd hrun⟩
    exact ((downloadStaged_safe limits m input h).stops (fun _ _ => id) hstops).returned
  | settle hs hrecord hstops => exact (dropPartial_safe _ h).stops (fun _ _ => id) hstops
  | die files hcut hfiles =>
    refine Kept.died ?_ hfiles
    rcases hcut with rfl | ⟨m, input, -, hstops⟩
    · exact h.1
    · exact (downloadStaged_safe limits m input h).stops (fun _ _ => id) hstops
  | start queued expired hs hrun =>
    have hstops : (loadPartials queued expired).Stops s _ := ⟨_, congrArg Prod.snd hrun⟩
    have ht := (loadPartials_safe queued expired h).stops (fun _ _ => id) hstops
    exact ⟨{ ht.1 with }, ht.2⟩
  | cutStart queued expired hs hstops =>
    have ht := (loadPartials_safe queued expired h).stops (fun _ _ => id) hstops
    exact ⟨{ ht.1 with same := nofun }, ht.2⟩
  | janitor hs hretained => exact h.erase _

theorem idle_of_run (h : ReflTransGen (TransferStep digest limits name) {} s) : Idle digest s := by
  induction h with
  | refl => exact ⟨⟨nofun, nofun, nofun, nofun, nofun, nofun, fun _ hp => absurd hp List.not_mem_nil⟩, rfl⟩
  | tail _ hstep ih => exact ih.step hstep

end

/-- After any attempts, crashes and restarts, wherever a further attempt stops: the hash under
way was fed exactly the leading bytes of the scratch file up to the offset; every file that was
renamed over the destination has the announced size and hash; and a stage that is reopened
holds its recorded prefix, flushed, and nothing else. -/
theorem verified_transfers (digest : Digest) (limits : TransferLimits) (name : String)
    {s t : Transfers} (h : ReflTransGen (TransferStep digest limits name) {} s) {m : FileMeta}
    {input : TransferInput} (ht : (downloadStaged digest limits m input).Stops s t) :
    (∀ st, t.stage = some st → ∃ f, t.file st.path = some f ∧ st.offset ≤ f.content.length ∧
      st.hasher = f.content.take st.offset) ∧
    (∀ p ∈ t.published, (p.2.length : Int) = p.1.size ∧ digest.hash p.2 = p.1.hash) ∧
    ∀ cancelled u, (resumableStage digest limits m cancelled).Yields s () u →
      ∀ st, u.stage = some st → Resumed digest u st := by
  have hidle := idle_of_run h
  have hk := (downloadStaged_safe limits m input hidle).stops (fun _ _ => id) ht
  refine ⟨fun st hst => ?_, hk.published, fun cancelled u hu => ?_⟩
  · obtain ⟨f, hf, hle, hhasher, -⟩ := hk.hashed st hst
    exact ⟨f, hf, hle, hhasher⟩
  · exact ((resumableStage_safe limits m cancelled hidle).of_yields hu).2.2

/-- What a transfer in pieces renames over its destination is what the download of a node in one
piece takes: it passes the checks and is staged as it is. -/
theorem receive_of_transfers {cfg : Config} {limits : TransferLimits} {name : String} {s : Transfers}
    (h : ReflTransGen (TransferStep cfg.digest limits name) {} s) {p : FileMeta × Bytes}
    (hp : p ∈ s.published) (n : Node) :
    (receive cfg p.1 p.2).Finishes (fun r t => ∃ o, t.scratch.find r.1 = some (r.1, o) ∧ o.bytes = p.2) n := by
  obtain ⟨hsize, hhash⟩ := (idle_of_run h).1.published p hp
  refine finishes_update_bind rfl ?_
  rw [if_neg (by simp [hsize, hhash])]
  refine finishes_alter_bind (finishes_barrier_bind (finishes_pure ?_))
  exact ⟨_, (Table.find_put _ _ _).trans (if_pos rfl), rfl⟩

def smallLimits : TransferLimits := { resumableBytes := 2, checkpointBytes := 3, buffer := 1 }

def announced1234 : FileMeta := { name := "x", size := 4, hash := sha256.hash [1, 2, 3, 4] }

def brokenOff : TransferInput where
  cancelled := false
  path := ".birak-tmp-replica-1"
  reply := some ⟨.ok, "", [.data [1, 2] none, .failed]⟩
  wins := true

def theRest : TransferInput where
  cancelled := false
  path := ".birak-tmp-replica-2"
  reply := some ⟨.partialContent "bytes 2-3/4", "", [.data [3] none, .data [4] none]⟩
  wins := true

def stoppedAt2 : Transfers :=
  ((downloadStaged sha256 smallLimits announced1234 brokenOff).exec {}).2

def killedAt2 : Transfers := { stoppedAt2 with partials := none, stage := none, started := false }

def startedAt2 : Transfers := ((loadPartials true false).exec killedAt2).2

theorem startedAt2_run : ReflTransGen (TransferStep sha256 smallLimits "x") {}
    { startedAt2 with started := true } :=
  (ReflTransGen.single (.die _ (Or.inr ⟨announced1234, brokenOff, rfl, stops_exec _ _⟩)
    (Or.inl rfl))).tail (.start true false rfl (run_nil _ _))

theorem receive_of_transfers_resumed : ∃ (cfg : Config) (s : Transfers), (announced1234, [1, 2, 3, 4]) ∈ s.published ∧
    (receive cfg announced1234 [1, 2, 3, 4]).Finishes (fun r t => ∃ o, t.scratch.find r.1 = some (r.1, o) ∧
      o.bytes = [1, 2, 3, 4]) {} := by
  have hrun := startedAt2_run.tail (.attempt announced1234 theRest rfl rfl (run_nil _ _))
  have hmem : (announced1234, [1, 2, 3, 4]) ∈ ((downloadStaged sha256 smallLimits announced1234 theRest).exec
      { startedAt2 with started := true }).2.published := by
    decide +kernel
  generalize (downloadStaged sha256 smallLimits announced1234 theRest).exec _ = x at hrun hmem
  exact ⟨⟨sha256, id, fun _ => false, 1, id, [], 0, id, .refl⟩, _, hmem,
    receive_of_transfers (s := { x.2 with stage := none }) hrun hmem {}⟩

/-- Half a file arrives, the process is killed, and the other half completes the file. -/
theorem verified_transfers_resumed : ∃ t : Transfers,
    (downloadStaged sha256 smallLimits announced1234 theRest).Stops
      { startedAt2 with started := true } t ∧
    t.published = [(announced1234, [1, 2, 3, 4])] ∧
    sha256.hash [1, 2, 3, 4] = announced1234.hash := by
  have hstops := stops_exec (downloadStaged sha256 smallLimits announced1234 theRest)
    { startedAt2 with started := true }
  have hpublished : ((downloadStaged sha256 smallLimits announced1234 theRest).exec
      { startedAt2 with started := true }).2.published = [(announced1234, [1, 2, 3, 4])] := by
    decide +kernel
  refine ⟨_, hstops, hpublished, ?_⟩
  have hall := (verified_transfers sha256 smallLimits "x" startedAt2_run hstops).2.1
  rw [hpublished] at hall
  exact (hall _ List.mem_cons_self).2

end BirakFormal
