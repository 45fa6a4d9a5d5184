import BirakFormal.Syncer.Settling

/-!
# What applying a change achieves

Every locked part of `applyChange` compares before it commits, so rows only move forward;
and when a part returns without error and leaves nothing to do, the row of the name is not
behind the peer's state.
-/

namespace BirakFormal

open Interruption Prog

variable {m : FileMeta}

theorem stateOk_of_metadataOk {digest : Digest} (h : MetadataOk digest m) :
    StateOk m := by
  refine ⟨h.clock, fun hlive => ?_⟩
  by_contra hs
  rw [(h.superseded hs).1] at hlive
  cases hlive

theorem stateLe_of_applies {mine : Option FileMeta} {damaged : Bool}
    (h : applies mine m damaged = true) : StateLe mine (some m) := by
  unfold applies at h
  rcases Bool.or_eq_true_iff.mp h with h | h
  · exact stateLe_of_remoteWins h
  · simp only [Bool.and_eq_true, decide_eq_true_eq, compareState_eq_iff] at h
    exact stateLe_iff.mpr h.2.symm.le

theorem stateLe_of_not_applies {mine : Option FileMeta} {damaged : Bool}
    (h : applies mine m damaged = false) : StateLe (some m) mine :=
  stateLe_of_not_remoteWins (Bool.or_eq_false_iff.mp h).1

def Reached (s₀ : Store) (m : FileMeta) (t : Node) : Prop :=
  Ahead s₀ t ∧ StateLe (some m) (t.store.getFile m.name)

variable {cfg : Config} {s₀ : Store} {m : FileMeta}

theorem Committed.reached {t : Node} (h : Committed s₀ m t) : Reached s₀ m t :=
  ⟨h.1, h.stateLe⟩

theorem Reached.indexed {s t : Node} {n : String} (h : Reached s₀ m s)
    (hst : IndexedRun cfg n s t) : Reached s₀ m t := by
  refine ⟨h.1.indexed hst, stateLe_iff.mpr ?_⟩
  exact (stateLe_iff.mp h.2).trans (stateLe_iff.mp ((hst.onward h.1.sound).2 m.name))

theorem Reached.sameIndex {s t : Node} (h : Reached s₀ m s) (hst : SameIndex s t) : Reached s₀ m t :=
  ⟨h.1.sameIndex hst, hst.1 ▸ h.2⟩

variable {s : Node}

theorem observeLocal_indexed (h : s.recovered = true) (name : String) :
    (observeLocal cfg name).Safe (IndexedRun cfg name s) (fun _ => IndexedRun cfg name s) s := by
  refine Safe.bind (R := fun _ => IndexedRun cfg name s)
    (safe_attempt (refreshWith_indexed name _ h)) fun r t ht => ?_
  split
  · exact safe_pure ht
  · exact safe_pure ht
  · exact safe_rethrow ht

theorem observeLocal_safe (h : Ahead s₀ s) (name : String) :
    (observeLocal cfg name).Safe (Ahead s₀) (fun _ => Ahead s₀) s :=
  (observeLocal_indexed h.recovered name).mono (fun _ ht => h.indexed ht) fun _ _ ht => h.indexed ht

theorem decideChange_safe (h : Ahead s₀ s) (hm : StateOk m) :
    (decideChange cfg m).Safe (Ahead s₀) (fun pending t => Ahead s₀ t ∧
      (pending = .settled → StateLe (some m) (t.store.getFile m.name))) s := by
  refine safeLocalPath_bind h fun _ => Safe.bind (observeLocal_safe h _) fun damaged t ht => ?_
  refine safe_look_bind ht ?_
  cases happ : applies (t.store.getFile m.name) m damaged with
  | false => exact safe_pure ⟨ht, fun _ => stateLe_of_not_applies happ⟩
  | true =>
    simp only [Bool.not_true, Bool.false_eq_true, if_false]
    split
    · refine safeLocalPath_bind ht fun _ => Safe.bind
        (restampReplica_safe ht hm (stateLe_of_applies happ)) fun _ u hu => ?_
      exact safe_pure ⟨hu.1, fun _ => hu.stateLe⟩
    · split
      · exact safe_pure ⟨ht, nofun⟩
      · exact safe_pure ⟨ht, nofun⟩

theorem publishLocked_safe (temporary : Nat) (staged : ObjectKey)
    (h : Ahead s₀ s) (hm : StateOk m) (hname : m.name ≠ "") :
    (publishLocked cfg m temporary staged).Safe (Ahead s₀) (fun _ => Reached s₀ m) s := by
  refine safe_barrier_bind h (safeLocalPath_bind h fun _ =>
    Safe.bind (observeLocal_safe h _) fun damaged t ht => safe_look_bind ht ?_)
  cases happ : applies (t.store.getFile m.name) m damaged with
  | false => exact safe_pure ⟨ht, stateLe_of_not_applies happ⟩
  | true =>
    refine Safe.bind (settleNamespaceLocked_safe temporary ht hm.clock hname) ?_
    rintro apply u ⟨hu, hrow⟩
    cases apply with
    | false => exact safe_pure ⟨hu, hrow⟩
    | true =>
      refine safe_barrier_bind hu (Safe.bind ((mkdirParents_sameIndex m.name u).mono
        (fun v hv => hu.sameIndex hv) fun _ _ => id) fun _ v hv => ?_)
      have hle : StateLe (v.store.getFile m.name) (some m) := by
        rw [hv.1, (hrow : u.store.getFile m.name = _)]
        exact stateLe_of_applies happ
      refine Safe.bind (publishReplica_safe temporary (hu.sameIndex hv) hm hle) fun _ w hw => ?_
      exact (refreshWith_indexed m.name _ hw.1.recovered).mono (fun x hx => hw.1.indexed hx)
        fun _ x hx => hw.reached.indexed hx

theorem applyDeletion_safe (h : Ahead s₀ s) (hm : StateOk m) :
    (applyDeletion cfg m).Safe (Ahead s₀) (fun _ => Reached s₀ m) s := by
  refine safeLocalPath_bind h fun hsafe => Safe.bind (observeLocal_safe h _) fun damaged t ht =>
    safe_look_bind ht ?_
  cases hwins : remoteWins (t.store.getFile m.name) m with
  | false => exact safe_pure ⟨ht, stateLe_of_not_remoteWins hwins⟩
  | true =>
    exact commitDeletionLocked_safe ht hm hsafe.watchable fun _ => stateLe_of_remoteWins hwins

theorem receive_sameIndex (m : FileMeta) (body : Bytes) : (receive cfg m body).Within SameIndex := by
  have F := sameIndexFrame
  refine F.bind createTemp_sameIndex fun id => ?_
  split
  · exact F.raise _
  · exact F.bind (F.alter fun _ => ⟨rfl, rfl⟩) fun _ => F.bind F.barrier fun _ => F.pure _

theorem downloadAndApply_safe (body : Bytes) (h : Ahead s₀ s) (hm : StateOk m) (hname : m.name ≠ "") :
    (downloadAndApply cfg m body).Safe (Ahead s₀) (fun _ => Reached s₀ m) s := by
  refine safeLocalPath_bind h fun _ => ?_
  split
  · exact safe_raise h
  · refine Safe.bind ((receive_sameIndex m body s).mono (fun t ht => h.sameIndex ht)
      fun _ _ => id) fun r t hst => ?_
    have ht := h.sameIndex hst
    refine Safe.bind (publishLocked_safe r.1 r.2 ht hm hname).attempt ?_
    intro result u hu
    cases result with
    | ok _ =>
      have hu : Reached s₀ m u := hu
      exact safe_alter_bind hu.1 (safe_pure (hu.sameIndex ⟨rfl, rfl⟩))
    | error e =>
      have hu : Ahead s₀ u := hu
      exact safe_alter_bind hu (safe_rethrow (hu.sameIndex ⟨rfl, rfl⟩))

theorem applyChange_safe (body : Bytes) (h : Ahead s₀ s) :
    (applyChange cfg m body).Safe (Ahead s₀) (fun _ t => Ahead s₀ t ∧
      (validateChange cfg.digest cfg.patterns m = .ok () → StateLe (some m) (t.store.getFile m.name))) s := by
  unfold applyChange
  cases hval : validateChange cfg.digest cfg.patterns m with
  | error e => exact safe_pure ⟨h, nofun⟩
  | ok u =>
    have hmeta := metadataOk_of_validateChange hval
    have hm := stateOk_of_metadataOk hmeta
    have hname := ne_empty_of_validateSyncName hmeta.name
    have hheld : (alreadyHeld m).Safe (fun t => t = s)
        (fun b t => t = s ∧ (b = true → StateLe (some m) (t.store.getFile m.name))) s := by
      refine safe_look_bind rfl ?_
      cases hwins : remoteWins (s.store.getFile m.name) m with
      | true => exact safe_pure ⟨rfl, nofun⟩
      | false =>
        exact safe_look_bind rfl (safe_pure ⟨rfl, fun _ => stateLe_of_not_remoteWins hwins⟩)
    refine Safe.bind (R := fun r t => t = s ∧ (r = .ok true → StateLe (some m) (t.store.getFile m.name)))
      (safe_attempt (Sat.mono hheld (fun t ht => ht ▸ h) (fun _ t ht => ⟨ht, nofun⟩)
        fun b t ht => ⟨ht.1, fun hb => ht.2 (Except.ok.inj hb)⟩)) ?_
    rintro r t ⟨rfl, hr⟩
    rcases r with e | _ | _
    case ok.true => exact safe_pure ⟨h, fun _ => hr rfl⟩
    all_goals
      refine Safe.imp (Q := fun _ => Reached s₀ m) (Safe.bind (decideChange_safe h hm) ?_)
        fun _ w hw => ⟨hw.1, fun _ => hw.2⟩
      rintro pending v ⟨hv, hdone⟩
      cases pending with
      | settled => exact safe_pure ⟨hv, hdone rfl⟩
      | deletion => exact applyDeletion_safe hv hm
      | download => exact downloadAndApply_safe body hv hm hname

end BirakFormal
