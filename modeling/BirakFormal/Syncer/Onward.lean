import BirakFormal.Syncer.Apply
import BirakFormal.Syncer.StateOrder
import BirakFormal.Watcher.Refreshed

/-!
# Applying a change moves rows forward

`PutRemote` compares nothing, so every caller has to know that the state it commits is not
behind the row. Between the comparison and the commit a caller may preserve files and
settle the namespace, and none of that may touch the row it compared with.
-/

namespace BirakFormal

open Interruption Prog

/-- A running node whose index is sound and has not fallen behind `s₀`. -/
structure Ahead (s₀ : Store) (t : Node) : Prop where
  sound : t.store.Sound
  forward : s₀.Forward t.store
  recovered : t.recovered = true

variable {s₀ : Store} {cfg : Config} {s t : Node}

theorem Ahead.of_onward (h : Ahead s₀ s) (hst : Onward s t) (hrec : t.recovered = s.recovered) : Ahead s₀ t :=
  ⟨(hst h.sound).1, h.forward.trans (hst h.sound).2, hrec.trans h.recovered⟩

theorem Ahead.indexed {n : String} (h : Ahead s₀ s) (hst : IndexedRun cfg n s t) :
    Ahead s₀ t :=
  h.of_onward hst.onward hst.aside.recovered

def Staged (s₀ : Store) (m : FileMeta) (t : Node) : Prop :=
  Ahead s₀ t ∧ t.store.replicaIntent m.name = some m

def SameIndex (s t : Node) : Prop := t.store = s.store ∧ t.recovered = s.recovered

theorem sameIndexFrame : Frame SameIndex :=
  ⟨fun _ => ⟨rfl, rfl⟩, fun h h' => ⟨h'.1.trans h.1, h'.2.trans h.2⟩⟩

theorem Ahead.sameIndex (h : Ahead s₀ s) (hst : SameIndex s t) : Ahead s₀ t :=
  ⟨hst.1 ▸ h.sound, hst.1 ▸ h.forward, hst.2.trans h.recovered⟩

variable {m : FileMeta}

theorem Staged.sameIndex (h : Staged s₀ m s) (hst : SameIndex s t) :
    Staged s₀ m t :=
  ⟨h.1.sameIndex hst, hst.1 ▸ h.2⟩

def Committed (s₀ : Store) (m : FileMeta) (t : Node) : Prop :=
  Ahead s₀ t ∧ t.store.replicaIntent m.name = none ∧ ∃ v, t.store.getFile m.name = some { m with version := v }

variable {s : Node}

theorem stageReplica_staged (h : Ahead s₀ s) (hm : StateOk m) (hle : StateLe (s.store.getFile m.name) (some m)) :
    (stageReplica m).Safe (Ahead s₀) (fun _ => Staged s₀ m) s := by
  refine safe_alter h ⟨⟨Store.stageReplica_sound h.sound hm hle, h.forward, h.recovered⟩, ?_⟩
  exact (Store.replicaIntent_stageReplica _ _ _).trans (if_pos rfl)

theorem Staged.safe {α : Type} {p : Sys α} (h : Staged s₀ m s)
    (hp : p.Within SameIndex) : p.Safe (Ahead s₀) (fun _ => Staged s₀ m) s :=
  (hp s).mono (fun _ ht => (h.sameIndex ht).1) fun _ _ ht => h.sameIndex ht

theorem putRemote_committed (h : Staged s₀ m s) :
    (putRemote cfg m >>= fun _ => (pure () : Sys Unit)).Safe (Ahead s₀)
      (fun _ => Committed s₀ m) s := by
  refine safe_update_bind h.1 fun v t ht => safe_pure ?_
  cases hp : s.store.commitPut cfg.fold m false with
  | error e => rw [hp] at ht; cases ht
  | ok r =>
    rw [hp] at ht
    cases ht
    have hle := h.1.sound.intents_ahead _ _ h.2
    obtain ⟨hs, hf⟩ := Store.putRemote_sound h.1.sound (h.1.sound.intents_ok _ _ h.2) hp hle
    refine ⟨⟨hs, h.1.forward.trans hf, h.1.recovered⟩, ?_, ?_⟩
    · exact (Store.replicaIntent_commitPut hp _).trans (if_pos rfl)
    · exact ⟨_, (Store.getFile_commitPut hp _).trans (if_pos rfl)⟩

theorem place_sameIndex (name : String) (o : FileObj) : (publishObject name o).Within SameIndex := by
  refine sameIndexFrame.update fun s a t h => ?_
  cases hp : s.place name o with
  | error e => rw [hp] at h; cases h
  | ok u =>
    rw [hp] at h
    cases h
    obtain ⟨d, -, rfl⟩ := place_ok hp
    exact ⟨rfl, rfl⟩

theorem renameScratch_sameIndex (name : String) (id : Nat) : (renameScratch name id).Within SameIndex := by
  refine sameIndexFrame.update fun s a t h => ?_
  split at h
  · cases h
  · next o ho =>
    cases hp : s.place name o.2 with
    | error e => rw [hp] at h; cases h
    | ok u =>
      rw [hp] at h
      cases h
      obtain ⟨d, -, rfl⟩ := place_ok hp
      exact ⟨rfl, rfl⟩

theorem chtimes_sameIndex (name : String) (x : Int64) : (chtimes cfg name x).Within SameIndex := by
  refine sameIndexFrame.update fun s a t h => ?_
  split at h
  · next o ho =>
    cases hp : s.place name { o with modTime := cfg.stamp x } with
    | error e => rw [hp] at h; cases h
    | ok u =>
      rw [hp] at h
      cases h
      obtain ⟨d, -, rfl⟩ := place_ok hp
      exact ⟨rfl, rfl⟩
  · cases h

theorem removeEntry_sameIndex (name : String) : (removeEntry name).Within SameIndex := by
  refine sameIndexFrame.update fun s a t h => ?_
  split at h
  · cases h; exact ⟨rfl, rfl⟩
  · cases h

theorem mkdirParents_sameIndex (name : String) : (mkdirParents name).Within SameIndex := by
  refine sameIndexFrame.forEach fun d _ => sameIndexFrame.update fun s a t h => ?_
  split at h
  · cases h; exact ⟨rfl, rfl⟩
  · cases h

theorem removeReplicaFile_sameIndex (name : String) : (removeReplicaFile name).Within SameIndex := by
  have F := sameIndexFrame
  refine F.bind (F.look _) fun entry => ?_
  split
  · exact F.pure _
  · exact F.pure _
  · exact F.raise _
  · exact removeEntry_sameIndex name

theorem cleanEmptyParents_sameIndex (ds : List String) : (cleanEmptyParents ds).Within SameIndex := by
  have F := sameIndexFrame
  induction ds with
  | nil => exact F.pure _
  | cons d ds ih =>
    refine F.bind (F.look _).attempt fun r => ?_
    match r with
    | .error _ => exact F.pure _
    | .ok false => exact F.pure _
    | .ok true =>
      refine F.bind (F.bind (removeEntry_sameIndex d) fun _ => F.barrier).attempt fun r => ?_
      match r with
      | .error _ => exact F.pure _
      | .ok () => exact ih

theorem restampReplica_safe (h : Ahead s₀ s) (hm : StateOk m) (hle : StateLe (s.store.getFile m.name) (some m)) :
    (restampReplica cfg m).Safe (Ahead s₀) (fun _ => Committed s₀ m) s :=
  Safe.bind (stageReplica_staged h hm hle) fun _ _ ht =>
    Safe.bind (ht.safe (chtimes_sameIndex _ _)) fun _ _ hu =>
      safe_barrier_bind hu.1 (putRemote_committed hu)

theorem publishReplica_safe (id : Nat) (h : Ahead s₀ s)
    (hm : StateOk m) (hle : StateLe (s.store.getFile m.name) (some m)) :
    (publishReplica cfg m id).Safe (Ahead s₀) (fun _ => Committed s₀ m) s :=
  Safe.bind (stageReplica_staged h hm hle) fun _ _ ht =>
    Safe.bind (ht.safe (renameScratch_sameIndex _ _)) fun _ _ hu =>
      safe_barrier_bind hu.1 (putRemote_committed hu)

theorem commitTombstone_safe (h : Ahead s₀ s) (hm : StateOk m) (hle : StateLe (s.store.getFile m.name) (some m)) :
    (commitTombstone cfg m).Safe (Ahead s₀) (fun _ => Committed s₀ m) s :=
  Safe.bind (stageReplica_staged h hm hle) fun _ _ ht =>
    Safe.bind (ht.safe (removeReplicaFile_sameIndex _)) fun _ _ hu =>
      safe_barrier_bind hu.1 (Safe.bind
        (hu.safe (sameIndexFrame.onlyIf (cleanEmptyParents_sameIndex _))) fun _ _ hv =>
          putRemote_committed hv)

theorem watchable_of_valid {patterns : String → Bool} {name : String}
    (hsync : validateSyncName name = .ok ()) (hclient : validateClientPath patterns name = .ok ()) :
    isOutsideSyncDir name = false ∧ shouldIgnore patterns name = false := by
  have hne := ne_empty_of_validateSyncName hsync
  constructor
  · unfold validateSyncName at hsync
    split at hsync
    · cases hsync
    · next h =>
      simp only [not_or, not_not] at h
      obtain ⟨-, hlocal, hclean, -⟩ := h
      unfold isLocal at hlocal
      split at hlocal
      · cases hlocal
      · simp only [hclean, ite_self, Bool.not_eq_true', decide_eq_false_iff_not, not_or] at hlocal
        simp only [isOutsideSyncDir, Bool.or_eq_false_iff, decide_eq_false_iff_not]
        exact ⟨by simpa using hlocal.2, hlocal.1⟩
  · exact (validateClientPath_ok_iff.mp hclient).1.resolve_left hne

structure SafePath (cfg : Config) (name : String) : Prop where
  sync : validateSyncName name = .ok ()
  watchable : Watchable cfg name

theorem safeLocalPath_finds (s : Node) (name : String) :
    (safeLocalPath cfg name).Safe (fun t => t = s) (fun _ t => t = s ∧ SafePath cfg name) s := by
  refine safe_check_bind rfl fun _ _ => safe_barrier_bind rfl ?_
  cases hsync : validateSyncName name with
  | error e => exact safe_raise rfl
  | ok u =>
    refine Safe.bind (R := fun _ t => t = s) (safe_pure rfl) ?_
    rintro _ t rfl
    cases hclient : validateClientPath cfg.patterns name with
    | error e => exact safe_raise rfl
    | ok u => exact safe_pure ⟨rfl, hsync, watchable_of_valid hsync hclient⟩

theorem safeLocalPath_bind {J : Node → Prop} {β : Type} {Q : β → Node → Prop}
    {name : String} {k : Unit → Sys β} (h : J s)
    (hk : SafePath cfg name → (k ()).Safe J Q s) : (safeLocalPath cfg name >>= k).Safe J Q s := by
  refine Safe.bind ((safeLocalPath_finds s name).mono (fun t ht => ht ▸ h) fun _ _ => id) ?_
  rintro _ t ⟨rfl, hw⟩
  exact hk hw

end BirakFormal
