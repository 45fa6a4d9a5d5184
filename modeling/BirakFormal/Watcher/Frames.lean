import BirakFormal.Watcher.Effects

/-!
# What indexing leaves alone

Consequences of the list of effects: rows move forward only, the bytes of every file stay,
and nothing about other names changes except that empty directories may go.
-/

namespace BirakFormal

open FileTrees Interruption Prog

def Onward (s t : Node) : Prop := s.store.Sound → t.store.Sound ∧ s.store.Forward t.store

theorem onwardFrame : Frame Onward where
  refl _ h := ⟨h, Store.Forward.refl _⟩
  trans h h' hs := ⟨(h' (h hs).1).1, (h hs).2.trans (h' (h hs).1).2⟩

def bytesAt (d : Volume) (k : String) : Option Bytes :=
  match d.lookup k with
  | some (.leaf (.file o)) => some o.bytes
  | _ => none

theorem bytesAt_eq_some {d : Volume} {k : String} {bs : Bytes} :
    bytesAt d k = some bs ↔ ∃ o, d.lookup k = some (.leaf (.file o)) ∧ o.bytes = bs := by
  unfold bytesAt
  split
  · next o ho => simp [ho]
  · next h =>
    constructor
    · nofun
    · rintro ⟨o, ho, -⟩
      exact absurd ho (h o)

/-- The node at every name but `n` is as before, apart from directories that became empty;
at `n` the bytes are as before. -/
structure Aside (n : String) (s t : Node) : Prop where
  rows : ∀ k, k ≠ n → t.store.getFile k = s.store.getFile k
  intents : ∀ k, k ≠ n → t.store.replicaIntent k = s.store.replicaIntent k
  history : ∀ k, k ≠ n → t.store.history k = s.store.history k
  localIntents : t.store.localIntents = s.store.localIntents
  recovered : t.recovered = s.recovered
  writers : t.writers = s.writers
  scratch : t.scratch = s.scratch
  bytes : ∀ k, bytesAt t.disk k = bytesAt s.disk k
  leaves : ∀ k x, k ≠ n → (t.disk.lookup k = some (.leaf x) ↔ s.disk.lookup k = some (.leaf x))
  special : t.disk.lookup n = some (.leaf .special) ↔ s.disk.lookup n = some (.leaf .special)
  dirs : ∀ k, t.disk.lookup k = some .dir → s.disk.lookup k = some .dir
  dirs_below : ∀ k, ¬ Beneath n k → s.disk.lookup k = some .dir → t.disk.lookup k = some .dir

theorem Aside.refl (n : String) (s : Node) : Aside n s s :=
  ⟨fun _ _ => rfl, fun _ _ => rfl, fun _ _ => rfl, rfl, rfl, rfl, rfl, fun _ => rfl,
    fun _ _ _ => Iff.rfl, Iff.rfl, fun _ => id, fun _ _ => id⟩

variable {n : String}

theorem Aside.trans {s t u : Node} (h : Aside n s t) (h' : Aside n t u) :
    Aside n s u where
  rows k hk := (h'.rows k hk).trans (h.rows k hk)
  intents k hk := (h'.intents k hk).trans (h.intents k hk)
  history k hk := (h'.history k hk).trans (h.history k hk)
  localIntents := h'.localIntents.trans h.localIntents
  recovered := h'.recovered.trans h.recovered
  writers := h'.writers.trans h.writers
  scratch := h'.scratch.trans h.scratch
  bytes k := (h'.bytes k).trans (h.bytes k)
  leaves k x hk := (h'.leaves k x hk).trans (h.leaves k x hk)
  special := h'.special.trans h.special
  dirs k hk := h.dirs k (h'.dirs k hk)
  dirs_below k hk hd := h'.dirs_below k hk (h.dirs_below k hk hd)

theorem asideFrame (n : String) : Frame (Aside n) := ⟨Aside.refl n, Aside.trans⟩

theorem Aside.of_store {s : Node} {st : Store} (hf : ∀ k, k ≠ n → st.getFile k = s.store.getFile k)
    (hi : ∀ k, k ≠ n → st.replicaIntent k = s.store.replicaIntent k)
    (hh : ∀ k, k ≠ n → st.history k = s.store.history k)
    (hl : st.localIntents = s.store.localIntents) : Aside n s { s with store := st } :=
  { Aside.refl n s with rows := hf, intents := hi, history := hh, localIntents := hl }

variable {fold : String → String}

theorem Aside.of_commitPut {s : Node} {m : FileMeta} {isLocal : Bool} {v : Int} {st : Store} (hn : m.name = n)
    (h : s.store.commitPut fold m isLocal = .ok (v, st)) : Aside n s { s with store := st } := by
  refine Aside.of_store (fun k hk => ?_) (fun k hk => ?_) (fun k hk => ?_) ?_
  · rw [Store.getFile_commitPut h, if_neg (hn ▸ hk)]
  · rw [Store.replicaIntent_commitPut h, if_neg (hn ▸ hk)]
  · rw [Store.history_commitPut h, if_neg (hn ▸ hk)]
  · obtain ⟨names, -, -, rfl⟩ := Store.commitPut_ok h
    rfl

variable {s t : Node}

theorem Aside.of_stamp {o : FileObj} {x : Int64} (ho : s.disk.lookup n = some (.leaf (.file o)))
    (h : s.place n { o with modTime := x } = .ok t) : Aside n s t := by
  obtain ⟨d, hd, rfl⟩ := place_ok h
  obtain ⟨-, -, hlook⟩ := FileTree.write_eq_some hd
  refine { Aside.refl n s with
    bytes := fun k => ?_, leaves := fun k y hk => ?_, special := ?_, dirs := fun k hk => ?_,
    dirs_below := fun k hk hdir => ?_ }
  · show bytesAt d k = bytesAt s.disk k
    unfold bytesAt
    rw [hlook]
    by_cases hk : k = n
    · rw [if_pos hk, hk, ho]
    · rw [if_neg hk]
  · show d.lookup k = _ ↔ _
    rw [hlook, if_neg hk]
  · show d.lookup n = _ ↔ _
    rw [hlook, if_pos rfl, ho]
    simp
  · change d.lookup k = some .dir at hk
    rw [hlook] at hk
    split at hk
    · cases hk
    · exact hk
  · show d.lookup k = some .dir
    rw [hlook]
    split
    · next hkn => subst hkn; rw [ho] at hdir; cases hdir
    · exact hdir

theorem Aside.of_rmdir {n d : String} {vol : Volume} (hd : Beneath n d)
    (hdir : s.disk.lookup d = some .dir) (h : s.disk.remove d = some vol) :
    Aside n s { s with disk := vol } := by
  obtain ⟨-, hlook⟩ := FileTree.remove_eq_some h
  have hleaf : ∀ k x, vol.lookup k = some (.leaf x) ↔ s.disk.lookup k = some (.leaf x) := by
    intro k x
    rw [hlook]
    split
    · next hkd => subst hkd; simp [hdir]
    · rfl
  refine { Aside.refl n s with
    bytes := fun k => ?_, leaves := fun k x _ => hleaf k x, special := hleaf n _,
    dirs := fun k hk => ?_, dirs_below := fun k hk hdir' => ?_ }
  · show bytesAt vol k = bytesAt s.disk k
    ext bs
    rw [bytesAt_eq_some, bytesAt_eq_some]
    simp only [hleaf]
  · change vol.lookup k = some .dir at hk
    rw [hlook] at hk
    split at hk
    · cases hk
    · exact hk
  · show vol.lookup k = some .dir
    rw [hlook, if_neg (fun hkd : k = d => hk (hkd ▸ hd))]
    exact hdir'

variable {cfg : Config}

theorem Inspected.aside (h : Inspected cfg n s t) :
    Aside n s t := by
  cases h with
  | stamp ho ht => exact Aside.of_stamp ho ht
  | rmdir hd hdir ht => exact Aside.of_rmdir hd hdir ht
  | fence key => exact { Aside.refl n s with }
  | setQuarantined key => exact Aside.of_store (fun _ _ => rfl) (fun _ _ => rfl) (fun _ _ => rfl) rfl
  | unfence verified => exact { Aside.refl n s with }
  | enqueue peer reason m => exact Aside.of_store (fun _ _ => rfl) (fun _ _ => rfl) (fun _ _ => rfl) rfl
  | defer => exact { Aside.refl n s with }

theorem Indexed.aside (h : Indexed cfg n s t) :
    Aside n s t := by
  cases h with
  | inspect h => exact h.aside
  | putLocal hn _ hput => exact Aside.of_commitPut hn hput
  | finish hm hput => exact Aside.of_commitPut (Store.replicaIntent_name hm) hput
  | drop =>
    refine Aside.of_store (fun k hk => rfl) (fun k hk => ?_) (fun _ _ => rfl) rfl
    rw [Store.replicaIntent_clearReplicaIntent, if_neg hk]

theorem SameRows.onward (h : SameRows s t) : Onward s t :=
  fun hs => ⟨hs.congr h.getFile h.replicaIntent h.puts, fun n => stateLe_iff.mpr (h.getFile n ▸ le_rfl)⟩

theorem Indexed.onward (h : Indexed cfg n s t) :
    Onward s t := by
  cases h with
  | inspect h => exact h.sameRows.onward
  | putLocal hn hplain hput => exact fun hs => Store.putLocal_sound hs hplain hput
  | finish hm hput =>
    intro hs
    have hname := Store.replicaIntent_name hm
    exact Store.putRemote_sound hs (hs.intents_ok n _ hm) hput (hname ▸ hs.intents_ahead n _ hm)
  | drop => exact fun hs => ⟨Store.clearReplicaIntent_sound hs n, Store.Forward.refl _⟩

theorem IndexedRun.aside (h : IndexedRun cfg n s t) :
    Aside n s t :=
  (asideFrame n).of_steps (fun _ _ => Indexed.aside) h

theorem IndexedRun.onward (h : IndexedRun cfg n s t) :
    Onward s t :=
  onwardFrame.of_steps (fun _ _ => Indexed.onward) h

theorem beginLocal_rows {s st : Store} {names : List String} (h : s.beginLocal fold names = .ok st) :
    st.files = s.files ∧ st.replicaIntents = s.replicaIntents ∧ st.puts = s.puts := by
  induction names generalizing s with
  | nil => cases h; exact ⟨rfl, rfl, rfl⟩
  | cons path paths ih =>
    unfold Store.beginLocal at h
    split at h
    · cases h
    · obtain ⟨hf, hi, hp⟩ := ih h
      exact ⟨hf, hi, hp⟩

theorem onwardUpkeep (cfg : Config) : Upkeep cfg Onward where
  frame := onwardFrame
  refresh _ opts := (refreshFileLocked_indexed opts).mono fun _ _ => IndexedRun.onward
  recover _ := recoverReplicaLocked_indexed.mono fun _ _ => IndexedRun.onward
  endLocal _ _ := SameRows.onward ⟨rfl, rfl, rfl⟩
  recovered s := onwardFrame.refl s

theorem onward_beginLocal {names : List String} {st : Store}
    (h : s.store.beginLocal fold names = .ok st) : Onward s { s with store := st } := by
  obtain ⟨hf, hi, hp⟩ := beginLocal_rows h
  exact SameRows.onward ⟨hf, hi, hp⟩

end BirakFormal
