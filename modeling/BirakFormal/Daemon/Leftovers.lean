import BirakFormal.Daemon.Recovery

/-!
# Leftover intents

A replica operation that fails leaves its intent behind, and later commits on other names
do not clear it. At the next start the pass over the replica intents has to settle whatever
it finds. It does so unless a live state is left for a name that has become a directory, or
two spellings of one name have been used.
-/

namespace BirakFormal

open FileTrees Tables Interruption Prog

def OnlyFiles (d : Volume) : Prop := ∀ k, d.lookup k ≠ some (.leaf .special)

/-- Every leftover intent can be settled: no live state waits at a directory, and the names
agree with the reserved spellings and with each other. -/
structure Settleable (cfg : Config) (s : Node) : Prop where
  notDir : ∀ k m, s.store.replicaIntent k = some m → m.deleted = false → s.disk.lookup k ≠ some .dir
  spelling : ∀ k, s.store.replicaIntent k ≠ none → s.store.checkName cfg.fold k = .ok ()
  agree : ∀ j k, s.store.replicaIntent j ≠ none → s.store.replicaIntent k ≠ none →
    ∀ ps qs, nameParts cfg.fold j = .ok ps → nameParts cfg.fold k = .ok qs →
      ∀ p ∈ ps, ∀ q ∈ qs, p.1 = q.1 → p.2 = q.2

section
variable {cfg : Config} {s t : Node} {n : String}

theorem Indexed.names (h : Indexed cfg n s t) {key : String} {a : String × String}
    (ha : t.store.names.find key = some a) :
    s.store.names.find key = some a ∨ ∃ ps, nameParts cfg.fold n = .ok ps ∧ a ∈ ps := by
  have hput : ∀ {m : FileMeta} {isLocal : Bool} {v : Int} {st : Store}, m.name = n →
      s.store.commitPut cfg.fold m isLocal = .ok (v, st) → st.names.find key = some a →
      s.store.names.find key = some a ∨ ∃ ps, nameParts cfg.fold n = .ok ps ∧ a ∈ ps := by
    intro m isLocal v st hn hp ha
    obtain ⟨names, hbind, -, rfl⟩ := Store.commitPut_ok hp
    rw [hn] at hbind
    unfold bindName at hbind
    split at hbind
    · cases hbind
    · next ps hps =>
      exact ((bindParts_ok hbind).2.2 key a ha).imp id fun hmem => ⟨ps, hps, hmem⟩
  cases h with
  | inspect h =>
    refine Or.inl ?_
    cases h with
    | stamp ho ht =>
      obtain ⟨d, -, rfl⟩ := place_ok ht
      exact ha
    | rmdir | fence | setQuarantined | unfence | enqueue | defer => exact ha
  | putLocal hn _ hp => exact hput hn hp ha
  | finish hm hp => exact hput (Store.replicaIntent_name hm) hp ha
  | drop => exact Or.inl ha

theorem IndexedRun.names (h : IndexedRun cfg n s t) {key : String} {a : String × String}
    (ha : t.store.names.find key = some a) :
    s.store.names.find key = some a ∨ ∃ ps, nameParts cfg.fold n = .ok ps ∧ a ∈ ps := by
  induction h with
  | refl => exact Or.inl ha
  | tail _ hlast ih =>
    rcases hlast.names ha with h | h
    · exact ih h
    · exact Or.inr h

theorem OnlyFiles.indexed (h : OnlyFiles s.disk) (hst : IndexedRun cfg n s t) :
    OnlyFiles t.disk := by
  intro k hk
  by_cases hkn : k = n
  · subst hkn
    exact h k (hst.aside.special.mp hk)
  · exact h k ((hst.aside.leaves k _ hkn).mp hk)

theorem Settleable.indexed (h : Settleable cfg s) (hst : IndexedRun cfg n s t)
    (hn : s.store.replicaIntent n ≠ none) (hgone : t.store.replicaIntent n = none) :
    Settleable cfg t := by
  have hsub : ∀ k, t.store.replicaIntent k ≠ none →
      t.store.replicaIntent k = s.store.replicaIntent k ∧ s.store.replicaIntent k ≠ none := by
    intro k hk
    have hkn : k ≠ n := fun hkn => hk (hkn ▸ hgone)
    exact ⟨hst.aside.intents k hkn, hst.aside.intents k hkn ▸ hk⟩
  refine ⟨fun k m hm hlive hdir => ?_, fun k hk => ?_, fun j k hj hk => ?_⟩
  · have hk := hsub k (by rw [hm]; nofun)
    exact h.notDir k m (hk.1 ▸ hm) hlive (hst.aside.dirs k hdir)
  · obtain ⟨-, hks⟩ := hsub k hk
    have hcheck := h.spelling k hks
    unfold Store.checkName at hcheck ⊢
    split at hcheck
    · cases hcheck
    · next qs hqs =>
      refine checkParts_iff.mpr fun q hq a ha => ?_
      rcases hst.names ha with ha' | ⟨ps, hps, hmem⟩
      · exact checkParts_iff.mp hcheck q hq a ha'
      · exact h.agree n k hn hks ps qs hps hqs a hmem q hq (Table.find_key ha)
  · exact h.agree j k (hsub j hj).2 (hsub k hk).2

theorem Settleable.finishes (h : Settleable cfg s) (hs : s.store.Sound) (hfiles : OnlyFiles s.disk) (n : String) :
    (recoverReplicaLocked cfg n).Finishes (fun _ t => t.store.replicaIntent n = none) s := by
  refine ((recoverReplicaLocked_finishes (fun m hm => (hs.intents_ok n m hm).clock)
    (h.spelling n) fun m hm hlive => ?_).and_safe (recoverReplicaLocked_clears s)).imp
      fun _ _ => And.right
  cases he : s.disk.lookup n with
  | none => exact Or.inl rfl
  | some e =>
    cases e with
    | dir => exact absurd he (h.notDir n m hm hlive)
    | leaf x =>
      cases x with
      | file o => exact Or.inr ⟨o, rfl⟩
      | special => exact absurd he (hfiles n)

theorem recoverAll_clears (names : List String) (s : Node) :
    (forEach (recoverReplicaLocked cfg) names).Safe (fun _ => True) (fun _ t =>
      ∀ k, k ∈ names ∨ s.store.replicaIntent k = none → t.store.replicaIntent k = none) s := by
  induction names generalizing s with
  | nil => exact safe_pure fun k hk => hk.resolve_left nofun
  | cons n names ih =>
    refine Safe.bind ((recoverReplicaLocked_indexed.along (recoverReplicaLocked_clears s)).weaken
      fun _ _ => id) ?_
    rintro _ t ⟨hst, hgone⟩
    refine (ih t).imp fun _ u hu k hk => hu k ?_
    by_cases hkn : k = n
    · exact Or.inr (hkn ▸ hgone)
    · refine hk.imp (fun hmem => (List.mem_cons.mp hmem).resolve_left hkn) fun hnone => ?_
      exact (hst.aside.intents k hkn).trans hnone

theorem recoverAll_finishes {names : List String} (h : Settleable cfg s) (hs : s.store.Sound)
    (hfiles : OnlyFiles s.disk) :
    (forEach (recoverReplicaLocked cfg) names).Finishes (fun _ _ => True) s := by
  let I : Node → Prop := fun t => Settleable cfg t ∧ t.store.Sound ∧ OnlyFiles t.disk
  refine (finishes_forEach (I := I) (fun n _ t ht => ?_) ⟨h, hs, hfiles⟩).imp fun _ _ _ => trivial
  obtain ⟨ht, hsound, hof⟩ := ht
  by_cases hn : t.store.replicaIntent n = none
  · refine ((ht.finishes hsound hof n).and_safe (recoverReplicaLocked_idle hn)).imp ?_
    rintro _ u ⟨-, rfl⟩
    exact ⟨ht, hsound, hof⟩
  · refine ((ht.finishes hsound hof n).and_safe (recoverReplicaLocked_indexed t)).imp ?_
    rintro _ u ⟨hgone, hrun⟩
    exact ⟨ht.indexed hrun hn hgone, (hrun.onward hsound).1, hof.indexed hrun⟩

theorem recoverReplicas_finishes (h : Settleable cfg s) (hs : s.store.Sound) (hfiles : OnlyFiles s.disk) :
    (recoverReplicas cfg).Finishes (fun _ t => ∀ k, t.store.replicaIntent k = none) s := by
  refine finishes_look_bind (((recoverAll_finishes h hs hfiles).and_safe
    (recoverAll_clears (replicaIntentNames s.store) s)).imp fun _ t ht k => ht.2 k ?_)
  cases hk : s.store.replicaIntent k with
  | none => exact Or.inr rfl
  | some m => exact Or.inl (mem_replicaIntentNames.mpr ⟨m, hk⟩)

end

/-- In every state a run can reach, if the leftover intents are settleable, the pass over them
succeeds and leaves none, on its own and in a restart, and so does the recovery with which
every later refresh of a name begins. -/
theorem leftover_intents_settle (cfg : Config) {s : Node} (hs : NodeRun cfg {} s)
    (hfiles : OnlyFiles s.disk) (h : Settleable cfg s) :
    (recoverReplicas cfg).Finishes (fun _ t => ∀ k, t.store.replicaIntent k = none) s ∧
    (s.store.localIntents = [] → (validateStorageLocked cfg).Finishes
      (fun _ t => ∀ k, t.store.replicaIntent k = none) s.restarted) ∧
    ∀ n, (recoverReplicaLocked cfg n).Finishes (fun _ t => t.store.replicaIntent n = none) s := by
  refine ⟨recoverReplicas_finishes h hs.sound hfiles, fun hlocal => ?_, h.finishes hs.sound hfiles⟩
  have hsettle : Settleable cfg { s.restarted with store := s.restarted.store.endLocal [] } :=
    ⟨h.notDir, h.spelling, h.agree⟩
  have hsound := hs.sound.congr (t := s.restarted.store.endLocal []) (fun _ => rfl) (fun _ => rfl) rfl
  refine (validateStorageLocked_finishes (s := s.restarted) rfl hlocal
    (recoverReplicas_finishes hsettle hsound hfiles)).imp ?_
  rintro _ t ⟨u, hu, rfl⟩
  exact hu

def interruptedNode : Node :=
  ((applyChange plainConfig writtenA []).run (List.replicate 45 .pass ++ [.fail]) startedNode).2

theorem interruptedNode_run : NodeRun plainConfig {} interruptedNode :=
  startedNode_run.tail (.run (.apply writtenA []) (by decide +kernel) trivial ⟨_, rfl⟩)

/-- Nothing has been created at "a", so the next start drops the intent. -/
theorem leftover_intents_settle_dropped :
    interruptedNode.store.replicaIntent "a" = some writtenA ∧
      (recoverReplicas plainConfig).Finishes (fun _ t => ∀ k, t.store.replicaIntent k = none)
        interruptedNode := by
  have hrows : ∀ k m, interruptedNode.store.replicaIntent k = some m → m = writtenA ∧ k = "a" := by
    have hall : ∀ m ∈ interruptedNode.store.replicaIntents.rows, m = writtenA := by decide +kernel
    intro k m hm
    obtain rfl := hall m (Table.find_mem hm)
    exact ⟨rfl, (Store.replicaIntent_name hm).symm⟩
  have hname : ∀ k, interruptedNode.store.replicaIntent k ≠ none → k = "a" := by
    intro k hk
    obtain ⟨m, hm⟩ := Option.ne_none_iff_exists'.mp hk
    exact (hrows k m hm).2
  have hempty : ∀ k, interruptedNode.disk.lookup k = none := by
    have hnil : interruptedNode.disk.entries.rows = [] := by decide +kernel
    intro k
    simp [FileTree.lookup, entryAt, Table.find, hnil]
  refine ⟨by decide +kernel, (leftover_intents_settle plainConfig interruptedNode_run ?_ ?_).1⟩
  · intro k
    rw [hempty]
    simp
  · refine ⟨fun k m _ _ => ?_, fun k hk => ?_, fun j k hj hk ps qs hps hqs => ?_⟩
    · rw [hempty]
      simp
    · rw [hname k hk]
      decide +kernel
    · have ha : nameParts plainConfig.fold "a" = .ok [("a", "a")] := by decide +kernel
      rw [hname j hj, ha] at hps
      rw [hname k hk, ha] at hqs
      cases hps
      cases hqs
      simp

def mkdirCommit : Section := .commit [] ["a"] (fun _ => none) (mkdirOne "a")

def wedgedNode : Node := ((mkdirCommit.prog plainConfig).exec interruptedNode).2

theorem wedgedNode_run : NodeRun plainConfig {} wedgedNode := by
  refine interruptedNode_run.tail (.run mkdirCommit (by decide +kernel) ?_ (stops_exec _ _))
  refine sameIndexFrame.update fun s a t h => ?_
  split at h
  · cases h; exact ⟨rfl, rfl⟩
  · cases h

/-- Every entry of the volume is a directory, every call succeeds, and yet the storage
validation of the next start fails, as does every refresh of "a" before it. -/
theorem leftover_intent_wedges :
    NodeRun plainConfig {} wedgedNode ∧ (∀ r ∈ wedgedNode.disk.entries.rows, r.2 = .dir) ∧
      ((validateStorageLocked plainConfig).exec wedgedNode.restarted).1 =
        .error (.raised (.failed "not a regular file: a")) ∧
      ((refreshTrustedLocked plainConfig "a").exec wedgedNode).1 =
        .error (.raised (.failed "not a regular file: a")) :=
  ⟨wedgedNode_run, by decide +kernel, by decide +kernel, by decide +kernel⟩

end BirakFormal
