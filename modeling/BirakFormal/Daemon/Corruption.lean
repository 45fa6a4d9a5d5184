import BirakFormal.Daemon.Runs

/-!
# Silent corruption

Bytes that change under an unchanged size and timestamp are damage, unless a local intent
covers the name: then the watcher takes them for the work of a commit. A commit that could
not be indexed leaves its intent behind, so the absence of an intent is a condition here.
-/

namespace BirakFormal

open Interruption Prog Relation

/-- The regular file at `n` has the size and the timestamp of its live row `r`, whatever its
bytes are; no commit that covers the name is unfinished, and `past` is what was committed
for it so far. -/
structure LooksIndexed (cfg : Config) (n : String) (r : FileMeta) (past : List (Bool × FileMeta))
    (t : Node) : Prop where
  row : t.store.getFile n = some r
  live : r.deleted = false
  history : t.store.history n = past
  intent : t.store.replicaIntent n = none
  untrusted : t.store.hasLocalIntent n = false
  file : ∃ o, t.disk.lookup n = some (.leaf (.file o)) ∧ r.size = o.bytes.length ∧
    sameModTime cfg o.modTime r.modTime = true

section
variable {cfg : Config} {n : String} {r : FileMeta} {past : List (Bool × FileMeta)} {s t : Node}

/-- A step keeps the look of `n` and adds no commit for it. -/
abbrev KeepsLook (cfg : Config) (n : String) (r : FileMeta) (past : List (Bool × FileMeta)) (s t : Node) : Prop :=
  LooksIndexed cfg n r past s → LooksIndexed cfg n r past t

theorem LooksIndexed.aside {k : String} (h : LooksIndexed cfg n r past s) (hk : n ≠ k)
    (hst : Aside k s t) : LooksIndexed cfg n r past t := by
  obtain ⟨o, ho, hlook⟩ := h.file
  refine ⟨(hst.rows n hk).trans h.row, h.live, (hst.history n hk).trans h.history,
    (hst.intents n hk).trans h.intent, ?_, o, (hst.leaves n _ hk).mpr ho, hlook⟩
  rw [Store.hasLocalIntent, hst.localIntents]
  exact h.untrusted

theorem LooksIndexed.congr (h : LooksIndexed cfg n r past s) (hst : SameRows s t)
    (hview : SameView s t) : LooksIndexed cfg n r past t := by
  refine ⟨(hst.getFile n).trans h.row, h.live, ?_, (hst.replicaIntent n).trans h.intent, ?_, ?_⟩
  · rw [Store.history, hst.puts]
    exact h.history
  · rw [Store.hasLocalIntent, hview.2]
    exact h.untrusted
  · rw [hview.1]
    exact h.file

theorem quarantineFor_looks (m : FileMeta) (reason : String) :
    (quarantineFor cfg m reason).Within (KeepsLook cfg n r past) := by
  have F := invariantFrame (LooksIndexed cfg n r past)
  refine F.bind (F.check _) fun key => F.bind (F.alter fun s h => ?_) fun _ =>
    F.bind (F.alter fun s h => ?_).attempt fun res => ?_
  · exact h.congr ⟨rfl, rfl, rfl⟩ ⟨rfl, rfl⟩
  · exact h.congr ⟨rfl, rfl, rfl⟩ ⟨rfl, rfl⟩
  · match res with
    | .error _ => exact F.raise _
    | .ok () =>
      dsimp only
      split
      · exact F.raise _
      · refine F.bind ?_ fun _ => F.raise _
        induction cfg.repairPeers with
        | nil => exact F.pure ()
        | cons peer peers ih =>
          refine F.bind (F.perform fun s h => h.congr ⟨rfl, rfl, rfl⟩ ⟨rfl, rfl⟩).attempt fun e => ?_
          match e with
          | .ok () => exact ih
          | .error _ => exact F.raise _

theorem readFailed_looks (existing : Option FileMeta) (e : Failure Err) :
    (readFailed cfg existing e).Within (KeepsLook cfg n r past) := by
  have F := invariantFrame (LooksIndexed cfg n r past)
  cases e with
  | raised e => exact F.raise e
  | fault =>
    refine F.bind F.barrier.attempt fun res => ?_
    match res with
    | .error e => exact F.rethrow e
    | .ok () =>
      dsimp only
      split
      · exact quarantineFor_looks _ _
      · exact F.raise _

theorem clearIntegrity_looks (verified : Option ObjectKey) :
    (clearIntegrity n verified).Within (KeepsLook cfg n r past) := by
  have F := invariantFrame (LooksIndexed cfg n r past)
  refine F.bind (F.look _) fun fenced => ?_
  split
  · exact F.pure ()
  · exact F.bind (F.onlyIf F.barrier) fun _ =>
      F.alter fun s h => h.congr ⟨rfl, rfl, rfl⟩ ⟨rfl, rfl⟩

variable {o : FileObj}

theorem snapshotWith_info (published : Option Hashed) (ho : s.disk.lookup n = some (.leaf (.file o))) :
    (snapshotWith cfg n published).Safe (fun t => t = s) (fun p t => t = s ∧ p.1 = o.key) s := by
  have hsnap : (snapshot cfg n >>= fun p => (pure (p.1.key, p.2) : Sys _)).Safe (fun t => t = s)
      (fun p t => t = s ∧ p.1 = o.key) s := by
    refine safe_check_bind rfl fun p hp => safe_pure ⟨rfl, ?_⟩
    simp only [ho, Except.ok.injEq] at hp
    rw [← hp]
  cases published with
  | none => exact hsnap
  | some h =>
    refine safe_attempt_look_bind rfl hsnap ?_
    simp only [ho]
    split
    · next hkey => exact safe_pure ⟨rfl, hkey.symm⟩
    · exact hsnap

theorem inspectRegular_looks (opts : IndexOptions) (h : LooksIndexed cfg n r past s) :
    (inspectRegular cfg n (s.store.getFile n) opts).Safe (LooksIndexed cfg n r past)
      (fun v t => v = none ∧ LooksIndexed cfg n r past t) s := by
  have F := invariantFrame (LooksIndexed cfg n r past)
  obtain ⟨o, ho, hsize, htime⟩ := h.file
  have hquar : ∀ {t} m reason, LooksIndexed cfg n r past t → (quarantineFor cfg m reason).Safe
      (LooksIndexed cfg n r past) (fun v t => v = none ∧ LooksIndexed cfg n r past t) t := by
    intro t m reason ht
    exact ((quarantineFor_looks m reason).along (quarantineFor_fails m reason t)).mono
      (fun _ hu => hu ht) fun _ _ hu => hu.2.elim
  rw [h.row]
  refine Safe.bind (R := fun res t => t = s ∧ ∀ p, res = .ok p → p.1 = o.key)
    (safe_attempt (Sat.mono (snapshotWith_info _ ho) (fun _ ht => ht ▸ h)
      (fun _ _ ht => ⟨ht, nofun⟩) fun p _ hp => ⟨hp.1, fun _ hq => Except.ok.inj hq ▸ hp.2⟩)) ?_
  rintro res t ⟨rfl, hinfo⟩
  match res with
  | .error e =>
    exact ((readFailed_looks _ e).along (readFailed_fails _ e t)).mono (fun _ hu => hu h)
      fun _ _ hu => hu.2.elim
  | .ok (info, hash) =>
    obtain rfl : info = o.key := hinfo _ rfl
    refine safe_look_bind h (safe_look_bind h ?_)
    rw [h.untrusted]
    split
    · exact hquar _ _ h
    · split
      · exact hquar _ _ h
      · next hsilent =>
        -- The hash is the indexed one: a different one would have been damage.
        have hash_eq : r.hash = hash := by
          by_contra hne
          apply hsilent
          simp [silentlyChanged, liveRow_of_live h.live, hne, htime, hsize, FileObj.key]
        refine safe_look_bind h (Safe.bind (R := fun _ => LooksIndexed cfg n r past)
          ((F.onlyIf ?_ t).mono (fun _ hu => hu h) fun _ _ hu => hu h) fun _ u hu => ?_)
        · exact F.bind F.barrier fun _ => F.bind F.barrier fun _ => clearIntegrity_looks _
        · unfold inspectVerdict
          rw [liveRow_of_live h.live]
          dsimp only
          rw [if_pos ⟨hash_eq, hsize⟩, if_pos (show sameModTime cfg o.key.modTime r.modTime = true from htime)]
          exact safe_pure ⟨rfl, hu⟩

theorem inspectFile_looks (opts : IndexOptions) (h : LooksIndexed cfg n r past s) :
    (inspectFile cfg n opts).Safe (LooksIndexed cfg n r past)
      (fun v t => v = none ∧ LooksIndexed cfg n r past t) s := by
  obtain ⟨o, ho, -⟩ := h.file
  unfold inspectFile
  split
  · exact safe_pure ⟨rfl, h⟩
  · refine safe_look_bind h ?_
    split
    · exact safe_raise h
    · refine safe_look_bind h (safe_look_bind h ?_)
      rw [ho]
      exact inspectRegular_looks opts h

theorem refreshFileLocked_looks (k : String) (opts : IndexOptions) :
    (refreshFileLocked cfg k opts).Within (KeepsLook cfg n r past) := by
  by_cases hk : n = k
  · subst hk
    refine within_invariant fun s h => safe_check_bind h fun _ _ =>
      safe_barrier_bind h (safe_look_bind h ?_)
    split
    · exact safe_raise h
    · refine Safe.bind ((recoverReplicaLocked_idle h.intent).mono (fun _ ht => ht ▸ h)
        fun _ _ => id) ?_
      rintro _ t rfl
      refine Safe.bind ((trustedUnchanged_reads opts t).mono (fun _ ht => ht ▸ h) fun _ _ => id) ?_
      rintro unchanged u rfl
      split
      · exact safe_pure h
      · refine Safe.bind (inspectFile_looks opts h) ?_
        rintro v w ⟨rfl, hw⟩
        exact safe_pure hw
  · exact (refreshFileLocked_indexed opts).mono fun _ _ hst h => h.aside hk hst.aside

theorem recoverReplicaLocked_looks (k : String) : (recoverReplicaLocked cfg k).Within (KeepsLook cfg n r past) := by
  by_cases hk : n = k
  · subst hk
    refine within_invariant fun s h => ?_
    exact (recoverReplicaLocked_idle h.intent).mono (fun _ ht => ht ▸ h) fun _ _ ht => ht ▸ h
  · exact recoverReplicaLocked_indexed.mono fun _ _ hst h => h.aside hk hst.aside

theorem looksUpkeep (cfg : Config) (n : String) (r : FileMeta) (past : List (Bool × FileMeta)) :
    Upkeep cfg (KeepsLook cfg n r past) where
  frame := invariantFrame _
  refresh := refreshFileLocked_looks
  recover := recoverReplicaLocked_looks
  endLocal s names h := by
    refine ⟨h.row, h.live, h.history, h.intent, ?_, h.file⟩
    have hnone := h.untrusted
    simp only [Store.hasLocalIntent, Store.endLocal, List.any_eq_false, List.mem_filter] at hnone ⊢
    exact fun p hp => hnone p hp.1
  recovered s h := ⟨h.row, h.live, h.history, h.intent, h.untrusted, h.file⟩

def Fenced (m : String) (u : Node) : Prop := m ∈ u.quarantined ∧ m ∈ u.store.quarantine

theorem mem_insertNew {α : Type} [DecidableEq α] (a : α) (l : List α) : a ∈ insertNew a l := by
  unfold insertNew
  split
  · assumption
  · exact List.mem_cons_self

theorem enqueueRepairs_raises (m : FileMeta) (reason : String) (peers : List String) (h : Fenced m.name t) :
    (enqueueRepairs cfg m reason peers >>= fun _ =>
      (raise (.integrity m.name) : Sys (Option FileMeta))).Raises (.integrity m.name)
        (Fenced m.name) t := by
  induction peers generalizing t with
  | nil => exact raises_raise h
  | cons peer peers ih =>
    have hnext : Fenced m.name (t.enqueueChange cfg peer reason m).2 := h
    rw [enqueueRepairs, Prog.bind_assoc]
    refine Finishes.bind_raises (R := fun _ => Fenced m.name) ⟨_, _, exec_attempt _ _, hnext⟩ ?_
    intro res u hu
    cases res with
    | ok _ => exact ih hu
    | error _ => exact Raises.bind (raises_raise hu)

theorem quarantineFor_raises {m : FileMeta} (reason : String) (ho : t.disk.lookup m.name = some (.leaf (.file o))) :
    (quarantineFor cfg m reason).Raises (.integrity m.name) (Fenced m.name) t := by
  refine Finishes.bind_raises (R := fun _ u => u = t) (finishes_check (a := o.key) (by rw [ho]) rfl) ?_
  rintro key u rfl
  refine raises_alter_bind (Finishes.bind_raises (R := fun res v => res = .ok () ∧ Fenced m.name v)
    (Finishes.attempt (finishes_alter ⟨rfl, ?_⟩)) ?_)
  · exact ⟨mem_insertNew _ _, mem_insertNew _ _⟩
  · rintro res v ⟨rfl, hv⟩
    dsimp only
    split
    · exact raises_raise hv
    · exact enqueueRepairs_raises m reason _ hv

theorem snapshotWith_finishes (published : Option Hashed) (ho : t.disk.lookup n = some (.leaf (.file o))) :
    (snapshotWith cfg n published).Finishes (fun _ _ => True) t := by
  have hsnap : (snapshot cfg n >>= fun p => (pure (p.1.key, p.2) : Sys _)).Finishes
      (fun _ _ => True) t :=
    finishes_check_bind (a := (o, cfg.digest.hash o.bytes)) (by rw [ho]) (finishes_pure trivial)
  cases published with
  | none => exact hsnap
  | some h =>
    refine Finishes.bind (R := fun res u => res = .ok (some (.leaf (.file o))) ∧ u = t)
      (Finishes.attempt (finishes_look ⟨congrArg _ ho, rfl⟩)) ?_
    rintro res u ⟨rfl, rfl⟩
    dsimp only
    split
    · exact finishes_pure trivial
    · exact hsnap

theorem refreshFileLocked_corrupted {opts : IndexOptions}
    (h : LooksIndexed cfg n r past t) (ho : t.disk.lookup n = some (.leaf (.file o)))
    (hcorrupt : cfg.digest.hash o.bytes ≠ r.hash) (hn : Watchable cfg n) (hw : n ∉ t.writers)
    (hname : t.store.checkName cfg.fold n = .ok ()) (htrust : opts.trustStat = false)
    (hpub : Honest cfg t n (opts.published n)) :
    (refreshFileLocked cfg n opts).Raises (.integrity n) (Fenced n) t := by
  have hr : r.name = n := Store.getFile_name h.row
  have hdamage : ∀ reason, (quarantineFor cfg r reason).Raises (.integrity n) (Fenced n) t := by
    intro reason
    have hq : (quarantineFor cfg r reason).Raises (.integrity r.name) (Fenced r.name) t :=
      quarantineFor_raises reason (hr ▸ ho)
    exact hr ▸ hq
  have hinspect : (inspectRegular cfg n (some r) opts).Raises (.integrity n) (Fenced n) t := by
    refine Finishes.bind_raises (R := fun res u => res = .ok (o.key, cfg.digest.hash o.bytes) ∧ u = t)
      (Finishes.attempt (((snapshotWith_finishes _ ho).and_safe (snapshotWith_finds ho hpub.vouched)).imp
        fun p u hp => ⟨congrArg _ hp.2.2, hp.2.1⟩)) ?_
    rintro res u ⟨rfl, rfl⟩
    refine raises_look_bind (raises_look_bind ?_)
    split
    · exact hdamage _
    · rw [if_pos]
      · exact hdamage _
      · obtain ⟨o', ho', hsize, htime⟩ := h.file
        obtain rfl : o' = o := by
          rw [ho] at ho'
          cases ho'
          rfl
        simp [h.untrusted, silentlyChanged, liveRow_of_live h.live, hcorrupt.symm, htime, hsize, FileObj.key]
  refine Finishes.bind_raises (R := fun _ u => u = t) (finishes_check hname rfl) ?_
  rintro _ u rfl
  refine raises_barrier_bind (raises_look_bind ?_)
  rw [if_neg (by simpa using hw)]
  refine Finishes.bind_raises (R := fun _ v => v = u) ?_ ?_
  · refine finishes_look_bind ?_
    rw [h.intent]
    exact finishes_pure rfl
  · rintro _ v rfl
    refine Finishes.bind_raises (R := fun b w => b = false ∧ w = v) ?_ ?_
    · unfold trustedUnchanged
      rw [htrust]
      exact finishes_pure ⟨rfl, rfl⟩
    · rintro _ w ⟨rfl, rfl⟩
      refine Raises.bind ?_
      unfold inspectFile
      rw [if_neg (by simp [hn.1, hn.2])]
      refine raises_look_bind ?_
      rw [if_neg (by simpa using hw)]
      refine raises_look_bind (raises_look_bind ?_)
      rw [ho, h.row]
      exact hinspect

def covers (p n : String) : Bool := n = p || hasPrefix n (p ++ "/")

theorem hasLocalIntent_beginLocal {fold : String → String} {names : List String}
    {s st : Store} (h : s.beginLocal fold names = .ok st) (hn : ∀ p ∈ names, covers p n = false)
    (hs : s.hasLocalIntent n = false) : st.hasLocalIntent n = false := by
  induction names generalizing s with
  | nil => cases h; exact hs
  | cons path paths ih =>
    unfold Store.beginLocal at h
    split at h
    · cases h
    · refine ih h (fun p hp => hn p (List.mem_cons_of_mem path hp)) ?_
      have hpath : (decide (n = path) || hasPrefix n (path ++ "/")) = false :=
        hn path List.mem_cons_self
      unfold Store.hasLocalIntent at hs ⊢
      dsimp only
      split
      · exact hs
      · rw [List.any_append, hs]
        simpa using hpath

/-- The index is as before, and the file at `n` still looks as its row says. -/
def OnlyBytes (cfg : Config) (n : String) (s t : Node) : Prop :=
  SameIndex s t ∧ ∀ r, t.store.getFile n = some r → ∃ o,
    t.disk.lookup n = some (.leaf (.file o)) ∧ r.size = o.bytes.length ∧ sameModTime cfg o.modTime r.modTime = true

/-- A step of a node in which no commit covers `n`: a watcher event, a sweep or a scrub of any
name, a gateway commit of other names, a restart, and more damage from outside. -/
inductive UncoveredStep (cfg : Config) (n : String) : Node → Node → Prop where
  | refresh {s t : Node} (name : String) (opts : IndexOptions)
      (h : (refreshWith cfg name opts).Stops s t) : UncoveredStep cfg n s t
  | commit {s t : Node} (sources names : List String) (published : String → Option Hashed)
      (fn : Sys Unit) (hn : ∀ p ∈ names, covers p n = false)
      (hfn : fn.Within fun s t => SameIndex s t ∧ t.disk.lookup n = s.disk.lookup n)
      (h : (commitPublishedLocked cfg sources names published fn).Stops s t) :
      UncoveredStep cfg n s t
  | restart {s t : Node} (h : (validateStorageLocked cfg).Stops s.restarted t) :
      UncoveredStep cfg n s t
  | external {s t : Node} (h : OnlyBytes cfg n s t) : UncoveredStep cfg n s t

abbrev UncoveredRun (cfg : Config) (n : String) : Node → Node → Prop :=
  ReflTransGen (UncoveredStep cfg n)

theorem LooksIndexed.sameIndex (h : LooksIndexed cfg n r past s) (hst : SameIndex s t)
    (hfile : ∃ o, t.disk.lookup n = some (.leaf (.file o)) ∧ r.size = o.bytes.length ∧
      sameModTime cfg o.modTime r.modTime = true) : LooksIndexed cfg n r past t := by
  refine ⟨?_, h.live, ?_, ?_, ?_, hfile⟩ <;> rw [hst.1]
  · exact h.row
  · exact h.history
  · exact h.intent
  · exact h.untrusted

theorem UncoveredStep.looks (hst : UncoveredStep cfg n s t) (h : LooksIndexed cfg n r past s) :
    LooksIndexed cfg n r past t := by
  have U := looksUpkeep cfg n r past
  cases hst with
  | refresh name opts hstops => exact (U.refreshWith name opts).stops hstops h
  | commit sources names published fn hn hfn hstops =>
    refine (U.commitPublishedLocked sources published ?_ ?_).stops hstops h
    · exact hfn.mono fun s t hst h => h.sameIndex hst.1 (hst.2 ▸ h.file)
    · intro s st hbegin h
      obtain ⟨hf, hi, hp⟩ := beginLocal_rows hbegin
      refine ⟨?_, h.live, ?_, ?_, hasLocalIntent_beginLocal hbegin hn h.untrusted, h.file⟩
      · exact (congrArg (·.find n) hf).trans h.row
      · rw [Store.history, hp]
        exact h.history
      · exact (congrArg (·.find n) hi).trans h.intent
  | restart hstops =>
    have hrestart : LooksIndexed cfg n r past s.restarted :=
      ⟨h.row, h.live, h.history, h.intent, h.untrusted, h.file⟩
    exact U.validateStorageLocked.stops hstops hrestart
  | external hsame =>
    refine h.sameIndex hsame.1 (hsame.2 r ?_)
    rw [hsame.1.1]
    exact h.row

theorem UncoveredRun.looks (hst : UncoveredRun cfg n s t) (h : LooksIndexed cfg n r past s) :
    LooksIndexed cfg n r past t :=
  (invariantFrame (LooksIndexed cfg n r past)).of_steps (fun _ _ => UncoveredStep.looks) hst h

end

/-- Once the bytes at `n` have changed under the size and the timestamp of its row, with no
unfinished commit on the name, nothing is committed for `n` until a commit covers it, and
every refresh that reads the bytes fences the name. -/
theorem silent_corruption_not_published (cfg : Config) (n : String) {r : FileMeta} {s t : Node}
    (h : LooksIndexed cfg n r (s.store.history n) s) (hst : UncoveredRun cfg n s t) :
    t.store.history n = s.store.history n ∧ t.store.getFile n = some r ∧
    ∀ o opts, t.disk.lookup n = some (.leaf (.file o)) → cfg.digest.hash o.bytes ≠ r.hash →
      Watchable cfg n → n ∉ t.writers → t.store.checkName cfg.fold n = .ok () →
      opts.trustStat = false → Honest cfg t n (opts.published n) →
      (refreshFileLocked cfg n opts).Raises (.integrity n) (Fenced n) t := by
  have ht := hst.looks h
  refine ⟨ht.history, ht.row, ?_⟩
  intro o opts ho hcorrupt hn hw hname htrust hpub
  exact refreshFileLocked_corrupted ht ho hcorrupt hn hw hname htrust hpub

def saveA (byte : UInt8) : Sys Unit :=
  update fun s => (s.place "a" ⟨[byte], 5, 9⟩).map fun t => ((), t)

def saveCommit : Section := .commit [] ["a"] (fun _ => none) (saveA 1)

def damaged (s : Node) : Node := ((saveA 2).exec s).2

def savedNode : Node := ((saveCommit.prog plainConfig).exec startedNode).2

def savedRow : FileMeta :=
  { name := "a", modTime := 5, size := 1, hash := sha256.hash [1], version := 1, clock := 5 }

/-- After a commit that finished, the flipped byte is damage. -/
theorem silent_corruption_not_published_fenced :
    bytesAt savedNode.disk "a" = some [1] ∧ bytesAt (damaged savedNode).disk "a" = some [2] ∧
      (refreshFileLocked plainConfig "a" {}).Raises (.integrity "a") (Fenced "a") (damaged savedNode) := by
  have hdisk : (damaged savedNode).disk.lookup "a" = some (.leaf (.file ⟨[2], 5, 9⟩)) := by
    decide +kernel
  have hlooks : LooksIndexed plainConfig "a" savedRow ((damaged savedNode).store.history "a")
      (damaged savedNode) :=
    ⟨by decide +kernel, rfl, rfl, by decide +kernel, by decide +kernel, _, hdisk, rfl, by decide⟩
  exact ⟨by decide +kernel, by decide +kernel,
    (silent_corruption_not_published plainConfig "a" hlooks .refl).2.2 _ {} hdisk (by decide +kernel)
      ⟨by decide +kernel, by decide +kernel⟩ (by decide +kernel) (by decide +kernel) rfl nofun⟩

def unfinishedNode : Node :=
  ((saveCommit.prog plainConfig).run (List.replicate 21 .pass ++ [.fail]) startedNode).2

theorem unfinishedNode_run : NodeRun plainConfig {} unfinishedNode := by
  refine startedNode_run.tail (.run saveCommit (by decide +kernel) ?_ ⟨_, rfl⟩)
  refine sameIndexFrame.update fun s a t h => ?_
  cases hp : s.place "a" ⟨[1], 5, 9⟩ with
  | error e => rw [hp] at h; cases h
  | ok u =>
    rw [hp] at h
    cases h
    obtain ⟨d, -, rfl⟩ := place_ok hp
    exact ⟨rfl, rfl⟩

/-- The commit is over and its row is there. The byte flips under the indexed size and
timestamp, and the next refresh commits it as a local version and fences nothing. -/
theorem leftover_intent_publishes_corruption :
    NodeRun plainConfig {} unfinishedNode ∧ unfinishedNode.store.getFile "a" = some savedRow ∧
      bytesAt unfinishedNode.disk "a" = some [1] ∧
      (damaged unfinishedNode).store.getFile "a" = some savedRow ∧
      (damaged unfinishedNode).disk.lookup "a" = some (.leaf (.file ⟨[2], 5, 9⟩)) ∧
      ((refreshFileLocked plainConfig "a" {}).exec (damaged unfinishedNode)).1 = .ok () ∧
      (let t := ((refreshFileLocked plainConfig "a" {}).exec (damaged unfinishedNode)).2
       (t.store.history "a").head? =
          some (true, { savedRow with hash := sha256.hash [2], version := 2, clock := 6 }) ∧
        t.quarantined = [] ∧ t.store.quarantine = []) :=
  ⟨unfinishedNode_run, by decide +kernel, by decide +kernel, by decide +kernel, by decide +kernel,
    by decide +kernel, by decide +kernel⟩

end BirakFormal
