import BirakFormal.Fileops.Changes
import BirakFormal.Fileops.Recovered

/-!
# Changes leave nothing to be flushed

Every rename is followed by a flush of the directory it went to, and a new file is flushed
before it gets a name. So each change that no call refuses ends, with or without an error of
its own, with everything durable that it shows.
-/

namespace BirakFormal

open Interruption Prog Subtrees

structure Floor where
  next : Nat
  contents : Nat → Option Bytes
  journals : Replacement → Prop

/-- Everything outside `pending` is durable, above the floor `F`. -/
structure Grounded (F : Floor) (pending : Path → Prop) (w : Layered) : Prop extends Persisted pending w where
  grown : F.next ≤ w.next
  contents : ∀ i, i < F.next → w.contents i = F.contents i
  journaled : ∀ s, w.disk.journal = some s → F.journals s

def Clear (pending : Path → Prop) (s : Replacement) : Prop :=
  ∀ x rel, ¬ pending (s.destination ++ x :: rel) ∧ ¬ pending (s.source ++ x :: rel) ∧
    ¬ pending (s.backup ++ x :: rel)

def Thinned (d d' : Disk) : Prop :=
  (∀ p o, d'.tree.lookup p = some o → d.tree.lookup p = some o) ∧
    (Rooted d.tree → Rooted d'.tree) ∧ (∀ s, d'.journal = some s → d.journal = some s)

theorem thinnedFrame : Frame Thinned where
  refl _ := ⟨fun _ _ => id, id, fun _ => id⟩
  trans h h' := ⟨fun p o ho => h.1 p o (h'.1 p o ho), fun hr => h'.2.1 (h.2.1 hr),
    fun s hs => h.2.2 s (h'.2.2 s hs)⟩

theorem unlink_thinned {d d' : Disk} {p : Path} {o : Object} {u : Unit}
    (h : d.unlink p o = .ok (u, d')) : Thinned d d' := by
  unfold Disk.unlink at h
  split at h
  · cases h
  · next hleaf =>
    cases h
    refine ⟨fun k x hx => ?_, fun hr => hr.erase (Bool.eq_false_of_not_eq_true hleaf), fun _ => id⟩
    change (if k = p then none else d.tree.lookup k) = some x at hx
    split at hx
    · cases hx
    · exact hx

theorem removePath_thinned (p : Path) : (removePath p).Within Thinned := by
  refine thinnedFrame.update fun d u d' h => ?_
  split at h
  · cases h
  · exact unlink_thinned h

theorem removeIfThere_thinned (p : Path) : (removeIfThere p).Within Thinned := by
  refine thinnedFrame.update fun d u d' h => ?_
  split at h
  · cases h
    exact thinnedFrame.refl d
  · exact unlink_thinned h

theorem removeReplacementTree_thinned (p : Path) : (removeReplacementTree p).Within Thinned :=
  thinnedFrame.bind (thinnedFrame.look _) fun _ => thinnedFrame.forEach fun _ _ => removePath_thinned _

theorem removeJournal_thinned : removeJournal.Within Thinned := by
  refine thinnedFrame.update fun d u d' h => ?_
  split at h
  · cases h
  · cases h
    exact ⟨fun _ _ => id, id, nofun⟩

section
variable {F : Floor} {pending : Path → Prop} {w : Layered}

theorem Grounded.mono (h : Grounded F pending w) {pending' : Path → Prop}
    (hsub : ∀ k, w.disk.tree.lookup k ≠ none → pending k → pending' k) : Grounded F pending' w :=
  { h with toPersisted := h.toPersisted.mono hsub }

theorem Grounded.within (h : Grounded F pending w) {d : Disk}
    (hsub : Layering.Within Object.inode Object.content d.tree w.disk.tree) (hr : Rooted d.tree)
    (hj : ∀ s, d.journal = some s → F.journals s) : Grounded F pending { w with disk := d } :=
  { toPersisted := h.toPersisted.within hsub hr, grown := h.grown, contents := h.contents, journaled := hj }

theorem Grounded.thinned (h : Grounded F pending w) {d : Disk} (hd : Thinned w.disk d) :
    Grounded F pending { w with disk := d } :=
  h.within (fun p o ho => ⟨o, hd.1 p o ho, rfl, rfl⟩) (hd.2.1 h.rooted)
    fun s hs => h.journaled s (hd.2.2 s hs)

theorem onDisk_maintains {α : Type} {p : Fs α} (hp : p.Within Thinned) :
    (Layered.onDisk p).Maintains (Grounded F pending) := by
  intro w hw
  refine ((Sat.clean (hp w.disk)).zoom Layered.diskPart).mono (fun _ _ => trivial) ?_ ?_
  · rintro e u ⟨d, rfl, hd⟩
    exact hw.thinned hd
  · rintro a u ⟨d, rfl, hd⟩
    exact hw.thinned hd

theorem onDisk_reads {α : Type} {p : Fs α} (hp : p.Within fun d d' => d' = d) :
    (Layered.onDisk p).Maintains (Grounded F pending) :=
  onDisk_maintains (hp.mono fun d _ h => h ▸ thinnedFrame.refl d)

theorem writeReplacement_maintains {s : Replacement} (hs : F.journals s) :
    (Layered.onDisk (writeReplacement s)).Maintains (Grounded F pending) := by
  intro w hw
  have hdone : Grounded F pending { w with disk := { w.disk with journal := some s } } :=
    hw.within (fun p o ho => ⟨o, ho, rfl, rfl⟩) hw.rooted fun s' hs' => by cases hs'; exact hs
  exact ⟨trivial, trivial, trivial, trivial, trivial, hdone⟩

/-- On the tree `t`, `p` flushes the directories `dirs` and does nothing else. -/
def Flushes (F : Floor) (t : PathMap String Object) (dirs : List Path) (p : LayeredProg Unit) : Prop :=
  ∀ pending w, w.disk.tree = t → Grounded F pending w → p.Clean (fun _ => True) (fun _ _ => False)
    (fun _ u => u.disk.tree = t ∧ Grounded F (fun k => pending k ∧ k.dropLast ∉ dirs) u) w

variable {t : PathMap String Object} {dirs dirs' : List Path} {p q : LayeredProg Unit}

theorem Flushes.mono (h : Flushes F t dirs p) (hsub : ∀ dir ∈ dirs', dir ∈ dirs) :
    Flushes F t dirs' p := by
  intro pending w ht hw
  refine (h pending w ht hw).mono (fun _ => id) (fun _ _ => id) ?_
  rintro _ u ⟨hu, hkept⟩
  exact ⟨hu, hkept.mono fun k _ hk => ⟨hk.1, fun hmem => hk.2 (hsub _ hmem)⟩⟩

theorem flushes_syncDir (dir : Path) : Flushes F t [dir] (Layered.syncDir dir) := by
  intro pending w ht hw
  refine clean_alter trivial ⟨ht, ?_⟩
  have hflush := hw.toPersisted.flushDir dir
  exact { toPersisted := hflush.mono fun k _ hk => ⟨hk.1, by simpa using hk.2⟩
          grown := hw.grown, contents := hw.contents, journaled := hw.journaled }

theorem flushes_forEach (dirs : List Path) : Flushes F t dirs (forEach Layered.syncDir dirs) := by
  induction dirs with
  | nil =>
    intro pending w ht hw
    exact ⟨ht, hw.mono fun k _ hk => ⟨hk, List.not_mem_nil⟩⟩
  | cons dir dirs ih =>
    intro pending w ht hw
    refine (flushes_syncDir dir pending w ht hw).bind ?_
    rintro _ u ⟨hu, hkept⟩
    refine (ih _ u hu hkept).mono (fun _ => id) (fun _ _ => id) ?_
    rintro _ v ⟨hv, hkept⟩
    refine ⟨hv, hkept.mono fun k _ hk => ⟨hk.1.1, ?_⟩⟩
    intro hmem
    rcases List.mem_cons.mp hmem with heq | hmem
    · exact hk.1.2 (heq ▸ List.mem_cons_self)
    · exact hk.2 hmem

theorem flushes_syncParents (dir : Path) : Flushes F t [dir] (Layered.syncParents dir) := by
  refine (flushes_forEach dir.inits.reverse).mono fun k hk => ?_
  rw [List.mem_singleton] at hk
  rw [hk, List.mem_reverse]
  exact (List.mem_inits _ _).mpr List.prefix_rfl

theorem flushes_syncSurvivingParent (p : Path) :
    Flushes F t [survivingParent t p] (Layered.syncSurvivingParent p) := by
  intro pending w ht hw
  subst ht
  exact clean_look_bind trivial (flushes_syncParents _ pending w rfl hw)

theorem flushes_syncBoth (hp : Flushes F t dirs p) (hq : Flushes F t dirs' q) :
    Flushes F t (dirs ++ dirs') (Layered.syncBoth p q) := by
  intro pending w ht hw
  refine Clean.bind (R := fun r u => r = .ok () ∧ u.disk.tree = t ∧
      Grounded F (fun k => pending k ∧ k.dropLast ∉ dirs) u)
    (clean_attempt.mpr ((hp pending w ht hw).mono (fun _ => id) (fun _ _ => False.elim)
      fun _ _ hu => ⟨rfl, hu⟩)) ?_
  rintro r u ⟨rfl, hu, hkept⟩
  refine Clean.bind (R := fun r v => r = .ok () ∧ v.disk.tree = t ∧
      Grounded F (fun k => (pending k ∧ k.dropLast ∉ dirs) ∧ k.dropLast ∉ dirs') v)
    (clean_attempt.mpr ((hq _ u hu hkept).mono (fun _ => id) (fun _ _ => False.elim)
      fun _ _ hv => ⟨rfl, hv⟩)) ?_
  rintro r v ⟨rfl, hv, hkept⟩
  refine ⟨hv, hkept.mono fun k _ hk => ⟨hk.1.1, ?_⟩⟩
  rw [List.mem_append, not_or]
  exact ⟨hk.1.2, hk.2⟩

theorem Flushes.maintains (h : ∀ t, Flushes F t [] p) : p.Maintains (Grounded F pending) := by
  intro w hw
  refine (h _ pending w rfl hw).mono (fun _ => id) (fun _ _ => False.elim) ?_
  rintro _ u ⟨-, hu⟩
  exact hu.mono fun k _ hk => hk.1

theorem renamePath_clean {a b : Path} (hw : Grounded F pending w) (hclear : ∀ x rel, ¬ pending (a ++ x :: rel)) :
    (Layered.onDisk (renamePath a b)).Clean (fun _ => True) (fun _ => Grounded F pending)
      (fun _ u => Grounded F (fun k => k = b ∨ pending k) u ∧ isDirAt u.disk.tree b.dropLast = true) w := by
  have hstep : (renamePath a b).Clean (fun _ => True) (fun _ d => d = w.disk)
      (fun _ d => ¬ a <+: b ∧ ¬ b <+: a ∧ isDirAt w.disk.tree b.dropLast = true ∧
        d = { w.disk with tree := w.disk.tree.move a b }) w.disk := by
    refine clean_update trivial (fun _ _ => rfl) fun _ d hd => ?_
    split at hd
    · cases hd
    · split at hd
      · cases hd
      · next hsep =>
        split at hd
        · cases hd
        · next hmay =>
          cases hd
          simp only [Bool.or_eq_true, Bool.not_eq_true', not_or, Bool.not_eq_false] at hmay
          exact ⟨fun h => hsep (Or.inl h), fun h => hsep (Or.inr h), hmay.1, rfl⟩
  refine (hstep.zoom Layered.diskPart).mono (fun _ _ => trivial) ?_ ?_
  · rintro e u ⟨d, rfl, rfl⟩
    exact hw
  · rintro _ u ⟨d, rfl, hab, hba, hdir, rfl⟩
    have hmoved := hw.toPersisted.move hab hba hdir hclear
    refine ⟨{ toPersisted := hmoved, grown := hw.grown, contents := hw.contents, journaled := hw.journaled }, ?_⟩
    -- The directory of the new entry is not part of what moved.
    have hb : b ≠ [] := fun hnil => hba (hnil ▸ List.nil_prefix)
    have hstay : (w.disk.tree.move a b).lookup b.dropLast = w.disk.tree.lookup b.dropLast := by
      rw [Layering.move_lookup, if_neg, if_neg fun h => hab (h.trans (List.dropLast_prefix b))]
      intro hpre
      have hlen := hpre.length_le
      have hpos := List.length_pos_iff.mpr hb
      rw [List.length_dropLast] at hlen
      omega
    show isDirAt (w.disk.tree.move a b) b.dropLast = true
    rw [isDirAt_congr hstay]
    exact hdir

theorem rename_maintains {a b : Path} (hclear : ∀ x rel, ¬ pending (a ++ x :: rel))
    (hq : ∀ t, isDirAt t b.dropLast = true → Flushes F t [b.dropLast] q) :
    (Layered.onDisk (renamePath a b) >>= fun _ => q).Maintains (Grounded F pending) := by
  intro w hw
  refine (renamePath_clean hw hclear).bind ?_
  rintro _ u ⟨hu, hdir⟩
  refine (hq _ hdir _ u rfl hu).mono (fun _ => id) (fun _ _ => False.elim) ?_
  rintro _ v ⟨-, hv⟩
  refine hv.mono fun k _ hk => ?_
  rcases hk.1 with rfl | hpend
  · exact absurd List.mem_cons_self hk.2
  · exact hpend

variable {digest : Digest} {s : Replacement}

theorem survivingParent_eq {p : Path} (h : isDirAt t p.dropLast = true) :
    survivingParent t p = p.dropLast := climb_of_isDirAt h

theorem flushes_syncReplacementParents (s : Replacement) :
    Flushes F t [survivingParent t s.destination, survivingParent t s.source]
      (Layered.syncReplacementParents s) :=
  flushes_syncBoth (flushes_syncSurvivingParent _) (flushes_syncSurvivingParent _)

theorem syncReplacementParents_maintains (s : Replacement) :
    (Layered.syncReplacementParents s).Maintains (Grounded F pending) :=
  Flushes.maintains fun _ => (flushes_syncReplacementParents s).mono nofun

theorem unpublish_maintains (hs : Clear pending s) (source dest : List ReplacementEntry) :
    (Layered.unpublish s source dest).Maintains (Grounded F pending) := by
  unfold Layered.unpublish
  split
  · exact maintains_pure ()
  · split
    · refine rename_maintains (fun x rel => (hs x rel).1) fun t ht => ?_
      refine (flushes_syncReplacementParents s).mono fun dir hdir => ?_
      rw [List.mem_singleton] at hdir
      rw [hdir, survivingParent_eq ht]
      exact List.mem_cons_of_mem _ List.mem_cons_self
    · exact maintains_raise _

theorem restoreBackup_maintains (hs : Clear pending s) (source dest : List ReplacementEntry) :
    (Layered.restoreBackup s source dest).Maintains (Grounded F pending) :=
  (unpublish_maintains hs source dest).bind fun _ => maintains_onlyIf
    (rename_maintains (fun x rel => (hs x rel).2.2) fun _ _ => flushes_syncDir _)

theorem restoreDestination_maintains (hs : Clear pending s) (backup source dest : List ReplacementEntry) :
    (Layered.restoreDestination s backup source dest).Maintains (Grounded F pending) := by
  unfold Layered.restoreDestination
  split
  · split
    · exact maintains_pure ()
    · exact maintains_raise _
  · split
    · exact restoreBackup_maintains hs source dest
    · exact maintains_raise _

theorem replacementTree_maintains (p : Path) :
    (Layered.onDisk (replacementTree digest p)).Maintains (Grounded F pending) :=
  onDisk_reads (readFrame.check _)

theorem rollbackReplacement_maintains (hs : Clear pending s) (backup : List ReplacementEntry) :
    (Layered.rollbackReplacement digest s backup).Maintains (Grounded F pending) :=
  (replacementTree_maintains _).bind fun source => (replacementTree_maintains _).bind fun dest =>
    (restoreDestination_maintains hs backup source dest).bind fun _ =>
      maintains_onlyIf (onDisk_maintains (removeReplacementTree_thinned _))

theorem cleanupReplacement_thinned (s : Replacement) (backup : List ReplacementEntry) :
    (cleanupReplacement s backup).Within Thinned := by
  unfold cleanupReplacement
  split
  · exact removeReplacementTree_thinned _
  · exact thinnedFrame.raise _

theorem finishReplacement_maintains (s : Replacement) :
    (Layered.finishReplacement s).Maintains (Grounded F pending) := by
  refine Maintains.bind (onDisk_maintains ?_) fun _ =>
    (syncReplacementParents_maintains s).bind fun _ => onDisk_maintains removeJournal_thinned
  cases s.copyStage with
  | none => exact thinnedFrame.pure ()
  | some stage => exact removeIfThere_thinned stage

theorem recoverReplacement_maintains (hs : Clear pending s) :
    (Layered.recoverReplacement digest s).Maintains (Grounded F pending) := by
  have hparents : ∀ p, (Layered.onDisk (safeReplacementParents p)).Maintains (Grounded F pending) :=
    fun _ => onDisk_reads (readFrame.check _)
  refine (maintains_check _).bind fun _ => (hparents _).bind fun _ => (hparents _).bind fun _ =>
    (hparents _).bind fun _ => (replacementTree_maintains _).bind fun backup =>
      Maintains.bind ?_ fun _ => finishReplacement_maintains s
  unfold Layered.recoverTrees
  split
  · exact onDisk_maintains (cleanupReplacement_thinned s backup)
  · exact rollbackReplacement_maintains hs backup

theorem recoverJournal_maintains (hF : ∀ s, F.journals s → Clear pending s) :
    (Layered.recoverJournal digest).Maintains (Grounded F pending) := by
  intro w hw
  refine clean_look_bind trivial ?_
  cases hj : w.disk.journal with
  | none => exact hw
  | some s => exact recoverReplacement_maintains (hF s (hw.journaled s hj)) w hw

theorem exchangeTrees_maintains (hs : Clear pending s) (hside : s.backup.dropLast = s.destination.dropLast) :
    (Layered.exchangeTrees s).Maintains (Grounded F pending) := by
  refine Maintains.bind (maintains_onlyIf (rename_maintains (fun x rel => (hs x rel).1) fun _ _ => ?_))
    fun _ => rename_maintains (fun x rel => (hs x rel).2.1) fun t ht => ?_
  · rw [hside]
    exact flushes_syncDir _
  · refine (flushes_syncReplacementParents s).mono fun dir hdir => ?_
    rw [List.mem_singleton] at hdir
    rw [hdir, survivingParent_eq ht]
    exact List.mem_cons_self

theorem commitReplacement_maintains (hs : Clear pending s)
    (hside : s.backup.dropLast = s.destination.dropLast) (hF : F.journals s)
    (hF' : F.journals { s with committed := true }) :
    (Layered.commitReplacement digest s).Maintains (Grounded F pending) := by
  refine (writeReplacement_maintains hF).bind fun _ =>
    (exchangeTrees_maintains hs hside).attempt.bind fun r => ?_
  match r with
  | .error e => exact (recoverReplacement_maintains hs).attempt.bind fun _ => maintains_rethrow e
  | .ok () =>
    exact (writeReplacement_maintains hF').bind fun _ =>
      recoverReplacement_maintains (s := { s with committed := true }) hs

variable {o : Object}

structure Unplaced (w : Layered) (o : Object) : Prop where
  positive : o.inode ≠ 0
  below : o.inode < w.next
  unnamed : ∀ p o', w.disk.tree.lookup p = some o' → o'.inode ≠ o.inode
  stored : ∀ b, o.content = some b → w.contents o.inode = some b

theorem renameTemp_clean {q : Path} (hw : Grounded F pending w) (ho : Unplaced w o) :
    (Layered.renameTemp o q).Clean (fun _ => True) (fun _ => Grounded F pending)
      (fun _ => Grounded F fun k => k = q ∨ pending k) w := by
  refine clean_update trivial (fun _ _ => hw) fun _ u hu => ?_
  split at hu
  · cases hu
  · next hmay =>
    cases hu
    simp only [Bool.or_eq_true, decide_eq_true_eq, Bool.not_eq_true', not_or, Bool.not_eq_true,
      Bool.not_eq_false] at hmay
    obtain ⟨⟨⟨hq, hfile⟩, hdir⟩, hreplace⟩ := hmay
    have hleaf : ∀ x, w.disk.tree.lookup (q ++ [x]) = none := by
      intro x
      unfold mayReplace at hreplace
      cases hlook : w.disk.tree.lookup q with
      | none => exact hw.rooted.none_below hq hlook [x]
      | some o' =>
        by_contra hchild
        have hdirq := hw.rooted q x hchild
        rw [hlook, hfile] at hreplace
        rcases isDirAt_iff.mp hdirq with hnil | ⟨o'', ho'', hd⟩
        · exact hq hnil
        · rw [hlook] at ho''
          cases ho''
          simp [hd] at hreplace
    exact { toPersisted := hw.toPersisted.put hq hdir hleaf ho.positive ho.unnamed ho.below ho.stored
            grown := hw.grown, contents := hw.contents, journaled := hw.journaled }

theorem writeTemp_clean (bytes : Bytes) (mtime : Int64) (perm : Nat) (hw : Grounded F pending w) :
    (Layered.writeTemp bytes mtime perm).Clean (fun _ => True) (fun _ _ => False)
      (fun o u => o.content = some bytes ∧ u.disk = w.disk ∧ Grounded F pending u ∧ Unplaced u o) w := by
  refine ⟨trivial, trivial, ?_⟩
  have hne : ∀ p o', w.disk.tree.lookup p = some o' → o'.inode ≠ w.next := fun p o' ho' =>
    Nat.ne_of_lt (hw.fresh p o' ho')
  refine ⟨rfl, rfl, { hw with
    stored := fun p o' b ho' hb => ?_, fresh := fun p o' ho' => ?_, positive := Nat.succ_pos _,
    grown := Nat.le_succ_of_le hw.grown, contents := fun i hi => ?_ },
    Nat.ne_of_gt hw.positive, Nat.lt_succ_self _, hne, fun b hb => ?_⟩
  · exact (if_neg (hne p o' ho')).trans (hw.stored p o' b ho' hb)
  · exact Nat.lt_succ_of_lt (hw.fresh p o' ho')
  · exact (if_neg (Nat.ne_of_lt (Nat.lt_of_lt_of_le hi hw.grown))).trans (hw.contents i hi)
  · cases hb
    exact if_pos rfl

theorem mkdir_clean (p : Path) (perm : Nat) (hw : Grounded F pending w) :
    (Layered.mkdir p perm).Clean (fun _ => True) (fun _ => Grounded F pending)
      (fun _ => Grounded F fun k => k = p ∨ pending k) w := by
  refine clean_update trivial (fun _ _ => hw) fun _ u hu => ?_
  split at hu
  · next hmay =>
    cases hu
    obtain ⟨hp, hdir, hnone⟩ := hmay
    have hgrown : Persisted pending { w with next := w.next + 1 } :=
      { hw.toPersisted with
        fresh := fun q o ho => Nat.lt_succ_of_lt (hw.fresh q o ho)
        positive := Nat.succ_pos _ }
    have hput := hgrown.put (o := { inode := w.next, perm, body := .dir }) hp hdir
      (fun x => hw.rooted.none_below hp hnone [x]) (Nat.ne_of_gt hw.positive)
      (fun q o ho => Nat.ne_of_lt (hw.fresh q o ho)) (Nat.lt_succ_self _) nofun
    exact { toPersisted := hput, grown := Nat.le_succ_of_le hw.grown, contents := hw.contents,
            journaled := hw.journaled }
  · cases hu

theorem removeAll_clean (p : Path) (hw : Grounded F (fun k => p <+: k ∨ pending k) w) :
    (Layered.removeAll p).Clean (fun _ => True) (fun _ _ => False) (fun _ => Grounded F pending) w := by
  refine clean_alter trivial ?_
  have hlook : ∀ k, (w.disk.tree.prune p).lookup k = if p <+: k then none else w.disk.tree.lookup k := by
    intro k
    show (w.disk.tree.lookup k).bind _ = _
    split
    · next hk => simp [hk]
    · next hk => simp [hk]
  have hrooted : Rooted (w.disk.tree.prune p) := by
    intro q x hx
    rw [hlook] at hx
    split at hx
    · exact absurd rfl hx
    · next hpre =>
      have hq : ¬ p <+: q := fun h => hpre (h.trans (List.prefix_append q [x]))
      rw [isDirAt_congr (t := w.disk.tree) (by rw [hlook, if_neg hq])]
      exact hw.rooted q x hx
  have hkept : Grounded F (fun k => p <+: k ∨ pending k) { w with disk := { w.disk with
      tree := w.disk.tree.prune p
      unsynced := ((w.disk.tree.below walkOrder p).filterMap fun rel =>
        (w.disk.tree.lookup (p ++ rel)).map fun o => (p ++ rel, o)) ++ w.disk.unsynced } } := by
    refine hw.within (fun k o ho => ⟨o, ?_, rfl, rfl⟩) hrooted hw.journaled
    change (w.disk.tree.prune p).lookup k = some o at ho
    rw [hlook] at ho
    split at ho
    · cases ho
    · exact ho
  refine hkept.mono fun k hk hpend => hpend.resolve_left fun hpre => hk ?_
  exact (hlook k).trans (if_pos hpre)

theorem removeAll_maintains (p : Path) : (Layered.removeAll p).Maintains (Grounded F pending) := by
  intro w hw
  exact (removeAll_clean p (hw.mono fun _ _ => Or.inr)).mono (fun _ => id) (fun _ _ => False.elim)
    fun _ _ => id

theorem setAttrs_maintains (p : Path) {f : Object → Object} (hinode : ∀ o, (f o).inode = o.inode)
    (hcontent : ∀ o, (f o).content = o.content) (hdir : ∀ o, (f o).isDir = o.isDir) :
    (Layered.setAttrs p f).Maintains (Grounded F pending) := by
  refine maintains_update fun w _ u hw hu => ?_
  split at hu
  · cases hu
  · next o ho =>
    cases hu
    have hlook : ∀ k, (w.disk.tree.put p (f o)).lookup k =
        if k = p then some (f o) else w.disk.tree.lookup k := fun _ => rfl
    refine hw.within (fun k o' ho' => ?_) (fun k x hx => ?_) hw.journaled
    · change (w.disk.tree.put p (f o)).lookup k = some o' at ho'
      rw [hlook] at ho'
      split at ho'
      · next hk =>
        cases ho'
        exact ⟨o, hk ▸ ho, (hinode o).symm, (hcontent o).symm⟩
      · exact ⟨o', ho', rfl, rfl⟩
    · change (w.disk.tree.put p (f o)).lookup (k ++ [x]) ≠ none at hx
      have hsome : w.disk.tree.lookup (k ++ [x]) ≠ none := by
        rw [hlook] at hx
        split at hx
        · next hk => rw [hk, ho]; nofun
        · exact hx
      show isDirAt (w.disk.tree.put p (f o)) k = true
      rcases isDirAt_iff.mp (hw.rooted k x hsome) with hnil | ⟨d, hd, hisDir⟩
      · exact isDirAt_iff.mpr (Or.inl hnil)
      · by_cases hk : k = p
        · rw [hk, ho] at hd
          cases hd
          exact isDirAt_iff.mpr (Or.inr ⟨f o, (hlook k).trans (if_pos hk), (hdir o).trans hisDir⟩)
        · exact isDirAt_iff.mpr (Or.inr ⟨d, (hlook k).trans ((if_neg hk).trans hd), hisDir⟩)

variable {limit : Nat} {stage : Path}

theorem placed_maintains {q : Path} (hp : ∀ t, Flushes F t [q.dropLast] p)
    (hw : Grounded F pending w) (ho : Unplaced w o) :
    (Layered.renameTemp o q >>= fun _ => p).Clean (fun _ => True) (fun _ => Grounded F pending)
      (fun _ => Grounded F pending) w := by
  refine (renameTemp_clean hw ho).bind fun _ u hu => ?_
  refine (hp _ _ u rfl hu).mono (fun _ => id) (fun _ _ => False.elim) ?_
  rintro _ v ⟨-, hv⟩
  refine hv.mono fun k _ hk => hk.1.resolve_left ?_
  rintro rfl
  exact hk.2 List.mem_cons_self

theorem copyFile_maintains (src dst : Path) (copied : Nat) :
    (Layered.copyFile limit src dst copied).Maintains (Grounded F pending) := by
  intro w hw
  refine clean_look_bind trivial ?_
  split
  · exact hw
  · split
    · split
      · exact hw
      · refine ((writeTemp_clean _ _ _ hw).mono (fun _ => id) (fun _ _ => False.elim)
          fun _ _ => id).bind ?_
        rintro o u ⟨-, -, hu, ho⟩
        have hplaced := placed_maintains (fun t => flushes_syncDir (t := t) dst.dropLast) hu ho
        rw [← Prog.bind_assoc]
        exact hplaced.bind fun _ _ hv => hv
    · exact hw

/-- What copying a subtree into the stage leaves: nothing more to be flushed if it succeeds, and
only parts of the stage if it does not. -/
def Stages (F : Floor) (stage : Path) (copyDir : Path → Path → Nat → LayeredProg Nat) : Prop :=
  ∀ pending src dst copied w, (∀ k, pending k → stage <+: k) → stage <+: dst → Grounded F pending w →
    (copyDir src dst copied).Clean (fun _ => True) (fun _ => Grounded F (stage <+: ·))
      (fun _ => Grounded F pending) w

theorem copyEntries_stages {copyDir : Path → Path → Nat → LayeredProg Nat}
    (hc : Stages F stage copyDir) (entries : List String) :
    Stages F stage fun src dst copied => Layered.copyEntries limit copyDir src dst entries copied := by
  induction entries with
  | nil => exact fun _ _ _ _ w _ _ hw => hw
  | cons x entries ih =>
    intro pending src dst copied w hsub hdst hw
    have hnext : stage <+: dst ++ [x] := hdst.trans (List.prefix_append dst [x])
    refine clean_look_bind trivial ?_
    split
    · exact ih pending src dst copied w hsub hdst hw
    · exact (hc pending _ _ copied w hsub hnext hw).bind fun copied u hu =>
        ih pending src dst copied u hsub hdst hu
    · refine ((copyFile_maintains _ _ copied w hw).mono (fun _ => id) (fun _ u hu => ?_)
        fun _ _ => id).bind fun copied u hu => ih pending src dst copied u hsub hdst hu
      exact hu.mono fun k _ => hsub k

theorem copyDir_stages (depth : Nat) : Stages F stage (Layered.copyDir limit depth) := by
  induction depth with
  | zero => exact fun pending src dst copied w hsub _ hw => hw.mono fun k _ => hsub k
  | succ depth ih =>
    intro pending src dst copied w hsub hdst hw
    refine clean_look_bind trivial ?_
    split
    · exact hw.mono fun k _ => hsub k
    · -- The directory is there from now on; its entry may wait for a flush until the end.
      have hsub' : ∀ k, k = dst ∨ pending k → stage <+: k := by
        rintro k (rfl | hk)
        · exact hdst
        · exact hsub k hk
      refine Clean.bind (R := fun _ => Grounded F fun k => k = dst ∨ pending k) ?_ fun _ u hu => ?_
      · refine clean_look_bind trivial ?_
        split
        · exact hw.mono fun _ _ => Or.inr
        · exact (mkdir_clean dst _ hw).mono (fun _ => id) (fun _ u hu => hu.mono fun k _ => hsub k)
            fun _ _ => id
      · refine clean_look_bind trivial ?_
        refine (copyEntries_stages ih _ _ src dst copied u hsub' hdst hu).bind fun copied v hv => ?_
        have hflush := flushes_syncBoth (flushes_syncDir (F := F) (t := v.disk.tree) dst)
          (flushes_syncDir dst.dropLast)
        refine ((hflush _ v rfl hv).mono (fun _ => id) (fun _ _ => False.elim) fun _ _ => id).bind ?_
        rintro _ x ⟨-, hx⟩
        refine hx.mono fun k _ hk => hk.1.resolve_left ?_
        rintro rfl
        exact hk.2 (List.mem_cons_of_mem _ List.mem_cons_self)

theorem clear_of_stage (hside : stage.dropLast = s.destination.dropLast) (hp : Planned digest t s)
    (hsrc : s.source = stage ++ ["payload"]) : Clear (· = stage) s := by
  have hlen := congrArg List.length hside
  have hlen' := congrArg List.length hp.neighbours
  have hdst := List.length_pos_iff.mpr (hp.root_ne .destination)
  have hback := List.length_pos_iff.mpr (hp.root_ne .backup)
  simp only [List.length_dropLast, Replacement.root] at hlen hlen' hdst hback
  refine fun x rel => ⟨fun heq => ?_, fun heq => ?_, fun heq => ?_⟩
  · have := congrArg List.length heq
    simp only [List.length_append, List.length_cons] at this
    omega
  · have := congrArg List.length heq
    rw [hsrc] at this
    simp only [List.length_append, List.length_cons, List.length_nil] at this
    omega
  · have := congrArg List.length heq
    simp only [List.length_append, List.length_cons] at this
    omega

theorem copyReplaceLocked_maintains {dst backup : Path} {copy : Path → LayeredProg Unit}
    (hF : ∀ s, F.journals s ↔ Clear (· = stage) s) (hside : stage.dropLast = dst.dropLast)
    (hcopy : ∀ w, Grounded F (· = stage) w → (copy (stage ++ ["payload"])).Clean (fun _ => True)
      (fun _ => Grounded F (stage <+: ·)) (fun _ => Grounded F (· = stage)) w)
    (hw : Grounded F (fun _ => False) w) :
    (Layered.copyReplaceLocked digest stage dst backup copy).Clean (fun _ => True)
      (fun _ => Grounded F (· = stage)) (fun _ => Grounded F (· = stage)) w := by
  have hnone : ∀ u, Grounded F (fun _ => False) u → Grounded F (· = stage) u :=
    fun u hu => hu.mono fun _ _ => False.elim
  -- Whatever went wrong below the stage goes with it.
  have hdrop : ∀ u, Grounded F (stage <+: ·) u → (Layered.removeAll stage).Clean (fun _ => True)
      (fun _ => Grounded F (· = stage)) (fun _ => Grounded F fun _ => False) u := fun u hu =>
    (removeAll_clean stage (hu.mono fun _ _ => Or.inl)).mono (fun _ => id) (fun _ _ => False.elim)
      fun _ _ => id
  refine ((mkdir_clean stage _ hw).mono (fun _ => id) (fun _ => hnone) fun _ u hu => ?_).bind
    (R := fun _ => Grounded F (· = stage)) fun _ u hu => ?_
  · exact hu.mono fun k _ hk => hk.resolve_right id
  have hbelow : ∀ u, Grounded F (· = stage) u → Grounded F (stage <+: ·) u :=
    fun u hu => hu.mono fun k _ hk => hk ▸ List.prefix_rfl
  refine Clean.bind (R := fun r v => Grounded F (stage <+: ·) v ∧ (r = .ok () → Grounded F (· = stage) v))
    (clean_attempt.mpr ((hcopy u hu).mono (fun _ => id) (fun _ _ hv => ⟨hv, by simp⟩)
      fun _ v hv => ⟨hbelow v hv, fun _ => hv⟩)) ?_
  rintro r v ⟨hv, hcopied⟩
  cases r with
  | error e =>
    refine (hdrop v hv).bind fun _ x hx => ?_
    refine ((flushes_syncDir stage.dropLast _ x rfl hx).mono (fun _ => id) (fun _ _ => False.elim)
      fun _ _ => id).bind ?_
    rintro _ y ⟨-, hy⟩
    exact hy.mono fun k _ hk => hk.1.elim
  | ok _ =>
    have hv := hcopied rfl
    have hprep : (prepareReplacement digest dst (stage ++ ["payload"]) backup (some stage)).Clean
        (fun _ => True) (fun _ d => d = v.disk) (fun s d => d = v.disk ∧
          (s.destination = dst ∧ s.source = stage ++ ["payload"] ∧ s.backup = backup ∧
            s.copyStage = some stage) ∧ Planned digest v.disk.tree s) v.disk := by
      refine Clean.mono (Sat.clean (prepareReplacement_spec (J := fun d => d = v.disk) rfl
        hv.rooted)) (fun _ _ => trivial) (fun _ _ => id) fun _ _ => id
    refine Clean.bind (R := fun r x => x = v ∧ ∀ s, r = .ok s → F.journals s ∧ Clear (· = stage) s ∧
        s.backup.dropLast = s.destination.dropLast) (clean_attempt.mpr ?_) ?_
    · refine (hprep.zoom Layered.diskPart).mono (fun _ _ => trivial) ?_ ?_
      · rintro e x ⟨d, rfl, rfl⟩
        exact ⟨rfl, by simp⟩
      · rintro s x ⟨d, rfl, rfl, ⟨rfl, hsrc, rfl, -⟩, hplan⟩
        refine ⟨rfl, fun s' hs' => ?_⟩
        obtain rfl := Except.ok.inj hs'
        have hclear := clear_of_stage hside hplan hsrc
        exact ⟨(hF s).mpr hclear, hclear, hplan.neighbours⟩
    · rintro r x ⟨rfl, hr⟩
      cases r with
      | error e => exact (hdrop x (hbelow x hv)).bind fun _ y hy => hnone y hy
      | ok s =>
        obtain ⟨hj, hclear, hnext⟩ := hr s rfl
        exact commitReplacement_maintains hclear hnext hj ((hF _).mpr hclear) x hv

theorem Unplaced.publishOver {ready : Layered → Except Err Unit} {dest : Path}
    (ho : Unplaced w o) (hw : Grounded F pending w) :
    (Layered.publishOver ready o dest).Clean (fun _ => True) (fun _ => Grounded F pending)
      (fun _ => Grounded F pending) w := by
  refine Clean.bind (R := fun _ u => u = w) (clean_check trivial (fun _ _ => hw) fun _ _ => rfl) ?_
  rintro _ u rfl
  exact placed_maintains (fun t => flushes_syncParents dest.dropLast) hw ho

theorem syncBoth_maintains (hp : p.Maintains (Grounded F pending)) (hq : q.Maintains (Grounded F pending)) :
    (Layered.syncBoth p q).Maintains (Grounded F pending) := by
  refine hp.attempt.bind fun a => hq.attempt.bind fun b => onDisk_maintains ?_
  unfold joinErrors
  split
  · exact thinnedFrame.pure ()
  · exact thinnedFrame.rethrow _
  · exact thinnedFrame.rethrow _

theorem syncParents_maintains (dir : Path) : (Layered.syncParents dir).Maintains (Grounded F pending) :=
  Flushes.maintains fun _ => (flushes_syncParents dir).mono nofun

theorem syncSurvivingParent_maintains (p : Path) : (Layered.syncSurvivingParent p).Maintains (Grounded F pending) :=
  Flushes.maintains fun _ => (flushes_syncSurvivingParent p).mono nofun

theorem layeredRename_maintains (hclear : ∀ k, ¬ pending k) (src dest : Path) :
    (Layered.rename src dest).Maintains (Grounded F pending) := by
  refine (maintains_check _).bind fun _ => rename_maintains (fun _ _ => hclear _) fun t _ => ?_
  exact (flushes_syncBoth (flushes_syncParents src.dropLast) (flushes_syncParents dest.dropLast)).mono
    fun dir hdir => List.mem_cons_of_mem _ hdir

theorem layeredRemove_maintains (path : Path) (recursive : Bool) :
    (Layered.remove path recursive).Maintains (Grounded F pending) := by
  refine (maintains_check _).bind fun _ => ?_
  cases recursive with
  | true => exact (removeAll_maintains path).bind fun _ => syncSurvivingParent_maintains path
  | false =>
    exact (onDisk_maintains (removePath_thinned path)).bind fun _ => syncSurvivingParent_maintains path

theorem removeBatch_maintains (files : List Path) : (Layered.removeBatch files).Maintains (Grounded F pending) := by
  refine Maintains.bind (maintains_forEach fun file _ => (maintains_look _).bind fun entry => ?_) fun _ =>
    maintains_forEach fun file _ => Flushes.maintains fun _ => (flushes_syncDir _).mono nofun
  split
  · exact maintains_pure ()
  · exact maintains_onlyIf (onDisk_maintains (removePath_thinned file))

theorem removeEmptied_maintains (changed : Bool) (dir : Path) :
    (Layered.removeEmptied changed dir).Maintains (Grounded F pending) := by
  refine (maintains_look _).bind fun gone =>
    (onDisk_maintains (removePath_thinned dir)).attempt.bind fun r => ?_
  split
  · exact maintains_pure ()
  · split
    · exact maintains_pure ()
    · exact maintains_rethrow _

theorem removeEmptyTree_maintains (path : Path) :
    (Layered.removeEmptyTree path).Maintains (Grounded F pending) := by
  refine (maintains_look _).bind fun rels => (maintains_look _).bind fun dirs =>
    (maintains_forEach fun rel _ => removeEmptied_maintains _ _).bind fun _ =>
      syncBoth_maintains ?_ (syncSurvivingParent_maintains path)
  split
  · exact maintains_raise _
  · exact maintains_pure ()

theorem layeredMove_maintains (hclear : ∀ k, ¬ pending k) (hF : ∀ s, F.journals s)
    (src dst backup : Path) (overwrite : Bool) :
    (Layered.move digest src dst backup overwrite).Maintains (Grounded F pending) := by
  refine (maintains_check _).bind fun _ => (maintains_check _).bind fun _ => Maintains.bind ?_ fun _ =>
    syncBoth_maintains (syncParents_maintains _) (syncParents_maintains _)
  intro w hw
  refine Clean.bind (R := fun s u => u = w ∧ s.backup.dropLast = s.destination.dropLast) ?_ ?_
  · refine ((Sat.clean (prepareReplacement_spec (J := fun d => d = w.disk) rfl hw.rooted)).zoom
      Layered.diskPart).mono (fun _ _ => trivial) ?_ ?_
    · rintro e u ⟨d, rfl, rfl⟩
      exact hw
    · rintro s u ⟨d, rfl, rfl, -, hplan⟩
      exact ⟨rfl, hplan.neighbours⟩
  · rintro s u ⟨rfl, hside⟩
    exact commitReplacement_maintains (fun _ _ => ⟨hclear _, hclear _, hclear _⟩) hside (hF _) (hF _) u hw

theorem layeredCopy_maintains {src dst stage backup : Path}
    {overwrite isDir : Bool} (hF : ∀ s, F.journals s ↔ Clear (· = stage) s)
    (hside : stage.dropLast = dst.dropLast) (hw : Grounded F (fun _ => False) w) :
    (Layered.copy digest limit src dst stage backup overwrite isDir).Clean (fun _ => True)
      (fun _ => Grounded F (· = stage)) (fun _ => Grounded F (· = stage)) w := by
  have hnone : Grounded F (· = stage) w := hw.mono fun _ _ => False.elim
  refine Clean.bind (R := fun _ u => u = w) (clean_check trivial (fun _ _ => hnone) fun _ _ => rfl) ?_
  rintro _ u rfl
  refine Clean.bind (R := fun _ v => v = u) (clean_check trivial (fun _ _ => hnone) fun _ _ => rfl) ?_
  rintro _ v rfl
  refine clean_look_bind trivial ((copyReplaceLocked_maintains hF hside (fun x hx => ?_) hw).bind
    fun _ x hx => syncParents_maintains _ x hx)
  refine Clean.bind (R := fun _ => Grounded F (· = stage)) ?_ fun _ y hy => hy
  have hstage : stage <+: stage ++ ["payload"] := List.prefix_append _ _
  split
  · exact copyDir_stages _ _ src _ 0 x (fun k hk => hk ▸ List.prefix_rfl) hstage hx
  · exact (copyFile_maintains src _ 0 x hx).mono (fun _ => id)
      (fun _ y hy => hy.mono fun k _ hk => hk ▸ List.prefix_rfl) fun _ _ => id

theorem applyOpt_maintains {α : Type} {value : Option α} {f : α → LayeredProg Unit}
    (h : ∀ a, value = some a → (f a).Maintains (Grounded F pending)) :
    (Layered.applyOpt value f).Maintains (Grounded F pending) := by
  cases value with
  | none => exact maintains_pure ()
  | some a => exact h a rfl

theorem setTime_same (mtime : Int64) (o : Object) : (Layered.setTime mtime o).inode = o.inode ∧
    (Layered.setTime mtime o).content = o.content ∧ (Layered.setTime mtime o).isDir = o.isDir := by
  obtain ⟨device, inode, perm, body⟩ := o
  cases body with
  | dir => exact ⟨rfl, rfl, rfl⟩
  | file bytes m => exact ⟨rfl, rfl, rfl⟩
  | link target => exact ⟨rfl, rfl, rfl⟩
  | special => exact ⟨rfl, rfl, rfl⟩

theorem setTime_maintains (path : Path) (mtime : Int64) :
    (Layered.setAttrs path (Layered.setTime mtime)).Maintains (Grounded F pending) :=
  setAttrs_maintains path (fun o => (setTime_same mtime o).1) (fun o => (setTime_same mtime o).2.1)
    fun o => (setTime_same mtime o).2.2

theorem setstat_maintains (path : Path) {attrs : Layered.Attrs} (hsize : attrs.size = none) :
    (Layered.setstat path attrs).Maintains (Grounded F pending) := by
  refine (maintains_check _).bind fun _ => (applyOpt_maintains fun a ha => ?_).bind fun _ =>
    (applyOpt_maintains fun perm _ => ?_).bind fun _ => applyOpt_maintains fun mtime _ => ?_
  · rw [hsize] at ha
    cases ha
  · exact setAttrs_maintains path (fun _ => rfl) (fun _ => rfl) fun _ => rfl
  · exact setTime_maintains path mtime

theorem fsetstat_maintains (path : Path) (inode : Nat) (attrs : Layered.Attrs) :
    (Layered.fsetstat path inode attrs).Maintains (Grounded F pending) := by
  refine (maintains_check _).bind fun _ => (applyOpt_maintains fun _ _ => maintains_raise _).bind fun _ =>
    (applyOpt_maintains fun perm _ => setAttrs_maintains path ?_ ?_ ?_).bind fun _ =>
      applyOpt_maintains fun mtime _ => setTime_maintains path mtime
  all_goals
    intro o
    split <;> rfl

end

namespace Change

def pending : Change → Path → Prop
  | copy _ _ _ stage _ _ _, k => k = stage
  | _, _ => False

def Ready (w : Layered) (c : Change) : Prop :=
  (∀ o dest, c.staged = some (o, dest) → Unplaced w o) ∧ match c with
    | copy _ _ dst stage _ _ _ =>
      localReplacementName dst = true ∧ stage.dropLast = dst.dropLast ∧ stage ≠ dst ∧ stage ≠ []
    | _ => True

def floor (c : Change) (w : Layered) : Floor := ⟨w.next, w.contents, Clear c.pending⟩

theorem run_maintains {digest : Digest} {c : Change} {w : Layered} (hc : c.Ready w)
    (hsize : ∀ path attrs, c = setstat path attrs → attrs.size = none)
    (hw : Grounded (c.floor w) (fun _ => False) w) :
    (c.run digest).Clean (fun _ => True) (fun _ => Grounded (c.floor w) c.pending)
      (fun _ => Grounded (c.floor w) c.pending) w := by
  cases c with
  | publish o dest => exact (hc.1 o dest rfl).publishOver hw
  | closeWriter original o dest requested => exact (hc.1 o dest rfl).publishOver hw
  | rename src dest => exact layeredRename_maintains (fun _ => id) src dest w hw
  | remove path recursive => exact layeredRemove_maintains path recursive w hw
  | removeBatch files => exact removeBatch_maintains files w hw
  | removeEmptyTree path => exact removeEmptyTree_maintains path w hw
  | move src dst backup overwrite =>
    exact layeredMove_maintains (fun _ => id) (fun _ _ _ => ⟨id, id, id⟩) src dst backup overwrite w hw
  | copy limit src dst stage backup overwrite isDir =>
    exact layeredCopy_maintains (fun _ => Iff.rfl) hc.2.2.1 hw
  | setstat path attrs => exact setstat_maintains path (hsize path attrs rfl) w hw
  | fsetstat path inode attrs => exact fsetstat_maintains path inode attrs w hw

theorem work_maintains {digest : Digest} {c : Change} {w : Layered} (hc : c.Ready w)
    (hsize : ∀ path attrs, c = setstat path attrs → attrs.size = none)
    (hw : Persisted (fun _ => False) w) (hj : w.disk.journal = none) :
    (c.work digest).Clean (fun _ => True) (fun _ => Grounded (c.floor w) c.pending)
      (fun _ => Grounded (c.floor w) c.pending) w := by
  have hstart : Grounded (c.floor w) (fun _ => False) w :=
    ⟨hw, Nat.le_refl _, fun _ _ => rfl, fun s hs => absurd (hj.symm.trans hs) nofun⟩
  refine Clean.bind (R := fun _ => Grounded (c.floor w) c.pending)
    (clean_attempt.mpr (run_maintains hc hsize hstart)) fun r u hu => ?_
  match r with
  | .ok () => exact hu
  | .error e =>
    exact (recoverJournal_maintains (fun _ => id) u hu).bind fun _ v hv => hv

end Change

end BirakFormal
