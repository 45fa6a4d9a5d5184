import BirakFormal.Fileops.Trees

/-!
# A replacement is atomic

Seen from the three places it works on, a disk is one subtree for each of them and a rest
that is never touched. Every state in which a replacement or its recovery may stop is one of
a few phases, a crash leads from a phase to a phase, and a recovery that succeeds ends with
the old tree or with the new one.
-/

namespace BirakFormal

open Interruption Prog Subtrees

inductive Slot where
  | source | destination | backup
  deriving DecidableEq

def Replacement.root (s : Replacement) : Slot → Path
  | .source => s.source
  | .destination => s.destination
  | .backup => s.backup

abbrev Subtree := Path → Option Object

def nothing : Subtree := fun _ => none

def fill (a b c : Subtree) : Slot → Subtree
  | .source => a
  | .destination => b
  | .backup => c

def PartOf (a b : Subtree) : Prop := ∀ rel o, a rel = some o → b rel = some o

structure Planned (digest : Digest) (t₁ : PathMap String Object) (s : Replacement) : Prop where
  rooted : Rooted t₁
  separate : Pairwise fun i j => Separate (s.root i) (s.root j)
  root_ne : ∀ i, s.root i ≠ []
  neighbours : s.backup.dropLast = s.destination.dropLast
  new : s.new = manifest digest t₁ s.source
  old : s.old = manifest digest t₁ s.destination
  newSupported : Supported t₁ s.source
  oldSupported : Supported t₁ s.destination
  present : t₁.lookup s.source ≠ none
  noBackup : t₁.lookup s.backup = none
  uncommitted : s.committed = false
  stage : ∀ stage, s.copyStage = some stage → s.source = stage ++ ["payload"] ∧
    stage.dropLast = s.destination.dropLast ∧ stage ≠ [] ∧ ¬ stage <+: s.destination

section
variable (t₁ : PathMap String Object) (s : Replacement)

def newTree : Subtree := fun rel => t₁.lookup (s.source ++ rel)

def oldTree : Subtree := fun rel => t₁.lookup (s.destination ++ rel)

/-- Everything else; `g` says whether the staging directory is gone. -/
def elsewhere (g : Bool) : Subtree := fun p =>
  if g = true ∧ s.copyStage = some p then none else t₁.lookup p

structure Holds (a b c : Subtree) (g : Bool) (u : Disk) : Prop where
  laid : Laid s.root (elsewhere t₁ s g) (fill a b c) u.tree
  rooted : Rooted u.tree

/-- What was unlinked and may come back belongs to `orig`, at the place `i`, or is the
staging directory. -/
def Lost (i : Slot) (orig : Subtree) (u : Disk) : Prop :=
  ∀ e ∈ u.unsynced, (∃ rel, e.1 = s.root i ++ rel ∧ orig rel = some e.2) ∨
    (s.copyStage = some e.1 ∧ t₁.lookup e.1 = some e.2)

inductive Phase : Disk → Prop where
  | before {u : Disk} (hj : u.journal = none ∨ u.journal = some s)
      (h : Holds t₁ s (newTree t₁ s) (oldTree t₁ s) nothing false u) (hu : u.unsynced = []) : Phase u
  | backedUp {u : Disk} (hj : u.journal = some s)
      (h : Holds t₁ s (newTree t₁ s) nothing (oldTree t₁ s) false u) (hu : u.unsynced = []) : Phase u
  | published {u : Disk} (hj : u.journal = some s) (hdir : isDirAt t₁ s.destination.dropLast = true)
      (h : Holds t₁ s nothing (newTree t₁ s) (oldTree t₁ s) false u) (hu : u.unsynced = []) : Phase u
  | cleaning {u : Disk} {c : Subtree} {g : Bool} (hj : u.journal = some { s with committed := true })
      (hdir : isDirAt t₁ s.destination.dropLast = true)
      (h : Holds t₁ s nothing (newTree t₁ s) c g u) (hc : PartOf c (oldTree t₁ s))
      (hu : Lost t₁ s .backup (oldTree t₁ s) u) : Phase u
  | undoing {u : Disk} {a : Subtree} {g : Bool} (hcopy : s.copyStage.isSome = true)
      (hj : u.journal = none ∨ u.journal = some s)
      (h : Holds t₁ s a (oldTree t₁ s) nothing g u) (ha : PartOf a (newTree t₁ s))
      (hu : Lost t₁ s .source (newTree t₁ s) u) : Phase u
  | done {u : Disk} {g : Bool} (hj : u.journal = none)
      (h : Holds t₁ s nothing (newTree t₁ s) nothing g u) (hg : s.copyStage.isSome = true → g = true)
      (hu : ∀ e ∈ u.unsynced, ∃ rel, rel ≠ [] ∧ e.1 = s.backup ++ rel) : Phase u

end

/-- What a crash leaves: entries that were unlinked and not flushed may be back. -/
structure Crashes (u t : Disk) : Prop where
  journal : t.journal = u.journal
  unsynced : t.unsynced = []
  entries : ∀ p, t.tree.lookup p = u.tree.lookup p ∨
    ∃ o, (p, o) ∈ u.unsynced ∧ u.tree.lookup p = none ∧ t.tree.lookup p = some o
  rooted : Rooted t.tree

variable {t₁ : PathMap String Object} {s : Replacement} {digest : Digest} {u t : Disk}
variable {a b c : Subtree} {g : Bool}

theorem Holds.source (h : Holds t₁ s a b c g u) (rel : Path) :
    u.tree.lookup (s.source ++ rel) = a rel := h.laid.slot .source rel

theorem Holds.destination (h : Holds t₁ s a b c g u)
    (rel : Path) : u.tree.lookup (s.destination ++ rel) = b rel := h.laid.slot .destination rel

theorem Holds.backup (h : Holds t₁ s a b c g u) (rel : Path) :
    u.tree.lookup (s.backup ++ rel) = c rel := h.laid.slot .backup rel

theorem Crashes.same (h : Crashes u t) (hu : u.unsynced = []) (p : Path) :
    t.tree.lookup p = u.tree.lookup p := by
  rcases h.entries p with hp | ⟨o, ho, -⟩
  · exact hp
  · rw [hu] at ho
    cases ho

theorem Holds.same (h : Holds t₁ s a b c g u) (hr : Rooted t.tree)
    (hsame : ∀ p, t.tree.lookup p = u.tree.lookup p) : Holds t₁ s a b c g t :=
  ⟨⟨fun i rel => (hsame _).trans (h.laid.slot i rel), fun p hp => (hsame p).trans (h.laid.outside p hp)⟩, hr⟩

theorem Planned.stage_outside (h : Planned digest t₁ s) {stage : Path}
    (hs : s.copyStage = some stage) (i : Slot) : ¬ s.root i <+: stage := by
  obtain ⟨hsource, hparent, hne, hdest⟩ := h.stage stage hs
  have hlast : ∀ q : Path, q ≠ [] → q.dropLast = stage.dropLast → q <+: stage → q = stage := by
    intro q hq heq hpre
    refine hpre.eq_of_length ?_
    have hlen := congrArg List.length heq
    have hqpos := List.length_pos_iff.mpr hq
    have hspos := List.length_pos_iff.mpr hne
    rw [List.length_dropLast, List.length_dropLast] at hlen
    omega
  cases i with
  | source =>
    intro hpre
    have hlen := hpre.length_le
    rw [show s.root .source = stage ++ ["payload"] from hsource, List.length_append] at hlen
    simp only [List.length_singleton] at hlen
    omega
  | destination =>
    intro hpre
    have heq := hlast _ (h.root_ne .destination) hparent.symm hpre
    exact hdest (heq ▸ List.prefix_rfl)
  | backup =>
    intro hpre
    have heq : s.backup = stage := hlast _ (h.root_ne .backup) (h.neighbours.trans hparent.symm) hpre
    refine (h.separate (show Slot.backup ≠ Slot.source by decide)).1 ?_
    rw [show s.root .backup = stage from heq, show s.root .source = stage ++ ["payload"] from hsource]
    exact List.prefix_append _ _

theorem laid_crash {slots : Slot → Subtree} {i : Slot} {orig : Subtree}
    (hp : Planned digest t₁ s) (hl : Laid s.root (elsewhere t₁ s g) slots u.tree)
    (hi : PartOf (slots i) orig) (hu : Lost t₁ s i orig u) (hc : Crashes u t) :
    ∃ sl g', Laid s.root (elsewhere t₁ s g') (Function.update slots i sl) t.tree ∧ PartOf sl orig := by
  have hrestored : ∀ {k o}, (k, o) ∈ u.unsynced → (∃ rel, k = s.root i ++ rel ∧ orig rel = some o) ∨
      (s.copyStage = some k ∧ t₁.lookup k = some o) := fun hmem => hu _ hmem
  let g' := g && s.copyStage.all fun stage => (t.tree.lookup stage).isNone
  refine ⟨fun rel => t.tree.lookup (s.root i ++ rel), g', ⟨fun k rel => ?_, fun p hout => ?_⟩, ?_⟩
  · by_cases hk : k = i
    · subst hk
      rw [Function.update_self]
    · rw [Function.update_of_ne hk, ← hl.slot]
      rcases hc.entries (s.root k ++ rel) with hsame | ⟨o, hmem, -⟩
      · exact hsame
      · rcases hrestored hmem with ⟨rel', heq, -⟩ | ⟨hst, -⟩
        · exact ((hp.separate hk).not_both (List.prefix_append _ rel)
            (heq ▸ List.prefix_append _ rel')).elim
        · exact absurd (List.prefix_append _ _) (hp.stage_outside hst k)
  · have hup := hl.outside p hout
    unfold elsewhere at hup ⊢
    rcases hc.entries p with hsame | ⟨o, hmem, hnone, hsome⟩
    · rw [hsame]
      by_cases hst : s.copyStage = some p
      · cases g with
        | false => simpa [g'] using hup
        | true =>
          rw [if_pos ⟨rfl, hst⟩] at hup
          have hg : g' = true := by simp [g', hst, hsame, hup]
          rw [hup, if_pos ⟨hg, hst⟩]
      · rw [if_neg (fun hand => hst hand.2)] at hup ⊢
        exact hup
    · rcases hrestored hmem with ⟨rel', heq, -⟩ | ⟨hst, ht₁⟩
      · exact absurd (heq ▸ List.prefix_append _ rel') (hout i)
      · rw [hsome, if_neg ?_, ht₁]
        rintro ⟨hg, -⟩
        simp [g', hst, hsome] at hg
  · intro rel o ho
    rcases hc.entries (s.root i ++ rel) with hsame | ⟨o', hmem, -, hsome⟩
    · refine hi rel o ?_
      rw [← hl.slot, ← hsame]
      exact ho
    · have ho' : o' = o := Option.some.inj (hsome.symm.trans ho)
      subst ho'
      rcases hrestored hmem with ⟨rel', heq, horig⟩ | ⟨hst, -⟩
      · rwa [List.append_cancel_left heq]
      · exact absurd (List.prefix_append _ _) (hp.stage_outside hst i)

theorem update_fill_backup (a b c c' : Subtree) :
    Function.update (fill a b c) .backup c' = fill a b c' := by
  funext i
  cases i <;> rfl

theorem update_fill_source (a b c a' : Subtree) :
    Function.update (fill a b c) .source a' = fill a' b c := by
  funext i
  cases i <;> rfl

/-! Moving one slot to another. -/

theorem fill_move_destination_backup (a b c : Subtree) :
    Function.update (Function.update (fill a b c) .backup (fill a b c .destination)) .destination
      nothing = fill a nothing b := by
  funext i
  cases i <;> rfl

theorem fill_move_source_destination (a b c : Subtree) :
    Function.update (Function.update (fill a b c) .destination (fill a b c .source)) .source
      nothing = fill nothing a c := by
  funext i
  cases i <;> rfl

theorem fill_move_destination_source (a b c : Subtree) :
    Function.update (Function.update (fill a b c) .source (fill a b c .destination)) .destination
      nothing = fill b nothing c := by
  funext i
  cases i <;> rfl

theorem fill_move_backup_destination (a b c : Subtree) :
    Function.update (Function.update (fill a b c) .destination (fill a b c .backup)) .backup
      nothing = fill a c nothing := by
  funext i
  cases i <;> rfl

theorem Phase.crash (hp : Planned digest t₁ s) (h : Phase t₁ s u) (hc : Crashes u t) :
    Phase t₁ s t := by
  have hj := hc.journal
  cases h with
  | before hj' h hu => exact .before (hj ▸ hj') (h.same hc.rooted (hc.same hu)) hc.unsynced
  | backedUp hj' h hu => exact .backedUp (hj.trans hj') (h.same hc.rooted (hc.same hu)) hc.unsynced
  | published hj' hdir h hu =>
    exact .published (hj.trans hj') hdir (h.same hc.rooted (hc.same hu)) hc.unsynced
  | cleaning hj' hdir h hpart hu =>
    obtain ⟨sl, g', hl, hsl⟩ := laid_crash (i := .backup) hp h.laid hpart hu hc
    rw [update_fill_backup] at hl
    refine .cleaning (hj.trans hj') hdir ⟨hl, hc.rooted⟩ hsl ?_
    rw [Lost, hc.unsynced]
    nofun
  | undoing hcopy hj' h hpart hu =>
    obtain ⟨sl, g', hl, hsl⟩ := laid_crash (i := .source) hp h.laid hpart hu hc
    rw [update_fill_source] at hl
    refine .undoing hcopy (hj ▸ hj') ⟨hl, hc.rooted⟩ hsl ?_
    rw [Lost, hc.unsynced]
    nofun
  | done hj' h hg hu =>
    have hbackup : t.tree.lookup s.backup = none := by
      rcases hc.entries s.backup with hsame | ⟨o, hmem, -⟩
      · rw [hsame]
        have hslot := h.laid.slot .backup []
        rwa [List.append_nil] at hslot
      · obtain ⟨rel, hrel, heq⟩ := hu _ hmem
        exact absurd (List.self_eq_append_right.mp heq) hrel
    have hsame : ∀ p, t.tree.lookup p = u.tree.lookup p := by
      intro p
      rcases hc.entries p with hsame | ⟨o, hmem, -, hsome⟩
      · exact hsame
      · obtain ⟨rel, -, rfl⟩ := hu _ hmem
        have hnone : t.tree.lookup (s.backup ++ rel) = none :=
          hc.rooted.none_below (hp.root_ne .backup) hbackup rel
        rw [hnone] at hsome
        cases hsome
    refine .done (hj.trans hj') (h.same hc.rooted hsame) hg ?_
    rw [hc.unsynced]
    nofun

variable {J : Disk → Prop} {Q : Unit → Disk → Prop}

theorem safe_renamePath {p q : Path} (hJ : J u) (hQ : isDirAt u.tree q.dropLast = true → ¬ p <+: q → ¬ q <+: p →
      Q () { u with tree := u.tree.move p q }) : (renamePath p q).Safe J Q u := by
  refine safe_update hJ fun a v h => ?_
  split at h
  · cases h
  · split at h
    · cases h
    · next hover =>
      split at h
      · cases h
      · next hdir =>
        cases h
        simp only [Bool.or_eq_true, Bool.not_eq_true', not_or, Bool.not_eq_false] at hdir
        exact hQ hdir.1 (fun hpq => hover (Or.inl hpq)) fun hqp => hover (Or.inr hqp)

variable {g : Bool}

theorem safe_rename {a b c a' b' c' : Subtree} {i j : Slot} (hp : Planned digest t₁ s)
    (h : Holds t₁ s a b c g u) (hij : i ≠ j)
    (hfill : Function.update (Function.update (fill a b c) j (fill a b c i)) i nothing = fill a' b' c')
    (hJ : J u)
    (hQ : ∀ v, v.journal = u.journal → v.unsynced = u.unsynced → Holds t₁ s a' b' c' g v →
      isDirAt u.tree (s.root j).dropLast = true → Q () v) :
    (renamePath (s.root i) (s.root j)).Safe J Q u := by
  refine safe_renamePath hJ fun hdir hpq hqp => hQ _ rfl rfl ⟨?_, h.rooted.move hpq hqp hdir⟩ hdir
  rw [← hfill]
  exact h.laid.move hp.separate hij

theorem safe_unlink {p : Path} {o : Object} {v : Disk} {a : Unit} (h : u.unlink p o = .ok (a, v)) :
    hasChildren u.tree p = false ∧ v = { u with tree := u.tree.erase p, unsynced := (p, o) :: u.unsynced } := by
  unfold Disk.unlink at h
  split at h
  · cases h
  · next hleaf =>
    cases h
    exact ⟨by simpa using hleaf, rfl⟩

/-- The place `i` is being emptied; `sl` is left there. -/
structure Emptying (t₁ : PathMap String Object) (s : Replacement) (slots : Slot → Subtree) (g : Bool)
    (i : Slot) (orig sl : Subtree) (j : Option Replacement) (v : Disk) : Prop where
  laid : Laid s.root (elsewhere t₁ s g) (Function.update slots i sl) v.tree
  rooted : Rooted v.tree
  part : PartOf sl orig
  lost : Lost t₁ s i orig v
  journal : v.journal = j

variable {slots : Slot → Subtree} {j : Option Replacement} {orig sl : Subtree} {i : Slot}

theorem removePath_empties (hp : Planned digest t₁ s) (h : Emptying t₁ s slots g i orig sl j u) (rel : Path) :
    (removePath (s.root i ++ rel)).Safe (fun v => ∃ sl', Emptying t₁ s slots g i orig sl' j v)
      (fun _ v => Emptying t₁ s slots g i orig (fun r => if r = rel then none else sl r) j v) u := by
  refine safe_update ⟨sl, h⟩ fun a v hv => ?_
  split at hv
  · cases hv
  · next o ho =>
    obtain ⟨hleaf, rfl⟩ := safe_unlink hv
    have hsl : sl rel = some o := by
      have hslot := h.laid.slot i rel
      rw [Function.update_self] at hslot
      rw [← hslot]
      exact ho
    have hl := h.laid.erase hp.separate i rel
    rw [Function.update_self, Function.update_idem] at hl
    refine ⟨hl, h.rooted.erase hleaf, fun r o' hr => ?_, fun e he => ?_, h.journal⟩
    · split at hr
      · cases hr
      · exact h.part r o' hr
    · rcases List.mem_cons.mp he with rfl | he
      · exact Or.inl ⟨rel, rfl, h.part rel o hsl⟩
      · exact h.lost e he

theorem removePaths_empties (hp : Planned digest t₁ s) (h : Emptying t₁ s slots g i orig sl j u)
    (rels : List Path) :
    (forEach (fun rel => removePath (s.root i ++ rel)) rels).Safe
      (fun v => ∃ sl', Emptying t₁ s slots g i orig sl' j v)
      (fun _ v => ∃ sl', Emptying t₁ s slots g i orig sl' j v ∧ ∀ r, sl' r = none ∨ sl' r = sl r ∧ r ∉ rels) u := by
  induction rels generalizing u sl with
  | nil => exact safe_pure ⟨sl, h, fun r => Or.inr ⟨rfl, List.not_mem_nil⟩⟩
  | cons rel rels ih =>
    refine Safe.bind (removePath_empties hp h rel) fun _ v hv => ?_
    refine (ih hv).imp ?_
    rintro _ w ⟨sl', hw, hsl'⟩
    refine ⟨sl', hw, fun r => ?_⟩
    rcases hsl' r with hnone | ⟨heq, hmem⟩
    · exact Or.inl hnone
    · by_cases hr : r = rel
      · rw [if_pos hr] at heq
        exact Or.inl heq
      · rw [if_neg hr] at heq
        refine Or.inr ⟨heq, fun hcons => ?_⟩
        rcases List.mem_cons.mp hcons with hrel | hin
        · exact hr hrel
        · exact hmem hin

theorem removeReplacementTree_empties (hp : Planned digest t₁ s) (h : Emptying t₁ s slots g i orig sl j u) :
    (removeReplacementTree (s.root i)).Safe (fun v => ∃ sl', Emptying t₁ s slots g i orig sl' j v)
      (fun _ v => Emptying t₁ s slots g i orig nothing j v) u := by
  refine safe_look_bind ⟨sl, h⟩ ?_
  have hslot : ∀ rel, u.tree.lookup (s.root i ++ rel) = sl rel := by
    intro rel
    rw [h.laid.slot, Function.update_self]
  refine (removePaths_empties hp h _).imp ?_
  rintro _ v ⟨sl', hv, hsl'⟩
  have hempty : sl' = nothing := by
    funext r
    rcases hsl' r with hnone | ⟨heq, hmem⟩
    · exact hnone
    · rw [heq]
      rw [List.mem_reverse] at hmem
      split at hmem
      · next hroot => rw [← hslot]; exact h.rooted.none_below (hp.root_ne i) hroot r
      · have hnot := mt PathMap.mem_below.mpr hmem
        rw [hslot] at hnot
        exact not_not.mp hnot
  exact hempty ▸ hv

theorem flush_none (u : Disk) : (u.flush fun _ => false) = u := by
  simp [Disk.flush]

theorem flush_flush (u : Disk) (f g : Path → Bool) : (u.flush f).flush g = u.flush fun k => g k || f k := by
  simp [Disk.flush, List.filter_filter]

def Flushed (u : Disk) (dirs : List Path) (v : Disk) : Prop :=
  ∃ f, (∀ dir ∈ dirs, f dir = true) ∧ v = u.flush f

theorem flushed_refl (u : Disk) : Flushed u [] u := ⟨fun _ => false, nofun, (flush_none u).symm⟩

theorem Flushed.trans {v w : Disk} {dirs dirs' : List Path} (h : Flushed u dirs v)
    (h' : Flushed v dirs' w) : Flushed u (dirs ++ dirs') w := by
  obtain ⟨f, hf, rfl⟩ := h
  obtain ⟨g, hg, rfl⟩ := h'
  refine ⟨fun k => g k || f k, fun dir hdir => ?_, flush_flush u f g⟩
  rcases List.mem_append.mp hdir with hmem | hmem
  · simp [hf dir hmem]
  · simp [hg dir hmem]

theorem Flushed.mono {v : Disk} {dirs dirs' : List Path} (h : Flushed u dirs v)
    (hsub : ∀ dir ∈ dirs', dir ∈ dirs) : Flushed u dirs' v := by
  obtain ⟨f, hf, rfl⟩ := h
  exact ⟨f, fun dir hdir => hf dir (hsub dir hdir), rfl⟩

theorem syncDirs_safe (dirs : List Path) :
    (forEach syncDir dirs).Safe (Flushed u []) (fun _ => Flushed u dirs) u := by
  induction dirs generalizing u with
  | nil => exact safe_pure (flushed_refl u)
  | cons dir dirs ih =>
    have hfirst : Flushed u [dir] (u.flush fun k => k = dir) :=
      ⟨_, fun k hk => by simpa using hk, rfl⟩
    refine safe_alter_bind (flushed_refl u) (ih.mono (fun v hv => ?_) fun _ v hv => ?_)
    · exact (hfirst.trans hv).mono nofun
    · exact hfirst.trans hv

theorem syncSurvivingParent_safe (p : Path) : (syncSurvivingParent p).Safe (Flushed u [])
      (fun _ => Flushed u [survivingParent u.tree p]) u := by
  refine safe_look_bind (flushed_refl u) ((syncDirs_safe _).imp fun _ v hv => hv.mono ?_)
  intro dir hdir
  rw [List.mem_singleton] at hdir
  rw [hdir, List.mem_reverse]
  exact (List.mem_inits _ _).mpr List.prefix_rfl

theorem syncReplacementParents_safe (s : Replacement) (hJ : ∀ v, Flushed u [] v → J v)
    (hQ : ∀ v, Flushed u [survivingParent u.tree s.destination] v → Q () v) :
    (syncReplacementParents s).Safe J Q u := by
  refine Safe.bind ((syncSurvivingParent_safe s.destination).attempt.mono hJ fun _ _ => id) ?_
  intro dst v hdst
  have hv : Flushed u [] v := by
    cases dst with
    | error e => exact hdst
    | ok => exact hdst.mono nofun
  have hnext : ∀ w dirs, Flushed v dirs w → Flushed u [] w := fun w dirs hw => (hv.trans hw).mono nofun
  refine Safe.bind ((syncSurvivingParent_safe s.source).attempt.mono
    (fun w hw => hJ w (hnext w _ hw)) fun _ _ => id) ?_
  intro src w hsrc
  cases dst with
  | error e =>
    cases src with
    | error e' => exact safe_rethrow (hJ w (hnext w _ hsrc))
    | ok => exact safe_rethrow (hJ w (hnext w _ hsrc))
  | ok =>
    cases src with
    | error e => exact safe_rethrow (hJ w (hnext w _ hsrc))
    | ok => exact safe_pure (hQ w ((hdst.trans hsrc).mono fun dir hdir => List.mem_append_left _ hdir))

section
variable {v : Disk} {dirs : List Path}

theorem Flushed.journal (h : Flushed u dirs v) : v.journal = u.journal := by
  obtain ⟨f, -, rfl⟩ := h
  rfl

theorem Flushed.holds (h : Flushed u dirs v) (hu : Holds t₁ s a b c g u) : Holds t₁ s a b c g v := by
  obtain ⟨f, -, rfl⟩ := h
  exact ⟨hu.laid, hu.rooted⟩

theorem Flushed.lost (h : Flushed u dirs v) (hu : Lost t₁ s i orig u) : Lost t₁ s i orig v := by
  obtain ⟨f, -, rfl⟩ := h
  exact fun e he => hu e (List.mem_of_mem_filter he)

theorem Flushed.synced (h : Flushed u dirs v) (hu : u.unsynced = []) : v.unsynced = [] := by
  obtain ⟨f, -, rfl⟩ := h
  rw [Disk.flush, hu]
  rfl

theorem syncDir_safe (dir : Path) (hJ : J u) (hQ : ∀ v, Flushed u [dir] v → Q () v) : (syncDir dir).Safe J Q u :=
  safe_alter hJ (hQ _ ⟨_, fun k hk => by simpa using hk, rfl⟩)

end

theorem Planned.stage_present (hp : Planned digest t₁ s) {stage : Path}
    (hs : s.copyStage = some stage) : ∃ o, t₁.lookup stage = some o := by
  obtain ⟨hsource, -, hne, -⟩ := hp.stage stage hs
  have hpresent := hp.present
  rw [hsource] at hpresent
  rcases isDirAt_iff.mp (hp.rooted _ _ hpresent) with hnil | ⟨o, ho, -⟩
  · exact absurd hnil hne
  · exact ⟨o, ho⟩

theorem removeStage_safe (hp : Planned digest t₁ s) (h : Holds t₁ s a b c g u) (hu : Lost t₁ s i orig u) (hJ : J u)
    (hQ : ∀ v g', Holds t₁ s a b c g' v → Lost t₁ s i orig v → v.journal = u.journal →
      (s.copyStage.isSome = true → g' = true) → Q () v) :
    (s.copyStage.elim (pure ()) removeIfThere : Fs Unit).Safe J Q u := by
  cases hs : s.copyStage with
  | none => exact safe_pure (hQ u g h hu rfl (by rw [hs]; nofun))
  | some stage =>
    have hout := hp.stage_outside hs
    have hlook := h.laid.outside stage hout
    obtain ⟨o₁, ho₁⟩ := hp.stage_present hs
    refine safe_update hJ fun _ v hv => ?_
    split at hv
    · next hnone =>
      cases hv
      refine hQ u g h hu rfl fun _ => ?_
      cases g with
      | true => rfl
      | false =>
        rw [hnone, elsewhere, if_neg (by simp), ho₁] at hlook
        cases hlook
    · next o ho =>
      obtain ⟨hleaf, rfl⟩ := safe_unlink hv
      have hrest : (fun p => if p = stage then none else elsewhere t₁ s g p) = elsewhere t₁ s true := by
        funext p
        unfold elsewhere
        by_cases hps : p = stage
        · rw [if_pos hps, if_pos ⟨rfl, hps ▸ hs⟩]
        · have hne : s.copyStage ≠ some p := fun heq => hps (Option.some.inj (heq.symm.trans hs))
          rw [if_neg hps, if_neg (fun hand => hne hand.2), if_neg (fun hand => hne hand.2)]
      have hl := h.laid.erase_outside hout
      rw [hrest] at hl
      refine hQ _ true ⟨hl, h.rooted.erase hleaf⟩ (fun e he => ?_) rfl fun _ => rfl
      rcases List.mem_cons.mp he with rfl | he
      · refine Or.inr ⟨hs, ?_⟩
        rw [ho, elsewhere] at hlook
        split at hlook
        · cases hlook
        · exact hlook.symm
      · exact hu e he

theorem Holds.isDirAt_parent (hp : Planned digest t₁ s) (h : Holds t₁ s a b c g u) :
    isDirAt u.tree s.destination.dropLast = isDirAt t₁ s.destination.dropLast := by
  have hne := hp.root_ne .destination
  have hshort : s.destination.dropLast.length < s.destination.length := by
    rw [List.length_dropLast]
    exact Nat.sub_lt (List.length_pos_iff.mpr hne) Nat.one_pos
  have hout : ∀ i, ¬ s.root i <+: s.destination.dropLast := by
    intro i hpre
    by_cases hi : i = .destination
    · subst hi
      exact absurd hpre.length_le (Nat.not_le.mpr hshort)
    · exact (hp.separate hi).1 (hpre.trans (List.dropLast_prefix _))
  apply isDirAt_congr
  rw [h.laid.outside _ hout, elsewhere, if_neg]
  rintro ⟨-, hs⟩
  obtain ⟨-, hparent, hsne, -⟩ := hp.stage _ hs
  have hlen := congrArg List.length hparent
  rw [List.length_dropLast] at hlen
  have hpos := List.length_pos_iff.mpr hsne
  omega

theorem Lost.durable (hp : Planned digest t₁ s)
    (hdir : isDirAt t₁ s.destination.dropLast = true) (h : Holds t₁ s a b c g u)
    (hu : Lost t₁ s .backup (oldTree t₁ s) u) {v : Disk}
    (hv : Flushed u [survivingParent u.tree s.destination] v) :
    ∀ e ∈ v.unsynced, ∃ rel, rel ≠ [] ∧ e.1 = s.backup ++ rel := by
  have hsurv : survivingParent u.tree s.destination = s.destination.dropLast :=
    climb_of_isDirAt ((h.isDirAt_parent hp).trans hdir)
  obtain ⟨f, hf, rfl⟩ := hv
  have hparent : f s.destination.dropLast = true := hsurv ▸ hf _ List.mem_cons_self
  intro e he
  obtain ⟨hmem, hkept⟩ := List.mem_filter.mp he
  rw [Bool.not_eq_true'] at hkept
  rcases hu e hmem with ⟨rel, heq, -⟩ | ⟨hs, -⟩
  · refine ⟨rel, ?_, heq⟩
    rintro rfl
    rw [List.append_nil] at heq
    rw [heq, show (s.root .backup).dropLast = _ from hp.neighbours, hparent] at hkept
    cases hkept
  · obtain ⟨-, hstage, -⟩ := hp.stage _ hs
    rw [hstage, hparent] at hkept
    cases hkept

theorem removeJournal_safe (hJ : J u) (hQ : Q () { u with journal := none }) :
    removeJournal.Safe J Q u := by
  refine safe_update hJ fun _ v hv => ?_
  split at hv
  · cases hv
  · cases hv
    exact hQ

theorem finish_committed (hp : Planned digest t₁ s) (hdir : isDirAt t₁ s.destination.dropLast = true)
    (h : Holds t₁ s nothing (newTree t₁ s) nothing g u) (hu : Lost t₁ s .backup (oldTree t₁ s) u)
    (hj : u.journal = some { s with committed := true }) :
    (finishReplacement { s with committed := true }).Safe (Phase t₁ s)
      (fun _ v => Phase t₁ s v ∧ v.journal = none) u := by
  have hclean : ∀ {v g}, Holds t₁ s nothing (newTree t₁ s) nothing g v →
      Lost t₁ s .backup (oldTree t₁ s) v → v.journal = u.journal → Phase t₁ s v :=
    fun hv hl hjv => .cleaning (hjv.trans hj) hdir hv nofun hl
  refine Safe.bind (R := fun _ v => ∃ g', Holds t₁ s nothing (newTree t₁ s) nothing g' v ∧
      Lost t₁ s .backup (oldTree t₁ s) v ∧ v.journal = u.journal ∧
      (s.copyStage.isSome = true → g' = true))
    (removeStage_safe (s := s) hp h hu (hclean h hu rfl) fun v g' hv hl hjv hg => ⟨g', hv, hl, hjv, hg⟩) ?_
  rintro _ v ⟨g', hv, hl, hjv, hg⟩
  refine Safe.bind (R := fun _ w => Holds t₁ s nothing (newTree t₁ s) nothing g' w ∧
      Lost t₁ s .backup (oldTree t₁ s) w ∧ w.journal = u.journal ∧
      ∀ e ∈ w.unsynced, ∃ rel, rel ≠ [] ∧ e.1 = s.backup ++ rel) ?_ ?_
  · refine syncReplacementParents_safe _ (fun w hw => ?_) fun w hw => ?_
    · exact hclean (hw.holds hv) (hw.lost hl) (hw.journal.trans hjv)
    · exact ⟨hw.holds hv, hw.lost hl, hw.journal.trans hjv, hl.durable hp hdir hv hw⟩
  · rintro _ w ⟨hw, hlw, hjw, hdone⟩
    refine Safe.bind (R := fun _ x => Phase t₁ s x ∧ x.journal = none)
      (removeJournal_safe (hclean hw hlw hjw) ⟨.done rfl ⟨hw.laid, hw.rooted⟩ hg hdone, rfl⟩) ?_
    rintro _ x ⟨hx, hjx⟩
    exact safe_barrier hx ⟨hx, hjx⟩

def Restored (t₁ : PathMap String Object) (s : Replacement) (v : Disk) : Prop :=
  v.journal = some s ∧ ((Holds t₁ s (newTree t₁ s) (oldTree t₁ s) nothing false v ∧ v.unsynced = []) ∨
    s.copyStage.isSome = true ∧ ∃ a g, Holds t₁ s a (oldTree t₁ s) nothing g v ∧
      PartOf a (newTree t₁ s) ∧ Lost t₁ s .source (newTree t₁ s) v)

theorem Restored.phase (h : Restored t₁ s u) : Phase t₁ s u := by
  obtain ⟨hj, ⟨hu, hsync⟩ | ⟨hcopy, a, g, hu, ha, hl⟩⟩ := h
  · exact .before (Or.inr hj) hu hsync
  · exact .undoing hcopy (Or.inr hj) hu ha hl

variable {v : Disk}

theorem Restored.flushed {dirs : List Path} (h : Restored t₁ s u) (hv : Flushed u dirs v) : Restored t₁ s v := by
  obtain ⟨hj, ⟨hu, hsync⟩ | ⟨hcopy, a, g, hu, ha, hl⟩⟩ := h
  · exact ⟨hv.journal.trans hj, Or.inl ⟨hv.holds hu, hv.synced hsync⟩⟩
  · exact ⟨hv.journal.trans hj, Or.inr ⟨hcopy, a, g, hv.holds hu, ha, hv.lost hl⟩⟩

theorem Planned.oldTree_empty (hp : Planned digest t₁ s) (h : s.old = []) :
    oldTree t₁ s = nothing := by
  funext rel
  apply hp.rooted.none_below (hp.root_ne .destination)
  by_contra hsome
  exact manifest_ne_nil hp.oldSupported hsome (hp.old.symm.trans h)

theorem restoreOld_safe (hp : Planned digest t₁ s) (hj : u.journal = some s)
    (h : Holds t₁ s (newTree t₁ s) nothing (oldTree t₁ s) false u) (hu : u.unsynced = []) :
    (onlyIf (!s.old.isEmpty) (do
      renamePath s.backup s.destination
      syncDir s.destination.dropLast) : Fs Unit).Safe (Phase t₁ s) (fun _ => Restored t₁ s) u := by
  have here : Phase t₁ s u := .backedUp hj h hu
  cases hold : s.old with
  | nil =>
    have hempty := hp.oldTree_empty hold
    refine safe_pure ⟨hj, Or.inl ⟨?_, hu⟩⟩
    rw [hempty] at h ⊢
    exact h
  | cons e es =>
    refine Safe.bind (R := fun _ => Restored t₁ s) (safe_rename (i := .backup) (j := .destination)
      hp h (by decide) (fill_move_backup_destination _ _ _) here ?_) ?_
    · intro v hjv huv hv _
      exact ⟨hjv.trans hj, Or.inl ⟨hv, huv.trans hu⟩⟩
    · intro _ v hv
      exact syncDir_safe _ hv.phase fun w hw => hv.flushed hw

theorem manifest_backup_ne (hp : Planned digest t₁ s)
    (hback : ∀ rel, u.tree.lookup (s.backup ++ rel) = oldTree t₁ s rel) (hold : s.old ≠ []) :
    manifest digest u.tree s.backup ≠ [] := by
  have hlen : (manifest digest u.tree s.backup).length = s.old.length := by
    rw [hp.old]
    exact manifest_length hback
  intro hnil
  rw [hnil] at hlen
  exact hold (List.eq_nil_of_length_eq_zero hlen.symm)

theorem restored_iff (hp : Planned digest t₁ s)
    (h : Holds t₁ s a b c g u) (hb : b = oldTree t₁ s) (hc : c = nothing) :
    ((manifest digest u.tree s.backup).isEmpty &&
      matchesReplacement (manifest digest u.tree s.destination) s.old false) = true := by
  subst hb hc
  have hback : manifest digest u.tree s.backup = [] := manifest_eq_nil h.backup
  rw [hback, hp.old, matches_of_eq h.destination]
  rfl

theorem restoreDestination_safe (hp : Planned digest t₁ s) (hph : Phase t₁ s u) (hj : u.journal = some s) :
    (restoreDestination s (manifest digest u.tree s.backup) (manifest digest u.tree s.source)
      (manifest digest u.tree s.destination)).Safe (Phase t₁ s) (fun _ => Restored t₁ s) u := by
  unfold restoreDestination
  cases hph with
  | before hj' h hu =>
    rw [if_pos (restored_iff hp h rfl rfl), if_pos]
    · exact safe_pure ⟨hj, Or.inl ⟨h, hu⟩⟩
    · rw [hp.new]
      exact matches_of_eq h.source _
  | undoing hcopy hj' h ha hu =>
    rw [if_pos (restored_iff hp h rfl rfl), if_pos]
    · exact safe_pure ⟨hj, Or.inr ⟨hcopy, _, _, h, ha, hu⟩⟩
    · rw [hp.new, hcopy]
      refine matches_of_sub fun rel o ho => ha rel o ?_
      exact (h.source rel).symm.trans ho
  | backedUp hj' h hu =>
    by_cases hold : s.old = []
    · have hempty := hp.oldTree_empty hold
      rw [hempty] at h
      rw [if_pos (restored_iff hp h hempty.symm rfl), if_pos]
      · refine safe_pure ⟨hj, Or.inl ⟨?_, hu⟩⟩
        rw [hempty]
        exact h
      · rw [hp.new]
        exact matches_of_eq h.source _
    · have hback : manifest digest u.tree s.backup ≠ [] := manifest_backup_ne hp h.backup hold
      rw [if_neg (by simp [hback]), if_pos (hp.old ▸ matches_of_eq h.backup _)]
      refine Safe.bind (R := fun _ v => v = u) ?_ ?_
      · unfold unpublish
        have hsource : matchesReplacement (manifest digest u.tree s.source) s.new false = true :=
          hp.new ▸ matches_of_eq h.source _
        rw [manifest_eq_nil h.destination, hsource, if_pos (by rfl)]
        exact safe_pure rfl
      · rintro _ v rfl
        exact restoreOld_safe hp hj h hu
  | published hj' hdir h hu =>
    have hdest : manifest digest u.tree s.destination ≠ [] := by
      refine manifest_ne_nil (fun rel o ho => ?_) ?_
      · exact hp.newSupported rel o ((h.destination rel).symm.trans ho)
      · have hroot := h.destination []
        rw [List.append_nil] at hroot
        rw [hroot, newTree, List.append_nil]
        exact hp.present
    have hfirst : ((manifest digest u.tree s.backup).isEmpty &&
        matchesReplacement (manifest digest u.tree s.destination) s.old false) = false := by
      by_cases hold : s.old = []
      · have hlen : (manifest digest u.tree s.destination).length ≠ 0 := fun hlen =>
          hdest (List.eq_nil_of_length_eq_zero hlen)
        simp [matchesReplacement, hold, hlen]
      · have hback : manifest digest u.tree s.backup ≠ [] := manifest_backup_ne hp h.backup hold
        simp [hback]
    rw [hfirst, if_neg (by simp), if_pos (hp.old ▸ matches_of_eq h.backup _)]
    refine Safe.bind (R := fun _ v => v.journal = some s ∧ v.unsynced = [] ∧
      Holds t₁ s (newTree t₁ s) nothing (oldTree t₁ s) false v) ?_ ?_
    · have hmatch : matchesReplacement (manifest digest u.tree s.destination) s.new false = true :=
        hp.new ▸ matches_of_eq h.destination _
      unfold unpublish
      rw [if_neg (by simp [hdest]), manifest_eq_nil h.source, hmatch, if_pos (by rfl)]
      refine Safe.bind (R := fun _ v => v.journal = some s ∧ v.unsynced = [] ∧
        Holds t₁ s (newTree t₁ s) nothing (oldTree t₁ s) false v) ?_ ?_
      · refine safe_rename (i := .destination) (j := .source) hp h (by decide)
          (fill_move_destination_source _ _ _) (.published hj hdir h hu) ?_
        intro v hjv huv hv _
        exact ⟨hjv.trans hj, huv.trans hu, hv⟩
      · rintro _ v ⟨hjv, huv, hv⟩
        refine syncReplacementParents_safe _ (fun w hw => ?_) fun w hw => ?_
        · exact .backedUp (hw.journal.trans hjv) (hw.holds hv) (hw.synced huv)
        · exact ⟨hw.journal.trans hjv, hw.synced huv, hw.holds hv⟩
    · rintro _ v ⟨hjv, huv, hv⟩
      exact restoreOld_safe hp hjv hv huv
  | cleaning hj' =>
    rw [hj'] at hj
    have hcom := congrArg Replacement.committed (Option.some.inj hj)
    rw [hp.uncommitted] at hcom
    cases hcom
  | done hj' =>
    rw [hj'] at hj
    cases hj

def RolledBack (t₁ : PathMap String Object) (s : Replacement) (v : Disk) : Prop :=
  (s.copyStage = none ∧ Holds t₁ s (newTree t₁ s) (oldTree t₁ s) nothing false v ∧ v.unsynced = []) ∨
    s.copyStage.isSome = true ∧ ∃ g, Holds t₁ s nothing (oldTree t₁ s) nothing g v ∧
      Lost t₁ s .source (newTree t₁ s) v

theorem RolledBack.phase (h : RolledBack t₁ s v) (hj : v.journal = none ∨ v.journal = some s) : Phase t₁ s v := by
  obtain ⟨-, hv, hu⟩ | ⟨hcopy, g, hv, hl⟩ := h
  · exact .before hj hv hu
  · exact .undoing hcopy hj hv nofun hl

theorem RolledBack.flushed {dirs : List Path} (h : RolledBack t₁ s u)
    (hv : Flushed u dirs v) : RolledBack t₁ s v := by
  obtain ⟨hs, hu, hsync⟩ | ⟨hcopy, g, hu, hl⟩ := h
  · exact Or.inl ⟨hs, hv.holds hu, hv.synced hsync⟩
  · exact Or.inr ⟨hcopy, g, hv.holds hu, hv.lost hl⟩

theorem removeCopy_safe (hp : Planned digest t₁ s) (h : Restored t₁ s u) :
    (onlyIf s.copyStage.isSome (removeReplacementTree s.source)).Safe (Phase t₁ s)
      (fun _ v => RolledBack t₁ s v ∧ v.journal = some s) u := by
  have hj := h.1
  cases hs : s.copyStage with
  | none =>
    obtain ⟨-, ⟨hu, hsync⟩ | ⟨hcopy, -⟩⟩ := h
    · exact safe_pure ⟨Or.inl ⟨hs, hu, hsync⟩, hj⟩
    · rw [hs] at hcopy
      cases hcopy
  | some stage =>
    have hcopy : s.copyStage.isSome = true := by rw [hs]; rfl
    have hstart : ∃ a g, Holds t₁ s a (oldTree t₁ s) nothing g u ∧ PartOf a (newTree t₁ s) ∧
        Lost t₁ s .source (newTree t₁ s) u := by
      obtain ⟨-, ⟨hu, hsync⟩ | ⟨-, hu⟩⟩ := h
      · exact ⟨_, _, hu, fun _ _ => id, by rw [Lost, hsync]; nofun⟩
      · exact hu
    obtain ⟨a, g, hu, ha, hl⟩ := hstart
    have hempty : Emptying t₁ s (fill a (oldTree t₁ s) nothing) g .source (newTree t₁ s) a (some s) u :=
      ⟨by rw [update_fill_source]; exact hu.laid, hu.rooted, ha, hl, hj⟩
    refine (removeReplacementTree_empties (i := .source) hp hempty).mono ?_ ?_
    · rintro v ⟨sl, hv⟩
      have hlv := hv.laid
      rw [update_fill_source] at hlv
      exact .undoing hcopy (Or.inr hv.journal) ⟨hlv, hv.rooted⟩ hv.part hv.lost
    · intro _ v hv
      have hlv := hv.laid
      rw [update_fill_source] at hlv
      exact ⟨Or.inr ⟨hcopy, g, ⟨hlv, hv.rooted⟩, hv.lost⟩, hv.journal⟩

theorem finish_rolledBack (hp : Planned digest t₁ s) (h : RolledBack t₁ s u) (hj : u.journal = some s) :
    (finishReplacement s).Safe (Phase t₁ s) (fun _ v => Phase t₁ s v ∧ v.journal = none) u := by
  refine Safe.bind (R := fun _ v => RolledBack t₁ s v ∧ v.journal = some s) ?_ ?_
  · have here := h.phase (Or.inr hj)
    obtain ⟨hs, hu⟩ | ⟨hcopy, g, hu, hl⟩ := h
    · rw [hs]
      exact safe_pure ⟨Or.inl ⟨hs, hu⟩, hj⟩
    · exact removeStage_safe hp hu hl here fun v g' hv hlv hjv _ =>
        ⟨Or.inr ⟨hcopy, g', hv, hlv⟩, hjv.trans hj⟩
  · rintro _ v ⟨hv, hjv⟩
    refine Safe.bind (R := fun _ w => RolledBack t₁ s w ∧ w.journal = some s) ?_ ?_
    · refine syncReplacementParents_safe _ (fun w hw => ?_) fun w hw => ?_
      · exact (hv.flushed hw).phase (Or.inr (hw.journal.trans hjv))
      · exact ⟨hv.flushed hw, hw.journal.trans hjv⟩
    · rintro _ w ⟨hw, hjw⟩
      refine Safe.bind (R := fun _ x => Phase t₁ s x ∧ x.journal = none)
        (removeJournal_safe (hw.phase (Or.inr hjw)) ⟨?_, rfl⟩) fun _ x hx => safe_barrier hx.1 hx
      obtain ⟨hs, hw, hsync⟩ | ⟨hcopy, g, hw, hl⟩ := hw
      · exact .before (Or.inl rfl) ⟨hw.laid, hw.rooted⟩ hsync
      · exact .undoing hcopy (Or.inl rfl) ⟨hw.laid, hw.rooted⟩ nofun hl

theorem Phase.rooted (h : Phase t₁ s v) : Rooted v.tree := by
  cases h with
  | before _ h | backedUp _ h | published _ _ h | cleaning _ _ h | undoing _ _ h | done _ h =>
    exact h.rooted

theorem recoverTrees_uncommitted (hp : Planned digest t₁ s) (h : Phase t₁ s u) (hj : u.journal = some s) :
    (recoverTrees digest s (manifest digest u.tree s.backup)).Safe (Phase t₁ s)
      (fun _ v => RolledBack t₁ s v ∧ v.journal = some s) u := by
  unfold recoverTrees
  rw [hp.uncommitted, if_neg (by simp)]
  refine Safe.bind (replacementTree_spec h.rooted (hp.root_ne .source) h) ?_
  rintro m v ⟨rfl, rfl, -⟩
  refine Safe.bind (replacementTree_spec h.rooted (hp.root_ne .destination) h) ?_
  rintro m' w ⟨rfl, rfl, -⟩
  exact Safe.bind (restoreDestination_safe hp h hj) fun _ x hx => removeCopy_safe hp hx

theorem recoverTrees_committed (hp : Planned digest t₁ s) (hj : u.journal = some { s with committed := true })
    (hdir : isDirAt t₁ s.destination.dropLast = true)
    (h : Holds t₁ s nothing (newTree t₁ s) c g u) (hc : PartOf c (oldTree t₁ s))
    (hu : Lost t₁ s .backup (oldTree t₁ s) u) :
    (recoverTrees digest { s with committed := true } (manifest digest u.tree s.backup)).Safe
      (Phase t₁ s) (fun _ v => Holds t₁ s nothing (newTree t₁ s) nothing g v ∧
        Lost t₁ s .backup (oldTree t₁ s) v ∧ v.journal = some { s with committed := true }) u := by
  unfold recoverTrees cleanupReplacement
  have hmatch : matchesReplacement (manifest digest u.tree s.backup) s.old true = true := by
    rw [hp.old]
    exact matches_of_sub fun rel o ho => hc rel o ((h.backup rel).symm.trans ho)
  rw [if_pos rfl, if_pos hmatch]
  have hempty : Emptying t₁ s (fill nothing (newTree t₁ s) c) g .backup (oldTree t₁ s) c
      (some { s with committed := true }) u :=
    ⟨by rw [update_fill_backup]; exact h.laid, h.rooted, hc, hu, hj⟩
  refine (removeReplacementTree_empties (i := .backup) hp hempty).mono ?_ ?_
  · rintro v ⟨sl, hv⟩
    have hlv := hv.laid
    rw [update_fill_backup] at hlv
    exact .cleaning hv.journal hdir ⟨hlv, hv.rooted⟩ hv.part hv.lost
  · intro _ v hv
    have hlv := hv.laid
    rw [update_fill_backup] at hlv
    exact ⟨⟨hlv, hv.rooted⟩, hv.lost, hv.journal⟩

end BirakFormal
