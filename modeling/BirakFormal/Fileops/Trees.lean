import BirakFormal.Fileops.Replace

/-!
# Trees and their manifests

Trees in which every entry has its directory, what unlinking and renaming do to them, and
when the manifest of one subtree matches that of another.
-/

namespace BirakFormal

open Interruption Prog Subtrees

def Rooted (t : PathMap String Object) : Prop :=
  ∀ p x, t.lookup (p ++ [x]) ≠ none → isDirAt t p = true

theorem isDirAt_iff {t : PathMap String Object} {p : Path} :
    isDirAt t p = true ↔ p = [] ∨ ∃ o, t.lookup p = some o ∧ o.isDir = true := by
  simp [isDirAt, Option.any_eq_true]

theorem isDirAt_congr {t t' : PathMap String Object} {p : Path} (h : t'.lookup p = t.lookup p) :
    isDirAt t' p = isDirAt t p := by
  rw [isDirAt, isDirAt, h]

theorem climb_of_isDirAt {t : PathMap String Object} {p : Path} (h : isDirAt t p = true) :
    climb t p.reverse = p := by
  cases hr : p.reverse with
  | nil => rw [List.reverse_eq_nil_iff.mp hr]; rfl
  | cons x xs =>
    have hp : (x :: xs).reverse = p := by rw [← hr, List.reverse_reverse]
    rw [climb, hp, if_pos h]

section
variable {t : PathMap String Object} {p q : Path}

theorem Rooted.none_below (h : Rooted t) (hp : p ≠ []) (hnone : t.lookup p = none) (rel : Path) :
    t.lookup (p ++ rel) = none := by
  induction rel using List.reverseRecOn with
  | nil => rwa [List.append_nil]
  | append_singleton rel x ih =>
    by_contra hsome
    rw [← List.append_assoc] at hsome
    rcases isDirAt_iff.mp (h _ _ hsome) with hnil | ⟨o, ho, -⟩
    · exact hp (List.append_eq_nil_iff.mp hnil).1
    · rw [ih] at ho
      cases ho

theorem Rooted.erase (h : Rooted t) (hleaf : hasChildren t p = false) : Rooted (t.erase p) := by
  intro k x hk
  change (if k ++ [x] = p then none else t.lookup (k ++ [x])) ≠ none at hk
  split at hk
  · exact absurd rfl hk
  · have hkp : k ≠ p := by
      rintro rfl
      have hmem := (t.mem_names _).mpr hk
      simp only [hasChildren, List.any_eq_false] at hleaf
      exact hleaf _ hmem (by simp)
    rw [isDirAt_congr (t := t) (if_neg hkp)]
    exact h k x hk

theorem Rooted.move (h : Rooted t) (hpq : ¬ p <+: q) (hqp : ¬ q <+: p)
    (hdir : isDirAt t q.dropLast = true) : Rooted (t.move p q) := by
  have hlook : ∀ k, (t.move p q).lookup k = if q <+: k then t.lookup (p ++ k.drop q.length)
      else if p <+: k then none else t.lookup k := fun _ => rfl
  have hq : q ≠ [] := fun hnil => hqp (hnil ▸ List.nil_prefix)
  intro k x hk
  rw [hlook] at hk
  by_cases hqk : q <+: k
  · -- The parent moved along.
    obtain ⟨rel, rfl⟩ := hqk
    rw [if_pos (by rw [List.append_assoc]; exact List.prefix_append _ _), List.append_assoc,
      List.drop_left, ← List.append_assoc] at hk
    have hparent := h _ _ hk
    have hmoved : (t.move p q).lookup (q ++ rel) = t.lookup (p ++ rel) := by
      rw [hlook, if_pos (List.prefix_append _ _), List.drop_left]
    rcases isDirAt_iff.mp hparent with hnil | ⟨o, ho, hod⟩
    · exact absurd ((List.append_eq_nil_iff.mp hnil).1 ▸ List.nil_prefix) hpq
    · exact isDirAt_iff.mpr (Or.inr ⟨o, hmoved.trans ho, hod⟩)
  · have hstay : ¬ p <+: k → (t.move p q).lookup k = t.lookup k := by
      intro hpk
      rw [hlook, if_neg hqk, if_neg hpk]
    by_cases hqx : q <+: k ++ [x]
    · -- The root of what moved: its directory was checked.
      have hkq : k = q.dropLast := by
        rcases List.prefix_concat_iff.mp hqx with rfl | hpre
        · exact (List.dropLast_concat).symm
        · exact absurd hpre hqk
      have hpk : ¬ p <+: k := fun hpre => hpq (hpre.trans (hkq ▸ List.dropLast_prefix q))
      rw [isDirAt_congr (hstay hpk), hkq]
      exact hdir
    · rw [if_neg hqx] at hk
      split at hk
      · exact absurd rfl hk
      · next hpx =>
        have hpk : ¬ p <+: k := fun hpre => hpx (hpre.trans (List.prefix_append _ _))
        rw [isDirAt_congr (hstay hpk)]
        exact h k x hk

end

variable {digest : Digest} {t t' : PathMap String Object} {p q : Path} {e : ReplacementEntry}

theorem entry_name {o : Object} {rel : Path} (h : o.entry digest rel = some e) : e.name = rel := by
  unfold Object.entry at h
  dsimp only at h
  split at h
  · cases h; rfl
  · cases h; rfl
  · cases h; rfl
  · cases h

theorem entry_ne_none {o : Object} (rel : Path) (h : o.body ≠ .special) :
    o.entry digest rel ≠ none := by
  unfold Object.entry
  split
  · nofun
  · nofun
  · nofun
  · next hs => exact absurd hs h

theorem mem_manifest :
    e ∈ manifest digest t p ↔ ∃ o, t.lookup (p ++ e.name) = some o ∧ o.entry digest e.name = some e := by
  unfold manifest
  rw [List.mem_filterMap]
  constructor
  · rintro ⟨rel, -, h⟩
    obtain ⟨o, ho, he⟩ := Option.bind_eq_some_iff.mp h
    obtain rfl := entry_name he
    exact ⟨o, ho, he⟩
  · rintro ⟨o, ho, he⟩
    refine ⟨e.name, PathMap.mem_below.mpr ?_, Option.bind_eq_some_iff.mpr ⟨o, ho, he⟩⟩
    rw [ho]
    nofun

theorem entryOf_manifest (he : e ∈ manifest digest t p) :
    entryOf (manifest digest t p) e.name = some e := by
  unfold entryOf
  cases hf : (manifest digest t p).reverse.find? fun x => x.name = e.name with
  | none =>
    have hnone := List.find?_eq_none.mp hf e (List.mem_reverse.mpr he)
    exact absurd (decide_eq_true rfl) hnone
  | some x =>
    have hx : x ∈ manifest digest t p := List.mem_reverse.mp (List.mem_of_find?_eq_some hf)
    have hname : x.name = e.name := by simpa using List.find?_some hf
    obtain ⟨o, ho, hox⟩ := mem_manifest.mp hx
    obtain ⟨o', ho', hoe⟩ := mem_manifest.mp he
    rw [hname, ho'] at ho
    cases ho
    rw [hname, hoe] at hox
    exact hox.symm

theorem matches_of_sub (h : ∀ rel o, t.lookup (p ++ rel) = some o → t'.lookup (q ++ rel) = some o) :
    matchesReplacement (manifest digest t p) (manifest digest t' q) true = true := by
  unfold matchesReplacement
  rw [Bool.true_or, Bool.true_and, List.all_eq_true]
  intro e he
  obtain ⟨o, ho, hoe⟩ := mem_manifest.mp he
  exact decide_eq_true (entryOf_manifest (mem_manifest.mpr ⟨o, h _ _ ho, hoe⟩))

theorem manifest_length (h : ∀ rel, t.lookup (p ++ rel) = t'.lookup (q ++ rel)) :
    (manifest digest t p).length = (manifest digest t' q).length := by
  have hperm : (t.below walkOrder p).Perm (t'.below walkOrder q) := by
    refine (List.perm_ext_iff_of_nodup (PathMap.nodup_below _ _ _) (PathMap.nodup_below _ _ _)).mpr ?_
    intro rel
    rw [PathMap.mem_below, PathMap.mem_below, h]
  unfold manifest
  simp only [h]
  exact (hperm.filterMap _).length_eq

theorem matches_of_eq (h : ∀ rel, t.lookup (p ++ rel) = t'.lookup (q ++ rel)) (allowMissing : Bool) :
    matchesReplacement (manifest digest t p) (manifest digest t' q) allowMissing = true := by
  have hsub : matchesReplacement (manifest digest t p) (manifest digest t' q) true = true :=
    matches_of_sub fun rel o ho => (h rel).symm.trans ho
  unfold matchesReplacement at hsub ⊢
  rw [Bool.true_or, Bool.true_and] at hsub
  rw [manifest_length h, hsub]
  simp

def Supported (t : PathMap String Object) (p : Path) : Prop :=
  ∀ rel o, t.lookup (p ++ rel) = some o → o.body ≠ .special

theorem manifest_eq_nil (h : ∀ rel, t.lookup (p ++ rel) = none) : manifest digest t p = [] := by
  apply List.eq_nil_iff_forall_not_mem.mpr
  intro e he
  obtain ⟨o, ho, -⟩ := mem_manifest.mp he
  rw [h] at ho
  cases ho

theorem manifest_ne_nil (hs : Supported t p) (h : t.lookup p ≠ none) : manifest digest t p ≠ [] := by
  obtain ⟨o, ho⟩ := Option.ne_none_iff_exists'.mp h
  have hroot : t.lookup (p ++ []) = some o := by rwa [List.append_nil]
  obtain ⟨e, he⟩ := Option.ne_none_iff_exists'.mp (@entry_ne_none digest o [] (hs [] o hroot))
  have hname := entry_name he
  refine List.ne_nil_of_mem (mem_manifest (e := e).mpr ⟨o, ?_, ?_⟩)
  · rw [hname]
    exact hroot
  · rw [hname]
    exact he

theorem replacementTree_spec {d : Disk} (hr : Rooted d.tree) (hp : p ≠ []) {J : Disk → Prop} (hJ : J d) :
    (replacementTree digest p).Safe J
      (fun m u => u = d ∧ m = manifest digest d.tree p ∧ Supported d.tree p) d := by
  refine safe_check hJ fun m hm => ⟨rfl, ?_⟩
  split at hm
  · next hnone =>
    cases hm
    have hall := hr.none_below hp hnone
    refine ⟨(manifest_eq_nil hall).symm, fun rel o ho => ?_⟩
    rw [hall] at ho
    cases ho
  · split at hm
    · cases hm
    · next hspecial =>
      cases hm
      refine ⟨rfl, fun rel o ho hbody => hspecial ?_⟩
      rw [List.any_eq_true]
      refine ⟨rel, PathMap.mem_below.mpr (by rw [ho]; nofun), ?_⟩
      rw [ho]
      simpa using hbody

end BirakFormal
