import BirakFormal.Fileops.Trees
import BirakFormal.Shared.CleanRuns
import BirakFormal.Shared.Layering

/-!
# A volume and what a power loss leaves of it

The volume of the replacement model, together with what has been flushed: the entries of each
directory and the bytes of each file, by inode. Only a flush of a file or of a directory
changes the lower layer.
-/

namespace BirakFormal

open Interruption Prog Subtrees

/-- `links` and `contents` are what is durable; the root has inode zero. New objects take their
inodes from `next`. `busy` and `busyTree` are what the open writers answer during a commit, and
`now` is the time that a write stamps. -/
structure Layered where
  disk : Disk
  links : Nat → String → Option Nat
  contents : Nat → Option Bytes
  next : Nat
  busy : Path → Bool := fun _ => false
  busyTree : Path → Bool := fun _ => false
  now : Int64 := 0

abbrev LayeredProg := Prog Err Layered

def Object.content (o : Object) : Option Bytes :=
  match o.body with
  | .file bytes _ => some bytes
  | _ => none

namespace Layered

def durable (w : Layered) (p : Path) : Option Bytes := Layering.kept 0 w.links w.contents p

def diskPart : Part Layered Disk where
  get w := w.disk
  set w d := { w with disk := d }
  get_set _ _ := rfl
  set_set _ _ _ := rfl
  set_get _ := rfl

def onDisk {α : Type} (p : Fs α) : LayeredProg α := p.zoom diskPart

def flushDir (w : Layered) (dir : Path) : Layered :=
  { w with
    disk := w.disk.flush fun k => k = dir
    links := Layering.flush 0 Object.inode w.disk.tree w.links dir }

def syncDir (dir : Path) : LayeredProg Unit := alter fun w => w.flushDir dir

def syncParents (dir : Path) : LayeredProg Unit := forEach syncDir dir.inits.reverse

def syncSurvivingParent (p : Path) : LayeredProg Unit := do
  let dir ← look fun w => survivingParent w.disk.tree p
  syncParents dir

def syncBoth (p q : LayeredProg Unit) : LayeredProg Unit := do
  let a ← attempt p
  let b ← attempt q
  onDisk (joinErrors a b)

def createTemp : LayeredProg Nat := update fun w => .ok (w.next, { w with next := w.next + 1 })

def syncFile (inode : Nat) (bytes : Bytes) : LayeredProg Unit :=
  alter fun w => { w with contents := fun i => if i = inode then some bytes else w.contents i }

def writeTemp (bytes : Bytes) (mtime : Int64) (perm : Nat) : LayeredProg Object := do
  let inode ← createTemp
  syncFile inode bytes
  pure { inode, perm, body := .file bytes mtime }

def renameTemp (o : Object) (q : Path) : LayeredProg Unit :=
  update fun w =>
    if q = [] || o.isDir || !isDirAt w.disk.tree q.dropLast || !mayReplace w.disk.tree o q then
      .error (.failed ("rename " ++ q.text))
    else .ok ((), { w with disk := { w.disk with tree := w.disk.tree.put q o } })

def mkdir (p : Path) (perm : Nat) : LayeredProg Unit :=
  update fun w =>
    if p ≠ [] ∧ isDirAt w.disk.tree p.dropLast ∧ w.disk.tree.lookup p = none then
      .ok ((), { w with
        disk := { w.disk with tree := w.disk.tree.put p { inode := w.next, perm, body := .dir } }
        next := w.next + 1 })
    else .error (.failed ("mkdir " ++ p.text))

def removeAll (p : Path) : LayeredProg Unit :=
  alter fun w => { w with disk := { w.disk with
    tree := w.disk.tree.prune p
    unsynced := ((w.disk.tree.below walkOrder p).filterMap fun rel =>
      (w.disk.tree.lookup (p ++ rel)).map fun o => (p ++ rel, o)) ++ w.disk.unsynced } }

def setAttrs (p : Path) (f : Object → Object) : LayeredProg Unit :=
  update fun w => match w.disk.tree.lookup p with
    | none => .error (.failed (p.text ++ ": no such file or directory"))
    | some o => .ok ((), { w with disk := { w.disk with tree := w.disk.tree.put p (f o) } })

end Layered

/-- Every entry outside `pending` and the bytes of every file are durable. -/
structure Persisted (pending : Path → Prop) (w : Layered) : Prop where
  rooted : Rooted w.disk.tree
  wellFormed : Layering.WellFormed 0 Object.inode w.disk.tree
  linked : Layering.Linked 0 Object.inode pending w.links w.disk.tree
  stored : Layering.Stored Object.inode Object.content w.contents w.disk.tree
  fresh : ∀ p o, w.disk.tree.lookup p = some o → o.inode < w.next
  positive : 0 < w.next

theorem Rooted.closed {t : PathMap String Object} (h : Rooted t) (p : Path) (k : String)
    (hk : t.lookup (p ++ [k]) ≠ none) : p = [] ∨ t.lookup p ≠ none := by
  rcases isDirAt_iff.mp (h p k hk) with hnil | ⟨o, ho, -⟩
  · exact Or.inl hnil
  · exact Or.inr (by rw [ho]; nofun)

variable {pending : Path → Prop} {w : Layered}

theorem Persisted.durable (h : Persisted pending w) {p : Path} {o : Object} {bytes : Bytes}
    (ho : w.disk.tree.lookup p = some o) (hb : o.content = some bytes)
    (hp : ∀ q, q <+: p → ¬ pending q) : w.durable p = some bytes :=
  h.linked.kept h.stored h.wellFormed ho hb hp

theorem Persisted.mono (h : Persisted pending w) {pending' : Path → Prop}
    (hsub : ∀ k, w.disk.tree.lookup k ≠ none → pending k → pending' k) : Persisted pending' w :=
  { h with linked := h.linked.mono hsub }

theorem Persisted.flushDir (h : Persisted pending w) (dir : Path) :
    Persisted (fun k => pending k ∧ k.dropLast ≠ dir) (w.flushDir dir) :=
  { h with linked := h.linked.flush h.wellFormed dir }

theorem Persisted.within (h : Persisted pending w) {d : Disk}
    (hsub : Layering.Within Object.inode Object.content d.tree w.disk.tree) (hr : Rooted d.tree) :
    Persisted pending { w with disk := d } := by
  have hw : Layering.WellFormed 0 Object.inode d.tree := h.wellFormed.within hsub hr.closed
  refine ⟨hr, hw, h.linked.within hsub hw, h.stored.within hsub, fun p o' ho' => ?_, h.positive⟩
  obtain ⟨o, ho, hi, -⟩ := hsub p o' ho'
  exact hi ▸ h.fresh p o ho

theorem Persisted.move (h : Persisted pending w) {p q : Path} (hpq : ¬ p <+: q) (hqp : ¬ q <+: p)
    (hdir : isDirAt w.disk.tree q.dropLast = true) (hclear : ∀ x rel, ¬ pending (p ++ x :: rel)) :
    Persisted (fun k => k = q ∨ pending k) { w with disk := { w.disk with tree := w.disk.tree.move p q } } := by
  have hr := h.rooted.move hpq hqp hdir
  refine ⟨hr, h.wellFormed.move hqp hr.closed, (h.linked.move hpq hqp).mono ?_, h.stored.move, ?_, h.positive⟩
  · rintro k - (rfl | hk | ⟨x, rel, -, hk⟩)
    · exact Or.inl rfl
    · exact Or.inr hk
    · exact absurd hk (hclear x rel)
  · intro k o ho
    rcases Layering.move_origin ho with ⟨rel, -, ho⟩ | ⟨-, -, ho⟩
    · exact h.fresh _ o ho
    · exact h.fresh _ o ho

theorem Persisted.put (h : Persisted pending w) {q : Path} {o : Object} (hq : q ≠ [])
    (hdir : isDirAt w.disk.tree q.dropLast = true) (hleaf : ∀ x, w.disk.tree.lookup (q ++ [x]) = none)
    (hpos : o.inode ≠ 0) (hnew : ∀ p o', w.disk.tree.lookup p = some o' → o'.inode ≠ o.inode)
    (hlt : o.inode < w.next) (hstored : ∀ b, o.content = some b → w.contents o.inode = some b) :
    Persisted (fun k => k = q ∨ pending k)
      { w with disk := { w.disk with tree := w.disk.tree.put q o } } := by
  have hr : Rooted (w.disk.tree.put q o) := by
    intro p x hx
    rw [Layering.put_lookup] at hx
    have hpq : p ≠ q → isDirAt (w.disk.tree.put q o) p = isDirAt w.disk.tree p := fun hne =>
      isDirAt_congr (by rw [Layering.put_lookup, if_neg hne])
    split at hx
    · next heq =>
      have hp : p = q.dropLast := by rw [← heq, List.dropLast_concat]
      have hne : p ≠ q := by
        intro hpq
        have := congrArg List.length (hpq.trans heq.symm)
        simp at this
      rw [hpq hne, hp]
      exact hdir
    · by_cases hne : p = q
      · subst hne
        exact absurd (hleaf x) hx
      · rw [hpq hne]
        exact h.rooted p x hx
  refine ⟨hr, h.wellFormed.put hq hpos hnew hr.closed, h.linked.put hleaf, h.stored.put hstored, ?_, h.positive⟩
  intro k o' ho'
  rw [Layering.put_lookup] at ho'
  split at ho'
  · cases ho'; exact hlt
  · exact h.fresh k o' ho'

end BirakFormal
