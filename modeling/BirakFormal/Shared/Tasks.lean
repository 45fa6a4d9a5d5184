import BirakFormal.Shared.Interruption

/-!
# Tasks made of sections

A task runs one section after another. A section is a program that nothing else runs into;
between two sections other tasks may change the state in any way a relation allows. The
rules are those of rely and guarantee: what a task promises has to survive the steps of the
others, and each of its own sections may only do what the others tolerate.
-/

namespace Interruption

open Prog

inductive Task (ε σ α : Type) : Type 1 where
  | done (a : α)
  | next {β : Type} (p : Prog ε σ β) (k : Except (Failure ε) β → Task ε σ α)

namespace Task

variable {ε σ α β : Type}

protected def bind : Task ε σ α → (α → Task ε σ β) → Task ε σ β
  | .done a, f => f a
  | .next p k, f => .next p fun r => (k r).bind f

inductive Reaches (R : σ → σ → Prop) (τ : Task ε σ α) (s : σ) : Task ε σ α → σ → Prop where
  | start : Reaches R τ s τ s
  | elsewhere {τ' : Task ε σ α} {t u : σ} (h : Reaches R τ s τ' t) (hR : R t u) :
      Reaches R τ s τ' u
  | advance {β : Type} {p : Prog ε σ β} {k : Except (Failure ε) β → Task ε σ α} {t u : σ}
      {fs : List Fault} {r : Except (Failure ε) β} (h : Reaches R τ s (.next p k) t)
      (hrun : p.run fs t = (.returned r, u)) : Reaches R τ s (k r) u

def exec : Task ε σ α → σ → α × σ
  | .done a, s => (a, s)
  | .next p k, s => (k (p.exec s).1).exec (p.exec s).2

theorem Reaches.exec {R : σ → σ → Prop} {τ τ' : Task ε σ α} {s t : σ} (h : Reaches R τ s τ' t) :
    Reaches R τ s (.done (τ'.exec t).1) (τ'.exec t).2 := by
  induction τ' generalizing t with
  | done a => exact h
  | next p k ih => exact ih _ (h.advance (run_nil p t))

/-- Among steps of `R` every section stays within `G`, and the result satisfies `Q`. -/
def Meets (R G : σ → σ → Prop) (Q : α → σ → Prop) : Task ε σ α → σ → Prop
  | .done a, s => ∀ t, R s t → Q a t
  | .next p k, s => ∀ t, R s t → p.Sat (G t) (fun e u => G t u ∧ (k (.error e)).Meets R G Q u)
      (fun b u => G t u ∧ (k (.ok b)).Meets R G Q u) t

variable {R G : σ → σ → Prop} {Q Q' : α → σ → Prop} {τ τ' : Task ε σ α} {s t : σ}

theorem Meets.stable (F : Frame R) (h : τ.Meets R G Q s) (hst : R s t) : τ.Meets R G Q t := by
  cases τ with
  | done a => exact fun u hu => h u (F.trans hst hu)
  | next p k => exact fun u hu => h u (F.trans hst hu)

theorem Meets.rely {R' : σ → σ → Prop} (hR : ∀ s t, R' s t → R s t) (h : τ.Meets R G Q s) :
    τ.Meets R' G Q s := by
  induction τ generalizing s with
  | done a => exact fun t ht => h t (hR s t ht)
  | next p k ih =>
    intro t ht
    exact (h t (hR s t ht)).mono (fun _ => id) (fun _ u hu => ⟨hu.1, ih _ hu.2⟩)
      fun _ u hu => ⟨hu.1, ih _ hu.2⟩

theorem Meets.mono (h : τ.Meets R G Q s) (hQ : ∀ a t, Q a t → Q' a t) : τ.Meets R G Q' s := by
  induction τ generalizing s with
  | done a => exact fun t ht => hQ a t (h t ht)
  | next p k ih =>
    intro t ht
    exact (h t ht).mono (fun _ => id) (fun _ u hu => ⟨hu.1, ih _ hu.2⟩)
      fun _ u hu => ⟨hu.1, ih _ hu.2⟩

theorem Meets.keeps {I : σ → Prop} (hR : ∀ s t, R s t → I s → I t) (hG : ∀ s t, G s t → I s → I t)
    (h : τ.Meets R G Q s) (hs : I s) : τ.Meets R G (fun a t => Q a t ∧ I t) s := by
  induction τ generalizing s with
  | done a => exact fun t ht => ⟨h t ht, hR s t ht hs⟩
  | next p k ih =>
    intro t ht
    have hI := hR s t ht hs
    exact (h t ht).mono (fun _ => id) (fun _ u hu => ⟨hu.1, ih _ hu.2 (hG t u hu.1 hI)⟩)
      fun _ u hu => ⟨hu.1, ih _ hu.2 (hG t u hu.1 hI)⟩

theorem Meets.bind (F : Frame R) {f : α → Task ε σ β} {Q : β → σ → Prop}
    (h : τ.Meets R G (fun a t => (f a).Meets R G Q t) s) : (τ.bind f).Meets R G Q s := by
  induction τ generalizing s with
  | done a => exact h s (F.refl s)
  | next p k ih =>
    intro t ht
    exact (h t ht).mono (fun _ => id) (fun _ u hu => ⟨hu.1, ih _ hu.2⟩)
      fun _ u hu => ⟨hu.1, ih _ hu.2⟩

variable {k : Except (Failure ε) β → Task ε σ α} {p : Prog ε σ β}

theorem meets_next (hp : p.Within G) (herr : ∀ e t u, R s t → G t u → (k (.error e)).Meets R G Q u)
    (hok : ∀ t, R s t → p.Safe (fun _ => True) (fun b u => G t u → (k (.ok b)).Meets R G Q u) t) :
    (Task.next p k).Meets R G Q s := by
  intro t ht
  refine Sat.mono (Sat.and (hp t) (hok t ht)) (fun _ => And.left) (fun e u hu => ?_) fun b u hu => ?_
  · exact ⟨hu.1, herr e t u ht hu.1⟩
  · exact ⟨hu.1, hu.2 hu.1⟩

theorem Meets.advance (F : Frame R) (h : (Task.next p k).Meets R G Q s) {fs : List Fault} {r : Except (Failure ε) β}
    (hrun : p.run fs s = (.returned r, t)) : G s t ∧ (k r).Meets R G Q t := by
  have hmeets := (h s (F.refl s)).run fs
  rw [hrun] at hmeets
  cases r with
  | ok b => exact hmeets
  | error e => exact hmeets

theorem Meets.stops (F : Frame R) (h : (Task.next p k).Meets R G Q s) (hst : p.Stops s t) : G s t := by
  obtain ⟨fs, rfl⟩ := hst
  have hmeets := (h s (F.refl s)).run fs
  cases hrun : p.run fs s with
  | mk o u =>
    rw [hrun] at hmeets
    cases o with
    | crashed => exact hmeets
    | returned r =>
      cases r with
      | ok b => exact hmeets.1
      | error e => exact hmeets.1

theorem Meets.reaches (F : Frame R) (h : τ.Meets R G Q s) (hr : Reaches R τ s τ' t) :
    τ'.Meets R G Q t := by
  induction hr with
  | start => exact h
  | elsewhere _ hR ih => exact ih.stable F hR
  | advance _ hrun ih => exact (ih.advance F hrun).2

theorem Meets.done (F : Frame R) {a : α} (h : (Task.done a : Task ε σ α).Meets R G Q s) : Q a s :=
  h s (F.refl s)

theorem Meets.along (F : Frame R) (hG : ∀ s t, G s t → R s t) (h : τ.Meets R G Q s)
    (hr : Reaches R τ s τ' t) : R s t := by
  induction hr with
  | start => exact F.refl s
  | elsewhere _ hR ih => exact F.trans ih hR
  | advance hprev hrun ih => exact F.trans ih (hG _ _ ((h.reaches F hprev).advance F hrun).1)

end Task

end Interruption
