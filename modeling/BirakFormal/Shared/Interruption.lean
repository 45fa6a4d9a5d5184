import Mathlib

/-!
# Programs that may stop at any call

`Prog ε σ α` is the syntax of a sequential program over a shared state `σ`. Its only
effects are calls, each an atomic function of the state. A schedule decides, call by
call, whether the environment lets the call through, refuses it with an error and no
effect, or stops the whole program before it. Quantifying over schedules therefore covers
every point at which the program may fail or crash.

`Sat` is the corresponding logic: a condition at every point where the program may be
cut, a condition when it returns an error, and a condition when it returns a value.
Nothing here depends on what the calls do.
-/

namespace Interruption

/-- Why a computation returned an error: the environment refused a call, or the program
or one of its calls raised the error itself. -/
inductive Failure (ε : Type) where
  | fault
  | raised (e : ε)
  deriving DecidableEq, Repr

inductive Fault where
  | pass
  | fail
  | crash
  deriving DecidableEq, Repr

inductive Outcome (ε α : Type) where
  | returned (r : Except (Failure ε) α)
  | crashed
  deriving DecidableEq

/-- A program: a result, or an atomic call and a continuation that sees its result. -/
inductive Prog (ε σ α : Type) : Type 1 where
  | ret (r : Except (Failure ε) α)
  | call {β : Type} (f : σ → Except ε β × σ) (k : Except (Failure ε) β → Prog ε σ α)

namespace Prog

variable {ε σ α β : Type}

protected def bind : Prog ε σ α → (α → Prog ε σ β) → Prog ε σ β
  | .ret (.ok a), g => g a
  | .ret (.error e), _ => .ret (.error e)
  | .call f k, g => .call f fun r => (k r).bind g

instance : Monad (Prog ε σ) where
  pure a := .ret (.ok a)
  bind := Prog.bind

def raise (e : ε) : Prog ε σ α := .ret (.error (.raised e))

def rethrow (e : Failure ε) : Prog ε σ α := .ret (.error e)

def perform (f : σ → Except ε α × σ) : Prog ε σ α := .call f .ret

def look (g : σ → α) : Prog ε σ α := perform fun s => (.ok (g s), s)

def check (g : σ → Except ε α) : Prog ε σ α := perform fun s => (g s, s)

def alter (f : σ → σ) : Prog ε σ Unit := perform fun s => (.ok (), f s)

/-- A call that either succeeds with a new state or refuses and leaves the state alone. -/
def update (f : σ → Except ε (α × σ)) : Prog ε σ α :=
  perform fun s => match f s with
    | .ok (a, t) => (.ok a, t)
    | .error e => (.error e, s)

/-- A call without effect on the state: it can only be refused by the environment. -/
def barrier : Prog ε σ Unit := perform fun s => (.ok (), s)

def onlyIf (c : Bool) (p : Prog ε σ Unit) : Prog ε σ Unit := if c then p else pure ()

def attempt : Prog ε σ α → Prog ε σ (Except (Failure ε) α)
  | .ret r => .ret (.ok r)
  | .call f k => .call f fun r => (k r).attempt

/-- Run `f` over a list, stopping at the first error. -/
def forEach (f : β → Prog ε σ Unit) : List β → Prog ε σ Unit
  | [] => pure ()
  | b :: bs => f b >>= fun _ => forEach f bs

/-- Execution under a schedule; an exhausted schedule lets every further call through. -/
def run : Prog ε σ α → List Fault → σ → Outcome ε α × σ
  | .ret r, _, s => (.returned r, s)
  | .call f k, [], s => (k ((f s).1.mapError .raised)).run [] (f s).2
  | .call f k, .pass :: fs, s => (k ((f s).1.mapError .raised)).run fs (f s).2
  | .call _ k, .fail :: fs, s => (k (.error .fault)).run fs s
  | .call _ _, .crash :: _, s => (.crashed, s)

def exec : Prog ε σ α → σ → Except (Failure ε) α × σ
  | .ret r, s => (r, s)
  | .call f k, s => (k ((f s).1.mapError .raised)).exec (f s).2

/-- `t` is a state in which `p`, begun in `s`, may stop: by returning or by crashing. -/
def Stops (p : Prog ε σ α) (s t : σ) : Prop := ∃ fs, (p.run fs s).2 = t

theorem bind_assoc {γ : Type} (p : Prog ε σ α) (f : α → Prog ε σ β) (g : β → Prog ε σ γ) :
    (p >>= f) >>= g = p >>= fun a => f a >>= g := by
  induction p with
  | ret r => cases r <;> rfl
  | call h k ih => exact congrArg (Prog.call h) (funext ih)

theorem run_nil (p : Prog ε σ α) (s : σ) :
    p.run [] s = (.returned (p.exec s).1, (p.exec s).2) := by
  induction p generalizing s with
  | ret r => rfl
  | call f k ih => exact ih _ _

theorem stops_exec (p : Prog ε σ α) (s : σ) : p.Stops s (p.exec s).2 :=
  ⟨[], by rw [run_nil]⟩

/-- `cut` holds wherever the program may be cut, `err` where it returns an error and `ok`
where it returns a value. -/
def Sat (cut : σ → Prop) (err : Failure ε → σ → Prop) (ok : α → σ → Prop) :
    Prog ε σ α → σ → Prop
  | .ret (.ok a), s => ok a s
  | .ret (.error e), s => err e s
  | .call f k, s => cut s ∧ (k (.error .fault)).Sat cut err ok s ∧
      (k ((f s).1.mapError .raised)).Sat cut err ok (f s).2

def Outcome.Meets (cut : σ → Prop) (err : Failure ε → σ → Prop) (ok : α → σ → Prop) :
    Outcome ε α × σ → Prop
  | (.returned (.ok a), t) => ok a t
  | (.returned (.error e), t) => err e t
  | (.crashed, t) => cut t

variable {cut cut' : σ → Prop} {err err' : Failure ε → σ → Prop} {ok ok' : α → σ → Prop}
variable {p : Prog ε σ α} {s : σ}

theorem Sat.run (h : p.Sat cut err ok s) (fs : List Fault) :
    Outcome.Meets cut err ok (p.run fs s) := by
  induction p generalizing s fs with
  | ret r => cases r <;> exact h
  | call f k ih =>
    obtain ⟨hcut, hfault, hpass⟩ := h
    match fs with
    | [] => exact ih _ hpass []
    | .pass :: fs => exact ih _ hpass fs
    | .fail :: fs => exact ih _ hfault fs
    | .crash :: _ => exact hcut

theorem Sat.mono (h : p.Sat cut err ok s) (hcut : ∀ t, cut t → cut' t)
    (herr : ∀ e t, err e t → err' e t) (hok : ∀ a t, ok a t → ok' a t) :
    p.Sat cut' err' ok' s := by
  induction p generalizing s with
  | ret r =>
    cases r with
    | ok a => exact hok a s h
    | error e => exact herr e s h
  | call f k ih => exact ⟨hcut _ h.1, ih _ h.2.1, ih _ h.2.2⟩

theorem Sat.and (h : p.Sat cut err ok s) (h' : p.Sat cut' err' ok' s) :
    p.Sat (fun t => cut t ∧ cut' t) (fun e t => err e t ∧ err' e t)
      (fun a t => ok a t ∧ ok' a t) s := by
  induction p generalizing s with
  | ret r => cases r <;> exact ⟨h, h'⟩
  | call f k ih => exact ⟨⟨h.1, h'.1⟩, ih _ h.2.1 h'.2.1, ih _ h.2.2 h'.2.2⟩

variable {g : α → Prog ε σ β}

theorem sat_bind {ok : β → σ → Prop} :
    (p >>= g).Sat cut err ok s ↔ p.Sat cut err (fun a t => (g a).Sat cut err ok t) s := by
  induction p generalizing s with
  | ret r => cases r <;> rfl
  | call f k ih => exact and_congr_right fun _ => and_congr (ih _) (ih _)

theorem sat_attempt {ok : Except (Failure ε) α → σ → Prop} :
    p.attempt.Sat cut err ok s ↔ p.Sat cut (fun e t => ok (.error e) t) (fun a t => ok (.ok a) t) s := by
  induction p generalizing s with
  | ret r => cases r <;> rfl
  | call f k ih => exact and_congr_right fun _ => and_congr (ih _) (ih _)

/-- `p`, begun in `s`, may return `a` in `t`. -/
def Yields (p : Prog ε σ α) (s : σ) (a : α) (t : σ) : Prop :=
  ∃ fs, p.run fs s = (.returned (.ok a), t)

variable {a : α}

theorem yields_of_run {p : Prog ε σ α} {s : σ} {fs : List Fault}
    (h : (p.run fs s).1 = .returned (.ok a)) : p.Yields s a (p.run fs s).2 :=
  ⟨fs, Prod.ext h rfl⟩

theorem sat_reached (p : Prog ε σ α) (s : σ) :
    p.Sat (p.Stops s) (fun _ => p.Stops s) (p.Yields s) s := by
  induction p generalizing s with
  | ret r =>
    cases r with
    | ok a => exact ⟨[], rfl⟩
    | error e => exact ⟨[], rfl⟩
  | call f k ih =>
    refine ⟨⟨[.crash], rfl⟩, (ih (.error .fault) s).mono ?_ ?_ ?_, (ih _ (f s).2).mono ?_ ?_ ?_⟩
    · exact fun t ⟨fs, h⟩ => ⟨.fail :: fs, h⟩
    · exact fun _ t ⟨fs, h⟩ => ⟨.fail :: fs, h⟩
    · exact fun a t ⟨fs, h⟩ => ⟨.fail :: fs, h⟩
    · exact fun t ⟨fs, h⟩ => ⟨.pass :: fs, h⟩
    · exact fun _ t ⟨fs, h⟩ => ⟨.pass :: fs, h⟩
    · exact fun a t ⟨fs, h⟩ => ⟨.pass :: fs, h⟩

/-! ### Programs under an invariant

`Safe J Q p s`: wherever `p`, begun in `s`, is cut or returns an error, `J` holds; where it
returns a value, `Q` holds. -/

/-- The common case of `Sat`, in which errors and crashes owe the same invariant. -/
def Safe (J : σ → Prop) (Q : α → σ → Prop) (p : Prog ε σ α) (s : σ) : Prop :=
  p.Sat J (fun _ => J) Q s

variable {J J' : σ → Prop} {Q Q' : α → σ → Prop}

theorem Safe.mono (h : p.Safe J Q s) (hJ : ∀ t, J t → J' t) (hQ : ∀ a t, Q a t → Q' a t) :
    p.Safe J' Q' s :=
  Sat.mono h hJ (fun _ => hJ) hQ

theorem Safe.imp (h : p.Safe J Q s) (hQ : ∀ a t, Q a t → Q' a t) : p.Safe J Q' s :=
  h.mono (fun _ => id) hQ

theorem Safe.and (h : p.Safe J Q s) (h' : p.Safe J' Q' s) :
    p.Safe (fun t => J t ∧ J' t) (fun a t => Q a t ∧ Q' a t) s :=
  Sat.and h h'

theorem safe_bind {Q : β → σ → Prop} : (p >>= g).Safe J Q s ↔ p.Safe J (fun a t => (g a).Safe J Q t) s :=
  sat_bind

theorem Safe.bind {Q : β → σ → Prop} {R : α → σ → Prop}
    (h : p.Safe J R s) (hg : ∀ a t, R a t → (g a).Safe J Q t) : (p >>= g).Safe J Q s :=
  safe_bind.mpr (h.imp hg)

theorem safe_pure (h : Q a s) : (pure a : Prog ε σ α).Safe J Q s := h

variable {e : ε}

theorem safe_raise (h : J s) : (raise e : Prog ε σ α).Safe J Q s := h

theorem safe_rethrow {e : Failure ε} (h : J s) : (rethrow e : Prog ε σ α).Safe J Q s := h

theorem safe_perform {f : σ → Except ε α × σ} (h : J s)
    (hok : ∀ a t, f s = (.ok a, t) → Q a t) (herr : ∀ e t, f s = (.error e, t) → J t) :
    (perform f).Safe J Q s := by
  refine ⟨h, h, ?_⟩
  cases hf : f s with
  | mk r t =>
    cases r with
    | ok a => exact hok a t hf
    | error e => exact herr e t hf

theorem safe_look {g : σ → α} (h : J s) (hQ : Q (g s) s) : (look g : Prog ε σ α).Safe J Q s :=
  ⟨h, h, hQ⟩

theorem safe_check {g : σ → Except ε α} (h : J s) (hQ : ∀ a, g s = .ok a → Q a s) : (check g).Safe J Q s := by
  refine safe_perform h (fun a t hf => ?_) (fun e t hf => ?_)
  · obtain ⟨hg, rfl⟩ := Prod.mk.inj hf
    exact hQ a hg
  · exact (Prod.mk.inj hf).2 ▸ h

theorem safe_alter {f : σ → σ} {Q : Unit → σ → Prop} (h : J s) (hQ : Q () (f s)) :
    (alter f : Prog ε σ Unit).Safe J Q s :=
  ⟨h, h, hQ⟩

variable {f : σ → Except ε (α × σ)}

theorem safe_update (h : J s) (hQ : ∀ a t, f s = .ok (a, t) → Q a t) : (update f).Safe J Q s := by
  refine safe_perform h (fun a t hf => ?_) (fun e t hf => ?_)
  · cases hr : f s with
    | error e => simp [hr] at hf
    | ok r =>
      obtain ⟨b, u⟩ := r
      simp only [hr, Prod.mk.injEq, Except.ok.injEq] at hf
      obtain ⟨rfl, rfl⟩ := hf
      exact hQ b u hr
  · cases hr : f s with
    | error e => simp only [hr, Prod.mk.injEq] at hf; exact hf.2 ▸ h
    | ok r => simp [hr] at hf

theorem safe_barrier {Q : Unit → σ → Prop} (h : J s) (hQ : Q () s) : (barrier : Prog ε σ Unit).Safe J Q s :=
  ⟨h, h, hQ⟩

theorem safe_onlyIf {c : Bool} {p : Prog ε σ Unit} {Q : Unit → σ → Prop}
    (h : c = true → p.Safe J Q s) (h' : c = false → Q () s) : (onlyIf c p).Safe J Q s := by
  cases c with
  | true => exact h rfl
  | false => exact h' rfl

variable {I : σ → Prop}

theorem safe_forEach {f : β → Prog ε σ Unit} {bs : List β}
    (step : ∀ b ∈ bs, ∀ t, I t → (f b).Safe J (fun _ => I) t) (h : I s) :
    (forEach f bs).Safe J (fun _ => I) s := by
  induction bs generalizing s with
  | nil => exact safe_pure h
  | cons b bs ih =>
    refine Safe.bind (step b List.mem_cons_self s h) fun _ t ht => ?_
    exact ih (fun c hc => step c (List.mem_cons_of_mem b hc)) ht

theorem Safe.yields (h : p.Safe J Q s) : p.Safe J (fun a t => Q a t ∧ p.Yields s a t) s :=
  (Sat.and h (sat_reached p s)).mono (fun _ => And.left) (fun _ _ => And.left) fun _ _ => id

variable {t : σ}

theorem Safe.of_yields (h : p.Safe J Q s) (ht : p.Yields s a t) : Q a t := by
  obtain ⟨fs, hrun⟩ := ht
  have hmeets := Sat.run h fs
  rw [hrun] at hmeets
  exact hmeets

theorem Safe.stops (h : p.Safe J Q s) (hQ : ∀ a t, Q a t → J t) (ht : p.Stops s t) :
    J t := by
  obtain ⟨fs, rfl⟩ := ht
  have hrun := Sat.run h fs
  revert hrun
  generalize p.run fs s = r
  match r with
  | (.returned (.ok a), t) => exact hQ a t
  | (.returned (.error _), t) => exact id
  | (.crashed, t) => exact id

theorem Safe.exec_ok (h : p.Safe J Q s) (ht : p.exec s = (.ok a, t)) : Q a t := by
  have hrun := Sat.run h []
  rw [run_nil, ht] at hrun
  exact hrun

theorem safe_attempt {Q : Except (Failure ε) α → σ → Prop}
    (h : p.Sat J (fun e t => Q (.error e) t) (fun a t => Q (.ok a) t) s) :
    p.attempt.Safe J Q s :=
  sat_attempt.mpr h

theorem Safe.attempt (h : p.Safe J Q s) :
    p.attempt.Safe J (fun r t => match r with
      | .ok a => Q a t
      | .error _ => J t) s :=
  sat_attempt.mpr h

section
variable {k : α → Prog ε σ β} {k' : Unit → Prog ε σ β} {Q : β → σ → Prop}

theorem safe_look_bind {g : σ → α} (h : J s) (hk : (k (g s)).Safe J Q s) : (look g >>= k).Safe J Q s :=
  safe_bind.mpr (safe_look h hk)

theorem safe_check_bind {g : σ → Except ε α} (h : J s)
    (hk : ∀ a, g s = .ok a → (k a).Safe J Q s) : (check g >>= k).Safe J Q s :=
  safe_bind.mpr (safe_check h hk)

theorem safe_barrier_bind (h : J s) (hk : (k' ()).Safe J Q s) : (barrier >>= k').Safe J Q s :=
  safe_bind.mpr (safe_barrier h hk)

theorem safe_alter_bind {f : σ → σ} (h : J s) (hk : (k' ()).Safe J Q (f s)) : (alter f >>= k').Safe J Q s :=
  safe_bind.mpr (safe_alter h hk)

theorem safe_update_bind {f : σ → Except ε (α × σ)} (h : J s)
    (hk : ∀ a t, f s = .ok (a, t) → (k a).Safe J Q t) : (update f >>= k).Safe J Q s :=
  safe_bind.mpr (safe_update h hk)

theorem safe_attempt_look_bind {g : σ → α} {k : Except (Failure ε) α → Prog ε σ β} (h : J s)
    (hfault : (k (.error .fault)).Safe J Q s) (hk : (k (.ok (g s))).Safe J Q s) :
    (attempt (look g) >>= k).Safe J Q s :=
  safe_bind.mpr (safe_attempt ⟨h, hfault, hk⟩)

end

theorem safe_trivial (p : Prog ε σ α) (s : σ) :
    p.Safe (fun _ => True) (fun _ _ => True) s := by
  induction p generalizing s with
  | ret r => cases r <;> exact trivial
  | call f k ih => exact ⟨trivial, ih _ _, ih _ _⟩

def Returns (P : α → Prop) (p : Prog ε σ α) : Prop :=
  ∀ s, p.Safe (fun _ => True) (fun a _ => P a) s

variable {P : α → Prop}

theorem returns_pure (h : P a) : (pure a : Prog ε σ α).Returns P :=
  fun _ => h

theorem returns_raise (e : ε) : (raise e : Prog ε σ α).Returns P := fun _ => trivial

theorem returns_rethrow (e : Failure ε) : (rethrow e : Prog ε σ α).Returns P :=
  fun _ => trivial

theorem returns_bind {P : β → Prop} (h : ∀ a, (g a).Returns P) : (p >>= g).Returns P :=
  fun s => Safe.bind (safe_trivial p s) fun a t _ => h a t

/-! ### Programs that return

`Finishes Q p s`: if nothing is refused, `p` returns a value, and `Q` holds of it. -/

def Finishes (Q : α → σ → Prop) (p : Prog ε σ α) (s : σ) : Prop :=
  ∃ a t, p.exec s = (.ok a, t) ∧ Q a t

theorem exec_bind (p : Prog ε σ α) (g : α → Prog ε σ β) (s : σ) : (p >>= g).exec s = match p.exec s with
      | (.ok a, t) => (g a).exec t
      | (.error e, t) => (.error e, t) := by
  induction p generalizing s with
  | ret r => cases r <;> rfl
  | call f k ih => exact ih _ _

theorem Finishes.bind {Q : β → σ → Prop} {R : α → σ → Prop}
    (h : p.Finishes R s) (hg : ∀ a t, R a t → (g a).Finishes Q t) : (p >>= g).Finishes Q s := by
  obtain ⟨a, t, hp, hR⟩ := h
  obtain ⟨b, u, hb, hQ⟩ := hg a t hR
  exact ⟨b, u, by rw [exec_bind, hp]; exact hb, hQ⟩

theorem Finishes.imp (h : p.Finishes Q s) (hQ : ∀ a t, Q a t → Q' a t) : p.Finishes Q' s := by
  obtain ⟨a, t, hp, h⟩ := h
  exact ⟨a, t, hp, hQ a t h⟩

theorem Finishes.and_safe (h : p.Finishes Q s) (h' : p.Safe J Q' s) :
    p.Finishes (fun a t => Q a t ∧ Q' a t) s := by
  obtain ⟨a, t, hp, hQ⟩ := h
  exact ⟨a, t, hp, hQ, h'.exec_ok hp⟩

theorem finishes_pure (h : Q a s) : (pure a : Prog ε σ α).Finishes Q s := ⟨a, s, rfl, h⟩

theorem finishes_look {g : σ → α} (h : Q (g s) s) : (look g : Prog ε σ α).Finishes Q s :=
  ⟨g s, s, rfl, h⟩

theorem finishes_barrier {Q : Unit → σ → Prop} (h : Q () s) : (barrier : Prog ε σ Unit).Finishes Q s :=
  ⟨(), s, rfl, h⟩

theorem finishes_alter {f : σ → σ} {Q : Unit → σ → Prop} (h : Q () (f s)) :
    (alter f : Prog ε σ Unit).Finishes Q s :=
  ⟨(), f s, rfl, h⟩

theorem finishes_check {g : σ → Except ε α} (hg : g s = .ok a) (h : Q a s) : (check g).Finishes Q s := by
  refine ⟨a, s, ?_, h⟩
  show ((g s).mapError Failure.raised, s) = _
  rw [hg]
  rfl

theorem finishes_update (hf : f s = .ok (a, t)) (h : Q a t) : (update f).Finishes Q s := by
  refine ⟨a, t, ?_, h⟩
  simp only [update, perform, exec, hf]
  rfl

section
variable {k : α → Prog ε σ β} {k' : Unit → Prog ε σ β} {Q : β → σ → Prop}

theorem finishes_look_bind {g : σ → α} (h : (k (g s)).Finishes Q s) : (look g >>= k).Finishes Q s := h

theorem finishes_barrier_bind (h : (k' ()).Finishes Q s) : (barrier >>= k').Finishes Q s := h

theorem finishes_alter_bind {f : σ → σ} (h : (k' ()).Finishes Q (f s)) : (alter f >>= k').Finishes Q s := h

theorem finishes_check_bind {g : σ → Except ε α} {a : α} (hg : g s = .ok a)
    (h : (k a).Finishes Q s) : (check g >>= k).Finishes Q s :=
  Finishes.bind (R := fun b t => b = a ∧ t = s) (finishes_check hg ⟨rfl, rfl⟩)
    fun _ _ hR => hR.1 ▸ hR.2 ▸ h

theorem finishes_update_bind {f : σ → Except ε (α × σ)} {a : α} {t : σ} (hf : f s = .ok (a, t))
    (h : (k a).Finishes Q t) : (update f >>= k).Finishes Q s :=
  Finishes.bind (R := fun b u => b = a ∧ u = t) (finishes_update hf ⟨rfl, rfl⟩)
    fun _ _ hR => hR.1 ▸ hR.2 ▸ h

theorem finishes_pure_bind {a : α} (h : (k a).Finishes Q s) : ((pure a : Prog ε σ α) >>= k).Finishes Q s := h

end

theorem finishes_onlyIf {c : Bool} {p : Prog ε σ Unit} {Q : Unit → σ → Prop}
    (h : c = true → p.Finishes Q s) (h' : c = false → Q () s) : (onlyIf c p).Finishes Q s := by
  cases c with
  | true => exact h rfl
  | false => exact finishes_pure (h' rfl)

theorem exec_attempt (p : Prog ε σ α) (s : σ) :
    p.attempt.exec s = (.ok (p.exec s).1, (p.exec s).2) := by
  induction p generalizing s with
  | ret r => rfl
  | call f k ih => exact ih _ _

theorem Finishes.attempt {R : Except (Failure ε) α → σ → Prop}
    (h : p.Finishes (fun a t => R (.ok a) t) s) : p.attempt.Finishes R s := by
  obtain ⟨a, t, hp, hR⟩ := h
  exact ⟨.ok a, t, by rw [exec_attempt, hp], hR⟩

theorem finishes_forEach {f : β → Prog ε σ Unit} {bs : List β}
    (step : ∀ b ∈ bs, ∀ t, I t → (f b).Finishes (fun _ => I) t) (h : I s) :
    (forEach f bs).Finishes (fun _ => I) s := by
  induction bs generalizing s with
  | nil => exact finishes_pure h
  | cons b bs ih =>
    refine Finishes.bind (step b List.mem_cons_self s h) fun _ t ht => ?_
    exact ih (fun c hc => step c (List.mem_cons_of_mem b hc)) ht

/-- If nothing is refused, `p` returns the error `e` of its own, and `Q` holds there. -/
def Raises (e : ε) (Q : σ → Prop) (p : Prog ε σ α) (s : σ) : Prop :=
  ∃ t, p.exec s = (.error (.raised e), t) ∧ Q t

theorem raises_raise {Q : σ → Prop} (h : Q s) : (raise e : Prog ε σ α).Raises e Q s :=
  ⟨s, rfl, h⟩

theorem Raises.bind {Q : σ → Prop} (h : p.Raises e Q s) : (p >>= g).Raises e Q s := by
  obtain ⟨t, hp, hQ⟩ := h
  exact ⟨t, by rw [exec_bind, hp], hQ⟩

theorem Finishes.bind_raises {Q : σ → Prop} {R : α → σ → Prop}
    (h : p.Finishes R s) (hg : ∀ a t, R a t → (g a).Raises e Q t) : (p >>= g).Raises e Q s := by
  obtain ⟨a, t, hp, hR⟩ := h
  obtain ⟨u, hu, hQ⟩ := hg a t hR
  exact ⟨u, by rw [exec_bind, hp]; exact hu, hQ⟩

theorem raises_look_bind {Q : σ → Prop} {g : σ → α} {k : α → Prog ε σ β}
    (h : (k (g s)).Raises e Q s) : (look g >>= k).Raises e Q s := h

theorem raises_barrier_bind {Q : σ → Prop} {k : Unit → Prog ε σ β}
    (h : (k ()).Raises e Q s) : (barrier >>= k).Raises e Q s := h

theorem raises_alter_bind {Q : σ → Prop} {f : σ → σ} {k : Unit → Prog ε σ β}
    (h : (k ()).Raises e Q (f s)) : (alter f >>= k).Raises e Q s := h

/-! ### Programs within a relation

`Within R p`: from every state, wherever `p` stops, the two states are related. For a
reflexive and transitive `R` this follows from what the calls of `p` do, one by one. -/

/-- The states in which `p` may stop are related to the state it began in. -/
def Within (R : σ → σ → Prop) (p : Prog ε σ α) : Prop := ∀ s, p.Safe (R s) (fun _ => R s) s

variable {R : σ → σ → Prop}

theorem Within.safe {J : σ → Prop} (h : p.Within R) (hJ : ∀ t, R s t → J t) : p.Safe J (fun _ => J) s :=
  (h s).mono hJ fun _ => hJ

theorem Within.stops (h : p.Within R) (ht : p.Stops s t) : R s t :=
  (h s).stops (fun _ _ => id) ht

theorem Within.attempt (h : p.Within R) : p.attempt.Within R :=
  fun s => safe_attempt (h s)

theorem Within.mono {R R' : σ → σ → Prop} (h : p.Within R) (hR : ∀ s t, R s t → R' s t) :
    p.Within R' :=
  fun s => (h s).mono (hR s) fun _ => hR s

theorem Within.along (h : p.Within R) (hQ : p.Safe (fun _ => True) Q s) :
    p.Safe (R s) (fun a t => R s t ∧ Q a t) s :=
  ((h s).and hQ).mono (fun _ => And.left) fun _ _ => id

theorem Safe.weaken (h : p.Safe J Q s) (hQ : ∀ a t, Q a t → Q' a t) :
    p.Safe (fun _ => True) Q' s :=
  h.mono (fun _ _ => trivial) hQ

structure Frame (R : σ → σ → Prop) : Prop where
  refl : ∀ s, R s s
  trans : ∀ {s t u}, R s t → R t u → R s u

namespace Frame

theorem steps (S : σ → σ → Prop) : Frame (Relation.ReflTransGen S) :=
  ⟨fun _ => .refl, fun h h' => h.trans h'⟩

variable {R : σ → σ → Prop} (F : Frame R)

include F

theorem of_steps {S : σ → σ → Prop} (h : ∀ s t, S s t → R s t) {s t : σ}
    (hst : Relation.ReflTransGen S s t) : R s t := by
  induction hst with
  | refl => exact F.refl s
  | tail _ hlast ih => exact F.trans ih (h _ _ hlast)

theorem pure (a : α) : (pure a : Prog ε σ α).Within R := fun s => F.refl s

theorem raise (e : ε) : (raise e : Prog ε σ α).Within R := fun s => F.refl s

theorem rethrow (e : Failure ε) : (rethrow e : Prog ε σ α).Within R := fun s => F.refl s

theorem look (g : σ → α) : (look g : Prog ε σ α).Within R :=
  fun s => safe_look (F.refl s) (F.refl s)

theorem check (g : σ → Except ε α) : (check g).Within R :=
  fun s => safe_check (F.refl s) fun _ _ => F.refl s

theorem barrier : (barrier : Prog ε σ Unit).Within R :=
  fun s => safe_barrier (F.refl s) (F.refl s)

theorem perform {f : σ → Except ε α × σ} (h : ∀ s, R s (f s).2) : (perform f).Within R := by
  intro s
  refine safe_perform (F.refl s) (fun a t hf => ?_) (fun e t hf => ?_)
  all_goals
    have := h s
    rw [hf] at this
    exact this

theorem alter {f : σ → σ} (h : ∀ s, R s (f s)) : (alter f : Prog ε σ Unit).Within R :=
  fun s => safe_alter (F.refl s) (h s)

theorem update {f : σ → Except ε (α × σ)} (h : ∀ s a t, f s = .ok (a, t) → R s t) : (update f).Within R :=
  fun s => safe_update (F.refl s) (h s)

theorem bind {p : Prog ε σ α} {g : α → Prog ε σ β} (hp : p.Within R)
    (hg : ∀ a, (g a).Within R) : (p >>= g).Within R :=
  fun s => Safe.bind (hp s) fun a t hst =>
    (hg a t).mono (fun _ => F.trans hst) fun _ _ => F.trans hst

theorem bind_of {p : Prog ε σ α} {g : α → Prog ε σ β} {T : α → Prop} (hp : p.Within R)
    (hT : ∀ s, p.Safe (fun _ => True) (fun a _ => T a) s) (hg : ∀ a, T a → (g a).Within R) :
    (p >>= g).Within R :=
  fun s => Safe.bind (hp.along (hT s)) fun a t hst =>
    (hg a hst.2 t).mono (fun _ => F.trans hst.1) fun _ _ => F.trans hst.1

theorem onlyIf {c : Bool} {p : Prog ε σ Unit} (h : p.Within R) : (onlyIf c p).Within R := by
  cases c with
  | true => exact h
  | false => exact F.pure ()

theorem forEach {f : β → Prog ε σ Unit} {bs : List β} (h : ∀ b ∈ bs, (f b).Within R) : (forEach f bs).Within R := by
  induction bs with
  | nil => exact F.pure ()
  | cons b bs ih =>
    exact F.bind (h b List.mem_cons_self) fun _ => ih fun c hc => h c (List.mem_cons_of_mem b hc)

theorem readOnly {p : Prog ε σ α} (h : p.Within fun s t => t = s) : p.Within R :=
  h.mono fun s _ hst => hst ▸ F.refl s

end Frame

theorem readFrame : Frame fun s t : σ => t = s := ⟨fun _ => rfl, fun h h' => h'.trans h⟩

theorem invariantFrame (I : σ → Prop) : Frame fun s t : σ => I s → I t :=
  ⟨fun _ => id, fun h h' hs => h' (h hs)⟩

theorem within_invariant {p : Prog ε σ α}
    (h : ∀ s, I s → p.Safe I (fun _ => I) s) : p.Within fun s t => I s → I t := by
  intro s
  by_cases hs : I s
  · exact (h s hs).mono (fun _ ht _ => ht) fun _ _ ht _ => ht
  · exact (safe_trivial p s).mono (fun _ _ hI => absurd hI hs) fun _ _ _ hI => absurd hI hs

end Prog

end Interruption
