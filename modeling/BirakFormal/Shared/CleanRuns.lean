import BirakFormal.Shared.Interruption

/-!
# Runs in which no call is refused

A program may still crash between two calls. `Clean` is the logic of such runs: a condition
before each call, one for every error of the program's own and one for its value. A program
over a part of a larger state runs there through `zoom`.
-/

namespace Interruption

namespace Prog

variable {ε σ τ α β : Type}

/-- `cut` holds before every call of the run, `err` or `ok` at its end. -/
def Clean (cut : σ → Prop) (err : Failure ε → σ → Prop) (ok : α → σ → Prop) :
    Prog ε σ α → σ → Prop
  | .ret (.ok a), s => ok a s
  | .ret (.error e), s => err e s
  | .call f k, s => cut s ∧ (k ((f s).1.mapError .raised)).Clean cut err ok (f s).2

variable {g : α → Prog ε σ β}

section
variable {cut cut' : σ → Prop} {err err' : Failure ε → σ → Prop} {ok ok' : α → σ → Prop}
variable {p : Prog ε σ α} {s : σ}

theorem Clean.run (h : p.Clean cut err ok s) {fs : List Fault} (hfs : .fail ∉ fs) :
    Outcome.Meets cut err ok (p.run fs s) := by
  induction p generalizing s fs with
  | ret r => cases r <;> exact h
  | call f k ih =>
    obtain ⟨hcut, hpass⟩ := h
    match fs with
    | [] => exact ih _ hpass hfs
    | .pass :: fs => exact ih _ hpass fun hmem => hfs (List.mem_cons_of_mem _ hmem)
    | .fail :: _ => exact absurd List.mem_cons_self hfs
    | .crash :: _ => exact hcut

theorem Clean.mono (h : p.Clean cut err ok s) (hcut : ∀ t, cut t → cut' t)
    (herr : ∀ e t, err e t → err' e t) (hok : ∀ a t, ok a t → ok' a t) :
    p.Clean cut' err' ok' s := by
  induction p generalizing s with
  | ret r =>
    cases r with
    | ok a => exact hok a s h
    | error e => exact herr e s h
  | call f k ih => exact ⟨hcut _ h.1, ih _ h.2⟩

theorem Sat.clean (h : p.Sat cut err ok s) : p.Clean cut err ok s := by
  induction p generalizing s with
  | ret r => cases r <;> exact h
  | call f k ih => exact ⟨h.1, ih _ h.2.2⟩

theorem clean_bind {ok : β → σ → Prop} :
    (p >>= g).Clean cut err ok s ↔ p.Clean cut err (fun a t => (g a).Clean cut err ok t) s := by
  induction p generalizing s with
  | ret r => cases r <;> rfl
  | call f k ih => exact and_congr_right fun _ => ih _

theorem clean_attempt {ok : Except (Failure ε) α → σ → Prop} :
    p.attempt.Clean cut err ok s ↔ p.Clean cut (fun e t => ok (.error e) t) (fun a t => ok (.ok a) t) s := by
  induction p generalizing s with
  | ret r => cases r <;> rfl
  | call f k ih => exact and_congr_right fun _ => ih _

theorem Clean.bind {R : α → σ → Prop} {ok : β → σ → Prop}
    (h : p.Clean cut err R s) (hg : ∀ a t, R a t → (g a).Clean cut err ok t) :
    (p >>= g).Clean cut err ok s :=
  clean_bind.mpr (h.mono (fun _ => id) (fun _ _ => id) hg)

theorem clean_look_bind {g : σ → α} {k : α → Prog ε σ β} {ok : β → σ → Prop} (hs : cut s)
    (h : (k (g s)).Clean cut err ok s) : (look g >>= k).Clean cut err ok s :=
  ⟨hs, h⟩

theorem clean_alter {f : σ → σ} {ok : Unit → σ → Prop} (hs : cut s) (h : ok () (f s)) :
    (alter f : Prog ε σ Unit).Clean cut err ok s :=
  ⟨hs, h⟩

theorem clean_alter_bind {f : σ → σ} {k : Unit → Prog ε σ β} {ok : β → σ → Prop} (hs : cut s)
    (h : (k ()).Clean cut err ok (f s)) : (alter f >>= k).Clean cut err ok s :=
  ⟨hs, h⟩

theorem clean_check {g : σ → Except ε α} (hs : cut s) (herr : ∀ e, g s = .error e → err (.raised e) s)
    (hok : ∀ a, g s = .ok a → ok a s) : (check g).Clean cut err ok s := by
  refine ⟨hs, ?_⟩
  dsimp only
  cases hg : g s with
  | error e => exact herr e hg
  | ok a => exact hok a hg

theorem clean_update {f : σ → Except ε (α × σ)} (hs : cut s)
    (herr : ∀ e, f s = .error e → err (.raised e) s) (hok : ∀ a t, f s = .ok (a, t) → ok a t) :
    (update f).Clean cut err ok s := by
  refine ⟨hs, ?_⟩
  dsimp only
  cases hf : f s with
  | error e => exact herr e hf
  | ok r => exact hok r.1 r.2 hf

theorem Clean.exec (h : p.Clean cut err ok s) :
    match p.exec s with
    | (.ok a, t) => ok a t
    | (.error e, t) => err e t := by
  have hrun : Outcome.Meets cut err ok (p.run [] s) := h.run List.not_mem_nil
  rw [run_nil] at hrun
  revert hrun
  generalize p.exec s = r
  match r with
  | (.ok a, t) => exact id
  | (.error e, t) => exact id

end

/-- `I` holds at the end of every such run that begins in it. -/
def Maintains (I : σ → Prop) (p : Prog ε σ α) : Prop :=
  ∀ s, I s → p.Clean (fun _ => True) (fun _ => I) (fun _ => I) s

section
variable {I : σ → Prop} {p : Prog ε σ α}

theorem Maintains.bind (h : p.Maintains I) (hg : ∀ a, (g a).Maintains I) : (p >>= g).Maintains I :=
  fun s hs => (h s hs).bind fun a t ht => hg a t ht

theorem Maintains.attempt (h : p.Maintains I) : p.attempt.Maintains I :=
  fun s hs => clean_attempt.mpr (h s hs)

theorem maintains_pure (a : α) : (pure a : Prog ε σ α).Maintains I := fun _ hs => hs

theorem maintains_raise (e : ε) : (raise e : Prog ε σ α).Maintains I := fun _ hs => hs

theorem maintains_rethrow (e : Failure ε) : (rethrow e : Prog ε σ α).Maintains I := fun _ hs => hs

theorem maintains_look (g : σ → α) : (look g : Prog ε σ α).Maintains I := fun _ hs => ⟨trivial, hs⟩

theorem maintains_check (g : σ → Except ε α) : (check g).Maintains I :=
  fun _ hs => clean_check trivial (fun _ _ => hs) fun _ _ => hs

theorem maintains_update {f : σ → Except ε (α × σ)} (h : ∀ s a t, I s → f s = .ok (a, t) → I t) :
    (update f).Maintains I :=
  fun s hs => clean_update trivial (fun _ _ => hs) fun a t ht => h s a t hs ht

theorem maintains_onlyIf {c : Bool} {p : Prog ε σ Unit} (h : p.Maintains I) : (onlyIf c p).Maintains I := by
  cases c with
  | true => exact h
  | false => exact maintains_pure ()

theorem maintains_forEach {f : β → Prog ε σ Unit} {bs : List β} (h : ∀ b ∈ bs, (f b).Maintains I) :
    (forEach f bs).Maintains I := by
  induction bs with
  | nil => exact maintains_pure ()
  | cons b bs ih =>
    exact (h b List.mem_cons_self).bind fun _ => ih fun c hc => h c (List.mem_cons_of_mem b hc)

end

def left : Prog ε σ α → List Fault → σ → List Fault
  | .ret _, fs, _ => fs
  | .call f k, [], s => (k ((f s).1.mapError .raised)).left [] (f s).2
  | .call f k, .pass :: fs, s => (k ((f s).1.mapError .raised)).left fs (f s).2
  | .call _ k, .fail :: fs, s => (k (.error .fault)).left fs s
  | .call _ _, .crash :: _, _ => []

theorem run_bind (p : Prog ε σ α) (g : α → Prog ε σ β) (fs : List Fault) (s : σ) :
    (p >>= g).run fs s = match p.run fs s with
      | (.returned (.ok a), t) => (g a).run (p.left fs s) t
      | (.returned (.error e), t) => (.returned (.error e), t)
      | (.crashed, t) => (.crashed, t) := by
  induction p generalizing s fs with
  | ret r => cases r <;> rfl
  | call f k ih =>
    match fs with
    | [] => exact ih _ _ _
    | .pass :: fs => exact ih _ _ _
    | .fail :: fs => exact ih _ _ _
    | .crash :: _ => rfl

theorem run_pass (p : Prog ε σ α) {fs : List Fault} (hfs : ∀ f ∈ fs, f = .pass) (s : σ) :
    p.run fs s = (.returned (p.exec s).1, (p.exec s).2) := by
  induction p generalizing s fs with
  | ret r => rfl
  | call f k ih =>
    match fs with
    | [] => exact ih _ (fun g hg => absurd hg List.not_mem_nil) _
    | f' :: fs =>
      obtain rfl := hfs f' List.mem_cons_self
      exact ih _ (fun g hg => hfs g (List.mem_cons_of_mem _ hg)) _

/-- A part `σ` of the state `τ` that can be read and replaced. -/
structure Part (τ σ : Type) where
  get : τ → σ
  set : τ → σ → τ
  get_set : ∀ w s, get (set w s) = s
  set_set : ∀ w s s', set (set w s) s' = set w s'
  set_get : ∀ w, set w (get w) = w

def zoom (L : Part τ σ) : Prog ε σ α → Prog ε τ α
  | .ret r => .ret r
  | .call f k => .call (fun w => ((f (L.get w)).1, L.set w (f (L.get w)).2)) fun r => (k r).zoom L

variable {p : Prog ε σ α}

theorem Clean.zoom (L : Part τ σ) {cut : σ → Prop} {err : Failure ε → σ → Prop}
    {ok : α → σ → Prop} {w : τ} (h : p.Clean cut err ok (L.get w)) :
    (p.zoom L).Clean (fun u => ∃ s, u = L.set w s ∧ cut s) (fun e u => ∃ s, u = L.set w s ∧ err e s)
      (fun a u => ∃ s, u = L.set w s ∧ ok a s) w := by
  induction p generalizing w with
  | ret r => cases r <;> exact ⟨L.get w, (L.set_get w).symm, h⟩
  | call f k ih =>
    refine ⟨⟨L.get w, (L.set_get w).symm, h.1⟩, ?_⟩
    have hstep := ih ((f (L.get w)).1.mapError .raised) (w := L.set w (f (L.get w)).2)
      (by rw [L.get_set]; exact h.2)
    simp only [L.set_set] at hstep
    exact hstep

theorem Safe.zoom (L : Part τ σ) {J : σ → Prop} {Q : α → σ → Prop} {w : τ} (h : p.Safe J Q (L.get w)) :
    (p.zoom L).Safe (fun u => ∃ s, u = L.set w s ∧ J s) (fun a u => ∃ s, u = L.set w s ∧ Q a s) w := by
  induction p generalizing w with
  | ret r => cases r <;> exact ⟨L.get w, (L.set_get w).symm, h⟩
  | call f k ih =>
    refine ⟨⟨L.get w, (L.set_get w).symm, h.1⟩, ih _ h.2.1, ?_⟩
    have hpart : L.get (L.set w (f (L.get w)).2) = (f (L.get w)).2 := L.get_set _ _
    have hstep := ih ((f (L.get w)).1.mapError .raised) (hpart.symm ▸ h.2.2)
    simp only [L.set_set] at hstep
    exact hstep

theorem Within.zoom (L : Part τ σ) {R : σ → σ → Prop} (h : p.Within R) :
    (p.zoom L).Within fun w w' => R (L.get w) (L.get w') := by
  intro w
  refine ((h (L.get w)).zoom L).mono ?_ ?_
  · rintro u ⟨s, rfl, hs⟩
    rwa [L.get_set]
  · rintro a u ⟨s, rfl, hs⟩
    rwa [L.get_set]

end Prog

end Interruption
