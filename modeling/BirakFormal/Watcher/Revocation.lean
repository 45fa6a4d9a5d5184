import BirakFormal.Watcher.ReadFence

/-!
# No reader outlives a quarantine

A reader registers before it checks the fence, and a quarantine raises the fence before it
collects the readers to revoke. A reader that the collection misses therefore asks after the
fence was raised. It reads a generation that no older snapshot answers for, so the snapshot
it is compared with was built while the name was quarantined, and it is refused.
-/

namespace BirakFormal

open Relation

def OpenPhase.Listed : OpenPhase → Prop
  | .opened | .leaving _ | .failed _ | .closing | .closed => False
  | _ => True

/-- What holds in every run: a call between registration and `Close` is in the registry, and
no snapshot is ahead of the store. -/
structure Registered (s : Reading) : Prop where
  listed : ∀ i c, s.calls i = some c → c.phase.Listed → i ∈ s.readers
  snapshot : ∀ q, s.snapshot = some q → q.gen ≤ s.integrityGen
  stating : ∀ i c q names, s.calls i = some c → c.phase = .stating q names → q.gen ≤ s.integrityGen
  closed : ∀ i c, s.calls i = some c → c.phase = .closed → c.reader.err ≠ none

theorem Reading.calls_put {s : Reading} {i j : Nat} {c d : OpenCall}
    (h : (s.put i c).calls j = some d) : j = i ∧ d = c ∨ j ≠ i ∧ s.calls j = some d := by
  simp only [Reading.put, Function.update_apply] at h
  split at h
  · exact Or.inl ⟨‹j = i›, (Option.some.inj h).symm⟩
  · exact Or.inr ⟨‹¬ j = i›, h⟩

theorem loaded_cases (s : Reading) (gen : Nat) (otherwise : OpenPhase) :
    loaded s gen otherwise = otherwise ∨
      ∃ q, s.snapshot = some q ∧ gen ≤ q.gen ∧ loaded s gen otherwise = .matching q := by
  unfold loaded
  cases hq : s.snapshot.filter (QuarantineSnapshot.current gen s.now) with
  | none => exact Or.inl rfl
  | some q =>
    obtain ⟨hsome, hcurrent⟩ := Option.filter_eq_some_iff.mp hq
    simp only [QuarantineSnapshot.current, Bool.and_eq_true, decide_eq_true_eq] at hcurrent
    exact Or.inr ⟨q, hsome, hcurrent.1, rfl⟩

theorem loaded_ne (s : Reading) (gen : Nat) {p otherwise : OpenPhase} (hother : otherwise ≠ p)
    (hmatching : ∀ q, OpenPhase.matching q ≠ p) : loaded s gen otherwise ≠ p := by
  rcases loaded_cases s gen otherwise with heq | ⟨q, -, -, heq⟩
  · rw [heq]
    exact hother
  · rw [heq]
    exact hmatching q

namespace Registered

variable {s : Reading} {i : Nat} {c d : OpenCall}

theorem put (h : Registered s) (hlisted : d.phase.Listed → i ∈ s.readers)
    (hstating : ∀ q names, d.phase = .stating q names → q.gen ≤ s.integrityGen)
    (hclosed : d.phase = .closed → d.reader.err ≠ none) : Registered (s.put i d) where
  listed j e hj he := by
    rcases Reading.calls_put hj with ⟨rfl, rfl⟩ | ⟨-, hj⟩
    · exact hlisted he
    · exact h.listed j e hj he
  snapshot := h.snapshot
  stating j e q names hj he := by
    rcases Reading.calls_put hj with ⟨rfl, rfl⟩ | ⟨-, hj⟩
    · exact hstating q names he
    · exact h.stating j e q names hj he
  closed j e hj he := by
    rcases Reading.calls_put hj with ⟨rfl, rfl⟩ | ⟨-, hj⟩
    · exact hclosed he
    · exact h.closed j e hj he

theorem advance (h : Registered s) (hi : s.calls i = some c) (hc : c.phase.Listed)
    (hstating : ∀ q names, d.phase ≠ .stating q names) (hclosed : d.phase ≠ .closed) :
    Registered (s.put i d) :=
  h.put (fun _ => h.listed i c hi hc) (fun q names hq => absurd hq (hstating q names))
    fun hd => absurd hd hclosed

theorem unregister (h : Registered s) (hd : ¬ d.phase.Listed) (hclosed : d.phase ≠ .closed) :
    Registered ((s.put i d).unregister i) where
  listed j e hj he := by
    rcases Reading.calls_put hj with ⟨rfl, rfl⟩ | ⟨hne, hj⟩
    · exact absurd he hd
    · exact List.mem_filter.mpr ⟨h.listed j e hj he, by simpa using hne⟩
  snapshot := h.snapshot
  stating j e q names hj he := by
    rcases Reading.calls_put hj with ⟨rfl, rfl⟩ | ⟨-, hj⟩
    · exact absurd (he ▸ trivial) hd
    · exact h.stating j e q names hj he
  closed j e hj he := by
    rcases Reading.calls_put hj with ⟨rfl, rfl⟩ | ⟨-, hj⟩
    · exact absurd he hclosed
    · exact h.closed j e hj he

theorem later (h : Registered s) {t : Reading} (hcalls : t.calls = s.calls)
    (hreaders : t.readers = s.readers) (hsnapshot : t.snapshot = s.snapshot)
    (hgen : s.integrityGen ≤ t.integrityGen) : Registered t where
  listed i c hi hc := hreaders ▸ h.listed i c (hcalls ▸ hi) hc
  snapshot q hq := (h.snapshot q (hsnapshot ▸ hq)).trans hgen
  stating i c q names hi hc := (h.stating i c q names (hcalls ▸ hi) hc).trans hgen
  closed i c hi hc := h.closed i c (hcalls ▸ hi) hc

theorem step {dir : String} {t : Reading} (h : Registered s) (hst : ReadStep dir s t) : Registered t := by
  cases hst with
  | openFile i path info => exact h.put False.elim nofun nofun
  | register i c hi hc =>
    have hmore : Registered { s with readers := i :: s.readers } :=
      { h with listed := fun j d hj hd => List.mem_cons_of_mem _ (h.listed j d hj hd) }
    exact hmore.put (fun _ => List.mem_cons_self) nofun nofun
  | noKey i c text hi hc => exact h.advance hi (hc ▸ trivial) nofun nofun
  | isDamagedObject i c hi hc =>
    refine h.advance hi (hc ▸ trivial) (fun q names => ?_) ?_ <;> dsimp only <;> split <;> exact nofun
  | quarantineGeneration i c hi hc =>
    refine h.advance hi (hc ▸ trivial) (fun q names => ?_) ?_ <;> dsimp only <;> split <;> exact nofun
  | load i c gen hi hc =>
    exact h.advance hi (hc ▸ trivial) (fun q names => loaded_ne s gen nofun nofun)
      (loaded_ne s gen nofun nofun)
  | lockIndex i c gen hi hc =>
    exact Registered.later (h.advance hi (d := { c with phase := .locked gen })
      (hc ▸ trivial) nofun nofun) rfl rfl rfl le_rfl
  | reload i c gen hi hc =>
    exact Registered.later (h.advance hi (d := { c with phase := loaded s gen .listing })
      (hc ▸ trivial) (fun q names => loaded_ne s gen nofun nofun) (loaded_ne s gen nofun nofun))
      rfl rfl rfl le_rfl
  | listNames i c names hi hc =>
    refine h.put (fun _ => h.listed i c hi (hc ▸ trivial)) (fun q names hq => ?_) nofun
    cases hq
    exact le_rfl
  | statName i c q name names hi hc =>
    refine h.put (fun _ => h.listed i c hi (hc ▸ trivial)) (fun q' names' hq => ?_) nofun
    cases hq
    exact h.stating i c q _ hi hc
  | storeSnapshot i c q hi hc =>
    have hput := h.advance hi (d := { c with phase := .matching q }) (hc ▸ trivial) nofun nofun
    refine { hput with snapshot := fun q' hq => ?_ }
    obtain rfl := Option.some.inj hq
    exact h.stating i c q _ hi hc
  | matchSnapshot i c q hi hc =>
    refine h.advance hi (hc ▸ trivial) (fun q names => ?_) ?_ <;> dsimp only <;> split <;> exact nofun
  | abandon i c e hi hc => exact h.unregister id nofun
  | fail i c e hi hc => exact h.put False.elim nofun nofun
  | close i c hi hc => exact h.unregister id nofun
  | closed i c hi hc => exact h.put False.elim nofun fun _ => nofun
  | revoke f name e i targets c hf hi =>
    exact Registered.later (h.put (d := { c with reader := c.reader.revoke }) (h.listed i c hi)
      (fun q names hq => h.stating i c q names hi hq) fun _ => nofun) rfl rfl rfl le_rfl
  | setQuarantined f name info hf => exact h.later rfl rfl rfl (Nat.le_succ _)
  | clearQuarantine name verified => exact h.later rfl rfl rfl (Nat.le_succ _)
  | quarantineFor | noStat | stat | unidentified | persist | collect | finish | external | tick =>
    exact h.later rfl rfl rfl le_rfl

theorem of_run {dir : String} {node : Node} {disk : String → Option FileInfo}
    (h : ReflTransGen (ReadStep dir) (Reading.ofNode node 0 disk) s) : Registered s := by
  induction h with
  | refl => exact ⟨nofun, nofun, nofun, nofun⟩
  | tail _ hst ih => exact ih.step hst

end Registered

section
variable (dir name : String) (info : FileInfo) (gen f : Nat)

def QuarantineSnapshot.Has (q : QuarantineSnapshot) : Prop := ∃ x ∈ q.files, x.sameFile info

/-- The phases of a call that will meet the fence, or has met it: what it knows of the fence
is not older than `gen`. -/
def OpenPhase.Bars : OpenPhase → Prop
  | .counted g | .stale g | .locked g => gen ≤ g
  | .stating q _ => gen ≤ q.gen
  | .matching q => q.Has info
  | .returned => False
  | _ => True

/-- The reader will be revoked by a call of `quarantineFor`. -/
def Hunted (i : Nat) (readers : List Nat) : Option FenceCall → Prop
  | some ⟨_, .fenced x⟩ | some ⟨_, .collecting x _⟩ => x = info ∧ i ∈ readers
  | some ⟨_, .revoking targets _⟩ => i ∈ targets
  | _ => False

/-- What is known of each call: a snapshot in the making will hold the object, and a reader of
the object will be refused, is revoked or will be. -/
structure Covered (readers : List Nat) (fencer : Option FenceCall) (i : Nat) (c : OpenCall) : Prop where
  making : ∀ q names, c.phase = .stating q names → gen ≤ q.gen → name ∈ names ∨ q.Has info
  reader : c.reader.info.sameFile info → c.phase.Bars info gen ∨ c.reader.err ≠ none ∨ Hunted info i readers fencer

structure Barred (s : Reading) : Prop where
  raised : gen ≤ s.integrityGen
  quarantined : name ∈ s.quarantined
  bound : ∃ x, s.disk (pathOf dir name) = some x ∧ x.sameFile info
  cached : ∀ q, s.snapshot = some q → gen ≤ q.gen → q.Has info
  calls : ∀ i c, s.calls i = some c → Covered name info gen s.readers (s.fencers f) i c

variable {dir name info gen f} {s t : Reading} {i : Nat} {c d : OpenCall}

theorem Hunted.register {readers : List Nat} {fencer : Option FenceCall} (h : Hunted info i readers fencer)
    (j : Nat) : Hunted info i (j :: readers) fencer := by
  unfold Hunted at h ⊢
  split at h
  · exact ⟨h.1, List.mem_cons_of_mem _ h.2⟩
  · exact ⟨h.1, List.mem_cons_of_mem _ h.2⟩
  · exact h
  · exact h.elim

theorem Hunted.unregister {readers : List Nat} {fencer : Option FenceCall} {j : Nat}
    (h : Hunted info i readers fencer) (hne : i ≠ j) :
    Hunted info i (readers.filter (· ≠ j)) fencer := by
  have hmem : i ∈ readers → i ∈ readers.filter (· ≠ j) :=
    fun hi => List.mem_filter.mpr ⟨hi, by simpa using hne⟩
  unfold Hunted at h ⊢
  split at h
  · exact ⟨h.1, hmem h.2⟩
  · exact ⟨h.1, hmem h.2⟩
  · exact h
  · exact h.elim

namespace Covered

variable {readers readers' : List Nat} {fencer fencer' : Option FenceCall}

theorem mono (h : Covered name info gen readers fencer i c)
    (hunted : Hunted info i readers fencer → Hunted info i readers' fencer') :
    Covered name info gen readers' fencer' i c :=
  ⟨h.making, fun hsame => (h.reader hsame).imp_right fun hr => hr.imp_right hunted⟩

theorem advance (h : Covered name info gen readers fencer i c) (hreader : d.reader = c.reader)
    (hbars : c.phase.Bars info gen → d.phase.Bars info gen)
    (hstating : ∀ q names, d.phase ≠ .stating q names) : Covered name info gen readers fencer i d := by
  refine ⟨fun q names hq => absurd hq (hstating q names), fun hsame => ?_⟩
  rw [hreader] at hsame ⊢
  exact (h.reader hsame).imp_left hbars

end Covered

theorem Barred.put (h : Barred dir name info gen f s)
    (hd : Covered name info gen s.readers (s.fencers f) i d) : Barred dir name info gen f (s.put i d) where
  raised := h.raised
  quarantined := h.quarantined
  bound := h.bound
  cached := h.cached
  calls j e hj := by
    rcases Reading.calls_put hj with ⟨rfl, rfl⟩ | ⟨-, hj⟩
    · exact hd
    · exact h.calls j e hj

theorem Barred.advance (h : Barred dir name info gen f s) (hi : s.calls i = some c)
    (hreader : d.reader = c.reader) (hbars : c.phase.Bars info gen → d.phase.Bars info gen)
    (hstating : ∀ q names, d.phase ≠ .stating q names) : Barred dir name info gen f (s.put i d) :=
  h.put ((h.calls i c hi).advance hreader hbars hstating)

theorem Barred.congr (h : Barred dir name info gen f s) (hgen : t.integrityGen = s.integrityGen)
    (hquarantined : t.quarantined = s.quarantined) (hdisk : t.disk = s.disk)
    (hsnapshot : t.snapshot = s.snapshot) (hreaders : t.readers = s.readers)
    (hfencers : t.fencers = s.fencers) (hcalls : t.calls = s.calls) : Barred dir name info gen f t where
  raised := hgen ▸ h.raised
  quarantined := hquarantined ▸ h.quarantined
  bound := hdisk ▸ h.bound
  cached := hsnapshot ▸ h.cached
  calls i c hi := hreaders ▸ hfencers ▸ h.calls i c (hcalls ▸ hi)

theorem Barred.putFencer (h : Barred dir name info gen f s) {g : Nat} {x : FenceCall}
    (hx : ∀ i c, s.calls i = some c → g = f → Hunted info i s.readers (s.fencers f) →
      c.reader.info.sameFile info → c.reader.err ≠ none ∨ Hunted info i s.readers (some x)) :
    Barred dir name info gen f (s.putFencer g x) where
  raised := h.raised
  quarantined := h.quarantined
  bound := h.bound
  cached := h.cached
  calls i c hi := by
    have hc := h.calls i c hi
    refine ⟨hc.making, fun hsame => ?_⟩
    rcases hc.reader hsame with hbars | herr | hunted
    · exact Or.inl hbars
    · exact Or.inr (Or.inl herr)
    · simp only [Reading.putFencer, Function.update_apply]
      split
      · exact Or.inr (hx i c hi (‹f = g›).symm hunted hsame)
      · exact Or.inr (Or.inr hunted)

theorem QuarantineSnapshot.Has.note {q : QuarantineSnapshot} (h : q.Has info) (damaged : String)
    (x : Option FileInfo) : (q.note damaged x).Has info := by
  obtain ⟨y, hy, hsame⟩ := h
  exact ⟨y, List.mem_append_left _ hy, hsame⟩

theorem QuarantineSnapshot.Has.fences {q : QuarantineSnapshot} (h : q.Has info) {path : String}
    {x : FileInfo} (hx : x.sameFile info) : q.fences path x := by
  obtain ⟨y, hy, hsame⟩ := h
  simp only [FileInfo.sameFile, decide_eq_true_eq] at hx hsame
  refine Bool.or_eq_true_iff.mpr (Or.inr (List.any_eq_true.mpr ⟨y, hy, ?_⟩))
  simp only [FileInfo.sameFile, hx, hsame, decide_true]

theorem Barred.loaded (h : Barred dir name info gen f s) {g : Nat} (hg : gen ≤ g) (otherwise : OpenPhase)
    (hother : otherwise.Bars info gen) : (loaded s g otherwise).Bars info gen := by
  rcases loaded_cases s g otherwise with heq | ⟨q, hq, hle, heq⟩
  · rw [heq]
    exact hother
  · rw [heq]
    exact h.cached q hq (hg.trans hle)

theorem Barred.unregister (h : Barred dir name info gen f s) (hd : d.phase.Bars info gen)
    (hstating : ∀ q names, d.phase ≠ .stating q names) :
    Barred dir name info gen f ((s.put i d).unregister i) where
  raised := h.raised
  quarantined := h.quarantined
  bound := h.bound
  cached := h.cached
  calls j e hj := by
    rcases Reading.calls_put hj with ⟨rfl, rfl⟩ | ⟨hne, hj⟩
    · exact ⟨fun q names hq => absurd hq (hstating q names), fun _ => Or.inl hd⟩
    · exact (h.calls j e hj).mono fun hunted => hunted.unregister hne

theorem Barred.step (h : Barred dir name info gen f s) (hst : ReadStep dir s t)
    (hq : name ∈ t.quarantined) (hb : ∃ x, t.disk (pathOf dir name) = some x ∧ x.sameFile info) :
    Barred dir name info gen f t := by
  cases hst with
  | openFile i path x => exact h.put ⟨nofun, fun _ => Or.inl trivial⟩
  | register i c hi hc =>
    have hmore : Barred dir name info gen f { s with readers := i :: s.readers } :=
      { h with calls := fun j d hj => (h.calls j d hj).mono fun hunted => hunted.register i }
    exact hmore.put ⟨nofun, fun _ => Or.inl trivial⟩
  | noKey i c text hi hc => exact h.put ⟨nofun, fun _ => Or.inl trivial⟩
  | isDamagedObject i c hi hc =>
    refine h.advance hi rfl (fun _ => ?_) fun q names => ?_ <;> dsimp only <;> split
    · trivial
    · trivial
    · exact nofun
    · exact nofun
  | quarantineGeneration i c hi hc =>
    have hsome : s.quarantined.length ≠ 0 :=
      fun hnil => List.ne_nil_of_mem h.quarantined (List.eq_nil_of_length_eq_zero hnil)
    simp only [if_neg hsome]
    exact h.put ⟨nofun, fun _ => Or.inl h.raised⟩
  | load i c g hi hc =>
    refine h.advance hi rfl (fun hbars => ?_) fun q names => loaded_ne s g nofun nofun
    rw [hc] at hbars
    exact h.loaded hbars _ hbars
  | lockIndex i c g hi hc =>
    exact Barred.congr (h.advance hi (d := { c with phase := .locked g }) rfl
      (fun hbars => by rw [hc] at hbars; exact hbars) nofun) rfl rfl rfl rfl rfl rfl rfl
  | reload i c g hi hc =>
    refine Barred.congr (h.advance hi (d := { c with phase := BirakFormal.loaded s g .listing }) rfl
      (fun hbars => ?_) fun q names => loaded_ne s g nofun nofun) rfl rfl rfl rfl rfl rfl rfl
    rw [hc] at hbars
    exact h.loaded hbars _ trivial
  | listNames i c names hi hc hnames =>
    refine h.put ⟨fun q names' hstating _ => ?_, fun _ => Or.inl h.raised⟩
    cases hstating
    exact Or.inl (hnames.mem_iff.mpr h.quarantined)
  | statName i c q m names hi hc =>
    have hcall := h.calls i c hi
    refine h.put ⟨fun q' names' hstating hgen => ?_, fun hsame => ?_⟩
    · cases hstating
      rcases hcall.making q (m :: names) hc hgen with hmem | hhas
      · rcases List.mem_cons.mp hmem with rfl | hmem
        · obtain ⟨x, hx, hsame⟩ := h.bound
          rw [hx]
          exact Or.inr ⟨x, List.mem_append_right _ (List.mem_singleton.mpr rfl), hsame⟩
        · exact Or.inl hmem
      · exact Or.inr (hhas.note _ _)
    · refine (hcall.reader hsame).imp_left fun hbars => ?_
      rw [hc] at hbars
      exact hbars
  | storeSnapshot i c q hi hc =>
    have hcall := h.calls i c hi
    have hhas : gen ≤ q.gen → q.Has info := fun hgen =>
      (hcall.making q [] hc hgen).resolve_left List.not_mem_nil
    have hput := h.advance hi (d := { c with phase := .matching q }) rfl
      (fun hbars => hhas (by rw [hc] at hbars; exact hbars)) nofun
    refine { hput with cached := fun q' hq' hgen => ?_ }
    obtain rfl := Option.some.inj hq'
    exact hhas hgen
  | matchSnapshot i c q hi hc =>
    have hcall := h.calls i c hi
    refine h.put ⟨fun q' names hq' => ?_, fun hsame => ?_⟩
    · dsimp only at hq'
      split at hq' <;> exact absurd hq' nofun
    · refine (hcall.reader hsame).imp_left fun hbars => ?_
      rw [hc] at hbars
      have hfences : q.fences c.path c.reader.info = true := QuarantineSnapshot.Has.fences hbars hsame
      simp only [hfences, if_true]
      trivial
  | abandon i c e hi hc => exact h.unregister trivial nofun
  | fail i c e hi hc => exact h.put ⟨nofun, fun _ => Or.inl trivial⟩
  | close i c hi hc => exact h.unregister trivial nofun
  | closed i c hi hc => exact h.put ⟨nofun, fun _ => Or.inl trivial⟩
  | quarantineFor g m hg =>
    exact h.putFencer fun i c _ hgf hunted _ => by rw [← hgf, hg] at hunted; exact hunted.elim
  | noStat g m hg =>
    exact h.putFencer fun i c _ hgf hunted _ => by rw [← hgf, hg] at hunted; exact hunted.elim
  | stat g m x hg =>
    exact h.putFencer fun i c _ hgf hunted _ => by rw [← hgf, hg] at hunted; exact hunted.elim
  | unidentified g m x hg =>
    exact h.putFencer fun i c _ hgf hunted _ => by rw [← hgf, hg] at hunted; exact hunted.elim
  | setQuarantined g m x hg =>
    have hset : Barred dir name info gen f (s.setQuarantined m x.key) :=
      { h with raised := h.raised.trans (Nat.le_succ _), quarantined := hq }
    exact hset.putFencer fun i c _ hgf hunted _ => by
      rw [← hgf] at hunted
      exact (hg ▸ hunted : Hunted info i s.readers (some ⟨m, .statted x⟩)).elim
  | persist g m x committed hg =>
    exact h.putFencer fun i c _ hgf hunted _ => Or.inr (by rw [← hgf, hg] at hunted; exact hunted)
  | collect g m x e targets hg htargets =>
    refine h.putFencer fun i c hi hgf hunted hsame => ?_
    rw [← hgf, hg] at hunted
    obtain ⟨rfl, hmem⟩ := hunted
    refine Or.inr (htargets.mem_iff.mpr (List.mem_filter.mpr ⟨hmem, ?_⟩))
    simp only [hi, Option.any_some, hsame]
  | revoke g m e j targets c hg hj =>
    have hrevoked : Barred dir name info gen f (s.put j { c with reader := c.reader.revoke }) :=
      h.put ⟨(h.calls j c hj).making, fun _ => Or.inr (Or.inl nofun)⟩
    refine hrevoked.putFencer fun i d hi hgf hunted _ => ?_
    have hmem : Hunted info i s.readers (s.fencers g) := hgf ▸ hunted
    rw [hg] at hmem
    rcases Reading.calls_put hi with ⟨rfl, rfl⟩ | ⟨hne, -⟩
    · exact Or.inl nofun
    · exact Or.inr ((List.mem_cons.mp hmem).resolve_left hne)
  | finish g m e hg =>
    exact h.putFencer fun i c _ hgf hunted _ => by
      rw [← hgf, hg] at hunted
      exact absurd hunted List.not_mem_nil
  | clearQuarantine m verified =>
    exact { h with raised := h.raised.trans (Nat.le_succ _), quarantined := hq }
  | external disk => exact { h with bound := hb }
  | tick now hnow => exact { h with }

theorem Registered.barred (h : Registered s) (hbound : ∃ x, s.disk (pathOf dir name) = some x ∧ x.sameFile info) :
    Barred dir name info (s.integrityGen + 1) f
      ((s.setQuarantined name info.key).putFencer f ⟨name, .fenced info⟩) where
  raised := le_rfl
  quarantined := by
    simp only [Reading.putFencer, Reading.setQuarantined, insertNew]
    split
    · exact ‹name ∈ s.quarantined›
    · exact List.mem_cons_self
  bound := hbound
  cached q hq hgen := absurd (h.snapshot q hq) (Nat.not_le.mpr hgen)
  calls i c hi := by
    refine ⟨fun q names hq hgen => absurd (h.stating i c q names hi hq) (Nat.not_le.mpr hgen), fun _ => ?_⟩
    simp only [Reading.putFencer, Function.update_self]
    by_cases hlisted : c.phase.Listed
    · exact Or.inr (Or.inr ⟨rfl, h.listed i c hi hlisted⟩)
    · refine Or.inl ?_
      cases hp : c.phase <;> simp only [hp, OpenPhase.Listed, not_true_eq_false] at hlisted <;> trivial

end

def Reading.LeadsTo (s : Reading) (dir name : String) (info : FileInfo) : Prop :=
  ∃ x, s.disk (pathOf dir name) = some x ∧ x.sameFile info

def QuarantinedStep (dir name : String) (info : FileInfo) (s t : Reading) : Prop :=
  ReadStep dir s t ∧ name ∈ t.quarantined ∧ t.LeadsTo dir name info

def infoX : FileInfo := { key := { ino := 7, size := 3, modTime := 1 } }

def diskX (path : String) : Option FileInfo := if path = "data/x" then some infoX else none

/-- Its reader is out when `quarantineFor` looks at the file, and is revoked. -/
theorem quarantine_of_x : ∃ s t, ReflTransGen (ReadStep "data") (Reading.ofNode {} 0 diskX) s ∧
    s.fencers 0 = some ⟨"x", .statted infoX⟩ ∧ s.LeadsTo "data" "x" infoX ∧
    ReflTransGen (QuarantinedStep "data" "x" infoX)
      ((s.setQuarantined "x" infoX.key).putFencer 0 ⟨"x", .fenced infoX⟩) t ∧
    t.fencers 0 = some ⟨"x", .finished .integrity⟩ ∧
    t.calls 0 = some ⟨"data/x", ⟨infoX, some .unreadable⟩, .returned⟩ := by
  have hleads : ∃ x, diskX (pathOf "data" "x") = some x ∧ x.sameFile infoX := ⟨infoX, by decide, rfl⟩
  refine ⟨_, _, ReflTransGen.refl
    |>.tail (.openFile 0 "data/x" infoX rfl (by decide) rfl)
    |>.tail (.register 0 _ rfl rfl)
    |>.tail (.isDamagedObject 0 _ rfl rfl)
    |>.tail (.quarantineGeneration 0 _ rfl rfl)
    |>.tail (.quarantineFor 0 "x" rfl)
    |>.tail (.stat 0 "x" infoX rfl (by decide)), rfl, by exact hleads, ReflTransGen.refl
    |>.tail ⟨.persist 0 "x" infoX true rfl, by decide, by exact hleads⟩
    |>.tail ⟨.collect 0 "x" infoX .integrity [0] rfl (.refl _), by decide, by exact hleads⟩
    |>.tail ⟨.revoke 0 "x" .integrity 0 [] _ rfl rfl, by decide, by exact hleads⟩
    |>.tail ⟨.finish 0 "x" .integrity rfl, by decide, by exact hleads⟩, rfl, rfl⟩

end BirakFormal
