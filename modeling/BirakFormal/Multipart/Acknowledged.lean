import BirakFormal.Multipart.Assembly

/-!
# What becomes of the parts that were written

A part that was acknowledged is the one that is listed and completed, as long as no other digest is
staged for its number when a later call fails or is cut at its rename or after it. If nothing
fails at all, the directory of an upload is a map from numbers to bodies. Both hold for the
numbers of at most five digits, since only their names are read back.
-/

namespace BirakFormal

open Interruption Prog

variable {dir : StagingDir} {etag : List Char}

section
variable {want : List CompletePart} {limits : Limits}

theorem checkOrder_ne_invalidPart {prev : Int} :
    checkOrder limits prev want ≠ .error .invalidPart := by
  induction want generalizing prev with
  | nil => simp [checkOrder]
  | cons w want ih =>
    unfold checkOrder
    split
    · simp
    · split
      · simp
      · exact ih

theorem checkOrder_ne_invalidPartOrder {prev : Int}
    (hprev : ∀ w ∈ want, prev < w.number) (hascending : want.Pairwise fun v w => v.number < w.number) :
    checkOrder limits prev want ≠ .error .invalidPartOrder := by
  induction want generalizing prev with
  | nil => simp [checkOrder]
  | cons w want ih =>
    obtain ⟨hrest, hpairs⟩ := List.pairwise_cons.mp hascending
    have hw := hprev w List.mem_cons_self
    unfold checkOrder
    split
    · simp
    · split
      · omega
      · exact ih hrest hpairs

def NamesETag (w : CompletePart) (etag : List Char) : Prop := w.etag = etag ∨ etagMatches w.etag etag = true

theorem NamesETag.matches {w : CompletePart} (h : NamesETag w etag)
    (hetag : isHexMD5 etag = true) : etagMatches w.etag etag = true := by
  rcases h with h | h
  · rw [h]
    exact etagMatches_self hetag
  · exact h

def NamesStaged (dir : StagingDir) (want : List CompletePart) : Prop :=
  ∀ w ∈ want, ∃ p ∈ stagedParts dir, p.number = w.number ∧ etagMatches w.etag p.etag = true ∧
    ∃ f, (partFileName p.number p.etag, f) ∈ dir

def Unobjected {α : Type} : Except CompleteErr α → Prop
  | .error e => e ≠ .invalidPart ∧ e ≠ .invalidPartOrder
  | .ok _ => True

theorem selectParts_accepts {total : Int}
    (h : NamesStaged dir want) : Unobjected (selectParts limits (stagedParts dir) want total) := by
  induction want generalizing total with
  | nil => trivial
  | cons w want ih =>
    obtain ⟨p, hp, hnumber, hmatch, -⟩ := h w List.mem_cons_self
    have hfind : (stagedParts dir).find? (fun q => q.number = w.number) = some p := by
      cases hq : (stagedParts dir).find? fun q => q.number = w.number with
      | none => exact absurd hnumber (by simpa using List.find?_eq_none.mp hq p hp)
      | some q =>
        have hqnumber : q.number = w.number := by simpa using List.find?_some hq
        rw [eq_of_stagedPart_number (List.mem_of_find?_eq_some hq) hp (hqnumber.trans hnumber.symm)]
    have hrest := @ih (total + p.size) fun v hv => h v (List.mem_cons_of_mem w hv)
    unfold selectParts
    rw [hfind]
    dsimp only
    rw [hmatch]
    simp only [Bool.not_true, Bool.false_eq_true, if_false]
    split
    · exact ⟨nofun, nofun⟩
    · split
      · exact ⟨nofun, nofun⟩
      · split
        · next e he => exact he ▸ hrest
        · trivial

variable {D : Type} {env : CompletionEnv D} {dest : Path} {b : Bench D}

theorem lookup_of_mem {name : List Char} {f : StagedFile} (h : (name, f) ∈ dir) :
    ∃ g, dir.lookup name = some g := by
  cases hl : dir.lookup name with
  | some g => exact ⟨g, rfl⟩
  | none =>
    have hne := List.lookup_eq_none_iff.mp hl (name, f) h
    simp at hne

theorem copyParts_accepts (hreading : ∀ p f, env.reading p (some f) ≠ .missing) {parts : List UploadPart}
    (hparts : ∀ p ∈ parts, ∃ f, (partFileName p.number p.etag, f) ∈ b.staging) {written composite : Bytes} :
    (copyParts env parts written composite).Safe (fun _ => True) (fun reply _ => Unobjected reply) b := by
  induction parts generalizing written composite with
  | nil => exact safe_pure trivial
  | cons p parts ih =>
    obtain ⟨f, hf⟩ := hparts p List.mem_cons_self
    obtain ⟨g, hg⟩ := lookup_of_mem hf
    refine safe_attempt_look_bind trivial (safe_pure ⟨nofun, nofun⟩) ?_
    dsimp only
    rw [hg]
    split
    · next hmissing => exact absurd hmissing (hreading p g)
    · exact safe_pure ⟨nofun, nofun⟩
    · exact safe_pure ⟨nofun, nofun⟩
    · split
      · exact safe_pure ⟨nofun, nofun⟩
      · exact ih fun q hq => hparts q (List.mem_cons_of_mem p hq)

variable {precondition : Option (Layered → Except Err Unit)}

theorem publishAssembled_accepts {bytes : Bytes} :
    (publishAssembled env dest precondition bytes).Safe (fun _ => True) (fun reply _ => Unobjected reply) b := by
  refine Safe.bind (safe_trivial _ _) fun r b₁ _ => ?_
  cases r with
  | error e => exact safe_pure ⟨nofun, nofun⟩
  | ok tmp =>
    refine Safe.bind (safe_trivial _ _) fun r b₂ _ => ?_
    cases r with
    | error e => exact safe_pure ⟨nofun, nofun⟩
    | ok u => exact safe_pure trivial

theorem onVolume_staging {α : Type} (p : LayeredProg α) :
    (onVolume p : BenchProg D α).Within fun b b' => b'.staging = b.staging := by
  intro b
  refine (Safe.zoom Bench.volPart (safe_trivial p b.vol)).mono ?_ ?_
  · rintro _ ⟨w, rfl, -⟩
    rfl
  · rintro _ _ ⟨w, rfl, -⟩
    rfl

theorem assemble_accepts (hreading : ∀ p f, env.reading p (some f) ≠ .missing) {parts : List UploadPart}
    (hparts : ∀ p ∈ parts, ∃ f, (partFileName p.number p.etag, f) ∈ b.staging) {wantSize : Int}
    :
    (assemble env parts wantSize dest precondition).Safe (fun _ => True) (fun reply _ => Unobjected reply) b := by
  have hmkdir := (onVolume_staging (D := D) (Layered.mkdirSection env.digest dest.dropLast true)).attempt
  refine Safe.bind ((hmkdir b).weaken fun _ _ => id) fun r b₁ hb₁ => ?_
  cases r with
  | error e => exact safe_pure ⟨nofun, nofun⟩
  | ok u =>
    refine safe_bind.mpr (safe_attempt ⟨trivial, ⟨nofun, nofun⟩, ?_⟩)
    refine Safe.bind (copyParts_accepts hreading (hb₁ ▸ hparts)) fun reply b₂ hreply => ?_
    cases reply with
    | error e => exact safe_pure hreply
    | ok r =>
      dsimp only
      split
      · exact safe_pure ⟨nofun, nofun⟩
      · refine Safe.bind publishAssembled_accepts fun reply b₃ hreply => ?_
        cases reply with
        | error e => exact safe_pure hreply
        | ok info => exact safe_pure trivial

theorem completeIf_accepts [DecidableEq D] (hreading : ∀ p f, env.reading p (some f) ≠ .missing) {id : String}
    (h : NamesStaged b.staging want) :
    (completeIf env id want dest precondition).Safe (fun _ => True) (fun reply _ =>
      reply ≠ .error .invalidPart ∧
        (reply = .error .invalidPartOrder → checkOrder env.limits 0 want = .error .invalidPartOrder)) b := by
  have hother {e : CompleteErr} (he : e ≠ .invalidPart ∧ e ≠ .invalidPartOrder) :
      (Except.error e : Except CompleteErr CompleteResult) ≠ .error .invalidPart ∧
        ((Except.error e : Except CompleteErr CompleteResult) = .error .invalidPartOrder →
          checkOrder env.limits 0 want = .error .invalidPartOrder) :=
    ⟨fun hc => he.1 (Except.error.inj hc), fun hc => absurd (Except.error.inj hc) he.2⟩
  unfold completeIf
  split
  · exact safe_pure (hother (by simp))
  · split
    · exact safe_pure (hother (by simp))
    · split
      · exact safe_pure (hother (by simp))
      · refine safe_attempt_look_bind trivial (safe_pure (hother (by simp))) ?_
        dsimp only
        split
        · unfold Bench.repeated
          split
          · exact safe_pure (hother (by simp))
          · exact safe_pure (by simp)
        · refine safe_attempt_look_bind trivial (safe_pure (hother (by simp))) ?_
          dsimp only
          cases horder : checkOrder env.limits 0 want with
          | error e =>
            refine safe_pure ⟨fun hc => checkOrder_ne_invalidPart (horder.trans ?_), fun hc => ?_⟩
            · rw [Except.error.inj hc]
            · rw [Except.error.inj hc]
          | ok u =>
            rw [horder] at hother
            have hselect : Unobjected (selectParts env.limits (stagedParts b.staging) want 0) := selectParts_accepts h
            cases hr : selectParts env.limits (stagedParts b.staging) want 0 with
            | error e =>
              rw [hr] at hselect
              exact safe_pure (hother hselect)
            | ok r =>
              obtain ⟨selected, total⟩ := r
              have hfiles : ∀ p ∈ selected, ∃ f, (partFileName p.number p.etag, f) ∈ b.staging := by
                intro p hp
                obtain ⟨w, hw, hpstaged, hpnumber, -⟩ := exists_mem_of_forall₂ (selectParts_ok hr).named hp
                obtain ⟨q, hq, hqnumber, -, hfile⟩ := h w hw
                rwa [eq_of_stagedPart_number hpstaged hq (hpnumber.trans hqnumber.symm)]
              refine Safe.bind (assemble_accepts hreading hfiles) fun reply b₁ hreply => ?_
              cases reply with
              | error e => exact safe_pure (hother hreply)
              | ok r => exact Safe.bind (safe_trivial _ _) fun _ _ _ => safe_pure (by simp)

end

section
variable (md5 : MD5) (sha : Digest) (limits : Limits)

/-- The directory of an upload, and the ETag of the last acknowledged call for each number, after any
calls that each meet `ok`. A call may be acknowledged, fail, or be cut and followed by a restart. -/
inductive PartRun (ok : PartRequest → List Fault → StagingDisk → Prop) :
    StagingDisk → (Int → Option (List Char)) → Prop where
  | start : PartRun ok ⟨[], []⟩ fun _ => none
  | acknowledged {d d' : StagingDisk} {acked : Int → Option (List Char)} {r : PartRequest} {fs : List Fault}
      {p : UploadPart} : PartRun ok d acked → ok r fs d →
      (writePart md5 sha limits r).run fs d = (.returned (.ok p), d') →
        PartRun ok d' (Function.update acked r.number (some p.etag))
  | refused {d d' : StagingDisk} {acked : Int → Option (List Char)} {r : PartRequest} {fs : List Fault}
      {e : Failure PartErr} : PartRun ok d acked → ok r fs d →
      (writePart md5 sha limits r).run fs d = (.returned (.error e), d') → PartRun ok d' acked
  | cut {d d' : StagingDisk} {acked : Int → Option (List Char)} {r : PartRequest} {fs : List Fault}
      {dir : StagingDir} : PartRun ok d acked → ok r fs d →
      (writePart md5 sha limits r).run fs d = (.crashed, d') → d'.Leaves dir → PartRun ok ⟨dir, []⟩ acked

/-- The number has at most five digits, and either every file that is staged for it has the digest of
the call, or nothing fails or is cut from the rename on. -/
def CarefulPart (r : PartRequest) (fs : List Fault) (d : StagingDisk) : Prop :=
  r.number < 100000 ∧
    ((∀ e ∈ d.visible, ∀ digest, parsePartFileName e.1 = some (r.number, digest) → digest = r.digest md5) ∨
      ∀ f ∈ (preparePart md5 sha limits r).left fs d, f = .pass)

variable {md5 sha limits} {r : PartRequest} {fs : List Fault} {d d' : StagingDisk}

theorem writePart_run {outcome : Outcome PartErr UploadPart}
    (h : (writePart md5 sha limits r).run fs d = (outcome, d')) :
    d' = d ∧ (∀ p, outcome ≠ .returned (.ok p)) ∨ 1 ≤ r.number ∧ ∃ existed,
      existed = (d.visible.any fun e => e.1 = r.finalName md5) ∧
        (publishPart md5 r existed).run ((preparePart md5 sha limits r).left fs d) d = (outcome, d') := by
  unfold writePart at h
  rw [run_bind] at h
  have hprepare : (preparePart md5 sha limits r).Safe (fun d₁ => d₁ = d) (fun existed d₁ => d₁ = d ∧ 1 ≤ r.number ∧
      existed = d.visible.any fun e => e.1 = r.finalName md5) d :=
    (preparePart_reads.along preparePart_known).imp fun _ _ h => ⟨h.1, h.2.2.1, h.2.2.2.2⟩
  have hrun := Sat.run hprepare fs
  revert h hrun
  generalize (preparePart md5 sha limits r).run fs d = result
  match result with
  | (.returned (.ok existed), d₁) =>
    rintro h ⟨rfl, hpos, hexisted⟩
    exact Or.inr ⟨hpos, existed, hexisted, h⟩
  | (.returned (.error e), d₁) =>
    intro h hrun
    obtain ⟨rfl, rfl⟩ := Prod.mk.inj h
    exact Or.inl ⟨hrun, nofun⟩
  | (.crashed, d₁) =>
    intro h hrun
    obtain ⟨rfl, rfl⟩ := Prod.mk.inj h
    exact Or.inl ⟨hrun, nofun⟩

theorem CarefulPart.survives {outcome : Outcome PartErr UploadPart} {n : Int}
    (hok : CarefulPart md5 sha limits r fs d) (h : (writePart md5 sha limits r).run fs d = (outcome, d'))
    (hother : r.number ≠ n ∨ ∀ p, outcome ≠ .returned (.ok p)) (hd : Survives n etag d) : Survives n etag d' := by
  rcases writePart_run h with ⟨rfl, -⟩ | ⟨hpos, existed, hexisted, hrun⟩
  · exact hd
  have hfinal : parsePartFileName (r.finalName md5) = some (r.number, r.digest md5) :=
    PartRequest.parse_finalName hpos hok.1
  have hparsed := hd.visible.parsed
  have hstops : (publishPart md5 r existed).Stops d d' := ⟨_, congrArg Prod.snd hrun⟩
  by_cases hn : r.number = n
  · subst hn
    rcases hok.2 with hall | hpass
    · -- The only file of the number has the digest of the call.
      obtain ⟨f, hf⟩ := hd.visible.file
      have hdigest : r.digest md5 = etag := (hall _ hf etag hparsed).symm
      have hthere : existed = true := by
        rw [hexisted, List.any_eq_true]
        refine ⟨_, hf, decide_eq_true ?_⟩
        rw [PartRequest.finalName, hdigest]
      have hexists : existed = false → r.number ≠ r.number := fun hfalse =>
        absurd (hfalse.symm.trans hthere) Bool.false_ne_true
      exact (publishPart_survives hfinal hparsed (fun _ => hdigest) hexists).stops hstops hd
    · -- Nothing fails from the rename on, so the call is acknowledged.
      obtain ⟨p, d₁, hexec, -⟩ : (publishPart md5 r existed).Finishes (fun _ _ => True) d := publishPart_returns existed d
      rw [run_pass _ hpass, hexec] at hrun
      rcases hother with hne | hnot
      · exact absurd rfl hne
      · exact absurd (Prod.mk.inj hrun).1.symm (hnot p)
  · exact (publishPart_survives hfinal hparsed (fun h => absurd h hn) fun _ => hn).stops hstops hd

theorem PartRun.survives {acked : Int → Option (List Char)}
    (h : PartRun md5 sha limits (CarefulPart md5 sha limits) d acked) :
    ∀ n etag, acked n = some etag → Survives n etag d := by
  induction h with
  | start => nofun
  | @acknowledged d d' acked r fs p _ hok hrun ih =>
    intro n etag hn
    by_cases hnumber : n = r.number
    · subst hnumber
      rw [Function.update_self] at hn
      obtain rfl := Option.some.inj hn
      rcases writePart_run hrun with ⟨-, hnot⟩ | ⟨hpos, existed, -, hpublish⟩
      · exact absurd rfl (hnot p)
      · have hfinal : parsePartFileName (r.finalName md5) = some (r.number, r.digest md5) :=
          PartRequest.parse_finalName hpos hok.1
        have hholds := (publishPart_holds hfinal).of_yields ⟨_, hpublish⟩
        rw [hholds.2.1]
        exact hholds.2.2
    · rw [Function.update_of_ne hnumber] at hn
      exact hok.survives hrun (Or.inl (Ne.symm hnumber)) (ih n etag hn)
  | refused _ hok hrun ih => exact fun n etag hn => hok.survives hrun (Or.inr nofun) (ih n etag hn)
  | cut _ hok hrun hleaves ih =>
    intro n etag hn
    exact survives_flushed (hok.survives hrun (Or.inr nofun) (ih n etag hn) _ hleaves)

theorem HoldsPart.staged {n : Int} (h : HoldsPart dir n etag) :
    ∃ p ∈ stagedParts dir, p.number = n ∧ p.etag = etag := by
  obtain ⟨f, hf⟩ := h.file
  have hcandidate : candidatePart (partFileName n etag, f) = some ⟨n, f.bytes.length, etag, f.modTime⟩ := by
    rw [candidatePart, h.parsed]
    rfl
  obtain ⟨p, hp, hnumber⟩ := exists_stagedPart hf hcandidate
  obtain ⟨e, he, hc⟩ := candidate_of_mem_stagedParts hp
  obtain ⟨⟨m, digest⟩, hparse, rfl⟩ := Option.map_eq_some_iff.mp hc
  obtain rfl : m = n := hnumber
  exact ⟨_, hp, rfl, h.only e he digest hparse⟩

/-- After any careful calls, the part that is listed for a number is the one that was last
acknowledged, and no completion that names it is refused for it. -/
theorem acknowledged_parts_completable {acked : Int → Option (List Char)}
    (h : PartRun md5 sha limits (CarefulPart md5 sha limits) d acked) :
    (∀ n etag, acked n = some etag → ∃ p ∈ stagedParts d.visible, p.number = n ∧ p.etag = etag) ∧
      ∀ {D : Type} [DecidableEq D] (env : CompletionEnv D) (b : Bench D) (id : String) (want : List CompletePart)
        (dest : Path) (precondition : Option (Layered → Except Err Unit)),
        (∀ p f, env.reading p (some f) ≠ .missing) → b.staging = d.visible →
        (∀ w ∈ want, ∃ etag, acked w.number = some etag ∧ NamesETag w etag) →
          ∀ reply b', (completeIf env id want dest precondition).Yields b reply b' → reply ≠ .error .invalidPart := by
  constructor
  · intro n etag hn
    exact (h.survives n etag hn).visible.staged
  · intro D _ env b id want dest precondition hreading hb hwant reply b' hyields
    have hnames : NamesStaged b.staging want := by
      intro w hw
      obtain ⟨etag, hacked, hnamed⟩ := hwant w hw
      have hholds := (h.survives _ etag hacked).visible
      have hmatch := hnamed.matches (parsePartFileName_spec hholds.parsed).2
      obtain ⟨p, hp, hnumber, hetag⟩ := hholds.staged
      rw [hb]
      refine ⟨p, hp, hnumber, hetag ▸ hmatch, ?_⟩
      rw [hnumber, hetag]
      exact hholds.file
    exact ((completeIf_accepts hreading hnames).of_yields hyields).1

/-- The directory of an upload after the given calls, each of which returned a part. -/
inductive WrittenParts (md5 : MD5) (sha : Digest) (limits : Limits) : List PartRequest → StagingDisk → Prop where
  | nil : WrittenParts md5 sha limits [] ⟨[], []⟩
  | snoc {rs : List PartRequest} {r : PartRequest} {d d' : StagingDisk} {p : UploadPart} :
      WrittenParts md5 sha limits rs d → (writePart md5 sha limits r).exec d = (.ok p, d') →
        WrittenParts md5 sha limits (rs ++ [r]) d'

def lastBody (rs : List PartRequest) (n : Int) : Option PartRequest := rs.reverse.find? fun r => r.number = n

theorem lastBody_concat (rs : List PartRequest) (r : PartRequest) (n : Int) :
    lastBody (rs ++ [r]) n = if r.number = n then some r else lastBody rs n := by
  rw [lastBody, List.reverse_concat, List.find?_cons]
  by_cases h : r.number = n
  · simp [h]
  · simp [h, lastBody]

theorem lastBody_spec {rs : List PartRequest} {n : Int} (h : lastBody rs n = some r) :
    r ∈ rs ∧ r.number = n := by
  refine ⟨List.mem_reverse.mp (List.mem_of_find?_eq_some h), ?_⟩
  simpa using List.find?_some h

variable {rs : List PartRequest}

def PartRequest.entry (md5 : MD5) (r : PartRequest) : List Char × StagedFile :=
  (r.finalName md5, ⟨r.body, r.modTime⟩)

def PartRequest.part (md5 : MD5) (r : PartRequest) : UploadPart := ⟨r.number, r.body.length, r.digest md5, r.modTime⟩

structure MapsParts (md5 : MD5) (rs : List PartRequest) (dir : StagingDir) : Prop where
  parsed : ∀ r ∈ rs, parsePartFileName (r.finalName md5) = some (r.number, r.digest md5)
  mem_iff : ∀ e, e ∈ dir ↔ ∃ r, lastBody rs r.number = some r ∧ e = r.entry md5

theorem WrittenParts.maps (h : WrittenParts md5 sha limits rs d) (hsmall : ∀ r ∈ rs, r.number < 100000) :
    MapsParts md5 rs d.visible := by
  induction h with
  | nil =>
    refine ⟨fun r hr => absurd hr List.not_mem_nil, fun e => ⟨fun he => absurd he List.not_mem_nil, ?_⟩⟩
    rintro ⟨r, hr, -⟩
    cases hr
  | @snoc rs r d d' p _ hexec ih =>
    have hmaps := ih fun x hx => hsmall x (List.mem_append_left _ hx)
    have hr : r.number < 100000 := hsmall r (List.mem_append_right _ List.mem_cons_self)
    have hrun : (writePart md5 sha limits r).run [] d = (.returned (.ok p), d') := by rw [run_nil, hexec]
    rcases writePart_run hrun with ⟨-, hnot⟩ | ⟨hpos, existed, -, hpublish⟩
    · exact absurd rfl (hnot p)
    have hfinal : parsePartFileName (r.finalName md5) = some (r.number, r.digest md5) :=
      PartRequest.parse_finalName hpos hr
    have hparsed : ∀ x ∈ rs ++ [r], parsePartFileName (x.finalName md5) = some (x.number, x.digest md5) := by
      intro x hx
      rcases List.mem_append.mp hx with hx | hx
      · exact hmaps.parsed x hx
      · rw [List.mem_singleton.mp hx]
        exact hfinal
    have hvisible := (publishPart_leaves.of_yields ⟨_, hpublish⟩).2.2.2
    refine ⟨hparsed, fun e => (hvisible e).trans ⟨?_, ?_⟩⟩
    · rintro ⟨rfl | ⟨he, hne⟩, hsuperseded⟩
      · exact ⟨r, by rw [lastBody_concat, if_pos rfl], rfl⟩
      · obtain ⟨x, hx, rfl⟩ := (hmaps.mem_iff e).mp he
        have hxparsed := hmaps.parsed x (lastBody_spec hx).1
        refine ⟨x, ?_, rfl⟩
        rw [lastBody_concat, if_neg, hx]
        intro hnumber
        -- A file of the number with the same digest would be the new one.
        have hdigest : x.digest md5 = r.digest md5 := by
          rw [supersededPart_eq hxparsed] at hsuperseded
          simpa [hnumber] using hsuperseded
        exact hne (by rw [PartRequest.entry, PartRequest.finalName, PartRequest.finalName, hdigest, hnumber])
    · rintro ⟨x, hx, rfl⟩
      rw [lastBody_concat] at hx
      split at hx
      · obtain rfl := Option.some.inj hx
        refine ⟨Or.inl rfl, ?_⟩
        rw [supersededPart_eq hfinal]
        simp
      · next hnumber =>
        have hxparsed := hmaps.parsed x (lastBody_spec hx).1
        refine ⟨Or.inr ⟨(hmaps.mem_iff _).mpr ⟨x, hx, rfl⟩, fun hname => ?_⟩, ?_⟩
        · have hsame : parsePartFileName (r.finalName md5) = some (x.number, x.digest md5) := hname ▸ hxparsed
          rw [hfinal] at hsame
          exact hnumber (Prod.mk.inj (Option.some.inj hsame)).1
        · rw [supersededPart_eq hxparsed]
          simp [Ne.symm hnumber]

theorem MapsParts.mem_stagedParts (h : MapsParts md5 rs dir) {p : UploadPart} :
    p ∈ stagedParts dir ↔ ∃ r, lastBody rs p.number = some r ∧ p = r.part md5 := by
  have hlisted {p : UploadPart} (hp : p ∈ stagedParts dir) :
      ∃ r, lastBody rs p.number = some r ∧ p = r.part md5 := by
    obtain ⟨e, he, hc⟩ := candidate_of_mem_stagedParts hp
    obtain ⟨r, hr, rfl⟩ := (h.mem_iff e).mp he
    rw [candidatePart, PartRequest.entry, h.parsed r (lastBody_spec hr).1] at hc
    obtain rfl := Option.some.inj hc
    exact ⟨r, hr, rfl⟩
  refine ⟨hlisted, ?_⟩
  rintro ⟨r, hr, hpart⟩
  have hnumber := (lastBody_spec hr).2
  have hcandidate : candidatePart (r.entry md5) = some (r.part md5) := by
    rw [candidatePart, PartRequest.entry, h.parsed r (lastBody_spec hr).1]
    rfl
  have hfile : r.entry md5 ∈ dir := (h.mem_iff _).mpr ⟨r, by rw [hnumber, hr], rfl⟩
  obtain ⟨q, hq, hqnumber⟩ := exists_stagedPart hfile hcandidate
  obtain ⟨x, hx, rfl⟩ := hlisted hq
  have hsame : lastBody rs r.number = some x := by
    have hxnumber : x.number = r.number := hqnumber
    rw [← hxnumber]
    exact hx
  rw [hnumber, hr] at hsame
  obtain rfl := Option.some.inj hsame
  rwa [hpart]

theorem listParts_page (dir : StagingDir) {maxParts : Int} (hsize : 1 ≤ maxParts) (marker : Int) :
    partsPage dir maxParts marker = Paging.page UploadPart.number (stagedParts dir) maxParts.toNat marker := by
  have hlength (l : List UploadPart) : 0 < maxParts ∧ maxParts < l.length ↔ maxParts.toNat < l.length := by omega
  unfold partsPage listParts Paging.page Paging.rest
  dsimp only
  generalize (stagedParts dir).filter (fun p => decide (marker < p.number)) = rest
  by_cases hcut : maxParts.toNat < rest.length
  · have hne : rest.take maxParts.toNat ≠ [] := by
      intro hnil
      have hlen := congrArg List.length hnil
      rw [List.length_take, List.length_nil] at hlen
      omega
    rw [if_pos ((hlength rest).mpr hcut), if_pos hcut, List.getLast?_eq_some_getLast hne]
    rfl
  · rw [if_neg (fun h => hcut ((hlength rest).mp h)), if_neg hcut]
    rfl

theorem follow_partsPage (dir : StagingDir) (hpos : ∀ p ∈ stagedParts dir, 1 ≤ p.number) {maxParts : Int}
    (hsize : 1 ≤ maxParts) {fuel : Nat} (hfuel : (stagedParts dir).length < fuel) :
    Paging.follow (partsPage dir maxParts) fuel 0 = stagedParts dir := by
  have hall : Paging.rest UploadPart.number (stagedParts dir) 0 = stagedParts dir := by
    refine List.filter_eq_self.mpr fun p hp => decide_eq_true ?_
    have := hpos p hp
    omega
  have hfollow := Paging.follow_page (stagedParts_sorted dir) (show 0 < maxParts.toNat by omega)
    (show (Paging.rest UploadPart.number (stagedParts dir) 0).length < fuel by rwa [hall])
  rw [hall] at hfollow
  rw [funext fun marker => listParts_page dir hsize marker]
  exact hfollow

end

def plainLimits : Limits := ⟨1, 100, 10, 100⟩

def firstBody : PartRequest := { number := 1, body := [7], modTime := 1 }

def secondBody : PartRequest := { number := 1, body := [8], modTime := 2 }

def firstStaged : StagingDisk := ⟨[(partFileName 1 (plainMD5.hex [7]), ⟨[7], 1⟩)], []⟩

theorem firstBody_acknowledged : (writePart plainMD5 sha256 plainLimits firstBody).run [] ⟨[], []⟩ =
    (.returned (.ok ⟨1, 1, plainMD5.hex [7], 1⟩), firstStaged) := by
  decide +kernel

theorem acknowledged_parts_completable_first :
    ∃ p ∈ stagedParts firstStaged.visible, p.number = 1 ∧ p.etag = plainMD5.hex [7] := by
  have hcareful : CarefulPart plainMD5 sha256 plainLimits firstBody [] ⟨[], []⟩ :=
    ⟨by decide, Or.inl fun e he => absurd he List.not_mem_nil⟩
  have hrun : PartRun plainMD5 sha256 plainLimits (CarefulPart plainMD5 sha256 plainLimits) firstStaged
      (Function.update (fun _ => none) 1 (some (plainMD5.hex [7]))) :=
    .acknowledged .start hcareful firstBody_acknowledged
  exact (acknowledged_parts_completable hrun).1 1 (plainMD5.hex [7]) (by decide +kernel)

def bothStaged : StagingDisk :=
  ⟨[(partFileName 1 (plainMD5.hex [8]), ⟨[8], 2⟩), (partFileName 1 (plainMD5.hex [7]), ⟨[7], 1⟩)], []⟩

/-- A replacement whose removal of the acknowledged file fails is reported as failed, and the part that
is listed from then on is the one that was not acknowledged. -/
theorem failed_replacement_is_listed :
    ∃ d acked, PartRun plainMD5 sha256 plainLimits (fun _ _ _ => True) d acked ∧ acked 1 = some (plainMD5.hex [7]) ∧
      ∀ p ∈ stagedParts d.visible, p.etag = plainMD5.hex [8] ∧ p.etag ≠ plainMD5.hex [7] := by
  have hfailed : (writePart plainMD5 sha256 plainLimits secondBody).run (List.replicate 12 .pass ++ [.fail]) firstStaged =
      (.returned (.error .fault), bothStaged) := by decide +kernel
  refine ⟨bothStaged, _, .refused (.acknowledged .start trivial firstBody_acknowledged) trivial hfailed, ?_, ?_⟩
  · decide +kernel
  · decide +kernel

def manyParts : Limits := ⟨1, 100, 100000, 100⟩

def lateBody : PartRequest := { number := 100000, body := [7], modTime := 1 }

def lateStaged : StagingDisk := ⟨[(partFileName 100000 (plainMD5.hex [7]), ⟨[7], 1⟩)], []⟩

end BirakFormal
