import BirakFormal.Multipart.Parts

/-!
# Writing a part

`WritePart` renames a scratch file to the name of the part, flushes the directory, removes the
files of other digests for the same number and flushes again. What has not been flushed when the
process is cut may or may not be there afterwards, each operation by itself.
-/

namespace BirakFormal

open Interruption Prog

/-- A digest with the output size of `md5.Sum`. -/
structure MD5 where
  sum : Bytes → Bytes
  length_sum : ∀ data, (sum data).length = 16

def MD5.hex (md5 : MD5) (data : Bytes) : List Char := (hexEncode (md5.sum data)).toList

theorem MD5.isHexMD5_hex (md5 : MD5) (data : Bytes) : isHexMD5 (md5.hex data) = true := by
  have hlength : (md5.hex data).length = 32 := by
    rw [MD5.hex, hexEncode, String.toList_ofList, List.length_flatMap]
    simp [md5.length_sum]
  have hall : (md5.hex data).all isLowerHex = true := List.all_eq_true.mpr (hexEncode_lower _)
  rw [isHexMD5, hlength, hall]
  rfl

inductive DirOp where
  | rename (name : List Char) (f : StagedFile)
  | remove (name : List Char)
  deriving DecidableEq, Repr

def DirOp.apply (dir : StagingDir) : DirOp → StagingDir
  | rename name f => dir.rename name f
  | remove name => dir.remove name

structure StagingDisk where
  durable : StagingDir
  pending : List DirOp
  deriving DecidableEq, Repr

namespace StagingDisk

def visible (d : StagingDisk) : StagingDir := d.pending.foldl DirOp.apply d.durable

def perform (d : StagingDisk) (op : DirOp) : StagingDisk := { d with pending := d.pending ++ [op] }

def flush (d : StagingDisk) : StagingDisk := ⟨d.visible, []⟩

def Leaves (d : StagingDisk) (dir : StagingDir) : Prop :=
  ∃ kept : List DirOp, kept.Sublist d.pending ∧ dir = kept.foldl DirOp.apply d.durable

@[simp] theorem visible_perform (d : StagingDisk) (op : DirOp) : (d.perform op).visible = op.apply d.visible := by
  simp [visible, perform]

@[simp] theorem visible_flush (d : StagingDisk) : d.flush.visible = d.visible := rfl

end StagingDisk

inductive PartErr where
  | invalidPartNumber
  | badDigest
  | partTooLarge
  | contentSHA256Mismatch
  deriving DecidableEq, Repr

/-- A part as a client sends it. A declared MD5 may be no base64 text; `modTime` is the time of the
scratch file and `now` the time of the answer. -/
structure PartRequest where
  number : Int
  body : Bytes
  contentMD5 : Option (Option Bytes) := none
  contentSHA256 : Option String := none
  modTime : Int := 0
  now : Int := 0
  deriving DecidableEq, Repr

abbrev StagingProg := Prog PartErr StagingDisk

section
variable (md5 : MD5) (sha : Digest) (limits : Limits)

namespace PartRequest

variable (r : PartRequest)

def digest : List Char := md5.hex r.body

def finalName : List Char := partFileName r.number (r.digest md5)

def malformedMD5 : Bool :=
  match r.contentMD5 with
  | none => false
  | some none => true
  | some (some want) => want.length ≠ 16

def otherMD5 : Bool :=
  match r.contentMD5 with
  | some (some want) => want ≠ md5.sum r.body
  | _ => false

def otherSHA256 : Bool :=
  match r.contentSHA256 with
  | some want => want ≠ sha.hash r.body
  | none => false

end PartRequest

/-- Everything before the rename: the slot, the descriptor of the upload, the scratch file, the body,
its flush, the descriptor again under the lock, the fence of the volume and the stat of the
destination, which is the result. -/
def preparePart (r : PartRequest) : StagingProg Bool :=
  if r.number < 1 ∨ limits.maxParts < r.number then raise .invalidPartNumber
  else if r.malformedMD5 then raise .badDigest
  else do
    barrier
    barrier
    barrier
    barrier
    if limits.maxPartBytes < r.body.length then raise .partTooLarge
    else do
      barrier
      barrier
      if r.otherMD5 md5 then raise .badDigest
      else if r.otherSHA256 sha then raise .contentSHA256Mismatch
      else do
        barrier
        barrier
        look fun d => d.visible.any fun e => e.1 = r.finalName md5

/-- `syncDirectory`. -/
def syncStaging : StagingProg Unit := alter StagingDisk.flush

def removeStaged (name : List Char) : StagingProg Unit := alter fun d => d.perform (.remove name)

def supersededPart (number : Int) (keepDigest : List Char) (e : List Char × StagedFile) : Bool :=
  match parsePartFileName e.1 with
  | none => false
  | some (n, digest) => n = number && digest ≠ keepDigest

def removeSupersededParts (number : Int) (keepDigest : List Char) : StagingProg Unit := do
  let entries ← look StagingDisk.visible
  forEach (fun e => onlyIf (supersededPart number keepDigest e) (removeStaged e.1)) entries

def publishPart (r : PartRequest) (existed : Bool) : StagingProg UploadPart := do
  alter fun d => d.perform (.rename (r.finalName md5) ⟨r.body, r.modTime⟩)
  match ← attempt syncStaging with
  | .error e => do
    onlyIf (!existed) (do
      let _ ← attempt (removeStaged (r.finalName md5))
      let _ ← attempt syncStaging
      pure ())
    rethrow e
  | .ok () => do
    removeSupersededParts r.number (r.digest md5)
    syncStaging
    let info ← attempt (look fun d => d.visible.find? fun e => e.1 = r.finalName md5)
    let modTime := match info with
      | .ok (some e) => e.2.modTime
      | _ => r.now
    pure ⟨r.number, r.body.length, r.digest md5, modTime⟩

def writePart (r : PartRequest) : StagingProg UploadPart := do
  let existed ← preparePart md5 sha limits r
  publishPart md5 r existed

end

structure HoldsPart (dir : StagingDir) (n : Int) (etag : List Char) : Prop where
  parsed : parsePartFileName (partFileName n etag) = some (n, etag)
  file : ∃ f, (partFileName n etag, f) ∈ dir
  only : ∀ e ∈ dir, ∀ digest, parsePartFileName e.1 = some (n, digest) → digest = etag

def DirOp.Spares (n : Int) (etag : List Char) : DirOp → Prop
  | rename name _ => ∀ digest, parsePartFileName name = some (n, digest) → digest = etag
  | remove name => name ≠ partFileName n etag

theorem HoldsPart.apply {dir : StagingDir} {n : Int} {etag : List Char} {op : DirOp} (h : HoldsPart dir n etag)
    (hop : op.Spares n etag) : HoldsPart (op.apply dir) n etag := by
  obtain ⟨f, hf⟩ := h.file
  cases op with
  | rename name g =>
    refine ⟨h.parsed, ?_, fun e he => ?_⟩
    · by_cases hname : partFileName n etag = name
      · exact ⟨g, StagingDir.mem_rename.mpr (Or.inl (by rw [hname]))⟩
      · exact ⟨f, StagingDir.mem_rename.mpr (Or.inr ⟨hf, hname⟩)⟩
    · rcases StagingDir.mem_rename.mp he with rfl | ⟨he, -⟩
      · exact hop
      · exact h.only e he
  | remove name =>
    exact ⟨h.parsed, ⟨f, StagingDir.mem_remove.mpr ⟨hf, Ne.symm hop⟩⟩,
      fun e he => h.only e (StagingDir.mem_remove.mp he).1⟩

def Survives (n : Int) (etag : List Char) (d : StagingDisk) : Prop := ∀ dir, d.Leaves dir → HoldsPart dir n etag

section
variable {n : Int} {etag : List Char} {d : StagingDisk}

theorem Survives.visible (h : Survives n etag d) : HoldsPart d.visible n etag :=
  h d.visible ⟨d.pending, List.Sublist.refl _, rfl⟩

theorem Survives.perform (h : Survives n etag d) {op : DirOp} (hop : op.Spares n etag) :
    Survives n etag (d.perform op) := by
  rintro dir ⟨kept, hkept, rfl⟩
  rcases List.sublist_append_iff.mp hkept with ⟨front, back, rfl, hfront, hback⟩
  have hbefore : HoldsPart (front.foldl DirOp.apply d.durable) n etag := h _ ⟨front, hfront, rfl⟩
  rw [List.foldl_append]
  rcases List.sublist_singleton.mp hback with rfl | rfl
  · exact hbefore
  · exact hbefore.apply hop

theorem survives_flushed {dir : StagingDir} (h : HoldsPart dir n etag) : Survives n etag ⟨dir, []⟩ := by
  rintro _ ⟨kept, hkept, rfl⟩
  rw [List.sublist_nil.mp hkept]
  exact h

theorem Survives.flush (h : Survives n etag d) : Survives n etag d.flush := survives_flushed h.visible

end

variable {md5 : MD5} {sha : Digest} {limits : Limits} {r : PartRequest} {n : Int} {etag : List Char}

theorem PartRequest.parse_finalName (hpos : 1 ≤ r.number) (hlt : r.number < 100000) :
    parsePartFileName (r.finalName md5) = some (r.number, r.digest md5) :=
  parsePartFileName_partFileName hpos hlt (md5.isHexMD5_hex r.body)

theorem preparePart_reads : (preparePart md5 sha limits r).Within fun d d' => d' = d := by
  have F := readFrame (σ := StagingDisk)
  unfold preparePart
  split
  · exact F.raise _
  · split
    · exact F.raise _
    · refine F.bind F.barrier fun _ => F.bind F.barrier fun _ => F.bind F.barrier fun _ => F.bind F.barrier fun _ => ?_
      split
      · exact F.raise _
      · refine F.bind F.barrier fun _ => F.bind F.barrier fun _ => ?_
        split
        · exact F.raise _
        · split
          · exact F.raise _
          · exact F.bind F.barrier fun _ => F.bind F.barrier fun _ => F.look _

variable {d : StagingDisk}

theorem preparePart_known : (preparePart md5 sha limits r).Safe (fun _ => True) (fun existed d' =>
      d' = d ∧ 1 ≤ r.number ∧ r.number ≤ limits.maxParts ∧
        existed = d.visible.any fun e => e.1 = r.finalName md5) d := by
  unfold preparePart
  split
  · exact safe_raise trivial
  · next hnumber =>
    split
    · exact safe_raise trivial
    · refine safe_barrier_bind trivial (safe_barrier_bind trivial (safe_barrier_bind trivial
        (safe_barrier_bind trivial ?_)))
      split
      · exact safe_raise trivial
      · refine safe_barrier_bind trivial (safe_barrier_bind trivial ?_)
        split
        · exact safe_raise trivial
        · split
          · exact safe_raise trivial
          · refine safe_barrier_bind trivial (safe_barrier_bind trivial (safe_look trivial ?_))
            exact ⟨rfl, by omega, by omega, rfl⟩

theorem supersededPart_eq {number m : Int} {keep digest : List Char} {e : List Char × StagedFile}
    (h : parsePartFileName e.1 = some (m, digest)) :
    supersededPart number keep e = (decide (m = number) && decide (digest ≠ keep)) := by
  rw [supersededPart, h]

theorem removeSupersededParts_survives (hparsed : parsePartFileName (partFileName n etag) = some (n, etag))
    (hmatch : r.number = n → r.digest md5 = etag) :
    (removeSupersededParts r.number (r.digest md5)).Within fun d d' => Survives n etag d → Survives n etag d' := by
  have F := invariantFrame (Survives n etag)
  refine F.bind (F.look _) fun entries => F.forEach fun e _ => ?_
  unfold onlyIf
  split
  · next hsuperseded =>
    refine F.alter fun d hd => hd.perform fun hname => ?_
    rw [supersededPart_eq (hname ▸ hparsed)] at hsuperseded
    have hcase : n = r.number ∧ etag ≠ r.digest md5 := by simpa using hsuperseded
    exact hcase.2 (hmatch hcase.1.symm).symm
  · exact F.pure ()

variable {existed : Bool}

theorem publishPart_survives (hfinal : parsePartFileName (r.finalName md5) = some (r.number, r.digest md5))
    (hparsed : parsePartFileName (partFileName n etag) = some (n, etag))
    (hmatch : r.number = n → r.digest md5 = etag) (hexisted : existed = false → r.number ≠ n) :
    (publishPart md5 r existed).Within fun d d' => Survives n etag d → Survives n etag d' := by
  have F := invariantFrame (Survives n etag)
  have hsync : (syncStaging : StagingProg Unit).Within fun d d' => Survives n etag d → Survives n etag d' :=
    F.alter fun d hd => hd.flush
  have hrename : (DirOp.rename (r.finalName md5) ⟨r.body, r.modTime⟩).Spares n etag := by
    intro digest hdigest
    rw [hfinal] at hdigest
    obtain ⟨hn, hd⟩ := Prod.mk.inj (Option.some.inj hdigest)
    exact hd ▸ hmatch hn
  refine F.bind (F.alter fun d hd => hd.perform hrename) fun _ => F.bind hsync.attempt fun result => ?_
  cases result with
  | error e =>
    refine F.bind ?_ fun _ => F.rethrow e
    cases existed with
    | true => exact F.pure ()
    | false =>
      refine F.onlyIf (F.bind (Within.attempt (F.alter fun d hd => hd.perform fun hname => ?_)) fun _ =>
        F.bind hsync.attempt fun _ => F.pure ())
      rw [hname, hparsed] at hfinal
      exact hexisted rfl (Prod.mk.inj (Option.some.inj hfinal)).1.symm
  | ok u =>
    exact F.bind (removeSupersededParts_survives hparsed hmatch) fun _ => F.bind hsync fun _ =>
      F.bind (F.look _).attempt fun _ => F.pure _

theorem removeSuperseded_loop {number : Int} {keep : List Char} (entries : StagingDir) (d : StagingDisk) :
    (forEach (fun e => onlyIf (supersededPart number keep e) (removeStaged e.1)) entries).Safe (fun _ => True)
      (fun _ d' => ∀ e, e ∈ d'.visible ↔
        e ∈ d.visible ∧ (supersededPart number keep e = true → ∀ x ∈ entries, x.1 ≠ e.1)) d := by
  induction entries generalizing d with
  | nil => exact safe_pure fun e => ⟨fun he => ⟨he, fun _ x hx => absurd hx List.not_mem_nil⟩, And.left⟩
  | cons x entries ih =>
    refine Safe.bind (R := fun _ d₁ => ∀ e, e ∈ d₁.visible ↔
      e ∈ d.visible ∧ (supersededPart number keep e = true → x.1 ≠ e.1)) ?_ fun _ d₁ hd₁ => ?_
    · dsimp only
      have hname {e : List Char × StagedFile} (h : x.1 = e.1) :
          supersededPart number keep e = supersededPart number keep x := by rw [supersededPart, supersededPart, h]
      cases hx : supersededPart number keep x with
      | true =>
        refine safe_alter trivial fun e => ?_
        rw [StagingDisk.visible_perform]
        refine StagingDir.mem_remove.trans (and_congr_right fun _ => ⟨fun h _ hsame => h hsame.symm, fun h hsame => ?_⟩)
        exact h ((hname hsame.symm).trans hx) hsame.symm
      | false =>
        refine safe_pure fun e => ⟨fun he => ⟨he, fun hsuperseded hsame => ?_⟩, And.left⟩
        rw [hname hsame, hx] at hsuperseded
        cases hsuperseded
    · refine (ih d₁).imp fun _ d₂ hd₂ e => ?_
      rw [hd₂ e, hd₁ e, and_assoc]
      refine and_congr_right fun _ => ?_
      rw [← imp_and, List.forall_mem_cons]

theorem publishPart_leaves : (publishPart md5 r existed).Safe (fun _ => True) (fun p d' =>
      p.number = r.number ∧ p.etag = r.digest md5 ∧ d'.pending = [] ∧
        ∀ e, e ∈ d'.visible ↔ (e = (r.finalName md5, ⟨r.body, r.modTime⟩) ∨ e ∈ d.visible ∧ e.1 ≠ r.finalName md5) ∧
          supersededPart r.number (r.digest md5) e = false) d := by
  refine safe_alter_bind trivial ?_
  refine safe_bind.mpr (safe_attempt ⟨trivial, ?_, ?_⟩)
  · exact Safe.bind (safe_trivial _ _) fun _ _ _ => safe_rethrow trivial
  refine Safe.bind (safe_look_bind trivial (removeSuperseded_loop _ _)) fun _ d₁ hd₁ => ?_
  refine safe_alter_bind trivial (safe_attempt_look_bind trivial ?_ ?_)
  all_goals
    refine safe_pure ⟨rfl, rfl, rfl, fun e => ?_⟩
    rw [StagingDisk.visible_flush, hd₁ e, StagingDisk.visible_flush, StagingDisk.visible_perform]
    refine ⟨fun h => ⟨StagingDir.mem_rename.mp h.1, ?_⟩, fun h => ⟨StagingDir.mem_rename.mpr h.1, fun hs => ?_⟩⟩
    · by_contra hsuperseded
      exact h.2 (by simpa using hsuperseded) e h.1 rfl
    · exact absurd (h.2.symm.trans hs) Bool.false_ne_true

theorem publishPart_holds (hfinal : parsePartFileName (r.finalName md5) = some (r.number, r.digest md5)) :
    (publishPart md5 r existed).Safe (fun _ => True) (fun p d' =>
      p.number = r.number ∧ p.etag = r.digest md5 ∧ Survives r.number (r.digest md5) d') d := by
  refine publishPart_leaves.imp fun p d' h => ⟨h.1, h.2.1, ?_⟩
  obtain ⟨-, -, hpending, hvisible⟩ := h
  have hholds : HoldsPart d'.visible r.number (r.digest md5) := by
    refine ⟨hfinal, ⟨⟨r.body, r.modTime⟩, (hvisible _).mpr ⟨Or.inl rfl, ?_⟩⟩, fun e he digest hparse => ?_⟩
    · have hname : parsePartFileName (partFileName r.number (r.digest md5)) = some (r.number, r.digest md5) := hfinal
      rw [supersededPart_eq hname]
      simp
    · have hnot := ((hvisible e).mp he).2
      rw [supersededPart_eq hparse] at hnot
      simpa using hnot
  rintro dir ⟨kept, hkept, rfl⟩
  rw [hpending, List.sublist_nil] at hkept
  have hdurable : d'.visible = d'.durable := by rw [StagingDisk.visible, hpending, List.foldl_nil]
  rw [hkept, List.foldl_nil, ← hdurable]
  exact hholds

theorem removeSuperseded_returns {number : Int} {keep : List Char} (entries : StagingDir) (d : StagingDisk) :
    (forEach (fun e => onlyIf (supersededPart number keep e) (removeStaged e.1)) entries).Finishes
      (fun _ _ => True) d := by
  induction entries generalizing d with
  | nil => exact finishes_pure trivial
  | cons x entries ih =>
    refine Finishes.bind (R := fun _ _ => True) ?_ fun _ d' _ => ih d'
    dsimp only
    cases supersededPart number keep x with
    | true => exact finishes_alter trivial
    | false => exact finishes_pure trivial

theorem publishPart_returns (existed : Bool) (d : StagingDisk) :
    (publishPart md5 r existed).Finishes (fun _ _ => True) d := by
  refine finishes_alter_bind ?_
  have hsync (d₁ : StagingDisk) : (attempt syncStaging).Finishes (fun result _ => result = .ok ()) d₁ :=
    ⟨.ok (), d₁.flush, rfl, rfl⟩
  refine Finishes.bind (hsync _) ?_
  rintro _ d₂ rfl
  refine Finishes.bind (R := fun _ _ => True) (finishes_look_bind (removeSuperseded_returns _ _)) fun _ d₃ _ => ?_
  refine finishes_alter_bind ?_
  exact ⟨_, _, rfl, trivial⟩

end BirakFormal
