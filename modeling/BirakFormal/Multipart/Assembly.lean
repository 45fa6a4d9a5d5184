import BirakFormal.Multipart.Staging

/-!
# Completing an upload

`CompleteIf` selects the parts that the client names, copies them into a scratch file beside the
destination while it hashes them again, and renames the scratch file over the destination. What
it reads from the staged files is left open, since they may change on the way.
-/

namespace BirakFormal

open Interruption Prog

/-- The volume, the directory of one upload with its descriptor, and the record of its
completion. -/
structure Bench (D : Type) where
  vol : Layered
  staging : StagingDir
  upload : Option Upload
  record : RecordFile D

namespace Bench

variable {D : Type}

def volPart : Part (Bench D) Layered where
  get b := b.vol
  set b w := { b with vol := w }
  get_set _ _ := rfl
  set_set _ _ _ := rfl
  set_get _ := rfl

end Bench

abbrev BenchProg (D : Type) := Prog Err (Bench D)

def onVolume {D α : Type} (p : LayeredProg α) : BenchProg D α := p.zoom Bench.volPart

inductive PartRead where
  | missing
  | unreadable
  | cut
  | copied (data : Bytes)
  deriving DecidableEq, Repr

/-- What the store and its surroundings answer. `reading` is what becomes of the file at the path of a
part, and `now` the time that the scratch file gets. -/
structure CompletionEnv (D : Type) where
  digest : Digest
  md5 : MD5
  lower : Char → Char
  sha256 : List Char → D
  limits : Limits
  destName : Path → Option String
  validDest : Path → Bool
  reading : UploadPart → Option StagedFile → PartRead
  now : Int64

def validUploadID (id : String) : Bool := id.utf8ByteSize = 32 && id.toList.all isLowerHex

def Object.statInfo (o : Object) : StatInfo :=
  match o.body with
  | .file bytes mtime => ⟨true, bytes.length, mtime.toInt⟩
  | _ => ⟨false, 0, 0⟩

namespace Layered

def publishIf (digest : Digest) (precondition : Option (Layered → Except Err Unit)) (o : Object) (dest : Path) :
    LayeredProg Unit :=
  match precondition with
  | none => commit digest (.publish o dest)
  | some judge => do
    recoverJournal digest
    check judge
    commit digest (.publish o dest)

end Layered

section
variable {D : Type} [DecidableEq D] (env : CompletionEnv D)

def copyParts : List UploadPart → Bytes → Bytes → BenchProg D (Except CompleteErr (Bytes × Bytes))
  | [], written, composite => pure (.ok (written, composite))
  | p :: parts, written, composite => do
    match ← attempt (look fun b => b.staging.lookup (partFileName p.number p.etag)) with
    | .error _ => pure (.error .failed)
    | .ok file =>
      match env.reading p file with
      | .missing => pure (.error .invalidPart)
      | .unreadable => pure (.error .failed)
      | .cut => pure (.error .failed)
      | .copied data =>
        if env.md5.hex data ≠ p.etag ∨ (data.length : Int) ≠ p.size then pure (.error .corruptPart)
        else copyParts parts (written ++ data) (composite ++ env.md5.sum data)

def compositeETag (md5 : MD5) (composite : Bytes) (count : Nat) : List Char :=
  md5.hex composite ++ '-' :: itoa count

def publishAssembled (dest : Path) (precondition : Option (Layered → Except Err Unit)) (bytes : Bytes) :
    BenchProg D (Except CompleteErr StatInfo) := do
  match ← attempt (onVolume (Layered.writeTemp bytes env.now 0o600)) with
  | .error _ => pure (.error .failed)
  | .ok tmp => do
    match ← attempt (onVolume (Layered.publishIf env.digest precondition tmp dest)) with
    | .error e => pure (.error (.publish e))
    | .ok () => pure (.ok tmp.statInfo)

/-- The scratch file is created before the parts are copied. It is no part of the volume until it is
published, and its size is what has been written. -/
def assemble (parts : List UploadPart) (wantSize : Int) (dest : Path)
    (precondition : Option (Layered → Except Err Unit)) : BenchProg D (Except CompleteErr (List Char × StatInfo)) := do
  match ← attempt (onVolume (Layered.mkdirSection env.digest dest.dropLast true)) with
  | .error _ => pure (.error .failed)
  | .ok () => do
    match ← attempt barrier with
    | .error _ => pure (.error .failed)
    | .ok () => do
      match ← copyParts env parts [] [] with
      | .error e => pure (.error e)
      | .ok (bytes, composite) =>
        if (bytes.length : Int) ≠ wantSize then pure (.error .failed)
        else do
          match ← publishAssembled env dest precondition bytes with
          | .error e => pure (.error e)
          | .ok info => pure (.ok (compositeETag env.md5 composite parts.length, info))

def Bench.repeated (b : Bench D) (id : String) (want : List CompletePart) (dest : Path) :
    Except CompleteErr CompleteResult :=
  match repeatCompletion env.lower env.sha256 env.destName b.record id want dest
      ((b.vol.disk.tree.lookup dest).map Object.statInfo) with
  | .error e => .error (.retried e)
  | .ok result => .ok result

def settleCompletion (up : Upload) (want : List CompletePart) (dest : Path) (etag : List Char) (info : StatInfo) :
    BenchProg D Unit := do
  let _ ← attempt (alter fun b : Bench D =>
    match recordCompletion env.lower env.sha256 env.destName up want dest etag info with
    | none => b
    | some rec => { b with record := .record rec })
  let entries ← attempt (look fun b : Bench D => b.staging)
  match entries with
  | .error _ => pure ()
  | .ok entries => do
    let _ ← attempt (forEach (fun e => alter fun b : Bench D => { b with staging := b.staging.remove e.1 }) entries)
    let _ ← attempt (alter fun b : Bench D => { b with upload := none })
    pure ()

def completeUpload (up : Upload) (want : List CompletePart) (dest : Path)
    (precondition : Option (Layered → Except Err Unit)) : BenchProg D (Except CompleteErr CompleteResult) := do
  match ← attempt (look fun b => stagedParts b.staging) with
  | .error _ => pure (.error .failed)
  | .ok staged =>
    match checkOrder env.limits 0 want with
    | .error e => pure (.error e)
    | .ok () =>
      match selectParts env.limits staged want 0 with
      | .error e => pure (.error e)
      | .ok (selected, total) => do
        match ← assemble env selected total dest precondition with
        | .error e => pure (.error e)
        | .ok (etag, info) => do
          settleCompletion env up want dest etag info
          pure (.ok { bucket := up.bucket, key := up.key, etag := etag, size := info.size, parts := selected.length,
                      info := info, repeated := false })

def completeIf (id : String) (want : List CompletePart) (dest : Path)
    (precondition : Option (Layered → Except Err Unit)) : BenchProg D (Except CompleteErr CompleteResult) :=
  if !validUploadID id then pure (.error .noSuchUpload)
  else if want = [] then pure (.error .emptyPartList)
  else if !env.validDest dest then pure (.error .destination)
  else do
    match ← attempt (look fun b => b) with
    | .error _ => pure (.error .failed)
    | .ok b =>
      match b.upload with
      | none => pure (b.repeated env id want dest)
      | some up => completeUpload env up want dest precondition

end

variable {want : List CompletePart}

section
variable {limits : Limits} {staged : List UploadPart}

theorem checkOrder_ok {prev : Int} (h : checkOrder limits prev want = .ok ()) :
    (∀ w ∈ want, prev < w.number) ∧ want.Pairwise fun v w => v.number < w.number := by
  induction want generalizing prev with
  | nil => exact ⟨fun w hw => absurd hw List.not_mem_nil, List.Pairwise.nil⟩
  | cons w want ih =>
    unfold checkOrder at h
    split at h
    · cases h
    · split at h
      · cases h
      · next hprev =>
        obtain ⟨hrest, hpairs⟩ := ih h
        refine ⟨fun v hv => ?_, List.pairwise_cons.mpr ⟨hrest, hpairs⟩⟩
        rcases List.mem_cons.mp hv with rfl | hv
        · omega
        · have := hrest v hv
          omega

structure Selected (limits : Limits) (staged : List UploadPart) (want : List CompletePart) (total : Int)
    (selected : List UploadPart) (sum : Int) : Prop where
  named : List.Forall₂ (fun w p => p ∈ staged ∧ p.number = w.number ∧ etagMatches w.etag p.etag = true) want selected
  sum_eq : sum = total + (selected.map UploadPart.size).sum
  large : ∀ p ∈ selected.dropLast, limits.minPartBytes ≤ p.size
  bounded : 0 < limits.maxObjectBytes → selected ≠ [] → sum ≤ limits.maxObjectBytes

theorem selectParts_ok {total sum : Int} {selected : List UploadPart}
    (h : selectParts limits staged want total = .ok (selected, sum)) :
    Selected limits staged want total selected sum := by
  induction want generalizing total selected with
  | nil =>
    obtain ⟨rfl, rfl⟩ := Prod.mk.inj (Except.ok.inj h)
    exact ⟨.nil, by simp, fun p hp => absurd hp List.not_mem_nil, fun _ hne => absurd rfl hne⟩
  | cons w want ih =>
    unfold selectParts at h
    split at h
    · cases h
    · next p hfind =>
      split at h
      · cases h
      · next hmatch =>
        split at h
        · cases h
        · next hsmall =>
          split at h
          · cases h
          · next hlarge =>
            split at h
            · cases h
            · next rest sum' hrest =>
              obtain ⟨rfl, rfl⟩ := Prod.mk.inj (Except.ok.inj h)
              have hsel := ih hrest
              have hnumber : p.number = w.number := by simpa using List.find?_some hfind
              have hlength := hsel.named.length_eq
              refine ⟨.cons ⟨List.mem_of_find?_eq_some hfind, hnumber, by simpa using hmatch⟩ hsel.named, ?_, ?_, ?_⟩
              · rw [hsel.sum_eq, List.map_cons, List.sum_cons]
                omega
              · cases rest with
                | nil => exact fun q hq => absurd hq List.not_mem_nil
                | cons q rest =>
                  intro x hx
                  rw [List.dropLast_cons_cons] at hx
                  rcases List.mem_cons.mp hx with rfl | hx
                  · have hwant : want ≠ [] := by
                      rintro rfl
                      cases hlength
                    by_contra hlt
                    exact hsmall ⟨hwant, by omega⟩
                  · exact hsel.large x hx
              · intro hmax _
                cases rest with
                | nil =>
                  have hsum := hsel.sum_eq
                  simp only [List.map_nil, List.sum_nil] at hsum
                  by_contra hlt
                  exact hlarge ⟨hmax, by omega⟩
                | cons q rest => exact hsel.bounded hmax (List.cons_ne_nil q rest)

end

def CopiedParts (md5 : MD5) (parts : List UploadPart) (datas : List Bytes) : Prop :=
  List.Forall₂ (fun p data => md5.hex data = p.etag ∧ (data.length : Int) = p.size) parts datas

variable {datas : List Bytes}

theorem CopiedParts.sum_size {md5 : MD5} {parts : List UploadPart}
    (h : CopiedParts md5 parts datas) : (parts.map UploadPart.size).sum = (datas.flatten.length : Int) := by
  induction h with
  | nil => rfl
  | cons hpart _ ih => simp [ih, hpart.2]

structure Assembled (md5 : MD5) (limits : Limits) (want : List CompletePart) (datas : List Bytes) : Prop where
  ascending : want.Pairwise fun v w => v.number < w.number
  named : List.Forall₂ (fun w data => etagMatches w.etag (md5.hex data) = true) want datas
  large : ∀ data ∈ datas.dropLast, limits.minPartBytes ≤ (data.length : Int)
  bounded : 0 < limits.maxObjectBytes → (datas.flatten.length : Int) ≤ limits.maxObjectBytes

theorem CopiedParts.dropLast {md5 : MD5} {parts : List UploadPart}
    (h : CopiedParts md5 parts datas) : CopiedParts md5 parts.dropLast datas.dropLast := by
  induction h with
  | nil => exact .nil
  | cons hpart htail ih =>
    cases htail with
    | nil => exact .nil
    | cons hnext hrest => exact .cons hpart ih

theorem forall₂_trans {α β γ : Type} {R : α → β → Prop} {S : β → γ → Prop} {T : α → γ → Prop}
    (h : ∀ x y z, R x y → S y z → T x z) {l : List α} {m : List β} {n : List γ} (hlm : List.Forall₂ R l m)
    (hmn : List.Forall₂ S m n) : List.Forall₂ T l n := by
  induction hlm generalizing n with
  | nil =>
    cases hmn
    exact .nil
  | cons hxy _ ih =>
    cases hmn with
    | cons hyz hrest => exact .cons (h _ _ _ hxy hyz) (ih hrest)

theorem exists_mem_of_forall₂ {α β : Type} {R : α → β → Prop} {l : List α} {m : List β} (h : List.Forall₂ R l m)
    {y : β} (hy : y ∈ m) : ∃ x ∈ l, R x y := by
  induction h with
  | nil => cases hy
  | cons hxy _ ih =>
    rcases List.mem_cons.mp hy with rfl | hy
    · exact ⟨_, List.mem_cons_self, hxy⟩
    · obtain ⟨x, hx, hr⟩ := ih hy
      exact ⟨x, List.mem_cons_of_mem _ hx, hr⟩

theorem Selected.assembled {md5 : MD5} {limits : Limits} {staged : List UploadPart}
    {selected : List UploadPart} {sum : Int} (h : Selected limits staged want 0 selected sum)
    (hwant : want ≠ []) (horder : checkOrder limits 0 want = .ok ()) (hcopied : CopiedParts md5 selected datas) :
    Assembled md5 limits want datas where
  ascending := (checkOrder_ok horder).2
  named := forall₂_trans (fun w p data hp hd => hd.1 ▸ hp.2.2) h.named hcopied
  large data hdata := by
    obtain ⟨p, hp, -, hsize⟩ := exists_mem_of_forall₂ hcopied.dropLast hdata
    rw [hsize]
    exact h.large p hp
  bounded hmax := by
    have hne : selected ≠ [] := by
      rintro rfl
      exact hwant (List.forall₂_nil_right_iff.mp h.named)
    have hsum := h.bounded hmax hne
    rw [h.sum_eq, hcopied.sum_size] at hsum
    omega

section
variable {digest : Digest} {dest : Path} {w w' : Layered}

theorem recoverJournal_settles :
    (Layered.recoverJournal digest).Safe (fun _ => True) (fun _ u => u.disk.journal = none) w := by
  refine safe_look_bind trivial ?_
  cases hj : w.disk.journal with
  | none => exact safe_pure hj
  | some s =>
    have hskip {α : Type} (p : LayeredProg α) (u : Layered) : p.Safe (fun _ => True) (fun _ _ => True) u :=
      safe_trivial p u
    refine Safe.bind (hskip _ _) fun _ _ _ => Safe.bind (hskip _ _) fun _ _ _ => Safe.bind (hskip _ _) fun _ _ _ =>
      Safe.bind (hskip _ _) fun _ _ _ => Safe.bind (hskip _ _) fun _ _ _ => Safe.bind (hskip _ _) fun _ _ _ => ?_
    refine Safe.bind (hskip _ _) fun _ _ _ => Safe.bind (hskip _ _) fun _ u _ => ?_
    have hremove : removeJournal.Safe (fun _ => True) (fun _ d => d.journal = none) u.disk := by
      refine safe_update trivial fun _ d hd => ?_
      split at hd
      · cases hd
      · cases hd
        rfl
    refine (hremove.zoom Layered.diskPart).mono (fun _ _ => trivial) ?_
    rintro _ u ⟨d, rfl, hd⟩
    exact hd

/-- The destination is as it was, once an interrupted replacement has been settled. -/
def DestKept (digest : Digest) (dest : Path) (w w' : Layered) : Prop :=
  ∃ u, (Layered.recoverJournal digest).Stops w u ∧ (w.disk.journal = none → u = w) ∧
    objectBytes w' dest = objectBytes u dest

theorem DestKept.trans {w'' : Layered} (h : DestKept digest dest w w')
    (h' : objectBytes w'' dest = objectBytes w' dest) : DestKept digest dest w w'' := by
  obtain ⟨u, hu, hidle, hbytes⟩ := h
  exact ⟨u, hu, hidle, h'.trans hbytes⟩

theorem recoverJournal_stops (w : Layered) : (Layered.recoverJournal digest).Safe (DestKept digest dest w)
      (fun _ u => DestKept digest dest w u ∧ u.disk.journal = none) w := by
  have hidle {u : Layered} (hu : (Layered.recoverJournal digest).Stops w u) (hj : w.disk.journal = none) : u = w :=
    (recoverJournal_idle (J := fun u => u = w) hj rfl).stops (fun _ _ => id) hu
  have hreached := (sat_reached (Layered.recoverJournal digest) w).and recoverJournal_settles
  have hkept {u : Layered} (hu : (Layered.recoverJournal digest).Stops w u) : DestKept digest dest w u :=
    ⟨u, hu, hidle hu, rfl⟩
  refine hreached.mono (fun u hu => hkept hu.1) (fun _ u hu => hkept hu.1) fun _ u hu => ⟨hkept ?_, hu.2⟩
  obtain ⟨fs, hfs⟩ := hu.1
  exact ⟨fs, congrArg Prod.snd hfs⟩

theorem bounded_of_no_journal {reg : Path → Prop} (hj : w.disk.journal = none) : w.disk.Bounded reg := by
  intro s hs
  rw [hj] at hs
  cases hs

theorem mkdirSection_keeps_dest (p : Path) (w : Layered) :
    (Layered.mkdirSection digest p true).Safe (DestKept digest dest w)
      (fun _ u => DestKept digest dest w u ∧ u.disk.Bounded (· ≠ dest)) w := by
  refine Safe.bind (recoverJournal_stops w) fun _ u hu => ?_
  have hbounded : u.disk.Bounded (· ≠ dest) := bounded_of_no_journal hu.2
  have hsame {u' : Layered} (h : SameObjects (· ≠ dest) u u') :
      DestKept digest dest w u' ∧ u'.disk.Bounded (· ≠ dest) :=
    ⟨hu.1.trans ((h hbounded).2 dest fun hne => hne rfl), (h hbounded).1⟩
  exact (makeDir_sameObjects p u).mono (fun u' h => (hsame h).1) fun _ u' h => hsame h

def PublishedOr (dest : Path) (bytes : Bytes) (w w' : Layered) : Prop :=
  w.disk.Bounded (· ≠ dest) → w'.disk.Bounded (· ≠ dest) ∧
    (objectBytes w' dest = objectBytes w dest ∨ objectBytes w' dest = some bytes)

theorem publishedOrFrame (dest : Path) (bytes : Bytes) : Frame (PublishedOr dest bytes) where
  refl _ hb := ⟨hb, Or.inl rfl⟩
  trans h h' hb := by
    obtain ⟨hb₁, h₁⟩ := h hb
    obtain ⟨hb₂, h₂⟩ := h' hb₁
    refine ⟨hb₂, ?_⟩
    rcases h₂ with h₂ | h₂
    · rw [h₂]
      exact h₁
    · exact Or.inr h₂

variable {bytes : Bytes}

theorem ConfinedTo.publishedOr (h : ConfinedTo (· ≠ dest) w w') : PublishedOr dest bytes w w' := by
  intro hb
  obtain ⟨hb', hlook⟩ := h hb
  refine ⟨hb', Or.inl ?_⟩
  rw [objectBytes, objectBytes, hlook dest fun h => h rfl]

variable {o : Object}

theorem publish_publishedOr (ho : o.content = some bytes) :
    (Layered.publish o dest).Within (PublishedOr dest bytes) := by
  have F := publishedOrFrame dest bytes
  refine F.bind (F.check _) fun _ => F.bind ?_ fun _ => (syncParents_confined _).mono fun _ _ => ConfinedTo.publishedOr
  refine F.update fun w u w' h => ?_
  split at h
  · cases h
  · cases h
    refine fun hb => ⟨fun s hs => hb s hs, Or.inr ?_⟩
    show (if dest = dest then some o else w.disk.tree.lookup dest).bind Object.content = some bytes
    rw [if_pos rfl]
    exact ho

theorem commit_publishedOr (ho : o.content = some bytes) :
    (Layered.commit digest (.publish o dest)).Within (PublishedOr dest bytes) := by
  have F := publishedOrFrame dest bytes
  have hrecover : (Layered.recoverJournal digest).Within (PublishedOr dest bytes) :=
    recoverJournal_confined.mono fun _ _ => ConfinedTo.publishedOr
  have hrun : (Change.run digest (.publish o dest)).Within (PublishedOr dest bytes) := publish_publishedOr ho
  refine F.bind hrecover fun _ => F.bind F.barrier fun _ => F.bind F.barrier fun _ => F.bind ?_ fun r => ?_
  · refine F.bind hrun.attempt fun r => ?_
    cases r with
    | ok u => exact F.pure _
    | error e => exact F.bind hrecover fun _ => F.pure _
  · refine F.bind F.barrier fun _ => ?_
    cases r with
    | ok u => exact F.pure ()
    | error e => exact F.rethrow e

theorem publishIf_publishedOr (ho : o.content = some bytes) (precondition : Option (Layered → Except Err Unit)) :
    (Layered.publishIf digest precondition o dest).Within (PublishedOr dest bytes) := by
  have F := publishedOrFrame dest bytes
  cases precondition with
  | none => exact commit_publishedOr ho
  | some judge =>
    exact F.bind (recoverJournal_confined.mono fun _ _ => ConfinedTo.publishedOr) fun _ =>
      F.bind (F.check judge) fun _ => commit_publishedOr ho

theorem publish_present (ho : o.content = some bytes) :
    (Layered.publish o dest).Safe (fun _ => True) (fun _ u => objectBytes u dest = some bytes) w := by
  refine Safe.bind (safe_trivial _ _) fun _ w₁ _ => Safe.bind (R := fun _ u => objectBytes u dest = some bytes) ?_
    fun _ u hu => ?_
  · refine safe_update trivial fun _ u h => ?_
    split at h
    · cases h
    · cases h
      show (if dest = dest then some o else w₁.disk.tree.lookup dest).bind Object.content = some bytes
      rw [if_pos rfl]
      exact ho
  · have F := invariantFrame fun u : Layered => objectBytes u dest = some bytes
    have hsync : (Layered.syncParents dest.dropLast).Within fun u u' : Layered =>
        objectBytes u dest = some bytes → objectBytes u' dest = some bytes :=
      F.forEach fun dir _ => F.alter fun u h => h
    exact (hsync u).mono (fun _ _ => trivial) fun _ u' h => h hu

theorem commit_present (ho : o.content = some bytes) :
    (Layered.commit digest (.publish o dest)).Safe (fun _ => True)
      (fun _ u => objectBytes u dest = some bytes) w := by
  have hskip {α : Type} (p : LayeredProg α) (u : Layered) : p.Safe (fun _ => True) (fun _ _ => True) u :=
    safe_trivial p u
  refine Safe.bind (hskip _ _) fun _ _ _ => Safe.bind (hskip _ _) fun _ _ _ => Safe.bind (hskip _ _) fun _ w₁ _ => ?_
  -- An error of the change is kept until the result has been indexed.
  refine Safe.bind (R := fun r u => r = .ok () → objectBytes u dest = some bytes) ?_ fun r u hr => ?_
  · refine Safe.bind (publish_present ho).attempt fun r u hu => ?_
    cases r with
    | ok v => exact safe_pure fun _ => hu
    | error e => exact Safe.bind (hskip _ _) fun _ _ _ => safe_pure nofun
  · refine safe_barrier_bind trivial ?_
    cases r with
    | ok v => exact safe_pure (hr rfl)
    | error e => exact safe_rethrow trivial

theorem publishIf_present (ho : o.content = some bytes) (precondition : Option (Layered → Except Err Unit)) :
    (Layered.publishIf digest precondition o dest).Safe (fun _ => True)
      (fun _ u => objectBytes u dest = some bytes) w := by
  cases precondition with
  | none => exact commit_present ho
  | some judge =>
    exact Safe.bind (safe_trivial _ _) fun _ _ _ => Safe.bind (safe_trivial _ _) fun _ _ _ => commit_present ho

theorem writeTemp_makes (bytes : Bytes) (mtime : Int64) (perm : Nat) (w : Layered) :
    (Layered.writeTemp bytes mtime perm).Safe (fun u => u.disk = w.disk)
      (fun o u => u.disk = w.disk ∧ o.body = .file bytes mtime) w := by
  refine Safe.bind (R := fun _ u => u.disk = w.disk) (safe_update rfl fun i u h => ?_) fun i u hu => ?_
  · cases h
    rfl
  · refine Safe.bind (R := fun _ u => u.disk = w.disk) (safe_alter hu hu) fun _ u hu => ?_
    exact safe_pure ⟨hu, rfl⟩

end

section
variable {D : Type} {env : CompletionEnv D} {dest : Path} {b : Bench D}

theorem sat_onVolume {α β : Type} {p : LayeredProg α} {J : Layered → Prop} {Q : α → Layered → Prop}
    {k : Except (Failure Err) α → BenchProg D β} {cut : Bench D → Prop} {err : Failure Err → Bench D → Prop}
    {ok : β → Bench D → Prop} (h : p.Safe J Q b.vol) (hcut : ∀ w, J w → cut { b with vol := w })
    (herr : ∀ e w, J w → (k (.error e)).Sat cut err ok { b with vol := w })
    (hok : ∀ a w, Q a w → (k (.ok a)).Sat cut err ok { b with vol := w }) :
    (attempt (onVolume p) >>= k).Sat cut err ok b := by
  refine sat_bind.mpr (sat_attempt.mpr (Sat.mono (Safe.zoom Bench.volPart h) ?_ ?_ ?_))
  · rintro _ ⟨w, rfl, hw⟩
    exact hcut w hw
  · rintro e _ ⟨w, rfl, hw⟩
    exact herr e w hw
  · rintro a _ ⟨w, rfl, hw⟩
    exact hok a w hw

variable {parts : List UploadPart}

theorem copyParts_sat {written composite : Bytes} {cut : Bench D → Prop} (hcut : cut b) :
    (copyParts env parts written composite).Sat cut (fun _ _ => False) (fun reply b' => b' = b ∧
      ∀ bytes sums, reply = .ok (bytes, sums) → ∃ datas, CopiedParts env.md5 parts datas ∧
        bytes = written ++ datas.flatten ∧ sums = composite ++ (datas.map env.md5.sum).flatten) b := by
  induction parts generalizing written composite with
  | nil =>
    refine ⟨rfl, fun bytes sums h => ⟨[], .nil, ?_⟩⟩
    obtain ⟨rfl, rfl⟩ := Prod.mk.inj (Except.ok.inj h)
    simp
  | cons p parts ih =>
    refine sat_bind.mpr (sat_attempt.mpr ⟨hcut, ⟨rfl, nofun⟩, ?_⟩)
    show Sat _ _ _ (match env.reading p _ with
      | .missing => _
      | .unreadable => _
      | .cut => _
      | .copied data => _) b
    split
    · exact ⟨rfl, nofun⟩
    · exact ⟨rfl, nofun⟩
    · exact ⟨rfl, nofun⟩
    · next data _ =>
      split
      · exact ⟨rfl, nofun⟩
      · next hgood =>
        push Not at hgood
        refine (@ih (written ++ data) (composite ++ env.md5.sum data)).mono (fun _ => id) (fun _ _ => id)
          fun reply b' h => ⟨h.1, fun bytes sums hreply => ?_⟩
        obtain ⟨datas, hcopied, hbytes, hsums⟩ := h.2 bytes sums hreply
        exact ⟨data :: datas, .cons hgood hcopied, by simp [hbytes], by simp [hsums]⟩

def AssemblySettled (env : CompletionEnv D) (parts : List UploadPart) (dest : Path) (b b' : Bench D) : Prop :=
  b' = { b with vol := b'.vol } ∧ (DestKept env.digest dest b.vol b'.vol ∨
    ∃ datas, CopiedParts env.md5 parts datas ∧ objectBytes b'.vol dest = some datas.flatten)

structure Finished (env : CompletionEnv D) (parts : List UploadPart) (dest : Path) (b b' : Bench D) (etag : List Char)
    (info : StatInfo) (datas : List Bytes) : Prop where
  same : b' = { b with vol := b'.vol }
  copied : CopiedParts env.md5 parts datas
  present : objectBytes b'.vol dest = some datas.flatten
  etag_eq : etag = compositeETag env.md5 (datas.map env.md5.sum).flatten parts.length
  size_eq : info.size = datas.flatten.length

variable {precondition : Option (Layered → Except Err Unit)}

theorem publishAssembled_sat {b₁ : Bench D} (hcopied : CopiedParts env.md5 parts datas)
    (hb₁ : b₁ = { b with vol := b₁.vol }) (hkept : DestKept env.digest dest b.vol b₁.vol)
    (hbounded : b₁.vol.disk.Bounded (· ≠ dest)) :
    (publishAssembled env dest precondition datas.flatten).Sat (AssemblySettled env parts dest b) (fun _ _ => False)
      (fun reply b' => AssemblySettled env parts dest b b' ∧ ∀ info, reply = .ok info →
        b' = { b with vol := b'.vol } ∧ objectBytes b'.vol dest = some datas.flatten ∧
          info.size = (datas.flatten.length : Int)) b₁ := by
  have hsettled {w : Layered} (h : objectBytes w dest = objectBytes b₁.vol dest ∨
      objectBytes w dest = some datas.flatten) : AssemblySettled env parts dest b { b₁ with vol := w } := by
    refine ⟨by rw [hb₁], ?_⟩
    rcases h with h | h
    · exact Or.inl (hkept.trans h)
    · exact Or.inr ⟨datas, hcopied, h⟩
  have hsame {w : Layered} (hw : w.disk = b₁.vol.disk) : objectBytes w dest = objectBytes b₁.vol dest := by
    rw [objectBytes, objectBytes, hw]
  refine sat_onVolume (writeTemp_makes datas.flatten env.now 0o600 b₁.vol) ?_ ?_ ?_
  · exact fun w hw => hsettled (Or.inl (hsame hw))
  · exact fun e w hw => ⟨hsettled (Or.inl (hsame hw)), by simp⟩
  · rintro tmp w ⟨hw, hbody⟩
    have ho : tmp.content = some datas.flatten := by rw [Object.content, hbody]
    have hb : w.disk.Bounded (· ≠ dest) := hw ▸ hbounded
    have hpublish : (Layered.publishIf env.digest precondition tmp dest).Safe (PublishedOr dest datas.flatten w)
        (fun _ u => PublishedOr dest datas.flatten w u ∧ objectBytes u dest = some datas.flatten) w :=
      (publishIf_publishedOr ho precondition).along (publishIf_present ho precondition)
    have hinto {w' : Layered} (h : PublishedOr dest datas.flatten w w') :
        AssemblySettled env parts dest b { b₁ with vol := w' } :=
      hsettled ((h hb).2.imp_left fun h => h.trans (hsame hw))
    refine sat_onVolume (b := { b₁ with vol := w }) hpublish ?_ ?_ ?_
    · exact fun w' hw' => hinto hw'
    · exact fun e w' hw' => ⟨hinto hw', by simp⟩
    · rintro u w' ⟨hw', hpresent⟩
      refine ⟨hinto hw', fun info hinfo => ?_⟩
      obtain rfl := Except.ok.inj hinfo
      refine ⟨by rw [hb₁], hpresent, ?_⟩
      rw [Object.statInfo, hbody]

theorem assemble_sat {wantSize : Int} :
    (assemble env parts wantSize dest precondition).Sat (AssemblySettled env parts dest b) (fun _ _ => False)
      (fun reply b' => AssemblySettled env parts dest b b' ∧ ∀ etag info, reply = .ok (etag, info) →
        ∃ datas, Finished env parts dest b b' etag info datas) b := by
  have hkept {w : Layered} (h : DestKept env.digest dest b.vol w) : AssemblySettled env parts dest b { b with vol := w } :=
    ⟨rfl, Or.inl h⟩
  have hmkdir : (Layered.mkdirSection env.digest dest.dropLast true).Safe (DestKept env.digest dest b.vol)
      (fun _ u => DestKept env.digest dest b.vol u ∧ u.disk.Bounded (· ≠ dest)) b.vol :=
    mkdirSection_keeps_dest dest.dropLast b.vol
  refine sat_onVolume hmkdir ?_ ?_ ?_
  · exact fun w hw => hkept hw
  · exact fun e w hw => ⟨hkept hw, nofun⟩
  rintro u w ⟨hw, hbounded⟩
  refine sat_bind.mpr (sat_attempt.mpr ⟨hkept hw, ⟨hkept hw, nofun⟩, ?_⟩)
  refine sat_bind.mpr ((copyParts_sat (hkept hw)).mono (fun _ => id) (fun _ _ => id) ?_)
  rintro reply _ ⟨rfl, hreply⟩
  cases reply with
  | error e => exact ⟨hkept hw, nofun⟩
  | ok r =>
    obtain ⟨bytes, composite⟩ := r
    obtain ⟨datas, hcopied, rfl, rfl⟩ := hreply bytes composite rfl
    dsimp only
    split
    · exact ⟨hkept hw, nofun⟩
    · refine sat_bind.mpr ((publishAssembled_sat hcopied rfl hw hbounded).mono (fun _ => id) (fun _ _ => id) ?_)
      rintro reply b' ⟨hsettled, hok⟩
      cases reply with
      | error e => exact ⟨hsettled, nofun⟩
      | ok info =>
        obtain ⟨hsame, hpresent, hsize⟩ := hok info rfl
        refine ⟨hsettled, fun etag info' h => ⟨datas, ?_⟩⟩
        obtain ⟨rfl, rfl⟩ := Prod.mk.inj (Except.ok.inj h)
        exact ⟨hsame, hcopied, hpresent, rfl, hsize⟩

theorem settleCompletion_sat {up : Upload} {etag : List Char} {info : StatInfo} :
    (settleCompletion env up want dest etag info).Sat (fun b' => b'.vol = b.vol) (fun _ _ => False)
      (fun _ b' => b'.vol = b.vol) b := by
  have F : Frame fun b b' : Bench D => b'.vol = b.vol := ⟨fun _ => rfl, fun h h' => h'.trans h⟩
  have hattempt {α : Type} {p : BenchProg D α} (h : p.Within fun b b' => b'.vol = b.vol) {b₁ : Bench D}
      (hb₁ : b₁.vol = b.vol) :
      p.attempt.Sat (fun b' => b'.vol = b.vol) (fun _ _ => False) (fun _ b' => b'.vol = b.vol) b₁ :=
    sat_attempt.mpr ((h b₁).mono (fun _ hb => hb.trans hb₁) fun _ _ hb => hb.trans hb₁)
  have hrecord : (alter fun b : Bench D =>
      match recordCompletion env.lower env.sha256 env.destName up want dest etag info with
      | none => b
      | some rec => { b with record := .record rec } : BenchProg D Unit).Within fun b b' => b'.vol = b.vol := by
    refine F.alter fun b₁ => ?_
    split <;> rfl
  refine sat_bind.mpr ((hattempt hrecord rfl).mono (fun _ => id) (fun _ _ => id) fun _ b₁ hb₁ => ?_)
  refine sat_bind.mpr ((hattempt (F.look _) hb₁).mono (fun _ => id) (fun _ _ => id) fun entries b₂ hb₂ => ?_)
  cases entries with
  | error e => exact hb₂
  | ok entries =>
    have hremove : (forEach (fun e => alter fun b : Bench D => { b with staging := b.staging.remove e.1 }) entries :
        BenchProg D Unit).Within fun b b' => b'.vol = b.vol := by
      refine F.forEach fun e _ => F.alter ?_
      intro b₃
      rfl
    have hdescriptor : (alter fun b : Bench D => { b with upload := none } : BenchProg D Unit).Within
        fun b b' => b'.vol = b.vol := by
      refine F.alter ?_
      intro b₃
      rfl
    refine sat_bind.mpr ((hattempt hremove hb₂).mono (fun _ => id) (fun _ _ => id) fun _ b₃ hb₃ => ?_)
    exact sat_bind.mpr ((hattempt hdescriptor hb₃).mono (fun _ => id) (fun _ _ => id) fun _ b₄ hb₄ => hb₄)

def DestWhole (env : CompletionEnv D) (want : List CompletePart) (dest : Path) (b b' : Bench D) : Prop :=
  DestKept env.digest dest b.vol b'.vol ∨
    ∃ datas, Assembled env.md5 env.limits want datas ∧ objectBytes b'.vol dest = some datas.flatten

structure CompletionRefused (env : CompletionEnv D) (want : List CompletePart) (dest : Path) (b b' : Bench D) :
    Prop where
  staging : b'.staging = b.staging
  upload : b'.upload = b.upload
  dest : DestWhole env want dest b b'

structure CompletionPublished (env : CompletionEnv D) (want : List CompletePart) (dest : Path) (b' : Bench D)
    (result : CompleteResult) (datas : List Bytes) : Prop where
  assembled : Assembled env.md5 env.limits want datas
  present : objectBytes b'.vol dest = some datas.flatten
  size_eq : result.size = datas.flatten.length
  etag_eq : result.etag = compositeETag env.md5 (datas.map env.md5.sum).flatten want.length
  parts_eq : result.parts = want.length

def CompletionReply (env : CompletionEnv D) (want : List CompletePart) (dest : Path) (b : Bench D)
    (reply : Except CompleteErr CompleteResult) (b' : Bench D) : Prop :=
  match reply with
  | .error _ => CompletionRefused env want dest b b'
  | .ok result => result.repeated = false → ∃ datas, CompletionPublished env want dest b' result datas

theorem destKept_self (digest : Digest) (w : Layered) : DestKept digest dest w w := by
  refine ⟨w, ⟨[.crash], rfl⟩, fun _ => rfl, rfl⟩

theorem completionRefused_self (want : List CompletePart) : CompletionRefused env want dest b b :=
  ⟨rfl, rfl, Or.inl (destKept_self _ _)⟩

theorem completeUpload_sat {up : Upload} (hwant : want ≠ [])
    :
    (completeUpload env up want dest precondition).Sat (DestWhole env want dest b) (fun _ _ => False)
      (CompletionReply env want dest b) b := by
  have hself : DestWhole env want dest b b := Or.inl (destKept_self _ _)
  refine sat_bind.mpr (sat_attempt.mpr ⟨hself, completionRefused_self want, ?_⟩)
  show Sat _ _ _ (match checkOrder env.limits 0 want with
    | .error e => _
    | .ok () => _) b
  cases horder : checkOrder env.limits 0 want with
  | error e => exact completionRefused_self want
  | ok u =>
    cases hselect : selectParts env.limits (stagedParts b.staging) want 0 with
    | error e => exact completionRefused_self want
    | ok r =>
      obtain ⟨selected, total⟩ := r
      have hselected := selectParts_ok hselect
      have hlength : selected.length = want.length := hselected.named.length_eq.symm
      have hwhole {b' : Bench D} (h : AssemblySettled env selected dest b b') : DestWhole env want dest b b' :=
        h.2.imp_right fun ⟨datas, hcopied, hpresent⟩ => ⟨datas, hselected.assembled hwant horder hcopied, hpresent⟩
      refine sat_bind.mpr (assemble_sat.mono (fun _ => hwhole) (fun _ _ => id) ?_)
      rintro reply b₁ ⟨hsettled, hok⟩
      cases reply with
      | error e =>
        have hsame := hsettled.1
        exact ⟨by rw [hsame], by rw [hsame], hwhole hsettled⟩
      | ok r =>
        obtain ⟨etag, info⟩ := r
        obtain ⟨datas, hfinished⟩ := hok etag info rfl
        have hassembled := hselected.assembled hwant horder hfinished.copied
        have hpresent {b' : Bench D} (h : b'.vol = b₁.vol) : objectBytes b'.vol dest = some datas.flatten := by
          rw [h]
          exact hfinished.present
        refine sat_bind.mpr (settleCompletion_sat.mono (fun b' hb' => Or.inr ⟨datas, hassembled, hpresent hb'⟩)
          (fun _ _ => id) fun _ b' hb' _ => ⟨datas, hassembled, hpresent hb', hfinished.size_eq, ?_, hlength⟩)
        rw [← hlength]
        exact hfinished.etag_eq

/-- A completion that returns a result of its own has published exactly the parts that were named;
one that returns an error has left the staged parts alone, and the destination as it was or with the
whole object, which is also what a crash leaves. -/
theorem completion_whole_or_kept [DecidableEq D] (env : CompletionEnv D) (id : String) (want : List CompletePart)
    (dest : Path) (precondition : Option (Layered → Except Err Unit)) (b : Bench D) (fs : List Fault) :
    match (completeIf env id want dest precondition).run fs b with
    | (.returned (.ok reply), b') => CompletionReply env want dest b reply b'
    | (.returned (.error _), b') => CompletionRefused env want dest b b'
    | (.crashed, b') => DestWhole env want dest b b' := by
  have hsat : (completeIf env id want dest precondition).Sat (DestWhole env want dest b) (fun _ _ => False)
      (CompletionReply env want dest b) b := by
    unfold completeIf
    split
    · exact completionRefused_self want
    · split
      · exact completionRefused_self want
      · next hwant =>
        split
        · exact completionRefused_self want
        · refine sat_bind.mpr (sat_attempt.mpr ⟨Or.inl (destKept_self _ _), completionRefused_self want, ?_⟩)
          show Sat _ _ _ (match b.upload with
            | none => _
            | some up => _) b
          cases b.upload with
          | some up => exact completeUpload_sat hwant
          | none =>
            show CompletionReply env want dest b (b.repeated env id want dest) b
            unfold Bench.repeated
            split
            · exact completionRefused_self want
            · next result hrepeat =>
              intro hnew
              exact absurd (hnew.symm.trans (repeated_of_repeatCompletion hrepeat)) Bool.false_ne_true
  have hrun := hsat.run fs
  revert hrun
  generalize (completeIf env id want dest precondition).run fs b = r
  match r with
  | (.returned (.ok reply), b') => exact fun h => h
  | (.returned (.error e), b') => exact False.elim
  | (.crashed, b') => exact fun h => h

end

def plainMD5 : MD5 := ⟨fun data => (data ++ List.replicate 16 0).take 16, fun data => by simp⟩

def emptyVolume : Layered where
  disk := { tree := .empty }
  links _ _ := none
  contents _ := none
  next := 1

def readStaged (_ : UploadPart) : Option StagedFile → PartRead
  | none => .missing
  | some f => .copied f.bytes

def plainEnv : CompletionEnv (List Char) where
  digest := sha256
  md5 := plainMD5
  lower := Char.toLower
  sha256 := id
  limits := ⟨1, 100, 10, 100⟩
  destName p := some p.text
  validDest _ := true
  reading := readStaged
  now := 5

def plainID : String := "00000000000000000000000000000000"

def twoPartsBench : Bench (List Char) where
  vol := emptyVolume
  staging := [(partFileName 1 (plainMD5.hex [7]), ⟨[7], 0⟩), (partFileName 2 (plainMD5.hex [8]), ⟨[8], 0⟩)]
  upload := some ⟨plainID, "bucket", "key"⟩
  record := .missing

def twoParts : List CompletePart := [⟨1, plainMD5.hex [7]⟩, ⟨2, plainMD5.hex [8]⟩]

def twoPartsResult : CompleteResult :=
  ⟨"bucket", "key", compositeETag plainMD5 (plainMD5.sum [7] ++ plainMD5.sum [8]) 2, 2, 2, ⟨true, 2, 5⟩, false⟩

theorem completion_whole_or_kept_two :
    ∃ b', (completeIf plainEnv plainID twoParts ["bucket", "key"] none).run [] twoPartsBench =
        (.returned (.ok (.ok twoPartsResult)), b') ∧
      ∃ datas, CompletionPublished plainEnv twoParts ["bucket", "key"] b' twoPartsResult datas := by
  have hreply : ((completeIf plainEnv plainID twoParts ["bucket", "key"] none).run [] twoPartsBench).1 =
      .returned (.ok (.ok twoPartsResult)) := by decide +kernel
  have hwhole := completion_whole_or_kept plainEnv plainID twoParts ["bucket", "key"] none twoPartsBench []
  revert hreply hwhole
  generalize (completeIf plainEnv plainID twoParts ["bucket", "key"] none).run [] twoPartsBench = r
  rintro hreply hwhole
  obtain ⟨outcome, b'⟩ := r
  obtain rfl : outcome = .returned (.ok (.ok twoPartsResult)) := hreply
  exact ⟨b', rfl, hwhole rfl⟩

end BirakFormal
