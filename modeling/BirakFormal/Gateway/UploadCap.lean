import BirakFormal.Gateway.Sftp
import BirakFormal.Store.Sha256

/-!
# The upload cap of an SFTP session

A write never ends past the cap: where the signed sum of its offset and length wraps around, the
offset is outside the range of a file. So a staged generation is at most as large as the cap or
as the generation it was opened on, as long as no packet asks for a larger size by attribute.
-/

namespace BirakFormal

open Interruption Prog Subtrees

def sizeAt (w : Layered) (p : Path) : Nat := ((w.disk.tree.lookup p).map Object.size).getD 0

theorem length_resize (bytes : Bytes) (n : Nat) : (Layered.resize bytes n).length = n := by
  unfold Layered.resize
  rw [List.length_append, List.length_take, List.length_replicate]
  omega

theorem length_overwrite_le (bytes : Bytes) (pos : Nat) (data : Bytes) :
    (overwrite bytes pos data).length ≤ max bytes.length (pos + data.length) := by
  unfold overwrite
  split
  · exact Nat.le_max_left _ _
  · rw [List.length_append, List.length_append, List.length_take, List.length_append, List.length_replicate,
      List.length_drop]
    omega

theorem size_of_sameGeneration {a b : Object} (h : Layered.sameGeneration a b = true) : a.size = b.size := by
  unfold Layered.sameGeneration at h
  unfold Object.size
  simp only [Bool.and_eq_true] at h
  obtain ⟨-, hbody⟩ := h
  split at hbody
  · next ha hb => rw [ha, hb]
  · next ha hb =>
    rw [ha, hb]
    exact of_decide_eq_true (Bool.and_eq_true _ _ ▸ hbody).1
  · next ha hb => rw [ha, hb]
  · next ha hb => rw [ha, hb]
  · cases hbody

theorem size_setPerm (perm : Nat) (o : Object) : (Layered.setPerm perm o).size = o.size := rfl

theorem size_setTime (mtime : Int64) (o : Object) : (Layered.setTime mtime o).size = o.size := by
  unfold Layered.setTime
  split
  · next bytes time h => simp [Object.size, h]
  · rfl

theorem size_truncate_le (n : Nat) (o : Object) : (o.truncate n).size ≤ n := by
  unfold Object.truncate
  split
  · exact (length_resize _ n).le
  · next h =>
    unfold Object.size
    split
    · next bytes mtime hb => exact absurd hb (h bytes mtime)
    · exact Nat.zero_le n

variable {offset : UInt64} {data : Bytes}

theorem end_le_of_not_exceedsCap {cfg : SftpConfig} (hmax : 0 < cfg.maxUploadBytes)
    (hcap : exceedsCap cfg offset data = false) (hpos : ¬ offset.toInt64 < 0)
    (hrange : offset.toInt64.toInt.toNat + data.length ≤ cfg.fileLimit) :
    offset.toInt64.toInt.toNat + data.length ≤ cfg.maxUploadBytes.toInt.toNat := by
  have hlimit := cfg.limit_lt
  unfold exceedsCap at hcap
  generalize offset.toInt64 = pos at *
  have hnonneg : 0 ≤ pos.toInt := by
    rw [Int64.lt_iff_toInt_lt] at hpos
    simpa using hpos
  have hlen : (Int64.ofNat data.length).toInt = data.length := Int64.toInt_ofNat_of_lt (by omega)
  have hsum : (pos + Int64.ofNat data.length).toInt = pos.toInt + data.length := by
    rw [Int64.toInt_add, hlen]
    exact Int.bmod_eq_of_le (by omega) (by omega)
  rw [decide_eq_true hmax, Bool.true_and, decide_eq_false_iff_not, Int64.lt_iff_toInt_lt, hsum] at hcap
  omega

def Capped (m : Nat) (w w' : Layered) : Prop :=
  w.disk.journal = none → w'.disk.journal = none ∧ ∀ p, sizeAt w' p ≤ max m (sizeAt w p)

theorem cappedFrame (m : Nat) : Frame (Capped m) where
  refl _ hj := ⟨hj, fun _ => Nat.le_max_right _ _⟩
  trans h h' hj := by
    obtain ⟨hj₁, h₁⟩ := h hj
    obtain ⟨hj₂, h₂⟩ := h' hj₁
    refine ⟨hj₂, fun p => ?_⟩
    have := h₁ p
    have := h₂ p
    omega

variable {f : Object → Object}

section
variable {m : Nat} {digest : Digest} {w : Layered}

theorem capped_same {w' : Layered} (h : w'.disk.tree = w.disk.tree) (hj : w'.disk.journal = w.disk.journal) :
    Capped m w w' := by
  intro hnone
  refine ⟨hj.trans hnone, fun p => ?_⟩
  rw [sizeAt, sizeAt, h]
  exact Nat.le_max_right _ _

theorem capped_put {p : Path} {o : Object} (h : o.size ≤ max m (sizeAt w p)) :
    Capped m w { w with disk := { w.disk with tree := w.disk.tree.put p o } } := by
  refine fun hj => ⟨hj, fun q => ?_⟩
  unfold sizeAt
  change (Option.map Object.size (if q = p then some o else w.disk.tree.lookup q)).getD 0 ≤ _
  split
  · next hq => rw [hq]; exact h
  · exact Nat.le_max_right _ _

theorem sizeAt_of_lookup {p : Path} {o : Object} (h : w.disk.tree.lookup p = some o) : sizeAt w p = o.size := by
  rw [sizeAt, h]
  rfl

theorem recoverJournal_capped : (Layered.recoverJournal digest).Within (Capped m) := by
  intro w
  by_cases hj : w.disk.journal = none
  · refine (recoverJournal_idle hj ((cappedFrame m).refl w)).mono (fun _ => id) ?_
    rintro _ u rfl
    exact (cappedFrame m).refl u
  · exact (safe_trivial _ w).mono (fun _ _ h => absurd h hj) fun _ _ _ h => absurd h hj

theorem syncParents_capped (dir : Path) : (Layered.syncParents dir).Within (Capped m) :=
  (cappedFrame m).forEach fun _ _ => (cappedFrame m).alter fun _ => capped_same rfl rfl

theorem mkdir_capped (p : Path) (perm : Nat) : (Layered.mkdir p perm).Within (Capped m) := by
  refine (cappedFrame m).update fun w u w' h => ?_
  split at h
  · cases h
    exact capped_put (Nat.zero_le _)
  · cases h

theorem mkdirSection_capped (p : Path) : (Layered.mkdirSection digest p true).Within (Capped m) := by
  have F := cappedFrame m
  apply F.bind recoverJournal_capped
  intro _
  refine F.bind (F.forEach fun dir _ => F.bind (F.look _) fun there => ?_) fun _ => syncParents_capped p
  cases there with
  | true => exact F.pure ()
  | false => exact mkdir_capped dir 0o755

theorem commit_capped {c : Change} (hj : w.disk.journal = none)
    (hc : (c.run digest).Safe (Capped m w) (fun _ => Capped m w) w) :
    (Layered.commit digest c).Safe (Capped m w) (fun _ => Capped m w) w := by
  have F := cappedFrame m
  have here := F.refl w
  refine Safe.bind (recoverJournal_idle hj here) ?_
  rintro _ w rfl
  refine Safe.bind (R := fun _ u => u = w) (safe_barrier here rfl) ?_
  rintro _ w rfl
  refine Safe.bind (R := fun _ u => u = w) (safe_barrier here rfl) ?_
  rintro _ w rfl
  have hwork : (c.work digest).Safe (Capped m w) (fun _ => Capped m w) w := by
    refine Safe.bind (R := fun _ => Capped m w) (safe_attempt hc) fun r u hu => ?_
    cases r with
    | ok a => exact safe_pure hu
    | error e =>
      refine Safe.bind ((recoverJournal_capped u).mono (fun _ => F.trans hu) fun _ _ => F.trans hu) ?_
      exact fun _ v hv => safe_pure hv
  refine Safe.bind hwork fun r u hu => ?_
  refine Safe.bind (R := fun _ => Capped m w) (safe_barrier hu hu) fun _ v hv => ?_
  cases r with
  | ok a => exact safe_pure hv
  | error e => exact safe_rethrow hv

theorem closeWriter_capped {original : Option Object} {o : Object} (dest : Path)
    (ho : o.size ≤ max m (original.elim 0 Object.size)) :
    (Layered.closeWriter original o dest).Safe (Capped m w) (fun _ => Capped m w) w := by
  have F := cappedFrame m
  have here := F.refl w
  refine Safe.bind (R := fun _ u => u = w ∧ original.elim 0 Object.size = sizeAt w dest)
    (safe_check here fun _ hready => ⟨rfl, ?_⟩) ?_
  · split at hready
    · next info current hcurrent =>
      split at hready
      · next hsame =>
        rw [sizeAt_of_lookup hcurrent]
        exact size_of_sameGeneration hsame
      · cases hready
    · next hnone =>
      rw [sizeAt, hnone]
      rfl
    · cases hready
  · rintro _ w ⟨rfl, hsize⟩
    refine Safe.bind (R := fun _ => Capped m w) (safe_update here fun _ u hu => ?_) fun _ u hu =>
      (syncParents_capped _ u).mono (fun _ => F.trans hu) fun _ _ => F.trans hu
    split at hu
    · cases hu
    · cases hu
      exact capped_put (hsize ▸ ho)

theorem setAttrs_capped (p : Path) (hf : ∀ o, (f o).size = o.size) : (Layered.setAttrs p f).Within (Capped m) := by
  refine (cappedFrame m).update fun w u w' h => ?_
  split at h
  · cases h
  · next o ho =>
    cases h
    refine capped_put ?_
    rw [hf, sizeAt_of_lookup ho]
    exact Nat.le_max_right _ _

theorem applyOpt_capped {α : Type} (value : Option α) {f : α → LayeredProg Unit}
    (hf : ∀ a, (f a).Within (Capped m)) : (Layered.applyOpt value f).Within (Capped m) := by
  cases value with
  | none => exact (cappedFrame m).pure ()
  | some a => exact hf a

theorem setstat_capped {path : Path} {a : Layered.Attrs} (ha : ∀ n, a.size = some n → n ≤ max m (sizeAt w path)) :
    (Layered.setstat path a).Safe (Capped m w) (fun _ => Capped m w) w := by
  have F := cappedFrame m
  have here := F.refl w
  refine Safe.bind (R := fun _ u => u = w) (safe_check here fun _ _ => rfl) ?_
  rintro _ w rfl
  have hsize : (Layered.applyOpt a.size (Layered.truncate path)).Safe (Capped m w) (fun _ => Capped m w) w := by
    cases hn : a.size with
    | none => exact safe_pure here
    | some n =>
      refine safe_update here fun _ u hu => ?_
      split at hu
      · cases hu
      · split at hu
        · cases hu
          refine capped_put ?_
          show (Layered.resize _ n).length ≤ _
          rw [length_resize]
          exact ha n hn
        · cases hu
  refine Safe.bind hsize fun _ u hu => ?_
  have hrest := F.bind (applyOpt_capped a.perm fun perm => setAttrs_capped (m := m) path (size_setPerm perm))
    fun _ => applyOpt_capped a.mtime fun mtime => setAttrs_capped path (size_setTime mtime)
  exact (hrest u).mono (fun _ => F.trans hu) fun _ _ => F.trans hu

theorem fsetstat_capped (path : Path) (inode : Nat) (a : Layered.Attrs) :
    (Layered.fsetstat path inode a).Within (Capped m) := by
  have F := cappedFrame m
  apply F.bind (F.check _)
  intro _
  apply F.bind (applyOpt_capped a.size fun _ => F.raise _)
  intro _
  refine F.bind (applyOpt_capped a.perm fun perm => setAttrs_capped path fun o => ?_) fun _ =>
    applyOpt_capped a.mtime fun mtime => setAttrs_capped path (size_setTime mtime)
  split
  · rfl
  · rfl

end

def HandleEntry.Modest (m : Nat) (e : HandleEntry) : Prop :=
  ∀ original staged, e.file = some (.writer original staged) → staged.size ≤ max m (original.elim 0 Object.size)

structure SftpSession.Modest (m : Nat) (s : SftpSession) : Prop where
  handles : ∀ x ∈ s.handles, x.2.Modest m
  settled : s.vol.disk.journal = none

def SessionCapped (m : Nat) (s s' : SftpSession) : Prop :=
  s.Modest m → s'.Modest m ∧ ∀ p, sizeAt s'.vol p ≤ max m (sizeAt s.vol p)

theorem sessionCappedFrame (m : Nat) : Frame (SessionCapped m) where
  refl _ hs := ⟨hs, fun _ => Nat.le_max_right _ _⟩
  trans h h' hs := by
    obtain ⟨hs₁, h₁⟩ := h hs
    obtain ⟨hs₂, h₂⟩ := h' hs₁
    refine ⟨hs₂, fun p => ?_⟩
    have := h₁ p
    have := h₂ p
    omega

section
variable {m : Nat} {cfg : SftpConfig} {s : SftpSession} {e : HandleEntry} {handle : Bytes}

theorem SftpSession.Modest.find (hs : s.Modest m) (h : s.find handle = some e) : e.Modest m := by
  obtain ⟨x, hx, rfl⟩ := Option.map_eq_some_iff.mp h
  exact hs.handles x (List.mem_of_find?_eq_some hx)

theorem sessionCapped_handles (handles : List (Bytes × HandleEntry))
    (h : s.Modest m → ∀ x ∈ handles, x.2.Modest m) : SessionCapped m s { s with handles } := by
  intro hs
  exact ⟨⟨h hs, hs.settled⟩, fun _ => Nat.le_max_right _ _⟩

theorem sessionCapped_put (handle : Bytes) (he : s.Modest m → e.Modest m) :
    SessionCapped m s (s.put handle e) := by
  apply sessionCapped_handles
  intro hs x hx
  rcases List.mem_cons.mp hx with rfl | hx
  · exact he hs
  · exact hs.handles x (List.mem_filter.mp hx).1

theorem sessionCapped_drop (handle : Bytes) : SessionCapped m s (s.drop handle) := by
  apply sessionCapped_handles
  intro hs x hx
  exact hs.handles x (List.mem_filter.mp hx).1

theorem sessionCapped_vol {w : Layered} (h : Capped m s.vol w) : SessionCapped m s { s with vol := w } := by
  intro hs
  obtain ⟨hj, hsizes⟩ := h hs.settled
  exact ⟨⟨hs.handles, hj⟩, hsizes⟩

theorem onVol_safe {α : Type} {p : LayeredProg α} (h : p.Safe (Capped m s.vol) (fun _ => Capped m s.vol) s.vol) :
    (onVol p).Safe (SessionCapped m s) (fun _ => SessionCapped m s) s := by
  refine (Safe.zoom SftpSession.volPart h).mono ?_ ?_
  · rintro u ⟨w, rfl, hw⟩
    exact sessionCapped_vol hw
  · rintro _ u ⟨w, rfl, hw⟩
    exact sessionCapped_vol hw

theorem onVol_within {α : Type} {p : LayeredProg α} (h : p.Within (Capped m)) :
    (onVol p).Within (SessionCapped m) :=
  fun s => onVol_safe (h s.vol)

theorem addHandle_within (id : Nat) (fresh : Bytes) (he : e.Modest m) :
    (addHandle id fresh e).Within (SessionCapped m) := by
  have F := sessionCappedFrame m
  apply F.bind (F.look _)
  intro full
  split
  · exact F.pure _
  · exact F.bind (F.alter fun s => sessionCapped_put fresh fun _ => he) fun _ => F.pure _

theorem createTemp_capped : Layered.createTemp.Within (Capped m) := by
  refine (cappedFrame m).update fun w n w' h => ?_
  obtain ⟨-, rfl⟩ := Prod.mk.inj (Except.ok.inj h)
  exact capped_same rfl rfl

theorem stageFrom_capped (mode : OpenMode) (o : Object) (bytes : Bytes) (mtime : Int64) :
    (stageFrom mode o bytes mtime).Within (Capped m) := by
  have F := cappedFrame m
  exact F.bind F.barrier fun _ => F.bind (F.onlyIf F.barrier) fun _ => F.bind createTemp_capped fun _ => F.pure _

theorem openWriter_capped (path dest : Path) (mode : OpenMode) :
    (openWriter cfg path dest mode).Within (Capped m) := by
  have F := cappedFrame m
  apply F.bind (F.bind recoverJournal_capped fun _ => F.check _)
  intro _
  apply F.bind (F.look _)
  intro found
  cases found with
  | none =>
    dsimp only
    split
    · exact F.bind createTemp_capped fun _ => F.pure _
    · exact F.raise _
  | some o =>
    dsimp only
    split
    · split
      · exact F.raise _
      · exact stageFrom_capped mode o _ _
    · exact F.raise _

theorem openWriter_modest (path dest : Path) (mode : OpenMode) (w : Layered) :
    (openWriter cfg path dest mode).Safe (fun _ => True)
      (fun r _ => r.2.size ≤ max m (r.1.elim 0 Object.size)) w := by
  have hskip {α : Type} (p : LayeredProg α) (u : Layered) :
      p.Safe (fun _ => True) (fun _ _ => True) u := safe_trivial p u
  refine Safe.bind (hskip _ w) fun _ u _ => ?_
  refine Safe.bind (hskip _ u) fun found u _ => ?_
  cases found with
  | none =>
    dsimp only
    split
    · exact Safe.bind (hskip _ u) fun _ _ _ => safe_pure (Nat.zero_le _)
    · exact safe_raise trivial
  | some o =>
    dsimp only
    split
    · next bytes mtime hbody =>
      split
      · exact safe_raise trivial
      · refine Safe.bind (hskip _ u) fun _ u _ => Safe.bind (hskip _ u) fun _ u _ =>
          Safe.bind (hskip _ u) fun _ _ _ => safe_pure ?_
        have ho : o.size = bytes.length := by rw [Object.size, hbody]
        show (if mode.truncate then [] else bytes).length ≤ max m o.size
        split
        · exact Nat.zero_le _
        · exact ho ▸ Nat.le_max_right _ _
    · exact safe_raise trivial

theorem openFile_within (id : Nat) (fresh : Bytes) (path : Path) (mode : OpenMode) :
    (openFile cfg id fresh path mode).Within (SessionCapped m) := by
  have F := sessionCappedFrame m
  apply F.bind (F.look _)
  intro dest
  split
  · apply F.bind_of (T := fun r => ∀ x, r = .ok x → x.2.size ≤ max m (x.1.elim 0 Object.size))
      (onVol_within (openWriter_capped path dest mode)).attempt
    · intro s
      refine (Safe.zoom SftpSession.volPart (openWriter_modest (m := m) path dest mode s.vol)).attempt.mono
        (fun _ _ => trivial) ?_
      rintro r u hr x rfl
      obtain ⟨w, -, hx⟩ := hr
      exact hx
    · intro r hr
      cases r with
      | error e => exact F.pure _
      | ok x =>
        apply addHandle_within
        intro original staged hfile
        obtain ⟨rfl, rfl⟩ := OpenFile.writer.inj (Option.some.inj hfile)
        exact hr x rfl
  · have hreader : (openReader path dest).Within (Capped m) := by
      have G := cappedFrame m
      apply G.bind G.barrier
      intro _
      apply G.bind (G.look _)
      intro found
      cases found with
      | none => exact G.raise _
      | some o =>
        dsimp only
        split
        · exact G.pure _
        · exact G.raise _
    apply F.bind (onVol_within hreader).attempt
    intro r
    cases r with
    | error e => exact F.pure _
    | ok inode =>
      apply addHandle_within
      intro original staged hfile
      cases hfile

theorem handleOpen_within (payload fresh : Bytes) : (handleOpen cfg payload fresh).Within (SessionCapped m) := by
  have F := sessionCappedFrame m
  have hopen (id : Nat) (path : Path) (mode : OpenMode) :
      (openPath cfg id fresh path mode).Within (SessionCapped m) := by
    unfold openPath
    split
    · apply F.bind (onVol_within (mkdirSection_capped path.dropLast)).attempt
      intro r
      cases r with
      | error e => exact F.pure _
      | ok u => exact openFile_within id fresh path mode
    · exact openFile_within id fresh path mode
  unfold handleOpen
  split
  · exact F.pure _
  · split
    · exact F.pure _
    · split
      · exact F.pure _
      · split
        · exact F.pure _
        · split
          · exact F.pure _
          · exact hopen _ _ _

theorem size_writeStaged (o : Object) (written : Nat)
    (hmax : 0 < cfg.maxUploadBytes) (hcap : exceedsCap cfg offset data = false) :
    (writeStaged cfg o offset.toInt64 data written).2.size ≤ max cfg.maxUploadBytes.toInt.toNat o.size := by
  unfold writeStaged
  split
  · next bytes mtime hbody =>
    have hsize : o.size = bytes.length := by rw [Object.size, hbody]
    split
    · exact Nat.le_max_right _ _
    · next hin =>
      have hlen := length_overwrite_le bytes offset.toInt64.toInt.toNat (data.take written)
      have htake : (data.take written).length ≤ data.length := List.length_take_le' _ _
      have hnew : (overwrite bytes offset.toInt64.toInt.toNat (data.take written)).length ≤
          max cfg.maxUploadBytes.toInt.toNat o.size := by
        by_cases hdata : data = []
        · rw [hdata, List.take_nil, overwrite, if_pos rfl, hsize]
          exact Nat.le_max_right _ _
        · rw [not_or, not_and, Nat.not_lt] at hin
          have hend := end_le_of_not_exceedsCap hmax hcap hin.1 (hin.2 hdata)
          omega
      dsimp only
      split <;> exact hnew
  · exact Nat.le_max_right _ _

theorem writeHandle_within (hmax : 0 < cfg.maxUploadBytes)
    (hcap : exceedsCap cfg offset data = false) (handle : Bytes) (written : Nat) :
    (writeHandle cfg handle offset.toInt64 data written).Within
      (SessionCapped cfg.maxUploadBytes.toInt.toNat) := by
  refine (sessionCappedFrame _).perform fun s => ?_
  split
  · next path dest original staged appendMode hfind =>
    apply sessionCapped_put
    intro hs original' staged' hfile
    obtain ⟨rfl, rfl⟩ := OpenFile.writer.inj (Option.some.inj hfile)
    have hold := hs.find hfind original staged rfl
    have hnew := size_writeStaged staged written hmax hcap
    omega
  · exact (sessionCappedFrame _).refl s

theorem handleWrite_within (hmax : 0 < cfg.maxUploadBytes) (payload : Bytes) (written : Nat) :
    (handleWrite cfg payload written).Within (SessionCapped cfg.maxUploadBytes.toInt.toNat) := by
  have F := sessionCappedFrame cfg.maxUploadBytes.toInt.toNat
  have hwrite (id : Nat) (handle : Bytes) (offset : UInt64) (data : Bytes) :
      (writeTo cfg id handle offset data written).Within (SessionCapped cfg.maxUploadBytes.toInt.toNat) := by
    apply F.bind (F.look _)
    intro found
    cases found with
    | none => exact F.pure _
    | some e =>
      dsimp only
      split
      · exact F.pure _
      · next hcap =>
        have hrecover : (onVol (Layered.recoverJournal cfg.digest)).Within
            (SessionCapped cfg.maxUploadBytes.toInt.toNat) := onVol_within recoverJournal_capped
        have hsection := F.bind hrecover fun _ =>
          writeHandle_within hmax (Bool.eq_false_of_not_eq_true hcap) handle written
        apply F.bind hsection.attempt
        intro r
        cases r with
        | ok u => exact F.pure _
        | error e => exact F.pure _
  unfold handleWrite
  split
  · exact F.pure _
  · split
    · exact F.pure _
    · split
      · exact F.pure _
      · split
        · exact F.pure _
        · exact hwrite _ _ _ _

theorem closeFile_capped (he : e.Modest m) {w : Layered} (hj : w.disk.journal = none) :
    (closeFile cfg e).Safe (Capped m w) (fun _ => Capped m w) w := by
  have F := cappedFrame m
  unfold closeFile
  split
  · next original staged hfile =>
    have hflush : (Layered.syncFile staged.inode (staged.content.getD [])).Safe (Capped m w)
        (fun _ u => Capped m w u ∧ u.disk = w.disk) w :=
      safe_alter (F.refl w) ⟨capped_same rfl rfl, rfl⟩
    refine Safe.bind hflush ?_
    rintro _ u ⟨hu, hdisk⟩
    have hclose : (Change.run cfg.digest (.closeWriter original staged e.dest e.path)).Safe (Capped m u)
        (fun _ => Capped m u) u := closeWriter_capped e.dest (he original staged hfile)
    have hju : u.disk.journal = none := by rw [hdisk, hj]
    exact (commit_capped hju hclose).mono (fun _ => F.trans hu) fun _ _ => F.trans hu
  · exact safe_pure (F.refl w)

theorem closeHandle_safe (id : Nat) (handle : Bytes) (hs : s.Modest m) :
    (closeHandle cfg id handle).Safe (SessionCapped m s) (fun _ => SessionCapped m s) s := by
  have F := sessionCappedFrame m
  apply safe_bind.mpr
  refine safe_look (F.refl s) ?_
  cases hfind : s.find handle with
  | none => exact safe_pure (F.refl s)
  | some e =>
    have hdrop : SessionCapped m s (s.drop handle) := sessionCapped_drop handle
    refine Safe.bind (R := fun _ u => u = s.drop handle) (safe_alter (F.refl s) rfl) ?_
    rintro _ u rfl
    have hclose := onVol_safe (s := s.drop handle) (@closeFile_capped m cfg e (hs.find hfind) s.vol hs.settled)
    refine Safe.bind (R := fun _ => SessionCapped m s)
      (safe_attempt (Sat.mono hclose (fun _ => F.trans hdrop) (fun _ _ => F.trans hdrop)
        fun _ _ => F.trans hdrop)) fun r v hv => ?_
    cases r with
    | ok a => exact safe_pure hv
    | error e => exact safe_pure hv

theorem handleClose_safe (payload : Bytes) (hs : s.Modest m) :
    (handleClose cfg payload).Safe (SessionCapped m s) (fun _ => SessionCapped m s) s := by
  have F := sessionCappedFrame m
  unfold handleClose
  split
  · exact safe_pure (F.refl s)
  · split
    · exact safe_pure (F.refl s)
    · exact closeHandle_safe _ _ hs

theorem setstatPath_capped {path : Path} {a : FileAttrs} {w : Layered} (hj : w.disk.journal = none)
    (ha : ∀ attrs n, a.toAttrs = some attrs → attrs.size = some n → n ≤ max m (sizeAt w (cfg.canonical w path))) :
    (setstatPath cfg path a).Safe (Capped m w) (fun _ => Capped m w) w := by
  have F := cappedFrame m
  apply safe_bind.mpr
  refine safe_look (F.refl w) ?_
  cases hattrs : a.toAttrs with
  | none =>
    refine Safe.bind (recoverJournal_idle hj (F.refl w)) ?_
    rintro _ w rfl
    exact safe_raise (F.refl w)
  | some attrs =>
    have hset : (Change.run cfg.digest (.setstat (cfg.canonical w path) attrs)).Safe (Capped m w)
        (fun _ => Capped m w) w := setstat_capped fun n hn => ha attrs n hattrs hn
    exact commit_capped hj hset

def setstatSize (cfg : SftpConfig) (payload : Bytes) : Option (Path × Nat) := do
  let (_, rest) ← unmarshalUint32 payload
  let (path, rest) ← unmarshalString rest
  let (a, _) ← parseAttrs rest
  let full ← cfg.resolvePath path
  let attrs ← a.toAttrs
  let n ← attrs.size
  some (full, n)

theorem handleSetstat_safe {payload : Bytes} (hs : s.Modest m)
    (hn : ∀ full n, setstatSize cfg payload = some (full, n) → n ≤ max m (sizeAt s.vol (cfg.canonical s.vol full))) :
    (handleSetstat cfg payload).Safe (SessionCapped m s) (fun _ => SessionCapped m s) s := by
  have F := sessionCappedFrame m
  have here := F.refl s
  unfold handleSetstat
  split
  · exact safe_pure here
  · next id rest hid =>
    split
    · exact safe_pure here
    · next path rest hpath =>
      split
      · exact safe_pure here
      · next a rest hattrs =>
        split
        · exact safe_pure here
        · next full hfull =>
          have hset : (setstatPath cfg full a).Safe (Capped m s.vol) (fun _ => Capped m s.vol) s.vol := by
            apply setstatPath_capped hs.settled
            intro attrs n ha hsize
            apply hn
            simp [setstatSize, hid, hpath, hattrs, hfull, ha, hsize]
          exact Safe.bind (R := fun _ => SessionCapped m s) (safe_attempt (Sat.mono (onVol_safe hset)
            (fun _ h => h) (fun _ _ h => h) fun _ _ h => h)) fun r u hu => safe_pure hu

theorem setStaged_safe (hf : s.Modest m → ∀ e original staged,
      s.find handle = some e → e.file = some (.writer original staged) →
        (f staged).size ≤ max m (original.elim 0 Object.size)) :
    (setStaged handle f).Safe (SessionCapped m s) (fun _ => SessionCapped m s) s := by
  refine safe_update ((sessionCappedFrame m).refl s) fun _ u hu => ?_
  split at hu
  · next path dest original staged appendMode hfind =>
    obtain ⟨-, rfl⟩ := Prod.mk.inj (Except.ok.inj hu)
    apply sessionCapped_put
    intro hs original' staged' hfile
    obtain ⟨rfl, rfl⟩ := OpenFile.writer.inj (Option.some.inj hfile)
    exact hf hs _ original staged hfind rfl
  · cases hu

theorem setStaged_within (handle : Bytes) (hf : ∀ o, (f o).size = o.size) :
    (setStaged handle f).Within (SessionCapped m) := by
  intro s
  apply setStaged_safe
  intro hs e original staged hfind hfile
  rw [hf]
  exact hs.find hfind original staged hfile

theorem applyStaged_safe {a : Layered.Attrs} (ha : ∀ n e original staged, a.size = some n →
      s.find handle = some e → e.file = some (.writer original staged) → n ≤ max m (original.elim 0 Object.size)) :
    (applyStaged handle a).Safe (SessionCapped m s) (fun _ => SessionCapped m s) s := by
  have F := sessionCappedFrame m
  have hsize : (a.size.elim (pure ()) fun n => setStaged handle (Object.truncate n) : SftpProg Unit).Safe
      (SessionCapped m s) (fun _ => SessionCapped m s) s := by
    cases hn : a.size with
    | none => exact safe_pure (F.refl s)
    | some n =>
      apply setStaged_safe
      intro _ e original staged hfind hfile
      exact (size_truncate_le n staged).trans (ha n e original staged hn hfind hfile)
  have hrest : (do
      (a.perm.elim (pure ()) fun perm => setStaged handle (Layered.setPerm perm) : SftpProg Unit)
      (a.mtime.elim (pure ()) fun mtime => setStaged handle (Layered.setTime mtime) : SftpProg Unit)).Within
        (SessionCapped m) := by
    apply F.bind
    · cases a.perm with
      | none => exact F.pure _
      | some perm => exact setStaged_within handle (size_setPerm perm)
    · intro _
      cases a.mtime with
      | none => exact F.pure _
      | some mtime => exact setStaged_within handle (size_setTime mtime)
  exact Safe.bind hsize fun _ u hu => (hrest u).mono (fun _ => F.trans hu) fun _ _ => F.trans hu

theorem fsetstatHandle_safe {a : FileAttrs} (hs : s.Modest m)
    (ha : ∀ attrs n e original staged, a.toAttrs = some attrs → attrs.size = some n → s.find handle = some e →
      e.file = some (.writer original staged) → n ≤ max m (original.elim 0 Object.size)) :
    (fsetstatHandle cfg handle e a).Safe (SessionCapped m s) (fun _ => SessionCapped m s) s := by
  have F := sessionCappedFrame m
  have G := cappedFrame m
  have hidle : (Layered.recoverJournal cfg.digest).Safe (Capped m s.vol) (fun _ u => u = s.vol) s.vol :=
    recoverJournal_idle hs.settled (G.refl s.vol)
  have hrecover := Safe.zoom SftpSession.volPart hidle
  unfold fsetstatHandle
  split
  · next attrs hfile hattrs =>
    refine Safe.bind (R := fun _ u => u = s) (hrecover.mono ?_ ?_) ?_
    · rintro u ⟨w, rfl, hw⟩
      exact sessionCapped_vol hw
    · rintro _ u ⟨w, rfl, rfl⟩
      rfl
    · rintro _ u rfl
      exact applyStaged_safe fun n e original staged => ha attrs n e original staged hattrs
  · exact onVol_safe (commit_capped hs.settled (fsetstat_capped _ _ _ _))
  · refine onVol_safe (Safe.bind (recoverJournal_idle hs.settled (G.refl _)) ?_)
    rintro _ w rfl
    exact safe_raise (G.refl _)

def fsetstatSize (payload : Bytes) : Option (Bytes × Nat) := do
  let (_, rest) ← unmarshalUint32 payload
  let (handle, rest) ← unmarshalString rest
  let (a, _) ← parseAttrs rest
  let attrs ← a.toAttrs
  let n ← attrs.size
  some (handle, n)

theorem handleFsetstat_safe {payload : Bytes} (hs : s.Modest m)
    (hn : ∀ handle n e original staged, fsetstatSize payload = some (handle, n) → s.find handle = some e →
      e.file = some (.writer original staged) → n ≤ max m (original.elim 0 Object.size)) :
    (handleFsetstat cfg payload).Safe (SessionCapped m s) (fun _ => SessionCapped m s) s := by
  have F := sessionCappedFrame m
  have here := F.refl s
  unfold handleFsetstat
  split
  · exact safe_pure here
  · next id rest hid =>
    split
    · exact safe_pure here
    · next handle rest hhandle =>
      split
      · exact safe_pure here
      · next a rest hattrs =>
        apply safe_bind.mpr
        refine safe_look here ?_
        split
        · exact safe_pure here
        · next e he =>
          have hset : (fsetstatHandle cfg handle e a).Safe (SessionCapped m s) (fun _ => SessionCapped m s) s := by
            apply fsetstatHandle_safe hs
            intro attrs n e original staged ha hsize
            apply hn
            simp [fsetstatSize, hid, hhandle, hattrs, ha, hsize]
          exact Safe.bind (R := fun _ => SessionCapped m s) (safe_attempt (Sat.mono hset
            (fun _ h => h) (fun _ _ h => h) fun _ _ h => h)) fun r u hu => safe_pure hu

/-- A packet that finds no replacement interrupted, and sets no size beyond the cap or the size of
the file that it is set on. -/
structure SftpPacket.Moderate (cfg : SftpConfig) (s : SftpSession) (packet : SftpPacket) : Prop where
  settled : s.vol.disk.journal = none
  setstat : ∀ payload full n, packet = .setstat payload → setstatSize cfg payload = some (full, n) →
    n ≤ max cfg.maxUploadBytes.toInt.toNat (sizeAt s.vol (cfg.canonical s.vol full))
  fsetstat : ∀ payload handle n e original staged, packet = .fsetstat payload →
    fsetstatSize payload = some (handle, n) → s.find handle = some e → e.file = some (.writer original staged) →
        n ≤ max cfg.maxUploadBytes.toInt.toNat (original.elim 0 Object.size)

/-- Sessions after packets of this kind, each of them run to its end or interrupted, while others
change the volume. -/
inductive ModerateSession (cfg : SftpConfig) : SftpSession → Prop where
  | start (vol : Layered) : ModerateSession cfg ⟨[], vol⟩
  | packet {s s' : SftpSession} {packet : SftpPacket} : ModerateSession cfg s → packet.Moderate cfg s →
      (handlePacket cfg packet).Stops s s' → ModerateSession cfg s'
  | outside {s : SftpSession} (vol : Layered) : ModerateSession cfg s → ModerateSession cfg { s with vol }

theorem handlePacket_safe (hmax : 0 < cfg.maxUploadBytes) (hs : s.Modest cfg.maxUploadBytes.toInt.toNat)
    {packet : SftpPacket} (hp : packet.Moderate cfg s) :
    (handlePacket cfg packet).Safe (SessionCapped cfg.maxUploadBytes.toInt.toNat s)
      (fun _ => SessionCapped cfg.maxUploadBytes.toInt.toNat s) s := by
  cases packet with
  | «open» payload fresh => exact handleOpen_within payload fresh s
  | write payload written => exact handleWrite_within hmax payload written s
  | close payload => exact handleClose_safe payload hs
  | setstat payload => exact handleSetstat_safe hs fun full n => hp.setstat payload full n rfl
  | fsetstat payload =>
    exact handleFsetstat_safe hs fun handle n e original staged => hp.fsetstat payload handle n e original staged rfl

theorem ModerateSession.handles_modest (hmax : 0 < cfg.maxUploadBytes) (h : ModerateSession cfg s) :
    ∀ x ∈ s.handles, x.2.Modest cfg.maxUploadBytes.toInt.toNat := by
  induction h with
  | start vol => nofun
  | @packet s _ _ _ hp hstop ih =>
    have hs : s.Modest cfg.maxUploadBytes.toInt.toNat := ⟨ih, hp.settled⟩
    exact ((handlePacket_safe hmax hs hp).stops (fun _ _ h => h) hstop hs).1.handles
  | outside vol _ ih => exact ih

end

/-- No packet of such a session leaves a file larger than the cap, other than one that was as large
before it. -/
theorem published_size_capped {cfg : SftpConfig} (hmax : 0 < cfg.maxUploadBytes) {s s' : SftpSession}
    (hs : ModerateSession cfg s) {packet : SftpPacket} (hp : packet.Moderate cfg s)
    (hstop : (handlePacket cfg packet).Stops s s') (p : Path) :
    sizeAt s'.vol p ≤ max cfg.maxUploadBytes.toInt.toNat (sizeAt s.vol p) := by
  have hmodest : s.Modest cfg.maxUploadBytes.toInt.toNat := ⟨hs.handles_modest hmax, hp.settled⟩
  exact ((handlePacket_safe hmax hmodest hp).stops (fun _ _ h => h) hstop hmodest).2 p

def sftpConfig : SftpConfig where
  digest := sha256
  maxUploadBytes := 4
  resolvePath b := if b = [102] then some ["f"] else none
  canonical _ p := p
  fileLimit := 1000
  limit_lt := by decide

def sftpVolume : Layered where
  disk := ⟨PathMap.empty.put ["f"] ⟨0, 1, 0, .file [7] 0⟩, none, []⟩
  links _ _ := none
  contents _ := none
  next := 2

def sizePacket (n : UInt8) : SftpPacket :=
  .setstat [0, 0, 0, 1, 0, 0, 0, 1, 102, 0, 0, 0, 1, 0, 0, 0, 0, 0, 0, 0, n]

def runPackets (cfg : SftpConfig) : List SftpPacket → SftpSession → List (Option SftpReply) × SftpSession
  | [], s => ([], s)
  | packet :: rest, s =>
    let r := (handlePacket cfg packet).exec s
    let q := runPackets cfg rest r.2
    (r.1.toOption :: q.1, q.2)

/-- The file opened for writing, its staged copy made five bytes long, and closed. -/
def grownPackets : List SftpPacket :=
  [.open [0, 0, 0, 1, 0, 0, 0, 1, 102, 0, 0, 0, 2, 0, 0, 0, 0] [9],
    .fsetstat [0, 0, 0, 2, 0, 0, 0, 1, 9, 0, 0, 0, 1, 0, 0, 0, 0, 0, 0, 0, 5],
    .close [0, 0, 0, 3, 0, 0, 0, 1, 9]]

/-- A size attribute is not held to the cap, neither on the file nor on a staged copy. -/
theorem size_attribute_passes_cap :
    sftpConfig.maxUploadBytes = 4 ∧ sizeAt sftpVolume ["f"] = 1 ∧
      (runPackets sftpConfig [sizePacket 5] ⟨[], sftpVolume⟩).1 = [some (.status 1 0 "")] ∧
      sizeAt (runPackets sftpConfig [sizePacket 5] ⟨[], sftpVolume⟩).2.vol ["f"] = 5 ∧
      (runPackets sftpConfig grownPackets ⟨[], sftpVolume⟩).1 =
        [some (.handle 1 [9]), some (.status 2 0 ""), some (.status 3 0 "")] ∧
      sizeAt (runPackets sftpConfig grownPackets ⟨[], sftpVolume⟩).2.vol ["f"] = 5 := by
  decide +kernel

/-- A size within the cap. -/
theorem published_size_capped_setstat :
    sizeAt ((handlePacket sftpConfig (sizePacket 3)).exec ⟨[], sftpVolume⟩).2.vol ["f"] = 3 ∧
      sizeAt ((handlePacket sftpConfig (sizePacket 3)).exec ⟨[], sftpVolume⟩).2.vol ["f"] ≤
        max 4 (sizeAt sftpVolume ["f"]) := by
  have hcond : (sizePacket 3).Moderate sftpConfig ⟨[], sftpVolume⟩ := by
    refine ⟨rfl, fun payload full n hpayload hn => ?_, nofun⟩
    obtain rfl := SftpPacket.setstat.inj hpayload
    have hsize : setstatSize sftpConfig [0, 0, 0, 1, 0, 0, 0, 1, 102, 0, 0, 0, 1, 0, 0, 0, 0, 0, 0, 0, 3] =
        some (["f"], 3) := by decide +kernel
    obtain ⟨rfl, rfl⟩ := Prod.mk.inj (Option.some.inj (hsize.symm.trans hn))
    decide +kernel
  exact ⟨by decide +kernel, published_size_capped (by decide) (.start sftpVolume) hcond (stops_exec _ _) _⟩

end BirakFormal
