import BirakFormal.Syncer.Beside

/-!
# Working off the repair queue

One attempt at a queued item: ask the peer for its current state, apply the greater of that
and the queued one, and clear the row if the application reports no failure. An application
reports no failure either because the state is reached or because the state is not usable
here, and the two validators do not agree on what is usable.
-/

namespace BirakFormal

open Tables Interruption Prog

inductive MetaReply where
  /-- No usable answer: a transport error, a status, or a body that does not decode. -/
  | failed (text : String)
  | notFound
  | found (m : FileMeta)

/-- How an attempt ends: clear the row, keep it for later, or leave it as it is. -/
inductive Verdict where
  | resolve
  | defer (cause : String)
  | cancelled
  deriving DecidableEq

/-- What the outside does during one attempt: the reply, the bytes served, and whether the
context is found cancelled after a failed request and after a failed application. -/
structure Attempt where
  reply : MetaReply
  body : Bytes
  cancelledFetch : Bool
  cancelledApply : Bool

/-- `err.Error()`. -/
def failureText : Failure Err → String
  | .fault => "input/output error"
  | .raised (.invalidName text) => text
  | .raised (.nameCollision text) => text
  | .raised (.integrity name) => "file checksum changed without a write timestamp: " ++ name
  | .raised .busy => "file is being written"
  | .raised (.repairQueueFull text) => text
  | .raised (.failed text) => text

section
variable (cfg : Config)

def fetchMeta (name : String) : MetaReply → Except String (Option FileMeta)
  | .failed text => .error text
  | .notFound => .ok none
  | .found m =>
    if m.name ≠ name then
      .error ("meta for " ++ name ++ " returned a different name " ++ quoted m.name)
    else
      match validateMetadata cfg.digest m with
      | .error e => .error ("meta for " ++ name ++ ": " ++ e)
      | .ok () => .ok (some m)

/-- `applyChange` as the sections it runs in. The transfer of a download works on its own
scratch file only, so it is part of the section that publishes it. -/
def applyLocked (change : FileMeta) (body : Bytes) : Task Err Node (Except (Failure Err) Unit) :=
  .next (decideChange cfg change) fun
    | .error e => .done (.error e)
    | .ok .settled => .done (.ok ())
    | .ok .deletion => .next (applyDeletion cfg change) .done
    | .ok .download => .next (downloadAndApply cfg change body) .done

def applySections (change : FileMeta) (body : Bytes) : Task Err Node (Except (Failure Err) Unit) :=
  match validateChange cfg.digest cfg.patterns change with
  | .error _ => .done (.ok ())
  | .ok () => .next (getFile change.name) fun
    | .error _ => applyLocked cfg change body
    | .ok indexed =>
      if remoteWins indexed change then applyLocked cfg change body
      else .next (needsRepair change.name) fun
        | .ok false => .done (.ok ())
        | _ => applyLocked cfg change body

/-- The queued state is here already, so the row is done without asking the peer. -/
def heldSections (item : RepairRow) : Task Err Node Bool :=
  match item.metadata with
  | none => .done false
  | some m => .next (needsRepair item.name) fun
    | .ok false => .next (getFile item.name) fun
      | .ok mine => .done (compareState (some m) mine).isLE
      | .error _ => .done false
    | _ => .done false

def applyChosen (a : Attempt) (chosen : FileMeta) : Task Err Node Verdict :=
  (applySections cfg chosen a.body).bind fun
    | .ok () => .done .resolve
    | .error e => .done (if a.cancelledApply then .cancelled else .defer (failureText e))

def chooseState (queued fetched : Option FileMeta) : Option FileMeta :=
  match queued with
  | none => fetched
  | some m => if compareState (some m) fetched = .gt then some m else fetched

def afterFetch (a : Attempt) (item : RepairRow) :
    Except String (Option FileMeta) → Task Err Node Verdict
  | .error e =>
    if a.cancelledFetch then .done .cancelled
    else
      match item.metadata with
      -- An accepted deletion needs no bytes from the source.
      | some m => if m.deleted then applyChosen cfg a m else .done (.defer ("fetch metadata: " ++ e))
      | none => .done (.defer ("fetch metadata: " ++ e))
  | .ok fetched =>
    match chooseState item.metadata fetched with
    | none => .done (.defer "peer has no record and queued operation has no metadata")
    | some chosen => applyChosen cfg a chosen

def repairAttempt (a : Attempt) (item : RepairRow) : Task Err Node Verdict :=
  (heldSections item).bind fun held =>
    if held then .done .resolve else afterFetch cfg a item (fetchMeta cfg item.name a.reply)

def repairBackoff (attempts : Nat) : Int :=
  let backoff : Int := 500000000 * 2 ^ min attempts 12
  if backoff > 900000000000 then 900000000000 else backoff

def endRepair (item : RepairRow) : Verdict → Sys Unit
  | .resolve => alter fun s => { s with store := s.store.resolveRepairItem item }
  | .defer cause => alter fun s =>
    let next := s.store.now + repairBackoff item.attempts
    { s with store := s.store.deferRepairItem item next cause }
  | .cancelled => raise (.failed "context canceled")

def repairOne (a : Attempt) (item : RepairRow) : Task Err Node (Except (Failure Err) Unit) :=
  (repairAttempt cfg a item).bind fun verdict => .next (endRepair item verdict) .done

variable {cfg} {m : FileMeta}

theorem decideChange_quietly (hm : StateOk m) : (decideChange cfg m).Within Quietly :=
  within_quietly ((queueMerged_replicating cfg).decideChange m) fun _ hs =>
    (decideChange_safe hs hm).imp fun _ _ => And.left

theorem applyDeletion_quietly (hm : StateOk m) : (applyDeletion cfg m).Within Quietly :=
  within_quietly ((queueMerged_replicating cfg).applyDeletion m) fun _ hs =>
    (applyDeletion_safe hs hm).imp fun _ _ => And.left

theorem downloadAndApply_quietly (body : Bytes) (hm : StateOk m) (hname : m.name ≠ "") :
    (downloadAndApply cfg m body).Within Quietly :=
  within_quietly ((queueMerged_replicating cfg).downloadAndApply m body) fun _ hs =>
    (downloadAndApply_safe body hs hm hname).imp fun _ _ => And.left

/-- Where a running node holds a state at least as great as `m`, it keeps doing so. -/
def Attained (m : FileMeta) (s : Node) : Prop :=
  s.Running ∧ StateLe (some m) (s.store.getFile m.name)

theorem Attained.ongoing {s t : Node} (h : Attained m s) (hst : Ongoing s t) :
    Attained m t := by
  obtain ⟨ht, hrows⟩ := hst h.1
  refine ⟨ht, ?_⟩
  have hle := hrows m.name
  rw [stateLe_iff] at hle ⊢
  exact (stateLe_iff.mp h.2).trans hle

variable {s : Node}

theorem Reached.attained {s₀ : Store} (h : Reached s₀ m s) : Attained m s :=
  ⟨⟨h.1.sound, h.1.recovered⟩, h.2⟩

theorem meets_last {p : Sys Unit} (hs : s.Running) (hwithin : p.Within Quietly)
    (hreach : ∀ t, t.Running → p.Safe (fun _ => True) (fun _ => Attained m) t) :
    (Task.next p .done).Meets Ongoing Quietly (fun r t => r = .ok () → Attained m t) s := by
  refine Task.meets_next hwithin (fun e t u _ _ v _ h => nomatch h) fun t hst => ?_
  refine (hreach t (hst hs).1).imp fun b u hu _ v huv _ => hu.ongoing huv

theorem applyLocked_meets (body : Bytes)
    (hval : validateChange cfg.digest cfg.patterns m = .ok ()) (hs : s.Running) :
    (applyLocked cfg m body).Meets Ongoing Quietly (fun r t => r = .ok () → Attained m t) s := by
  have hmeta := metadataOk_of_validateChange hval
  have hm := stateOk_of_metadataOk hmeta
  have hname := ne_empty_of_validateSyncName hmeta.name
  refine Task.meets_next (decideChange_quietly hm) (fun e t u _ _ v _ h => nomatch h) fun t hst => ?_
  have ht := (hst hs).1
  refine (decideChange_safe ht.ahead hm).weaken ?_
  rintro pending u ⟨hu, hdone⟩ -
  have hrun : u.Running := ⟨hu.sound, hu.recovered⟩
  cases pending with
  | settled => exact fun v huv _ => Attained.ongoing ⟨hrun, hdone rfl⟩ huv
  | deletion =>
    exact meets_last hrun (applyDeletion_quietly hm) fun w hw =>
      (applyDeletion_safe hw.ahead hm).weaken fun _ _ => Reached.attained
  | download =>
    exact meets_last hrun (downloadAndApply_quietly body hm hname) fun w hw =>
      (downloadAndApply_safe body hw.ahead hm hname).weaken fun _ _ => Reached.attained

theorem applySections_meets (m : FileMeta) (body : Bytes) (hs : s.Running) :
    (applySections cfg m body).Meets Ongoing Quietly (fun r t => r = .ok () →
      validateChange cfg.digest cfg.patterns m = .ok () → Attained m t) s := by
  unfold applySections
  cases hval : validateChange cfg.digest cfg.patterns m with
  | error e => exact fun t _ _ h => nomatch h
  | ok u =>
    have hlocked : ∀ {t : Node}, t.Running → (applyLocked cfg m body).Meets Ongoing Quietly
        (fun r v => r = .ok () → Except.ok u = (.ok () : Except String Unit) → Attained m v) t :=
      fun ht => (applyLocked_meets body hval ht).mono fun _ _ h hr _ => h hr
    refine Task.meets_next (quietlyFrame.look _) (fun e t v hst htv => hlocked (htv.beside (hst hs).1).1)
      fun t hst => ?_
    have ht := (hst hs).1
    refine safe_look trivial fun _ => ?_
    dsimp only
    cases hwins : remoteWins (t.store.getFile m.name) m with
    | true => exact hlocked ht
    | false =>
      have hheld : Attained m t := ⟨ht, stateLe_of_not_remoteWins hwins⟩
      refine Task.meets_next (quietlyFrame.look _) (fun e v w htv hvw => hlocked (hvw.beside (htv ht).1).1)
        fun v htv => safe_look trivial fun _ => ?_
      cases hfenced : decide (m.name ∈ v.quarantined) with
      | true => exact hlocked (htv ht).1
      | false => exact fun w hvw _ _ => (hheld.ongoing htv).ongoing hvw

variable {item : RepairRow}

theorem heldSections_meets (hitem : item.metadata = some m) (hname : m.name = item.name) (hs : s.Running) :
    (heldSections item).Meets Ongoing Quietly (fun held t => t.Running ∧ (held = true → Attained m t)) s := by
  unfold heldSections
  rw [hitem]
  refine Task.meets_next (quietlyFrame.look _)
    (fun e t u hst htu v huv => ⟨(huv (htu.beside (hst hs).1).1).1, nofun⟩) fun t hst =>
      safe_look trivial fun _ => ?_
  have ht := (hst hs).1
  cases hfenced : decide (item.name ∈ t.quarantined) with
  | true => exact fun u htu => ⟨(htu ht).1, nofun⟩
  | false =>
    refine Task.meets_next (quietlyFrame.look _)
      (fun e u v htu huv w hvw => ⟨(hvw (huv.beside (htu ht).1).1).1, nofun⟩) fun u htu =>
        safe_look trivial fun _ v huv => ?_
    have hu := (htu ht).1
    refine ⟨(huv hu).1, fun hle => ?_⟩
    exact Attained.ongoing ⟨hu, hname ▸ hle⟩ huv

def UsableReply (cfg : Config) (m : FileMeta) (reply : MetaReply) : Prop :=
  ∀ x, reply = .found x → compareState (some m) (some x) ≠ .gt → validateChange cfg.digest cfg.patterns x = .ok ()

def Cleared (m : FileMeta) (verdict : Verdict) (t : Node) : Prop := verdict = .resolve → Attained m t

variable {a : Attempt}

theorem applyChosen_meets {m chosen : FileMeta} (hname : chosen.name = m.name)
    (hval : validateChange cfg.digest cfg.patterns chosen = .ok ())
    (hle : StateLe (some m) (some chosen)) (hs : s.Running) :
    (applyChosen cfg a chosen).Meets Ongoing Quietly (Cleared m) s := by
  refine Task.Meets.bind ongoingFrame ((applySections_meets chosen a.body hs).mono ?_)
  intro r t hr
  cases r with
  | ok u =>
    intro v htv _
    have hheld := (hr rfl hval).ongoing htv
    refine ⟨hheld.1, ?_⟩
    have hrow := hheld.2
    rw [hname, stateLe_iff] at hrow
    rw [stateLe_iff] at hle ⊢
    exact hle.trans hrow
  | error e =>
    intro v _ hv
    split at hv
    · cases hv
    · cases hv

theorem afterFetch_meets (hitem : item.metadata = some m) (hname : m.name = item.name)
    (hval : validateChange cfg.digest cfg.patterns m = .ok ()) (hreply : UsableReply cfg m a.reply) (hs : s.Running) :
    (afterFetch cfg a item (fetchMeta cfg item.name a.reply)).Meets Ongoing Quietly (Cleared m) s := by
  have hself : (applyChosen cfg a m).Meets Ongoing Quietly (Cleared m) s :=
    applyChosen_meets rfl hval (stateLe_iff.mpr le_rfl) hs
  cases hfetch : fetchMeta cfg item.name a.reply with
  | error e =>
    simp only [afterFetch, hitem]
    split
    · exact fun t _ h => nomatch h
    · split
      · exact hself
      · exact fun t _ h => nomatch h
  | ok fetched =>
    simp only [afterFetch, chooseState, hitem]
    by_cases hgt : compareState (some m) fetched = .gt
    · rw [if_pos hgt]
      exact hself
    · rw [if_neg hgt]
      cases hx : fetched with
      | none => exact fun t _ h => nomatch h
      | some x =>
        rw [hx] at hfetch hgt
        have hle : StateLe (some m) (some x) := Ordering.ne_gt_iff_isLE.mp hgt
        -- Only a well-formed reply about this very name gets this far.
        unfold fetchMeta at hfetch
        split at hfetch
        · cases hfetch
        · cases hfetch
        · next found hfound =>
          split at hfetch
          · cases hfetch
          · next hsame =>
            split at hfetch
            · cases hfetch
            · cases hfetch
              exact applyChosen_meets ((not_not.mp hsame).trans hname.symm)
                (hreply x hfound hgt) hle hs

theorem repairAttempt_meets (hitem : item.metadata = some m) (hname : m.name = item.name)
    (hval : validateChange cfg.digest cfg.patterns m = .ok ()) (hreply : UsableReply cfg m a.reply) (hs : s.Running) :
    (repairAttempt cfg a item).Meets Ongoing Quietly (Cleared m) s := by
  refine Task.Meets.bind ongoingFrame ((heldSections_meets hitem hname hs).mono ?_)
  rintro held t ⟨ht, hheld⟩
  cases held with
  | true => exact fun u htu _ => (hheld rfl).ongoing htu
  | false => exact afterFetch_meets hitem hname hval hreply ht

theorem repairAttempt_quietly (a : Attempt) (item : RepairRow) (hs : s.Running) :
    (repairAttempt cfg a item).Meets Ongoing Quietly (fun _ _ => True) s := by
  have hheld : (heldSections item).Meets Ongoing Quietly (fun _ t => t.Running) s := by
    unfold heldSections
    cases item.metadata with
    | none => exact fun t hst => (hst hs).1
    | some m =>
      refine Task.meets_next (quietlyFrame.look _)
        (fun e t u hst htu v huv => (huv (htu.beside (hst hs).1).1).1) fun t hst =>
          safe_look trivial fun _ => ?_
      have ht := (hst hs).1
      cases decide (item.name ∈ t.quarantined) with
      | true => exact fun u htu => (htu ht).1
      | false =>
        exact Task.meets_next (quietlyFrame.look _)
          (fun e u v htu huv w hvw => (hvw (huv.beside (htu ht).1).1).1) fun u htu =>
            safe_look trivial fun _ v huv => (huv (htu ht).1).1
  have hchosen : ∀ (chosen : FileMeta) {t : Node}, t.Running →
      (applyChosen cfg a chosen).Meets Ongoing Quietly (fun _ _ => True) t := by
    intro chosen t ht
    refine Task.Meets.bind ongoingFrame ((applySections_meets chosen a.body ht).mono ?_)
    intro r u _
    cases r with
    | ok x => exact fun _ _ => trivial
    | error e => exact fun _ _ => trivial
  refine Task.Meets.bind ongoingFrame (hheld.mono fun held t ht => ?_)
  cases held with
  | true => exact fun _ _ => trivial
  | false =>
    change (afterFetch cfg a item (fetchMeta cfg item.name a.reply)).Meets _ _ _ t
    cases fetchMeta cfg item.name a.reply with
    | error e =>
      unfold afterFetch
      dsimp only
      split
      · exact fun _ _ => trivial
      · split
        · split
          · exact hchosen _ ht
          · exact fun _ _ => trivial
        · exact fun _ _ => trivial
    | ok fetched =>
      unfold afterFetch
      dsimp only
      split
      · exact fun _ _ => trivial
      · exact hchosen _ ht

theorem repairAttempt_clears (hs : s.Running)
    (hitem : ∀ m, item.metadata = some m → m.name = item.name ∧ UsableReply cfg m a.reply ∧
      (validateChange cfg.digest cfg.patterns m = .ok () ∨ StateLe (some m) (s.store.getFile m.name))) :
    (repairAttempt cfg a item).Meets Ongoing Quietly
      (fun verdict t => verdict = .resolve → ∀ m, item.metadata = some m → Attained m t) s := by
  have hquiet : (repairAttempt cfg a item).Meets Ongoing Quietly (fun _ _ => True) s :=
    repairAttempt_quietly a item hs
  cases hm : item.metadata with
  | none => exact hquiet.mono fun _ _ _ _ m hm => nomatch hm
  | some m =>
    obtain ⟨hname, hreply, hval | hheld⟩ := hitem m hm
    · refine (repairAttempt_meets hm hname hval hreply hs).mono ?_
      intro verdict t hcleared hresolve m' hm'
      cases hm'
      exact hcleared hresolve
    · -- A state that is here already stays here.
      have hattained : Attained m s := ⟨hs, hheld⟩
      refine (hquiet.keeps (fun _ _ hst h => h.ongoing hst)
        (fun _ _ hst h => h.ongoing hst.beside.ongoing) hattained).mono ?_
      intro verdict t ht _ m' hm'
      cases hm'
      exact ht.2

end

theorem mergedFrame : Frame fun s t : Node => s.store.Merged t.store :=
  ⟨fun s => .refl s.store, fun h h' => h.trans h'⟩

def ignoringTmp : Config where
  digest := sha256
  fold := id
  patterns segment := segment = "tmp"
  granularity := 1
  stamp := id
  repairPeers := []
  repairLimit := 0
  mapOrder := id
  mapOrder_perm := .refl

def announcedX : FileMeta := { name := "x", modTime := 5, clock := 5, hash := sha256.hash [] }

def queuedX : RepairRow where
  peer := "p"
  name := "x"
  version := 1
  attempts := 0
  nextAttempt := 0
  firstSeen := 0
  lastError := "polled"
  metadata := some announcedX
  revision := 1
  large := false

def waitingForX : Node where
  store := { repairQueue := Table.empty.put queuedX, repairRevision := 1 }
  recovered := true

theorem waitingForX_running : waitingForX.Running :=
  ⟨((SameRows.onward ⟨rfl, rfl, rfl⟩ : Onward {} waitingForX) Store.sound_empty).1, rfl⟩

theorem waitingForX_queued : waitingForX.store.QueuedAtLeast queuedX.key announcedX :=
  ⟨queuedX, announcedX, rfl, rfl, by decide +kernel⟩

def servedX : Attempt := ⟨.found announcedX, [], false, false⟩

/-- The peer has since replaced the file by a directory, for a path this node ignores. -/
def supersededX : FileMeta where
  name := "x"
  modTime := 7
  clock := 7
  deleted := true
  hash := sha256.hash []
  supersededBy := "x/tmp"

def movedAwayX : Attempt := ⟨.found supersededX, [], false, false⟩

end BirakFormal
