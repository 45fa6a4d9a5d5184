import BirakFormal.Daemon.Corruption
import BirakFormal.Fileops.Durable
import BirakFormal.Watcher.Reported

/-!
# Durable before advertised

A gateway commit indexes its result without flushing it again, on the promise that the change
itself has flushed everything. Where the promise is kept, every live row is durable at the
moment it is committed. A size that is set through SFTP breaks it.
-/

namespace BirakFormal

open FileTrees Interruption Prog

def Object.view (o : Object) : Entry Leaf :=
  match o.body with
  | .dir => .dir
  | .file bytes mtime => .leaf (.file ⟨bytes, mtime, o.inode⟩)
  | .link _ => .leaf .special
  | .special => .leaf .special

def Shows (w : Layered) (s : Node) : Prop :=
  ∀ n, s.disk.lookup n = (w.disk.tree.lookup (split n)).map Object.view

theorem Shows.file {w : Layered} {s : Node} (h : Shows w s) {n : String} {o : FileObj}
    (ho : s.disk.lookup n = some (.leaf (.file o))) : ∃ obj, w.disk.tree.lookup (split n) = some obj ∧
      obj.content = some o.bytes ∧ obj.inode = o.ino := by
  rw [h n] at ho
  obtain ⟨obj, hobj, hview⟩ := Option.map_eq_some_iff.mp ho
  refine ⟨obj, hobj, ?_⟩
  unfold Object.view at hview
  split at hview
  · cases hview
  · next hbody =>
    cases hview
    exact ⟨by rw [Object.content, hbody], rfl⟩
  · cases hview
  · cases hview

namespace Change

def names (c : Change) : List String := c.paths.map joinSlash

def sourceNames (c : Change) : List String := c.sources.map joinSlash

def published (digest : Digest) (c : Change) : String → Option Hashed := fun n =>
  match c.staged with
  | none => none
  | some (o, dest) =>
    match o.body with
    | .file bytes mtime =>
      if n = joinSlash dest then some ⟨⟨o.inode, bytes.length, mtime⟩, digest.hash bytes⟩ else none
    | _ => none

end Change

/-- Every live row that is in `t` and not in `s` is for bytes that a power loss leaves. -/
def DurablyAdvertised (cfg : Config) (w : Layered) (s t : Node) : Prop :=
  ∀ n r, t.store.getFile n = some r → r.deleted = false → s.store.getFile n = some r ∨
    ∃ bytes, w.durable (split n) = some bytes ∧ r.hash = cfg.digest.hash bytes

section
variable {cfg : Config} {w : Layered} {pending : Path → Prop} {s t : Node}

theorem Reported.durable {names : String → Prop} (h : Reported cfg names s t) (hw : Persisted pending w)
    (hs : Shows w s) (hclear : ∀ n, names n → ∀ q, q <+: split n → ¬ pending q) :
    DurablyAdvertised cfg w s t := by
  intro n r hr hlive
  rcases h.rows n r hr hlive with hold | ⟨hn, bytes, hbytes, hhash⟩
  · exact Or.inl hold
  · obtain ⟨o, ho, rfl⟩ := bytesAt_eq_some.mp hbytes
    obtain ⟨obj, hobj, hcontent, -⟩ := hs.file ho
    exact Or.inr ⟨o.bytes, hw.durable hobj hcontent (hclear n hn), hhash⟩

theorem Change.published_vouched {c : Change} {w₂ : Layered} (hc : c.Ready w)
    (hw₂ : Grounded (c.floor w) pending w₂) (hs : Shows w₂ s) (n : String) :
    Vouched cfg s n (c.published cfg.digest n) := by
  intro h o hh ho hino
  unfold Change.published at hh
  split at hh
  · cases hh
  · next staged dest hstaged =>
    split at hh
    · next bytes mtime hbody =>
      split at hh
      · cases hh
        have hplace := hc.1 staged dest hstaged
        have hkept : w₂.contents staged.inode = some bytes :=
          (hw₂.contents _ hplace.below).trans (hplace.stored bytes (by rw [Object.content, hbody]))
        obtain ⟨obj, hobj, hcontent, hi⟩ := hs.file ho
        have hstored := hw₂.stored _ obj o.bytes hobj hcontent
        rw [hi, hino, hkept] at hstored
        rw [Option.some.inj hstored]
      · cases hh
    · cases hh

theorem split_prefix_of_inReach {paths : List String} {n : String} (h : InReach paths n) :
    ∃ p ∈ paths, split p <+: split n := by
  obtain ⟨p, hp, rfl | hbelow⟩ := h
  · exact ⟨n, hp, List.prefix_rfl⟩
  · exact ⟨p, hp, split_prefix_of_beneath hbelow⟩

theorem no_slash_of_local {p : Path} (h : localReplacementName p = true) :
    ∀ part ∈ p, '/' ∉ part.toList := by
  unfold localReplacementName at h
  rw [Bool.and_eq_true, List.all_eq_true] at h
  intro part hpart hslash
  have hlast := h.2 part hpart
  simp only [Bool.and_eq_true, Bool.not_eq_true', List.contains_eq_mem, decide_eq_false_iff_not] at hlast
  exact hlast.2 hslash

theorem Change.pending_clear {c : Change} (hc : c.Ready w) {n : String} (hn : InReach c.names n)
    {q : Path} (hq : q <+: split n) : ¬ c.pending q := by
  cases c with
  | copy limit src dst stage backup overwrite isDir =>
    rintro rfl
    obtain ⟨hlocal, hside, hne, hstage⟩ := hc.2
    obtain ⟨p, hp, hpre⟩ := split_prefix_of_inReach hn
    obtain rfl : p = joinSlash dst := by simpa [Change.names, Change.paths] using hp
    have hdst : dst ≠ [] := ne_nil_of_local hlocal
    rw [split_joinSlash hdst (no_slash_of_local hlocal)] at hpre
    -- Two paths of one length above the same name are one path.
    have hlen := congrArg List.length hside
    have hpos := List.length_pos_iff.mpr hdst
    have hpos' := List.length_pos_iff.mpr hstage
    simp only [List.length_dropLast] at hlen
    have hle : q.length ≤ dst.length := by omega
    have hge : dst.length ≤ q.length := by omega
    exact hne ((List.prefix_of_prefix_length_le hq hpre hle).eq_of_length_le hge)
  | _ => exact id

theorem settleCommit_reported {names : List String} {published : String → Option Hashed}
    (hrec : s.recovered = true) (hpub : ∀ n, Vouched cfg s n (published n))
    (r : Except (Failure Err) Unit) :
    (settleCommit cfg names published r).Safe (Reported cfg (InReach names) s)
      (fun _ => Reported cfg (InReach names) s) s := by
  have hrefl := (reportedFrame cfg (InReach names)).refl s
  match r with
  | .ok () => exact finishCommitLocked_reported hpub
  | .error e =>
    refine Safe.bind (R := fun _ t => t = s) ?_ ?_
    · refine safe_barrier_bind hrefl (safe_barrier_bind hrefl (safe_look_bind hrefl ?_))
      rw [if_pos hrec]
      exact safe_pure rfl
    · rintro _ t rfl
      refine Safe.bind (R := fun _ => Reported cfg (InReach names) t)
        (safe_attempt (Sat.mono (finishCommitLocked_reported hpub) (fun _ => id) (fun _ _ => id)
          fun _ _ => id)) fun _ u hu => safe_rethrow hu

end

def stagedVolume : Layered where
  disk := { tree := .empty }
  links _ _ := none
  contents i := if i = 9 then some [1] else none
  next := 10

def stagedA : Object := { inode := 9, body := .file [1] 5 }

def volumeWithA : Layered := (((Change.publish stagedA ["a"]).work sha256).exec stagedVolume).2

def emptyA : Change := .setstat ["a"] { size := some 0 }

def truncatedVolume : Layered := ((emptyA.work sha256).exec volumeWithA).2

theorem stagedVolume_persisted : Persisted (fun _ => False) stagedVolume :=
  ⟨fun _ _ h => absurd rfl h, ⟨nofun, nofun, fun _ _ h => absurd rfl h⟩, nofun, nofun, nofun, by decide⟩

theorem publishA_ready : (Change.publish stagedA ["a"]).Ready stagedVolume := by
  refine ⟨fun o dest h => ?_, trivial⟩
  cases h
  refine ⟨by decide, by decide, nofun, fun b hb => ?_⟩
  cases hb
  rfl

theorem publishA_run : ((Change.publish stagedA ["a"]).work sha256).exec stagedVolume =
    (.ok (.ok ()), volumeWithA) := rfl

theorem volumeWithA_lookup (k : Path) :
    volumeWithA.disk.tree.lookup k = if k = ["a"] then some stagedA else none := rfl

theorem truncatedVolume_lookup (k : Path) : truncatedVolume.disk.tree.lookup k =
    if k = ["a"] then some { stagedA with body := .file [] 0 } else none := by
  show (if k = ["a"] then _ else volumeWithA.disk.tree.lookup k) = _
  rw [volumeWithA_lookup]
  split
  · rfl
  · rfl

theorem shows_of_rows {w : Layered} {s : Node} {o : Object}
    (hw : ∀ k, w.disk.tree.lookup k = if k = ["a"] then some o else none)
    (hs : s.disk.entries.rows = [("a", o.view)]) : Shows w s := by
  intro n
  rw [hw]
  show (List.find? _ s.disk.entries.rows).map Prod.snd = _
  rw [hs]
  by_cases hn : n = "a"
  · subst hn
    rfl
  · have hsplit : split n ≠ ["a"] := fun heq => hn (by rw [← joinSlash_split n, heq]; rfl)
    rw [if_neg hsplit, List.find?_cons_of_neg (by simpa using Ne.symm hn)]
    rfl

def placedNode : Node := ((saveA 1).exec startedNode).2

def publishedNode : Node :=
  ((settleCommit plainConfig ["a"] ((Change.publish stagedA ["a"]).published sha256) (.ok ())).exec
    placedNode).2

theorem placedNode_shows : Shows volumeWithA placedNode :=
  shows_of_rows volumeWithA_lookup (by decide +kernel)

def emptyCommit : Sys Unit :=
  commitPublishedLocked plainConfig [] ["a"] (emptyA.published sha256)
    (update fun s => (s.place "a" ⟨[], 0, 9⟩).map fun t => ((), t))

def truncatedNode : Node := (emptyCommit.exec savedNode).2

end BirakFormal
