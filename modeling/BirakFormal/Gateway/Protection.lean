import BirakFormal.Gateway.Containment
import BirakFormal.Gateway.Dav
import BirakFormal.Store.Sha256

/-!
# What a write lock protects

A handler asks the lock table only for the paths that the request names. So a lock protects what
it covers from every request whose paths are not strictly above it, and whose clean-up of parent
directories, or whose creation of them, does not meet it.
-/

namespace BirakFormal

open Interruption Prog Subtrees FileTrees

variable {lk : WriteLock}

theorem covers_iff {path : String} :
    lk.covers path = true ↔ lk.path = path ∨ lk.depth = .infinity ∧ (lk.path = "" ∨ Beneath path lk.path) := by
  unfold WriteLock.covers
  by_cases heq : lk.path = path
  · simp [heq]
  · by_cases hdepth : lk.depth = .infinity
    · by_cases hroot : lk.path = ""
      · simp [hdepth, hroot]
      · simp [heq, hdepth, hroot, beneath_iff]
    · simp [heq, hdepth]

theorem isDescendant_of_beneath {p ancestor : String} (h : Beneath p ancestor) :
    isDescendant p ancestor = true := by
  unfold isDescendant
  split
  · refine decide_eq_true ?_
    rintro rfl
    exact absurd (slash_mem_of_beneath h) (by decide)
  · exact beneath_iff.mp h

section
variable {rel path : String} (hfree : lk.covers rel = false) (hpath : lk.covers path = true)

include hfree

theorem not_covering : lk.path ≠ rel ∧ (lk.depth = .infinity → lk.path ≠ "" ∧ ¬ Beneath rel lk.path) := by
  have hnot : ¬ lk.covers rel = true := by rw [hfree]; decide
  rw [covers_iff] at hnot
  refine ⟨fun h => hnot (Or.inl h), fun hdepth => ⟨fun h => hnot (Or.inr ⟨hdepth, Or.inl h⟩),
    fun h => hnot (Or.inr ⟨hdepth, Or.inr h⟩)⟩⟩

theorem not_prefix_of_infinity (hdepth : lk.depth = .infinity) : ¬ split lk.path <+: split rel := by
  intro hpre
  rcases split_prefix_iff.mp hpre with h | h
  · exact (not_covering hfree).1 h
  · exact ((not_covering hfree).2 hdepth).2 h

include hpath

theorem beneath_of_covered_below (hsub : split rel <+: split path) : Beneath lk.path rel := by
  have hlock : split rel <+: split lk.path := by
    rcases covers_iff.mp hpath with rfl | ⟨hdepth, hroot | hbeneath⟩
    · exact hsub
    · exact absurd hroot ((not_covering hfree).2 hdepth).1
    · rcases List.prefix_or_prefix_of_prefix hsub (split_prefix_of_beneath hbeneath) with h | h
      · exact h
      · exact absurd h (not_prefix_of_infinity hfree hdepth)
  rcases split_prefix_iff.mp hlock with h | h
  · exact absurd h.symm (not_covering hfree).1
  · exact h

theorem zero_of_covered_above (habove : Beneath rel path) : lk.path = path ∧ lk.depth = .zero := by
  rcases covers_iff.mp hpath with rfl | ⟨hdepth, hroot | hbeneath⟩
  · refine ⟨rfl, ?_⟩
    cases hdepth : lk.depth with
    | zero => rfl
    | infinity => exact absurd habove ((not_covering hfree).2 hdepth).2
  · exact absurd hroot ((not_covering hfree).2 hdepth).1
  · exact absurd (habove.trans hbeneath) ((not_covering hfree).2 hdepth).2

theorem not_covered_scratch {x : String} (hx : x ∉ split lk.path)
    (hsub : (split rel).dropLast ++ [x] <+: split path) : False := by
  rcases covers_iff.mp hpath with rfl | ⟨hdepth, hroot | hbeneath⟩
  · exact hx (hsub.subset (by simp))
  · exact ((not_covering hfree).2 hdepth).1 hroot
  · rcases List.prefix_or_prefix_of_prefix (split_prefix_of_beneath hbeneath) hsub with h | h
    · rcases List.prefix_concat_iff.mp h with h | h
      · exact hx (h ▸ by simp)
      · exact not_prefix_of_infinity hfree hdepth (h.trans (List.dropLast_prefix _))
    · exact hx (h.subset (by simp))

end

def componentsOf (rel : String) : Path := if rel = "" then [] else split rel

section
variable {rel path : String} (hfree : lk.covers rel = false) (hpath : lk.covers path = true)

theorem componentsOf_ne_nil : componentsOf rel ≠ [] ↔ rel ≠ "" := by
  unfold componentsOf
  split
  · next h => simp [h]
  · next h => simp [h, split_ne_nil]

theorem componentsOf_of_ne (h : componentsOf rel ≠ []) : componentsOf rel = split rel :=
  if_neg (componentsOf_ne_nil.mp h)

theorem ne_nil_of_extends {p k : Path} (hp : p ≠ []) (h : p <+: k) : k ≠ [] := by
  rintro rfl
  exact hp (List.prefix_nil.mp h)

include hfree hpath

theorem components_ne : componentsOf path ≠ split rel := by
  intro heq
  have hne : componentsOf path ≠ [] := by rw [heq]; exact split_ne_nil rel
  rw [componentsOf_of_ne hne] at heq
  have hsame : path = rel := by rw [← joinSlash_split path, heq, joinSlash_split]
  rw [hsame, hfree] at hpath
  cases hpath

theorem components_not_below (h : ¬ Beneath lk.path rel) : ¬ split rel <+: componentsOf path := by
  intro hsub
  rw [componentsOf_of_ne (ne_nil_of_extends (split_ne_nil rel) hsub)] at hsub
  exact h (beneath_of_covered_below hfree hpath hsub)

theorem components_above (hsub : componentsOf path <+: (split rel).dropLast) (hne : componentsOf path ≠ []) :
    lk.path = path ∧ lk.depth = .zero ∧ Beneath rel lk.path := by
  rw [componentsOf_of_ne hne] at hsub
  have habove : Beneath rel path := by
    rcases split_prefix_iff.mp (hsub.trans (List.dropLast_prefix _)) with rfl | h
    · have hlen := hsub.length_le
      have hpos := List.length_pos_iff.mpr (split_ne_nil path)
      rw [List.length_dropLast] at hlen
      omega
    · exact h
  obtain ⟨rfl, hdepth⟩ := zero_of_covered_above hfree hpath habove
  exact ⟨rfl, hdepth, habove⟩

theorem components_not_scratch {x : String} (hx : x ∉ split lk.path) :
    ¬ (split rel).dropLast ++ [x] <+: componentsOf path := by
  intro hsub
  rw [componentsOf_of_ne (ne_nil_of_extends (by simp) hsub)] at hsub
  exact not_covered_scratch hfree hpath hx hsub

end

/-- Wherever the program stops, `k` is as it was. -/
structure Keeps {α : Type} (k : Path) (p : LayeredProg α) (w : Layered) : Prop where
  safe : p.Safe (ConfinedTo (· ≠ k) w) (fun _ => ConfinedTo (· ≠ k) w) w

section
variable {k : Path} {w : Layered} {α β : Type}

theorem Keeps.of_within {p : LayeredProg α} (h : p.Within (ConfinedTo (· ≠ k))) : Keeps k p w := ⟨h w⟩

theorem Keeps.pure (a : α) : Keeps k (pure a : LayeredProg α) w :=
  ⟨(confinedToFrame _).pure a w⟩

theorem Keeps.look_bind {g : Layered → α} {next : Except (Failure Err) α → LayeredProg β}
    (h : ∀ r, Keeps k (next r) w) : Keeps k (attempt (look g) >>= next) w :=
  ⟨safe_attempt_look_bind ((confinedToFrame _).refl w) (h _).safe (h _).safe⟩

variable {status : Failure Err → Nat}

theorem Keeps.orStatus {p : LayeredProg Unit} {next : LayeredProg Nat}
    (hp : Keeps k p w) (hnext : next.Within (ConfinedTo (· ≠ k))) : Keeps k (orStatus p status next) w := by
  have F := confinedToFrame (· ≠ k)
  refine ⟨Safe.bind (R := fun _ => ConfinedTo (· ≠ k) w) (safe_attempt hp.safe) fun r t ht => ?_⟩
  cases r with
  | ok u => exact (hnext t).mono (fun _ => F.trans ht) fun _ _ => F.trans ht
  | error e => exact safe_pure ht

theorem within_orStatus {reg : Path → Prop} {p : LayeredProg Unit}
    {next : LayeredProg Nat} (hp : p.Within (ConfinedTo reg)) (hnext : next.Within (ConfinedTo reg)) :
    (orStatus p status next).Within (ConfinedTo reg) := by
  apply (confinedToFrame reg).bind hp.attempt
  intro r
  cases r with
  | ok u => exact hnext
  | error e => exact (confinedToFrame reg).pure _

end

section
variable {cfg : DavConfig} {k : Path} {w : Layered} {path : Path}

theorem mkdirSection_keeps (hj : w.disk.journal = none)
    (hparents : k <+: path → k ≠ [] → w.disk.tree.lookup k ≠ none) :
    Keeps k (Layered.mkdirSection cfg.digest path true) w := by
  refine ⟨mkdirSection_missing hj fun dir hdir hne hnone => ?_⟩
  rintro rfl
  exact hparents hdir hne hnone

theorem stageBody_within {reg : Path → Prop} (body : Bytes) (aborted : Bool) :
    (stageBody cfg body aborted).Within (ConfinedTo reg) := by
  have F := confinedToFrame reg
  unfold stageBody
  split
  · exact F.pure _
  · split
    · exact F.pure _
    · apply F.bind (writeTemp_confined _ _ _).attempt
      intro r
      cases r with
      | ok o => exact F.pure _
      | error e => exact F.pure _

theorem putFile_keeps {body : Bytes} {aborted : Bool} (hj : w.disk.journal = none)
    (hpath : path ≠ k) (hparents : k <+: path.dropLast → k ≠ [] → w.disk.tree.lookup k ≠ none) :
    Keeps k (putFile cfg path body aborted) w := by
  have F := confinedToFrame (· ≠ k)
  apply (mkdirSection_keeps hj hparents).orStatus
  apply F.bind (F.look _).attempt
  intro found
  apply F.bind (stageBody_within body aborted)
  intro staged
  cases staged with
  | error status => exact F.pure _
  | ok o =>
    have hpublish : (Change.run cfg.digest (.publish o path)).Within (ConfinedTo (· ≠ k)) :=
      publish_confined hpath
    exact within_orStatus (commit_confined hpublish) (F.pure _)

theorem cleanEmptyParents_within {file : Path} (h : ¬ (k <+: file.dropLast ∧ k ≠ [])) :
    (Layered.cleanEmptyParents [] file).Within (ConfinedTo (· ≠ k)) := by
  apply cleanEmptyParents_confined
  rintro dir hdir hlen rfl
  exact h ⟨hdir, List.length_pos_iff.mp hlen⟩

theorem deletePath_within {sizes : List Nat} (hpath : ¬ path <+: k) (hparents : ¬ (k <+: path.dropLast ∧ k ≠ [])) :
    (deletePath cfg path sizes).Within (ConfinedTo (· ≠ k)) := by
  have F := confinedToFrame (· ≠ k)
  apply F.bind (F.look _).attempt
  intro found
  split
  · exact F.pure _
  · exact F.pure _
  · refine within_orStatus (removePathSection_confined ?_) ?_
    · rintro q hq rfl
      exact hpath hq
    · exact F.bind (cleanEmptyParents_within hparents) fun _ => F.pure _

theorem makeCollection_within {hasBody : Bool} (hpath : path ≠ k) :
    (makeCollection cfg path hasBody).Within (ConfinedTo (· ≠ k)) := by
  have F := confinedToFrame (· ≠ k)
  unfold makeCollection
  split
  · exact F.pure _
  · apply F.bind (F.look _).attempt
    intro parent
    split
    · exact F.pure _
    · apply F.bind (F.look _).attempt
      intro found
      split
      · exact F.pure _
      · refine within_orStatus (mkdirSection_confined ?_) (F.pure _)
        rintro dir - - (h | rfl)
        · cases h
        · exact hpath

variable {src dst : Path} {overwrite : Bool}

theorem replacing_keeps {next : Bool → LayeredProg Nat} (hj : w.disk.journal = none)
    (hparents : k <+: dst.dropLast → k ≠ [] → w.disk.tree.lookup k ≠ none)
    (hnext : ∀ b, (next b).Within (ConfinedTo (· ≠ k))) :
    Keeps k (replacing cfg src dst overwrite next) w := by
  apply Keeps.look_bind
  intro found
  split
  · exact Keeps.pure _
  · split
    · exact Keeps.pure _
    · apply Keeps.look_bind
      intro found
      split
      · exact Keeps.pure _
      · exact (mkdirSection_keeps hj hparents).orStatus (hnext _)

theorem movePath_keeps {backup : String} (hj : w.disk.journal = none)
    (hsrc : ¬ src <+: k) (hdst : ¬ dst <+: k) (hbackup : ¬ dst.dropLast ++ [".birak-bak-" ++ backup] <+: k)
    (hclean : ¬ (k <+: src.dropLast ∧ k ≠ []))
    (hparents : k <+: dst.dropLast → k ≠ [] → w.disk.tree.lookup k ≠ none) :
    Keeps k (movePath cfg src dst overwrite backup) w := by
  have F := confinedToFrame (· ≠ k)
  have hmove : (Change.run cfg.digest (.move src dst (dst.dropLast ++ [".birak-bak-" ++ backup]) overwrite)).Within
      (ConfinedTo (· ≠ k)) := by
    apply move_confined
    · rintro q hq rfl
      exact hsrc hq
    · rintro q hq rfl
      exact hdst hq
    · rintro q hq rfl
      exact hbackup hq
  refine replacing_keeps hj hparents fun dstExists => within_orStatus (commit_confined hmove) ?_
  exact F.bind (cleanEmptyParents_within hclean) fun _ => F.pure _

theorem copyPath_keeps {stage backup : String} (hj : w.disk.journal = none) (hdst : ¬ dst <+: k)
    (hstage : ¬ dst.dropLast ++ [".birak-tmp-replace-" ++ stage] <+: k)
    (hbackup : ¬ dst.dropLast ++ [".birak-bak-" ++ backup] <+: k)
    (hparents : k <+: dst.dropLast → k ≠ [] → w.disk.tree.lookup k ≠ none) :
    Keeps k (copyPath cfg src dst overwrite stage backup) w := by
  have F := confinedToFrame (· ≠ k)
  refine replacing_keeps hj hparents fun dstExists => ?_
  apply F.bind (F.look _).attempt
  intro found
  split
  · next o =>
    have hcopy : (Change.run cfg.digest (.copy cfg.maxUploadBytes src dst
        (dst.dropLast ++ [".birak-tmp-replace-" ++ stage]) (dst.dropLast ++ [".birak-bak-" ++ backup])
        overwrite o.isDir)).Within (ConfinedTo (· ≠ k)) := by
      apply copy_confined
      · rintro q hq rfl
        exact hstage hq
      · rintro q hq rfl
        exact hdst hq
      · rintro q hq rfl
        exact hbackup hq
    exact within_orStatus (commit_confined hcopy) (F.pure _)
  · exact F.pure _

end

def LockTable.Named (m : LockTable) : Prop := ∀ lk ∈ m, (split lk.path).any isScratchSpelling = false

variable {url rel : String}

theorem resolveName_ok {patterns : String → Bool}
    (h : resolveName patterns url = .ok rel) : (split rel).any isScratchSpelling = false := by
  unfold resolveName at h
  dsimp only at h
  generalize cleanRequest url = cleaned at h
  split at h
  · exact absurd h nofun
  · split at h
    · obtain rfl := Except.ok.inj h
      decide
    · next hne =>
      split at h
      · exact absurd h nofun
      · next hvalid =>
        obtain rfl := Except.ok.inj h
        rcases presentable_of_validate hvalid with hempty | hnamed
        · exact absurd hempty hne
        · exact hnamed.2.2

theorem resolveName_of_safePath {h : Host} {cwd : List String} {rootDir url rel full : String}
    {patterns : String → Bool} (hok : safePath h cwd rootDir url patterns = .ok (rel, full)) :
    resolveName patterns url = .ok rel := by
  have hrel := safePath_rel hok
  unfold safePath at hok
  unfold resolveName
  dsimp only at hok ⊢
  rw [← hrel] at hok ⊢
  split at hok
  · exact absurd hok nofun
  · next hup =>
    rw [if_neg hup]
    split at hok
    · next hempty => rw [if_pos hempty, hempty]
    · next hne =>
      rw [if_neg hne]
      cases hvalid : validateClientPath patterns rel with
      | error e =>
        rw [hvalid] at hok
        exact absurd hok nofun
      | ok _ => rfl

section
variable {m : LockTable}

theorem LockTable.Named.of_subset {m' : LockTable} (h : m.Named) (hsub : ∀ lk ∈ m', lk ∈ m) : m'.Named :=
  fun lk hlk => h lk (hsub lk hlk)

theorem LockTable.Named.reap (h : m.Named) (now : Nat) : (m.reap now).Named :=
  h.of_subset fun _ hlk => (List.mem_filter.mp hlk).1

theorem LockTable.Named.create (h : m.Named) (now : Nat) {path : String} (depth : Depth) (timeout : Int)
    (token : String) (hpath : (split path).any isScratchSpelling = false) :
    (m.create now path depth timeout token).2.Named := by
  unfold LockTable.create
  dsimp only
  split
  · exact h.reap now
  · split
    · exact h.reap now
    · intro lk hlk
      rcases List.mem_append.mp hlk with hold | hnew
      · exact h.reap now lk (List.mem_filter.mp hold).1
      · rw [List.mem_singleton.mp hnew]
        exact hpath

theorem LockTable.Named.refresh (h : m.Named) (now : Nat) (token : String) (timeout : Int) :
    (m.refresh now token timeout).2.Named := by
  unfold LockTable.refresh
  dsimp only
  split
  · exact h.reap now
  · next found hfound =>
    intro lk hlk
    obtain ⟨x, hx, rfl⟩ := List.mem_map.mp hlk
    split
    · exact h.reap now found (List.mem_of_find?_eq_some hfound)
    · exact h.reap now x hx

theorem refreshFirst_named (now : Nat) (timeout : Int) (rel : String) (tokens : List String) (h : m.Named) :
    (refreshFirst now timeout rel tokens m).2.Named := by
  induction tokens generalizing m with
  | nil => exact h
  | cons token tokens ih =>
    have hstep := h.refresh now token timeout
    unfold refreshFirst
    generalize m.refresh now token timeout = r at hstep ⊢
    obtain ⟨found, m'⟩ := r
    cases found with
    | none => exact ih hstep
    | some lk =>
      dsimp only
      split
      · exact hstep
      · exact ih hstep

theorem handleLock_named (cfg : DavConfig) (now : Nat) (url ifHeader depth : String) (timeout : Int)
    (token : String) (h : m.Named) :
    (handleLock cfg m now url ifHeader depth timeout token).2.Named := by
  unfold handleLock
  split
  · exact h
  · next rel hrel =>
    have hfirst : (if ifHeader = "" then (none, m)
        else refreshFirst now timeout rel (parseIfTokens ifHeader) m).2.Named := by
      split
      · exact h
      · exact refreshFirst_named now timeout rel _ h
    generalize (if ifHeader = "" then (none, m)
      else refreshFirst now timeout rel (parseIfTokens ifHeader) m) = r at hfirst ⊢
    obtain ⟨refreshed, m'⟩ := r
    cases refreshed with
    | some lk => exact hfirst
    | none =>
      have hnew := hfirst.create now (if depth = "0" then .zero else .infinity) timeout token
        (resolveName_ok hrel)
      dsimp only
      generalize m'.create now rel (if depth = "0" then .zero else .infinity) timeout token = c at hnew ⊢
      obtain ⟨created, m''⟩ := c
      cases created <;> exact hnew

theorem LockTable.Named.unlock (h : m.Named) (token : String) : (m.unlock token).2.Named := by
  unfold LockTable.unlock
  split
  · exact h.of_subset fun lk hlk => (List.mem_filter.mp hlk).1
  · exact h

end

theorem DavStep.named {cfg : DavConfig} {s s' : Dav} (hstep : DavStep cfg s s') (h : s.locks.Named) :
    s'.locks.Named := by
  induction hstep with
  | @lock status locks url ifHeader depth timeout token hlocks =>
    have hnamed := handleLock_named cfg s.now url ifHeader depth timeout token h
    rw [hlocks] at hnamed
    exact hnamed
  | unlock token => exact h.unlock token
  | request r hrun => exact h.reap _
  | elapse time => exact h
  | outside vol => exact h

theorem DavReachable.named {cfg : DavConfig} {s : Dav} (h : DavReachable cfg s) : s.locks.Named := by
  induction h with
  | start now vol => exact fun lk hlk => absurd hlk List.not_mem_nil
  | step _ hstep ih => exact hstep.named ih

def DavRequest.names (cfg : DavConfig) (url : String) : List String :=
  match resolveName cfg.patterns url with
  | .ok rel => [rel]
  | .error _ => []

def DavRequest.destinationNames (cfg : DavConfig) : Destination → List String
  | .path url => names cfg url
  | _ => []

def DavRequest.replaced (cfg : DavConfig) (r : DavRequest) : List String :=
  match r.method with
  | .delete _ => names cfg r.url
  | .move destination _ _ => names cfg r.url ++ destinationNames cfg destination
  | .copy destination _ _ _ => destinationNames cfg destination
  | _ => []

def DavRequest.emptied (cfg : DavConfig) (r : DavRequest) : List String :=
  match r.method with
  | .delete _ => names cfg r.url
  | .move _ _ _ => names cfg r.url
  | _ => []

def DavRequest.created (cfg : DavConfig) (r : DavRequest) : List String :=
  match r.method with
  | .put _ _ => names cfg r.url
  | .move destination _ _ => destinationNames cfg destination
  | .copy destination _ _ _ => destinationNames cfg destination
  | _ => []

structure Foreign (s : Dav) (r : DavRequest) (lk : WriteLock) : Prop where
  held : lk ∈ s.locks
  live : lk.live s.now = true
  unnamed : lk.token ∉ parseIfTokens r.ifHeader

/-- No foreign lock is strictly below a resource that the request removes or replaces. Strictly
above, one of depth zero is above no resource that is removed, and what it is on exists where
parents are made. Nothing waits for recovery, and the tree has no symbolic links. -/
structure Unentangled (cfg : DavConfig) (s : Dav) (r : DavRequest) : Prop where
  settled : s.vol.disk.journal = none
  linkless : ∀ k o target, s.vol.disk.tree.lookup k = some o → o.body ≠ .link target
  below : ∀ lk, Foreign s r lk → ∀ rel ∈ r.replaced cfg, isDescendant lk.path rel = false
  emptied : ∀ lk, Foreign s r lk → lk.depth = .zero → lk.path ≠ "" → ∀ rel ∈ r.emptied cfg,
    isDescendant rel lk.path = false
  created : ∀ lk, Foreign s r lk → lk.depth = .zero → lk.path ≠ "" → ∀ rel ∈ r.created cfg,
    isDescendant rel lk.path = true → s.vol.resource lk.path ≠ none

theorem not_covers_of_canModify {s : Dav} {r : DavRequest} (h : Foreign s r lk)
    (hok : s.locks.canModify s.now rel r.ifHeader = true) : lk.covers rel = false := by
  unfold LockTable.canModify at hok
  rw [Bool.not_eq_true', List.any_eq_false] at hok
  have hlk := hok lk (List.mem_filter.mpr ⟨h.held, h.live⟩)
  have htoken : (parseIfTokens r.ifHeader).contains lk.token = false := by
    rw [← Bool.not_eq_true, List.contains_iff_mem]
    exact h.unnamed
  rw [htoken] at hlk
  simpa using hlk

theorem scratch_not_mem {m : LockTable} (h : m.Named) (hlk : lk ∈ m) {x : String}
    (hx : isScratchSpelling x = true) : x ∉ split lk.path := by
  intro hmem
  have hnone := h lk hlk
  rw [List.any_eq_false] at hnone
  exact hnone x hmem hx

theorem hasPrefixFold_append {p : String} (rest : String) : hasPrefixFold (p ++ rest) p = true := by
  unfold hasPrefixFold
  rw [String.toList_append, List.take_left]
  exact decide_eq_true rfl

theorem scratch_backup (rest : String) : isScratchSpelling (".birak-bak-" ++ rest) = true := by
  unfold isScratchSpelling
  rw [hasPrefixFold_append, Bool.or_true]

theorem scratch_stage (rest : String) : isScratchSpelling (".birak-tmp-replace-" ++ rest) = true := by
  have hsplit : ".birak-tmp-replace-" ++ rest = ".birak-tmp-" ++ ("replace-" ++ rest) := by
    rw [← String.append_assoc]
    rfl
  unfold isScratchSpelling
  rw [hsplit, hasPrefixFold_append, Bool.true_or]

section
variable {cfg : DavConfig} {s : Dav} {r : DavRequest} {lk : WriteLock} {path : String}

theorem mem_names (h : resolveName cfg.patterns url = .ok rel) :
    rel ∈ DavRequest.names cfg url := by
  unfold DavRequest.names
  rw [h]
  exact List.mem_singleton_self rel

theorem mem_destinationNames (h : resolveName cfg.patterns url = .ok rel) :
    rel ∈ DavRequest.destinationNames cfg (.path url) := by
  unfold DavRequest.destinationNames
  exact mem_names h

variable (hcond : Unentangled cfg s r) (hlk : Foreign s r lk) (hcov : lk.covers path = true)

include hlk

theorem onResource_keeps {next : Path → LayeredProg Nat} {k : Path}
    (h : ∀ rel, resolveName cfg.patterns r.url = .ok rel → lk.covers rel = false →
      Keeps k (next (split rel)) s.vol) :
    Keeps k (onResource cfg s.locks s.now r next) s.vol := by
  unfold onResource
  split
  · exact Keeps.pure _
  · next rel hrel =>
    split
    · exact Keeps.pure _
    · split
      · exact Keeps.pure _
      · next hopen =>
        simp only [Bool.not_eq_true', Bool.not_eq_false] at hopen
        exact h rel hrel (not_covers_of_canModify hlk hopen)

variable {destination : Destination}

theorem onResources_keeps {overwrite : String} {changesSource : Bool}
    {next : Path → Path → Bool → LayeredProg Nat} {k : Path}
    (h : ∀ src dst overwrite, resolveName cfg.patterns r.url = .ok src →
      (changesSource = true → lk.covers src = false) →
      dst ∈ DavRequest.destinationNames cfg destination → lk.covers dst = false →
      Keeps k (next (split src) (split dst) overwrite) s.vol) :
    Keeps k (onResources cfg s.locks s.now r destination overwrite changesSource next) s.vol := by
  unfold onResources
  split
  · exact Keeps.pure _
  · next src hsrc =>
    split
    · exact Keeps.pure _
    · split
      · exact Keeps.pure _
      · exact Keeps.pure _
      · split
        · exact Keeps.pure _
        · next dst hdst =>
          split
          · exact Keeps.pure _
          · split
            · exact Keeps.pure _
            · split
              · exact Keeps.pure _
              · next hopen =>
                split
                · exact Keeps.pure _
                · next hopen' =>
                  simp only [Bool.not_eq_true', Bool.not_eq_false] at hopen'
                  refine h src dst _ hsrc (fun hchanges => ?_) (mem_destinationNames hdst)
                    (not_covers_of_canModify hlk hopen')
                  rw [hchanges, Bool.true_and, Bool.not_eq_true', Bool.not_eq_false] at hopen
                  exact not_covers_of_canModify hlk hopen

include hcond hcov

variable {rel : String}

theorem Unentangled.parents (hmem : rel ∈ r.created cfg) (hfree : lk.covers rel = false)
    (hsub : componentsOf path <+: (split rel).dropLast) (hne : componentsOf path ≠ []) :
    s.vol.disk.tree.lookup (componentsOf path) ≠ none := by
  obtain ⟨rfl, hdepth, habove⟩ := components_above hfree hcov hsub hne
  exact hcond.created lk hlk hdepth (componentsOf_ne_nil.mp hne) rel hmem (isDescendant_of_beneath habove)

theorem Unentangled.kept (hmem : rel ∈ r.emptied cfg) (hfree : lk.covers rel = false) :
    ¬ (componentsOf path <+: (split rel).dropLast ∧ componentsOf path ≠ []) := by
  rintro ⟨hsub, hne⟩
  obtain ⟨rfl, hdepth, habove⟩ := components_above hfree hcov hsub hne
  have hnot := hcond.emptied lk hlk hdepth (componentsOf_ne_nil.mp hne) rel hmem
  rw [isDescendant_of_beneath habove] at hnot
  cases hnot

theorem Unentangled.spared (hmem : rel ∈ r.replaced cfg) (hfree : lk.covers rel = false) :
    ¬ split rel <+: componentsOf path := by
  apply components_not_below hfree hcov
  intro hbeneath
  have hnot := hcond.below lk hlk rel hmem
  rw [isDescendant_of_beneath hbeneath] at hnot
  cases hnot

theorem handlePut_keeps {body : Bytes} {aborted : Bool} (hm : r.method = .put body aborted) :
    Keeps (componentsOf path) (handlePut cfg s.locks s.now r body aborted) s.vol := by
  apply onResource_keeps hlk
  intro rel hrel hfree
  have hcreated : rel ∈ r.created cfg := by
    simp only [DavRequest.created, hm]
    exact mem_names hrel
  exact putFile_keeps hcond.settled (components_ne hfree hcov).symm (hcond.parents hlk hcov hcreated hfree)

theorem handleDelete_keeps {sizes : List Nat} (hm : r.method = .delete sizes) :
    Keeps (componentsOf path) (handleDelete cfg s.locks s.now r sizes) s.vol := by
  apply onResource_keeps hlk
  intro rel hrel hfree
  have hreplaced : rel ∈ r.replaced cfg := by
    simp only [DavRequest.replaced, hm]
    exact mem_names hrel
  have hemptied : rel ∈ r.emptied cfg := by
    simp only [DavRequest.emptied, hm]
    exact mem_names hrel
  exact Keeps.of_within (deletePath_within (hcond.spared hlk hcov hreplaced hfree)
    (hcond.kept hlk hcov hemptied hfree))

omit hcond in
theorem handleMkcol_keeps {hasBody : Bool} :
    Keeps (componentsOf path) (handleMkcol cfg s.locks s.now r hasBody) s.vol := by
  apply onResource_keeps hlk
  intro rel _ hfree
  exact Keeps.of_within (makeCollection_within (components_ne hfree hcov).symm)

theorem handleMove_keeps {overwrite backup : String} (hnamed : s.locks.Named)
    (hm : r.method = .move destination overwrite backup) :
    Keeps (componentsOf path) (handleMove cfg s.locks s.now r destination overwrite backup) s.vol := by
  apply onResources_keeps hlk
  intro src dst _ hsrc hfree hdst hfree'
  have hsource : src ∈ r.replaced cfg := by
    simp only [DavRequest.replaced, hm]
    exact List.mem_append_left _ (mem_names hsrc)
  have htarget : dst ∈ r.replaced cfg := by
    simp only [DavRequest.replaced, hm]
    exact List.mem_append_right _ hdst
  have hemptied : src ∈ r.emptied cfg := by
    simp only [DavRequest.emptied, hm]
    exact mem_names hsrc
  have hcreated : dst ∈ r.created cfg := by
    simp only [DavRequest.created, hm]
    exact hdst
  have hscratch := scratch_not_mem hnamed hlk.held (scratch_backup backup)
  exact movePath_keeps hcond.settled (hcond.spared hlk hcov hsource (hfree rfl))
    (hcond.spared hlk hcov htarget hfree') (components_not_scratch hfree' hcov hscratch)
    (hcond.kept hlk hcov hemptied (hfree rfl)) (hcond.parents hlk hcov hcreated hfree')

theorem handleCopy_keeps {overwrite stage backup : String}
    (hnamed : s.locks.Named) (hm : r.method = .copy destination overwrite stage backup) :
    Keeps (componentsOf path) (handleCopy cfg s.locks s.now r destination overwrite stage backup) s.vol := by
  apply onResources_keeps hlk
  intro src dst _ _ _ hdst hfree
  have htarget : dst ∈ r.replaced cfg := by
    simp only [DavRequest.replaced, hm]
    exact hdst
  have hcreated : dst ∈ r.created cfg := by
    simp only [DavRequest.created, hm]
    exact hdst
  have hstage := scratch_not_mem hnamed hlk.held (scratch_stage stage)
  have hbackup := scratch_not_mem hnamed hlk.held (scratch_backup backup)
  exact copyPath_keeps hcond.settled (hcond.spared hlk hcov htarget hfree)
    (components_not_scratch hfree hcov hstage) (components_not_scratch hfree hcov hbackup)
    (hcond.parents hlk hcov hcreated hfree)

theorem handleDav_keeps (hnamed : s.locks.Named) :
    Keeps (componentsOf path) (handleDav cfg s.locks s.now r) s.vol := by
  unfold handleDav
  cases hm : r.method with
  | put body aborted => exact handlePut_keeps hcond hlk hcov hm
  | delete sizes => exact handleDelete_keeps hcond hlk hcov hm
  | mkcol hasBody => exact handleMkcol_keeps hlk hcov
  | move destination overwrite backup => exact handleMove_keeps hcond hlk hcov hnamed hm
  | copy destination overwrite stage backup => exact handleCopy_keeps hcond hlk hcov hnamed hm

end

/-- Whatever a request does that no lock is entangled with, and wherever it stops, the resources
that a foreign lock covers stay as they are. -/
theorem covered_resources_kept {cfg : DavConfig} {s : Dav} {r : DavRequest} {lk : WriteLock}
    {path : String} {vol : Layered} (hs : DavReachable cfg s) (hcond : Unentangled cfg s r)
    (hlk : Foreign s r lk) (hcov : lk.covers path = true)
    (hrun : (handleDav cfg s.locks s.now r).Stops s.vol vol) : vol.resource path = s.vol.resource path := by
  have hkeeps : Keeps (componentsOf path) (handleDav cfg s.locks s.now r) s.vol :=
    handleDav_keeps hcond hlk hcov hs.named
  have hbounded : s.vol.disk.Bounded (· ≠ componentsOf path) := by
    intro j hj
    rw [hcond.settled] at hj
    cases hj
  exact ((hkeeps.safe.stops (fun _ _ => id) hrun) hbounded).2 _ (fun hne => hne rfl)

def davConfig : DavConfig := ⟨sha256, fun _ => false, 0⟩

def davVolume : Layered where
  disk := ⟨(PathMap.empty.put ["d"] ⟨0, 1, 0, .dir⟩).put ["d", "f"] ⟨0, 2, 0, .file [7] 0⟩, none, []⟩
  links _ _ := none
  contents _ := none
  next := 3

def fileLock : WriteLock := ⟨"opaquelocktoken:1", "d/f", .zero, 3600⟩

def davLocked : Dav := ⟨[fileLock], 0, davVolume⟩

theorem davLocked_reachable : DavReachable davConfig davLocked :=
  .step (.start 0 davVolume) (@DavStep.lock davConfig _ 200 [fileLock] "/d/f" "" "0" 3600
    "opaquelocktoken:1" (by decide +kernel))

theorem fileLock_foreign (r : DavRequest) (h : r.ifHeader = "") : Foreign davLocked r fileLock :=
  ⟨List.mem_singleton_self _, by decide, by rw [h]; decide⟩

/-- DELETE of the folder, without the token, removes the locked file. -/
theorem delete_of_folder_removes_locked :
    DavReachable davConfig davLocked ∧ Foreign davLocked ⟨"/d", "", .delete []⟩ fileLock ∧
      fileLock.covers "d/f" = true ∧ davVolume.resource "d/f" = some ⟨0, 2, 0, .file [7] 0⟩ ∧
      ((handleDav davConfig davLocked.locks 0 ⟨"/d", "", .delete []⟩).exec davVolume).1 = .ok 204 ∧
      ((handleDav davConfig davLocked.locks 0 ⟨"/d", "", .delete []⟩).exec davVolume).2.resource "d/f" = none :=
  ⟨davLocked_reachable, fileLock_foreign _ rfl, by decide +kernel, by decide +kernel, by decide +kernel,
    by decide +kernel⟩

/-- A file written beside the folder. -/
theorem covered_resources_kept_put :
    ((handleDav davConfig davLocked.locks 0 ⟨"/g", "", .put [1] false⟩).exec davVolume).1 = .ok 201 ∧
      ((handleDav davConfig davLocked.locks 0 ⟨"/g", "", .put [1] false⟩).exec davVolume).2.resource "d/f" =
        davVolume.resource "d/f" := by
  have hcond : Unentangled davConfig davLocked ⟨"/g", "", .put [1] false⟩ := by
    refine ⟨rfl, ?_, ?_, ?_, ?_⟩
    · intro k o target ho
      change (if k = ["d", "f"] then some _ else if k = ["d"] then some _ else none) = some o at ho
      split at ho
      · cases ho
        nofun
      · split at ho
        · cases ho
          nofun
        · cases ho
    · intro lk _ rel hrel
      cases hrel
    · intro lk _ _ _ rel hrel
      cases hrel
    · intro lk hlk _ _ rel hrel hdesc
      obtain rfl : lk = fileLock := List.mem_singleton.mp hlk.held
      have hnames : DavRequest.names davConfig "/g" = ["g"] := by decide +kernel
      obtain rfl : rel = "g" := List.mem_singleton.mp (hnames ▸ hrel)
      exact absurd hdesc (by decide)
  exact ⟨by decide +kernel, covered_resources_kept davLocked_reachable hcond (fileLock_foreign _ rfl)
    (by decide +kernel) (stops_exec _ _)⟩

end BirakFormal
