import BirakFormal.Gateway.Cleaning

/-!
# Paths stay below the root

The walk of `evalEntry` over texts with ".." left in them is the walk over real directories. So
the resolved path of a request is what following every link gives, and the comparison of texts
says that it is the root or below it.
-/

namespace BirakFormal

open Symlinks

def Host.IsDir (h : Host) (d : List String) : Prop := d = [] ∨ h.entry d = some .dir

variable {h : Host} {d : List String}

theorem Host.isDir_of_entry {c : String} (hc : h.entry (d ++ [c]) ≠ none) : h.IsDir d := h.rooted d c hc

theorem Host.IsDir.dropLast (hd : h.IsDir d) : h.IsDir d.dropLast := by
  rcases List.eq_nil_or_concat' d with rfl | ⟨d, c, rfl⟩
  · exact Or.inl rfl
  · rw [List.dropLast_concat]
    rcases hd with hnil | hdir
    · simp at hnil
    · exact h.isDir_of_entry (c := c) (by rw [hdir]; nofun)

theorem Host.IsDir.not_file (hd : h.IsDir d) :
    d = [] ∨ h.tree.entry d ≠ some .file := by
  refine hd.imp id fun hdir hfile => ?_
  change (h.entry d).map HostEntry.kind = _ at hfile
  rw [hdir] at hfile
  cases hfile

/-- A path as the walk keeps it leads to `d` without meeting a link. -/
structure Denotes (h : Host) (dest d : List String) : Prop where
  walk : Follows h.tree 0 [] (dest.map stepOf) d
  parts : ∀ c ∈ dest, c = ".." ∨ c ≠ "" ∧ c ≠ "." ∧ c ≠ ".."
  noSlash : ∀ c ∈ dest, '/' ∉ c.toList

section
variable {h : Host} {dest d : List String} {c : String}

theorem denotes_nil (h : Host) : Denotes h [] [] := ⟨.done [], nofun, nofun⟩

theorem tree_entry (h : Host) (p : List String) : h.tree.entry p = (h.entry p).map HostEntry.kind := rfl

theorem lstat_of_denotes (hd : Denotes h dest d) (hc : c ≠ "" ∧ c ≠ "." ∧ c ≠ "..") :
    h.lstat (dest ++ [c]) = h.entry (d ++ [c]) := by
  have hfollow : follow h.tree maxNested [] (dest.map stepOf) = some (d, maxNested) := by
    have hall : follow h.tree (0 + maxNested) [] (dest.map stepOf) = some (d, maxNested) :=
      follow_complete hd.walk
    rwa [Nat.zero_add] at hall
  unfold Host.lstat
  rw [List.getLast?_concat]
  dsimp only
  rw [stepOf_plain hc]
  dsimp only
  rw [List.dropLast_concat, hfollow]
  rfl

theorem Denotes.append (hd : Denotes h dest d) (hc : c ≠ "" ∧ c ≠ "." ∧ c ≠ "..")
    (hslash : '/' ∉ c.toList) (he : h.entry (d ++ [c]) = some .dir ∨ h.entry (d ++ [c]) = some .file) :
    Denotes h (dest ++ [c]) (d ++ [c]) := by
  have hstep : Follows h.tree 0 d [.name c] (d ++ [c]) := by
    rcases he with he | he
    · exact .dir (by rw [tree_entry, he]; rfl) (.done _)
    · exact .file (by rw [tree_entry, he]; rfl)
  refine ⟨?_, fun q hq => ?_, fun q hq => ?_⟩
  · rw [List.map_append, List.map_singleton, stepOf_plain hc]
    exact hd.walk.append hstep hstep.not_file
  · rcases List.mem_append.mp hq with hq | hq
    · exact hd.parts q hq
    · exact Or.inr (List.mem_singleton.mp hq ▸ hc)
  · rcases List.mem_append.mp hq with hq | hq
    · exact hd.noSlash q hq
    · exact List.mem_singleton.mp hq ▸ hslash

theorem Denotes.drop (hd : Denotes h dest d) (hdir : h.IsDir d) :
    Denotes h (dropComponent dest) d.dropLast := by
  unfold dropComponent
  split
  · next hlast =>
    rcases List.eq_nil_or_concat' dest with rfl | ⟨dest, c, rfl⟩
    · exact absurd hlast.1 (by decide)
    · rw [List.getLast?_concat] at hlast
      rw [List.dropLast_concat]
      have hc : c ≠ "" ∧ c ≠ "." ∧ c ≠ ".." :=
        (hd.parts c (by simp)).resolve_left fun heq => hlast.2 (by rw [heq])
      have hwalk := hd.walk
      rw [List.map_append, List.map_singleton, stepOf_plain hc] at hwalk
      obtain ⟨n₁, n₂, mid, hn, h₁, h₂⟩ := hwalk.split
      obtain ⟨rfl, rfl⟩ : n₁ = 0 ∧ n₂ = 0 := by omega
      have hend : d = mid ++ [c] := by
        cases h₂ with
        | dir hk hrest => cases hrest; rfl
        | file hk => rfl
      rw [hend, List.dropLast_concat]
      exact ⟨h₁, fun q hq => hd.parts q (by simp [hq]), fun q hq => hd.noSlash q (by simp [hq])⟩
  · refine ⟨?_, fun q hq => ?_, fun q hq => ?_⟩
    · have hup : stepOf ".." = .up := by decide
      rw [List.map_append, List.map_singleton, hup]
      exact hd.walk.append (.up (.done _)) hdir.not_file
    · rcases List.mem_append.mp hq with hq | hq
      · exact hd.parts q hq
      · exact Or.inl (List.mem_singleton.mp hq)
    · rcases List.mem_append.mp hq with hq | hq
      · exact hd.noSlash q hq
      · rw [List.mem_singleton.mp hq]
        decide

end

inductive Matches (h : Host) : Option Evaluated → Option (Halt String) → Prop where
  | none : Matches h none none
  | stopped {dest d : List String} (hd : Denotes h dest d) :
      Matches h (some (.stopped dest)) (some (.here d))
  | linked {dest d : List String} (hd : Denotes h dest d) (hdir : h.IsDir d) {path : List String}
      (hpath : ∀ c ∈ path, '/' ∉ c.toList) :
      Matches h (some (.linked dest path)) (some (.via d (path.map stepOf)))

theorem evalElems_matches {dest d path : List String} (hd : Denotes h dest d) (hpath : ∀ c ∈ path, '/' ∉ c.toList)
    (hdir : h.IsDir d ∨ ∃ c, (c ≠ "" ∧ c ≠ "." ∧ c ≠ "..") ∧ path = [c]) :
    Matches h (evalElems h dest path) (advance h.tree d (path.map stepOf)) := by
  induction path generalizing dest d with
  | nil => exact .stopped hd
  | cons elem rest ih =>
    have hrest : ∀ c ∈ rest, '/' ∉ c.toList := fun c hc => hpath c (List.mem_cons_of_mem elem hc)
    have hdir' : ¬ (elem ≠ "" ∧ elem ≠ "." ∧ elem ≠ "..") → h.IsDir d := by
      intro hnot
      rcases hdir with hdir | ⟨c, hc, heq⟩
      · exact hdir
      · rw [(List.cons.inj heq).1] at hnot
        exact absurd hc hnot
    rw [List.map_cons]
    rcases stepOf_cases elem with ⟨hstay, hstep⟩ | ⟨rfl, hstep⟩ | ⟨hname, hstep⟩
    · rw [evalElems, if_pos hstay, hstep, advance]
      refine ih hd hrest (Or.inl (hdir' ?_))
      rintro ⟨h1, h2, -⟩
      exact hstay.elim h1 h2
    · have hd' := hdir' fun hc => hc.2.2 rfl
      rw [evalElems, if_neg (by decide), if_pos rfl, hstep, advance]
      exact ih (hd.drop hd') hrest (Or.inl hd'.dropLast)
    · rw [evalElems, if_neg (by simp [hname.1, hname.2.1]), if_neg hname.2.2, hstep, advance,
        lstat_of_denotes hd hname, tree_entry]
      cases he : h.entry (d ++ [elem]) with
      | none => exact .none
      | some e =>
        have hslash := hpath elem List.mem_cons_self
        have hd' : h.IsDir d := h.isDir_of_entry (c := elem) (by rw [he]; exact Option.some_ne_none e)
        cases e with
        | dir => exact ih (hd.append hname hslash (Or.inl he)) hrest (Or.inl (Or.inr he))
        | file =>
          cases rest with
          | nil => exact .stopped (hd.append hname hslash (Or.inr he))
          | cons c rest => exact .none
        | link target =>
          show Matches h
            (some (.linked (if hasPrefix target "/" then [] else dest) (split target ++ rest)))
            (some (.via (start (hasPrefix target "/") d) ((split target).map stepOf ++ rest.map stepOf)))
          rw [← List.map_append]
          have hparts : ∀ c ∈ split target ++ rest, '/' ∉ c.toList := by
            intro c hc
            rcases List.mem_append.mp hc with hc | hc
            · exact split_no_slash hc
            · exact hrest c hc
          unfold start
          by_cases habs : hasPrefix target "/" = true
          · rw [if_pos habs, if_pos habs]
            exact .linked (denotes_nil h) (Or.inl rfl) hparts
          · rw [if_neg habs, if_neg habs]
            exact .linked hd hd' hparts

theorem evalEntry_follows {left : Nat} {dest d path : List String} (hd : Denotes h dest d)
    (hpath : ∀ c ∈ path, '/' ∉ c.toList)
    (hdir : h.IsDir d ∨ ∃ c, (c ≠ "" ∧ c ≠ "." ∧ c ≠ "..") ∧ path = [c]) :
    evalEntry h left dest path = none ∧ follow h.tree left d (path.map stepOf) = none ∨
      ∃ dest' d' left', evalEntry h left dest path = some (dest', left') ∧
        follow h.tree left d (path.map stepOf) = some (d', left') ∧ Denotes h dest' d' := by
  induction left generalizing dest d path with
  | zero =>
    have hm := evalElems_matches hd hpath hdir
    rw [evalEntry, follow]
    generalize evalElems h dest path = e at hm ⊢
    generalize advance h.tree d (path.map stepOf) = a at hm ⊢
    cases hm with
    | none => exact Or.inl ⟨rfl, rfl⟩
    | stopped hd' => exact Or.inr ⟨_, _, _, rfl, rfl, hd'⟩
    | linked hd' hdir' hpath' => exact Or.inl ⟨rfl, rfl⟩
  | succ left ih =>
    have hm := evalElems_matches hd hpath hdir
    rw [evalEntry, follow]
    generalize evalElems h dest path = e at hm ⊢
    generalize advance h.tree d (path.map stepOf) = a at hm ⊢
    cases hm with
    | none => exact Or.inl ⟨rfl, rfl⟩
    | stopped hd' => exact Or.inr ⟨_, _, _, rfl, rfl, hd'⟩
    | linked hd' hdir' hpath' => exact ih hd' hpath' (Or.inl hdir')

/-- Following every link of a path ends at `dest`. -/
def Resolves (h : Host) (path dest : List String) : Prop :=
  ∃ n ≤ maxSymlinks, Follows h.tree n [] (path.map stepOf) dest

/-- Every link of the deepest ancestor that exists is followed, and the components below it,
which do not exist, are appended. -/
def ResolvedTo (h : Host) (path p : List String) : Prop :=
  ∃ done rest dest, path = done ++ rest ∧ Resolves h done dest ∧ p = dest ++ rest ∧
    ∀ more, more <+: rest → more ≠ [] → ∀ d, ¬ Resolves h (done ++ more) d

theorem Resolves.unique {path d d' : List String} (hd : Resolves h path d) (hd' : Resolves h path d') : d = d' := by
  obtain ⟨n, -, hn⟩ := hd
  obtain ⟨m, -, hm⟩ := hd'
  exact (hn.unique hm).2

theorem Resolves.beginning {a b d : List String} (hd : Resolves h (a ++ b) d) :
    ∃ d', Resolves h a d' := by
  obtain ⟨n, hle, hn⟩ := hd
  rw [List.map_append] at hn
  obtain ⟨n₁, n₂, mid, hsum, h₁, -⟩ := hn.split
  exact ⟨mid, n₁, by omega, h₁⟩

theorem ResolvedTo.unique {path p q : List String} (hp : ResolvedTo h path p)
    (hq : ResolvedTo h path q) : p = q := by
  obtain ⟨done, rest, dest, hpath, hres, rfl, hmax⟩ := hp
  obtain ⟨done', rest', dest', hpath', hres', rfl, hmax'⟩ := hq
  -- Of two beginnings that exist and cannot be extended, neither is shorter.
  have same : done = done' ∧ rest = rest' := by
    rcases List.append_eq_append_iff.mp (hpath.symm.trans hpath') with ⟨more, rfl, rfl⟩ | ⟨more, rfl, rfl⟩
    · by_cases hnil : more = []
      · subst hnil
        exact ⟨(List.append_nil _).symm, rfl⟩
      · exact absurd hres' (hmax more (List.prefix_append _ _) hnil dest')
    · by_cases hnil : more = []
      · subst hnil
        exact ⟨List.append_nil _, rfl⟩
      · exact absurd hres (hmax' more (List.prefix_append _ _) hnil dest)
  obtain ⟨rfl, rfl⟩ := same
  rw [hres.unique hres']

theorem evalAncestors_resolves {left used : Nat} {dest d done next : List String}
    (hd : Denotes h dest d) (hused : used + left = maxSymlinks)
    (hdone : Follows h.tree used [] (done.map stepOf) d) (hnext : Plain next) :
    ∃ done' d', done ++ next = done' ++ (evalAncestors h left dest next).2 ∧
      Denotes h (evalAncestors h left dest next).1 d' ∧ Resolves h done' d' ∧
      Plain (evalAncestors h left dest next).2 ∧
      ∀ c cs, (evalAncestors h left dest next).2 = c :: cs → ∀ e, ¬ Resolves h (done' ++ [c]) e := by
  induction next generalizing left used dest d done with
  | nil => exact ⟨done, d, rfl, hd, ⟨used, by omega, hdone⟩, hnext, nofun⟩
  | cons name next ih =>
    have hname := hnext.1 name List.mem_cons_self
    have hstep := @evalEntry_follows h left dest d [name] hd
      (fun c hc => List.mem_singleton.mp hc ▸ hnext.2 name List.mem_cons_self)
      (Or.inr ⟨name, hname, rfl⟩)
    rw [List.map_singleton, stepOf_plain hname] at hstep
    rw [evalAncestors]
    rcases hstep with ⟨hnone, hfollow⟩ | ⟨dest', d', left', hsome, hfollow, hd'⟩
    · rw [hnone]
      refine ⟨done, d, rfl, hd, ⟨used, by omega, hdone⟩, hnext, fun c cs heq e he => ?_⟩
      obtain ⟨rfl, rfl⟩ := List.cons.inj heq
      obtain ⟨n, hle, hn⟩ := he
      rw [List.map_append, List.map_singleton, stepOf_plain hname] at hn
      obtain ⟨n₁, n₂, mid, hsum, h₁, h₂⟩ := hn.split
      obtain ⟨rfl, rfl⟩ := h₁.unique hdone
      have hfound : follow h.tree (n₂ + (left - n₂)) mid [.name name] = some (e, left - n₂) :=
        follow_complete h₂
      rw [show n₂ + (left - n₂) = left by omega, hfollow] at hfound
      cases hfound
    · rw [hsome]
      obtain ⟨n, hn, hf⟩ := follow_sound hfollow
      have hwalk := hdone.append hf hf.not_file
      obtain ⟨done', e, heq, hrest⟩ := @ih left' (used + n) dest' d' (done ++ [name]) hd' (by omega)
        (by rw [List.map_append, List.map_singleton, stepOf_plain hname]; exact hwalk)
        (hnext.of_subset fun c hc => List.mem_cons_of_mem name hc)
      refine ⟨done', e, ?_, hrest⟩
      rw [← heq, List.append_assoc]
      rfl

theorem foldl_push_of_follows {dest dir d : List String}
    (hdest : ∀ c ∈ dest, c = ".." ∨ c ≠ "" ∧ c ≠ "." ∧ c ≠ "..") (hdir : Canonical dir)
    (hf : Follows h.tree 0 dir (dest.map stepOf) d) :
    dest.foldl (push true) dir.reverse = d.reverse := by
  induction dest generalizing dir with
  | nil =>
    cases hf
    rfl
  | cons c dest ih =>
    have hrest : ∀ c ∈ dest, c = ".." ∨ c ≠ "" ∧ c ≠ "." ∧ c ≠ ".." :=
      fun q hq => hdest q (List.mem_cons_of_mem c hq)
    rw [List.map_cons] at hf
    rw [List.foldl_cons]
    rcases hdest c List.mem_cons_self with rfl | hc
    · have hup : stepOf ".." = .up := by decide
      rw [hup] at hf
      cases hf with
      | up hf =>
        rw [push_up hup]
        have hdrop : dropTop true dir.reverse = dir.dropLast.reverse := by
          rcases List.eq_nil_or_concat' dir with rfl | ⟨dir, k, rfl⟩
          · rfl
          · have hk := hdir k (by simp)
            simp [dropTop, hk.2.2]
        rw [hdrop]
        exact ih hrest (fun q hq => hdir q ((List.dropLast_prefix _).subset hq)) hf
    · rw [stepOf_plain hc] at hf
      rw [push_plain hc]
      have hnext : c :: dir.reverse = (dir ++ [c]).reverse := by simp
      have hcanon : Canonical (dir ++ [c]) := by
        intro q hq
        rcases List.mem_append.mp hq with hq | hq
        · exact hdir q hq
        · exact List.mem_singleton.mp hq ▸ hc
      rw [hnext]
      generalize hs : dest.map stepOf = steps at hf
      cases hf with
      | dir hk hf =>
        subst hs
        exact ih hrest hcanon hf
      | file hk =>
        rw [List.map_eq_nil_iff.mp hs]
        rfl

theorem Denotes.rootedParts_eq {dest d : List String} (hd : Denotes h dest d) :
    rootedParts dest = d := by
  rw [rootedParts]
  have h := foldl_push_of_follows hd.parts canonical_nil hd.walk
  rw [List.reverse_nil] at h
  rw [h, List.reverse_reverse]

theorem evalDeepestAncestor_resolved (h : Host) {path : List String} (hp : Plain path) :
    ∃ p, evalDeepestAncestor h (render path) = render p ∧ Plain p ∧ ResolvedTo h path p := by
  obtain ⟨done, d, hpath, hd, hres, hrest, hmax⟩ :=
    @evalAncestors_resolves h maxSymlinks 0 [] [] [] path (denotes_nil h) (Nat.zero_add _) (.done _) hp
  rw [List.nil_append] at hpath
  unfold evalDeepestAncestor
  rw [pathComponents_render hp]
  generalize evalAncestors h maxSymlinks [] path = r at hpath hd hrest hmax
  dsimp only
  have hplain : Plain (rootedParts r.1) := plain_rootedParts hd.noSlash
  rw [hd.rootedParts_eq] at hplain
  refine ⟨d ++ r.2, ?_, hplain.append hrest, done, r.2, d, hpath, hres, rfl, ?_⟩
  · rw [joinPath_render hd.noSlash hrest, hd.rootedParts_eq]
  · intro more hmore hne e he
    obtain ⟨c, cs, rfl⟩ := List.exists_cons_of_ne_nil hne
    obtain ⟨tail, htail⟩ := hmore
    have hbegin : Resolves h (done ++ [c] ++ cs) e := by rwa [List.append_assoc]
    obtain ⟨e', he'⟩ := hbegin.beginning
    exact hmax c (cs ++ tail) (by rw [← htail]; rfl) e' he'

variable {path d : List String}

theorem plain_of_follows {n : Nat} (hp : Plain path) (hf : Follows h.tree n [] (path.map stepOf) d) : Plain d := by
  have hname : ∀ c k, stepOf c = .name k → k = c ∧ k ≠ "" ∧ k ≠ "." ∧ k ≠ ".." := by
    intro c k hk
    rcases stepOf_cases c with ⟨-, h⟩ | ⟨-, h⟩ | ⟨hc, h⟩
    · rw [h] at hk; cases hk
    · rw [h] at hk; cases hk
    · rw [h] at hk; cases hk; exact ⟨rfl, hc⟩
  have hparts : ∀ parts : List String, (∀ c ∈ parts, '/' ∉ c.toList) → ∀ k, Step.name k ∈ parts.map stepOf →
      (k ≠ "" ∧ k ≠ "." ∧ k ≠ "..") ∧ '/' ∉ k.toList := by
    intro parts hno k hk
    obtain ⟨c, hc, heq⟩ := List.mem_map.mp hk
    obtain ⟨rfl, hk⟩ := hname c k heq
    exact ⟨hk, hno k hc⟩
  have hall := hf.names (P := fun k => (k ≠ "" ∧ k ≠ "." ∧ k ≠ "..") ∧ '/' ∉ k.toList)
    (fun p absolute target he k hk => ?_) (fun _ hk => absurd hk List.not_mem_nil) (hparts path hp.2)
  · exact ⟨fun k hk => (hall k hk).1, fun k hk => (hall k hk).2⟩
  · rw [tree_entry] at he
    obtain ⟨e, -, hkind⟩ := Option.map_eq_some_iff.mp he
    cases e with
    | dir => cases hkind
    | file => cases hkind
    | link text =>
      cases hkind
      exact hparts (split text) (fun c hc => split_no_slash hc) k hk

theorem follows_split_render {n : Nat} (hp : Plain path) (hf : Follows h.tree n [] (path.map stepOf) d) :
    Follows h.tree n [] ((split (render path)).map stepOf) d := by
  rw [split_render hp.2, List.map_cons]
  refine .stay ?_
  by_cases hnil : path = []
  · subst hnil
    cases hf
    exact .stay (.done _)
  · rw [if_neg hnil]
    exact hf

theorem evalSymlinks_of_resolves (hp : Plain path)
    (hd : Resolves h path d) : h.evalSymlinks (render path) = some (render d) := by
  obtain ⟨n, hle, hn⟩ := hd
  have hfollow : follow h.tree (n + (maxSymlinks - n)) [] ((split (render path)).map stepOf) =
      some (d, maxSymlinks - n) := follow_complete (follows_split_render hp hn)
  rw [show n + (maxSymlinks - n) = maxSymlinks by omega] at hfollow
  unfold Host.evalSymlinks
  rw [hfollow]
  rfl

theorem dropCommon_append (a b : List String) : dropCommon a (a ++ b) = ([], b) := by
  induction a with
  | nil =>
    cases b with
    | nil => rfl
    | cons x b => rfl
  | cons x a ih =>
    rw [List.cons_append, dropCommon, if_pos rfl]
    exact ih

theorem cleanParts_render {p : List String} (hp : Plain p) :
    cleanParts (hasPrefix (render p) "/") [] (split (render p)) = p := by
  have h : cleanParts true [] (split (render p)) = rootedParts (split (render p)) :=
    cleanParts_eq_foldl true [] _
  rw [hasPrefix_render, h, split_render hp.2, rootedParts_empty_cons]
  by_cases hnil : p = []
  · subst hnil
    decide
  · rw [if_neg hnil, rootedParts_plain hp.1]

theorem relPath_below {root below : List String} (hroot : Plain root) (hbelow : Plain below) :
    relPath (render root) (render (root ++ below)) = .ok (if below = [] then "." else joinSlash below) := by
  unfold relPath
  dsimp only
  rw [cleanParts_render hroot, cleanParts_render (hroot.append hbelow), dropCommon_append,
    hasPrefix_render, hasPrefix_render]
  by_cases hnil : below = []
  · subst hnil
    rfl
  · simp [hnil]

/-- The rules of the client namespace: no path is reserved, spells a scratch name in some letter
case, or is ignored. -/
def Presentable (patterns : String → Bool) (rel : String) : Prop :=
  rel = "" ∨ shouldIgnore patterns rel = false ∧ (split rel).head?.any isReserved = false ∧
    (split rel).any isScratchSpelling = false

variable {patterns : String → Bool}

theorem presentable_of_validate {rel : String}
    (h : validateClientPath patterns rel = .ok ()) : Presentable patterns rel := by
  obtain ⟨hkept, -, hreserved, hscratch⟩ := validateClientPath_ok_iff.mp h
  exact hkept.imp_right fun hkept => ⟨hkept, hreserved, hscratch⟩

variable {cwd : List String}

theorem resolveNoSymlinkEscape_ok {rootDir full realRoot : String}
    {r : String × Option String} (hroot : h.evalSymlinks (absPath cwd rootDir) = some realRoot)
    (hok : resolveNoSymlinkEscape h cwd rootDir full = .ok r) :
    r = (evalDeepestAncestor h (absPath cwd full), some realRoot) ∧
      (evalDeepestAncestor h (absPath cwd full) = realRoot ∨
        hasPrefix (evalDeepestAncestor h (absPath cwd full)) (realRoot ++ "/") = true) := by
  unfold resolveNoSymlinkEscape at hok
  rw [hroot] at hok
  dsimp only at hok
  generalize evalDeepestAncestor h (absPath cwd full) = resolved at hok ⊢
  split at hok
  · exact absurd hok nofun
  · next hinside =>
    refine ⟨(Except.ok.inj hok).symm, ?_⟩
    by_cases heq : resolved = realRoot
    · exact Or.inl heq
    · refine Or.inr (Bool.eq_true_of_not_eq_false fun hpre => hinside ⟨heq, ?_⟩)
      rw [hpre]
      rfl

variable {rootDir req rel full : String}

theorem safePath_ok (hok : safePath h cwd rootDir req patterns = .ok (rel, full)) :
    rel = "" ∧ full = rootDir ∨
      Canonical (split rel) ∧ full = joinPath rootDir rel ∧ validateClientPath patterns rel = .ok () ∧
        ∀ realRoot, h.evalSymlinks (absPath cwd rootDir) = some realRoot →
          (evalDeepestAncestor h (absPath cwd full) = realRoot ∨
            hasPrefix (evalDeepestAncestor h (absPath cwd full)) (realRoot ++ "/") = true) ∧
          validateResolved patterns (evalDeepestAncestor h (absPath cwd full)) realRoot = .ok () := by
  unfold safePath at hok
  dsimp only at hok
  have hparts := @cleanRequest_canonical req
  generalize cleanRequest req = cleaned at hok hparts
  split at hok
  · exact absurd hok nofun
  · next hup =>
    split at hok
    · obtain ⟨rfl, rfl⟩ := Prod.mk.inj (Except.ok.inj hok)
      exact Or.inl ⟨rfl, rfl⟩
    · next hne =>
      have hparts := hparts hne hup
      split at hok
      · exact absurd hok nofun
      · next hvalid =>
        split at hok
        · exact absurd hok nofun
        · split at hok
          · exact absurd hok nofun
          · next _ hres =>
            obtain ⟨rfl, rfl⟩ := Prod.mk.inj (Except.ok.inj hok)
            refine Or.inr ⟨hparts, rfl, hvalid, fun realRoot hroot => ?_⟩
            have hboth := (resolveNoSymlinkEscape_ok hroot hres).1
            exact absurd (Prod.mk.inj hboth).2 nofun
          · next resolved realRoot hres =>
            split at hok
            · exact absurd hok nofun
            · next hrules =>
              obtain ⟨rfl, rfl⟩ := Prod.mk.inj (Except.ok.inj hok)
              refine Or.inr ⟨hparts, rfl, hvalid, fun realRoot' hroot => ?_⟩
              obtain ⟨hboth, hinside⟩ := resolveNoSymlinkEscape_ok hroot hres
              obtain ⟨hresolved, hreal⟩ := Prod.mk.inj hboth
              rw [hresolved, Option.some.inj hreal] at hrules
              exact ⟨hinside, hrules⟩

theorem safePath_rel (hok : safePath h cwd rootDir req patterns = .ok (rel, full)) :
    rel = cleanRequest req := by
  unfold safePath at hok
  dsimp only at hok
  generalize cleanRequest req = cleaned at hok ⊢
  split at hok
  · exact absurd hok nofun
  · split at hok
    · next hempty =>
      rw [hempty]
      exact (Prod.mk.inj (Except.ok.inj hok)).1.symm
    · split at hok
      · exact absurd hok nofun
      · split at hok
        · exact absurd hok nofun
        · split at hok
          · exact absurd hok nofun
          · exact (Prod.mk.inj (Except.ok.inj hok)).1.symm
          · split at hok
            · exact absurd hok nofun
            · exact (Prod.mk.inj (Except.ok.inj hok)).1.symm

/-- A path that `SafePath` returns, once every link of its deepest existing ancestor is followed,
is the root or lies below it. Neither it nor the request is hidden from clients. -/
theorem safePath_contained (h : Host) (cwd : List String) (rootDir req : String)
    (patterns : String → Bool) {root : List String} {rel full : String}
    (hroot : Resolves h (pathComponents (absPath cwd rootDir)) root)
    (hok : safePath h cwd rootDir req patterns = .ok (rel, full)) :
    (∃ below, (∀ p, ResolvedTo h (pathComponents (absPath cwd full)) p ↔ p = root ++ below) ∧
      Presentable patterns rel ∧ Presentable patterns (joinSlash below)) ∧
    (rel = "" ∨ Canonical (split rel)) ∧
    (full = joinPath rootDir rel ∨ rel = "" ∧ full = rootDir) := by
  have hunique : ∀ {path p : List String}, ResolvedTo h path p → ∀ q, ResolvedTo h path q ↔ q = p :=
    fun hp q => ⟨fun hq => hq.unique hp, fun hq => hq ▸ hp⟩
  rcases safePath_ok hok with ⟨rfl, rfl⟩ | ⟨hparts, rfl, hvalid, hinside⟩
  · refine ⟨⟨[], ?_, Or.inl rfl, Or.inl rfl⟩, Or.inl rfl, Or.inr ⟨rfl, rfl⟩⟩
    rw [List.append_nil]
    refine hunique ⟨_, [], root, (List.append_nil _).symm, hroot, (List.append_nil _).symm, ?_⟩
    intro more hmore hne
    exact absurd (List.prefix_nil.mp hmore) hne
  · rw [pathComponents_absPath] at hroot
    have hrootPlain := plain_absParts cwd rootDir
    obtain ⟨n, -, hfollows⟩ := id hroot
    have hrealPlain := plain_of_follows hrootPlain hfollows
    have heval := evalSymlinks_of_resolves hrootPlain hroot
    rw [← absPath_eq] at heval
    obtain ⟨hwithin, hrules⟩ := hinside _ heval
    obtain ⟨p, hp, hplain, hresolved⟩ :=
      evalDeepestAncestor_resolved h (plain_absParts cwd (joinPath rootDir rel))
    rw [absPath_eq cwd (joinPath rootDir rel), hp] at hwithin hrules
    have hprefix : root <+: p := by
      rcases hwithin with heq | hpre
      · obtain rfl := render_inj hplain hrealPlain heq
        exact List.prefix_rfl
      · exact prefix_of_render hrealPlain hplain hpre
    obtain ⟨below, rfl⟩ := hprefix
    have hbelow : Plain below := hplain.of_subset fun c hc => List.mem_append_right root hc
    refine ⟨⟨below, ?_, presentable_of_validate hvalid, ?_⟩, Or.inr hparts, Or.inl rfl⟩
    · rw [pathComponents_absPath]
      exact hunique hresolved
    · unfold validateResolved at hrules
      rw [relPath_below hrealPlain hbelow] at hrules
      dsimp only at hrules
      by_cases hnil : below = []
      · rw [hnil]
        exact Or.inl rfl
      · rw [if_neg hnil] at hrules
        split at hrules
        · next hdot =>
          have hmem : "." ∈ below := by
            rw [← split_joinSlash hnil hbelow.2, hdot]
            decide
          exact absurd rfl (hbelow.1 "." hmem).2.1
        · exact presentable_of_validate hrules

def linkedHost : Host where
  entry p :=
    if p = ["data"] ∨ p = ["data", "b"] then some .dir
    else if p = ["data", "a"] then some (.link "b") else none
  rooted p c hp := by
    have hcases : p ++ [c] = ["data"] ∨ p ++ [c] = ["data", "b"] ∨ p ++ [c] = ["data", "a"] := by
      by_contra hnot
      simp only [not_or] at hnot
      exact hp (by rw [if_neg (by simp [hnot.1, hnot.2.1]), if_neg hnot.2.2])
    have hparent (d last : String) (h : p ++ [c] = [d, last]) : p = [d] :=
      (List.append_inj' (show p ++ [c] = [d] ++ [last] from h) rfl).1
    rcases hcases with h | h | h
    · exact Or.inl (List.append_inj' (show p ++ [c] = [] ++ ["data"] from h) rfl).1
    · exact Or.inr (by rw [hparent _ _ h]; rfl)
    · exact Or.inr (by rw [hparent _ _ h]; rfl)

/-- A missing file behind the link. -/
theorem safePath_contained_link :
    safePath linkedHost [] "/data" "/a/x" (fun _ => false) = .ok ("a/x", "/data/a/x") ∧
      ∃ below, (∀ p, ResolvedTo linkedHost (pathComponents (absPath [] "/data/a/x")) p ↔ p = ["data"] ++ below) ∧
        Presentable (fun _ => false) "a/x" ∧ Presentable (fun _ => false) (joinSlash below) := by
  have hok : safePath linkedHost [] "/data" "/a/x" (fun _ => false) = .ok ("a/x", "/data/a/x") := by
    decide +kernel
  have hroot : Resolves linkedHost (pathComponents (absPath [] "/data")) ["data"] := by
    have hparts : pathComponents (absPath [] "/data") = ["data"] := by decide +kernel
    rw [hparts]
    exact ⟨0, Nat.zero_le _, .dir rfl (.done _)⟩
  exact ⟨hok, (safePath_contained linkedHost [] "/data" "/a/x" _ hroot hok).1⟩

/-- Resolve the path, or the directory above it, and so on; the components of the path come last first. -/
def retryAncestors (h : Host) : List String → List String → String
  | [], rest => joinPath (clean ((h.evalSymlinks "/").getD "/")) (joinSlash rest)
  | name :: above, rest =>
    match h.evalSymlinks (render (name :: above).reverse) with
    | some real => joinPath (clean real) (joinSlash rest)
    | none => retryAncestors h above (name :: rest)

theorem resolves_of_evalSymlinks (hp : Plain path) {real : String}
    (heval : h.evalSymlinks (render path) = some real) : ∃ d, Resolves h path d ∧ real = render d := by
  obtain ⟨⟨d, left⟩, hfollow, rfl⟩ := Option.map_eq_some_iff.mp heval
  obtain ⟨n, hn, hwalk⟩ := follow_sound hfollow
  refine ⟨d, ⟨n, by omega, ?_⟩, rfl⟩
  rw [split_render hp.2, List.map_cons] at hwalk
  cases hwalk with
  | stay hwalk =>
    by_cases hnil : path = []
    · subst hnil
      cases hwalk with
      | stay hwalk => exact hwalk
    · rwa [if_neg hnil] at hwalk

theorem retryAncestors_of_resolves {path dest rest : List String} (hp : Plain path) (hrest : Plain rest)
    (hres : Resolves h path dest) : retryAncestors h path.reverse rest = render (dest ++ rest) := by
  have heval := evalSymlinks_of_resolves hp hres
  obtain ⟨n, -, hwalk⟩ := hres
  have hdest := plain_of_follows hp hwalk
  have hjoin : joinPath (clean (render dest)) (joinSlash rest) = render (dest ++ rest) := by
    have hclean : clean (render dest) = render dest := by
      rw [clean, hasPrefix_render, ← hasPrefix_render dest, cleanParts_render hdest, hasPrefix_render]
      rfl
    rw [hclean, joinPath_render hdest.2 hrest, rootedParts_plain hdest.1]
  rcases List.eq_nil_or_concat' path with rfl | ⟨above, name, rfl⟩
  · rw [List.reverse_nil, retryAncestors, show "/" = render [] from rfl, heval]
    exact hjoin
  · rw [List.reverse_concat, retryAncestors, ← List.reverse_concat, List.reverse_reverse, heval]
    exact hjoin

theorem retryAncestors_append {done more rest : List String} (hp : Plain (done ++ more))
    (hnone : ∀ m, m <+: more → m ≠ [] → ∀ d, ¬ Resolves h (done ++ m) d) :
    retryAncestors h (done ++ more).reverse rest = retryAncestors h done.reverse (more ++ rest) := by
  induction more using List.reverseRecOn generalizing rest with
  | nil => rw [List.append_nil, List.nil_append]
  | append_singleton more name ih =>
    have hfails : h.evalSymlinks (render (done ++ (more ++ [name]))) = none := by
      rw [Option.eq_none_iff_forall_ne_some]
      intro real heval
      obtain ⟨d, hd, -⟩ := resolves_of_evalSymlinks hp heval
      exact hnone _ List.prefix_rfl (by simp) d hd
    have hstep : retryAncestors h (done ++ (more ++ [name])).reverse rest = retryAncestors h (done ++ more).reverse (name :: rest) := by
      rw [← List.append_assoc] at hfails ⊢
      rw [List.reverse_concat, retryAncestors, ← List.reverse_concat, List.reverse_reverse, hfails]
    have hplain : Plain (done ++ more) := hp.of_subset fun c hc => by
      rw [← List.append_assoc]
      exact List.mem_append_left _ hc
    rw [hstep, ih hplain fun m hm => hnone m (hm.trans (List.prefix_append more [name]))]
    simp

/-- The walk over the components of a clean absolute path ends, and gives what retrying its ancestors
from the longest gives. -/
theorem evalDeepestAncestor_eq_retrying (h : Host) (p : String) (habs : hasPrefix p "/" = true) (hclean : clean p = p) :
    evalDeepestAncestor h p = retryAncestors h (pathComponents p).reverse [] := by
  rw [clean_rooted habs] at hclean
  have hplain : Plain (rootedParts (split p)) := plain_rootedParts fun c hc => split_no_slash hc
  generalize rootedParts (split p) = path at hclean hplain
  subst hclean
  rw [pathComponents_render hplain]
  obtain ⟨resolved, heq, -, done, rest, dest, rfl, hres, rfl, hmax⟩ := evalDeepestAncestor_resolved h hplain
  have hdone : Plain done := hplain.of_subset fun c hc => List.mem_append_left _ hc
  have hrest : Plain rest := hplain.of_subset fun c hc => List.mem_append_right _ hc
  rw [heq, retryAncestors_append hplain hmax, List.append_nil, retryAncestors_of_resolves hdone hrest hres]

/-- A missing file behind the link. -/
theorem evalDeepestAncestor_eq_retrying_link :
    evalDeepestAncestor linkedHost "/data/a/x" = "/data/b/x" ∧
      evalDeepestAncestor linkedHost "/data/a/x" = retryAncestors linkedHost (pathComponents "/data/a/x").reverse [] :=
  ⟨by decide +kernel, evalDeepestAncestor_eq_retrying linkedHost "/data/a/x" (by decide +kernel) (by decide +kernel)⟩

end BirakFormal
