import BirakFormal.Store.Spellings

/-!
# The portable namespace

Every name that is stored as a row or as a local intent has reserved a spelling for each of its
beginnings, and a reservation is never given up. Two stored names whose beginnings fold to the
same components therefore spell them in the same way.
-/

namespace BirakFormal

open Tables Relation

def Begun (fold : String → String) (done : List String) (folded original : String) : Prop :=
  done = [] ∧ folded = "" ∧ original = "" ∨
    done ≠ [] ∧ original ≠ "" ∧ folded = joinSlash (done.map fold) ∧ original = joinSlash done

variable {fold : String → String}

theorem Begun.concat {done : List String} {folded original part : String}
    (h : Begun fold done folded original) (hpart : part ≠ "") :
    Begun fold (done ++ [part])
      (if original ≠ "" then folded ++ "/" ++ fold part else folded ++ fold part)
      (if original ≠ "" then original ++ "/" ++ part else original ++ part) := by
  right
  rcases h with ⟨rfl, rfl, rfl⟩ | ⟨hdone, horiginal, rfl, rfl⟩
  · rw [if_neg (by simp), if_neg (by simp), String.empty_append, String.empty_append]
    exact ⟨by simp, hpart, rfl, rfl⟩
  · rw [if_pos horiginal, if_pos horiginal, List.map_append, List.map_singleton,
      joinSlash_concat (by simpa using hdone), joinSlash_concat hdone]
    refine ⟨by simp, fun hempty => ?_, rfl, rfl⟩
    have hlen := congrArg String.length hempty
    rw [String.length_append, String.length_append] at hlen
    have hslash : ("/" : String).length = 1 := by decide
    have hzero : ("" : String).length = 0 := by decide
    omega

variable {ps : List (String × String)}

theorem nameParts_go_mem {name folded original : String}
    {parts done : List String} (hb : Begun fold done folded original)
    (h : nameParts.go fold name folded original parts = .ok ps) {k : Nat} (hk : k < parts.length) :
    (joinSlash ((done ++ parts.take (k + 1)).map fold), joinSlash (done ++ parts.take (k + 1))) ∈ ps := by
  induction parts generalizing done folded original ps k with
  | nil => cases hk
  | cons part parts ih =>
    unfold nameParts.go at h
    split at h
    · cases h
    · next hpart =>
      have hb' := hb.concat fun hempty => hpart (Or.inl hempty)
      dsimp only at h
      split at h
      · next rest hrest =>
        cases h
        cases k with
        | zero =>
          rcases hb' with ⟨hnil, -⟩ | ⟨-, -, hfolded, horiginal⟩
          · simp at hnil
          · rw [List.take_succ_cons, List.take_zero, ← hfolded, ← horiginal]
            exact List.mem_cons_self
        | succ k =>
          have hmem := ih hb' hrest (Nat.lt_of_succ_lt_succ hk)
          rw [List.append_assoc, List.singleton_append, ← List.take_succ_cons] at hmem
          exact List.mem_cons_of_mem _ hmem
      · cases h

variable {name : String}

theorem nameParts_mem (h : nameParts fold name = .ok ps) {k : Nat} (hk : k < (split name).length) :
    (joinSlash (((split name).take (k + 1)).map fold), joinSlash ((split name).take (k + 1))) ∈ ps := by
  unfold nameParts at h
  split at h
  · cases h
  · exact nameParts_go_mem (Or.inl ⟨rfl, rfl, rfl⟩) h hk

def Reserved (fold : String → String) (names : Spellings) (name : String) : Prop :=
  ∃ ps, nameParts fold name = .ok ps ∧ ∀ p ∈ ps, names.find p.1 = some p

variable {names names' : Spellings}

theorem Reserved.mono (h : Reserved fold names name)
    (hkeep : ∀ k a, names.find k = some a → names'.find k = some a) : Reserved fold names' name := by
  obtain ⟨ps, hps, hfind⟩ := h
  exact ⟨ps, hps, fun p hp => hkeep _ _ (hfind p hp)⟩

theorem bindName_ok (h : bindName fold names name = .ok names') :
    Reserved fold names' name ∧ ∀ k a, names.find k = some a → names'.find k = some a := by
  unfold bindName at h
  split at h
  · cases h
  · next ps hps =>
    obtain ⟨hkeep, hnew, -⟩ := bindParts_ok h
    exact ⟨⟨ps, hps, hnew⟩, hkeep⟩

theorem Reserved.spelling {a b : String} (ha : Reserved fold names a) (hb : Reserved fold names b) {k : Nat}
    (hka : k ≤ (split a).length) (hkb : k ≤ (split b).length)
    (hfold : ((split a).take k).map fold = ((split b).take k).map fold) :
    (split a).take k = (split b).take k := by
  cases k with
  | zero => rfl
  | succ k =>
    obtain ⟨ps, hps, hfind⟩ := ha
    obtain ⟨qs, hqs, hfind'⟩ := hb
    have hp := hfind _ (nameParts_mem hps hka)
    have hq := hfind' _ (nameParts_mem hqs hkb)
    rw [hfold, hq] at hp
    have hjoin : joinSlash ((split b).take (k + 1)) = joinSlash ((split a).take (k + 1)) :=
      congrArg Prod.snd (Option.some.inj hp)
    have hparts : ∀ c : String, k + 1 ≤ (split c).length →
        split (joinSlash ((split c).take (k + 1))) = (split c).take (k + 1) := by
      intro c hc
      apply split_joinSlash
      · intro hnil
        have hlen := congrArg List.length hnil
        rw [List.length_take, Nat.min_eq_left hc] at hlen
        cases hlen
      · exact fun p hmem => split_no_slash (List.mem_of_mem_take hmem)
    rw [← hparts a hka, ← hparts b hkb, hjoin]

theorem checkName_iff {s : Store} :
    s.checkName fold name = .ok () ↔ ∃ names, bindName fold s.names name = .ok names := by
  refine ⟨bindName_of_check, ?_⟩
  rintro ⟨names, h⟩
  unfold bindName at h
  unfold Store.checkName
  split at h
  · cases h
  · next ps hps =>
    obtain ⟨hkeep, hnew, -⟩ := bindParts_ok h
    refine checkParts_iff.mpr fun p hp a ha => ?_
    have heq := (hnew p hp).symm.trans (hkeep _ _ ha)
    rw [Option.some.inj heq]

/-- A store, and whether the names of its rows have been migrated (`portable_names_v1`). -/
structure Catalogue where
  store : Store := {}
  portable : Bool := false

namespace Catalogue

def bindAll (fold : String → String) : List String → Spellings → Except Err Spellings
  | [], names => .ok names
  | name :: rest, names =>
    match bindName fold names name with
    | .error e => .error e
    | .ok names' => bindAll fold rest names'

def rowNames (c : Catalogue) : List String :=
  (c.store.files.rows.map FileMeta.name).insertionSort (· ≤ ·)

/-- `migrateNames`: once, reserve the name of every row, or refuse to start. -/
def migrateNames (c : Catalogue) (fold : String → String) : Except Err Catalogue :=
  if c.portable then .ok c
  else match bindAll fold c.rowNames c.store.names with
    | .error e => .error e
    | .ok names => .ok { store := { c.store with names := names }, portable := true }

def Stored (c : Catalogue) (name : String) : Prop :=
  c.store.getFile name ≠ none ∨ name ∈ c.store.localIntents

/-- One call; a call that fails is rolled back and leaves the catalogue as it was. Rows and
intents may also go away. -/
inductive Step (fold : String → String) : Catalogue → Catalogue → Prop where
  | put {c : Catalogue} {m : FileMeta} {isLocal : Bool} {v : Int} {s : Store}
      (h : c.store.commitPut fold m isLocal = .ok (v, s)) : Step fold c { c with store := s }
  | beginLocal {c : Catalogue} {paths : List String} {s : Store}
      (h : c.store.beginLocal fold paths = .ok s) : Step fold c { c with store := s }
  | migrate {c c' : Catalogue} (h : c.migrateNames fold = .ok c') : Step fold c c'
  | forget {c c' : Catalogue} (hnames : c'.store.names = c.store.names)
      (hstored : ∀ name, c'.Stored name → c.Stored name) : Step fold c c'

/-- Where a run begins: a new store, or an old one whose rows have just been migrated. -/
inductive Start (fold : String → String) : Catalogue → Prop where
  | fresh {c : Catalogue} (h : ∀ name, ¬ c.Stored name) : Start fold c
  | opened {old c : Catalogue} (hintents : old.store.localIntents = [])
      (hold : old.portable = false) (h : old.migrateNames fold = .ok c) : Start fold c

variable {fold : String → String}

theorem bindAll_ok {rest : List String} (h : bindAll fold rest names = .ok names') :
    (∀ name ∈ rest, Reserved fold names' name) ∧ ∀ k a, names.find k = some a → names'.find k = some a := by
  induction rest generalizing names with
  | nil =>
    cases h
    exact ⟨nofun, fun _ _ => id⟩
  | cons name rest ih =>
    unfold bindAll at h
    split at h
    · cases h
    · next names₁ hbind =>
      obtain ⟨hreserved, hkeep⟩ := bindName_ok hbind
      obtain ⟨hrest, hkeep'⟩ := ih h
      refine ⟨fun n hn => ?_, fun k a ha => hkeep' k a (hkeep k a ha)⟩
      rcases List.mem_cons.mp hn with rfl | hmem
      · exact hreserved.mono hkeep'
      · exact hrest n hmem

theorem beginLocal_ok {paths : List String} {s t : Store} (h : s.beginLocal fold paths = .ok t) :
    (∀ n, t.getFile n = s.getFile n) ∧ (∀ n ∈ t.localIntents, n ∈ s.localIntents ∨ Reserved fold t.names n) ∧
      ∀ k a, s.names.find k = some a → t.names.find k = some a := by
  induction paths generalizing s with
  | nil =>
    cases h
    exact ⟨fun _ => rfl, fun _ => Or.inl, fun _ _ => id⟩
  | cons path paths ih =>
    unfold Store.beginLocal at h
    split at h
    · cases h
    · next names hbind =>
      obtain ⟨hreserved, hkeep⟩ := bindName_ok hbind
      obtain ⟨hfiles, hintents, hkeep'⟩ := ih h
      refine ⟨hfiles, fun n hn => ?_, fun k a ha => hkeep' k a (hkeep k a ha)⟩
      rcases hintents n hn with hmem | hres
      · dsimp only at hmem
        split at hmem
        · exact Or.inl hmem
        · rcases List.mem_append.mp hmem with hold | hnew
          · exact Or.inl hold
          · rw [List.mem_singleton.mp hnew]
            exact Or.inr (hreserved.mono hkeep')
      · exact Or.inr hres

def Consistent (fold : String → String) (c : Catalogue) : Prop :=
  ∀ name, c.Stored name → Reserved fold c.store.names name

theorem mem_rowNames {c : Catalogue} (h : c.store.getFile name ≠ none) :
    name ∈ c.rowNames := by
  obtain ⟨r, hr⟩ := Option.ne_none_iff_exists'.mp h
  rw [rowNames, List.mem_insertionSort, List.mem_map]
  exact ⟨r, Table.find_mem hr, Store.getFile_name hr⟩

theorem Step.consistent {c c' : Catalogue} (h : Step fold c c') (hc : c.Consistent fold) :
    c'.Consistent fold ∧ ∀ k a, c.store.names.find k = some a → c'.store.names.find k = some a := by
  cases h with
  | put h =>
    have hget := Store.getFile_commitPut h
    obtain ⟨names, hbind, -, rfl⟩ := Store.commitPut_ok h
    obtain ⟨hreserved, hkeep⟩ := bindName_ok hbind
    refine ⟨fun name hname => ?_, hkeep⟩
    rcases hname with hrow | hintent
    · rw [hget] at hrow
      split at hrow
      · next heq => exact heq ▸ hreserved
      · exact (hc name (Or.inl hrow)).mono hkeep
    · exact (hc name (Or.inr hintent)).mono hkeep
  | beginLocal h =>
    obtain ⟨hfiles, hintents, hkeep⟩ := beginLocal_ok h
    refine ⟨fun name hname => ?_, hkeep⟩
    rcases hname with hrow | hintent
    · rw [hfiles] at hrow
      exact (hc name (Or.inl hrow)).mono hkeep
    · rcases hintents name hintent with hold | hnew
      · exact (hc name (Or.inr hold)).mono hkeep
      · exact hnew
  | migrate h =>
    unfold migrateNames at h
    split at h
    · cases h
      exact ⟨hc, fun _ _ => id⟩
    · split at h
      · cases h
      · next names hbind =>
        cases h
        have hkeep := (bindAll_ok hbind).2
        exact ⟨fun name hname => (hc name hname).mono hkeep, hkeep⟩
  | forget hnames hstored =>
    refine ⟨fun name hname => ?_, fun k a => by rw [hnames]; exact id⟩
    rw [hnames]
    exact hc name (hstored name hname)

theorem Start.consistent {c : Catalogue} (h : Start fold c) :
    c.Consistent fold := by
  cases h with
  | fresh h => exact fun name hname => absurd hname (h name)
  | opened hintents hold h =>
    unfold migrateNames at h
    rw [hold, if_neg (by simp)] at h
    split at h
    · cases h
    · next names hbind =>
      cases h
      intro name hname
      rcases hname with hrow | hintent
      · exact (bindAll_ok hbind).1 name (mem_rowNames hrow)
      · rw [show _ = [] from hintents] at hintent
        cases hintent

theorem run_consistent {c c' : Catalogue} (h : ReflTransGen (Step fold) c c') (hc : c.Consistent fold) :
    c'.Consistent fold ∧ ∀ k a, c.store.names.find k = some a → c'.store.names.find k = some a := by
  induction h with
  | refl => exact ⟨hc, fun _ _ => id⟩
  | tail _ hlast ih =>
    obtain ⟨hc', hkeep⟩ := hlast.consistent ih.1
    exact ⟨hc', fun k a ha => hkeep k a (ih.2 k a ha)⟩

/-- Names ever stored along a run spell fold-equal beginnings in the same way, and checking a
name answers what reserving it would. -/
theorem portable_names {fold : String → String} {c₀ c c' : Catalogue} (hstart : Start fold c₀)
    (hrun : ReflTransGen (Step fold) c₀ c) (hrun' : ReflTransGen (Step fold) c c') :
    (∀ a b k, c.Stored a → c'.Stored b → k ≤ (split a).length → k ≤ (split b).length →
      ((split a).take k).map fold = ((split b).take k).map fold → (split a).take k = (split b).take k) ∧
    ∀ n, c.store.checkName fold n = .ok () ↔ ∃ names, bindName fold c.store.names n = .ok names := by
  obtain ⟨hc, -⟩ := run_consistent hrun hstart.consistent
  obtain ⟨hc', hkeep⟩ := run_consistent hrun' hc
  refine ⟨fun a b k ha hb hka hkb hfold => ?_, fun n => checkName_iff⟩
  exact ((hc a ha).mono hkeep).spelling (hc' b hb) hka hkb hfold

theorem beginLocal_siblings : ∃ s : Store, ({} : Store).beginLocal id ["a/x", "a/y"] = .ok s ∧
    s.localIntents = ["a/x", "a/y"] := by
  have hintents : (({} : Store).beginLocal id ["a/x", "a/y"]).toOption.map Store.localIntents =
      some ["a/x", "a/y"] := by decide +kernel
  cases h : ({} : Store).beginLocal id ["a/x", "a/y"] with
  | error e =>
    rw [h] at hintents
    cases hintents
  | ok s =>
    rw [h] at hintents
    exact ⟨s, rfl, Option.some.inj hintents⟩

/-- Two intents in one directory spell it in the same way. -/
theorem portable_names_siblings : ∃ c : Catalogue, c.Stored "a/x" ∧ c.Stored "a/y" ∧
    (split "a/x").take 1 = (split "a/y").take 1 := by
  obtain ⟨s, hs, hintents⟩ := beginLocal_siblings
  have hstep : Step id ({} : Catalogue) { store := s } := .beginLocal hs
  have hfresh : Start id ({} : Catalogue) := .fresh fun name h => h.elim (fun h => h rfl) nofun
  have hx : ({ store := s } : Catalogue).Stored "a/x" := Or.inr (by rw [hintents]; decide)
  have hy : ({ store := s } : Catalogue).Stored "a/y" := Or.inr (by rw [hintents]; decide)
  exact ⟨_, hx, hy, (portable_names hfresh (.single hstep) .refl).1 "a/x" "a/y" 1 hx hy
    (by decide) (by decide) (by decide)⟩

end Catalogue

end BirakFormal
