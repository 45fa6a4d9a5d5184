import BirakFormal.Syncer.Repair

/-!
# Reading a peer's change stream

The pure parts of a poll: what a peer serves, when a cursor is void, and which entries of a
page are worth recording. Versions are dense enough for one argument: in a page cut from the
rows in version order, no row the cursor would pass over is missing.
-/

namespace BirakFormal

open Tables

def Store.getChanges (s : Store) (since : Int) (limit : Nat) : List FileMeta :=
  ((s.files.rows.filter fun r => since < r.version).insertionSort
    fun a b => a.version ≤ b.version).take limit

def needsCursorReset (state : PeerState) (epoch : String) (peerMax : Option Int) : Bool :=
  if state.version = 0 then false
  -- The metadata was rebuilt, or the process restarted.
  else if epoch ≠ "" ∧ state.epoch ≠ "" ∧ epoch ≠ state.epoch then true
  else peerMax.any fun max => max < state.version

def collapseInto (out : List FileMeta) (change : FileMeta) : List FileMeta :=
  if out.any (fun o => o.name = change.name) then
    out.map fun o => if o.name = change.name ∧ o.version < change.version then change else o
  else out ++ [change]

def collapseByName (changes : List FileMeta) : List FileMeta × Int :=
  (changes.foldl collapseInto [], (changes.map FileMeta.version).foldl max 0)

def followsFrom : Int → List FileMeta → Bool
  | _, [] => true
  | previous, c :: cs => previous < c.version && followsFrom c.version cs

def pageAccepted (batchLimit : Nat) (since : Int) : Option (List FileMeta) → Bool
  | none => false
  | some page => page.length ≤ batchLimit && followsFrom since page

section
variable (cfg : Config)

def usableChanges (entries : List FileMeta) : List FileMeta :=
  entries.filter fun e => (validateChange cfg.digest cfg.patterns e).isOk

/-- `newerThanLocal`: `rows` is what the index answered, `fenced` what the watcher did. -/
def newerThanLocal (rows : String → Option FileMeta) (fenced : String → Bool)
    (entries : List FileMeta) : List FileMeta :=
  entries.filter fun e =>
    remoteWins (rows e.name) e || (fenced e.name && compareState (some e) (rows e.name) = .eq)

end

structure Store.Versioned (s : Store) : Prop where
  positive : ∀ r ∈ s.files.rows, 0 < r.version
  bounded : ∀ r ∈ s.files.rows, r.version ≤ s.lastVersion
  distinct : ∀ r ∈ s.files.rows, ∀ r' ∈ s.files.rows, r.version = r'.version → r = r'
  counter : 0 ≤ s.lastVersion

variable {m : FileMeta}

theorem Store.versioned_single (hm : m.version = 1) :
    Store.Versioned { files := Table.empty.put m, lastVersion := 1 } := by
  have honly : ∀ r ∈ ((Table.empty : Table FileMeta.name).put m).rows, r = m := by
    intro r hr
    rcases Table.mem_put_rows.mp hr with rfl | ⟨hnone, -⟩
    · rfl
    · exact absurd hnone List.not_mem_nil
  refine ⟨fun r hr => ?_, fun r hr => ?_, fun r hr r' hr' _ => ?_, Int.one_nonneg⟩
  · rw [honly r hr, hm]
    decide
  · rw [honly r hr]
    exact hm.le
  · rw [honly r hr, honly r' hr']

variable {fold : String → String} {s st : Store} {isLocal : Bool} {r : FileMeta}

theorem mem_rows_commitPut {v : Int} (h : s.commitPut fold m isLocal = .ok (v, st))
    (hr : r ∈ st.files.rows) : r ∈ s.files.rows ∨ r.version = s.lastVersion + 1 := by
  obtain ⟨names, -, -, rfl⟩ := Store.commitPut_ok h
  rcases Table.mem_put_rows.mp hr with rfl | ⟨hr, -⟩
  · exact Or.inr rfl
  · exact Or.inl hr

theorem lastVersion_commitPut {v : Int} (h : s.commitPut fold m isLocal = .ok (v, st)) :
    st.lastVersion = s.lastVersion + 1 := by
  obtain ⟨names, -, -, rfl⟩ := Store.commitPut_ok h
  rfl

theorem Store.Versioned.commitPut {v : Int} (hs : s.Versioned) (h : s.commitPut fold m isLocal = .ok (v, st)) :
    st.Versioned := by
  have hlast := lastVersion_commitPut h
  have hcounter := hs.counter
  refine ⟨fun r hr => ?_, fun r hr => ?_, fun r hr r' hr' heq => ?_, by omega⟩
  · rcases mem_rows_commitPut h hr with hr | hr
    · exact hs.positive r hr
    · omega
  · rcases mem_rows_commitPut h hr with hr | hr
    · have := hs.bounded r hr
      omega
    · omega
  · rcases mem_rows_commitPut h hr with hold | hnew
    · rcases mem_rows_commitPut h hr' with hold' | hnew'
      · exact hs.distinct r hold r' hold' heq
      · have := hs.bounded r hold
        omega
    · rcases mem_rows_commitPut h hr' with hold' | hnew'
      · have := hs.bounded r' hold'
        omega
      · -- Only the row just written carries the new version.
        have hwritten : ∀ x ∈ st.files.rows, x.version = s.lastVersion + 1 → x = s.committedRow m isLocal := by
          intro x hx hv
          obtain ⟨names, -, -, rfl⟩ := Store.commitPut_ok h
          rcases Table.mem_put_rows.mp hx with rfl | ⟨hx, -⟩
          · rfl
          · have := hs.bounded x hx
            omega
        rw [hwritten r hr hnew, hwritten r' hr' hnew']

section
variable {s : Store} {since : Int} {limit : Nat}

theorem mem_getChanges (h : r ∈ s.getChanges since limit) :
    r ∈ s.files.rows ∧ since < r.version := by
  have hsorted := (List.mem_insertionSort _).mp (List.mem_of_mem_take h)
  simpa using List.mem_filter.mp hsorted

theorem foldl_max_le {x b : Int} {ys : List Int} (hx : x ≤ b) (h : ∀ y ∈ ys, y ≤ b) :
    ys.foldl max x ≤ b := by
  induction ys generalizing x with
  | nil => exact hx
  | cons y ys ih =>
    exact ih (max_le hx (h y List.mem_cons_self)) fun z hz => h z (List.mem_cons_of_mem y hz)

theorem mem_getChanges_of_le (hs : s.Versioned) (hr : r ∈ s.files.rows) (hsince : since < r.version)
    (hle : r.version ≤ (collapseByName (s.getChanges since limit)).2) :
    r ∈ s.getChanges since limit := by
  let sorted := (s.files.rows.filter fun r => since < r.version).insertionSort
    fun a b => a.version ≤ b.version
  have hmem : r ∈ sorted :=
    (List.mem_insertionSort _).mpr (List.mem_filter.mpr ⟨hr, decide_eq_true hsince⟩)
  have horder : sorted.Pairwise fun a b => a.version ≤ b.version := by
    have : Std.Total fun a b : FileMeta => a.version ≤ b.version := ⟨fun a b => le_total _ _⟩
    have : IsTrans FileMeta fun a b => a.version ≤ b.version := ⟨fun a b c => le_trans⟩
    exact List.pairwise_insertionSort _ _
  rw [← List.take_append_drop limit sorted] at hmem horder
  rcases List.mem_append.mp hmem with htake | hdrop
  · exact htake
  · -- Everything in the page is at most `r`, so the highest version in it is that of `r`.
    by_contra hnot
    have hbelow : ∀ x ∈ sorted.take limit, x.version < r.version := by
      intro x hx
      have hxr := (List.pairwise_append.mp horder).2.2 x hx r hdrop
      have hne : x.version ≠ r.version := by
        intro heq
        rw [hs.distinct x (mem_getChanges hx).1 r hr heq] at hx
        exact hnot hx
      omega
    have hmax : (collapseByName (s.getChanges since limit)).2 ≤ r.version - 1 := by
      refine foldl_max_le ?_ fun v hv => ?_
      · have := hs.positive r hr
        omega
      · obtain ⟨x, hx, rfl⟩ := List.mem_map.mp hv
        have := hbelow x hx
        omega
    omega

theorem collapseByName_le_lastVersion (hs : s.Versioned) :
    (collapseByName (s.getChanges since limit)).2 ≤ s.lastVersion := by
  refine foldl_max_le hs.counter fun v hv => ?_
  obtain ⟨x, hx, rfl⟩ := List.mem_map.mp hv
  exact hs.bounded x (mem_getChanges hx).1

theorem getChanges_names : ((s.getChanges since limit).map FileMeta.name).Nodup := by
  have hperm := List.perm_insertionSort (fun a b : FileMeta => a.version ≤ b.version)
    (s.files.rows.filter fun r => since < r.version)
  have hnames : ((s.files.rows.filter fun r => since < r.version).map FileMeta.name).Nodup :=
    s.files.unique.sublist (List.filter_sublist.map _)
  exact ((hperm.map FileMeta.name).nodup_iff.mpr hnames).sublist ((List.take_sublist _ _).map _)

theorem foldl_collapseInto {out page : List FileMeta}
    (h : ((out ++ page).map FileMeta.name).Nodup) : page.foldl collapseInto out = out ++ page := by
  induction page generalizing out with
  | nil => exact (List.append_nil out).symm
  | cons c cs ih =>
    have hfresh : out.any (fun o => o.name = c.name) = false := by
      rw [List.map_append, List.map_cons] at h
      have hdisjoint := (List.nodup_append.mp h).2.2
      refine List.any_eq_false.mpr fun o ho heq => ?_
      exact hdisjoint o.name (List.mem_map_of_mem ho) c.name List.mem_cons_self
        (of_decide_eq_true heq)
    rw [List.foldl_cons, collapseInto, hfresh]
    simp only [Bool.false_eq_true, if_false]
    rw [ih (by rwa [List.append_assoc]), List.append_assoc]
    rfl

theorem collapseByName_fst {page : List FileMeta} (h : (page.map FileMeta.name).Nodup) :
    (collapseByName page).1 = page :=
  foldl_collapseInto h

end

variable {cfg : Config}

theorem mem_usableChanges {entries : List FileMeta} {e : FileMeta} :
    e ∈ usableChanges cfg entries ↔ e ∈ entries ∧ validateChange cfg.digest cfg.patterns e = .ok () := by
  unfold usableChanges
  rw [List.mem_filter]
  cases validateChange cfg.digest cfg.patterns e with
  | ok u => simp [Except.isOk, Except.toBool]
  | error text => simp [Except.isOk, Except.toBool]

theorem mem_newerThanLocal {rows : String → Option FileMeta} {fenced : String → Bool}
    {entries : List FileMeta} {e : FileMeta} (h : e ∈ entries) :
    e ∈ newerThanLocal rows fenced entries ∨ StateLe (some e) (rows e.name) := by
  cases hwins : remoteWins (rows e.name) e with
  | true => exact Or.inl (List.mem_filter.mpr ⟨h, by rw [hwins]; rfl⟩)
  | false => exact Or.inr (stateLe_of_not_remoteWins hwins)

end BirakFormal
