import BirakFormal.Gateway.Conditions
import BirakFormal.Shared.Paging
import BirakFormal.Shared.Selection

/-!
# Listings of a bucket

A listing of a bucket's tree walks all of it and keeps the `maxKeys + 1` least items above the
start position, in a heap with the greatest on top. A common prefix is met once for each object
below it. The page is the one of the complete sets.
-/

namespace BirakFormal

structure ObjectInfo where
  key : Bytes
  lastModified : List Char
  etag : List Char
  size : Nat
  storageClass : String := "STANDARD"
  deriving DecidableEq, Repr

inductive ListingItem where
  | object (o : ObjectInfo)
  | common (key : Bytes)
  deriving DecidableEq, Repr

def ListingItem.key : ListingItem → Bytes
  | .object o => o.key
  | .common key => key

def ListingItem.object? : ListingItem → Option ObjectInfo
  | .object o => some o
  | .common _ => none

def ListingItem.common? : ListingItem → Option Bytes
  | .object _ => none
  | .common key => some key

/-- `strings.Index`. -/
def stringsIndex (sep : Bytes) : Bytes → Option Nat
  | [] => if sep = [] then some 0 else none
  | b :: s => if sep.isPrefixOf (b :: s) then some 0 else (stringsIndex sep s).map (· + 1)

def commonPrefix (listed delimiter key : Bytes) : Option Bytes :=
  if delimiter = [] then none
  else (stringsIndex delimiter (key.drop listed.length)).map fun pos =>
    key.take (listed.length + pos + delimiter.length)

structure ListPage where
  objects : List ObjectInfo
  commonPrefixes : List Bytes
  isTruncated : Bool
  nextToken : Bytes
  deriving DecidableEq, Repr

/-- `sort.Slice` by the keys. -/
def sortItems (items : List ListingItem) : List ListingItem :=
  items.insertionSort fun a b => ¬ b.key < a.key

/-- The end of `paginate`: the page of the items above the start position. -/
def cutPage (maxKeys : Nat) (items : List ListingItem) : ListPage :=
  let isTruncated := decide (maxKeys < items.length)
  let items := if isTruncated then items.take maxKeys else items
  { objects := items.filterMap ListingItem.object?
    commonPrefixes := items.filterMap ListingItem.common?
    isTruncated
    nextToken := if isTruncated then (items.getLast?.map ListingItem.key).getD [] else [] }

def paginate (objects : List ObjectInfo) (commonPrefixes : List Bytes) (startAfter : Bytes) (maxKeys : Nat) : ListPage :=
  let items := sortItems (objects.map .object ++ commonPrefixes.map .common)
  let items := if startAfter ≠ [] then items.drop (items.findIdx fun it => startAfter < it.key) else items
  cutPage maxKeys items

inductive WalkErr where
  | notExist
  | fault
  deriving DecidableEq, Repr

/-- What a directory entry that is no directory answers: `Info` fails, a regular file, a symbolic
link (within the bucket or not, and what `Stat` finds: a regular file or something else), or
anything else. -/
inductive DirEntry where
  | broken (e : WalkErr)
  | regular (o : FileObj)
  | link (within : Bool) (target : Except WalkErr (Option FileObj))
  | special

/-- A directory as it is read: its entries in the order of the reads, up to the end or a failure of
`Open` or `ReadDir`. -/
inductive Folder where
  | eof
  | failed (e : WalkErr)
  | dir (name : Bytes) (sub rest : Folder)
  | leaf (name : Bytes) (entry : DirEntry) (rest : Folder)

def Folder.names : Folder → List Bytes
  | .eof => []
  | .failed _ => []
  | .dir name _ rest => name :: rest.names
  | .leaf name _ rest => name :: rest.names

def EntryName (name : Bytes) : Prop := name ≠ [] ∧ 47 ∉ name

def Folder.WellFormed : Folder → Prop
  | .eof => True
  | .failed _ => True
  | .dir name sub rest => EntryName name ∧ name ∉ rest.names ∧ sub.WellFormed ∧ rest.WellFormed
  | .leaf name _ rest => EntryName name ∧ name ∉ rest.names ∧ rest.WellFormed

structure Bucket where
  root : Folder
  wellFormed : root.WellFormed

/-- `IsScratchFile`, `IsClientVisiblePath` on the path of a key, and the format of timestamps. -/
structure ListingView where
  scratch : Bytes → Bool
  visible : Bytes → Bool
  formatTime : Int64 → List Char

def objectInfo (formatTime : Int64 → List Char) (key : Bytes) (o : FileObj) : ObjectInfo :=
  { key, lastModified := formatTime o.modTime, etag := etagFor o, size := o.bytes.length }

def listingItem (formatTime : Int64 → List Char) (listed delimiter key : Bytes) (o : FileObj) : ListingItem :=
  match commonPrefix listed delimiter key with
  | some common => .common common
  | none => .object (objectInfo formatTime key o)

section
variable (v : ListingView) (listed delimiter : Bytes)

def visitEntry (name key : Bytes) (entry : DirEntry) : Except WalkErr (Option ListingItem) :=
  if v.scratch name then .ok none
  else match entry with
    | .broken .notExist => .ok none
    | .broken e => .error e
    | .special => .ok none
    | .regular o =>
      if !v.visible key || !listed.isPrefixOf key then .ok none else .ok (some (listingItem v.formatTime listed delimiter key o))
    | .link within target =>
      if !v.visible key || !within then .ok none
      else match target with
        | .error .notExist => .ok none
        | .error e => .error e
        | .ok none => .ok none
        | .ok (some o) =>
          if !listed.isPrefixOf key then .ok none else .ok (some (listingItem v.formatTime listed delimiter key o))

/-- The items visited under `base` (empty, or the key of a directory and a slash), and the error
the walk ends with. -/
def walkListing : Folder → Bytes → List ListingItem × Option WalkErr
  | .eof, _ => ([], none)
  | .failed e, _ => ([], some e)
  | .dir name sub rest, base =>
    let subtree := base ++ name ++ [47]
    if v.scratch name || !v.visible (base ++ name) then walkListing rest base
    else if listed ≠ [] && !listed.isPrefixOf subtree && !subtree.isPrefixOf listed then walkListing rest base
    else
      match walkListing sub subtree with
      | (items, some .fault) => (items, some .fault)
      | (items, _) => (items ++ (walkListing rest base).1, (walkListing rest base).2)
  | .leaf name entry rest, base =>
    match visitEntry v listed delimiter name (base ++ name) entry with
    | .error e => ([], some e)
    | .ok none => walkListing rest base
    | .ok (some item) => (item :: (walkListing rest base).1, (walkListing rest base).2)

structure Candidates where
  heap : List ListingItem
  present : List Bytes

def heapPush (item : ListingItem) : List ListingItem → List ListingItem
  | [] => [item]
  | y :: rest => if y.key < item.key then item :: y :: rest else y :: heapPush item rest

def keepCandidate (after : Bytes) (maxKeys : Nat) (c : Candidates) (item : ListingItem) : Candidates :=
  if ¬ after < item.key ∨ item.key ∈ c.present then c
  else if c.heap.length = maxKeys + 1 then
    match c.heap with
    | [] => c
    | old :: rest =>
      if ¬ item.key < old.key then c
      else ⟨heapPush item rest, item.key :: c.present.filter (· ≠ old.key)⟩
  else ⟨heapPush item c.heap, item.key :: c.present⟩

def filesystemPage (v : ListingView) (b : Bucket) (listed delimiter after : Bytes) (maxKeys : Nat) :
    Except WalkErr ListPage :=
  match walkListing v listed delimiter b.root [] with
  | (_, some e) => .error e
  | (visited, none) =>
    let candidates := (visited.foldl (keepCandidate after maxKeys) ⟨[], []⟩).heap
    .ok (paginate (candidates.filterMap ListingItem.object?) (candidates.filterMap ListingItem.common?) after maxKeys)

def collectObjects (v : ListingView) (b : Bucket) (listed delimiter : Bytes) :
    Except WalkErr (List ObjectInfo × List Bytes) :=
  match walkListing v listed delimiter b.root [] with
  | (_, some e) => .error e
  | (visited, none) =>
    let objects := (visited.filterMap ListingItem.object?).insertionSort fun a b => ¬ b.key < a.key
    let prefixes := (visited.filterMap ListingItem.common?).dedup
    .ok (objects, prefixes.insertionSort fun a b => ¬ b < a)

theorem stringsIndex_nil {sep : Bytes} (hsep : sep ≠ []) : stringsIndex sep [] = none := if_neg hsep

theorem stringsIndex_spec {sep s : Bytes} (hsep : sep ≠ []) {pos : Nat} (h : stringsIndex sep s = some pos) :
    ∃ rest, s = s.take pos ++ (sep ++ rest) ∧ pos ≤ s.length ∧ stringsIndex sep (s.take pos ++ sep) = some pos := by
  induction s generalizing pos with
  | nil =>
    rw [stringsIndex_nil hsep] at h
    cases h
  | cons b s ih =>
    unfold stringsIndex at h
    split at h
    · next hpre =>
      obtain rfl := Option.some.inj h
      obtain ⟨rest, hrest⟩ := List.isPrefixOf_iff_prefix.mp hpre
      obtain ⟨c, t, rfl⟩ := List.exists_cons_of_ne_nil hsep
      refine ⟨rest, hrest.symm, Nat.zero_le _, ?_⟩
      rw [List.take_zero, List.nil_append, stringsIndex, if_pos (List.isPrefixOf_iff_prefix.mpr List.prefix_rfl)]
    · next hpre =>
      obtain ⟨n, hn, rfl⟩ := Option.map_eq_some_iff.mp h
      obtain ⟨rest, hrest, hle, hfirst⟩ := ih hn
      refine ⟨rest, ?_, Nat.succ_le_succ hle, ?_⟩
      · rw [List.take_succ_cons, List.cons_append, ← hrest]
      · have hnot : ¬ sep.isPrefixOf (b :: (s.take n ++ sep)) = true := by
          intro hlong
          apply hpre
          rw [List.isPrefixOf_iff_prefix] at hlong ⊢
          refine hlong.trans ?_
          rw [hrest]
          refine (List.prefix_cons_inj b).mpr ?_
          rw [List.take_append_of_le_length (by rw [List.length_take]; omega), List.take_take, Nat.min_self, ← List.append_assoc]
          exact List.prefix_append _ _
        rw [List.take_succ_cons, List.cons_append, stringsIndex, if_neg hnot, hfirst, Option.map_some]

theorem commonPrefix_form {listed delimiter key common : Bytes} (hlisted : listed <+: key)
    (h : commonPrefix listed delimiter key = some common) :
    delimiter ≠ [] ∧ ∃ tail pos, key = listed ++ tail ∧ stringsIndex delimiter tail = some pos ∧ pos ≤ tail.length ∧
      common = listed ++ (tail.take pos ++ delimiter) ∧ stringsIndex delimiter (tail.take pos ++ delimiter) = some pos := by
  unfold commonPrefix at h
  split at h
  · cases h
  · next hdelim =>
    obtain ⟨pos, hpos, hcommon⟩ := Option.map_eq_some_iff.mp h
    obtain ⟨tail, rfl⟩ := hlisted
    rw [List.drop_left] at hpos
    obtain ⟨rest, htail, hle, hfirst⟩ := stringsIndex_spec hdelim hpos
    have htake : tail.take (pos + delimiter.length) = tail.take pos ++ delimiter := by
      conv_lhs => rw [htail, ← List.append_assoc]
      exact List.take_left' (by rw [List.length_append, List.length_take_of_le hle])
    refine ⟨hdelim, tail, pos, rfl, hpos, hle, ?_, hfirst⟩
    rw [← hcommon, Nat.add_assoc, List.take_length_add_append, htake]

theorem commonPrefix_idem {listed delimiter key common : Bytes} (hlisted : listed <+: key)
    (h : commonPrefix listed delimiter key = some common) :
    commonPrefix listed delimiter common = some common ∧ common ≠ [] ∧ listed <+: common ∧ common <+: key := by
  obtain ⟨hdelim, tail, pos, rfl, hpos, hle, hform, hfirst⟩ := commonPrefix_form hlisted h
  refine ⟨?_, ?_, ⟨_, hform.symm⟩, ?_⟩
  · rw [hform, commonPrefix, if_neg hdelim, List.drop_left, hfirst, Option.map_some, List.take_of_length_le]
    rw [List.length_append, List.length_append, List.length_take_of_le hle]
    omega
  · intro hnil
    rw [hform, List.append_eq_nil_iff, List.append_eq_nil_iff] at hnil
    exact hdelim hnil.2.2
  · obtain ⟨rest, htail, -⟩ := stringsIndex_spec hdelim hpos
    rw [hform]
    refine (List.prefix_append_right_inj listed).mpr ⟨rest, ?_⟩
    rw [List.append_assoc, ← htail]

def ListingItem.Shaped (listed delimiter : Bytes) : ListingItem → Prop
  | .object o => commonPrefix listed delimiter o.key = none ∧ o.key ≠ []
  | .common key => commonPrefix listed delimiter key = some key ∧ key ≠ []

def Below (base : Bytes) (names : List Bytes) (key : Bytes) : Prop :=
  ∃ r, key = base ++ r ∧ r.takeWhile (· ≠ 47) ∈ names

variable {v listed delimiter}

theorem visitEntry_item {name key : Bytes} {entry : DirEntry} {item : ListingItem}
    (h : visitEntry v listed delimiter name key entry = .ok (some item)) :
    listed <+: key ∧ ∃ o, item = listingItem v.formatTime listed delimiter key o := by
  have hitem : ∀ {o : FileObj}, (if !listed.isPrefixOf key then (.ok none : Except WalkErr (Option ListingItem))
      else .ok (some (listingItem v.formatTime listed delimiter key o))) = .ok (some item) →
      listed <+: key ∧ ∃ o, item = listingItem v.formatTime listed delimiter key o := by
    intro o ho
    split at ho
    · cases ho
    · next hpre =>
      refine ⟨List.isPrefixOf_iff_prefix.mp (by simpa using hpre), o, ?_⟩
      injection ho with ho
      exact (Option.some.inj ho).symm
  unfold visitEntry at h
  split at h
  · cases h
  · split at h
    · cases h
    · cases h
    · cases h
    · next o =>
      cases hvisible : v.visible key with
      | false =>
        rw [hvisible] at h
        cases h
      | true =>
        rw [hvisible] at h
        exact hitem h
    · split at h
      · cases h
      · split at h
        · cases h
        · cases h
        · cases h
        · exact hitem h

theorem listingItem_shaped {formatTime : Int64 → List Char} {key : Bytes} (hlisted : listed <+: key) (hkey : key ≠ [])
    (o : FileObj) : (listingItem formatTime listed delimiter key o).Shaped listed delimiter ∧
      ∀ i, listingItem formatTime listed delimiter key o = .object i → i.key = key := by
  unfold listingItem
  cases hcommon : commonPrefix listed delimiter key with
  | none =>
    refine ⟨⟨hcommon, hkey⟩, fun i hi => ?_⟩
    injection hi with hi
    rw [← hi, objectInfo]
  | some common =>
    obtain ⟨hsame, hne, -⟩ := commonPrefix_idem hlisted hcommon
    exact ⟨⟨hsame, hne⟩, fun i hi => nomatch hi⟩

def ListingItem.Apart (a b : ListingItem) : Prop :=
  ∀ o o', a = .object o → b = .object o' → o.key ≠ o'.key

instance : Std.Symm ListingItem.Apart := ⟨fun _ _ h o o' ho ho' hkey => h o' o ho' ho hkey.symm⟩

structure Visits (listed delimiter base : Bytes) (names : List Bytes) (items : List ListingItem) : Prop where
  shaped : ∀ item ∈ items, item.Shaped listed delimiter
  below : ∀ o, .object o ∈ items → Below base names o.key
  distinct : items.Pairwise ListingItem.Apart

variable {base name : Bytes} {names names' : List Bytes} {items items' : List ListingItem}

theorem Visits.nil : Visits listed delimiter base names [] :=
  ⟨fun _ h => absurd h List.not_mem_nil, fun _ h => absurd h List.not_mem_nil, List.Pairwise.nil⟩

theorem Visits.mono (h : Visits listed delimiter base names items) (hnames : names ⊆ names') :
    Visits listed delimiter base names' items := by
  refine ⟨h.shaped, fun o ho => ?_, h.distinct⟩
  obtain ⟨r, hr, hmem⟩ := h.below o ho
  exact ⟨r, hr, hnames hmem⟩

theorem Visits.append (h : Visits listed delimiter base [name] items) (h' : Visits listed delimiter base names items')
    (hname : name ∉ names) : Visits listed delimiter base (name :: names) (items ++ items') := by
  refine ⟨fun item hitem => ?_, fun o ho => ?_, List.pairwise_append.mpr ⟨h.distinct, h'.distinct, ?_⟩⟩
  · exact (List.mem_append.mp hitem).elim (h.shaped item) (h'.shaped item)
  · rcases List.mem_append.mp ho with ho | ho
    · exact (h.mono (List.cons_subset_cons name (List.nil_subset names))).below o ho
    · exact (h'.mono (List.subset_cons_self name names)).below o ho
  · rintro a ha b hb o o' rfl rfl hkey
    obtain ⟨r, hr, hmem⟩ := h.below o ha
    obtain ⟨r', hr', hmem'⟩ := h'.below o' hb
    have hsame : r = r' := List.append_cancel_left (hr ▸ hr' ▸ hkey)
    rw [← hsame, List.mem_singleton.mp hmem] at hmem'
    exact hname hmem'

theorem takeWhile_entryName (hname : EntryName name) (r : Bytes) :
    (name ++ 47 :: r).takeWhile (· ≠ 47) = name ∧ name.takeWhile (· ≠ 47) = name := by
  have hall : ∀ c ∈ name, decide (c ≠ 47) = true := fun c hc => decide_eq_true fun h => hname.2 (h ▸ hc)
  constructor
  · rw [List.takeWhile_append_of_pos hall, List.takeWhile_cons_of_neg (by decide), List.append_nil]
  · have hwhole : (name ++ []).takeWhile (fun c => decide (c ≠ 47)) = name ++ [].takeWhile _ := List.takeWhile_append_of_pos hall
    simpa using hwhole

theorem Visits.sub (h : Visits listed delimiter (base ++ name ++ [47]) names items) (hname : EntryName name) :
    Visits listed delimiter base [name] items := by
  refine ⟨h.shaped, fun o ho => ?_, h.distinct⟩
  obtain ⟨r, hr, -⟩ := h.below o ho
  refine ⟨name ++ 47 :: r, ?_, ?_⟩
  · rw [hr, List.append_assoc, List.append_assoc, List.singleton_append]
  · rw [(takeWhile_entryName hname r).1]
    exact List.mem_singleton_self name

theorem Visits.single {entry : DirEntry} {item : ListingItem} (hname : EntryName name)
    (h : visitEntry v listed delimiter name (base ++ name) entry = .ok (some item)) :
    Visits listed delimiter base [name] [item] := by
  obtain ⟨hlisted, o, rfl⟩ := visitEntry_item h
  have hne : base ++ name ≠ [] := fun hnil => hname.1 (List.append_eq_nil_iff.mp hnil).2
  obtain ⟨hshaped, hkey⟩ := listingItem_shaped hlisted hne o
  refine ⟨fun item hitem => List.mem_singleton.mp hitem ▸ hshaped, fun i hi => ?_, List.pairwise_singleton _ _⟩
  refine ⟨name, hkey i (List.mem_singleton.mp hi).symm, ?_⟩
  rw [(takeWhile_entryName hname []).2]
  exact List.mem_singleton_self name

theorem walkListing_visits {f : Folder} (hf : f.WellFormed) :
    Visits listed delimiter base f.names (walkListing v listed delimiter f base).1 := by
  induction f generalizing base with
  | eof => exact Visits.nil
  | failed e => exact Visits.nil
  | dir name sub rest ihsub ihrest =>
    obtain ⟨hname, hfresh, hsub, hrest⟩ := hf
    have hskip := (@ihrest base hrest).mono (List.subset_cons_self name rest.names)
    have hbelow := (@ihsub (base ++ name ++ [47]) hsub).sub hname
    have hboth := hbelow.append (@ihrest base hrest) hfresh
    unfold walkListing
    dsimp only
    split
    · exact hskip
    · split
      · exact hskip
      · split
        · next items heq =>
          rw [heq] at hbelow
          exact hbelow.mono (List.cons_subset_cons name (List.nil_subset _))
        · next items e _ heq =>
          rw [heq] at hboth
          exact hboth
  | leaf name entry rest ihrest =>
    obtain ⟨hname, hfresh, hrest⟩ := hf
    unfold walkListing
    split
    · exact Visits.nil
    · exact (ihrest hrest).mono (List.subset_cons_self name rest.names)
    · next item hitem => exact (Visits.single hname hitem).append (ihrest hrest) hfresh

theorem Visits.eq_of_key (h : Visits listed delimiter base names items) {a b : ListingItem} (ha : a ∈ items) (hb : b ∈ items)
    (hkey : a.key = b.key) : a = b := by
  have hshape := fun x hx => h.shaped x hx
  cases a with
  | common k =>
    cases b with
    | common k' => exact congrArg ListingItem.common hkey
    | object o =>
      have hnone : commonPrefix listed delimiter k = none := (show k = o.key from hkey) ▸ (hshape _ hb).1
      exact absurd ((hshape _ ha).1.symm.trans hnone) (by simp)
  | object o =>
    cases b with
    | common k =>
      have hnone : commonPrefix listed delimiter k = none := (show o.key = k from hkey) ▸ (hshape _ ha).1
      exact absurd ((hshape _ hb).1.symm.trans hnone) (by simp)
    | object o' =>
      by_contra hne
      exact h.distinct.forall ha hb hne o o' rfl rfl hkey

end

namespace ByteOrder

scoped instance byteOrder : LinearOrder UInt8 where
  le_refl := UInt8.le_refl
  le_trans _ _ _ := UInt8.le_trans
  lt_iff_le_not_ge a b := by
    simp only [UInt8.lt_iff_toNat_lt, UInt8.le_iff_toNat_le]
    omega
  le_antisymm _ _ := UInt8.le_antisymm
  le_total := UInt8.le_total
  toDecidableLE := inferInstance

end ByteOrder

open scoped ByteOrder
open Selection

theorem sortItems_eq_collect {items visited : List ListingItem} (hnodup : items.Nodup)
    (hmem : ∀ item, item ∈ items ↔ item ∈ visited)
    (hsame : ∀ a ∈ visited, ∀ b ∈ visited, a.key = b.key → a = b) :
    sortItems items = collect ListingItem.key visited := by
  have htotal : Std.Total fun a b : ListingItem => ¬ b.key < a.key :=
    ⟨fun a b => (lt_trichotomy a.key b.key).elim (fun h => Or.inl (not_lt_of_gt h))
      fun h => h.elim (fun h => Or.inl (by rw [h]; exact lt_irrefl _)) fun h => Or.inr (not_lt_of_gt h)⟩
  have htrans : IsTrans ListingItem fun a b => ¬ b.key < a.key :=
    ⟨fun a b c hab hbc => not_lt.mpr (le_trans (not_lt.mp hab) (not_lt.mp hbc))⟩
  have hperm : (sortItems items).Perm items := List.perm_insertionSort _ _
  have hsorted : (sortItems items).Pairwise fun a b => ¬ b.key < a.key := List.pairwise_insertionSort _ _
  have hascending : Ascending ListingItem.key (sortItems items) := by
    have hne : (sortItems items).Pairwise (· ≠ ·) := hperm.nodup_iff.mpr hnodup
    refine (hsorted.and hne).imp_of_mem fun {a b} ha hb hab => ?_
    refine lt_of_le_of_ne (not_lt.mp hab.1) fun hkey => hab.2 ?_
    exact hsame a ((hmem a).mp (hperm.mem_iff.mp ha)) b ((hmem b).mp (hperm.mem_iff.mp hb)) hkey
  refine hascending.eq_of_mem_iff (ascending_collect visited) fun item => ?_
  rw [hperm.mem_iff, hmem, mem_collect hsame]

variable {after : Bytes}

theorem drop_findIdx_eq_rest {items : List ListingItem} (h : Ascending ListingItem.key items) :
    items.drop (items.findIdx fun it => after < it.key) = Paging.rest ListingItem.key items after := by
  induction items with
  | nil => rfl
  | cons x items ih =>
    obtain ⟨hx, hrest⟩ := List.pairwise_cons.mp h
    unfold Paging.rest
    by_cases hlt : after < x.key
    · rw [List.findIdx_cons, decide_eq_true hlt, List.filter_eq_self.mpr]
      · rfl
      · intro y hy
        rcases List.mem_cons.mp hy with rfl | hy
        · simpa using hlt
        · simpa using lt_trans hlt (hx y hy)
    · rw [List.findIdx_cons, decide_eq_false hlt, List.filter_cons_of_neg (by simpa using hlt)]
      exact ih hrest

theorem paginate_eq_cutPage {objects : List ObjectInfo} {prefixes : List Bytes} {visited : List ListingItem}
    (hnodup : (objects.map ListingItem.object ++ prefixes.map ListingItem.common).Nodup)
    (hmem : ∀ item, item ∈ objects.map ListingItem.object ++ prefixes.map ListingItem.common ↔ item ∈ visited)
    (hsame : ∀ a ∈ visited, ∀ b ∈ visited, a.key = b.key → a = b) (hne : ∀ a ∈ visited, a.key ≠ [])
    (after : Bytes) (maxKeys : Nat) :
    paginate objects prefixes after maxKeys =
      cutPage maxKeys (Paging.rest ListingItem.key (collect ListingItem.key visited) after) := by
  unfold paginate
  dsimp only
  rw [sortItems_eq_collect hnodup hmem hsame]
  split
  · rw [drop_findIdx_eq_rest (ascending_collect visited)]
  · next hafter =>
    rw [Decidable.not_not.mp hafter, Paging.rest, List.filter_eq_self.mpr]
    intro a ha
    obtain ⟨b, l, hbl⟩ := List.exists_cons_of_ne_nil (hne a ((mem_collect hsame).mp ha))
    simp [hbl]

theorem cutPage_take (maxKeys : Nat) (items : List ListingItem) :
    cutPage maxKeys (items.take (maxKeys + 1)) = cutPage maxKeys items := by
  by_cases hlong : maxKeys < items.length
  · have hcut : maxKeys < (items.take (maxKeys + 1)).length := by
      rw [List.length_take]
      omega
    unfold cutPage
    rw [decide_eq_true hlong, decide_eq_true hcut]
    dsimp only
    rw [if_pos rfl, if_pos rfl, List.take_take, Nat.min_eq_left (Nat.le_succ maxKeys)]
    rfl
  · rw [List.take_of_length_le (by omega)]

structure Candidates.Tracks (c : Candidates) (kept : List ListingItem) : Prop where
  heap : c.heap = kept.reverse
  present : ∀ k, k ∈ c.present ↔ ∃ x ∈ kept, x.key = k

variable {item : ListingItem} {kept : List ListingItem}

theorem heapPush_reverse (h : Ascending ListingItem.key kept) (hnew : ∀ x ∈ kept, x.key ≠ item.key) :
    heapPush item kept.reverse = (insertKey ListingItem.key item kept).reverse := by
  induction kept using List.reverseRecOn with
  | nil => rfl
  | append_singleton kept y ih =>
    obtain ⟨hkept, -, hy⟩ := List.pairwise_append.mp h
    have hbelow : ∀ x ∈ kept, x.key < y.key := fun x hx => hy x hx y (List.mem_singleton_self y)
    rw [List.reverse_append, List.reverse_singleton, List.singleton_append, heapPush]
    split
    · next hlt =>
      rw [insertKey_of_above, List.reverse_append, List.reverse_append]
      · rfl
      · intro x hx
        rcases List.mem_append.mp hx with hx | hx
        · exact lt_trans (hbelow x hx) hlt
        · exact List.mem_singleton.mp hx ▸ hlt
    · next hle =>
      have hlt : item.key < y.key :=
        lt_of_le_of_ne (not_lt.mp hle) (Ne.symm (hnew y (List.mem_append_right kept (List.mem_singleton_self y))))
      rw [insertKey_append hlt, List.reverse_append, ih hkept fun x hx => hnew x (List.mem_append_left _ hx)]
      rfl

theorem exists_mem_insertKey (hnew : ∀ x ∈ kept, x.key ≠ item.key) (k : Bytes) :
    (∃ x ∈ insertKey ListingItem.key item kept, x.key = k) ↔ k = item.key ∨ ∃ x ∈ kept, x.key = k := by
  constructor
  · rintro ⟨x, hx, rfl⟩
    rcases mem_of_mem_insertKey hx with rfl | hx
    · exact Or.inl rfl
    · exact Or.inr ⟨x, hx, rfl⟩
  · rintro (rfl | ⟨x, hx, hk⟩)
    · exact exists_key_insertKey kept item
    · exact ⟨x, mem_insertKey_of_mem hx, hk⟩

theorem keepCandidate_tracks {c : Candidates} {maxKeys : Nat}
    (h : c.Tracks kept) (hkept : Ascending ListingItem.key kept) (hlen : kept.length ≤ maxKeys + 1)
    (hafter : after < item.key) :
    (keepCandidate after maxKeys c item).Tracks ((insertKey ListingItem.key item kept).take (maxKeys + 1)) := by
  unfold keepCandidate
  by_cases hpresent : item.key ∈ c.present
  · obtain ⟨x, hx, hkey⟩ := (h.present _).mp hpresent
    rw [if_pos (Or.inr hpresent), insertKey_of_present hkept hx hkey, List.take_of_length_le hlen]
    exact h
  · have hnew : ∀ x ∈ kept, x.key ≠ item.key := fun x hx hkey => hpresent ((h.present _).mpr ⟨x, hx, hkey⟩)
    have hlength : c.heap.length = kept.length := by rw [h.heap, List.length_reverse]
    rw [if_neg (not_or.mpr ⟨not_not.mpr hafter, hpresent⟩)]
    by_cases hfull : c.heap.length = maxKeys + 1
    · -- the last of the kept items is the top of the heap
      obtain ⟨front, old, rfl⟩ : ∃ front old, kept = front ++ [old] := by
        have hne : kept ≠ [] := by
          rintro rfl
          rw [List.length_nil] at hlength
          omega
        exact ⟨_, _, (List.dropLast_append_getLast hne).symm⟩
      have hheap : c.heap = old :: front.reverse := by rw [h.heap, List.reverse_append]; rfl
      have hfront : front.length = maxKeys := by
        rw [List.length_append, List.length_singleton] at hlength
        omega
      obtain ⟨hasc, -, hcross⟩ := List.pairwise_append.mp hkept
      have hbelow : ∀ x ∈ front, x.key < old.key := fun x hx => hcross x hx old (List.mem_singleton_self old)
      rw [if_pos hfull, hheap]
      dsimp only
      by_cases hlt : item.key < old.key
      · have hnewFront : ∀ x ∈ front, x.key ≠ item.key := fun x hx => hnew x (List.mem_append_left _ hx)
        have hshort : (insertKey ListingItem.key item front ++ [old]).take (maxKeys + 1) = insertKey ListingItem.key item front :=
          List.take_left' (by rw [length_insertKey hnewFront, hfront])
        rw [if_neg (not_not.mpr hlt), insertKey_append hlt, hshort]
        refine ⟨heapPush_reverse hasc hnewFront, fun k => ?_⟩
        rw [exists_mem_insertKey hnewFront, List.mem_cons, List.mem_filter, h.present]
        refine or_congr Iff.rfl ⟨?_, ?_⟩
        · rintro ⟨⟨x, hx, rfl⟩, hk⟩
          rcases List.mem_append.mp hx with hx | hx
          · exact ⟨x, hx, rfl⟩
          · rw [List.mem_singleton.mp hx] at hk
            simp at hk
        · rintro ⟨x, hx, rfl⟩
          exact ⟨⟨x, List.mem_append_left _ hx, rfl⟩, decide_eq_true (ne_of_lt (hbelow x hx))⟩
      · have hgt : ∀ x ∈ front ++ [old], x.key < item.key := by
          intro x hx
          refine lt_of_le_of_ne (le_trans ?_ (not_lt.mp hlt)) (hnew x hx)
          rcases List.mem_append.mp hx with hx | hx
          · exact le_of_lt (hbelow x hx)
          · rw [List.mem_singleton.mp hx]
        rw [if_pos hlt, insertKey_of_above hgt, List.take_append_of_le_length (by simp [hfront]), List.take_of_length_le hlen]
        exact h
    · have hroom : (insertKey ListingItem.key item kept).length ≤ maxKeys + 1 := by
        rw [length_insertKey hnew]
        omega
      rw [if_neg hfull, List.take_of_length_le hroom]
      refine ⟨by rw [h.heap]; exact heapPush_reverse hkept hnew, fun k => ?_⟩
      rw [exists_mem_insertKey hnew, List.mem_cons, h.present]

theorem foldl_keepCandidate_tracks {maxKeys : Nat} (visited : List ListingItem) {c : Candidates}
    (h : c.Tracks kept) (hkept : Ascending ListingItem.key kept) (hlen : kept.length ≤ maxKeys + 1) :
    (visited.foldl (keepCandidate after maxKeys) c).Tracks
      ((visited.filter fun x => after < x.key).foldl
        (fun l x => (insertKey ListingItem.key x l).take (maxKeys + 1)) kept) := by
  induction visited generalizing c kept with
  | nil => exact h
  | cons item visited ih =>
    rw [List.foldl_cons]
    by_cases hafter : after < item.key
    · rw [List.filter_cons_of_pos (by simpa using hafter), List.foldl_cons]
      refine ih (keepCandidate_tracks h hkept hlen hafter) ?_ ?_
      · exact List.Pairwise.sublist (List.take_sublist _ _) hkept.insertKey
      · rw [List.length_take]
        omega
    · have hsame : keepCandidate after maxKeys c item = c := if_pos (Or.inl hafter)
      rw [List.filter_cons_of_neg (by simpa using hafter), hsame]
      exact ih h hkept hlen

theorem perm_of_objects_commons (items : List ListingItem) :
    ((items.filterMap ListingItem.object?).map ListingItem.object ++
      (items.filterMap ListingItem.common?).map ListingItem.common).Perm items := by
  induction items with
  | nil => exact List.Perm.nil
  | cons item items ih =>
    cases item with
    | object o => exact ih.cons (.object o)
    | common key => exact List.perm_middle.trans (ih.cons (.common key))

theorem paginate_ascending {items kept : List ListingItem} (hperm : items.Perm kept)
    (hasc : Ascending ListingItem.key kept) (habove : ∀ x ∈ kept, after < x.key) (maxKeys : Nat) :
    paginate (items.filterMap ListingItem.object?) (items.filterMap ListingItem.common?) after maxKeys = cutPage maxKeys kept := by
  have hsame : ∀ a ∈ kept, ∀ b ∈ kept, a.key = b.key → a = b := fun a ha b hb => hasc.eq_of_key ha hb
  have hne : ∀ a ∈ kept, a.key ≠ [] := fun a ha hnil => List.not_lt_nil _ (hnil ▸ habove a ha)
  have hpage : Paging.rest ListingItem.key (collect ListingItem.key kept) after = kept := by
    have hall : collect ListingItem.key kept = kept :=
      (ascending_collect kept).eq_of_mem_iff hasc fun x => mem_collect hsame
    rw [hall, Paging.rest, List.filter_eq_self]
    exact fun x hx => by simpa using habove x hx
  have hboth := (perm_of_objects_commons items).trans hperm
  rw [paginate_eq_cutPage (hboth.nodup_iff.mpr hasc.nodup) (fun item => hboth.mem_iff) hsame hne, hpage]

section
variable {listed delimiter base : Bytes} {names : List Bytes} {visited : List ListingItem}

theorem Visits.key_ne_nil (h : Visits listed delimiter base names visited) (hitem : item ∈ visited) :
    item.key ≠ [] := by
  have hshaped := h.shaped item hitem
  cases item with
  | object o => exact hshaped.2
  | common key => exact hshaped.2

theorem Visits.paginate_complete (h : Visits listed delimiter base names visited) (after : Bytes) (maxKeys : Nat) :
    paginate ((visited.filterMap ListingItem.object?).insertionSort fun a b => ¬ b.key < a.key)
        ((visited.filterMap ListingItem.common?).dedup.insertionSort fun a b => ¬ b < a) after maxKeys =
      cutPage maxKeys (Paging.rest ListingItem.key (collect ListingItem.key visited) after) := by
  have hobjects : ((visited.filterMap ListingItem.object?).insertionSort fun a b => ¬ b.key < a.key).Perm
      (visited.filterMap ListingItem.object?) := List.perm_insertionSort _ _
  have hcommons : ((visited.filterMap ListingItem.common?).dedup.insertionSort fun a b => ¬ b < a).Perm
      (visited.filterMap ListingItem.common?).dedup := List.perm_insertionSort _ _
  have hdistinct : (visited.filterMap ListingItem.object?).Nodup := by
    refine List.Pairwise.filterMap ListingItem.object? (fun a b hab o ho o' ho' heq => ?_) h.distinct
    have ha : a = .object o := by
      cases a with
      | object i => exact congrArg ListingItem.object (Option.some.inj ho)
      | common key => cases ho
    have hb : b = .object o' := by
      cases b with
      | object i => exact congrArg ListingItem.object (Option.some.inj ho')
      | common key => cases ho'
    exact hab o o' ha hb (congrArg ObjectInfo.key heq)
  refine paginate_eq_cutPage ?_ ?_ (fun a ha b hb => h.eq_of_key ha hb) (fun a ha => h.key_ne_nil ha) after maxKeys
  · refine List.nodup_append.mpr ⟨?_, ?_, ?_⟩
    · exact (hobjects.nodup_iff.mpr hdistinct).map fun _ _ heq => ListingItem.object.inj heq
    · exact (hcommons.nodup_iff.mpr (List.nodup_dedup _)).map fun _ _ heq => ListingItem.common.inj heq
    · intro a ha b hb heq
      obtain ⟨o, -, rfl⟩ := List.mem_map.mp ha
      obtain ⟨k, -, rfl⟩ := List.mem_map.mp hb
      cases heq
  · intro item
    rw [← (perm_of_objects_commons visited).mem_iff, List.mem_append, List.mem_append, (hobjects.map _).mem_iff,
      (hcommons.map _).mem_iff, List.mem_map, List.mem_map, List.mem_map]
    simp only [List.mem_dedup]

theorem Visits.paginate_candidates (h : Visits listed delimiter base names visited) (after : Bytes) (maxKeys : Nat) :
    paginate ((visited.foldl (keepCandidate after maxKeys) ⟨[], []⟩).heap.filterMap ListingItem.object?)
        ((visited.foldl (keepCandidate after maxKeys) ⟨[], []⟩).heap.filterMap ListingItem.common?) after maxKeys =
      cutPage maxKeys (Paging.rest ListingItem.key (collect ListingItem.key visited) after) := by
  have hsame : ∀ a ∈ visited, ∀ b ∈ visited, a.key = b.key → a = b := fun a ha b hb => h.eq_of_key ha hb
  have hmem : ∀ x, x ∈ Paging.rest ListingItem.key (collect ListingItem.key visited) after ↔ x ∈ visited ∧ after < x.key := by
    intro x
    rw [Paging.mem_rest, mem_collect hsame]
  have hrest : Ascending ListingItem.key (Paging.rest ListingItem.key (collect ListingItem.key visited) after) :=
    List.Pairwise.filter _ (ascending_collect visited)
  have hcollect : collect ListingItem.key (visited.filter fun x => after < x.key) =
      Paging.rest ListingItem.key (collect ListingItem.key visited) after := by
    refine (ascending_collect _).eq_of_mem_iff hrest fun x => ?_
    rw [mem_collect fun a ha b hb => hsame a (List.mem_of_mem_filter ha) b (List.mem_of_mem_filter hb), hmem, List.mem_filter]
    simp
  obtain ⟨kept, hkept⟩ : ∃ kept, kept = (Paging.rest ListingItem.key (collect ListingItem.key visited) after).take (maxKeys + 1) :=
    ⟨_, rfl⟩
  have hheap : (visited.foldl (keepCandidate after maxKeys) ⟨[], []⟩).heap = kept.reverse := by
    have hstart : Candidates.Tracks ⟨[], []⟩ [] := ⟨rfl, fun k => by simp⟩
    rw [hkept, ← hcollect, collect, ← foldl_take (maxKeys + 1)]
    exact (foldl_keepCandidate_tracks visited hstart List.Pairwise.nil (Nat.zero_le (maxKeys + 1))).heap
  have hsub : kept.Sublist (Paging.rest ListingItem.key (collect ListingItem.key visited) after) :=
    hkept ▸ List.take_sublist _ _
  have hasc : Ascending ListingItem.key kept := hrest.sublist hsub
  have hvisited : ∀ x ∈ kept, x ∈ visited ∧ after < x.key := fun x hx => (hmem x).mp (hsub.subset hx)
  rw [hheap, paginate_ascending kept.reverse_perm hasc (fun x hx => (hvisited x hx).2), hkept, cutPage_take]

end

theorem filesystemPage_eq_paginate (v : ListingView) (b : Bucket) (listed delimiter after : Bytes) (maxKeys : Nat) :
    filesystemPage v b listed delimiter after maxKeys =
      (collectObjects v b listed delimiter).map fun complete => paginate complete.1 complete.2 after maxKeys := by
  have hvisits : Visits listed delimiter [] b.root.names (walkListing v listed delimiter b.root []).1 :=
    walkListing_visits b.wellFormed
  unfold filesystemPage collectObjects
  rcases hwalk : walkListing v listed delimiter b.root [] with ⟨visited, err⟩
  cases err with
  | some e => rfl
  | none =>
    rw [hwalk] at hvisits
    exact congrArg Except.ok ((hvisits.paginate_candidates after maxKeys).trans (hvisits.paginate_complete after maxKeys).symm)

end BirakFormal
