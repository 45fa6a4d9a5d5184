import BirakFormal.Gateway.Listing
import BirakFormal.Shared.Utf8

/-!
# Listings from the catalog

A listing from the index of live names reads them in ranges of 128, in ascending order. A row in
a group leaves the range: the next one starts behind the group, at the successor of the common
prefix, whose characters are counted up from the last one that can be.
-/

namespace BirakFormal

open Utf8 (encode decode)

def maxRune : Char := Char.ofNat 0x10ffff

def nextRune (c : Char) : Char := if c.toNat + 1 = 0xd800 then Char.ofNat 0xe000 else Char.ofNat (c.toNat + 1)

/-- The loop of `prefixEnd`, over the runes from the last one on. -/
def bumpRunes : List Char → List Char
  | [] => []
  | c :: rest => if c = maxRune then bumpRunes rest else nextRune c :: rest

def prefixEnd (p : Bytes) : Bytes := encode (bumpRunes (decode p).reverse).reverse

def validString (s : Bytes) : Bool := encode (decode s) = s

/-- The names of the live rows, in the order of the index. They are paths of files. -/
structure LiveIndex where
  names : List Bytes
  ascending : names.Pairwise (· < ·)
  valid : ∀ n ∈ names, validString n = true
  file : ∀ n ∈ names, n.getLast? ≠ some 47

inductive ListErr where
  | limit (text : String)
  | steps
  deriving DecidableEq, Repr

def inLiveRange (start upper after n : Bytes) : Bool :=
  (if ¬ after < start then decide (after < n) else decide (¬ n < start)) && decide (n < upper)

def listLiveRange (index : LiveIndex) (start upper after : Bytes) (limit : Int) : Except ListErr (List Bytes) :=
  if limit ≤ 0 || limit > 10000 then .error (.limit ("invalid live range limit " ++ toString limit))
  else .ok ((index.names.filter (inLiveRange start upper after)).take limit.toNat)

/-- `ShouldIgnore`, whether `SafePath` accepts a name, and what is found at its path. -/
structure CatalogView where
  shouldIgnore : Bytes → Bool
  safePath : Bytes → Bool
  lstat : Bytes → DirEntry
  formatTime : Int64 → List Char

def CatalogView.file (v : CatalogView) (name : Bytes) : Option FileObj :=
  if v.shouldIgnore name then none
  else if !v.safePath name then none
  else match v.lstat name with
    | .broken _ => none
    | .special => none
    | .regular o => some o
    | .link within target =>
      if !within then none
      else match target with
        | .ok (some o) => some o
        | _ => none

/-- `strings.TrimPrefix`. -/
def trimBase (base name : Bytes) : Bytes := if base.isPrefixOf name then name.drop base.length else name

structure Scan where
  start : Bytes
  cursor : Bytes
  objects : List ObjectInfo
  prefixes : List Bytes

section
variable (v : CatalogView) (index : LiveIndex) (base listed delimiter after : Bytes) (maxKeys : Nat)

def scanRows : List Bytes → Scan → Scan
  | [], s => s
  | name :: rows, s =>
    let s := { s with cursor := name }
    let key := trimBase base name
    match v.file name with
    | none => scanRows rows s
    | some o =>
      match commonPrefix listed delimiter key with
      | some common =>
        { s with
          prefixes := if after < common then s.prefixes ++ [common] else s.prefixes
          start := prefixEnd (base ++ common) }
      | none =>
        let s := { s with objects := s.objects ++ [objectInfo v.formatTime key o] }
        if s.objects.length + s.prefixes.length > maxKeys then s else scanRows rows s

def scanRanges (upper : Bytes) : Nat → Scan → Except ListErr Scan
  | 0, _ => .error .steps
  | fuel + 1, s =>
    if s.objects.length + s.prefixes.length ≤ maxKeys && s.start < upper then
      match listLiveRange index s.start upper s.cursor 128 with
      | .error e => .error e
      | .ok [] => .ok s
      | .ok page => scanRanges upper fuel (scanRows v base listed delimiter after maxKeys page s)
    else .ok s

end

def listPage (v : CatalogView) (index : LiveIndex) (bucket listed delimiter after : Bytes) (maxKeys fuel : Nat) :
    Except ListErr ListPage :=
  if !validString listed || !validString after || !validString delimiter then .ok ⟨[], [], false, []⟩
  else
    let base := bucket ++ [47]
    match scanRanges v index base listed delimiter after maxKeys (prefixEnd (base ++ listed)) fuel
        ⟨base ++ listed, base ++ after, [], []⟩ with
    | .error e => .error e
    | .ok s => .ok (paginate s.objects s.prefixes after maxKeys)

/-- The common prefix of a key: its shortest beginning that has the listed prefix and then ends with
the delimiter. -/
def IsCommonPrefix (listed delimiter key common : Bytes) : Prop :=
  delimiter ≠ [] ∧ common <+: key ∧ (∃ front, common = listed ++ (front ++ delimiter)) ∧
    ∀ front, listed ++ (front ++ delimiter) <+: key → common.length ≤ (listed ++ (front ++ delimiter)).length

/-- The objects with the prefix and no delimiter after it, and the common prefixes of the others. -/
inductive InListing (v : CatalogView) (index : LiveIndex) (base listed delimiter : Bytes) : ListingItem → Prop
  | object {key : Bytes} {o : FileObj} (hrow : base ++ key ∈ index.names) (hfile : v.file (base ++ key) = some o)
    (hlisted : listed <+: key) (hplain : delimiter ≠ [] → ∀ front, ¬ listed ++ (front ++ delimiter) <+: key) :
    InListing v index base listed delimiter (.object (objectInfo v.formatTime key o))
  | common {key common : Bytes} {o : FileObj} (hrow : base ++ key ∈ index.names) (hfile : v.file (base ++ key) = some o)
    (hlisted : listed <+: key) (hcommon : IsCommonPrefix listed delimiter key common) :
    InListing v index base listed delimiter (.common common)

theorem not_prefix_of_stringsIndex_none {sep s : Bytes} (h : stringsIndex sep s = none) (front : Bytes) :
    ¬ front ++ sep <+: s := by
  induction s generalizing front with
  | nil =>
    intro hpre
    obtain ⟨-, rfl⟩ := List.append_eq_nil_iff.mp (List.prefix_nil.mp hpre)
    cases h
  | cons b s ih =>
    unfold stringsIndex at h
    split at h
    · cases h
    · next hnot =>
      cases front with
      | nil => exact fun hpre => hnot (List.isPrefixOf_iff_prefix.mpr hpre)
      | cons c front =>
        intro hpre
        exact ih (Option.map_eq_none_iff.mp h) front (List.cons_prefix_cons.mp hpre).2

theorem stringsIndex_le {sep s : Bytes} {pos : Nat} (h : stringsIndex sep s = some pos) {front : Bytes}
    (hpre : front ++ sep <+: s) : pos ≤ front.length := by
  induction s generalizing front pos with
  | nil =>
    unfold stringsIndex at h
    split at h
    · obtain rfl := Option.some.inj h
      exact Nat.zero_le _
    · cases h
  | cons b s ih =>
    unfold stringsIndex at h
    split at h
    · obtain rfl := Option.some.inj h
      exact Nat.zero_le _
    · next hnot =>
      obtain ⟨n, hn, rfl⟩ := Option.map_eq_some_iff.mp h
      cases front with
      | nil => exact absurd (List.isPrefixOf_iff_prefix.mpr hpre) hnot
      | cons c front => exact Nat.succ_le_succ (ih hn (List.cons_prefix_cons.mp hpre).2)

section
variable {listed delimiter key key' common : Bytes}

theorem isCommonPrefix_of_commonPrefix (hlisted : listed <+: key) (h : commonPrefix listed delimiter key = some common) :
    IsCommonPrefix listed delimiter key common := by
  obtain ⟨hdelim, tail, pos, rfl, hpos, hle, hform, -⟩ := commonPrefix_form hlisted h
  refine ⟨hdelim, (commonPrefix_idem hlisted h).2.2.2, ⟨_, hform⟩, fun front hfront => ?_⟩
  have hfirst := stringsIndex_le hpos ((List.prefix_append_right_inj listed).mp hfront)
  rw [hform, List.length_append, List.length_append, List.length_append, List.length_append, List.length_take_of_le hle]
  omega

theorem commonPrefix_eq_none (hlisted : listed <+: key) (h : commonPrefix listed delimiter key = none) (hdelim : delimiter ≠ [])
    (front : Bytes) : ¬ listed ++ (front ++ delimiter) <+: key := by
  obtain ⟨tail, rfl⟩ := hlisted
  rw [commonPrefix, if_neg hdelim, List.drop_left, Option.map_eq_none_iff] at h
  intro hpre
  exact not_prefix_of_stringsIndex_none h front ((List.prefix_append_right_inj listed).mp hpre)

theorem IsCommonPrefix.unique {common' : Bytes} (h : IsCommonPrefix listed delimiter key common)
    (h' : IsCommonPrefix listed delimiter key common') : common = common' := by
  obtain ⟨-, hpre, ⟨front, hfront⟩, hmin⟩ := h
  obtain ⟨-, hpre', ⟨front', hfront'⟩, hmin'⟩ := h'
  have hle : common.length ≤ common'.length := hfront' ▸ hmin front' (hfront' ▸ hpre')
  have hge : common'.length ≤ common.length := hfront ▸ hmin' front (hfront ▸ hpre)
  exact (List.prefix_of_prefix_length_le hpre hpre' hle).eq_of_length_le hge

theorem commonPrefix_eq_some_iff (hlisted : listed <+: key) :
    commonPrefix listed delimiter key = some common ↔ IsCommonPrefix listed delimiter key common := by
  refine ⟨isCommonPrefix_of_commonPrefix hlisted, fun h => ?_⟩
  cases hcommon : commonPrefix listed delimiter key with
  | none =>
    obtain ⟨hdelim, hpre, ⟨front, rfl⟩, -⟩ := h
    exact absurd hpre (commonPrefix_eq_none hlisted hcommon hdelim front)
  | some common' => rw [(isCommonPrefix_of_commonPrefix hlisted hcommon).unique h]

theorem IsCommonPrefix.extend (h : IsCommonPrefix listed delimiter key common) (hpre : common <+: key') :
    IsCommonPrefix listed delimiter key' common := by
  obtain ⟨hdelim, hkey, hform, hmin⟩ := h
  refine ⟨hdelim, hpre, hform, fun front hfront => ?_⟩
  by_contra hlt
  have hwithin : listed ++ (front ++ delimiter) <+: common :=
    List.prefix_of_prefix_length_le hfront hpre (by omega)
  exact hlt (hmin front (hwithin.trans hkey))

end

theorem toNat_maxRune : maxRune.toNat = 0x10ffff := by decide

theorem lt_nextRune_iff {c d : Char} (h : c ≠ maxRune) : d < nextRune c ↔ ¬ c < d := by
  have hvalid : ∀ e : Char, e.toNat < 0xd800 ∨ 0xdfff < e.toNat ∧ e.toNat < 0x110000 := fun e => e.valid
  have hc := hvalid c
  have hd := hvalid d
  have hmax : c.toNat ≠ 0x10ffff := fun heq => h (by rw [← Char.ofNat_toNat c, heq]; rfl)
  have hnext : (nextRune c).toNat = if c.toNat + 1 = 0xd800 then 0xe000 else c.toNat + 1 := by
    unfold nextRune
    split
    · rfl
    · next hne =>
      have hnew : (c.toNat + 1).isValidChar := by
        unfold Nat.isValidChar
        omega
      rw [Char.ofNat, dif_pos hnew]
      rfl
  change d.toNat < (nextRune c).toNat ↔ ¬ c.toNat < d.toNat
  rw [hnext]
  split
  · omega
  · omega

theorem bumpRunes_concat (l : List Char) (c : Char) :
    bumpRunes (l ++ [c]) = if ∀ x ∈ l, x = maxRune then bumpRunes [c] else bumpRunes l ++ [c] := by
  induction l with
  | nil => rw [if_pos fun x hx => absurd hx List.not_mem_nil, List.nil_append]
  | cons x l ih =>
    rw [List.cons_append, bumpRunes]
    by_cases hx : x = maxRune
    · rw [if_pos hx, ih]
      refine if_congr ?_ rfl ?_
      · rw [List.forall_mem_cons, and_iff_right hx]
      · rw [bumpRunes, if_pos hx]
    · rw [if_neg hx, if_neg fun h => hx (h x List.mem_cons_self), bumpRunes, if_neg hx, List.cons_append]

theorem prefix_iff_of_all_max {p s : List Char} (h : ∀ c ∈ p, c = maxRune) : p <+: s ↔ ¬ s < p := by
  induction p generalizing s with
  | nil => exact ⟨fun _ => List.not_lt_nil s, fun _ => List.nil_prefix⟩
  | cons c p ih =>
    obtain ⟨hc, hp⟩ := List.forall_mem_cons.mp h
    cases s with
    | nil => simp
    | cons d s =>
      have hle : ¬ c < d := by
        have hd := Utf8.toNat_lt d
        change ¬ c.toNat < d.toNat
        rw [hc, toNat_maxRune]
        omega
      rw [List.cons_prefix_cons, List.cons_lt_cons_iff, ih hp, not_or, not_and]
      constructor
      · rintro ⟨rfl, hs⟩
        exact ⟨hle, fun _ => hs⟩
      · rintro ⟨hlt, hs⟩
        have heq : d = c := by
          rcases Std.lt_trichotomy c d with hcd | hcd | hcd
          · exact absurd hcd hle
          · exact hcd.symm
          · exact absurd hcd hlt
        exact ⟨heq.symm, hs heq⟩

theorem prefix_iff_between {p s : List Char} (h : ∃ c ∈ p, c ≠ maxRune) :
    p <+: s ↔ ¬ s < p ∧ s < (bumpRunes p.reverse).reverse := by
  induction p generalizing s with
  | nil => exact absurd h (by simp)
  | cons c p ih =>
    rw [List.reverse_cons, bumpRunes_concat]
    cases s with
    | nil => simp
    | cons d s =>
      have htri := Std.lt_trichotomy d c
      rw [List.cons_prefix_cons, List.cons_lt_cons_iff, not_or, not_and]
      by_cases hall : ∀ x ∈ p, x = maxRune
      · have hc : c ≠ maxRune := by
          obtain ⟨x, hx, hne⟩ := h
          rcases List.mem_cons.mp hx with rfl | hx
          · exact hne
          · exact absurd (hall x hx) hne
        rw [if_pos fun x hx => hall x (List.mem_reverse.mp hx), bumpRunes, if_neg hc, List.reverse_singleton,
          List.cons_lt_cons_iff, lt_nextRune_iff hc, prefix_iff_of_all_max hall]
        constructor
        · rintro ⟨rfl, hs⟩
          exact ⟨⟨Std.lt_irrefl, fun _ => hs⟩, Or.inl Std.lt_irrefl⟩
        · rintro ⟨⟨hlt, hs⟩, hle | ⟨-, hnil⟩⟩
          · rcases htri with hdc | hdc | hdc
            · exact absurd hdc hlt
            · exact ⟨hdc.symm, hs hdc⟩
            · exact absurd hdc hle
          · exact absurd hnil (List.not_lt_nil s)
      · have hsome : ∃ x ∈ p, x ≠ maxRune := by
          by_contra hnone
          exact hall fun x hx => by_contra fun hne => hnone ⟨x, hx, hne⟩
        rw [if_neg fun hrev => hall fun x hx => hrev x (List.mem_reverse.mpr hx), List.reverse_append, List.reverse_singleton,
          List.singleton_append, List.cons_lt_cons_iff, ih hsome]
        constructor
        · rintro ⟨rfl, hs, hend⟩
          exact ⟨⟨Std.lt_irrefl, fun _ => hs⟩, Or.inr ⟨rfl, hend⟩⟩
        · rintro ⟨⟨hlt, hs⟩, hdc | ⟨hdc, hend⟩⟩
          · exact absurd hdc hlt
          · exact ⟨hdc.symm, hs hdc, hend⟩

theorem validString_iff {s : Bytes} : validString s = true ↔ ∃ cs, s = encode cs := by
  rw [validString, decide_eq_true_iff]
  constructor
  · exact fun h => ⟨decode s, h.symm⟩
  · rintro ⟨cs, rfl⟩
    rw [Utf8.decode_encode]

theorem validString_append {s t : Bytes} (hs : validString s = true) (ht : validString t = true) :
    validString (s ++ t) = true := by
  obtain ⟨cs, rfl⟩ := validString_iff.mp hs
  obtain ⟨ct, rfl⟩ := validString_iff.mp ht
  exact validString_iff.mpr ⟨cs ++ ct, (Utf8.encode_append cs ct).symm⟩

theorem validString_of_append {s t : Bytes} (hs : validString s = true) (h : validString (s ++ t) = true) :
    validString t = true := by
  obtain ⟨cs, rfl⟩ := validString_iff.mp hs
  obtain ⟨ca, ha⟩ := validString_iff.mp h
  obtain ⟨rest, rfl⟩ := Utf8.encode_prefix_iff.mp ⟨t, ha⟩
  rw [Utf8.encode_append] at ha
  exact validString_iff.mpr ⟨rest, List.append_cancel_left ha⟩

theorem validString_front {s front delimiter rest : Bytes} (hs : validString s = true) (hdelim : validString delimiter = true)
    (hne : delimiter ≠ []) (h : s = front ++ (delimiter ++ rest)) : validString front = true := by
  obtain ⟨cs, rfl⟩ := validString_iff.mp hs
  obtain ⟨cd, rfl⟩ := validString_iff.mp hdelim
  have hcd : cd ≠ [] := by
    rintro rfl
    exact hne Utf8.encode_nil
  exact validString_iff.mpr (Utf8.exists_encode_front hcd h)

theorem prefix_iff_prefixEnd {bucket p n : Bytes} (hp : validString (bucket ++ [47] ++ p) = true) (hbucket : validString bucket = true)
    (hn : validString n = true) :
    bucket ++ [47] ++ p <+: n ↔ ¬ n < bucket ++ [47] ++ p ∧ n < prefixEnd (bucket ++ [47] ++ p) := by
  obtain ⟨cb, rfl⟩ := validString_iff.mp hbucket
  obtain ⟨cp, hcp⟩ := validString_iff.mp hp
  obtain ⟨cn, rfl⟩ := validString_iff.mp hn
  have hslash : ([47] : Bytes) = encode ['/'] := by decide
  have hfront : cb ++ ['/'] <+: cp := by
    rw [← Utf8.encode_prefix_iff, Utf8.encode_append, ← hslash, ← hcp]
    exact List.prefix_append _ _
  have hsome : ∃ c ∈ cp, c ≠ maxRune := by
    refine ⟨'/', hfront.subset (List.mem_append_right cb (List.mem_singleton_self _)), by decide⟩
  rw [hcp, prefixEnd, Utf8.decode_encode, Utf8.encode_prefix_iff, Utf8.encode_lt_iff, Utf8.encode_lt_iff]
  exact prefix_iff_between hsome

open scoped ByteOrder
open Selection

theorem prefix_of_between {p a b : Bytes} (hb : p <+: b) (hpa : p ≤ a) (hab : a < b) : p <+: a := by
  induction p generalizing a b with
  | nil => exact List.nil_prefix
  | cons c p ih =>
    obtain ⟨t, rfl⟩ := hb
    cases a with
    | nil => exact absurd (List.nil_lt_cons c p) (not_lt.mpr hpa)
    | cons d a =>
      rw [← not_lt, List.cons_lt_cons_iff, not_or, not_and] at hpa
      rw [List.cons_append, List.cons_lt_cons_iff] at hab
      rcases hab with hlt | ⟨rfl, hab⟩
      · exact absurd hlt hpa.1
      · exact List.cons_prefix_cons.mpr ⟨rfl, ih (List.prefix_append p t) (not_lt.mp (hpa.2 rfl)) hab⟩

theorem le_of_begins {p n : Bytes} (h : p <+: n) : p ≤ n := by
  obtain ⟨t, rfl⟩ := h
  rw [← not_lt]
  induction p with
  | nil => exact List.not_lt_nil _
  | cons c p ih =>
    rw [List.cons_append, List.cons_lt_cons_iff, not_or, not_and]
    exact ⟨lt_irrefl c, fun _ => ih⟩

theorem append_lt_append_iff {base a b : Bytes} : base ++ a < base ++ b ↔ a < b := by
  induction base with
  | nil => exact Iff.rfl
  | cons c base ih => rw [List.cons_append, List.cons_append, List.cons_lt_cons_iff, ih]; simp

theorem trimBase_append (base key : Bytes) : trimBase base (base ++ key) = key := by
  rw [trimBase, if_pos (List.isPrefixOf_iff_prefix.mpr (List.prefix_append base key)), List.drop_left]

def catalogItem (v : CatalogView) (base listed delimiter name : Bytes) : Option ListingItem :=
  (v.file name).map (listingItem v.formatTime listed delimiter (trimBase base name))

def listedAbove (v : CatalogView) (base listed delimiter after : Bytes) (names : List Bytes) : List ListingItem :=
  Paging.rest ListingItem.key (collect ListingItem.key (names.filterMap (catalogItem v base listed delimiter))) after

variable {i : ObjectInfo}

section
variable {v : CatalogView} {index : LiveIndex} {base listed delimiter after : Bytes}

inductive RowItem (v : CatalogView) (listed delimiter : Bytes) (name key : Bytes) : ListingItem → Prop
  | object {o : FileObj} (hfile : v.file name = some o) (hnone : commonPrefix listed delimiter key = none) :
    RowItem v listed delimiter name key (.object (objectInfo v.formatTime key o))
  | common {o : FileObj} {common : Bytes} (hfile : v.file name = some o) (hcommon : IsCommonPrefix listed delimiter key common) :
    RowItem v listed delimiter name key (.common common)

variable {item : ListingItem}

theorem catalogItem_eq_some_iff {key : Bytes} (hlisted : listed <+: key) :
    catalogItem v base listed delimiter (base ++ key) = some item ↔ RowItem v listed delimiter (base ++ key) key item := by
  rw [catalogItem, Option.map_eq_some_iff, trimBase_append]
  constructor
  · rintro ⟨o, hfile, rfl⟩
    unfold listingItem
    cases hcommon : commonPrefix listed delimiter key with
    | none => exact .object hfile hcommon
    | some common => exact .common hfile ((commonPrefix_eq_some_iff hlisted).mp hcommon)
  · rintro (⟨hfile, hnone⟩ | ⟨hfile, hcommon⟩)
    · exact ⟨_, hfile, by rw [listingItem, hnone]⟩
    · exact ⟨_, hfile, by rw [listingItem, (commonPrefix_eq_some_iff hlisted).mpr hcommon]⟩

theorem exists_key {name : Bytes} (h : base ++ listed <+: name) : ∃ key, name = base ++ key ∧ listed <+: key := by
  obtain ⟨t, rfl⟩ := h
  exact ⟨listed ++ t, List.append_assoc base listed t, List.prefix_append listed t⟩

theorem RowItem.key_le {name key : Bytes} (h : RowItem v listed delimiter name key item) :
    item.key <+: key := by
  cases h with
  | object hfile hnone => exact List.prefix_rfl
  | common hfile hcommon => exact hcommon.2.1

theorem RowItem.eq_of_key {key key' : Bytes} {a b : ListingItem}
    (hlisted : listed <+: key) (hlisted' : listed <+: key') (ha : RowItem v listed delimiter (base ++ key) key a)
    (hb : RowItem v listed delimiter (base ++ key') key' b) (hkey : a.key = b.key) : a = b := by
  have hapart : ∀ {k k' c : Bytes}, listed <+: k → commonPrefix listed delimiter k = none →
      IsCommonPrefix listed delimiter k' c → k ≠ c := by
    rintro k k' c hk hnone hcommon rfl
    have hsome := (commonPrefix_eq_some_iff hk).mpr (hcommon.extend List.prefix_rfl)
    rw [hnone] at hsome
    cases hsome
  cases ha with
  | object hfile hnone =>
    cases hb with
    | object hfile' hnone' =>
      obtain rfl : key = key' := hkey
      rw [hfile] at hfile'
      rw [Option.some.inj hfile']
    | common hfile' hcommon => exact absurd hkey (hapart hlisted hnone hcommon)
  | common hfile hcommon =>
    cases hb with
    | object hfile' hnone => exact absurd hkey.symm (hapart hlisted' hnone hcommon)
    | common hfile' hcommon' => exact congrArg ListingItem.common hkey

structure Rows (base listed : Bytes) (names : List Bytes) : Prop where
  ascending : names.Pairwise (· < ·)
  within : ∀ n ∈ names, base ++ listed <+: n

variable {names : List Bytes}

theorem Rows.eq_of_key (h : Rows base listed names) :
    ∀ a ∈ names.filterMap (catalogItem v base listed delimiter), ∀ b ∈ names.filterMap (catalogItem v base listed delimiter),
      a.key = b.key → a = b := by
  intro a ha b hb hkey
  obtain ⟨n, hn, ha⟩ := List.mem_filterMap.mp ha
  obtain ⟨m, hm, hb⟩ := List.mem_filterMap.mp hb
  obtain ⟨k, rfl, hk⟩ := exists_key (h.within n hn)
  obtain ⟨k', rfl, hk'⟩ := exists_key (h.within m hm)
  exact ((catalogItem_eq_some_iff hk).mp ha).eq_of_key hk hk' ((catalogItem_eq_some_iff hk').mp hb) hkey

theorem Rows.mem_listedAbove (h : Rows base listed names) :
    item ∈ listedAbove v base listed delimiter after names ↔
      (∃ n ∈ names, catalogItem v base listed delimiter n = some item) ∧ after < item.key := by
  rw [listedAbove, Paging.mem_rest, mem_collect h.eq_of_key, List.mem_filterMap]

theorem ascending_listedAbove (names : List Bytes) :
    Ascending ListingItem.key (listedAbove v base listed delimiter after names) :=
  List.Pairwise.filter _ (ascending_collect _)

theorem RowItem.object_lt {key key' : Bytes} {b : ListingItem} (hlisted : listed <+: key)
    (ha : RowItem v listed delimiter (base ++ key) key (.object i))
    (hb : RowItem v listed delimiter (base ++ key') key' b) (hlt : key < key') : i.key < b.key := by
  cases ha with
  | object hfile hnone =>
    cases hb with
    | object hfile' hnone' => exact hlt
    | common hfile' hcommon =>
      next common =>
      by_contra hle
      have hpre := prefix_of_between hcommon.2.1 (not_lt.mp hle) hlt
      have hsome := (commonPrefix_eq_some_iff hlisted).mpr (hcommon.extend hpre)
      rw [hnone] at hsome
      cases hsome

theorem IsCommonPrefix.lt_of_behind {key key' common : Bytes} {b : ListingItem}
    (ha : IsCommonPrefix listed delimiter key common) (hb : RowItem v listed delimiter (base ++ key') key' b)
    (hlt : key < key') (hbehind : ¬ common <+: key') : common < b.key := by
  cases hb with
  | object hfile' hnone' => exact lt_of_le_of_lt (le_of_begins ha.2.1) hlt
  | common hfile' hcommon =>
    next common' =>
    by_contra hle
    have hle' : common' ≤ common := not_lt.mp hle
    rcases eq_or_lt_of_le hle' with rfl | hlt'
    · exact hbehind hcommon.2.1
    · have hbelow : common < key' := lt_of_le_of_lt (le_of_begins ha.2.1) hlt
      have hpre : common' <+: common := prefix_of_between hcommon.2.1 hle' hbelow
      have hsame := ha.unique (hcommon.extend (hpre.trans ha.2.1))
      exact absurd hlt' (hsame ▸ lt_irrefl _)

theorem Rows.tail {n : Bytes} (h : Rows base listed (n :: names)) : Rows base listed names :=
  ⟨(List.pairwise_cons.mp h.ascending).2, fun m hm => h.within m (List.mem_cons_of_mem n hm)⟩

theorem Rows.filter (h : Rows base listed names) (p : Bytes → Bool) : Rows base listed (names.filter p) :=
  ⟨h.ascending.filter p, fun m hm => h.within m (List.mem_of_mem_filter hm)⟩

theorem listedAbove_skip {n : Bytes} (hitem : catalogItem v base listed delimiter n = none) :
    listedAbove v base listed delimiter after (n :: names) = listedAbove v base listed delimiter after names := by
  rw [listedAbove, List.filterMap_cons_none hitem, ← listedAbove]

theorem Rows.listedAbove_object {n : Bytes} (h : Rows base listed (n :: names))
    (hitem : catalogItem v base listed delimiter n = some (.object i)) (hafter : after < i.key) :
    listedAbove v base listed delimiter after (n :: names) = .object i :: listedAbove v base listed delimiter after names := by
  obtain ⟨k, rfl, hk⟩ := exists_key (h.within n List.mem_cons_self)
  refine (ascending_listedAbove _).eq_of_mem_iff (List.pairwise_cons.mpr ⟨fun b hb => ?_, ascending_listedAbove _⟩) fun item => ?_
  · obtain ⟨⟨m, hm, hbitem⟩, -⟩ := h.tail.mem_listedAbove.mp hb
    obtain ⟨k', rfl, hk'⟩ := exists_key (h.tail.within m hm)
    exact ((catalogItem_eq_some_iff hk).mp hitem).object_lt hk ((catalogItem_eq_some_iff hk').mp hbitem)
      (append_lt_append_iff.mp ((List.pairwise_cons.mp h.ascending).1 _ hm))
  · rw [h.mem_listedAbove, List.mem_cons, h.tail.mem_listedAbove]
    constructor
    · rintro ⟨⟨m, hm, hm'⟩, hlt⟩
      rcases List.mem_cons.mp hm with rfl | hm
      · exact Or.inl (Option.some.inj (hm'.symm.trans hitem))
      · exact Or.inr ⟨⟨m, hm, hm'⟩, hlt⟩
    · rintro (rfl | ⟨⟨m, hm, hm'⟩, hlt⟩)
      · exact ⟨⟨_, List.mem_cons_self, hitem⟩, hafter⟩
      · exact ⟨⟨m, List.mem_cons_of_mem _ hm, hm'⟩, hlt⟩

theorem Rows.listedAbove_common {n common : Bytes} (h : Rows base listed (n :: names))
    (hitem : catalogItem v base listed delimiter n = some (.common common)) :
    listedAbove v base listed delimiter after (n :: names) = (if after < common then [.common common] else []) ++
        listedAbove v base listed delimiter after (names.filter fun m => !(base ++ common).isPrefixOf m) := by
  obtain ⟨k, rfl, hk⟩ := exists_key (h.within n List.mem_cons_self)
  obtain ⟨hfile, hcommon⟩ : (∃ o, v.file (base ++ k) = some o) ∧ IsCommonPrefix listed delimiter k common := by
    cases (catalogItem_eq_some_iff hk).mp hitem with
    | common hfile hcommon => exact ⟨⟨_, hfile⟩, hcommon⟩
  have hbehind : ∀ {m : Bytes}, m ∈ names.filter (fun m => !(base ++ common).isPrefixOf m) ↔ m ∈ names ∧ ¬ base ++ common <+: m := by
    intro m
    rw [List.mem_filter, ← List.isPrefixOf_iff_prefix, Bool.not_eq_true', Bool.not_eq_true]
  have hmem : ∀ {item}, item ∈ (if after < common then [ListingItem.common common] else []) ↔
      item = .common common ∧ after < item.key := by
    intro item
    split
    · next hlt =>
      rw [List.mem_singleton]
      exact ⟨fun heq => ⟨heq, heq ▸ hlt⟩, fun hx => hx.1⟩
    · next hle =>
      refine ⟨fun hx => absurd hx List.not_mem_nil, ?_⟩
      rintro ⟨rfl, hlt⟩
      exact absurd hlt hle
  refine (ascending_listedAbove _).eq_of_mem_iff (List.pairwise_append.mpr ⟨?_, ascending_listedAbove _, fun a ha b hb => ?_⟩)
    fun item => ?_
  · split
    · exact List.pairwise_singleton _ _
    · exact List.Pairwise.nil
  · obtain ⟨⟨m, hm, hbitem⟩, -⟩ := (h.tail.filter _).mem_listedAbove.mp hb
    obtain ⟨hmem', hnot⟩ := hbehind.mp hm
    obtain ⟨k', rfl, hk'⟩ := exists_key (h.tail.within m hmem')
    rw [(hmem.mp ha).1]
    exact hcommon.lt_of_behind ((catalogItem_eq_some_iff hk').mp hbitem)
      (append_lt_append_iff.mp ((List.pairwise_cons.mp h.ascending).1 _ hmem'))
      fun hpre => hnot ((List.prefix_append_right_inj base).mpr hpre)
  · rw [h.mem_listedAbove, List.mem_append, hmem, (h.tail.filter _).mem_listedAbove]
    constructor
    · rintro ⟨⟨m, hm, hmitem⟩, hlt⟩
      rcases List.mem_cons.mp hm with rfl | hm
      · exact Or.inl ⟨Option.some.inj (hmitem.symm.trans hitem), hlt⟩
      · by_cases hgroup : base ++ common <+: m
        · -- a row of the group gives the common prefix again
          obtain ⟨k', rfl, hk'⟩ := exists_key (h.tail.within m hm)
          have hsame : IsCommonPrefix listed delimiter k' common := hcommon.extend ((List.prefix_append_right_inj base).mp hgroup)
          refine Or.inl ⟨?_, hlt⟩
          cases (catalogItem_eq_some_iff hk').mp hmitem with
          | object hfile' hnone =>
            rw [(commonPrefix_eq_some_iff hk').mpr hsame] at hnone
            cases hnone
          | common hfile' hcommon' => rw [hcommon'.unique hsame]
        · exact Or.inr ⟨⟨m, hbehind.mpr ⟨hm, hgroup⟩, hmitem⟩, hlt⟩
    · rintro (⟨rfl, hlt⟩ | ⟨⟨m, hm, hmitem⟩, hlt⟩)
      · exact ⟨⟨_, List.mem_cons_self, hitem⟩, hlt⟩
      · exact ⟨⟨m, List.mem_cons_of_mem _ (hbehind.mp hm).1, hmitem⟩, hlt⟩

variable {bucket upper : Bytes} {maxKeys : Nat}

def remaining (index : LiveIndex) (upper start cursor : Bytes) : List Bytes :=
  index.names.filter (inLiveRange start upper cursor)

theorem mem_remaining {start cursor n : Bytes} : n ∈ remaining index upper start cursor ↔
    n ∈ index.names ∧ start ≤ n ∧ (start ≤ cursor → cursor < n) ∧ n < upper := by
  rw [remaining, List.mem_filter, inLiveRange, Bool.and_eq_true, decide_eq_true_iff]
  refine and_congr_right fun _ => ?_
  rw [← and_assoc]
  refine and_congr_left fun _ => ?_
  by_cases hcursor : cursor < start
  · rw [if_neg (not_not.mpr hcursor), decide_eq_true_iff, not_lt]
    exact ⟨fun h => ⟨h, fun hle => absurd hcursor (not_lt.mpr hle)⟩, fun h => h.1⟩
  · rw [if_pos hcursor, decide_eq_true_iff]
    exact ⟨fun h => ⟨le_of_lt (lt_of_le_of_lt (not_lt.mp hcursor) h), fun _ => h⟩, fun h => h.2 (not_lt.mp hcursor)⟩

theorem ascending_remaining (start cursor : Bytes) : (remaining index upper start cursor).Pairwise (· < ·) :=
  index.ascending.filter _

theorem eq_of_ascending_names {l l' : List Bytes} (h : l.Pairwise (· < ·)) (h' : l'.Pairwise (· < ·))
    (hmem : ∀ n, n ∈ l ↔ n ∈ l') : l = l' :=
  Ascending.eq_of_mem_iff (show Ascending (fun n : Bytes => n) l from h) h' hmem

variable {rest : List Bytes}

theorem remaining_next {start cursor n : Bytes} (h : remaining index upper start cursor = n :: rest) :
    remaining index upper start n = rest := by
  have hasc : (n :: rest).Pairwise (· < ·) := h ▸ ascending_remaining start cursor
  obtain ⟨hn, hrest⟩ := List.pairwise_cons.mp hasc
  have hfirst : n ∈ remaining index upper start cursor := h ▸ List.mem_cons_self
  obtain ⟨-, hstart, hcursor, -⟩ := mem_remaining.mp hfirst
  refine eq_of_ascending_names (ascending_remaining _ _) hrest fun m => ?_
  constructor
  · intro hm
    obtain ⟨hname, hge, hlt, hupper⟩ := mem_remaining.mp hm
    have hnm := hlt hstart
    have hall : m ∈ n :: rest := h ▸ mem_remaining.mpr ⟨hname, hge, fun hle => lt_trans (hcursor hle) hnm, hupper⟩
    rcases List.mem_cons.mp hall with rfl | hm
    · exact absurd hnm (lt_irrefl _)
    · exact hm
  · intro hm
    obtain ⟨hname, hge, -, hupper⟩ := mem_remaining.mp (h ▸ List.mem_cons_of_mem n hm : m ∈ remaining index upper start cursor)
    exact mem_remaining.mpr ⟨hname, hge, fun _ => hn m hm, hupper⟩

theorem remaining_jump {start cursor n common : Bytes} (hbucket : validString bucket = true)
    (hvalid : validString (bucket ++ [47] ++ common) = true) (h : remaining index upper start cursor = n :: rest)
    (hgroup : bucket ++ [47] ++ common <+: n) :
    remaining index upper (prefixEnd (bucket ++ [47] ++ common)) n =
      rest.filter fun m => !(bucket ++ [47] ++ common).isPrefixOf m := by
  have hnext := remaining_next h
  have hfirst : n ∈ remaining index upper start cursor := h ▸ List.mem_cons_self
  obtain ⟨hname, hstart, -, -⟩ := mem_remaining.mp hfirst
  have hinterval : ∀ m ∈ index.names, (bucket ++ [47] ++ common <+: m ↔
      bucket ++ [47] ++ common ≤ m ∧ m < prefixEnd (bucket ++ [47] ++ common)) := by
    intro m hm
    rw [prefix_iff_prefixEnd hvalid hbucket (index.valid m hm), not_lt]
  obtain ⟨hlow, hhigh⟩ := (hinterval n hname).mp hgroup
  refine eq_of_ascending_names (ascending_remaining _ _) ((hnext ▸ ascending_remaining start n).filter _) fun m => ?_
  rw [List.mem_filter, ← hnext, Bool.not_eq_true', ← Bool.not_eq_true, List.isPrefixOf_iff_prefix]
  constructor
  · intro hm
    obtain ⟨hmname, hge, -, hupper⟩ := mem_remaining.mp hm
    have hnm : n < m := lt_of_lt_of_le hhigh hge
    refine ⟨mem_remaining.mpr ⟨hmname, le_of_lt (lt_of_le_of_lt hstart hnm), fun _ => hnm, hupper⟩, fun hpre => ?_⟩
    exact absurd ((hinterval m hmname).mp hpre).2 (not_lt.mpr hge)
  · rintro ⟨hm, hnot⟩
    obtain ⟨hmname, -, hnm, hupper⟩ := mem_remaining.mp hm
    refine mem_remaining.mpr ⟨hmname, ?_, fun hle => absurd hhigh (not_lt.mpr hle), hupper⟩
    by_contra hlt
    exact hnot ((hinterval m hmname).mpr ⟨le_trans hlow (le_of_lt (hnm hstart)), not_le.mp hlt⟩)

structure Scan.Holds (v : CatalogView) (index : LiveIndex) (base listed delimiter after upper : Bytes)
    (whole : List ListingItem) (s : Scan) (found : List ListingItem) : Prop where
  objects : s.objects = found.filterMap ListingItem.object?
  prefixes : s.prefixes = found.filterMap ListingItem.common?
  whole : found ++ listedAbove v base listed delimiter after (remaining index upper s.start s.cursor) = whole
  rows : Rows base listed (remaining index upper s.start s.cursor)
  above : ∀ n ∈ remaining index upper s.start s.cursor, base ++ after < n

variable {whole found : List ListingItem} {s : Scan}

theorem Scan.Holds.count (h : s.Holds v index base listed delimiter after upper whole found) :
    s.objects.length + s.prefixes.length = found.length := by
  have hlen := (perm_of_objects_commons found).length_eq
  rw [List.length_append, List.length_map, List.length_map] at hlen
  rw [h.objects, h.prefixes, hlen]

theorem validString_common {key common : Bytes} (hdelim : validString delimiter = true) (hkey : validString key = true)
    (h : IsCommonPrefix listed delimiter key common) : validString common = true := by
  obtain ⟨hne, ⟨rest, hrest⟩, ⟨front, hfront⟩, -⟩ := h
  have hsplit : key = (listed ++ front) ++ (delimiter ++ rest) := by
    rw [← hrest, hfront, List.append_assoc, List.append_assoc, List.append_assoc]
  rw [hfront, ← List.append_assoc]
  exact validString_append (validString_front hkey hdelim hne hsplit) hdelim

section
variable {n : Bytes} (h : s.Holds v index base listed delimiter after upper whole found)
  (hrem : remaining index upper s.start s.cursor = n :: rest)
include h hrem

theorem Scan.Holds.skip (hfile : v.file n = none) :
    { s with cursor := n }.Holds v index base listed delimiter after upper whole found := by
  have hrows := h.rows
  have habove := h.above
  have hwhole := h.whole
  have hitem : catalogItem v base listed delimiter n = none := by rw [catalogItem, hfile, Option.map_none]
  rw [hrem] at hrows habove
  rw [hrem, listedAbove_skip hitem] at hwhole
  refine ⟨h.objects, h.prefixes, ?_, ?_, ?_⟩
  all_goals rw [remaining_next hrem]
  · exact hwhole
  · exact hrows.tail
  · exact fun m hm => habove m (List.mem_cons_of_mem n hm)

theorem Scan.Holds.object (hitem : catalogItem v base listed delimiter n = some (.object i))
    (hafter : after < i.key) :
    { s with cursor := n, objects := s.objects ++ [i] }.Holds v index base listed delimiter after upper whole
      (found ++ [ListingItem.object i]) := by
  have hrows := h.rows
  have habove := h.above
  have hwhole := h.whole
  rw [hrem] at hrows habove
  rw [hrem, hrows.listedAbove_object hitem hafter] at hwhole
  refine ⟨?_, ?_, ?_, ?_, ?_⟩
  · rw [List.filterMap_append, ← h.objects]
    rfl
  · rw [List.filterMap_append, ← h.prefixes]
    exact (List.append_nil _).symm
  all_goals rw [remaining_next hrem]
  · rw [List.append_assoc, List.singleton_append, hwhole]
  · exact hrows.tail
  · exact fun m hm => habove m (List.mem_cons_of_mem n hm)

end

theorem Scan.Holds.common {n common : Bytes} (hbucket : validString bucket = true)
    (h : s.Holds v index (bucket ++ [47]) listed delimiter after upper whole found)
    (hrem : remaining index upper s.start s.cursor = n :: rest)
    (hvalid : validString (bucket ++ [47] ++ common) = true) (hgroup : bucket ++ [47] ++ common <+: n)
    (hitem : catalogItem v (bucket ++ [47]) listed delimiter n = some (.common common)) :
    { s with
      cursor := n
      prefixes := if after < common then s.prefixes ++ [common] else s.prefixes
      start := prefixEnd (bucket ++ [47] ++ common) }.Holds v index (bucket ++ [47]) listed delimiter after upper whole
      (found ++ if after < common then [ListingItem.common common] else []) := by
  have hrows := h.rows
  have habove := h.above
  have hwhole := h.whole
  rw [hrem] at hrows habove
  rw [hrem, hrows.listedAbove_common hitem] at hwhole
  refine ⟨?_, ?_, ?_, ?_, ?_⟩
  · rw [List.filterMap_append, ← h.objects]
    split
    · exact (List.append_nil _).symm
    · exact (List.append_nil _).symm
  · rw [List.filterMap_append, ← h.prefixes]
    dsimp only
    split
    · rfl
    · exact (List.append_nil _).symm
  all_goals
    dsimp only
    rw [remaining_jump hbucket hvalid hrem hgroup]
  · rw [List.append_assoc, hwhole]
  · exact hrows.tail.filter _
  · exact fun m hm => habove m (List.mem_cons_of_mem n (List.mem_of_mem_filter hm))

theorem scanRows_holds (hbucket : validString bucket = true) (hdelim : validString delimiter = true) (rows : List Bytes)
    {tail : List Bytes} (h : s.Holds v index (bucket ++ [47]) listed delimiter after upper whole found)
    (hrem : remaining index upper s.start s.cursor = rows ++ tail) (hcount : found.length ≤ maxKeys) :
    ∃ s' found', scanRows v (bucket ++ [47]) listed delimiter after maxKeys rows s = s' ∧
      s'.Holds v index (bucket ++ [47]) listed delimiter after upper whole found' ∧ found'.length ≤ maxKeys + 1 ∧
      (remaining index upper s'.start s'.cursor).length ≤ (rows.tail ++ tail).length := by
  induction rows generalizing s found with
  | nil => exact ⟨s, found, rfl, h, by omega, by rw [hrem]; exact Nat.le_refl _⟩
  | cons n rows ih =>
    have hn : n ∈ remaining index upper s.start s.cursor := hrem ▸ List.mem_cons_self
    have hshort : ∀ l : List Bytes, l.length ≤ (rows.tail ++ tail).length → l.length ≤ ((n :: rows).tail ++ tail).length := by
      intro l hl
      rw [List.length_append, List.length_tail] at hl
      rw [List.tail_cons, List.length_append]
      omega
    obtain ⟨key, rfl, hkey⟩ := exists_key (h.rows.within n hn)
    have hafter : after < key := append_lt_append_iff.mp (h.above _ hn)
    unfold scanRows
    dsimp only
    rw [trimBase_append]
    cases hfile : v.file (bucket ++ [47] ++ key) with
    | none =>
      obtain ⟨s', found', hs, hholds, hlen, hrest⟩ := ih (h.skip hrem hfile) (remaining_next hrem) hcount
      exact ⟨s', found', hs, hholds, hlen, hshort _ hrest⟩
    | some o =>
      cases hcommon : commonPrefix listed delimiter key with
      | some common =>
        have hgroup := isCommonPrefix_of_commonPrefix hkey hcommon
        have hname : validString (bucket ++ [47] ++ key) = true := index.valid _ (mem_remaining.mp hn).1
        have hbase : validString (bucket ++ [47]) = true := validString_append hbucket (by decide)
        have hvalid := validString_append hbase (validString_common hdelim (validString_of_append hbase hname) hgroup)
        have hin : bucket ++ [47] ++ common <+: bucket ++ [47] ++ key := (List.prefix_append_right_inj _).mpr hgroup.2.1
        have hitem := (catalogItem_eq_some_iff hkey).mpr (.common hfile hgroup)
        refine ⟨_, _, rfl, h.common hbucket hrem hvalid hin hitem, ?_, ?_⟩
        · rw [List.length_append]
          split
          · exact Nat.succ_le_succ hcount
          · exact Nat.le_succ_of_le hcount
        · dsimp only
          rw [remaining_jump hbucket hvalid hrem hin]
          exact List.length_filter_le _ _
      | none =>
        have hitem := (catalogItem_eq_some_iff hkey).mpr (.object hfile hcommon)
        have hholds := h.object hrem hitem hafter
        have hnow := hholds.count
        dsimp only at hnow ⊢
        rw [hnow, List.length_append, List.length_singleton]
        split
        · refine ⟨_, _, rfl, hholds, ?_, ?_⟩
          · rw [List.length_append]
            exact Nat.succ_le_succ hcount
          · dsimp only
            rw [remaining_next hrem]
            exact Nat.le_refl _
        · obtain ⟨s', found', hs, hholds', hlen, hrest⟩ := ih hholds (remaining_next hrem)
            (by rw [List.length_append, List.length_singleton]; omega)
          exact ⟨s', found', hs, hholds', hlen, hshort _ hrest⟩

/-- The loop ends with the first `maxKeys + 1` items, or with all. -/
theorem scanRanges_ok (hbucket : validString bucket = true) (hdelim : validString delimiter = true) {fuel : Nat}
    (h : s.Holds v index (bucket ++ [47]) listed delimiter after upper whole found) (hlen : found.length ≤ maxKeys + 1)
    (hfuel : (remaining index upper s.start s.cursor).length < fuel) :
    ∃ s', scanRanges v index (bucket ++ [47]) listed delimiter after maxKeys upper fuel s = .ok s' ∧
      s'.objects = (whole.take (maxKeys + 1)).filterMap ListingItem.object? ∧
      s'.prefixes = (whole.take (maxKeys + 1)).filterMap ListingItem.common? := by
  induction fuel generalizing s found with
  | zero => exact absurd hfuel (Nat.not_lt_zero _)
  | succ fuel ih =>
    have hdone : (remaining index upper s.start s.cursor = [] ∨ found.length = maxKeys + 1) → whole.take (maxKeys + 1) = found := by
      intro hend
      have hwhole := h.whole
      rcases hend with hend | hend
      · rw [hend, show listedAbove v (bucket ++ [47]) listed delimiter after [] = [] from rfl, List.append_nil] at hwhole
        rw [← hwhole, List.take_of_length_le hlen]
      · rw [← hwhole]
        exact List.take_left' hend
    unfold scanRanges
    rw [h.count]
    by_cases hgo : found.length ≤ maxKeys ∧ s.start < upper
    · rw [if_pos (by simpa using hgo)]
      have hrange : listLiveRange index s.start upper s.cursor 128 =
          .ok ((remaining index upper s.start s.cursor).take 128) := rfl
      rw [hrange]
      rcases hpage : (remaining index upper s.start s.cursor).take 128 with _ | ⟨n, page⟩
      · have hnil : remaining index upper s.start s.cursor = [] := by
          rcases List.take_eq_nil_iff.mp hpage with h0 | hnil
          · cases h0
          · exact hnil
        refine ⟨s, rfl, ?_⟩
        rw [hdone (Or.inl hnil)]
        exact ⟨h.objects, h.prefixes⟩
      · have hsplit : remaining index upper s.start s.cursor = (n :: page) ++ (remaining index upper s.start s.cursor).drop 128 := by
          rw [← hpage, List.take_append_drop]
        obtain ⟨s', found', hs, hholds, hlen', hrest⟩ := scanRows_holds hbucket hdelim (n :: page) h hsplit hgo.1
        dsimp only
        rw [hs]
        refine ih hholds hlen' ?_
        rw [hsplit, List.cons_append, List.length_cons] at hfuel
        rw [List.tail_cons] at hrest
        omega
    · rw [if_neg (by simpa using hgo)]
      refine ⟨s, rfl, ?_⟩
      rw [hdone ?_]
      · exact ⟨h.objects, h.prefixes⟩
      · by_cases hfull : found.length ≤ maxKeys
        · refine Or.inl (List.eq_nil_iff_forall_not_mem.mpr fun n hn => ?_)
          obtain ⟨-, hge, -, hlt⟩ := mem_remaining.mp hn
          exact hgo ⟨hfull, lt_of_le_of_lt hge hlt⟩
        · exact Or.inr (by omega)

end

section
variable {v : CatalogView} {index : LiveIndex} {bucket listed delimiter : Bytes}

def bucketItems (v : CatalogView) (index : LiveIndex) (base listed delimiter : Bytes) : List ListingItem :=
  collect ListingItem.key
    ((index.names.filter fun n => (base ++ listed).isPrefixOf n).filterMap (catalogItem v base listed delimiter))

theorem rows_bucket (base : Bytes) : Rows base listed (index.names.filter fun n => (base ++ listed).isPrefixOf n) :=
  ⟨index.ascending.filter _, fun _ hn => List.isPrefixOf_iff_prefix.mp (by simpa using (List.mem_filter.mp hn).2)⟩

theorem mem_bucketItems {base : Bytes} {item : ListingItem} :
    item ∈ bucketItems v index base listed delimiter ↔ InListing v index base listed delimiter item := by
  rw [bucketItems, mem_collect (rows_bucket base).eq_of_key, List.mem_filterMap]
  constructor
  · rintro ⟨n, hn, hitem⟩
    obtain ⟨key, rfl, hkey⟩ := exists_key ((rows_bucket base).within n hn)
    have hname := List.mem_of_mem_filter hn
    cases (catalogItem_eq_some_iff hkey).mp hitem with
    | object hfile hnone => exact .object hname hfile hkey (commonPrefix_eq_none hkey hnone)
    | common hfile hcommon => exact .common hname hfile hkey hcommon
  · intro h
    have hrow : ∀ {key}, base ++ key ∈ index.names → listed <+: key →
        base ++ key ∈ index.names.filter fun n => (base ++ listed).isPrefixOf n := fun hname hkey =>
      List.mem_filter.mpr ⟨hname, List.isPrefixOf_iff_prefix.mpr ((List.prefix_append_right_inj base).mpr hkey)⟩
    cases h with
    | @object key o hname hfile hkey hplain =>
      refine ⟨_, hrow hname hkey, (catalogItem_eq_some_iff hkey).mpr (.object hfile ?_)⟩
      cases hcommon : commonPrefix listed delimiter key with
      | none => rfl
      | some common =>
        obtain ⟨hdelim, hpre, ⟨front, rfl⟩, -⟩ := isCommonPrefix_of_commonPrefix hkey hcommon
        exact absurd hpre (hplain hdelim front)
    | @common key common o hname hfile hkey hcommon =>
      exact ⟨_, hrow hname hkey, (catalogItem_eq_some_iff hkey).mpr (.common hfile hcommon)⟩

theorem ascending_bucketItems (base : Bytes) : Ascending ListingItem.key (bucketItems v index base listed delimiter) :=
  ascending_collect _

def bucketRows (index : LiveIndex) (base listed after : Bytes) : List Bytes :=
  remaining index (prefixEnd (base ++ listed)) (base ++ listed) (base ++ after)

theorem listedAbove_bucketRows (hbucket : validString bucket = true) (hlisted : validString listed = true) (after : Bytes) :
    Rows (bucket ++ [47]) listed (bucketRows index (bucket ++ [47]) listed after) ∧
      (∀ n ∈ bucketRows index (bucket ++ [47]) listed after, bucket ++ [47] ++ after < n) ∧
      listedAbove v (bucket ++ [47]) listed delimiter after (bucketRows index (bucket ++ [47]) listed after) =
        Paging.rest ListingItem.key (bucketItems v index (bucket ++ [47]) listed delimiter) after := by
  have hbase : validString (bucket ++ [47]) = true := validString_append hbucket (by decide)
  have hvalid := validString_append hbase hlisted
  have hmem : ∀ n, n ∈ bucketRows index (bucket ++ [47]) listed after ↔
      n ∈ index.names ∧ bucket ++ [47] ++ listed <+: n ∧ bucket ++ [47] ++ after < n := by
    intro n
    rw [bucketRows, mem_remaining]
    refine and_congr_right fun hn => ?_
    rw [prefix_iff_prefixEnd hvalid hbucket (index.valid n hn), not_lt]
    constructor
    · rintro ⟨hge, hcursor, hlt⟩
      refine ⟨⟨hge, hlt⟩, ?_⟩
      rcases le_or_gt (bucket ++ [47] ++ listed) (bucket ++ [47] ++ after) with hle | hgt
      · exact hcursor hle
      · exact lt_of_lt_of_le hgt hge
    · rintro ⟨⟨hge, hlt⟩, hafter⟩
      exact ⟨hge, fun _ => hafter, hlt⟩
  have hrows : Rows (bucket ++ [47]) listed (bucketRows index (bucket ++ [47]) listed after) :=
    ⟨ascending_remaining _ _, fun n hn => ((hmem n).mp hn).2.1⟩
  refine ⟨hrows, fun n hn => ((hmem n).mp hn).2.2, ?_⟩
  refine (ascending_listedAbove _).eq_of_mem_iff (List.Pairwise.filter _ (ascending_bucketItems _)) fun item => ?_
  rw [hrows.mem_listedAbove, Paging.mem_rest, bucketItems, mem_collect (rows_bucket _).eq_of_key, List.mem_filterMap]
  refine and_congr_left fun hafter => exists_congr fun n => and_congr_left fun hitem => ?_
  rw [hmem, List.mem_filter, List.isPrefixOf_iff_prefix]
  refine and_congr_right fun hn => ⟨fun h => h.1, fun hpre => ⟨hpre, ?_⟩⟩
  obtain ⟨key, rfl, hkey⟩ := exists_key hpre
  have hle := le_of_begins ((catalogItem_eq_some_iff hkey).mp hitem).key_le
  exact append_lt_append_iff.mpr (lt_of_lt_of_le hafter hle)

variable {items : List ListingItem}

theorem listPage_eq_cutPage (hbucket : validString bucket = true) (hlisted : validString listed = true)
    (hdelim : validString delimiter = true) {after : Bytes} (hafter : validString after = true) {fuel : Nat}
    (hfuel : index.names.length < fuel) (maxKeys : Nat)
    (hitems : items = bucketItems v index (bucket ++ [47]) listed delimiter) :
    listPage v index bucket listed delimiter after maxKeys fuel =
      .ok (cutPage maxKeys (Paging.rest ListingItem.key items after)) := by
  obtain ⟨hrows, habove, hwhole⟩ := @listedAbove_bucketRows v index bucket listed delimiter hbucket hlisted after
  rw [← hitems] at hwhole
  have hstart : Scan.Holds v index (bucket ++ [47]) listed delimiter after (prefixEnd (bucket ++ [47] ++ listed))
      (Paging.rest ListingItem.key items after)
      ⟨bucket ++ [47] ++ listed, bucket ++ [47] ++ after, [], []⟩ [] := ⟨rfl, rfl, hwhole, hrows, habove⟩
  have hlen : (bucketRows index (bucket ++ [47]) listed after).length < fuel :=
    lt_of_le_of_lt (List.length_filter_le _ _) hfuel
  obtain ⟨s', hs, hobjects, hprefixes⟩ := scanRanges_ok hbucket hdelim hstart (Nat.zero_le (maxKeys + 1)) hlen
  unfold listPage
  rw [hlisted, hafter, hdelim, if_neg (by decide)]
  dsimp only
  rw [hs]
  dsimp only
  have habove' : ∀ x ∈ (Paging.rest ListingItem.key items after).take (maxKeys + 1), after < x.key :=
    fun x hx => (Paging.mem_rest.mp (List.mem_of_mem_take hx)).2
  have hasc : Ascending ListingItem.key ((Paging.rest ListingItem.key items after).take (maxKeys + 1)) :=
    List.Pairwise.sublist (List.take_sublist _ _) (List.Pairwise.filter _ (hitems ▸ ascending_bucketItems _))
  rw [hobjects, hprefixes, paginate_ascending (List.Perm.refl _) hasc habove', cutPage_take]

def ListPage.next (p : ListPage) : Option Bytes := if p.isTruncated then some p.nextToken else none

def pagePart {α : Type} (part : ListPage → List α) (page : Except ListErr ListPage) : List α × Option Bytes :=
  match page with
  | .ok p => (part p, p.next)
  | .error _ => ([], none)

theorem InListing.key_valid (hbucket : validString bucket = true) (hdelim : validString delimiter = true) {item : ListingItem}
    (h : InListing v index (bucket ++ [47]) listed delimiter item) : validString item.key = true ∧ item.key ≠ [] := by
  have hbase : validString (bucket ++ [47]) = true := validString_append hbucket (by decide)
  cases h with
  | @object key o hname hfile hkey hplain =>
    refine ⟨validString_of_append hbase (index.valid _ hname), ?_⟩
    rintro (rfl : key = [])
    exact index.file _ hname (by rw [List.append_nil, List.getLast?_concat])
  | @common key common o hname hfile hkey hcommon =>
    refine ⟨validString_common hdelim (validString_of_append hbase (index.valid _ hname)) hcommon, ?_⟩
    obtain ⟨hne, -, ⟨front, rfl⟩, -⟩ := hcommon
    intro hnil
    exact hne (List.append_eq_nil_iff.mp (List.append_eq_nil_iff.mp hnil).2).2

theorem cutPage_eq_page {after : Bytes} {maxKeys : Nat} (hmax : 1 ≤ maxKeys) :
    (cutPage maxKeys (Paging.rest ListingItem.key items after)).next = (Paging.page ListingItem.key items maxKeys after).2 ∧
      (cutPage maxKeys (Paging.rest ListingItem.key items after)).objects =
        (Paging.page ListingItem.key items maxKeys after).1.filterMap ListingItem.object? ∧
      (cutPage maxKeys (Paging.rest ListingItem.key items after)).commonPrefixes =
        (Paging.page ListingItem.key items maxKeys after).1.filterMap ListingItem.common? := by
  unfold cutPage Paging.page ListPage.next
  dsimp only
  by_cases hcut : maxKeys < (Paging.rest ListingItem.key items after).length
  · rw [decide_eq_true hcut, if_pos hcut]
    refine ⟨?_, rfl, rfl⟩
    have hne : (Paging.rest ListingItem.key items after).take maxKeys ≠ [] := by
      intro hnil
      have hlen := congrArg List.length hnil
      rw [List.length_take, List.length_nil] at hlen
      omega
    rw [if_pos rfl, if_pos rfl, if_pos rfl, List.getLast?_eq_some_getLast hne]
    rfl
  · rw [decide_eq_false hcut, if_neg hcut]
    exact ⟨rfl, rfl, rfl⟩

theorem follow_pagePart {α : Type} (hbucket : validString bucket = true) (hlisted : validString listed = true)
    (hdelim : validString delimiter = true) {maxKeys fuel pages : Nat} (hmax : 1 ≤ maxKeys) (hfuel : index.names.length < fuel)
    (hitems : items = bucketItems v index (bucket ++ [47]) listed delimiter) (hpages : items.length < pages) (part : ListPage → List α)
    (p : ListingItem → Option α)
    (hpart : ∀ after, part (cutPage maxKeys (Paging.rest ListingItem.key items after)) =
      (Paging.page ListingItem.key items maxKeys after).1.filterMap p) :
    Paging.follow (fun after => pagePart part (listPage v index bucket listed delimiter after maxKeys fuel)) pages [] =
      items.filterMap p := by
  have hkey : ∀ item ∈ items, validString item.key = true ∧ item.key ≠ [] :=
    fun item hitem => (mem_bucketItems.mp (hitems ▸ hitem)).key_valid hbucket hdelim
  have hall : Paging.rest ListingItem.key items [] = items := by
    refine List.filter_eq_self.mpr fun item hitem => ?_
    obtain ⟨b, l, hbl⟩ := List.exists_cons_of_ne_nil (hkey item hitem).2
    simp [hbl]
  have hsame : ∀ after, validString after = true →
      pagePart part (listPage v index bucket listed delimiter after maxKeys fuel) =
        ((Paging.page ListingItem.key items maxKeys after).1.filterMap p,
          (Paging.page ListingItem.key items maxKeys after).2) := by
    intro after hafter
    rw [listPage_eq_cutPage hbucket hlisted hdelim hafter hfuel maxKeys hitems, pagePart, hpart, (cutPage_eq_page hmax).1]
  have hnext : ∀ a b, validString a = true → (Paging.page ListingItem.key items maxKeys a).2 = some b →
        validString b = true := by
    intro a b _ hb
    unfold Paging.page at hb
    split at hb
    · obtain ⟨item, hitem, rfl⟩ := Option.map_eq_some_iff.mp hb
      exact (hkey item (Paging.mem_rest.mp (List.mem_of_mem_take (List.mem_of_getLast? hitem))).1).1
    · cases hb
  rw [Paging.follow_congr (fun a => validString a = true) hsame hnext pages (by decide), Paging.follow_filterMap,
    Paging.follow_page (hitems ▸ ascending_bucketItems _) hmax (by rw [hall]; exact hpages), hall]

/-- A page of the catalog holds the first items above the start position, and following the markers
from the empty one gives each item once. -/
theorem catalog_listing_exact (hbucket : validString bucket = true) (hlisted : validString listed = true)
    (hdelim : validString delimiter = true) :
    ∃ items : List ListingItem, items.Pairwise (fun a b => a.key < b.key) ∧
      (∀ item, item ∈ items ↔ InListing v index (bucket ++ [47]) listed delimiter item) ∧
      (∀ after maxKeys fuel, validString after = true → index.names.length < fuel →
        ∀ above, above = items.filter (fun item => after < item.key) →
          listPage v index bucket listed delimiter after maxKeys fuel = .ok
            { objects := (above.take maxKeys).filterMap ListingItem.object?
              commonPrefixes := (above.take maxKeys).filterMap ListingItem.common?
              isTruncated := decide (maxKeys < above.length)
              nextToken := if maxKeys < above.length then ((above.take maxKeys).getLast?.map ListingItem.key).getD [] else [] }) ∧
      ∀ maxKeys fuel pages, 1 ≤ maxKeys → index.names.length < fuel → items.length < pages →
        Paging.follow (fun after => pagePart ListPage.objects (listPage v index bucket listed delimiter after maxKeys fuel)) pages [] =
            items.filterMap ListingItem.object? ∧
          Paging.follow (fun after => pagePart ListPage.commonPrefixes (listPage v index bucket listed delimiter after maxKeys fuel))
              pages [] =
            items.filterMap ListingItem.common? := by
  refine ⟨bucketItems v index (bucket ++ [47]) listed delimiter, ascending_bucketItems _, fun item => mem_bucketItems, ?_, ?_⟩
  · intro after maxKeys fuel hafter hfuel above habove
    have hrest : Paging.rest ListingItem.key (bucketItems v index (bucket ++ [47]) listed delimiter) after = above := by
      rw [habove]
      exact List.filter_congr fun item _ => decide_eq_decide.mpr Iff.rfl
    rw [listPage_eq_cutPage hbucket hlisted hdelim hafter hfuel maxKeys rfl, hrest, cutPage]
    by_cases hcut : maxKeys < above.length
    · rw [decide_eq_true hcut, if_pos hcut]
      rfl
    · rw [decide_eq_false hcut, if_neg hcut, List.take_of_length_le (not_lt.mp hcut)]
      rfl
  · intro maxKeys fuel pages hmax hfuel hpages
    exact ⟨follow_pagePart hbucket hlisted hdelim hmax hfuel rfl hpages _ _ fun after => (cutPage_eq_page hmax).2.1,
      follow_pagePart hbucket hlisted hdelim hmax hfuel rfl hpages _ _ fun after => (cutPage_eq_page hmax).2.2⟩

end

def plainCatalog : CatalogView := ⟨fun _ => false, fun _ => true, fun _ => .regular ⟨[7], 1, 1⟩, fun _ => []⟩

/-- `b/a`, `b/d/x` and `b/d/y`. -/
def groupedIndex : LiveIndex :=
  ⟨[[98, 47, 97], [98, 47, 100, 47, 120], [98, 47, 100, 47, 121]], by decide, by decide, by decide⟩

example : listPage plainCatalog groupedIndex [98] [] [47] [97] 1 4 = .ok ⟨[], [[100, 47]], false, []⟩ := by
  decide +kernel

theorem catalog_listing_exact_grouped : ∃ items : List ListingItem,
    (∀ item, item ∈ items ↔ InListing plainCatalog groupedIndex [98, 47] [] [47] item) ∧
      Paging.follow (fun after => pagePart ListPage.commonPrefixes (listPage plainCatalog groupedIndex [98] [] [47] after 1 4))
        (items.length + 1) [] = items.filterMap ListingItem.common? := by
  have hslash : validString [47] = true := by decide
  obtain ⟨items, -, hmem, -, hfollow⟩ := @catalog_listing_exact plainCatalog groupedIndex [98] [] [47] (by decide) (by decide) hslash
  exact ⟨items, hmem, (hfollow 1 4 (items.length + 1) (by decide) (by decide) (Nat.lt_succ_self _)).2⟩

end BirakFormal
