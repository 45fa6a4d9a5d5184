import BirakFormal.Shared.Framing
import BirakFormal.Store.Conflicts

/-!
# Canonical query strings

`canonicalQueryString` sorts the parameters of a request and encodes them afterwards; the signing
protocol sorts what has been encoded. An encoded byte begins with a percent sign, which is below
every byte that is not encoded, so the two orders differ where a plain byte stands below one that
is encoded.
-/

namespace BirakFormal

def unreserved (c : UInt8) : Bool :=
  (65 ≤ c && c ≤ 90) || (97 ≤ c && c ≤ 122) || (48 ≤ c && c ≤ 57) || c == 45 || c == 95 || c == 46 || c == 126

def upperHex (n : Nat) : UInt8 := UInt8.ofNat (if n < 10 then 48 + n else 55 + n)

def escapeByte (c : UInt8) : Bytes := [37, upperHex (c.toNat / 16), upperHex (c.toNat % 16)]

def encodeByte (encodeSlash : Bool) (c : UInt8) : Bytes :=
  if unreserved c then [c] else if c = 47 && !encodeSlash then [c] else escapeByte c

def awsURIEncode (s : Bytes) (encodeSlash : Bool) : Bytes := s.flatMap (encodeByte encodeSlash)

/-- `url.Values`, in the order a walk over the map takes. -/
structure Values where
  entries : List (Bytes × List Bytes)
  distinct : (entries.map Prod.fst).Nodup

def Values.names (query : Values) : List Bytes := query.entries.map Prod.fst

def Values.get (query : Values) (k : Bytes) : List Bytes := (query.entries.lookup k).getD []

def Values.pairs (query : Values) : List (Bytes × Bytes) := query.entries.flatMap fun e => e.2.map fun v => (e.1, v)

/-- `sort.Strings`. -/
def sortStrings (l : List Bytes) : List Bytes := l.insertionSort (· ≤ ·)

def canonicalQueryString (query : Values) (exclude : Bytes) : Bytes :=
  let keys := sortStrings (query.names.filter (· ≠ exclude))
  let parts := keys.flatMap fun k =>
    let vals := sortStrings (query.get k)
    let ek := awsURIEncode k true
    vals.map fun v => ek ++ [61] ++ awsURIEncode v true
  [38].intercalate parts

/-- `X-Amz-Signature`. -/
def signatureParam : Bytes := [88, 45, 65, 109, 122, 45, 83, 105, 103, 110, 97, 116, 117, 114, 101]

inductive SigningForm where
  | header
  | presigned
  deriving DecidableEq, Repr

def SigningForm.exclude : SigningForm → Bytes
  | .header => []
  | .presigned => signatureParam

def SigningForm.signed : SigningForm → List (Bytes × Bytes) → List (Bytes × Bytes)
  | .header, pairs => pairs
  | .presigned, pairs => pairs.filter fun p => p.1 ≠ signatureParam

def pairLe (p q : Bytes × Bytes) : Prop := p.1 < q.1 ∨ p.1 = q.1 ∧ p.2 ≤ q.2

instance : DecidableRel pairLe := fun p q => inferInstanceAs (Decidable (p.1 < q.1 ∨ p.1 = q.1 ∧ p.2 ≤ q.2))

def encodePair (p : Bytes × Bytes) : Bytes × Bytes := (awsURIEncode p.1 true, awsURIEncode p.2 true)

def joinPair (p : Bytes × Bytes) : Bytes := p.1 ++ [61] ++ p.2

def sigV4Query (pairs : List (Bytes × Bytes)) : Bytes :=
  [38].intercalate (((pairs.map encodePair).insertionSort pairLe).map joinPair)

/-- At their first difference `s` has a plain byte and `t` a greater one that is encoded. -/
def Inverts : Bytes → Bytes → Bool
  | a :: s, b :: t => if a = b then Inverts s t else unreserved a && !unreserved b && decide (a < b)
  | _, _ => false

theorem upperHex_lt {m n : Nat} (h : m < n) (hn : n < 16) : upperHex m < upperHex n := by
  unfold upperHex
  rw [UInt8.lt_iff_toNat_lt, UInt8.toNat_ofNat', UInt8.toNat_ofNat']
  split <;> split <;> omega

variable {a b : UInt8}

theorem escapeByte_lt (h : a < b) (s t : Bytes) : escapeByte a ++ s < escapeByte b ++ t := by
  have hab : a.toNat < b.toNat := UInt8.lt_iff_toNat_lt.mp h
  have hb : b.toNat < 256 := b.toNat_lt
  refine List.cons_lt_cons_iff.mpr (Or.inr ⟨rfl, ?_⟩)
  rcases Nat.lt_or_ge (a.toNat / 16) (b.toNat / 16) with hhigh | hhigh
  · exact List.cons_lt_cons_iff.mpr (Or.inl (upperHex_lt hhigh (by omega)))
  · have heq : a.toNat / 16 = b.toNat / 16 := by omega
    rw [heq]
    refine List.cons_lt_cons_iff.mpr (Or.inr ⟨rfl, ?_⟩)
    exact List.cons_lt_cons_iff.mpr (Or.inl (upperHex_lt (by omega) (by omega)))

theorem percent_lt_unreserved (h : unreserved b = true) : 37 < b := by
  simp only [unreserved, Bool.or_eq_true, Bool.and_eq_true, decide_eq_true_eq, beq_iff_eq, UInt8.le_iff_toNat_le,
    ← UInt8.toNat_inj] at h
  simp only [UInt8.lt_iff_toNat_lt]
  simp only [UInt8.reduceToNat] at h ⊢
  omega

theorem encodeByte_lt (h : a < b) (hplain : unreserved a = true → unreserved b = true) (s t : Bytes) :
    encodeByte true a ++ s < encodeByte true b ++ t := by
  unfold encodeByte
  simp only [Bool.not_true, Bool.and_false, Bool.false_eq_true, if_false]
  by_cases ha : unreserved a = true
  · rw [if_pos ha, if_pos (hplain ha)]
    exact List.cons_lt_cons_iff.mpr (Or.inl h)
  · rw [if_neg ha]
    by_cases hb : unreserved b = true
    · rw [if_pos hb]
      exact List.cons_lt_cons_iff.mpr (Or.inl (percent_lt_unreserved hb))
    · rw [if_neg hb]
      exact escapeByte_lt h s t

theorem encodeByte_ne_nil (c : UInt8) : encodeByte true c ≠ [] := by
  unfold encodeByte escapeByte
  split <;> [skip; split] <;> exact List.cons_ne_nil _ _

variable {s t : Bytes}

theorem awsURIEncode_lt (h : s < t) (hinv : Inverts s t = false) :
    awsURIEncode s true < awsURIEncode t true := by
  unfold awsURIEncode
  induction s generalizing t with
  | nil =>
    cases t with
    | nil => exact absurd h (List.lt_irrefl [])
    | cons b t =>
      rw [List.flatMap_cons]
      cases he : encodeByte true b with
      | nil => exact absurd he (encodeByte_ne_nil b)
      | cons c rest => exact List.nil_lt_cons c _
  | cons a s ih =>
    cases t with
    | nil => exact absurd h (List.not_lt_nil _)
    | cons b t =>
      rw [List.flatMap_cons, List.flatMap_cons]
      rcases List.cons_lt_cons_iff.mp h with hab | ⟨rfl, hst⟩
      · have hne : a ≠ b := fun he => absurd hab (he ▸ UInt8.lt_irrefl a)
        refine encodeByte_lt hab (fun ha => ?_) _ _
        simpa [Inverts, hne, ha, hab] using hinv
      · refine List.append_left_lt (ih hst ?_)
        simpa [Inverts] using hinv

theorem awsURIEncode_le (h : s ≤ t) (hinv : Inverts s t = false) :
    awsURIEncode s true ≤ awsURIEncode t true := by
  by_cases he : s = t
  · rw [he]
    exact Std.le_refl _
  · exact List.le_of_lt (awsURIEncode_lt (Std.lt_of_le_of_ne h he) hinv)

instance : Std.Total pairLe where
  total p q := by
    rcases Std.lt_trichotomy p.1 q.1 with h | h | h
    · exact Or.inl (Or.inl h)
    · rcases List.le_total p.2 q.2 with h2 | h2
      · exact Or.inl (Or.inr ⟨h, h2⟩)
      · exact Or.inr (Or.inr ⟨h.symm, h2⟩)
    · exact Or.inr (Or.inl h)

instance : IsTrans (Bytes × Bytes) pairLe where
  trans p q r hpq hqr := by
    rcases hpq with hpq | ⟨he, hpq⟩
    · rcases hqr with hqr | ⟨he', hqr⟩
      · exact Or.inl (List.lt_trans hpq hqr)
      · exact Or.inl (he' ▸ hpq)
    · rcases hqr with hqr | ⟨he', hqr⟩
      · exact Or.inl (he ▸ hqr)
      · exact Or.inr ⟨he.trans he', List.le_trans hpq hqr⟩

variable {p q : Bytes × Bytes}

theorem pairLe_antisymm (hpq : pairLe p q) (hqp : pairLe q p) : p = q := by
  rcases hpq with hpq | ⟨he, hpq⟩
  · rcases hqp with hqp | ⟨he, -⟩
    · exact absurd (List.lt_trans hpq hqp) (List.lt_irrefl _)
    · exact absurd (he ▸ hpq) (List.lt_irrefl _)
  · rcases hqp with hqp | ⟨-, hqp⟩
    · exact absurd (he ▸ hqp) (List.lt_irrefl _)
    · exact Prod.ext he (List.le_antisymm hpq hqp)

theorem sortStrings_perm (l : List Bytes) : (sortStrings l).Perm l := List.perm_insertionSort _ l

theorem sortStrings_pairwise (l : List Bytes) : (sortStrings l).Pairwise (· ≤ ·) := List.pairwise_insertionSort _ l

theorem Values.get_of_mem (query : Values) {k : Bytes} {vs : List Bytes} (h : (k, vs) ∈ query.entries) :
    query.get k = vs := by
  have hlookup : query.entries.lookup k = some vs := by
    obtain ⟨l₁, l₂, hl⟩ := List.append_of_mem h
    refine List.lookup_eq_some_iff.mpr ⟨l₁, l₂, hl, fun p hp => ?_⟩
    have hnodup := query.distinct
    rw [hl, List.map_append, List.map_cons] at hnodup
    have hnotin := (List.nodup_append.mp hnodup).2.2 p.1 (List.mem_map_of_mem hp) k List.mem_cons_self
    simpa using Ne.symm hnotin
  rw [Values.get, hlookup, Option.getD_some]

def writtenPairs (query : Values) (exclude : Bytes) : List (Bytes × Bytes) :=
  (sortStrings (query.names.filter (· ≠ exclude))).flatMap fun k =>
    (sortStrings (query.get k)).map fun v => encodePair (k, v)

theorem canonicalQueryString_eq (query : Values) (exclude : Bytes) :
    canonicalQueryString query exclude = [38].intercalate ((writtenPairs query exclude).map joinPair) := by
  simp [canonicalQueryString, writtenPairs, List.map_flatMap, List.map_map, Function.comp_def, joinPair, encodePair]

theorem filter_pairs_eq (query : Values) (exclude : Bytes) {l : List (Bytes × List Bytes)}
    (hl : ∀ e ∈ l, e ∈ query.entries) :
    ((l.flatMap fun e => e.2.map fun v => (e.1, v)).filter fun p => p.1 ≠ exclude).map encodePair =
      ((l.map Prod.fst).filter (· ≠ exclude)).flatMap fun k => (query.get k).map fun v => encodePair (k, v) := by
  induction l with
  | nil => rfl
  | cons e l ih =>
    have hrest := ih fun x hx => hl x (List.mem_cons_of_mem e hx)
    have hget : query.get e.1 = e.2 := query.get_of_mem (hl e List.mem_cons_self)
    rw [List.flatMap_cons, List.filter_append, List.map_append, hrest, List.map_cons]
    by_cases he : e.1 = exclude
    · simp [he]
    · have hall : (e.2.map fun v => (e.1, v)).filter (fun p => p.1 ≠ exclude) = e.2.map fun v => (e.1, v) := by
        refine List.filter_eq_self.mpr fun p hp => ?_
        obtain ⟨v, -, rfl⟩ := List.mem_map.mp hp
        exact decide_eq_true he
      rw [hall, List.filter_cons, if_pos (by simpa using he), List.flatMap_cons, hget, List.map_map]
      rfl

theorem writtenPairs_perm (query : Values) (exclude : Bytes) :
    (writtenPairs query exclude).Perm ((query.pairs.filter fun p => p.1 ≠ exclude).map encodePair) := by
  rw [Values.pairs, filter_pairs_eq query exclude fun _ he => he]
  refine ((sortStrings_perm _).flatMap_right _).trans (List.Perm.flatMap_left _ fun k _ => ?_)
  exact (sortStrings_perm (query.get k)).map _

theorem upperHex_inj {m n : Nat} (hm : m < 16) (hn : n < 16) (h : upperHex m = upperHex n) : m = n := by
  rcases Nat.lt_trichotomy m n with hlt | heq | hgt
  · exact absurd (h ▸ upperHex_lt hlt hn) (UInt8.lt_irrefl _)
  · exact heq
  · exact absurd (h ▸ upperHex_lt hgt hm) (UInt8.lt_irrefl _)

theorem encodeByte_true (c : UInt8) : encodeByte true c = if unreserved c then [c] else escapeByte c := by
  simp [encodeByte]

theorem encodeByte_append_inj (h : encodeByte true a ++ s = encodeByte true b ++ t) :
    a = b ∧ s = t := by
  rw [encodeByte_true, encodeByte_true] at h
  have hpercent {c : UInt8} (hc : unreserved c = true) : c ≠ 37 :=
    fun he => absurd (percent_lt_unreserved hc) (he ▸ UInt8.lt_irrefl _)
  by_cases ha : unreserved a = true
  · rw [if_pos ha] at h
    by_cases hb : unreserved b = true
    · rw [if_pos hb] at h
      exact List.cons.inj h
    · rw [if_neg hb] at h
      exact absurd (List.cons.inj h).1 (hpercent ha)
  · rw [if_neg ha] at h
    by_cases hb : unreserved b = true
    · rw [if_pos hb] at h
      exact absurd (List.cons.inj h).1.symm (hpercent hb)
    · rw [if_neg hb] at h
      obtain ⟨hhigh, htail⟩ := List.cons.inj (List.cons.inj h).2
      obtain ⟨hlow, hst⟩ := List.cons.inj htail
      have ha' := a.toNat_lt
      have hb' := b.toNat_lt
      have h1 := upperHex_inj (by omega) (by omega) hhigh
      have h2 := upperHex_inj (by omega) (by omega) hlow
      exact ⟨UInt8.toNat_inj.mp (by omega), hst⟩

theorem awsURIEncode_inj (h : awsURIEncode s true = awsURIEncode t true) : s = t := by
  unfold awsURIEncode at h
  induction s generalizing t with
  | nil =>
    cases t with
    | nil => rfl
    | cons b t =>
      rw [List.flatMap_cons] at h
      exact absurd (List.append_eq_nil_iff.mp h.symm).1 (encodeByte_ne_nil b)
  | cons a s ih =>
    cases t with
    | nil =>
      rw [List.flatMap_cons] at h
      exact absurd (List.append_eq_nil_iff.mp h).1 (encodeByte_ne_nil a)
    | cons b t =>
      rw [List.flatMap_cons, List.flatMap_cons] at h
      obtain ⟨rfl, hst⟩ := encodeByte_append_inj h
      rw [ih hst]

theorem mem_awsURIEncode {c : UInt8} (h : c ∈ awsURIEncode s true) : c = 37 ∨ unreserved c = true := by
  obtain ⟨b, -, hc⟩ := List.mem_flatMap.mp h
  rw [encodeByte_true] at hc
  have hdigit {n : Nat} (hn : n < 16) : unreserved (upperHex n) = true := by
    have : ∀ n < 16, unreserved (upperHex n) = true := by decide
    exact this n hn
  have hb := b.toNat_lt
  split at hc
  · next hplain =>
    rw [List.mem_singleton.mp hc]
    exact Or.inr hplain
  · simp only [escapeByte, List.mem_cons, List.not_mem_nil, or_false] at hc
    rcases hc with rfl | rfl | rfl
    · exact Or.inl rfl
    · exact Or.inr (hdigit (by omega))
    · exact Or.inr (hdigit (by omega))

theorem not_mem_awsURIEncode {c : UInt8} (hc : c ≠ 37) (hplain : unreserved c = false) :
    c ∉ awsURIEncode s true := by
  intro h
  rcases mem_awsURIEncode h with rfl | hres
  · exact hc rfl
  · exact absurd (hplain.symm.trans hres) Bool.false_ne_true

theorem encodePair_inj (h : encodePair p = encodePair q) : p = q :=
  Prod.ext (awsURIEncode_inj (congrArg Prod.fst h)) (awsURIEncode_inj (congrArg Prod.snd h))

theorem joinPair_encode_inj (h : joinPair (encodePair p) = joinPair (encodePair q)) : p = q := by
  have hequals {s : Bytes} : (61 : UInt8) ∉ awsURIEncode s true := not_mem_awsURIEncode (by decide) (by decide)
  rw [joinPair, joinPair, List.append_assoc, List.append_assoc] at h
  obtain ⟨hname, hvalue⟩ := Framing.cut_inj hequals hequals h
  exact Prod.ext (awsURIEncode_inj hname) (awsURIEncode_inj hvalue)

theorem not_mem_joinPair {c : UInt8} (hc : c ≠ 37) (hplain : unreserved c = false) (hequals : c ≠ 61) :
    c ∉ joinPair (encodePair p) := by
  simp only [joinPair, encodePair, List.mem_append, List.mem_singleton, not_or]
  exact ⟨⟨not_mem_awsURIEncode hc hplain, hequals⟩, not_mem_awsURIEncode hc hplain⟩

def sortedPairs (query : Values) (exclude : Bytes) : List (Bytes × Bytes) :=
  (sortStrings (query.names.filter (· ≠ exclude))).flatMap fun k => (sortStrings (query.get k)).map fun v => (k, v)

theorem writtenPairs_eq (query : Values) (exclude : Bytes) :
    writtenPairs query exclude = (sortedPairs query exclude).map encodePair := by
  simp [writtenPairs, sortedPairs, List.map_flatMap, Function.comp_def]

theorem not_mem_canonicalQueryString (query : Values) (exclude : Bytes) : (10 : UInt8) ∉ canonicalQueryString query exclude := by
  rw [canonicalQueryString_eq]
  apply Framing.not_mem_join (by decide)
  intro part hpart
  rw [writtenPairs_eq, List.map_map] at hpart
  obtain ⟨p, -, rfl⟩ := List.mem_map.mp hpart
  exact not_mem_joinPair (by decide) (by decide) (by decide)

theorem pairs_perm_of_canonicalQueryString {query query' : Values} {exclude : Bytes}
    (h : canonicalQueryString query exclude = canonicalQueryString query' exclude) :
    (query.pairs.filter fun p => p.1 ≠ exclude).Perm (query'.pairs.filter fun p => p.1 ≠ exclude) := by
  have hparts {q : Values} : ∀ part ∈ (writtenPairs q exclude).map joinPair, (38 : UInt8) ∉ part ∧ part ≠ [] := by
    intro part hpart
    rw [writtenPairs_eq, List.map_map] at hpart
    obtain ⟨p, -, rfl⟩ := List.mem_map.mp hpart
    exact ⟨not_mem_joinPair (by decide) (by decide) (by decide), by simp [joinPair]⟩
  rw [canonicalQueryString_eq, canonicalQueryString_eq] at h
  have hlists := Framing.join_inj_of_ne_nil (fun x hx => (hparts x hx).1) (fun x hx => (hparts x hx).1)
    (fun x hx => (hparts x hx).2) (fun x hx => (hparts x hx).2) h
  rw [writtenPairs_eq, writtenPairs_eq, List.map_map, List.map_map] at hlists
  have hpairs : sortedPairs query exclude = sortedPairs query' exclude :=
    List.map_injective_iff.mpr (fun _ _ => joinPair_encode_inj) hlists
  have hwritten : writtenPairs query exclude = writtenPairs query' exclude := by
    rw [writtenPairs_eq, writtenPairs_eq, hpairs]
  have hperm := (writtenPairs_perm query exclude).symm.trans (hwritten ▸ writtenPairs_perm query' exclude)
  exact (List.map_perm_map_iff fun _ _ => encodePair_inj).mp hperm

/-- No two of the names, and no two values of one name, are inverted by encoding. -/
structure OrderKept (query : Values) (exclude : Bytes) : Prop where
  names : ∀ m ∈ query.names, ∀ n ∈ query.names, m ≠ exclude → n ≠ exclude → Inverts m n = false
  values : ∀ e ∈ query.entries, e.1 ≠ exclude → ∀ v ∈ e.2, ∀ w ∈ e.2, Inverts v w = false

theorem writtenPairs_pairwise {query : Values} {exclude : Bytes} (h : OrderKept query exclude) :
    (writtenPairs query exclude).Pairwise pairLe := by
  have hkept {k : Bytes} (hk : k ∈ sortStrings (query.names.filter (· ≠ exclude))) : k ∈ query.names ∧ k ≠ exclude := by
    simpa using (sortStrings_perm _).mem_iff.mp hk
  refine List.pairwise_flatMap.mpr ⟨fun k hk => ?_, ?_⟩
  · obtain ⟨hmem, hne⟩ := hkept hk
    obtain ⟨e, he, rfl⟩ := List.mem_map.mp hmem
    rw [query.get_of_mem he]
    refine List.pairwise_map.mpr ((sortStrings_pairwise e.2).imp_of_mem fun {v w} hv hw hle => Or.inr ⟨rfl, ?_⟩)
    have hv : v ∈ e.2 := (sortStrings_perm _).mem_iff.mp hv
    have hw : w ∈ e.2 := (sortStrings_perm _).mem_iff.mp hw
    exact awsURIEncode_le hle (h.values e he hne v hv w hw)
  · have hnodup : (sortStrings (query.names.filter (· ≠ exclude))).Nodup :=
      (sortStrings_perm _).nodup_iff.mpr (query.distinct.filter _)
    refine ((sortStrings_pairwise _).and hnodup).imp_of_mem fun {m n} hm hn hmn p hp q hq => ?_
    obtain ⟨v, -, rfl⟩ := List.mem_map.mp hp
    obtain ⟨w, -, rfl⟩ := List.mem_map.mp hq
    obtain ⟨hm, hm'⟩ := hkept hm
    obtain ⟨hn, hn'⟩ := hkept hn
    exact Or.inl (awsURIEncode_lt (Std.lt_of_le_of_ne hmn.1 hmn.2) (h.names m hm n hn hm' hn'))

theorem SigningForm.signed_pairs (form : SigningForm) (query : Values)
    (hempty : form = .header → [] ∉ query.names) :
    form.signed query.pairs = query.pairs.filter fun p => p.1 ≠ form.exclude := by
  cases form with
  | presigned => rfl
  | header =>
    refine (List.filter_eq_self.mpr fun p hp => ?_).symm
    obtain ⟨e, he, hp⟩ := List.mem_flatMap.mp hp
    obtain ⟨v, -, rfl⟩ := List.mem_map.mp hp
    have hne : e.1 ≠ [] := fun h => hempty rfl (h ▸ List.mem_map_of_mem he)
    exact decide_eq_true hne

/-- `b=/&a=2&a=1`, as a map. -/
def plainQuery : Values := ⟨[([98], [[47]]), ([97], [[50], [49]])], by decide⟩

/-- The parameters `a` and `}`, each with one value. -/
def invertedQuery : Values := ⟨[([97], [[49]]), ([125], [[50]])], by decide⟩

def namelessQuery : Values := ⟨[([], [[49]])], by decide⟩

end BirakFormal
