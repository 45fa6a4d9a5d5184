import Mathlib

/-!
# UTF-8

The encoding of a text keeps the order of texts, and a text that occurs in another one as bytes
occurs there between characters.
-/

namespace Utf8

open String (utf8EncodeChar)

def encode (cs : List Char) : List UInt8 := cs.flatMap utf8EncodeChar

def Continuation (b : UInt8) : Prop := 128 ≤ b.toNat ∧ b.toNat < 192

/-- The characters of an encoded text, where `more` bytes continue the character begun with the bits
of `v`. -/
def decodeFrom : Nat → Nat → List UInt8 → List Char
  | _, _, [] => []
  | 0, _, b :: s =>
    if b.toNat < 128 then Char.ofNat b.toNat :: decodeFrom 0 0 s
    else if b.toNat < 224 then decodeFrom 1 (b.toNat % 32) s
    else if b.toNat < 240 then decodeFrom 2 (b.toNat % 16) s
    else decodeFrom 3 (b.toNat % 8) s
  | 1, v, b :: s => Char.ofNat (v * 64 + b.toNat % 64) :: decodeFrom 0 0 s
  | more + 2, v, b :: s => decodeFrom (more + 1) (v * 64 + b.toNat % 64) s

def decode (s : List UInt8) : List Char := decodeFrom 0 0 s

section
variable {c d : Char}

theorem toNat_lt (c : Char) : c.toNat < 1114112 := by
  have h := c.valid
  unfold UInt32.isValidChar Nat.isValidChar at h
  have : c.val.toNat = c.toNat := rfl
  omega

inductive Shape (v : Nat) : List UInt8 → Prop
  | one (h : v < 128) : Shape v [UInt8.ofNat v]
  | two (h : 128 ≤ v ∧ v < 2048) : Shape v [UInt8.ofNat (v / 64 % 32 + 192), UInt8.ofNat (v % 64 + 128)]
  | three (h : 2048 ≤ v ∧ v < 65536) :
    Shape v [UInt8.ofNat (v / 4096 % 16 + 224), UInt8.ofNat (v / 64 % 64 + 128), UInt8.ofNat (v % 64 + 128)]
  | four (h : 65536 ≤ v ∧ v < 1114112) :
    Shape v [UInt8.ofNat (v / 262144 % 8 + 240), UInt8.ofNat (v / 4096 % 64 + 128), UInt8.ofNat (v / 64 % 64 + 128),
      UInt8.ofNat (v % 64 + 128)]

theorem shape_encodeChar (c : Char) : Shape c.toNat (utf8EncodeChar c) := by
  have hmax : c.val.toNat < 1114112 := toNat_lt c
  change Shape c.val.toNat (utf8EncodeChar c)
  unfold utf8EncodeChar
  dsimp only
  by_cases h1 : c.val.toNat ≤ 127
  · rw [if_pos h1]
    exact .one (by omega)
  · rw [if_neg h1]
    by_cases h2 : c.val.toNat ≤ 2047
    · rw [if_pos h2]
      exact .two (by omega)
    · rw [if_neg h2]
      by_cases h3 : c.val.toNat ≤ 65535
      · rw [if_pos h3]
        exact .three (by omega)
      · rw [if_neg h3]
        exact .four (by omega)

theorem toNat_ofNat_of_lt {n : Nat} (h : n < 256) : (UInt8.ofNat n).toNat = n := by
  rw [UInt8.toNat_ofNat']
  exact Nat.mod_eq_of_lt h

theorem encodeChar_lead (c : Char) :
    ∃ b bs, utf8EncodeChar c = b :: bs ∧ ¬ Continuation b ∧ ∀ x ∈ bs, Continuation x := by
  have hcont : ∀ n, Continuation (UInt8.ofNat (n % 64 + 128)) := by
    intro n
    rw [Continuation, toNat_ofNat_of_lt (by omega)]
    omega
  have hlead : ∀ n, n < 256 → ¬ (128 ≤ n ∧ n < 192) → ¬ Continuation (UInt8.ofNat n) := by
    intro n hn h
    rw [Continuation, toNat_ofNat_of_lt hn]
    exact h
  generalize c.toNat = v, utf8EncodeChar c = e, shape_encodeChar c = h
  cases h with
  | one h => exact ⟨_, _, rfl, hlead _ (by omega) (by omega), by simp⟩
  | two h => exact ⟨_, _, rfl, hlead _ (by omega) (by omega), List.forall_mem_singleton.mpr (hcont _)⟩
  | three h =>
    exact ⟨_, _, rfl, hlead _ (by omega) (by omega),
      List.forall_mem_cons.mpr ⟨hcont _, List.forall_mem_singleton.mpr (hcont _)⟩⟩
  | four h =>
    exact ⟨_, _, rfl, hlead _ (by omega) (by omega), List.forall_mem_cons.mpr ⟨hcont _, List.forall_mem_cons.mpr
      ⟨hcont _, List.forall_mem_singleton.mpr (hcont _)⟩⟩⟩

theorem cons_lt_of_lt {m n : Nat} {s t : List UInt8} (h : m < n ∧ n < 256) : UInt8.ofNat m :: s < UInt8.ofNat n :: t := by
  refine List.cons_lt_cons_iff.mpr (Or.inl ?_)
  rw [UInt8.lt_iff_toNat_lt, toNat_ofNat_of_lt (h.1.trans h.2), toNat_ofNat_of_lt h.2]
  exact h.1

theorem cons_lt_of_eq {m n : Nat} {s t : List UInt8} (h : m = n) (hst : s < t) :
    UInt8.ofNat m :: s < UInt8.ofNat n :: t := by
  subst h
  exact List.cons_lt_cons_iff.mpr (Or.inr ⟨rfl, hst⟩)

theorem encodeChar_append_lt (h : c < d) (s t : List UInt8) : utf8EncodeChar c ++ s < utf8EncodeChar d ++ t := by
  have hlt : c.toNat < d.toNat := h
  generalize c.toNat = v, utf8EncodeChar c = e, shape_encodeChar c = hc at hlt
  generalize d.toNat = w, utf8EncodeChar d = f, shape_encodeChar d = hd at hlt
  cases hc with
  | one hv =>
    cases hd with
    | one hw => exact cons_lt_of_lt (by omega)
    | two hw => exact cons_lt_of_lt (by omega)
    | three hw => exact cons_lt_of_lt (by omega)
    | four hw => exact cons_lt_of_lt (by omega)
  | two hv =>
    cases hd with
    | one hw => omega
    | two hw =>
      by_cases h1 : v / 64 = w / 64
      · exact cons_lt_of_eq (by omega) (cons_lt_of_lt (by omega))
      · exact cons_lt_of_lt (by omega)
    | three hw => exact cons_lt_of_lt (by omega)
    | four hw => exact cons_lt_of_lt (by omega)
  | three hv =>
    cases hd with
    | one hw => omega
    | two hw => omega
    | three hw =>
      by_cases h1 : v / 4096 = w / 4096
      · refine cons_lt_of_eq (by omega) ?_
        by_cases h2 : v / 64 = w / 64
        · exact cons_lt_of_eq (by omega) (cons_lt_of_lt (by omega))
        · exact cons_lt_of_lt (by omega)
      · exact cons_lt_of_lt (by omega)
    | four hw => exact cons_lt_of_lt (by omega)
  | four hv =>
    cases hd with
    | one hw => omega
    | two hw => omega
    | three hw => omega
    | four hw =>
      by_cases h1 : v / 262144 = w / 262144
      · refine cons_lt_of_eq (by omega) ?_
        by_cases h2 : v / 4096 = w / 4096
        · refine cons_lt_of_eq (by omega) ?_
          by_cases h3 : v / 64 = w / 64
          · exact cons_lt_of_eq (by omega) (cons_lt_of_lt (by omega))
          · exact cons_lt_of_lt (by omega)
        · exact cons_lt_of_lt (by omega)
      · exact cons_lt_of_lt (by omega)

theorem decode_encodeChar (c : Char) (s : List UInt8) : decode (utf8EncodeChar c ++ s) = c :: decode s := by
  have hback : Char.ofNat c.toNat = c := Char.ofNat_toNat c
  generalize c.toNat = v, utf8EncodeChar c = e, shape_encodeChar c = hc at hback
  rw [← hback]
  have hbyte : ∀ n, n < 256 → (UInt8.ofNat n).toNat = n := fun n hn => toNat_ofNat_of_lt hn
  cases hc with
  | one hv =>
    simp only [List.cons_append, List.nil_append, decode, decodeFrom, hbyte v (by omega)]
    rw [if_pos hv]
  | two hv =>
    simp only [List.cons_append, List.nil_append, decode, decodeFrom, hbyte (v / 64 % 32 + 192) (by omega),
      hbyte (v % 64 + 128) (by omega)]
    rw [if_neg (by omega), if_pos (by omega)]
    congr 2
    omega
  | three hv =>
    simp only [List.cons_append, List.nil_append, decode, decodeFrom, hbyte (v / 4096 % 16 + 224) (by omega),
      hbyte (v / 64 % 64 + 128) (by omega), hbyte (v % 64 + 128) (by omega)]
    rw [if_neg (by omega), if_neg (by omega), if_pos (by omega)]
    congr 2
    omega
  | four hv =>
    simp only [List.cons_append, List.nil_append, decode, decodeFrom, hbyte (v / 262144 % 8 + 240) (by omega),
      hbyte (v / 4096 % 64 + 128) (by omega), hbyte (v / 64 % 64 + 128) (by omega), hbyte (v % 64 + 128) (by omega)]
    rw [if_neg (by omega), if_neg (by omega), if_neg (by omega)]
    congr 2
    omega

end

variable {a b cs d : List Char}

theorem encode_nil : encode [] = [] := rfl

theorem encode_cons (c : Char) (cs : List Char) : encode (c :: cs) = utf8EncodeChar c ++ encode cs := rfl

theorem encode_append (a b : List Char) : encode (a ++ b) = encode a ++ encode b := List.flatMap_append

theorem encode_ne_nil (h : cs ≠ []) : encode cs ≠ [] := by
  obtain ⟨c, cs, rfl⟩ := List.exists_cons_of_ne_nil h
  obtain ⟨lead, tail, hlead, -⟩ := encodeChar_lead c
  rw [encode_cons, hlead]
  exact List.cons_ne_nil _ _

theorem decode_encode (cs : List Char) : decode (encode cs) = cs := by
  induction cs with
  | nil => rfl
  | cons c cs ih => rw [encode_cons, decode_encodeChar, ih]

theorem encode_lt_encode (h : a < b) : encode a < encode b := by
  induction h with
  | nil =>
    next c cs =>
    obtain ⟨lead, tail, hlead, -⟩ := encodeChar_lead c
    rw [encode_cons, hlead]
    exact List.nil_lt_cons _ _
  | rel h => exact encodeChar_append_lt h _ _
  | cons h ih => exact List.append_left_lt ih

theorem encode_lt_iff : encode a < encode b ↔ a < b := by
  refine ⟨fun h => ?_, encode_lt_encode⟩
  rcases Std.lt_trichotomy a b with hlt | heq | hgt
  · exact hlt
  · exact absurd (heq ▸ h) (List.lt_irrefl _)
  · exact absurd h (List.lt_asymm (encode_lt_encode hgt))

theorem encode_prefix_iff : encode a <+: encode b ↔ a <+: b := by
  constructor
  · intro h
    induction a generalizing b with
    | nil => exact List.nil_prefix
    | cons c a ih =>
      cases b with
      | nil => exact absurd (List.prefix_nil.mp h) (encode_ne_nil (List.cons_ne_nil c a))
      | cons e b =>
        obtain ⟨t, ht⟩ := h
        rw [encode_cons, encode_cons, List.append_assoc] at ht
        have heq : c = e := by
          rcases Std.lt_trichotomy c e with hlt | heq | hgt
          · exact absurd (ht ▸ encodeChar_append_lt hlt (encode a ++ t) (encode b)) (List.lt_irrefl _)
          · exact heq
          · exact absurd (ht ▸ encodeChar_append_lt hgt (encode b) (encode a ++ t)) (List.lt_irrefl _)
        subst heq
        exact (List.prefix_cons_inj c).mpr (ih ⟨t, List.append_cancel_left ht⟩)
  · rintro ⟨t, rfl⟩
    exact ⟨encode t, (encode_append a t).symm⟩

theorem exists_encode_front {x y : List UInt8} (hd : d ≠ []) (h : encode cs = x ++ (encode d ++ y)) :
    ∃ front, x = encode front := by
  induction cs generalizing x with
  | nil =>
    have hnil := (List.append_eq_nil_iff.mp h.symm).1
    exact ⟨[], hnil⟩
  | cons c cs ih =>
    by_cases hx : x = []
    · exact ⟨[], hx⟩
    · rw [encode_cons] at h
      rcases List.append_eq_append_iff.mp h with ⟨x', rfl, hrest⟩ | ⟨e, hchar, hrest⟩
      · obtain ⟨front, rfl⟩ := ih hrest
        exact ⟨c :: front, (encode_cons c front).symm⟩
      · cases e with
        | nil =>
          rw [List.append_nil] at hchar
          exact ⟨[c], by rw [encode_cons, encode_nil, List.append_nil, hchar]⟩
        | cons b e =>
          -- a byte inside the character would begin the text
          obtain ⟨c', d', rfl⟩ := List.exists_cons_of_ne_nil hd
          obtain ⟨lead, tail, hlead, hfirst, -⟩ := encodeChar_lead c'
          obtain ⟨lead', tail', hlead', -, hcont⟩ := encodeChar_lead c
          obtain ⟨x₀, x', rfl⟩ := List.exists_cons_of_ne_nil hx
          rw [encode_cons, hlead, List.cons_append, List.cons_append, List.cons_append] at hrest
          rw [hlead', List.cons_append] at hchar
          have hb : b ∈ tail' := by
            rw [(List.cons.inj hchar).2]
            exact List.mem_append_right x' List.mem_cons_self
          exact absurd (hcont b hb) ((List.cons.inj hrest).1 ▸ hfirst)

end Utf8
