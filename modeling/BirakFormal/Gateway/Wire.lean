import BirakFormal.Gateway.Sftp

/-!
# The wire format of SFTP packets

Packets, strings and attribute blocks as they are written, and what reading them gives back. The
payloads of a session are read by the functions of the session's model.
-/

namespace BirakFormal

def maxPacketSize : Nat := 512 * 1024

def marshalUint32 (b : Bytes) (v : UInt32) : Bytes :=
  b ++ [(v >>> 24).toUInt8, (v >>> 16).toUInt8, (v >>> 8).toUInt8, v.toUInt8]

def marshalUint64 (b : Bytes) (v : UInt64) : Bytes :=
  b ++ [(v >>> 56).toUInt8, (v >>> 48).toUInt8, (v >>> 40).toUInt8, (v >>> 32).toUInt8,
    (v >>> 24).toUInt8, (v >>> 16).toUInt8, (v >>> 8).toUInt8, v.toUInt8]

def marshalString (b s : Bytes) : Bytes := marshalUint32 b (UInt32.ofNat s.length) ++ s

/-- What three writes that succeed leave in the stream. -/
def writePacket (pktType : UInt8) (data : Bytes) : Bytes :=
  marshalUint32 [] (UInt32.ofNat (1 + data.length)) ++ [pktType] ++ data

inductive PacketErr where
  | eof
  | unexpectedEOF
  | invalidLength (length : Nat)
  deriving DecidableEq, Repr

/-- The error of `io.ReadFull` at the end of a stream. -/
def shortRead (r : Bytes) : PacketErr := if r = [] then .eof else .unexpectedEOF

/-- The type and the payload of the next packet, and what is left in the stream. -/
def readPacket (r : Bytes) : Except PacketErr ((UInt8 × Bytes) × Bytes) :=
  match unmarshalUint32 r with
  | none => .error (shortRead r)
  | some (length, r) =>
    if length = 0 ∨ maxPacketSize < length then .error (.invalidLength length)
    else if r.length < length then .error (shortRead r)
    else match r.take length with
      | [] => .error (shortRead r)
      | pktType :: payload => .ok ((pktType, payload), r.drop length)

/-- `Size`, `Mode` and the seconds of `ModTime` of an `os.FileInfo`. -/
structure EntryStat where
  size : Int64
  mode : UInt32
  seconds : Int64
  deriving DecidableEq, Repr

def fileModeToSFTP (mode : UInt32) : UInt32 :=
  (if mode &&& 0x80000000 ≠ 0 then 0o40000 else 0o100000) ||| (mode &&& 0o777)

def sftpTime (sec : Int64) : UInt32 :=
  if sec < 0 then 0 else if 4294967295 < sec then 4294967295 else UInt32.ofNat sec.toInt.toNat

def marshalAttrs (b : Bytes) : Option EntryStat → Bytes
  | none => marshalUint32 b 0
  | some fi =>
    let b := marshalUint32 b 13
    let b := marshalUint64 b fi.size.toUInt64
    let b := marshalUint32 b (fileModeToSFTP fi.mode)
    marshalUint32 (marshalUint32 b (sftpTime fi.seconds)) (sftpTime fi.seconds)

theorem unmarshalUint32_marshal (v : UInt32) (rest : Bytes) :
    unmarshalUint32 (marshalUint32 [] v ++ rest) = some (v.toNat, rest) := by
  have hv := v.toNat_lt
  simp only [marshalUint32, unmarshalUint32, List.nil_append, List.cons_append, UInt32.toNat_toUInt8,
    UInt32.toNat_shiftRight, Option.some.injEq, Prod.mk.injEq, and_true, Nat.shiftRight_eq_div_pow, UInt32.reduceToNat,
    Nat.reduceMod, Nat.reducePow]
  omega

theorem unmarshalUint64_marshal (v : UInt64) (rest : Bytes) :
    unmarshalUint64 (marshalUint64 [] v ++ rest) = some (v, rest) := by
  have hv := v.toNat_lt
  simp only [marshalUint64, unmarshalUint64, unmarshalUint32, List.nil_append, List.cons_append, UInt64.toNat_toUInt8,
    UInt64.toNat_shiftRight, Option.some.injEq, Prod.mk.injEq, and_true, Nat.shiftRight_eq_div_pow, UInt64.reduceToNat,
    Nat.reduceMod, Nat.reducePow]
  rw [← UInt64.toNat_inj, UInt64.toNat_ofNat_of_lt' (by show _ < 18446744073709551616; omega)]
  omega

theorem readPacket_writePacket {pktType : UInt8} {data : Bytes} (h : 1 + data.length ≤ maxPacketSize) (more : Bytes) :
    readPacket (writePacket pktType data ++ more) = .ok ((pktType, data), more) := by
  have hmax : maxPacketSize = 524288 := rfl
  have hlength : (UInt32.ofNat (1 + data.length)).toNat = 1 + data.length :=
    UInt32.toNat_ofNat_of_lt' (by show _ < 4294967296; omega)
  unfold readPacket writePacket
  rw [List.append_assoc, List.append_assoc, unmarshalUint32_marshal, hlength]
  dsimp only
  rw [if_neg (by omega), if_neg (by simp; omega)]
  simp [Nat.add_comm 1]

theorem eq_marshalUint32 {n : Nat} {r rest : Bytes} (h : unmarshalUint32 r = some (n, rest)) :
    r = marshalUint32 [] (UInt32.ofNat n) ++ rest := by
  unfold unmarshalUint32 at h
  split at h
  · next a b c d _ =>
    have ha := a.toNat_lt
    have hb := b.toNat_lt
    have hc := c.toNat_lt
    have hd := d.toNat_lt
    cases h
    simp only [marshalUint32, List.nil_append, List.cons_append, List.cons.injEq, and_true, ← UInt8.toNat_inj,
      UInt32.toNat_toUInt8, UInt32.toNat_shiftRight, UInt32.toNat_ofNat', Nat.shiftRight_eq_div_pow,
      UInt32.reduceToNat, Nat.reduceMod, Nat.reducePow]
    omega
  · cases h

/-- A packet is accepted only as its writer writes it, so a stream has one reading. -/
theorem readPacket_ok_iff (pktType : UInt8) (data r more : Bytes) : readPacket r = .ok ((pktType, data), more) ↔
    1 + data.length ≤ maxPacketSize ∧ r = writePacket pktType data ++ more := by
  constructor
  · intro h
    unfold readPacket at h
    split at h
    · cases h
    · next length rest hlength =>
      split_ifs at h with hbad hshort
      split at h
      · cases h
      · next htake =>
        cases h
        have hle : 1 + data.length = length := by
          have hlen := congrArg List.length htake
          simp at hlen
          omega
        subst hle
        rw [eq_marshalUint32 hlength, writePacket]
        have hrest := List.take_append_drop (1 + data.length) rest
        rw [htake] at hrest
        exact ⟨by omega, by simpa using hrest.symm⟩
  · rintro ⟨hle, rfl⟩
    exact readPacket_writePacket hle more

theorem unmarshalString_marshal {s : Bytes} (h : s.length < 2 ^ 32) (rest : Bytes) :
    unmarshalString (marshalString [] s ++ rest) =
      if (s.length + rest.length) % 2 ^ 32 < s.length then none else some (s, rest) := by
  have hlength : (UInt32.ofNat s.length).toNat = s.length := UInt32.toNat_ofNat_of_lt' h
  unfold unmarshalString marshalString
  rw [List.append_assoc, unmarshalUint32_marshal, hlength]
  dsimp only
  rw [List.length_append, List.take_left, List.drop_left]

theorem parseAttrs_marshalAttrs (fi : EntryStat) (rest : Bytes) :
    parseAttrs (marshalAttrs [] (some fi) ++ rest) =
      some (⟨some fi.size.toUInt64, some (fileModeToSFTP fi.mode).toNat,
        some ((sftpTime fi.seconds).toNat, (sftpTime fi.seconds).toNat)⟩, rest) := by
  have hblock : marshalAttrs [] (some fi) ++ rest = marshalUint32 [] 13 ++ (marshalUint64 [] fi.size.toUInt64 ++
      (marshalUint32 [] (fileModeToSFTP fi.mode) ++ (marshalUint32 [] (sftpTime fi.seconds) ++
        (marshalUint32 [] (sftpTime fi.seconds) ++ rest)))) := by
    simp [marshalAttrs, marshalUint32, marshalUint64]
  have hflags : (13 : UInt32).toNat = 13 := rfl
  rw [hblock, parseAttrs, unmarshalUint32_marshal, hflags]
  simp [field, unmarshalTimes, unmarshalUint32_marshal, unmarshalUint64_marshal, Nat.testBit]

theorem toNat_sftpTime (sec : Int64) : ((sftpTime sec).toNat : Int) = max 0 (min sec.toInt 4294967295) := by
  unfold sftpTime
  split
  · next hneg =>
    have hneg : sec.toInt < 0 := Int64.lt_iff_toInt_lt.mp hneg
    rw [show (0 : UInt32).toNat = 0 from rfl]
    omega
  · next hneg =>
    have hneg : ¬ sec.toInt < 0 := fun h => hneg (Int64.lt_iff_toInt_lt.mpr h)
    split
    · next hlate =>
      have hlate : 4294967295 < sec.toInt := Int64.lt_iff_toInt_lt.mp hlate
      rw [show (4294967295 : UInt32).toNat = 4294967295 from rfl]
      omega
    · next hlate =>
      have hlate : ¬ 4294967295 < sec.toInt := fun h => hlate (Int64.lt_iff_toInt_lt.mpr h)
      rw [UInt32.toNat_ofNat_of_lt' (by show _ < 4294967296; omega)]
      omega

/-- A parser that reads `n` bytes, or fails where there are fewer. -/
def Reads {α : Type} (n : Nat) (parse : Bytes → Option (α × Bytes)) : Prop :=
  ∀ b, (parse b).map Prod.snd = (skip n b).map Prod.snd

theorem reads_unmarshalUint32 : Reads 4 unmarshalUint32
  | [] | [_] | [_, _] | [_, _, _] => rfl
  | _ :: _ :: _ :: _ :: _ => by simp [unmarshalUint32, skip]

theorem reads_unmarshalUint64 : Reads 8 unmarshalUint64
  | [] | [_] | [_, _] | [_, _, _] | [_, _, _, _] | [_, _, _, _, _] | [_, _, _, _, _, _] | [_, _, _, _, _, _, _] => rfl
  | _ :: _ :: _ :: _ :: _ :: _ :: _ :: _ :: _ => by simp [unmarshalUint64, unmarshalUint32, skip]

theorem reads_unmarshalTimes : Reads 8 unmarshalTimes
  | [] | [_] | [_, _] | [_, _, _] | [_, _, _, _] | [_, _, _, _, _] | [_, _, _, _, _, _] | [_, _, _, _, _, _, _] => rfl
  | _ :: _ :: _ :: _ :: _ :: _ :: _ :: _ :: _ => by simp [unmarshalTimes, unmarshalUint32, skip]

theorem Reads.field {α : Type} {n : Nat} {parse : Bytes → Option (α × Bytes)} (h : Reads n parse) (flag : Bool)
    (b : Bytes) : (field flag parse b).map Prod.snd = (field flag (skip n) b).map Prod.snd := by
  cases flag with
  | false => rfl
  | true => simpa [BirakFormal.field, Function.comp_def] using h b

theorem bind_eq_of_rest {α β γ δ : Type} {x : Option (α × Bytes)} {y : Option (β × Bytes)}
    (h : x.map Prod.snd = y.map Prod.snd) {f : α × Bytes → Option γ} {g : β × Bytes → Option δ} {k : γ → δ}
    (hfg : ∀ a c r, (f (a, r)).map k = g (c, r)) : (x.bind f).map k = y.bind g := by
  cases x with
  | none =>
    cases y with
    | none => rfl
    | some q => simp at h
  | some p =>
    cases y with
    | none => simp at h
    | some q =>
      obtain ⟨a, r⟩ := p
      obtain ⟨c, r'⟩ := q
      obtain rfl : r = r' := by simpa using h
      exact hfg a c r

theorem parseAttrs_rest (b : Bytes) : (parseAttrs b).map Prod.snd = unmarshalAttrs b := by
  have hskip : Reads 8 (skip 8) := fun _ => rfl
  unfold parseAttrs unmarshalAttrs
  cases unmarshalUint32 b with
  | none => rfl
  | some r =>
    refine bind_eq_of_rest (reads_unmarshalUint64.field _ _) fun _ _ _ => ?_
    refine bind_eq_of_rest (hskip.field _ _) fun _ _ _ => ?_
    refine bind_eq_of_rest (reads_unmarshalUint32.field _ _) fun _ _ _ => ?_
    refine bind_eq_of_rest (reads_unmarshalTimes.field _ _) fun _ _ _ => ?_
    rfl

end BirakFormal
