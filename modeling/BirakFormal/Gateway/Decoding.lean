import BirakFormal.Gateway.Streaming

/-!
# Decoding a whole body

The decoder of a body that is there at once, and the proof that the readers decode what it decodes, in
whatever pieces the body arrives and whatever buffers they are given.
-/

namespace BirakFormal

variable {k : Nat} {data : Bytes}

namespace BodySource

def content (b : BodySource) : Bytes := b.pieces.flatten

theorem content_eq_nil {b : BodySource} : b.content = [] ↔ b.pieces = [] := by
  constructor
  · intro h
    cases hp : b.pieces with
    | nil => rfl
    | cons piece pieces =>
      have hne := b.nonempty piece (hp ▸ List.mem_cons_self)
      simp only [content, hp, List.flatten_cons, List.append_eq_nil_iff] at h
      exact absurd h.1 hne
  · intro h
    rw [content, h, List.flatten_nil]

theorem read_eq_none {b : BodySource} : b.read k = none ↔ b.content = [] := by
  rw [content_eq_nil]
  obtain ⟨pieces, ending, nonempty⟩ := b
  cases pieces with
  | nil => exact ⟨fun _ => rfl, fun _ => rfl⟩
  | cons piece pieces =>
    simp only [read]
    split <;> simp

theorem read_some {b b' : BodySource} (h : b.read k = some (data, b')) :
    b.content = data ++ b'.content ∧ b'.ending = b.ending ∧ (0 < k → data ≠ []) ∧ data.length ≤ k := by
  obtain ⟨pieces, ending, nonempty⟩ := b
  cases pieces with
  | nil => cases h
  | cons piece pieces =>
    have hne := nonempty piece List.mem_cons_self
    simp only [read] at h
    split at h
    · next hdrop =>
      cases h
      exact ⟨by simp [content], rfl, fun _ => hne, List.drop_eq_nil_iff.mp hdrop⟩
    · cases h
      refine ⟨?_, rfl, ?_, List.length_take_le k piece⟩
      · simp only [content, List.flatten_cons]
        rw [← List.append_assoc, List.take_append_drop]
      · intro hk
        rw [Ne, List.take_eq_nil_iff, not_or]
        exact ⟨by omega, hne⟩

end BodySource

/-- The first line of a text, as a buffer of `chunkLineLimit` bytes has room for it. -/
def lineOf (s : Bytes) : LineEnd × Bytes × Bytes :=
  match Framing.cut 10 (s.take chunkLineLimit) with
  | some (line, _) => (.line, line ++ [10], s.drop (line.length + 1))
  | none => if chunkLineLimit ≤ s.length then (.full, [], []) else (.ended, s, [])

theorem lineOf_line {a rest : Bytes} (ha : (10 : UInt8) ∉ a) (hlen : a.length < chunkLineLimit) :
    lineOf (a ++ 10 :: rest) = (.line, a ++ [10], rest) := by
  have htake : (a ++ 10 :: rest).take chunkLineLimit = a ++ 10 :: rest.take (chunkLineLimit - a.length - 1) := by
    obtain ⟨n, hn⟩ : ∃ n, chunkLineLimit = a.length + (n + 1) := ⟨chunkLineLimit - a.length - 1, by omega⟩
    rw [hn, List.take_length_add_append, List.take_succ_cons]
    congr 3
    omega
  simp [lineOf, htake, Framing.cut_append ha]

theorem lineOf_full {a rest : Bytes} (ha : (10 : UInt8) ∉ a) (hlen : a.length = chunkLineLimit) :
    lineOf (a ++ rest) = (.full, [], []) := by
  have htake : (a ++ rest).take chunkLineLimit = a := by rw [← hlen, List.take_left]
  rw [lineOf, htake, Framing.cut_eq_none.mpr ha]
  simp [← hlen]

theorem lineOf_ended {s : Bytes} (hs : (10 : UInt8) ∉ s) (hlen : s.length < chunkLineLimit) :
    lineOf s = (.ended, s, []) := by
  rw [lineOf, List.take_of_length_le (by omega), Framing.cut_eq_none.mpr hs]
  simp [hlen]

theorem eq_of_lineOf {s line rest : Bytes} (h : lineOf s = (.line, line, rest)) :
    s = line ++ rest ∧ ∃ a, (10 : UInt8) ∉ a ∧ line = a ++ [10] := by
  unfold lineOf at h
  split at h
  · next a x hcut =>
    obtain ⟨ha, htake⟩ := Framing.eq_of_cut hcut
    cases h
    refine ⟨?_, a, ha, rfl⟩
    have hs : s = a ++ 10 :: (x ++ s.drop chunkLineLimit) := by
      rw [← List.cons_append, ← List.append_assoc, ← htake, List.take_append_drop]
    have hdrop : s.drop (a.length + 1) = x ++ s.drop chunkLineLimit := by
      conv_lhs => rw [hs]
      rw [List.drop_length_add_append, List.drop_succ_cons, List.drop_zero]
    rw [hdrop, List.append_assoc]
    exact hs
  · split at h <;> cases h

theorem ended_of_lineOf {s line rest : Bytes} (h : lineOf s = (.ended, line, rest)) :
    (10 : UInt8) ∉ s ∧ line = s ∧ rest = [] := by
  unfold lineOf at h
  split at h
  · cases h
  · next hcut =>
    split at h
    · cases h
    · cases h
      rw [List.take_of_length_le (by omega)] at hcut
      exact ⟨Framing.cut_eq_none.mp hcut, rfl, rfl⟩

structure BufReader.Holds (b : BufReader) (e : BodyEnd) (s : Bytes) : Prop where
  content : b.buf ++ b.src.content = s
  ending : b.src.ending = e
  bound : b.buf.length ≤ chunkLineLimit

namespace BufReader.Holds

variable {b b' : BufReader} {e : BodyEnd} {s : Bytes}

theorem fill_none (h : b.Holds e s) (hfill : b.fill = none) : s = b.buf := by
  unfold fill at hfill
  rw [Option.map_eq_none_iff, BodySource.read_eq_none] at hfill
  rw [← h.content, hfill, List.append_nil]

theorem fill_some (h : b.Holds e s) (hroom : b.buf.length < chunkLineLimit) (hfill : b.fill = some b') :
    b'.Holds e s ∧ b.buf.length < b'.buf.length := by
  unfold fill at hfill
  obtain ⟨⟨data, src⟩, hread, rfl⟩ := Option.map_eq_some_iff.mp hfill
  obtain ⟨hcontent, hending, hne, hlen⟩ := BodySource.read_some hread
  have hpos := List.length_pos_iff.mpr (hne (by omega))
  refine ⟨⟨?_, hending.trans h.ending, ?_⟩, ?_⟩
  · rw [List.append_assoc, ← hcontent, h.content]
  · show (b.buf ++ data).length ≤ chunkLineLimit
    rw [List.length_append]
    omega
  · show b.buf.length < (b.buf ++ data).length
    rw [List.length_append]
    omega

/-- What `ReadSlice` finds is the first line of what is before it. -/
theorem searchLine (fuel : Nat) (h : b.Holds e s) (hfuel : chunkLineLimit - b.buf.length < fuel) :
    (∃ line rest b', lineOf s = (.line, line, rest) ∧ b.searchLine fuel = (.line, line, b') ∧ b'.Holds e rest) ∨
      (∃ line b', lineOf s = (.full, [], []) ∧ b.searchLine fuel = (.full, line, b')) ∨
      ∃ b', lineOf s = (.ended, s, []) ∧ b.searchLine fuel = (.ended, s, b') ∧ b'.src.ending = e := by
  induction fuel generalizing b with
  | zero => omega
  | succ fuel ih =>
    have hbound := h.bound
    unfold BufReader.searchLine
    split
    · next line rest hcut =>
      obtain ⟨hline, hbuf⟩ := Framing.eq_of_cut hcut
      rw [hbuf, List.length_append, List.length_cons] at hbound
      have hs : s = line ++ 10 :: (rest ++ b.src.content) := by
        rw [← h.content, hbuf, List.append_assoc, List.cons_append]
      refine .inl ⟨_, _, _, hs ▸ lineOf_line hline (by omega), rfl, rfl, h.ending, ?_⟩
      show rest.length ≤ chunkLineLimit
      omega
    · next hcut =>
      have hno := Framing.cut_eq_none.mp hcut
      split
      · next hfull =>
        exact .inr (.inl ⟨_, _, h.content ▸ lineOf_full hno (by omega), rfl⟩)
      · next hroom =>
        cases hfill : b.fill with
        | none =>
          have hs := h.fill_none hfill
          subst hs
          exact .inr (.inr ⟨_, lineOf_ended hno (by omega), rfl, h.ending⟩)
        | some b' =>
          obtain ⟨h', hlt⟩ := h.fill_some (by omega) hfill
          exact ih h' (by omega)

theorem readSlice (h : b.Holds e s) :
    (∃ line rest b', lineOf s = (.line, line, rest) ∧ b.readSlice = (.line, line, b') ∧ b'.Holds e rest) ∨
      (∃ line b', lineOf s = (.full, [], []) ∧ b.readSlice = (.full, line, b')) ∨
      ∃ b', lineOf s = (.ended, s, []) ∧ b.readSlice = (.ended, s, b') ∧ b'.src.ending = e :=
  h.searchLine (chunkLineLimit + 1) (by omega)

theorem take_buf (h : b.Holds e s) (hk : 0 < k) (hne : b.buf ≠ []) :
    s = b.buf.take k ++ (b.buf.drop k ++ b.src.content) ∧ ({ b with buf := b.buf.drop k } : BufReader).Holds e
      (b.buf.drop k ++ b.src.content) ∧ b.buf.take k ≠ [] ∧ (b.buf.take k).length ≤ k := by
  have hbound := h.bound
  refine ⟨?_, ⟨rfl, h.ending, ?_⟩, ?_, List.length_take_le k _⟩
  · rw [← List.append_assoc, List.take_append_drop, h.content]
  · rw [List.length_drop]
    omega
  · rw [Ne, List.take_eq_nil_iff, not_or]
    exact ⟨by omega, hne⟩

theorem read (h : b.Holds e s) (hk : 0 < k) :
    s = [] ∧ b.read k = none ∨
      ∃ data rest b', s = data ++ rest ∧ b.read k = some (data, b') ∧ b'.Holds e rest ∧ data ≠ [] ∧ data.length ≤ k := by
  unfold BufReader.read
  split
  · next hne =>
    obtain ⟨hs, hrest, hdata, hlen⟩ := h.take_buf hk hne
    exact .inr ⟨_, _, _, hs, rfl, hrest, hdata, hlen⟩
  · next hnil =>
    have hbuf : b.buf = [] := not_not.mp hnil
    have hcontent : b.src.content = s := by rw [← h.content, hbuf, List.nil_append]
    split
    · cases hread : b.src.read k with
      | none => exact .inl ⟨hcontent ▸ BodySource.read_eq_none.mp hread, rfl⟩
      | some r =>
        obtain ⟨data, src⟩ := r
        obtain ⟨hs, hending, hne, hlen⟩ := BodySource.read_some hread
        exact .inr ⟨data, _, _, hcontent ▸ hs, rfl, ⟨rfl, hending.trans h.ending, Nat.zero_le _⟩, hne hk, hlen⟩
    · cases hfill : b.fill with
      | none => exact .inl ⟨hbuf ▸ h.fill_none hfill, rfl⟩
      | some b' =>
        have hroom : b.buf.length < chunkLineLimit := by rw [hbuf]; decide
        obtain ⟨h', hlt⟩ := h.fill_some hroom hfill
        have hne : b'.buf ≠ [] := List.length_pos_iff.mp (by omega)
        obtain ⟨hs, hrest, hdata, hlen⟩ := h'.take_buf hk hne
        exact .inr ⟨_, _, _, hs, rfl, hrest, hdata, hlen⟩

/-- `io.ReadFull` gives the bytes that are asked for, if there are so many. -/
theorem readFull (fuel n : Nat) (h : b.Holds e s) (hfuel : n ≤ fuel) :
    s.length < n ∧ b.readFull fuel n = none ∨
      ∃ b', n ≤ s.length ∧ b.readFull fuel n = some (s.take n, b') ∧ b'.Holds e (s.drop n) := by
  induction fuel generalizing b s n with
  | zero =>
    obtain rfl : n = 0 := by omega
    exact .inr ⟨b, Nat.zero_le _, rfl, h⟩
  | succ fuel ih =>
    cases n with
    | zero => exact .inr ⟨b, Nat.zero_le _, rfl, h⟩
    | succ n =>
      simp only [BufReader.readFull]
      rcases h.read (Nat.succ_pos n) with ⟨hs, hread⟩ | ⟨data, rest, b', hs, hread, h', hne, hlen⟩
      · rw [hread]
        exact .inl ⟨by rw [hs]; exact Nat.succ_pos n, rfl⟩
      · have hpos := List.length_pos_iff.mpr hne
        rw [hread]
        have hslen : s.length = data.length + rest.length := by rw [hs, List.length_append]
        have htake : s.take (n + 1) = data ++ rest.take (n + 1 - data.length) := by
          rw [hs, List.take_append, List.take_of_length_le (by omega)]
        have hdrop : s.drop (n + 1) = rest.drop (n + 1 - data.length) := by
          rw [hs, List.drop_append, List.drop_of_length_le (by omega), List.nil_append]
        rcases ih (n + 1 - data.length) h' (by omega) with ⟨hshort, hnone⟩ | ⟨b'', hlong, hsome, h''⟩
        · exact .inl ⟨by omega, by simp [hnone]⟩
        · exact .inr ⟨b'', by omega, by simp [hsome, htake], hdrop ▸ h''⟩

end BufReader.Holds

structure Decoded where
  data : Bytes
  ending : ReadEnd
  trailers : List (Bytes × Bytes)

def Decoded.stop (e : ReadEnd) : Decoded := ⟨[], e, []⟩

def Decoded.after (data : Bytes) (d : Decoded) : Decoded := { d with data := data ++ d.data }

@[simp] theorem Decoded.after_after (a b : Bytes) (d : Decoded) : (d.after b).after a = d.after (a ++ b) := by
  simp [Decoded.after]

@[simp] theorem Decoded.after_nil (d : Decoded) : d.after [] = d := rfl

section
variable (env : StreamEnv)

def verifySigner (signer : Option ChunkSigner) (sig : Bytes) : Option (Option ChunkSigner) :=
  match signer with
  | none => some none
  | some s => (s.verifyChunk env sig).map some

def hashData (signer : Option ChunkSigner) (data : Bytes) : Option ChunkSigner :=
  signer.map fun s => { s with hashed := s.hashed ++ data }

variable (f : ChunkFormat) (e : BodyEnd)

def decodeTrailers (signer : Option ChunkSigner) :
    Nat → Bytes → List (Bytes × Bytes) → Bool → Except StreamErr (List (Bytes × Bytes) × Bool)
  | 0, _, _, _ => .error .malformedTrailer
  | lines + 1, s, trailers, signed =>
    match lineOf s with
    | (.full, _, _) => .error .malformedTrailer
    | (.ended, line, _) => if e = .broken then .error .body else trailerLine env f signer line trailers signed
    | (.line, line, rest) =>
      match trailerLine env f signer line trailers signed with
      | .error err => .error err
      | .ok (trailers', signed') => decodeTrailers signer lines rest trailers' signed'

def decodeEnd (signer : Option ChunkSigner) (s : Bytes) : Decoded :=
  match decodeTrailers env f e signer maxTrailerLines s [] false with
  | .error err => .stop (.failed err)
  | .ok (trailers, signed) =>
    if f.signed ∧ f.trailing ∧ !signed then ⟨[], .failed .malformedTrailer, trailers⟩ else ⟨[], .eof, trailers⟩

def decodeClose (signer : Option ChunkSigner) (sig s : Bytes) (next : Option ChunkSigner → Bytes → Decoded) : Decoded :=
  if s.length < 2 then .stop (.failed (truncation e))
  else if s.take 2 ≠ [13, 10] then .stop (.failed .encoding)
  else match verifySigner env signer sig with
    | none => .stop (.failed .signature)
    | some signer' => next signer' (s.drop 2)

/-- An open chunk of which `left` bytes are still to come. -/
def decodeOpen (signer : Option ChunkSigner) (sig : Bytes) (left : Nat) (s : Bytes)
    (next : Option ChunkSigner → Bytes → Decoded) : Decoded :=
  if s.length < left then ⟨s, .failed (truncation e), []⟩
  else (decodeClose env e (hashData signer (s.take left)) sig (s.drop left) next).after (s.take left)

def decodeChunks : Nat → Bool → Option ChunkSigner → Bytes → Decoded
  | 0, _, _, _ => .stop (.failed .truncated)
  | fuel + 1, started, signer, s =>
    match lineOf s with
    | (.full, _, _) => .stop (.failed .encoding)
    | (.ended, line, _) =>
      if !started ∧ line = [] ∧ e = .eof ∧ f.emptyOK then .stop .eof else .stop (.failed (truncation e))
    | (.line, line, rest) =>
      match parseChunkLine f.signed line with
      | .error err => .stop (.failed err)
      | .ok (n, sig) =>
        if n = 0 then
          match verifySigner env signer sig with
          | none => .stop (.failed .signature)
          | some signer' => decodeEnd env f e signer' rest
        else decodeOpen env e signer sig n rest (decodeChunks fuel true)

variable {env e}

@[simp] theorem hashData_nil (signer : Option ChunkSigner) : hashData signer [] = signer := by
  cases signer with
  | none => rfl
  | some s => simp [hashData]

@[simp] theorem hashData_append (signer : Option ChunkSigner) (a b : Bytes) :
    hashData (hashData signer a) b = hashData signer (a ++ b) := by
  cases signer with
  | none => rfl
  | some s => simp [hashData]

theorem ChunkReader.verified_eq (c : ChunkReader) :
    c.verified env = (verifySigner env c.signer c.sig).map fun signer => { c with signer := signer } := by
  unfold ChunkReader.verified verifySigner
  obtain ⟨f, src, signer, started, left, isOpen, sig, trailers⟩ := c
  cases signer with
  | none => rfl
  | some s => simp [Function.comp_def]

theorem BufReader.Holds.trailerLines {b : BufReader} {s : Bytes} (h : b.Holds e s) (c : ChunkReader) (lines : Nat)
    (trailers : List (Bytes × Bytes)) (signed : Bool) :
    c.trailerLines env lines b trailers signed = decodeTrailers env c.toChunkFormat e c.signer lines s trailers signed := by
  induction lines generalizing b s trailers signed with
  | zero => rfl
  | succ lines ih =>
    unfold ChunkReader.trailerLines decodeTrailers
    rcases h.readSlice with ⟨line, rest, b', hs, hread, h'⟩ | ⟨line, b', hs, hread⟩ | ⟨b', hs, hread, hending⟩
    · rw [hs, hread]
      dsimp only
      cases trailerLine env c.toChunkFormat c.signer line trailers signed with
      | error err => rfl
      | ok r => exact ih h' r.1 r.2
    · rw [hs, hread]
    · rw [hs, hread]
      dsimp only
      rw [hending]

theorem ChunkReader.readTrailers_eq {c : ChunkReader} {s : Bytes} (h : c.src.Holds e s) :
    decodeEnd env c.toChunkFormat e c.signer s = ⟨[], (c.readTrailers env).1, (c.readTrailers env).2⟩ := by
  unfold decodeEnd ChunkReader.readTrailers
  rw [h.trailerLines]
  cases decodeTrailers env c.toChunkFormat e c.signer maxTrailerLines s [] false with
  | error err => rfl
  | ok r =>
    dsimp only
    split <;> rfl

namespace ChunkReader

def value (env : StreamEnv) (e : BodyEnd) (fuel : Nat) (c : ChunkReader) (s : Bytes) : Decoded :=
  if c.isOpen then decodeOpen env e c.signer c.sig c.left s (decodeChunks env c.toChunkFormat e fuel true)
  else decodeChunks env c.toChunkFormat e fuel c.started c.signer s

structure Holds (c : ChunkReader) (e : BodyEnd) (s : Bytes) : Prop where
  src : c.src.Holds e s
  closed : c.isOpen = false → c.left = 0
  started : c.isOpen = true → c.started = true

variable (env) {c c' : ChunkReader} {s : Bytes}

theorem Holds.openNext (h : c.Holds e s) (hclosed : c.isOpen = false) (fuel : Nat) :
    (∃ d, c.openNext env = .error (d.ending, d.trailers) ∧ c.value env e (fuel + 1) s = d ∧ d.data = []) ∨
      ∃ c' s', c.openNext env = .ok c' ∧ c'.Holds e s' ∧ c'.isOpen = true ∧ 0 < c'.left ∧ s'.length < s.length ∧
        c.value env e (fuel + 1) s = c'.value env e fuel s' := by
  have hvalue : c.value env e (fuel + 1) s = decodeChunks env c.toChunkFormat e (fuel + 1) c.started c.signer s := by
    rw [value, if_neg (by simp [hclosed])]
  rw [hvalue]
  unfold ChunkReader.openNext decodeChunks
  rcases h.src.readSlice with ⟨line, rest, b', hs, hread, h'⟩ | ⟨line, b', hs, hread⟩ | ⟨b', hs, hread, hending⟩
  · rw [hs, hread]
    dsimp only
    obtain ⟨hsplit, a, -, rfl⟩ := eq_of_lineOf hs
    cases hparse : parseChunkLine c.signed (a ++ [10]) with
    | error err => exact .inl ⟨_, rfl, rfl, rfl⟩
    | ok r =>
      obtain ⟨n, sig⟩ := r
      dsimp only
      by_cases hn : n = 0
      · rw [if_pos hn, if_pos hn, verified_eq]
        cases hv : verifySigner env c.signer sig with
        | none => exact .inl ⟨_, rfl, rfl, rfl⟩
        | some signer' =>
          refine .inl ⟨_, ?_, rfl, ?_⟩
          · exact congrArg (fun d : Decoded => Except.error (d.ending, d.trailers)) (readTrailers_eq
              (c := { c with src := b', started := true, sig := sig, signer := signer' }) h').symm
          · exact congrArg Decoded.data (readTrailers_eq
              (c := { c with src := b', started := true, sig := sig, signer := signer' }) h')
      · rw [if_neg hn, if_neg hn]
        refine .inr ⟨_, rest, rfl, ⟨h', nofun, fun _ => rfl⟩, rfl, Nat.pos_of_ne_zero hn, ?_, ?_⟩
        · rw [hsplit, List.length_append, List.length_append, List.length_singleton]
          omega
        · rfl
  · rw [hs, hread]
    exact .inl ⟨_, rfl, rfl, rfl⟩
  · rw [hs, hread]
    dsimp only
    rw [hending]
    split
    · exact .inl ⟨_, rfl, rfl, rfl⟩
    · exact .inl ⟨_, rfl, rfl, rfl⟩

theorem Holds.close (h : c.Holds e s) (hopen : c.isOpen = true) (hleft : c.left = 0) (fuel : Nat) :
    (∃ err, c.close env = .error err ∧ c.value env e fuel s = .stop (.failed err)) ∨
      ∃ c' s', c.close env = .ok c' ∧ c'.Holds e s' ∧ c'.isOpen = false ∧ s'.length ≤ s.length ∧
        c.value env e fuel s = c'.value env e fuel s' := by
  have hvalue : c.value env e fuel s =
      decodeClose env e c.signer c.sig s (decodeChunks env c.toChunkFormat e fuel true) := by
    rw [value, if_pos hopen, decodeOpen, hleft, if_neg (Nat.not_lt_zero _)]
    simp
  rw [hvalue]
  unfold ChunkReader.close decodeClose
  rcases h.src.readFull 2 2 (Nat.le_refl _) with ⟨hshort, hread⟩ | ⟨b', hlong, hread, h'⟩
  · rw [hread, if_pos hshort, h.src.ending]
    exact .inl ⟨_, rfl, rfl⟩
  · rw [hread, if_neg (by omega)]
    dsimp only
    by_cases hcrlf : s.take 2 ≠ [13, 10]
    · rw [if_pos hcrlf, if_pos hcrlf]
      exact .inl ⟨_, rfl, rfl⟩
    · rw [if_neg hcrlf, if_neg hcrlf, verified_eq]
      cases hv : verifySigner env c.signer c.sig with
      | none => exact .inl ⟨_, rfl, rfl⟩
      | some signer' =>
        refine .inr ⟨_, _, rfl, ⟨h', fun _ => hleft, nofun⟩, rfl, ?_, ?_⟩
        · rw [List.length_drop]
          omega
        · show decodeChunks env c.toChunkFormat e fuel true signer' (s.drop 2) = decodeChunks env _ e fuel c.started signer' _
          rw [h.started hopen]

theorem Holds.take (h : c.Holds e s) (hopen : c.isOpen = true) (hleft : 0 < c.left) (hk : 0 < k) (fuel : Nat) :
    (∃ err, c.take k = (([], some (.failed err)), c) ∧ c.value env e fuel s = .stop (.failed err)) ∨
      ∃ data c' s', c.take k = ((data, none), c') ∧ data ≠ [] ∧ c'.Holds e s' ∧ s'.length ≤ s.length ∧
        c.value env e fuel s = (c'.value env e fuel s').after data := by
  unfold ChunkReader.take
  rcases h.src.read (k := min k c.left) (by omega) with ⟨hs, hread⟩ | ⟨data, rest, b', hs, hread, h', hne, hlen⟩
  · rw [hread]
    refine .inl ⟨_, rfl, ?_⟩
    have hshort : s.length < c.left := by rw [hs]; exact hleft
    rw [value, if_pos hopen, decodeOpen, if_pos hshort, h.src.ending, hs]
    rfl
  · rw [hread]
    refine .inr ⟨data, _, rest, rfl, hne, ⟨h', ?_, ?_⟩, ?_, ?_⟩
    · intro hclosed
      exact absurd hopen (by simpa using hclosed)
    · exact h.started
    · rw [hs, List.length_append]
      omega
    · have hle : data.length ≤ c.left := by omega
      have hcond : (data ++ rest).length < c.left ↔ rest.length < c.left - data.length := by
        rw [List.length_append]
        omega
      have htake : (data ++ rest).take c.left = data ++ rest.take (c.left - data.length) := by
        rw [List.take_append, List.take_of_length_le hle]
      have hdrop : (data ++ rest).drop c.left = rest.drop (c.left - data.length) := by
        rw [List.drop_append, List.drop_of_length_le hle, List.nil_append]
      simp only [value, hopen, if_true, decodeOpen, hs, hcond]
      split
      · rfl
      · rw [htake, hdrop, Decoded.after_after, ← hashData_append]
        rfl

def Gives (env : StreamEnv) (e : BodyEnd) (d : Decoded) (r : (Bytes × Option ReadEnd) × ChunkReader) : Prop :=
  r.1 = ([], some d.ending) ∧ d.data = [] ∧ (d.ending = .eof → r.2.trailers = d.trailers) ∨
    ∃ s fuel, r.1.2 = none ∧ r.1.1 ≠ [] ∧ r.2.Holds e s ∧ s.length < fuel ∧ d = (r.2.value env e fuel s).after r.1.1

variable {k fuel : Nat}

theorem Holds.take_gives (h : c.Holds e s) (hopen : c.isOpen = true) (hleft : 0 < c.left) (hk : 0 < k)
    (hfuel : s.length < fuel) : Gives env e (c.value env e fuel s) (c.take k) := by
  rcases h.take env hopen hleft hk fuel with ⟨err, htake, hvalue⟩ | ⟨data, c', s', htake, hne, h', hle, hvalue⟩
  · rw [hvalue, htake]
    exact .inl ⟨rfl, rfl, nofun⟩
  · rw [htake]
    exact .inr ⟨s', fuel, rfl, hne, h', by omega, hvalue⟩

theorem Holds.openNext_gives (h : c'.Holds e s) (hclosed : c'.isOpen = false) (hleft : c.left = 0) (hk : 0 < k)
    (hnext : c.next env = c'.openNext env) (hfuel : s.length < fuel) :
    Gives env e (c'.value env e fuel s) (c.read env k) := by
  obtain ⟨fuel, rfl⟩ : ∃ n, fuel = n + 1 := ⟨fuel - 1, by omega⟩
  rw [ChunkReader.read, if_neg (by omega), if_pos hleft, hnext]
  rcases h.openNext env hclosed fuel with ⟨d, herr, hd, hdata⟩ | ⟨c₂, s₂, hok, h₂, hopen, hpos, hlt, hval⟩
  · rw [herr, hd]
    exact .inl ⟨rfl, hdata, fun _ => rfl⟩
  · rw [hok, hval]
    exact h₂.take_gives env hopen hpos hk (by omega)

theorem Holds.read_gives (h : c.Holds e s) (hk : 0 < k) (hfuel : s.length < fuel) :
    Gives env e (c.value env e fuel s) (c.read env k) := by
  cases hopen : c.isOpen with
  | false =>
    apply h.openNext_gives env hopen (h.closed hopen) hk _ hfuel
    rw [ChunkReader.next, if_neg (by simp [hopen])]
  | true =>
    by_cases hleft : c.left = 0
    · rcases h.close env hopen hleft fuel with ⟨err, hclose, hvalue⟩ | ⟨c', s', hclose, h', hclosed, hle, hvalue⟩
      · rw [ChunkReader.read, if_neg (by omega), if_pos hleft, ChunkReader.next, if_pos hopen, hclose, hvalue]
        exact .inl ⟨rfl, rfl, nofun⟩
      · rw [hvalue]
        apply h'.openNext_gives env hclosed hleft hk _ (by omega)
        rw [ChunkReader.next, if_pos hopen, hclose]
    · rw [ChunkReader.read, if_neg (by omega), if_neg hleft]
      exact h.take_gives env hopen (by omega) hk hfuel

end ChunkReader

end

namespace Payload

variable {env : StreamEnv} {p q : Payload} {d d' : Decoded}

def Holds (env : StreamEnv) (p : Payload) (d : Decoded) : Prop :=
  match p.chunks with
  | some c => ∃ e s fuel, c.Holds e s ∧ s.length < fuel ∧ d = c.value env e fuel s
  | none => d = ⟨p.body.content, if p.body.ending = .eof then .eof else .failed .body, []⟩

structure Alike (p q : Payload) : Prop where
  length : q.length = p.length
  n : q.n = p.n
  sum : q.sum = p.sum
  hashed : q.hashed = p.hashed

def overruns (p : Payload) (d : Decoded) : Bool := p.length.any (· < ((p.n + d.data.length : Nat) : Int))

def count (p : Payload) (data : Bytes) : Payload := { p with n := p.n + data.length, hashed := p.hashed ++ data }

def verdict (env : StreamEnv) (p : Payload) (d : Decoded) : ReadEnd :=
  if p.overruns d then .failed .decodedLength
  else match d.ending with
    | .eof => (p.count d.data).finish env d.trailers
    | ending => ending

theorem Alike.finish (h : p.Alike q) (trailers : List (Bytes × Bytes)) : q.finish env trailers = p.finish env trailers := by
  unfold Payload.finish
  rw [h.length, h.n, h.sum, h.hashed]

theorem Alike.count (h : p.Alike q) (data : Bytes) : (p.count data).Alike (q.count data) :=
  ⟨h.length, by simp [Payload.count, h.n], h.sum, by simp [Payload.count, h.hashed]⟩

theorem Alike.overruns (h : p.Alike q) : q.overruns d = p.overruns d := by
  unfold Payload.overruns
  rw [h.length, h.n]

theorem Alike.verdict (h : p.Alike q) : q.verdict env d = p.verdict env d := by
  unfold Payload.verdict
  rw [h.overruns, (h.count d.data).finish]

theorem overruns_count (data : Bytes) : (p.count data).overruns d = p.overruns (d.after data) := by
  simp only [overruns, count, Decoded.after, List.length_append, Nat.add_assoc]

theorem verdict_count (data : Bytes) : (p.count data).verdict env d = p.verdict env (d.after data) := by
  unfold verdict
  rw [overruns_count]
  have hcount : (p.count data).count d.data = p.count (d.after data).data := by
    simp [count, Decoded.after, Nat.add_assoc]
  rw [hcount]
  rfl

theorem Holds.read (k : Nat) (h : p.Holds env d) :
    (∃ q trailers, d.data = [] ∧ p.Alike q ∧ (d.ending = .eof → trailers = d.trailers) ∧
        p.read env k = q.receive env [] (some d.ending) trailers) ∨
      ∃ data d' q trailers, (0 < k → data ≠ []) ∧ d = d'.after data ∧ p.Alike q ∧ q.Holds env d' ∧
        p.read env k = q.receive env data none trailers := by
  unfold Holds at h
  unfold Payload.read
  cases hchunks : p.chunks with
  | some c =>
    rw [hchunks] at h
    obtain ⟨e, s, fuel, hc, hfuel, rfl⟩ := h
    dsimp only
    by_cases hk : k = 0
    · rw [ChunkReader.read, if_pos hk]
      exact .inr ⟨[], c.value env e fuel s, { p with chunks := some c }, _, fun hpos => absurd hk (by omega), rfl,
        ⟨rfl, rfl, rfl, rfl⟩, ⟨e, s, fuel, hc, hfuel, rfl⟩, rfl⟩
    rcases hc.read_gives env (Nat.pos_of_ne_zero hk) hfuel with ⟨hr, hdata, htrailers⟩ | ⟨s', fuel', hnone, hne, hc', hfuel', hvalue⟩
    · rw [hr]
      exact .inl ⟨{ p with chunks := some (c.read env k).2 }, _, hdata, ⟨rfl, rfl, rfl, rfl⟩, htrailers, rfl⟩
    · rw [hnone]
      exact .inr ⟨_, _, { p with chunks := some (c.read env k).2 }, _, fun _ => hne, hvalue, ⟨rfl, rfl, rfl, rfl⟩,
        ⟨e, s', fuel', hc', hfuel', rfl⟩, rfl⟩
  | none =>
    rw [hchunks] at h
    subst h
    dsimp only
    cases hread : p.body.read k with
    | none =>
      have hnil := BodySource.read_eq_none.mp hread
      exact .inl ⟨p, [], hnil, ⟨rfl, rfl, rfl, rfl⟩, fun _ => rfl, rfl⟩
    | some r =>
      obtain ⟨data, body⟩ := r
      obtain ⟨hcontent, hending, hne, -⟩ := BodySource.read_some hread
      refine .inr ⟨data, ⟨body.content, if body.ending = .eof then .eof else .failed .body, []⟩,
        { p with chunks := none, body := body }, [], hne, ?_, ⟨rfl, rfl, rfl, rfl⟩, rfl, rfl⟩
      rw [hcontent, hending]
      rfl

variable {trailers : List (Bytes × Bytes)}

theorem receive_over {ending : Option ReadEnd} (h : q.length.any (· < ((q.n + data.length : Nat) : Int)) = true) :
    q.receive env data ending trailers = (([], some (.failed .decodedLength)), q.count data) := by
  unfold receive
  exact if_pos h

theorem receive_more (h : q.length.any (· < ((q.n + data.length : Nat) : Int)) = false) :
    q.receive env data none trailers = ((data, none), q.count data) := by
  unfold receive
  exact if_neg (Bool.eq_false_iff.mp h)

theorem receive_ended (env : StreamEnv) (h : q.length.any (· < (q.n : Int)) = false)
    (hdata : d.data = []) (htrailers : d.ending = .eof → trailers = d.trailers) :
    (q.receive env [] (some d.ending) trailers).1 = ([], some (q.verdict env d)) := by
  have hover : q.overruns d = false := by
    rw [overruns, hdata]
    exact h
  have hnot : ¬ q.length.any (· < ((q.n + ([] : Bytes).length : Nat) : Int)) = true := Bool.eq_false_iff.mp h
  rw [verdict, if_neg (Bool.eq_false_iff.mp hover), hdata]
  cases hending : d.ending with
  | failed err => exact congrArg Prod.fst (if_neg hnot)
  | eof =>
    rw [htrailers hending]
    exact congrArg Prod.fst (if_neg hnot)

theorem Holds.readAll (ks : List Nat) (h : p.Holds env d) (hn : p.length.any (· < (p.n : Int)) = false) :
    (∃ out, p.readAll env ks = (out, none) ∧ out <+: d.data ∧ (ks.filter (0 < ·)).length ≤ out.length) ∨
      ∃ out, p.readAll env ks = (out, some (p.verdict env d)) ∧ out <+: d.data ∧ (p.overruns d = false → out = d.data) := by
  induction ks generalizing p d with
  | nil => exact .inl ⟨[], rfl, List.nil_prefix, Nat.le_refl _⟩
  | cons k ks ih =>
    rcases h.read k with
      ⟨q, trailers, hdata, halike, htrailers, hread⟩ | ⟨data, d', q, trailers, hne, rfl, halike, hq, hread⟩
    · -- nothing is left
      rw [← halike.length, ← halike.n] at hn
      have hend := receive_ended env hn hdata htrailers
      rw [halike.verdict] at hend
      refine .inr ⟨[], ?_, List.nil_prefix, fun _ => hdata.symm⟩
      rw [Payload.readAll, hread]
      revert hend
      generalize q.receive env [] (some d.ending) trailers = r
      obtain ⟨r, q'⟩ := r
      rintro rfl
      rfl
    · rw [← halike.verdict, ← halike.overruns, Payload.readAll, hread]
      cases hover : q.length.any (· < ((q.n + data.length : Nat) : Int)) with
      | true =>
        -- more than was declared
        have hoverruns : q.overruns (d'.after data) = true := by
          obtain ⟨m, hm, hlt⟩ := Option.any_eq_true _ _ |>.mp hover
          rw [overruns, hm]
          simp only [Option.any_some, decide_eq_true_eq, Decoded.after, List.length_append] at hlt ⊢
          omega
        rw [receive_over hover, verdict, hoverruns]
        exact .inr ⟨[], rfl, List.nil_prefix, nofun⟩
      | false =>
        rw [receive_more hover]
        have hmore := ih (show (q.count data).Holds env d' from hq) hover
        rw [verdict_count, overruns_count] at hmore
        rcases hmore with ⟨out, hrun, hbegins, hle⟩ | ⟨out, hrun, hbegins, hall⟩
        · refine .inl ⟨data ++ out, ?_, (List.prefix_append_right_inj data).mpr hbegins, ?_⟩
          · simp only [hrun]
          · rw [List.length_append, List.filter_cons]
            split
            · next hk =>
              have hpos := List.length_pos_iff.mpr (hne (of_decide_eq_true hk))
              rw [List.length_cons]
              omega
            · omega
        · refine .inr ⟨data ++ out, ?_, (List.prefix_append_right_inj data).mpr hbegins, fun hno => ?_⟩
          · simp only [hrun]
          · rw [hall hno]
            rfl

end Payload

section
variable {env : StreamEnv} {cfg : StreamConfig} {r : StreamRequest} {b b' : BodySource} {p : Payload} {c : ChunkReader}

structure ChunkReader.Fresh (c : ChunkReader) (b : BodySource) : Prop where
  src : c.src = ⟨[], b⟩
  isOpen : c.isOpen = false
  left : c.left = 0
  started : c.started = false

theorem chunkReaderFor_some (h : chunkReaderFor env cfg r b = .ok (some c)) :
    c.Fresh b ∧ ∀ s, c.signer = some s → c.signed = true ∧ (cfg.accessKey ≠ [] ∨ cfg.secretKey ≠ []) ∧
      c.trailing = decide (trimSpaceBytes (r.headerGet "X-Amz-Content-Sha256") = streamingSignedPayloadTrailer) ∧
      streamingSigner env r.toWireRequest cfg.secretKey = some s := by
  unfold chunkReaderFor at h
  dsimp only at h
  split at h
  · split at h
    · next hkeys =>
      split at h
      · cases h
      · next s hs =>
        cases h
        refine ⟨⟨rfl, rfl, rfl, rfl⟩, fun s' hs' => ⟨rfl, hkeys, rfl, ?_⟩⟩
        cases hs'
        exact hs
    · cases h
      exact ⟨⟨rfl, rfl, rfl, rfl⟩, nofun⟩
  · split at h
    · cases h
      exact ⟨⟨rfl, rfl, rfl, rfl⟩, nofun⟩
    · split at h <;> cases h

theorem decodedLength_nonneg {n : Int} (h : decodedLength cfg r = .ok (some n)) : 0 ≤ n := by
  unfold decodedLength at h
  dsimp only at h
  split at h
  · cases h
  · split at h
    · cases h
    · split at h
      · cases h
      · split at h
        · cases h
        · cases h
          omega

theorem newPayload_cases (h : newPayload env cfg r b = .ok p) :
    (chunkReaderFor env cfg r b = .ok none ∧ ∃ sum, declaredChecksum env r false = .ok sum ∧
        p = { body := b, chunks := none, sum := sum }) ∨
      ∃ c length sum, chunkReaderFor env cfg r b = .ok (some c) ∧ decodedLength cfg r = .ok length ∧
        declaredChecksum env r c.trailing = .ok sum ∧
        p = { body := b, length := length, sum := sum, chunks := some { c with
          emptyOK := length = some 0 && (c.signer.isNone || r.signsLength env)
          declared := (sum.filter Checksum.trailing).elim [] Checksum.name } } := by
  unfold newPayload at h
  cases hreader : chunkReaderFor env cfg r b with
  | error err => rw [hreader] at h; cases h
  | ok reader =>
    rw [hreader] at h
    cases reader with
    | none =>
      cases hsum : declaredChecksum env r false with
      | error err => simp [hsum, bind, Except.bind] at h
      | ok sum =>
        simp only [hsum, bind, Except.bind, pure, Except.pure, Except.ok.injEq] at h
        exact .inl ⟨rfl, sum, rfl, h.symm⟩
    | some c =>
      cases hlength : decodedLength cfg r with
      | error err => simp [hlength, bind, Except.bind] at h
      | ok length =>
        cases hsum : declaredChecksum env r c.trailing with
        | error err => simp [hlength, hsum, bind, Except.bind] at h
        | ok sum =>
          simp only [hlength, hsum, bind, Except.bind, pure, Except.pure, Except.ok.injEq] at h
          exact .inr ⟨c, length, sum, rfl, rfl, hsum, h.symm⟩

def Payload.whole (env : StreamEnv) (p : Payload) : Decoded :=
  match p.chunks with
  | some c => c.value env p.body.ending (p.body.content.length + 1) p.body.content
  | none => ⟨p.body.content, if p.body.ending = .eof then .eof else .failed .body, []⟩

theorem newPayload_holds (h : newPayload env cfg r b = .ok p) :
    p.Holds env (p.whole env) ∧ p.length.any (· < (p.n : Int)) = false := by
  rcases newPayload_cases h with ⟨-, sum, -, rfl⟩ | ⟨c, length, sum, hreader, hlength, -, rfl⟩
  · exact ⟨rfl, rfl⟩
  · have hfresh := (chunkReaderFor_some hreader).1
    have hclosed := hfresh.isOpen
    refine ⟨⟨b.ending, b.content, _, ⟨?_, fun _ => hfresh.left, ?_⟩, Nat.lt_succ_self _, rfl⟩, ?_⟩
    · show c.src.Holds b.ending b.content
      rw [hfresh.src]
      exact ⟨rfl, rfl, Nat.zero_le _⟩
    · intro hopen
      rw [show c.isOpen = true from hopen] at hclosed
      cases hclosed
    · cases length with
      | none => rfl
      | some n =>
        have hn := decodedLength_nonneg hlength
        simpa using hn

def Payload.rebody (b : BodySource) (p : Payload) : Payload :=
  { p with body := b, chunks := p.chunks.map fun c => { c with src := ⟨[], b⟩ } }

theorem chunkReaderFor_rebody : chunkReaderFor env cfg r b' =
    (chunkReaderFor env cfg r b).map (Option.map fun c => { c with src := ⟨[], b'⟩ }) := by
  unfold chunkReaderFor
  dsimp only
  split
  · split
    · split <;> rfl
    · rfl
  · split
    · rfl
    · split <;> rfl

theorem newPayload_rebody (b' : BodySource) (h : newPayload env cfg r b = .ok p) : newPayload env cfg r b' = .ok (p.rebody b') := by
  unfold newPayload
  rcases newPayload_cases h with ⟨hreader, sum, hsum, rfl⟩ | ⟨c, length, sum, hreader, hlength, hsum, rfl⟩
  · rw [chunkReaderFor_rebody, hreader]
    simp only [Except.map, Option.map, bind, Except.bind, hsum, pure, Except.pure]
    rfl
  · rw [chunkReaderFor_rebody, hreader]
    simp only [Except.map, Option.map, bind, Except.bind, hlength, hsum, pure, Except.pure]
    rfl

theorem whole_rebody (h : newPayload env cfg r b = .ok p) (hcontent : b'.content = b.content) (hending : b'.ending = b.ending) :
    (p.rebody b').whole env = p.whole env := by
  rcases newPayload_cases h with ⟨-, sum, -, rfl⟩ | ⟨c, length, sum, -, -, -, rfl⟩
  · simp [Payload.rebody, Payload.whole, hcontent, hending]
  · simp only [Payload.rebody, Payload.whole, hcontent, hending, Option.map]
    rfl

end

def plainStreamEnv : StreamEnv where
  toSigEnv := plainSigEnv
  toUpper := id
  equalFold := (· == ·)
  decodeBase64 := some
  checksum _ data := data

def openConfig : StreamConfig := ⟨[], [], 0⟩

def chunkedHeader (key : Bytes) : List Bytes :=
  if key = ascii "X-Amz-Content-Sha256" then [streamingUnsignedPayloadTrailer] else []

theorem put_line : (10 : UInt8) ∉ ascii "PUT" := by decide

theorem k_line : (10 : UInt8) ∉ ascii "/k" := by decide

def chunkedRequest : StreamRequest where
  method := ascii "PUT"
  escapedPath := ascii "/k"
  query := ⟨[], List.nodup_nil⟩
  header := chunkedHeader
  host := ascii "h"
  contentLength := -1
  method_line := put_line
  path_line := k_line
  header_line key v hv := by
    unfold chunkedHeader at hv
    split at hv
    · rw [List.mem_singleton.mp hv]
      decide +kernel
    · cases hv
  keys := [ascii "X-Amz-Content-Sha256"]

def chunkedBody : Bytes := ascii "1\r\na\r\n0\r\n\r\n"

def inOnePiece : BodySource := ⟨[chunkedBody], .eof, by decide +kernel⟩

def inBytes : BodySource := ⟨chunkedBody.map fun c => [c], .eof, by decide +kernel⟩

def chunkedPayload (b : BodySource) : Payload :=
  { body := b, chunks := some { src := ⟨[], b⟩, signed := false, signer := none, trailing := true } }

theorem newPayload_chunked (b : BodySource) :
    newPayload plainStreamEnv openConfig chunkedRequest b = .ok (chunkedPayload b) := by
  have hreader : chunkReaderFor plainStreamEnv openConfig chunkedRequest b =
      .ok (some { src := ⟨[], b⟩, signed := false, signer := none, trailing := true }) := by
    unfold chunkReaderFor
    dsimp only
    rw [if_neg (by decide +kernel), if_pos (by decide +kernel)]
  have hlength : decodedLength openConfig chunkedRequest = .ok none := by decide +kernel
  have hsum : declaredChecksum plainStreamEnv chunkedRequest true = .ok none := by decide +kernel
  unfold newPayload
  rw [hreader]
  simp only [bind, Except.bind, hlength, hsum, pure, Except.pure]
  rfl

end BirakFormal
