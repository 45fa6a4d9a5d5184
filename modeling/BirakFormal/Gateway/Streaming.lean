import BirakFormal.Gateway.Signature

/-!
# Streaming payloads

The body of a streaming request is a sequence of chunks, each signed over the signature before it. Three
readers stand over each other: the body, which comes in pieces as the network has them, the decoder of the
chunks with a buffer of its own, and the payload that counts and hashes what is decoded. Data is handed out
before the signature of its chunk is checked, so that only the end of the body says whether all of it was
genuine.
-/

namespace BirakFormal

inductive ChecksumAlgorithm where
  | crc32
  | crc32c
  | crc64nvme
  | sha1
  | sha256
  deriving DecidableEq, Repr

/-- `checksumAlgorithms`, by the header that carries the value. -/
def checksumAlgorithms : List (Bytes × ChecksumAlgorithm) :=
  [(ascii "x-amz-checksum-crc32", .crc32), (ascii "x-amz-checksum-crc32c", .crc32c),
    (ascii "x-amz-checksum-crc64nvme", .crc64nvme), (ascii "x-amz-checksum-sha1", .sha1),
    (ascii "x-amz-checksum-sha256", .sha256)]

def ChecksumAlgorithm.size : ChecksumAlgorithm → Nat
  | .crc32 | .crc32c => 4
  | .crc64nvme => 8
  | .sha1 => 20
  | .sha256 => 32

def checksumParameters : List Bytes :=
  [ascii "x-amz-checksum-algorithm", ascii "x-amz-checksum-type", ascii "x-amz-checksum-mode"]

structure StreamEnv extends SigEnv where
  toUpper : Bytes → Bytes
  equalFold : Bytes → Bytes → Bool
  decodeBase64 : Bytes → Option Bytes
  checksum : ChecksumAlgorithm → Bytes → Bytes

/-- A request with the names of its headers, in the order a walk over the map takes. -/
structure StreamRequest extends WireRequest where
  keys : List Bytes

structure StreamConfig where
  accessKey : Bytes
  secretKey : Bytes
  maxUploadBytes : Int

def streamingSignedPayload : Bytes := ascii "STREAMING-AWS4-HMAC-SHA256-PAYLOAD"

def streamingSignedPayloadTrailer : Bytes := ascii "STREAMING-AWS4-HMAC-SHA256-PAYLOAD-TRAILER"

def streamingUnsignedPayloadTrailer : Bytes := ascii "STREAMING-UNSIGNED-PAYLOAD-TRAILER"

def chunkSignatureAlgorithm : Bytes := ascii "AWS4-HMAC-SHA256-PAYLOAD"

def trailerSignatureAlgorithm : Bytes := ascii "AWS4-HMAC-SHA256-TRAILER"

def trailerSignatureHeader : Bytes := ascii "x-amz-trailer-signature"

def emptySHA256 : Bytes := ascii "e3b0c44298fc1c149afbf4c8996fb92427ae41e4649b934ca495991b7852b855"

def chunkLineLimit : Nat := 4096

def maxTrailerLines : Nat := 32

inductive StreamErr where
  | variant
  | signature
  | encoding
  | truncated
  | decodedLength
  | malformedTrailer
  | unsignedRequest
  | invalidLength
  | tooLarge
  | unsupportedChecksum (name : Bytes)
  | invalidChecksum (name : Bytes)
  | trailerNotAllowed
  | unsupportedTrailer (name : Bytes)
  | manyChecksums
  | invalidTrailer (name : Bytes)
  | badDigest (name : Bytes)
  | body
  deriving DecidableEq, Repr

inductive ReadEnd where
  | eof
  | failed (e : StreamErr)
  deriving DecidableEq, Repr

def streamingBody (env : StreamEnv) (r : WireRequest) : Bool :=
  ((r.header (ascii "Content-Encoding")).any fun value =>
    (value.splitOn 44).any fun encoding => env.equalFold (trimSpaceBytes encoding) (ascii "aws-chunked")) ||
  (r.header (ascii "X-Amz-Content-Sha256")).any fun value =>
    (ascii "STREAMING-").isPrefixOf (env.toUpper (trimSpaceBytes value))

/-- `hashed` is what the open chunk has written to its digest. -/
structure ChunkSigner where
  key : Bytes
  amzDate : Bytes
  scope : Bytes
  prev : Bytes
  hashed : Bytes
  deriving DecidableEq, Repr

variable (env : StreamEnv)

def streamingSigner (r : WireRequest) (secretKey : Bytes) : Option ChunkSigner :=
  if !sigV4Algorithm.isPrefixOf (r.headerGet "Authorization") then none
  else match parseCredential (r.authParam "Credential") with
    | none => none
    | some cred =>
      let seed := r.authParam "Signature"
      let amzDate := r.headerGet "X-Amz-Date"
      if seed = [] ∨ amzDate = [] then none
      else some ⟨deriveSigningKey env.toSigEnv secretKey cred.date cred.region cred.service, amzDate, cred.scope, seed, []⟩

namespace ChunkSigner

variable (s : ChunkSigner)

def text (algorithm digest : Bytes) : Bytes :=
  algorithm ++ 10 :: (s.amzDate ++ 10 :: (s.scope ++ 10 :: (s.prev ++ 10 :: digest)))

def verify (sig algorithm digest : Bytes) : Option ChunkSigner :=
  if hexBytes (env.hmacSHA256 s.key (s.text algorithm digest)) = sig then some { s with prev := sig, hashed := [] } else none

def chunkDigest (data : Bytes) : Bytes := emptySHA256 ++ 10 :: hexBytes (env.sha256 data)

def verifyChunk (sig : Bytes) : Option ChunkSigner := s.verify env sig chunkSignatureAlgorithm (chunkDigest env s.hashed)

def verifyTrailer (canonical sig : Bytes) : Option ChunkSigner :=
  s.verify env sig trailerSignatureAlgorithm (hexBytes (env.sha256 canonical))

end ChunkSigner

inductive BodyEnd where
  | eof
  | broken
  deriving DecidableEq, Repr

structure BodySource where
  pieces : List Bytes
  ending : BodyEnd
  nonempty : ∀ piece ∈ pieces, piece ≠ []

/-- `Read` of the body: the end, or as much of a piece as the buffer holds. -/
def BodySource.read (k : Nat) (b : BodySource) : Option (Bytes × BodySource) :=
  match b with
  | ⟨[], _, _⟩ => none
  | ⟨piece :: pieces, ending, nonempty⟩ =>
    if h : piece.drop k = [] then some (piece, ⟨pieces, ending, fun _ hmem => nonempty _ (List.mem_cons_of_mem _ hmem)⟩)
    else some (piece.take k, ⟨piece.drop k :: pieces, ending, fun x hmem => by
      rcases List.mem_cons.mp hmem with rfl | hmem
      · exact h
      · exact nonempty x (List.mem_cons_of_mem _ hmem)⟩)

/-- `bufio.Reader`, with a buffer of `chunkLineLimit` bytes. -/
structure BufReader where
  buf : Bytes
  src : BodySource

inductive LineEnd where
  | line
  | full
  | ended
  deriving DecidableEq, Repr

namespace BufReader

def fill (b : BufReader) : Option BufReader :=
  (b.src.read (chunkLineLimit - b.buf.length)).map fun r => ⟨b.buf ++ r.1, r.2⟩

/-- The loop of `ReadSlice` up to a line break. Every pass adds to the buffer. -/
def searchLine : Nat → BufReader → LineEnd × Bytes × BufReader
  | 0, b => (.full, b.buf, { b with buf := [] })
  | fuel + 1, b =>
    match Framing.cut 10 b.buf with
    | some (line, rest) => (.line, line ++ [10], { b with buf := rest })
    | none =>
      if chunkLineLimit ≤ b.buf.length then (.full, b.buf, { b with buf := [] })
      else match b.fill with
        | none => (.ended, b.buf, { b with buf := [] })
        | some b' => searchLine fuel b'

def readSlice (b : BufReader) : LineEnd × Bytes × BufReader := b.searchLine (chunkLineLimit + 1)

/-- `Read`: from the buffer, past it if it is empty and the caller's is as large, or after one read
into it. -/
def read (k : Nat) (b : BufReader) : Option (Bytes × BufReader) :=
  if b.buf ≠ [] then some (b.buf.take k, { b with buf := b.buf.drop k })
  else if chunkLineLimit ≤ k then (b.src.read k).map fun r => (r.1, ⟨[], r.2⟩)
  else b.fill.map fun b' => (b'.buf.take k, { b' with buf := b'.buf.drop k })

/-- `io.ReadFull`, in at most `fuel` reads. -/
def readFull : Nat → Nat → BufReader → Option (Bytes × BufReader)
  | _, 0, b => some ([], b)
  | 0, _ + 1, _ => none
  | fuel + 1, n + 1, b =>
    match b.read (n + 1) with
    | none => none
    | some (data, b') => (readFull fuel (n + 1 - data.length) b').map fun r => (data ++ r.1, r.2)

end BufReader

def truncation : BodyEnd → StreamErr
  | .eof => .truncated
  | .broken => .body

structure ChunkFormat where
  signed : Bool
  trailing : Bool
  declared : Bytes := []
  emptyOK : Bool := false

structure ChunkReader extends ChunkFormat where
  src : BufReader
  signer : Option ChunkSigner
  started : Bool := false
  left : Nat := 0
  isOpen : Bool := false
  sig : Bytes := []
  trailers : List (Bytes × Bytes) := []

def trimSuffixByte (c : UInt8) (s : Bytes) : Bytes := if s.getLast? = some c then s.dropLast else s

def isHexByte (c : UInt8) : Bool := (48 ≤ c && c ≤ 57) || (97 ≤ c && c ≤ 102) || (65 ≤ c && c ≤ 70)

def hexByteValue (c : UInt8) : Nat :=
  if c ≤ 57 then c.toNat - 48 else if c ≤ 70 then c.toNat - 55 else c.toNat - 87

def isHexSHA256 (s : Bytes) : Bool := s.length = 64 && s.all fun c => (48 ≤ c && c ≤ 57) || (97 ≤ c && c ≤ 102)

/-- `strings.Cut` at a byte. -/
def cutByte (sep : UInt8) (s : Bytes) : Bytes × Bytes := (Framing.cut sep s).getD (s, [])

def parseChunkLine (signed : Bool) (line : Bytes) : Except StreamErr (Nat × Bytes) :=
  let (size, ext) := cutByte 59 (trimSuffixByte 13 (trimSuffixByte 10 line))
  let n := size.foldl (fun n c => 16 * n + hexByteValue c) 0
  if size.length = 0 ∨ 16 < size.length ∨ !size.all isHexByte then .error .encoding
  else if 2 ^ 63 ≤ n then .error .encoding
  else if !signed then .ok (n, [])
  else
    let (name, sig) := cutByte 61 ext
    if name ≠ ascii "chunk-signature" ∨ !isHexSHA256 sig then .error .signature else .ok (n, sig)

def ChunkReader.verified (c : ChunkReader) : Option ChunkReader :=
  match c.signer with
  | none => some c
  | some s => (s.verifyChunk env c.sig).map fun s' => { c with signer := some s' }

def canonicalTrailers (trailers : List (Bytes × Bytes)) : Bytes := trailers.flatMap fun t => t.1 ++ 58 :: t.2 ++ [10]

/-- What a line of the trailer adds to the trailers before it, and whether the signature has been seen. -/
def trailerLine (c : ChunkFormat) (signer : Option ChunkSigner) (line : Bytes) (trailers : List (Bytes × Bytes))
    (signed : Bool) : Except StreamErr (List (Bytes × Bytes) × Bool) :=
  let text := trimSpaceBytes line
  if text = [] then .ok (trailers, signed)
  else match Framing.cut 58 text with
    | none => .error .malformedTrailer
    | some (rawName, rawValue) =>
      let name := env.toLower (trimSpaceBytes rawName)
      let value := trimSpaceBytes rawValue
      if name = [] ∨ signed then .error .malformedTrailer
      else if name = trailerSignatureHeader then
        if !c.signed ∨ !c.trailing then .error .malformedTrailer
        else if !isHexSHA256 value ∨
            signer.any (fun s => (s.verifyTrailer env (canonicalTrailers trailers) value).isNone) then
          .error .signature
        else .ok (trailers, true)
      else if name ≠ c.declared then .error .malformedTrailer
      else if trailers.any (fun t => t.1 = name) then .error .malformedTrailer
      else .ok (trailers ++ [(name, value)], signed)

/-- The loop of `readTrailers`, with the lines that it may still read. -/
def ChunkReader.trailerLines (c : ChunkReader) :
    Nat → BufReader → List (Bytes × Bytes) → Bool → Except StreamErr (List (Bytes × Bytes) × Bool)
  | 0, _, _, _ => .error .malformedTrailer
  | lines + 1, b, trailers, signed =>
    match b.readSlice with
    | (.full, _, _) => .error .malformedTrailer
    | (.ended, line, b') =>
      if b'.src.ending = .broken then .error .body else trailerLine env c.toChunkFormat c.signer line trailers signed
    | (.line, line, b') =>
      match trailerLine env c.toChunkFormat c.signer line trailers signed with
      | .error e => .error e
      | .ok (trailers', signed') => c.trailerLines lines b' trailers' signed'

def ChunkReader.readTrailers (c : ChunkReader) : ReadEnd × List (Bytes × Bytes) :=
  match c.trailerLines env maxTrailerLines c.src [] false with
  | .error e => (.failed e, [])
  | .ok (trailers, signed) =>
    if c.signed ∧ c.trailing ∧ !signed then (.failed .malformedTrailer, trailers) else (.eof, trailers)

def ChunkReader.close (c : ChunkReader) : Except StreamErr ChunkReader :=
  match c.src.readFull 2 2 with
  | none => .error (truncation c.src.src.ending)
  | some (crlf, b) =>
    if crlf ≠ [13, 10] then .error .encoding
    else match ({ c with src := b } : ChunkReader).verified env with
      | none => .error .signature
      | some c' => .ok { c' with isOpen := false }

def ChunkReader.openNext (c : ChunkReader) : Except (ReadEnd × List (Bytes × Bytes)) ChunkReader :=
  match c.src.readSlice with
  | (.full, _, _) => .error (.failed .encoding, [])
  | (.ended, line, b) =>
    if !c.started ∧ line = [] ∧ b.src.ending = .eof ∧ c.emptyOK then .error (.eof, [])
    else .error (.failed (truncation b.src.ending), [])
  | (.line, line, b) =>
    match parseChunkLine c.signed line with
    | .error e => .error (.failed e, [])
    | .ok (n, sig) =>
      let c' : ChunkReader := { c with src := b, started := true, sig := sig }
      if n = 0 then
        match c'.verified env with
        | none => .error (.failed .signature, [])
        | some c'' => .error (c''.readTrailers env)
      else .ok { c' with left := n, isOpen := true }

def ChunkReader.next (c : ChunkReader) : Except (ReadEnd × List (Bytes × Bytes)) ChunkReader :=
  if c.isOpen then
    match c.close env with
    | .error e => .error (.failed e, [])
    | .ok c' => c'.openNext env
  else c.openNext env

def ChunkReader.take (c : ChunkReader) (k : Nat) : (Bytes × Option ReadEnd) × ChunkReader :=
  match c.src.read (min k c.left) with
  | none => (([], some (.failed (truncation c.src.src.ending))), c)
  | some (data, b) => ((data, none), { c with
    src := b
    left := c.left - data.length
    signer := c.signer.map fun s => { s with hashed := s.hashed ++ data } })

def ChunkReader.read (c : ChunkReader) (k : Nat) : (Bytes × Option ReadEnd) × ChunkReader :=
  if k = 0 then (([], none), c)
  else if c.left = 0 then
    match c.next env with
    | .error (e, trailers) => (([], some e), { c with trailers := trailers })
    | .ok c' => c'.take k
  else c.take k

structure Checksum where
  name : Bytes
  algorithm : ChecksumAlgorithm
  want : Option Bytes
  trailing : Bool
  deriving DecidableEq, Repr

/-- `decode`. -/
def decodeChecksum (algorithm : ChecksumAlgorithm) (value : Bytes) : Option Bytes :=
  (env.decodeBase64 (trimSpaceBytes value)).filter fun want => want.length = algorithm.size

def headerChecksums (r : StreamRequest) : List Bytes → Except StreamErr (List Checksum)
  | [] => .ok []
  | key :: keys =>
    let name := env.toLower key
    if !(ascii "x-amz-checksum-").isPrefixOf name ∨ name ∈ checksumParameters then headerChecksums r keys
    else match checksumAlgorithms.lookup name with
      | none => .error (.unsupportedChecksum name)
      | some algorithm =>
        match decodeChecksum env algorithm ([44].intercalate (r.header key)) with
        | none => .error (.invalidChecksum name)
        | some want => do
          let rest ← headerChecksums r keys
          pure (⟨name, algorithm, some want, false⟩ :: rest)

def trailerChecksums (trailing : Bool) : List Bytes → Except StreamErr (List Checksum)
  | [] => .ok []
  | piece :: pieces =>
    let name := env.toLower (trimSpaceBytes piece)
    if name = [] then trailerChecksums trailing pieces
    else if !trailing then .error .trailerNotAllowed
    else match checksumAlgorithms.lookup name with
      | none => .error (.unsupportedTrailer name)
      | some algorithm => do
        let rest ← trailerChecksums trailing pieces
        pure (⟨name, algorithm, none, true⟩ :: rest)

def declaredChecksum (r : StreamRequest) (trailing : Bool) : Except StreamErr (Option Checksum) := do
  let inHeaders ← headerChecksums env r r.keys
  let inTrailer ← trailerChecksums env trailing ((r.header (ascii "X-Amz-Trailer")).flatMap (List.splitOn 44))
  let sums := inHeaders ++ inTrailer
  if 1 < sums.length then .error .manyChecksums else .ok sums.getLast?

/-- `hashed` is what has been written to the digest of the checksum. -/
structure Payload where
  body : BodySource
  chunks : Option ChunkReader
  length : Option Int := none
  n : Nat := 0
  sum : Option Checksum := none
  hashed : Bytes := []

def chunkReaderFor (cfg : StreamConfig) (r : StreamRequest) (body : BodySource) : Except StreamErr (Option ChunkReader) :=
  let mode := trimSpaceBytes (r.headerGet "X-Amz-Content-Sha256")
  if mode = streamingSignedPayload ∨ mode = streamingSignedPayloadTrailer then
    let c : ChunkReader :=
      { src := ⟨[], body⟩, signed := true, signer := none, trailing := mode = streamingSignedPayloadTrailer }
    if cfg.accessKey ≠ [] ∨ cfg.secretKey ≠ [] then
      match streamingSigner env r.toWireRequest cfg.secretKey with
      | none => .error .unsignedRequest
      | some s => .ok (some { c with signer := some s })
    else .ok (some c)
  else if mode = streamingUnsignedPayloadTrailer then
    .ok (some { src := ⟨[], body⟩, signed := false, signer := none, trailing := true })
  else if streamingBody env r.toWireRequest then .error .variant
  else .ok none

/-- An empty body is taken for an empty payload only if the length that says so is signed. -/
def StreamRequest.signsLength (r : StreamRequest) : Bool :=
  (splitSignedHeaders env.toSigEnv (r.authParam "SignedHeaders")).contains (ascii "x-amz-decoded-content-length")

def decodedLength (cfg : StreamConfig) (r : StreamRequest) : Except StreamErr (Option Int) :=
  let raw := r.headerGet "X-Amz-Decoded-Content-Length"
  if raw = [] then .ok none
  else match parseInt (trimSpaceBytes raw) with
    | none => .error .invalidLength
    | some n =>
      if n < 0 then .error .invalidLength
      else if 0 < cfg.maxUploadBytes ∧ cfg.maxUploadBytes < n then .error .tooLarge
      else .ok (some n)

def newPayload (cfg : StreamConfig) (r : StreamRequest) (body : BodySource) : Except StreamErr Payload := do
  match ← chunkReaderFor env cfg r body with
  | none =>
    let sum ← declaredChecksum env r false
    pure { body := body, chunks := none, sum := sum }
  | some c =>
    let length ← decodedLength cfg r
    let sum ← declaredChecksum env r c.trailing
    let emptyOK := length = some 0 && (c.signer.isNone || r.signsLength env)
    let declared := (sum.filter Checksum.trailing).elim [] Checksum.name
    pure { body := body, chunks := some { c with emptyOK := emptyOK, declared := declared }, length := length, sum := sum }

namespace Payload

variable (p : Payload)

def finish (trailers : List (Bytes × Bytes)) : ReadEnd :=
  if p.length.any (· ≠ (p.n : Int)) then .failed .decodedLength
  else match p.sum with
    | none => .eof
    | some sum =>
      if sum.trailing then
        match trailers.lookup sum.name with
        | none => .failed .malformedTrailer
        | some value =>
          match decodeChecksum env sum.algorithm value with
          | none => .failed (.invalidTrailer sum.name)
          | some want => if env.checksum sum.algorithm p.hashed ≠ want then .failed (.badDigest sum.name) else .eof
      else if some (env.checksum sum.algorithm p.hashed) ≠ sum.want then .failed (.badDigest sum.name)
      else .eof

def receive (data : Bytes) (ending : Option ReadEnd) (trailers : List (Bytes × Bytes)) : (Bytes × Option ReadEnd) × Payload :=
  let p' := { p with n := p.n + data.length, hashed := p.hashed ++ data }
  if p.length.any (· < (p'.n : Int)) then (([], some (.failed .decodedLength)), p')
  else match ending with
    | some .eof => ((data, some (p'.finish env trailers)), p')
    | ending => ((data, ending), p')

def read (k : Nat) : (Bytes × Option ReadEnd) × Payload :=
  match p.chunks with
  | some c =>
    let r := c.read env k
    { p with chunks := some r.2 }.receive env r.1.1 r.1.2 r.2.trailers
  | none =>
    match p.body.read k with
    | some (data, body) => { p with body := body }.receive env data none []
    | none => p.receive env [] (some (if p.body.ending = .eof then .eof else .failed .body)) []

/-- Reads with buffers of these sizes, up to the first that fails: what they deliver and how they end. -/
def readAll : List Nat → Payload → Bytes × Option ReadEnd
  | [], _ => ([], none)
  | k :: ks, p =>
    match p.read env k with
    | ((data, some e), _) => (data, some e)
    | ((data, none), p') => (data ++ (readAll ks p').1, (readAll ks p').2)

end Payload

end BirakFormal
