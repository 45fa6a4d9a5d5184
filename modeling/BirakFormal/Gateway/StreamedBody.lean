import BirakFormal.Gateway.Decoding
import BirakFormal.Shared.Chains

/-!
# Signed streaming bodies

A body that is read to its end is a sequence of chunks, a chunk of no data and the trailer, all of them
signed in one chain that begins with the signature of the request. Since a signature tells what was signed
before it, no other body can be made of these signatures.
-/

namespace BirakFormal

def StreamConfig.authenticate (cfg : StreamConfig) (env : SigEnv) (r : WireRequest) : Bool :=
  if cfg.accessKey = [] ∧ cfg.secretKey = [] then true
  else if cfg.accessKey = [] ∨ cfg.secretKey = [] then false
  else if r.headerGet "Authorization" ≠ [] then
    if sigV4Algorithm.isPrefixOf (r.headerGet "Authorization") then verifyHeaderV4 env r cfg.accessKey cfg.secretKey
    else false
  else if r.queryGet "X-Amz-Algorithm" = sigV4Algorithm then verifyPresignedV4 env r cfg.accessKey cfg.secretKey
  else false

structure SignedChunk where
  data : Bytes
  sig : Bytes
  deriving DecidableEq, Repr

section
variable (env : StreamEnv)

def ChunkSigner.link (s : ChunkSigner) (prev data : Bytes) : Bytes :=
  hexBytes (env.hmacSHA256 s.key (ChunkSigner.text { s with prev := prev } chunkSignatureAlgorithm
    (ChunkSigner.chunkDigest env data)))

def ChunkSigner.trailerLink (s : ChunkSigner) (prev : Bytes) (trailers : List (Bytes × Bytes)) : Bytes :=
  hexBytes (env.hmacSHA256 s.key (ChunkSigner.text { s with prev := prev } trailerSignatureAlgorithm
    (hexBytes (env.sha256 (canonicalTrailers trailers)))))

def IsLine (line : Bytes) : Prop := ∃ a, (10 : UInt8) ∉ a ∧ line = a ++ [10]

/-- Chunks with their signatures from `prev` on, the signature of the chunk that ends them and what
follows it. -/
inductive SignedChunks (s : ChunkSigner) : Bytes → Bytes → List SignedChunk → Bytes → Bytes → Prop
  | last {prev line zero tail : Bytes} (hline : IsLine line) (hparse : parseChunkLine true line = .ok (0, zero))
      (hsig : s.link env prev [] = zero) : SignedChunks s prev (line ++ tail) [] zero tail
  | chunk {prev line data sig rest zero tail : Bytes} {chunks : List SignedChunk} (hline : IsLine line)
      (hparse : parseChunkLine true line = .ok (data.length, sig)) (hdata : data ≠ []) (hsig : s.link env prev data = sig)
      (hrest : SignedChunks s sig rest chunks zero tail) :
      SignedChunks s prev (line ++ (data ++ 13 :: 10 :: rest)) (⟨data, sig⟩ :: chunks) zero tail

/-- The fields of a trailer, between blank lines. The last line may lack its line break. -/
inductive TrailerFields : Bytes → List (Bytes × Bytes) → Prop
  | nil : TrailerFields [] []
  | blank {line rest : Bytes} {fields : List (Bytes × Bytes)} (hline : IsLine line ∨ (10 : UInt8) ∉ line ∧ rest = [])
      (hblank : trimSpaceBytes line = []) (hrest : TrailerFields rest fields) : TrailerFields (line ++ rest) fields
  | field {line rest name value : Bytes} {fields : List (Bytes × Bytes)}
      (hline : IsLine line ∨ (10 : UInt8) ∉ line ∧ rest = []) (hcut : Framing.cut 58 (trimSpaceBytes line) = some (name, value))
      (hrest : TrailerFields rest fields) :
      TrailerFields (line ++ rest) ((env.toLower (trimSpaceBytes name), trimSpaceBytes value) :: fields)

def SignedTrailer (s : ChunkSigner) (trailing : Bool) (zero tail : Bytes) (trailers : List (Bytes × Bytes)) : Prop :=
  TrailerFields env tail (trailers ++ if trailing then [(trailerSignatureHeader, s.trailerLink env zero trailers)] else [])

def SignedBody (s : ChunkSigner) (trailing : Bool) (prev body : Bytes) (trailers : List (Bytes × Bytes)) (data : Bytes) : Prop :=
  ∃ chunks zero tail, SignedChunks env s prev body chunks zero tail ∧ SignedTrailer env s trailing zero tail trailers ∧
    data = chunks.flatMap SignedChunk.data

variable {env} {s : ChunkSigner} {f : ChunkFormat} {e : BodyEnd}

def ChunkSigner.at (s : ChunkSigner) (prev : Bytes) : Option ChunkSigner := some { s with prev := prev, hashed := [] }

theorem verifySigner_at {prev data sig : Bytes} {signer' : Option ChunkSigner}
    (h : verifySigner env (hashData (s.at prev) data) sig = some signer') : s.link env prev data = sig ∧ signer' = s.at sig := by
  simp only [verifySigner, hashData, ChunkSigner.at, Option.map_some, Option.map_eq_some_iff] at h
  obtain ⟨s', hverify, rfl⟩ := h
  unfold ChunkSigner.verifyChunk ChunkSigner.verify at hverify
  split at hverify
  · next heq =>
    cases hverify
    exact ⟨heq, rfl⟩
  · cases hverify

theorem trailerLine_ok {prev line : Bytes} {trailers trailers' : List (Bytes × Bytes)} {signed signed' : Bool}
    (h : trailerLine env f (s.at prev) line trailers signed = .ok (trailers', signed')) :
    trimSpaceBytes line = [] ∧ trailers' = trailers ∧ signed' = signed ∨
      ∃ name value, Framing.cut 58 (trimSpaceBytes line) = some (name, value) ∧ signed = false ∧
        ((env.toLower (trimSpaceBytes name), trimSpaceBytes value) =
            (trailerSignatureHeader, s.trailerLink env prev trailers) ∧ f.trailing = true ∧ trailers' = trailers ∧
            signed' = true ∨
          trailers' = trailers ++ [(env.toLower (trimSpaceBytes name), trimSpaceBytes value)] ∧ signed' = false) := by
  unfold trailerLine at h
  dsimp only at h
  split at h
  · next hblank =>
    cases h
    exact .inl ⟨hblank, rfl, rfl⟩
  · split at h
    · cases h
    · next name value hcut =>
      refine .inr ⟨name, value, hcut, ?_⟩
      split at h
      · cases h
      · next hfirst =>
        have hsigned : signed = false := Bool.eq_false_iff.mpr fun hs => hfirst (.inr hs)
        refine ⟨hsigned, ?_⟩
        split at h
        · next hname =>
          split at h
          · cases h
          · next hmode =>
            split at h
            · cases h
            · next hsig =>
              cases h
              rw [not_or] at hmode hsig
              refine .inl ⟨?_, by simpa using hmode.2, rfl, rfl⟩
              rw [hname, Prod.mk.injEq]
              refine ⟨rfl, ?_⟩
              have hverify := hsig.2
              simp only [ChunkSigner.at, Option.any_some, Option.isNone_iff_eq_none, ChunkSigner.verifyTrailer,
                ChunkSigner.verify] at hverify
              split at hverify
              · next heq => exact heq.symm
              · exact absurd rfl hverify
        · split at h
          · cases h
          · split at h
            · cases h
            · cases h
              exact .inr ⟨rfl, hsigned⟩

def TrailerAdds (env : StreamEnv) (s : ChunkSigner) (f : ChunkFormat) (prev tail : Bytes) (before after : List (Bytes × Bytes))
    (signed signed' : Bool) : Prop :=
  ∃ fields, after = before ++ fields ∧ TrailerFields env tail (fields ++
      if signed' && !signed then [(trailerSignatureHeader, s.trailerLink env prev after)] else []) ∧
    (signed' = true → signed = false → f.trailing = true) ∧ (signed = true → signed' = true ∧ fields = [])

theorem TrailerAdds.nil (prev : Bytes) (trailers : List (Bytes × Bytes)) (signed : Bool) :
    TrailerAdds env s f prev [] trailers trailers signed signed := by
  refine ⟨[], by simp, ?_, ?_, fun h => ⟨h, rfl⟩⟩
  · cases signed <;> exact .nil
  · intro h h'
    rw [h] at h'
    cases h'

theorem TrailerAdds.cons {prev line rest : Bytes} {before middle after : List (Bytes × Bytes)} {signed signed₁ signed₂ : Bool}
    (hline : IsLine line ∨ (10 : UInt8) ∉ line ∧ rest = [])
    (hfirst : trailerLine env f (s.at prev) line before signed = .ok (middle, signed₁))
    (hrest : TrailerAdds env s f prev rest middle after signed₁ signed₂) :
    TrailerAdds env s f prev (line ++ rest) before after signed signed₂ := by
  obtain ⟨fields, hafter, hfields, htrailing, hdone⟩ := hrest
  rcases trailerLine_ok hfirst with ⟨hblank, rfl, rfl⟩ | ⟨name, value, hcut, rfl, hcase⟩
  · exact ⟨fields, hafter, .blank hline hblank hfields, htrailing, hdone⟩
  · have hfield := TrailerFields.field hline hcut hfields
    rcases hcase with ⟨hsig, hmode, rfl, rfl⟩ | ⟨rfl, rfl⟩
    · -- the signature ends the fields
      obtain ⟨rfl, rfl⟩ := hdone rfl
      rw [List.append_nil] at hafter
      subst hafter
      refine ⟨[], by simp, ?_, fun _ _ => hmode, nofun⟩
      rw [hsig] at hfield
      exact hfield
    · refine ⟨(env.toLower (trimSpaceBytes name), trimSpaceBytes value) :: fields, ?_, hfield, htrailing, nofun⟩
      rw [hafter, List.append_assoc, List.singleton_append]

theorem trailerAdds_of_decode {prev tail : Bytes} {lines : Nat} {before after : List (Bytes × Bytes)} {signed signed' : Bool}
    (h : decodeTrailers env f e (s.at prev) lines tail before signed = .ok (after, signed')) :
    TrailerAdds env s f prev tail before after signed signed' := by
  induction lines generalizing tail before signed with
  | zero => cases h
  | succ lines ih =>
    unfold decodeTrailers at h
    split at h
    · cases h
    · next line rest hline =>
      obtain ⟨hno, rfl, rfl⟩ := ended_of_lineOf hline
      split at h
      · cases h
      · have hlast := TrailerAdds.cons (.inr ⟨hno, rfl⟩) h (.nil prev after signed')
        rwa [List.append_nil] at hlast
    · next line rest hline =>
      obtain ⟨rfl, hisLine⟩ := eq_of_lineOf hline
      split at h
      · cases h
      · next middle signed₁ hfirst => exact .cons (.inl hisLine) hfirst (ih h)

theorem signedTrailer_of_decodeEnd {zero tail : Bytes} (hsigned : f.signed = true)
    (h : (decodeEnd env f e (s.at zero) tail).ending = .eof) :
    SignedTrailer env s f.trailing zero tail (decodeEnd env f e (s.at zero) tail).trailers ∧
      (decodeEnd env f e (s.at zero) tail).data = [] := by
  revert h
  unfold decodeEnd
  cases hlines : decodeTrailers env f e (s.at zero) maxTrailerLines tail [] false with
  | error err => exact nofun
  | ok r =>
    obtain ⟨trailers, signed⟩ := r
    dsimp only
    split
    · exact nofun
    · next hmode =>
      intro _
      refine ⟨?_, rfl⟩
      obtain ⟨fields, hafter, hfields, htrailing, -⟩ := trailerAdds_of_decode hlines
      rw [List.nil_append] at hafter
      subst hafter
      have hiff : signed = f.trailing := by
        cases hs : signed with
        | true => exact (htrailing hs rfl).symm
        | false =>
          cases ht : f.trailing with
          | false => rfl
          | true => exact absurd ⟨hsigned, ht, by simp [hs]⟩ hmode
      rw [hiff, Bool.not_false, Bool.and_true] at hfields
      exact hfields

variable {signer : Option ChunkSigner}

theorem decodeClose_eof {sig body : Bytes} {next : Option ChunkSigner → Bytes → Decoded}
    (h : (decodeClose env e signer sig body next).ending = .eof) :
    ∃ signer' rest, body = 13 :: 10 :: rest ∧ verifySigner env signer sig = some signer' ∧
      decodeClose env e signer sig body next = next signer' rest := by
  unfold decodeClose at h ⊢
  split at h
  · cases h
  · next hlong =>
    split at h
    · cases h
    · next hcrlf =>
      rw [if_neg hlong, if_neg hcrlf]
      split at h
      · cases h
      · next signer' hverify =>
        refine ⟨signer', body.drop 2, ?_, hverify, rfl⟩
        conv_lhs => rw [← List.take_append_drop 2 body, not_not.mp hcrlf]
        rfl

theorem decodeOpen_eof {sig body : Bytes} {left : Nat}
    {next : Option ChunkSigner → Bytes → Decoded} (h : (decodeOpen env e signer sig left body next).ending = .eof) :
    ∃ data signer' rest, data.length = left ∧ body = data ++ 13 :: 10 :: rest ∧
      verifySigner env (hashData signer data) sig = some signer' ∧
      decodeOpen env e signer sig left body next = (next signer' rest).after data := by
  unfold decodeOpen at h ⊢
  split at h
  · cases h
  · next hlong =>
    rw [if_neg hlong]
    obtain ⟨signer', rest, hrest, hverify, hclose⟩ := decodeClose_eof h
    refine ⟨body.take left, signer', rest, ?_, ?_, hverify, by rw [hclose]⟩
    · rw [List.length_take]
      omega
    · rw [← hrest, List.take_append_drop]

theorem signedBody_of_decodeChunks {fuel : Nat} {started : Bool} {prev body : Bytes} (hsigned : f.signed = true)
    (h : (decodeChunks env f e fuel started (s.at prev) body).ending = .eof) :
    (body = [] ∧ started = false ∧ f.emptyOK = true ∧ (decodeChunks env f e fuel started (s.at prev) body).data = []) ∨
      SignedBody env s f.trailing prev body (decodeChunks env f e fuel started (s.at prev) body).trailers
        (decodeChunks env f e fuel started (s.at prev) body).data := by
  induction fuel generalizing started prev body with
  | zero => cases h
  | succ fuel ih =>
    unfold decodeChunks at h ⊢
    cases hline : lineOf body with
    | mk kind r =>
      obtain ⟨line, rest⟩ := r
      rw [hline] at h
      cases kind with
      | full => cases h
      | ended =>
        obtain ⟨-, rfl, rfl⟩ := ended_of_lineOf hline
        dsimp only at h ⊢
        split at h
        · next hempty =>
          rw [if_pos hempty]
          exact .inl ⟨hempty.2.1, by simpa using hempty.1, hempty.2.2.2, rfl⟩
        · cases h
      | line =>
        obtain ⟨rfl, hisLine⟩ := eq_of_lineOf hline
        dsimp only at h ⊢
        rw [hsigned] at h ⊢
        cases hparse : parseChunkLine true line with
        | error err => rw [hparse] at h; cases h
        | ok r =>
          obtain ⟨n, sig⟩ := r
          rw [hparse] at h
          dsimp only at h ⊢
          by_cases hn : n = 0
          · subst hn
            rw [if_pos rfl] at h ⊢
            cases hverify : verifySigner env (s.at prev) sig with
            | none => rw [hverify] at h; cases h
            | some signer' =>
              have hempty : verifySigner env (hashData (s.at prev) []) sig = some signer' := by rw [hashData_nil, hverify]
              obtain ⟨hlink, rfl⟩ := verifySigner_at hempty
              rw [hverify] at h
              dsimp only at h ⊢
              obtain ⟨htrailer, hdata⟩ := signedTrailer_of_decodeEnd hsigned h
              exact .inr ⟨[], sig, rest, .last hisLine hparse hlink, htrailer, hdata⟩
          · rw [if_neg hn] at h ⊢
            obtain ⟨data, signer', rest, hlen, rfl, hverify, hopen⟩ := decodeOpen_eof h
            obtain ⟨hlink, rfl⟩ := verifySigner_at hverify
            rw [hopen] at h ⊢
            have hne : data ≠ [] := by
              rintro rfl
              exact hn hlen.symm
            rcases ih h with ⟨-, hstarted, -⟩ | ⟨chunks, zero, tail, hchunks, htrailer, hdata⟩
            · cases hstarted
            · refine .inr ⟨⟨data, sig⟩ :: chunks, zero, tail, .chunk hisLine (hlen ▸ hparse) hne hlink hchunks, htrailer, ?_⟩
              rw [List.flatMap_cons, ← hdata]
              rfl

variable {chunks : List SignedChunk} {prev body zero tail : Bytes}

theorem SignedChunks.links (h : SignedChunks env s prev body chunks zero tail) :
    Chains.links (s.link env) prev (chunks.map SignedChunk.data ++ [[]]) = chunks.map SignedChunk.sig ++ [zero] := by
  induction h with
  | last hline hparse hsig => simp [Chains.links, hsig]
  | chunk hline hparse hdata hsig hrest ih => simp [Chains.links, hsig, ih]

theorem SignedChunks.foldl (h : SignedChunks env s prev body chunks zero tail) :
    (chunks.map SignedChunk.data ++ [[]]).foldl (s.link env) prev = zero := by
  induction h with
  | last hline hparse hsig => simpa using hsig
  | chunk hline hparse hdata hsig hrest ih => simpa [hsig] using ih

theorem SignedChunks.data_ne_nil
    (h : SignedChunks env s prev body chunks zero tail) : [] ∉ chunks.map SignedChunk.data := by
  induction h with
  | last hline hparse hsig => exact List.not_mem_nil
  | chunk hline hparse hdata hsig hrest ih =>
    rw [List.map_cons, List.mem_cons, not_or]
    exact ⟨Ne.symm hdata, ih⟩

theorem not_mem_hexBytes (data : Bytes) : (10 : UInt8) ∉ hexBytes data := by
  have hdigit : ∀ n < 16, (10 : UInt8) ≠ UInt8.ofNat (hexDigit n).toNat := by decide
  intro h
  obtain ⟨b, -, hb⟩ := List.mem_flatMap.mp h
  have hlt := b.toNat_lt
  simp only [List.mem_cons, List.not_mem_nil, or_false] at hb
  rcases hb with hb | hb
  · exact hdigit _ (by omega) hb
  · exact hdigit _ (by omega) hb

theorem link_inj (hsha : Function.Injective env.sha256) (hhmac : ∀ key, Function.Injective (env.hmacSHA256 key))
    (prev data prev' data' : Bytes) (h : s.link env prev data = s.link env prev' data') : prev = prev' ∧ data = data' := by
  have htext := hhmac _ (hexBytes_inj h)
  simp only [ChunkSigner.text, ChunkSigner.chunkDigest, List.append_cancel_left_eq, List.cons.injEq, true_and] at htext
  have hlast : (prev ++ 10 :: emptySHA256) ++ 10 :: hexBytes (env.sha256 data) =
      (prev' ++ 10 :: emptySHA256) ++ 10 :: hexBytes (env.sha256 data') := by
    simpa using htext
  obtain ⟨hfront, hdigest⟩ := Framing.cut_last_inj (not_mem_hexBytes _) (not_mem_hexBytes _) hlast
  exact ⟨List.append_cancel_right hfront, hsha (hexBytes_inj hdigest)⟩

theorem link_ne_seed {cfg : StreamConfig} {r : WireRequest} (hhmac : ∀ key, Function.Injective (env.hmacSHA256 key))
    (hkeys : cfg.accessKey ≠ [] ∨ cfg.secretKey ≠ []) (hauth : cfg.authenticate env.toSigEnv r = true)
    (hs : streamingSigner env r cfg.secretKey = some s) (prev data : Bytes) : s.link env prev data ≠ s.prev := by
  unfold streamingSigner at hs
  split at hs
  · cases hs
  · next hbegins =>
    have hbegins : sigV4Algorithm.isPrefixOf (r.headerGet "Authorization") = true := by simpa using hbegins
    have hverify : verifyHeaderV4 env.toSigEnv r cfg.accessKey cfg.secretKey = true := by
      have hsome : r.headerGet "Authorization" ≠ [] := by
        intro hnil
        rw [hnil] at hbegins
        exact absurd hbegins (by decide)
      have hboth : ¬ (cfg.accessKey = [] ∧ cfg.secretKey = []) := by
        rw [not_and_or]
        exact hkeys
      rw [StreamConfig.authenticate, if_neg hboth] at hauth
      by_cases hhalf : cfg.accessKey = [] ∨ cfg.secretKey = []
      · rw [if_pos hhalf] at hauth
        cases hauth
      · rwa [if_neg hhalf, if_pos hsome, if_pos hbegins] at hauth
    obtain ⟨cred, t, hcred, -, hsig⟩ := @computeSignature_of_verify env.toSigEnv .header r cfg.accessKey cfg.secretKey hverify
    rw [show parseCredential (r.authParam "Credential") = some cred from hcred] at hs
    dsimp only at hs
    split at hs
    · cases hs
    · cases hs
      intro heq
      have htext := hhmac _ (hexBytes_inj (heq.trans hsig.symm))
      simp only [ChunkSigner.text, stringToSign, Framing.join_cons_cons] at htext
      exact absurd (Framing.cut_inj (by decide) (by decide) htext).1 (by decide)

end

def Checksum.declared (env : StreamEnv) (sum : Checksum) (trailers : List (Bytes × Bytes)) : Option Bytes :=
  if sum.trailing then (trailers.lookup sum.name).bind (decodeChecksum env sum.algorithm) else sum.want

def StreamRequest.trailerMode (r : StreamRequest) : Bool :=
  trimSpaceBytes (r.headerGet "X-Amz-Content-Sha256") = streamingSignedPayloadTrailer

section
variable {env : StreamEnv} {p : Payload} {d : Decoded}

theorem finish_eof {trailers : List (Bytes × Bytes)} (h : p.finish env trailers = .eof) :
    (∀ n, p.length = some n → (p.n : Int) = n) ∧
      ∀ sum, p.sum = some sum → sum.declared env trailers = some (env.checksum sum.algorithm p.hashed) := by
  unfold Payload.finish at h
  split at h
  · cases h
  · next hlength =>
    constructor
    · intro n hn
      rw [hn] at hlength
      simp only [Option.any_some, decide_eq_true_eq, not_not] at hlength
      exact hlength.symm
    · intro sum hsum
      rw [hsum] at h
      dsimp only at h
      unfold Checksum.declared
      split at h
      · next htrailing =>
        rw [if_pos htrailing]
        split at h
        · cases h
        · next value hvalue =>
          split at h
          · cases h
          · next want hwant =>
            split at h
            · cases h
            · next heq => rw [hvalue, Option.bind_some, hwant, not_not.mp heq]
      · next hheader =>
        rw [if_neg hheader]
        split at h
        · cases h
        · next heq => exact (not_not.mp heq).symm

theorem verdict_eof (h : p.verdict env d = .eof) :
    p.overruns d = false ∧ d.ending = .eof ∧ (p.count d.data).finish env d.trailers = .eof := by
  unfold Payload.verdict at h
  split at h
  · cases h
  · next hover =>
    refine ⟨Bool.eq_false_iff.mpr hover, ?_⟩
    cases hending : d.ending with
    | eof =>
      rw [hending] at h
      exact ⟨rfl, h⟩
    | failed err =>
      rw [hending] at h
      cases h

variable {cfg : StreamConfig} {r : StreamRequest} {b : BodySource} {c : ChunkReader} {s : ChunkSigner}

theorem newPayload_signer (hp : newPayload env cfg r b = .ok p) (hc : p.chunks = some c) (hs : c.signer = some s) :
    (cfg.accessKey ≠ [] ∨ cfg.secretKey ≠ []) ∧ streamingSigner env r.toWireRequest cfg.secretKey = some s ∧
      decodedLength cfg r = .ok p.length ∧ declaredChecksum env r r.trailerMode = .ok p.sum ∧ p.n = 0 ∧ p.hashed = [] ∧
      c.signed = true ∧ c.trailing = r.trailerMode ∧ (c.emptyOK = true → p.length = some 0 ∧ r.signsLength env = true) ∧
      p.whole env = decodeChunks env c.toChunkFormat b.ending (b.content.length + 1) false (some s) b.content := by
  rcases newPayload_cases hp with ⟨-, sum, -, rfl⟩ | ⟨c₀, length, sum, hreader, hlength, hsum, rfl⟩
  · cases hc
  · cases hc
    obtain ⟨hfresh, hsigner⟩ := chunkReaderFor_some hreader
    obtain ⟨hsigned, hkeys, htrailing, hstream⟩ := hsigner s hs
    refine ⟨hkeys, hstream, hlength, ?_, rfl, rfl, hsigned, htrailing, ?_, ?_⟩
    · rw [StreamRequest.trailerMode, ← htrailing]
      exact hsum
    · intro hempty
      have hsome : c₀.signer.isNone = false := by
        rw [show c₀.signer = some s from hs]
        rfl
      simp only [hsome, Bool.false_or, Bool.and_eq_true, decide_eq_true_eq] at hempty
      exact hempty
    · simp only [Payload.whole, ChunkReader.value, hfresh.isOpen, hfresh.started, Bool.false_eq_true, if_false]
      rw [show c₀.signer = some s from hs]

theorem signed_of_readAll {ks : List Nat} {out : Bytes} (hp : newPayload env cfg r b = .ok p) (hc : p.chunks = some c)
    (hs : c.signer = some s) (hread : p.readAll env ks = (out, some .eof)) :
    ∃ trailers, (b.content = [] ∧ out = [] ∧ decodedLength cfg r = .ok (some 0) ∧ r.signsLength env = true ∨
        SignedBody env s r.trailerMode s.prev b.content trailers out) ∧
      (∀ n, decodedLength cfg r = .ok (some n) → (out.length : Int) = n) ∧
      ∀ sum, declaredChecksum env r r.trailerMode = .ok (some sum) →
        sum.declared env trailers = some (env.checksum sum.algorithm out) := by
  obtain ⟨hholds, hn⟩ := newPayload_holds hp
  obtain ⟨-, hstream, hlength, hsum, hn0, hhashed, hsigned, htrailing, hempty, hwhole⟩ := newPayload_signer hp hc hs
  have hat : some s = s.at s.prev := by
    unfold streamingSigner at hstream
    split at hstream
    · cases hstream
    · split at hstream
      · cases hstream
      · dsimp only at hstream
        split at hstream
        · cases hstream
        · cases hstream
          rfl
  rcases hholds.readAll ks hn with ⟨out', hrun, -⟩ | ⟨out', hrun, -, hall⟩
  · rw [hread] at hrun
    cases hrun
  · rw [hread, Prod.mk.injEq, Option.some.injEq] at hrun
    obtain ⟨rfl, hverdict⟩ := hrun
    obtain ⟨hover, hending, hfinish⟩ := verdict_eof hverdict.symm
    have hout := hall hover
    obtain ⟨hcount, hchecksum⟩ := finish_eof hfinish
    refine ⟨(p.whole env).trailers, ?_, ?_, ?_⟩
    · rw [hwhole, hat] at hending hout ⊢
      rcases signedBody_of_decodeChunks hsigned hending with ⟨hnil, -, hok, hdata⟩ | hbody
      · obtain ⟨hzero, hheader⟩ := hempty hok
        exact .inl ⟨hnil, hout.trans hdata, hzero ▸ hlength, hheader⟩
      · rw [← hout, htrailing] at hbody
        exact .inr hbody
    · intro n hdeclared
      rw [hlength, Except.ok.injEq] at hdeclared
      have hlen := hcount n hdeclared
      simp only [Payload.count, hn0, Nat.zero_add, ← hout] at hlen
      exact hlen
    · intro sum hdeclared
      rw [hsum, Except.ok.injEq] at hdeclared
      have heq := hchecksum sum hdeclared
      simp only [Payload.count, hhashed, List.nil_append, ← hout] at heq
      exact heq

end

def putSeed : Bytes :=
  hexBytes ([10].intercalate [sigV4Algorithm, ascii "20130524T000000Z", ascii "20130524/r/s/aws4_request",
    hexBytes ([10].intercalate [ascii "PUT", ascii "/k", [], ascii "host:h" ++ [10], ascii "host", streamingSignedPayload])])

def putSigner : ChunkSigner :=
  ⟨ascii "aws4_request", ascii "20130524T000000Z", ascii "20130524/r/s/aws4_request", putSeed, []⟩

def chunkText (prev data : Bytes) : Bytes :=
  ChunkSigner.text { putSigner with prev := prev } chunkSignatureAlgorithm (emptySHA256 ++ 10 :: hexBytes data)

def oneDigest : Bytes := List.replicate 32 1

def zeroDigest : Bytes := List.replicate 32 2

def swapChunks : Equiv.Perm Bytes :=
  (Equiv.swap (chunkText putSeed (ascii "a")) oneDigest).trans (Equiv.swap (chunkText (hexBytes oneDigest) []) zeroDigest)

def putEnv : StreamEnv := { plainStreamEnv with hmacSHA256 := fun _ data => swapChunks data }

def putConfig : StreamConfig := ⟨ascii "k", ascii "s", 0⟩

def putHeader (key : Bytes) : List Bytes :=
  if key = ascii "Authorization" then
    [ascii "AWS4-HMAC-SHA256 Credential=k/20130524/r/s/aws4_request, SignedHeaders=host, Signature=" ++ putSeed]
  else if key = ascii "X-Amz-Date" then [ascii "20130524T000000Z"]
  else if key = ascii "X-Amz-Content-Sha256" then [streamingSignedPayload]
  else []

theorem putHeader_line (key : Bytes) : ∀ v ∈ putHeader key, (10 : UInt8) ∉ v ∧ (13 : UInt8) ∉ v := by
  intro v hv
  unfold putHeader at hv
  split at hv
  · rw [List.mem_singleton.mp hv]
    decide +kernel
  · split at hv
    · rw [List.mem_singleton.mp hv]
      decide +kernel
    · split at hv
      · rw [List.mem_singleton.mp hv]
        decide +kernel
      · cases hv

def putRequest : StreamRequest where
  method := ascii "PUT"
  escapedPath := ascii "/k"
  query := ⟨[], List.nodup_nil⟩
  header := putHeader
  host := ascii "h"
  contentLength := -1
  method_line := put_line
  path_line := k_line
  header_line := putHeader_line
  keys := [ascii "Authorization", ascii "X-Amz-Date", ascii "X-Amz-Content-Sha256"]

def putBody : Bytes :=
  ascii "1;chunk-signature=" ++ hexBytes oneDigest ++ ascii "\r\na\r\n0;chunk-signature=" ++ hexBytes zeroDigest ++ ascii "\r\n\r\n"

def putSource : BodySource := ⟨[putBody], .eof, by decide +kernel⟩

def putChunks : ChunkReader := { src := ⟨[], putSource⟩, signed := true, signer := some putSigner, trailing := false }

def putPayload : Payload := { body := putSource, chunks := some putChunks }

theorem newPayload_put : newPayload putEnv putConfig putRequest putSource = .ok putPayload := by
  have hsigner : streamingSigner putEnv putRequest.toWireRequest putConfig.secretKey = some putSigner := by decide +kernel
  have hmode : ¬ trimSpaceBytes (putRequest.headerGet "X-Amz-Content-Sha256") = streamingSignedPayloadTrailer := by decide +kernel
  have hreader : chunkReaderFor putEnv putConfig putRequest putSource = .ok (some putChunks) := by
    unfold chunkReaderFor
    dsimp only
    rw [if_pos (by decide +kernel), if_pos (by decide), hsigner, decide_eq_false hmode]
    rfl
  have hlength : decodedLength putConfig putRequest = .ok none := by decide +kernel
  have hsum : declaredChecksum putEnv putRequest false = .ok none := by decide +kernel
  unfold newPayload
  rw [hreader]
  simp only [bind, Except.bind, hlength, putChunks, hsum, pure, Except.pure]
  rfl

end BirakFormal
