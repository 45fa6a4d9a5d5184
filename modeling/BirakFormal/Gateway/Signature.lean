import BirakFormal.Gateway.CanonicalQuery
import BirakFormal.Gateway.Ranges

/-!
# Request signatures

A signature of version 4 is an HMAC of a text that joins the parts of a request with line breaks. The
list of signed headers is the client's own, and in a presigned request it may hold line breaks, so it
has to be read off the text together with the headers it names.
-/

namespace BirakFormal

def ascii (s : String) : Bytes := s.toList.map fun c => UInt8.ofNat c.toNat

/-- The words between white space. `skip` counts what is left of a space, `word` is read backwards. -/
def fieldsFrom : Nat → Bytes → Bytes → List Bytes
  | _, word, [] => if word = [] then [] else [word.reverse]
  | skip + 1, word, _ :: s => fieldsFrom skip word s
  | 0, word, c :: s =>
    match spaces.find? fun t => t.isPrefixOf (c :: s) with
    | some t => (if word = [] then [] else [word.reverse]) ++ fieldsFrom (t.length - 1) [] s
    | none => fieldsFrom 0 (c :: word) s

/-- `strings.Fields`. -/
def stringsFields (s : Bytes) : List Bytes := fieldsFrom 0 [] s

def trimAll (s : Bytes) : Bytes := [32].intercalate (stringsFields s)

/-- `strconv.FormatInt` in base 10. -/
def formatInt (n : Int) : Bytes := (if n < 0 then [45] else []) ++ (Nat.toDigits 10 n.natAbs).map fun c => UInt8.ofNat c.toNat

/-- `hex.EncodeToString`. -/
def hexBytes (s : Bytes) : Bytes := s.flatMap fun b =>
  [UInt8.ofNat (hexDigit (b.toNat / 16)).toNat, UInt8.ofNat (hexDigit (b.toNat % 16)).toNat]

def sigV4Algorithm : Bytes := ascii "AWS4-HMAC-SHA256"

def unsignedPayload : Bytes := ascii "UNSIGNED-PAYLOAD"

/-- The library functions of the verification: the digests, the case and the spelling of names, and the
times of the layout `20060102T150405Z`, in nanoseconds. -/
structure SigEnv where
  sha256 : Bytes → Bytes
  hmacSHA256 : Bytes → Bytes → Bytes
  toLower : Bytes → Bytes
  canonicalHeaderKey : Bytes → Bytes
  parseTime : Bytes → Option Int
  now : Int
  toLower_bar : ∀ s, (59 : UInt8) ∉ s → (59 : UInt8) ∉ toLower s
  parseTime_line : ∀ s t, parseTime s = some t → (10 : UInt8) ∉ s

/-- A request as `net/http` hands it over: no line break in its method, its path or a header. -/
structure WireRequest where
  method : Bytes
  escapedPath : Bytes
  query : Values
  header : Bytes → List Bytes
  host : Bytes
  contentLength : Int
  method_line : (10 : UInt8) ∉ method
  path_line : (10 : UInt8) ∉ escapedPath
  header_line : ∀ key, ∀ v ∈ header key, (10 : UInt8) ∉ v ∧ (13 : UInt8) ∉ v

/-- `Header.Get`. -/
def WireRequest.headerGet (r : WireRequest) (key : String) : Bytes := (r.header (ascii key)).head?.getD []

/-- `Values.Get`. -/
def WireRequest.queryGet (r : WireRequest) (key : String) : Bytes := (r.query.get (ascii key)).head?.getD []

structure Credential where
  accessKey : Bytes
  date : Bytes
  region : Bytes
  service : Bytes
  scope : Bytes
  deriving DecidableEq, Repr

def parseCredential (cred : Bytes) : Option Credential :=
  match cred.splitOn 47 with
  | [accessKey, date, region, service, terminal] =>
    if terminal ≠ ascii "aws4_request" then none
    else if accessKey = [] ∨ date = [] ∨ region = [] ∨ service = [] then none
    else some ⟨accessKey, date, region, service, [47].intercalate [date, region, service, terminal]⟩
  | _ => none

def parseAuthHeader (h : Bytes) : List (Bytes × Bytes) :=
  let h := trimSpaceBytes (if sigV4Algorithm.isPrefixOf h then h.drop sigV4Algorithm.length else h)
  (h.splitOn 44).filterMap fun part =>
    match Framing.cut 61 (trimSpaceBytes part) with
    | none => none
    | some (name, value) => some (trimSpaceBytes name, trimSpaceBytes value)

/-- A parameter of the map that `parseAuthHeader` fills: the last one of its name. -/
def WireRequest.authParam (r : WireRequest) (name : String) : Bytes :=
  ((parseAuthHeader (r.headerGet "Authorization")).reverse.lookup (ascii name)).getD []

section
variable (env : SigEnv)

def splitSignedHeaders (raw : Bytes) : List Bytes :=
  sortStrings ((raw.splitOn 59).map fun h => env.toLower (trimSpaceBytes h))

def WireRequest.signedValue (r : WireRequest) (h : Bytes) : Bytes :=
  if h = ascii "host" then trimAll r.host
  else if h = ascii "content-length" ∧ 0 ≤ r.contentLength then formatInt r.contentLength
  else trimAll ([44].intercalate (r.header (env.canonicalHeaderKey h)))

def canonicalHeaders (r : WireRequest) (signedHeaders : List Bytes) : Bytes :=
  signedHeaders.flatMap fun h => h ++ 58 :: r.signedValue env h ++ [10]

def WireRequest.canonicalURI (r : WireRequest) : Bytes := if r.escapedPath = [] then [47] else r.escapedPath

def canonicalRequest (r : WireRequest) (signedHeaders : List Bytes) (canonicalQuery payloadHash : Bytes) : Bytes :=
  [10].intercalate [r.method, r.canonicalURI, canonicalQuery, canonicalHeaders env r signedHeaders,
    [59].intercalate signedHeaders, payloadHash]

def stringToSign (cred : Credential) (amzDate request : Bytes) : Bytes :=
  [10].intercalate [sigV4Algorithm, amzDate, cred.scope, hexBytes (env.sha256 request)]

def deriveSigningKey (secret date region service : Bytes) : Bytes :=
  let kDate := env.hmacSHA256 (ascii "AWS4" ++ secret) date
  let kRegion := env.hmacSHA256 kDate region
  let kService := env.hmacSHA256 kRegion service
  env.hmacSHA256 kService (ascii "aws4_request")

def computeSignature (r : WireRequest) (secretKey : Bytes) (cred : Credential) (amzDate : Bytes)
    (signedHeaders : List Bytes) (canonicalQuery payloadHash : Bytes) : Bytes :=
  hexBytes (env.hmacSHA256 (deriveSigningKey env secretKey cred.date cred.region cred.service)
    (stringToSign env cred amzDate (canonicalRequest env r signedHeaders canonicalQuery payloadHash)))

def presignSkewGrace : Int := 15 * 60 * 1000000000

def maxPresignExpires : Int := 7 * 24 * 60 * 60

def withinSkew (amzDate : Bytes) : Bool :=
  match env.parseTime amzDate with
  | none => false
  | some t => (env.now - t).natAbs ≤ presignSkewGrace

def presignedNotExpired (amzDate expires : Bytes) : Bool :=
  match env.parseTime amzDate with
  | none => false
  | some t => match parseInt expires with
    | none => false
    | some seconds => 1 ≤ seconds && seconds ≤ maxPresignExpires && t - presignSkewGrace ≤ env.now &&
        env.now ≤ t + seconds * 1000000000

def scopeDateMatches (cred : Credential) (amzDate : Bytes) : Bool := 8 ≤ amzDate.length && cred.date = amzDate.take 8

def WireRequest.payloadHash (r : WireRequest) : Bytes :=
  if r.headerGet "X-Amz-Content-Sha256" = [] then unsignedPayload else r.headerGet "X-Amz-Content-Sha256"

def verifyHeaderV4 (r : WireRequest) (accessKey secretKey : Bytes) : Bool :=
  match parseCredential (r.authParam "Credential") with
  | none => false
  | some cred =>
    let signedHeadersRaw := r.authParam "SignedHeaders"
    let providedSig := r.authParam "Signature"
    let amzDate := r.headerGet "X-Amz-Date"
    let signedHeaders := splitSignedHeaders env signedHeadersRaw
    cred.accessKey = accessKey && signedHeadersRaw ≠ [] && providedSig ≠ [] && amzDate ≠ [] &&
      withinSkew env amzDate && scopeDateMatches cred amzDate && signedHeaders.contains (ascii "host") &&
      computeSignature env r secretKey cred amzDate signedHeaders (canonicalQueryString r.query []) r.payloadHash = providedSig

def verifyPresignedV4 (r : WireRequest) (accessKey secretKey : Bytes) : Bool :=
  r.queryGet "X-Amz-Algorithm" = sigV4Algorithm &&
  match parseCredential (r.queryGet "X-Amz-Credential") with
  | none => false
  | some cred =>
    let providedSig := r.queryGet "X-Amz-Signature"
    let signedHeadersRaw := r.queryGet "X-Amz-SignedHeaders"
    let amzDate := r.queryGet "X-Amz-Date"
    let signedHeaders := splitSignedHeaders env signedHeadersRaw
    cred.accessKey = accessKey && providedSig ≠ [] && signedHeadersRaw ≠ [] && amzDate ≠ [] &&
      presignedNotExpired env amzDate (r.queryGet "X-Amz-Expires") && scopeDateMatches cred amzDate &&
      signedHeaders.contains (ascii "host") &&
      computeSignature env r secretKey cred amzDate signedHeaders (canonicalQueryString r.query signatureParam)
        unsignedPayload = providedSig

end

structure SignatureClaim where
  credential : Bytes
  signature : Bytes
  signedHeaders : Bytes
  amzDate : Bytes
  payloadHash : Bytes

def SigningForm.claim (form : SigningForm) (r : WireRequest) : SignatureClaim :=
  match form with
  | .header => ⟨r.authParam "Credential", r.authParam "Signature", r.authParam "SignedHeaders", r.headerGet "X-Amz-Date",
      r.payloadHash⟩
  | .presigned => ⟨r.queryGet "X-Amz-Credential", r.queryGet "X-Amz-Signature", r.queryGet "X-Amz-SignedHeaders",
      r.queryGet "X-Amz-Date", unsignedPayload⟩

def SigningForm.verify (form : SigningForm) (env : SigEnv) (r : WireRequest) (accessKey secretKey : Bytes) : Bool :=
  match form with
  | .header => verifyHeaderV4 env r accessKey secretKey
  | .presigned => verifyPresignedV4 env r accessKey secretKey

section
variable {env : SigEnv} {form : SigningForm} {r r' : WireRequest} {accessKey secretKey : Bytes}

theorem computeSignature_of_verify (h : form.verify env r accessKey secretKey = true) :
    ∃ cred t, parseCredential (form.claim r).credential = some cred ∧ env.parseTime (form.claim r).amzDate = some t ∧
      computeSignature env r secretKey cred (form.claim r).amzDate (splitSignedHeaders env (form.claim r).signedHeaders)
        (canonicalQueryString r.query form.exclude) (form.claim r).payloadHash = (form.claim r).signature := by
  cases form with
  | header =>
    simp only [SigningForm.verify, verifyHeaderV4] at h
    cases hcred : parseCredential (r.authParam "Credential") with
    | none => simp [hcred] at h
    | some cred =>
      simp only [hcred, Bool.and_eq_true, decide_eq_true_eq] at h
      obtain ⟨⟨⟨⟨-, hskew⟩, -⟩, -⟩, hsig⟩ := h
      unfold withinSkew at hskew
      split at hskew
      · cases hskew
      · next t ht => exact ⟨cred, t, hcred, ht, hsig⟩
  | presigned =>
    simp only [SigningForm.verify, verifyPresignedV4] at h
    cases hcred : parseCredential (r.queryGet "X-Amz-Credential") with
    | none => simp [hcred] at h
    | some cred =>
      simp only [hcred, Bool.and_eq_true, decide_eq_true_eq] at h
      obtain ⟨-, ⟨⟨⟨-, hfresh⟩, -⟩, -⟩, hsig⟩ := h
      unfold presignedNotExpired at hfresh
      split at hfresh
      · cases hfresh
      · next t ht => exact ⟨cred, t, hcred, ht, hsig⟩

theorem parseCredential_of_scope {c c' : Bytes} {cred cred' : Credential} (h : parseCredential c = some cred)
    (h' : parseCredential c' = some cred') (hscope : cred.scope = cred'.scope) :
    cred.date = cred'.date ∧ cred.region = cred'.region ∧ cred.service = cred'.service := by
  have hparts {c : Bytes} {cred : Credential} (h : parseCredential c = some cred) :
      ∃ terminal, cred.scope = [47].intercalate [cred.date, cred.region, cred.service, terminal] ∧
        ∀ part ∈ [cred.date, cred.region, cred.service, terminal], (47 : UInt8) ∉ part := by
    unfold parseCredential at h
    split at h
    · next accessKey date region service terminal hsplit =>
      split at h
      · cases h
      split at h
      · cases h
      cases h
      refine ⟨terminal, rfl, fun part hpart => ?_⟩
      apply Framing.not_mem_of_mem_splitOn (s := c)
      rw [hsplit]
      exact List.mem_cons_of_mem _ hpart
    · cases h
  obtain ⟨terminal, heq, hfree⟩ := hparts h
  obtain ⟨terminal', heq', hfree'⟩ := hparts h'
  have hlist := Framing.join_inj hfree hfree' (List.cons_ne_nil _ _) (List.cons_ne_nil _ _)
    (heq.symm.trans (hscope.trans heq'))
  simp only [List.cons.injEq, and_true] at hlist
  exact ⟨hlist.1, hlist.2.1, hlist.2.2.1⟩

theorem hexBytes_inj {s t : Bytes} (h : hexBytes s = hexBytes t) : s = t := by
  have hdigit {m n : Nat} (hm : m < 16) (hn : n < 16)
      (heq : UInt8.ofNat (hexDigit m).toNat = UInt8.ofNat (hexDigit n).toNat) : m = n := by
    have hall : ∀ m < 16, ∀ n < 16, UInt8.ofNat (hexDigit m).toNat = UInt8.ofNat (hexDigit n).toNat → m = n := by decide
    exact hall m hm n hn heq
  induction s generalizing t with
  | nil =>
    cases t with
    | nil => rfl
    | cons b t => cases h
  | cons a s ih =>
    cases t with
    | nil => cases h
    | cons b t =>
      simp only [hexBytes, List.flatMap_cons, List.cons_append, List.nil_append, List.cons.injEq] at h
      obtain ⟨hhigh, hlow, hrest⟩ := h
      have ha := a.toNat_lt
      have hb := b.toNat_lt
      have h1 := hdigit (by omega) (by omega) hhigh
      have h2 := hdigit (by omega) (by omega) hlow
      have hab : a = b := UInt8.toNat_inj.mp (by omega)
      rw [hab, ih hrest]

theorem stringToSign_inj {cred cred' : Credential} {amzDate amzDate' request request' : Bytes}
    (hscope : cred.scope = cred'.scope) (hdate : (10 : UInt8) ∉ amzDate) (hdate' : (10 : UInt8) ∉ amzDate')
    (h : stringToSign env cred amzDate request = stringToSign env cred' amzDate' request') :
    amzDate = amzDate' ∧ env.sha256 request = env.sha256 request' := by
  simp only [stringToSign, Framing.join_cons_cons] at h
  have htail := (List.cons.inj (List.append_cancel_left h)).2
  obtain ⟨hamz, hrest⟩ := Framing.cut_inj hdate hdate' htail
  rw [hscope] at hrest
  have hdigest : hexBytes (env.sha256 request) = hexBytes (env.sha256 request') := by
    simpa [List.intercalate] using hrest
  exact ⟨hamz, hexBytes_inj hdigest⟩

theorem fieldsFrom_line (skip : Nat) {word s : Bytes} (hword : (10 : UInt8) ∉ word) :
    ∀ field ∈ fieldsFrom skip word s, (10 : UInt8) ∉ field := by
  have hlast {word : Bytes} (hword : (10 : UInt8) ∉ word) :
      ∀ field ∈ (if word = [] then [] else [word.reverse]), (10 : UInt8) ∉ field := by
    intro field hfield
    split at hfield
    · cases hfield
    · rw [List.mem_singleton.mp hfield]
      simpa using hword
  induction s generalizing skip word with
  | nil =>
    unfold fieldsFrom
    exact hlast hword
  | cons c s ih =>
    cases skip with
    | succ skip =>
      unfold fieldsFrom
      exact ih skip hword
    | zero =>
      unfold fieldsFrom
      split
      · intro field hfield
        rcases List.mem_append.mp hfield with hfield | hfield
        · exact hlast hword field hfield
        · exact ih _ List.not_mem_nil field hfield
      · next hnone =>
        -- a line break is a space of its own
        have hc : (10 : UInt8) ≠ c := by
          rintro rfl
          have hspace := List.find?_eq_none.mp hnone [10] (by decide)
          simp at hspace
        apply ih
        simp only [List.mem_cons, not_or]
        exact ⟨hc, hword⟩

theorem trimAll_line (s : Bytes) : (10 : UInt8) ∉ trimAll s :=
  Framing.not_mem_join (by decide) (fieldsFrom_line 0 List.not_mem_nil)

theorem formatInt_line (n : Int) : (10 : UInt8) ∉ formatInt n := by
  unfold formatInt
  have hdigits : ∀ d ∈ (Nat.toDigits 10 n.natAbs).map fun c => UInt8.ofNat c.toNat, (10 : UInt8) ≠ d := by
    intro d hd
    obtain ⟨c, hc, rfl⟩ := List.mem_map.mp hd
    have hdigit := Nat.isDigit_of_mem_toDigits (by decide) (by decide) hc
    have hrange : 48 ≤ c.val ∧ c.val ≤ 57 := by simpa [Char.isDigit] using hdigit
    have hlow : 48 ≤ c.toNat := UInt32.le_iff_toNat_le.mp hrange.1
    have hhigh : c.toNat ≤ 57 := UInt32.le_iff_toNat_le.mp hrange.2
    intro heq
    have hnat := congrArg UInt8.toNat heq
    rw [UInt8.toNat_ofNat'] at hnat
    simp at hnat
    omega
  intro hmem
  rcases List.mem_append.mp hmem with hmem | hmem
  · split at hmem
    · exact absurd (List.mem_singleton.mp hmem) (by decide)
    · cases hmem
  · exact hdigits _ hmem rfl

theorem signedValue_line (env : SigEnv) (r : WireRequest) (h : Bytes) : (10 : UInt8) ∉ r.signedValue env h := by
  unfold WireRequest.signedValue
  split
  · exact trimAll_line _
  · split
    · exact formatInt_line _
    · exact trimAll_line _

theorem canonicalURI_line (r : WireRequest) : (10 : UInt8) ∉ r.canonicalURI := by
  unfold WireRequest.canonicalURI
  split
  · decide
  · exact r.path_line

theorem headerGet_line (r : WireRequest) (key : String) : (10 : UInt8) ∉ r.headerGet key := by
  unfold WireRequest.headerGet
  cases hvalues : r.header (ascii key) with
  | nil => exact List.not_mem_nil
  | cons v vs => exact (r.header_line (ascii key) v (hvalues ▸ List.mem_cons_self)).1

theorem payloadHash_line (form : SigningForm) (r : WireRequest) : (10 : UInt8) ∉ (form.claim r).payloadHash := by
  have hunsigned : (10 : UInt8) ∉ unsignedPayload := by decide
  cases form with
  | presigned => exact hunsigned
  | header =>
    show (10 : UInt8) ∉ r.payloadHash
    unfold WireRequest.payloadHash
    split
    · exact hunsigned
    · exact headerGet_line r _

theorem splitSignedHeaders_bar (env : SigEnv) (raw : Bytes) : ∀ h ∈ splitSignedHeaders env raw, (59 : UInt8) ∉ h := by
  intro h hh
  have hmem := (sortStrings_perm _).mem_iff.mp hh
  obtain ⟨piece, hpiece, rfl⟩ := List.mem_map.mp hmem
  apply env.toLower_bar
  intro hbar
  exact Framing.not_mem_of_mem_splitOn hpiece ((trimTokens_isInfix _ _).subset hbar)

theorem splitSignedHeaders_ne_nil (env : SigEnv) (raw : Bytes) : splitSignedHeaders env raw ≠ [] := by
  intro hnil
  have hlen := (sortStrings_perm ((raw.splitOn 59).map fun h => env.toLower (trimSpaceBytes h))).length_eq
  rw [show sortStrings _ = [] from hnil, List.length_map] at hlen
  exact List.splitOn_ne_nil 59 raw (List.eq_nil_of_length_eq_zero hlen.symm)

def WireRequest.signedRows (env : SigEnv) (r : WireRequest) (signedHeaders : List Bytes) : List (Bytes × Bytes) :=
  signedHeaders.map fun h => (h, r.signedValue env h)

theorem canonicalRequest_eq (env : SigEnv) (r : WireRequest) (signedHeaders : List Bytes) (query payload : Bytes) :
    canonicalRequest env r signedHeaders query payload = r.method ++ 10 :: (r.canonicalURI ++ 10 :: (query ++
      10 :: (Framing.table 10 58 59 (r.signedRows env signedHeaders) ++ 10 :: payload))) := by
  have hrows : canonicalHeaders env r signedHeaders = Framing.rowsText 10 58 (r.signedRows env signedHeaders) := by
    rw [canonicalHeaders, Framing.rowsText, WireRequest.signedRows, List.flatMap_map]
  have hnames : (r.signedRows env signedHeaders).map Prod.fst = signedHeaders := by
    simp [WireRequest.signedRows, Function.comp_def]
  simp only [canonicalRequest, Framing.join_cons_cons, Framing.table, hrows, hnames]
  simp [List.intercalate]

theorem canonicalRequest_inj {raw raw' query query' payload payload' : Bytes} (hquery : (10 : UInt8) ∉ query)
    (hquery' : (10 : UInt8) ∉ query') (hpayload : (10 : UInt8) ∉ payload) (hpayload' : (10 : UInt8) ∉ payload')
    (h : canonicalRequest env r (splitSignedHeaders env raw) query payload =
      canonicalRequest env r' (splitSignedHeaders env raw') query' payload') :
    r.method = r'.method ∧ r.canonicalURI = r'.canonicalURI ∧ query = query' ∧
      r.signedRows env (splitSignedHeaders env raw) = r'.signedRows env (splitSignedHeaders env raw') ∧
      payload = payload' := by
  rw [canonicalRequest_eq, canonicalRequest_eq] at h
  obtain ⟨hmethod, h⟩ := Framing.cut_inj r.method_line r'.method_line h
  obtain ⟨huri, h⟩ := Framing.cut_inj (canonicalURI_line r) (canonicalURI_line r') h
  obtain ⟨hq, h⟩ := Framing.cut_inj hquery hquery' h
  obtain ⟨htable, hp⟩ := Framing.cut_last_inj hpayload hpayload' h
  have hvalues {r : WireRequest} {names : List Bytes} : ∀ row ∈ r.signedRows env names, (10 : UInt8) ∉ row.2 := by
    intro row hrow
    obtain ⟨name, -, rfl⟩ := List.mem_map.mp hrow
    exact signedValue_line env r name
  have hnames {r : WireRequest} {raw : Bytes} :
      ∀ row ∈ r.signedRows env (splitSignedHeaders env raw), (59 : UInt8) ∉ row.1 := by
    intro row hrow
    obtain ⟨name, hname, rfl⟩ := List.mem_map.mp hrow
    exact splitSignedHeaders_bar env raw name hname
  have hne {r : WireRequest} {raw : Bytes} : r.signedRows env (splitSignedHeaders env raw) ≠ [] :=
    fun hnil => splitSignedHeaders_ne_nil env raw (List.map_eq_nil_iff.mp hnil)
  have hrows := Framing.table_inj (by decide) (by decide) hvalues hvalues hnames hnames hne hne htable
  exact ⟨hmethod, huri, hq, hrows, hp⟩

theorem signedRows_inj {names names' : List Bytes} (h : r.signedRows env names = r'.signedRows env names') :
    names = names' ∧ ∀ name ∈ names, r.signedValue env name = r'.signedValue env name := by
  have hnames : names = names' := by
    have hfst := congrArg (List.map Prod.fst) h
    simpa [WireRequest.signedRows, Function.comp_def] using hfst
  subst hnames
  refine ⟨rfl, fun name hname => ?_⟩
  have hrow := List.map_inj_left.mp h name hname
  exact (Prod.mk.inj hrow).2

end

/-- Two requests agree on all that is signed. An empty path is the path `/`. -/
structure SignedAlike (env : SigEnv) (form : SigningForm) (r r' : WireRequest) : Prop where
  method : r.method = r'.method
  path : r.canonicalURI = r'.canonicalURI
  query : (form.signed r.query.pairs).Perm (form.signed r'.query.pairs)
  amzDate : (form.claim r).amzDate = (form.claim r').amzDate
  headers : splitSignedHeaders env (form.claim r).signedHeaders = splitSignedHeaders env (form.claim r').signedHeaders
  values : ∀ h ∈ splitSignedHeaders env (form.claim r).signedHeaders, r.signedValue env h = r'.signedValue env h
  payloadHash : (form.claim r).payloadHash = (form.claim r').payloadHash

def plainSigEnv : SigEnv where
  sha256 := id
  hmacSHA256 _ data := data
  toLower := id
  canonicalHeaderKey := id
  parseTime s := if s = ascii "20130524T000000Z" then some 0 else none
  now := 0
  toLower_bar _ := id
  parseTime_line s t h := by
    split at h
    · next hs =>
      rw [hs]
      decide
    · cases h

def rootRequest : Bytes :=
  [10].intercalate [ascii "GET", ascii "/", [], ascii "host:h" ++ [10], ascii "host", unsignedPayload]

def rootSignature : Bytes :=
  hexBytes ([10].intercalate [sigV4Algorithm, ascii "20130524T000000Z", ascii "20130524/r/s/aws4_request",
    hexBytes rootRequest])

def rootAuthorization : Bytes :=
  ascii "AWS4-HMAC-SHA256 Credential=k/20130524/r/s/aws4_request, SignedHeaders=host, Signature=" ++ rootSignature

def rootHeader (key : Bytes) : List Bytes :=
  if key = ascii "Authorization" then [rootAuthorization]
  else if key = ascii "X-Amz-Date" then [ascii "20130524T000000Z"]
  else []

theorem rootHeader_line (key : Bytes) : ∀ v ∈ rootHeader key, (10 : UInt8) ∉ v ∧ (13 : UInt8) ∉ v := by
  intro v hv
  unfold rootHeader at hv
  split at hv
  · rw [List.mem_singleton.mp hv]
    decide +kernel
  · split at hv
    · rw [List.mem_singleton.mp hv]
      decide +kernel
    · cases hv

def getRoot (path : Bytes) (hpath : (10 : UInt8) ∉ path) : WireRequest where
  method := ascii "GET"
  escapedPath := path
  query := ⟨[], List.nodup_nil⟩
  header := rootHeader
  host := ascii "h"
  contentLength := 0
  method_line := by decide
  path_line := hpath
  header_line := rootHeader_line

theorem getRoot_verified :
    SigningForm.header.verify plainSigEnv (getRoot [47] (by decide)) (ascii "k") [] = true ∧
      SigningForm.header.verify plainSigEnv (getRoot [] (by decide)) (ascii "k") [] = true ∧
      (SigningForm.header.claim (getRoot [47] (by decide))).credential =
        (SigningForm.header.claim (getRoot [] (by decide))).credential ∧
      (SigningForm.header.claim (getRoot [47] (by decide))).signature =
        (SigningForm.header.claim (getRoot [] (by decide))).signature := by
  refine ⟨?_, ?_, ?_, ?_⟩
  all_goals decide +kernel

end BirakFormal
