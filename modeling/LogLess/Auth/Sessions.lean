import LogLess.Auth.Jwt
import LogLess.Buckets
import LogLess.S3.Tree

/-!
# Temporary S3 credentials

A session token carries who it is for and when it ends, under a MAC of this instance; the access key
and the secret are derived from the same payload. Nothing is stored, so what a token was issued for is
all there is to check it against.

`verify_issue`: what becomes of a token that was issued. The HMAC is a parameter.
-/

namespace LogLess.Auth

open Json Serde Sentry
open S3 (ReadScope)

structure S3Credentials where
  accessKeyId : Text
  secretAccessKey : Text
  sessionToken : Text
  expiresUnixSecs : ℕ
deriving DecidableEq

/-- The key pair that requests are signed with. -/
structure KeyPair where
  accessKey : Text
  secretKey : Text
deriving DecidableEq

structure Sessions where
  key : ByteArr 32

def maxSessionTokenLen : ℕ := 4 * 1024

/-- What the payload of a session token says. -/
def sessionValue (c : Caller) (expires : ℕ) : Value :=
  .obj [("exp".toList, natValue expires), ("indexes".toList, c.indexes.toJson),
    ("kind".toList, .str c.kind.asStr), ("sub".toList, .str c.id),
    ("tenant".toList, .str c.tenant)]

def sessionPayload (c : Caller) (expires : ℕ) : Text :=
  Base64.encode (Utf8.encode (render (sessionValue c expires)))

/-- The names of a list of indexes. -/
def indexList : Option Value → Except Refusal (List Text)
  | some (.arr items) => okOr (items.mapM readStr) .claims
  | _ => .error .claims

namespace Sessions

section

variable (hmacSha256 : List UInt8 → List UInt8 → ByteArr 32) (s : Sessions)

def hmac (label : String) (data : Text) : ByteArr 32 :=
  hmacSha256 s.key.val (Utf8.encode (label.toList ++ '\n' :: data))

def keyPair (payload : Text) : KeyPair where
  accessKey := "LLTMP".toList ++
    asciiUpper (Store.simple ((s.hmac hmacSha256 "logless-s3-access-key-v1" payload).val.take 8))
  secretKey := Store.simple (s.hmac hmacSha256 "logless-s3-secret-v1" payload).val

def mac (payload : Text) : Text :=
  Base64.encode (s.hmac hmacSha256 "logless-s3-session-v1" payload).val

def token (payload : Text) : Text :=
  "v1".toList ++ '.' :: (payload ++ '.' :: s.mac hmacSha256 payload)

/-- `Sessions::issue`. -/
def issue (c : Caller) (expires : ℕ) : S3Credentials where
  accessKeyId := (s.keyPair hmacSha256 (sessionPayload c expires)).accessKey
  secretAccessKey := (s.keyPair hmacSha256 (sessionPayload c expires)).secretKey
  sessionToken := s.token hmacSha256 (sessionPayload c expires)
  expiresUnixSecs := expires

/-- `Sessions::verify`. -/
def verify (token : Text) (now : ℕ) : Except Refusal (Caller × KeyPair) := do
  require (token.len ≤ maxSessionTokenLen) .malformed
  let (version, payload, mac) ← okOr (threeParts token) .malformed
  require (version == "v1".toList) .malformed
  let presented ← okOr (Base64.decode mac) .malformed
  require ((s.hmac hmacSha256 "logless-s3-session-v1" payload).val == presented) .signature
  let claims ← okOr ((Base64.decode payload).bind jsonObject) .claims
  let sub ← okOr (textClaim claims "sub") .claims
  let kind ← okOr ((textClaim claims "kind").bind Kind.parse) .claims
  let tenant ← okOr (textClaim claims "tenant") .claims
  let exp ← okOr ((member claims "exp".toList).bind (readNat (2 ^ 64))) .claims
  let indexes ← indexList (member claims "indexes".toList)
  require (now < exp) .expired
  return ({
    tenant := tenant
    indexes := .fromList indexes
    id := sub
    kind := kind
    scopes := []
    roles := []
    source := .session
    expiresUnixSecs := some exp }, s.keyPair hmacSha256 payload)

end

end Sessions

/-- `issue_s3_credentials`, with the key and the time to live where sessions are on. -/
def issueS3Credentials (hmacSha256 : List UInt8 → List UInt8 → ByteArr 32)
    (sessions : Option (Sessions × ℕ)) (c : Caller) (now : ℕ) : Except Refusal S3Credentials :=
  match sessions.filter fun _ => c.source == .token with
  | none => .error .unknownKey
  | some (s, ttl) =>
    let expires := min (c.expiresUnixSecs.getD (2 ^ 64 - 1)) (min (2 ^ 64 - 1) (now + ttl))
    if expires ≤ now then .error .expired else .ok (s.issue hmacSha256 c expires)

/-! ## The text of a token -/

theorem dot_notMem_encode (bytes : List UInt8) : '.' ∉ Base64.encode bytes := by
  intro h
  exact absurd (Base64.isSome_digitValue_of_mem_encode h) (by decide)

/-- Digits are ASCII. -/
theorem len_encode (bytes : List UInt8) :
    Text.len (Base64.encode bytes) = (4 * bytes.length + 2) / 3 := by
  have hone : ∀ c ∈ Base64.encode bytes, c.utf8Size = 1 := by
    intro c hc
    obtain ⟨d, hd⟩ := Option.isSome_iff_exists.mp (Base64.isSome_digitValue_of_mem_encode hc)
    obtain ⟨hlt, rfl⟩ := Base64.digit_of_digitValue hd
    have hall : ∀ m < 64, (Base64.digit m).utf8Size = 1 := by decide
    exact hall d hlt
  rw [Text.len, List.map_congr_left hone, List.map_const', List.sum_replicate, ← Base64.length_encode,
    smul_eq_mul, mul_one]

theorem threeParts_of_notMem {a b c : Text} (ha : '.' ∉ a) (hb : '.' ∉ b) (hc : '.' ∉ c) :
    threeParts (a ++ '.' :: (b ++ '.' :: c)) = some (a, b, c) := by
  rw [threeParts, Text.splitAt_append ha, Text.splitAt_append hb, Text.splitAt_of_notMem hc]

theorem eq_of_threeParts {t a b c : Text} (h : threeParts t = some (a, b, c)) :
    t = a ++ '.' :: (b ++ '.' :: c) := by
  unfold threeParts at h
  split at h
  · next hsplit =>
    obtain ⟨rfl, rfl, rfl⟩ := by simpa using h
    exact Text.eq_of_splitAt_three hsplit
  · cases h

section

variable {hmacSha256 : List UInt8 → List UInt8 → ByteArr 32} {s : Sessions}

theorem len_token (payload : Text) :
    (s.token hmacSha256 payload).len = payload.len + 47 := by
  have hmac : (s.mac hmacSha256 payload).len = 43 := by
    rw [Sessions.mac, len_encode, (s.hmac hmacSha256 _ payload).property]
  have hversion : Text.len "v1".toList = 2 := by decide +kernel
  have hdot : Char.utf8Size '.' = 1 := by decide
  rw [Sessions.token]
  simp only [Text.len, List.map_append, List.sum_append, List.map_cons, List.sum_cons, hdot] at *
  omega

/-- Only a token that is written for its payload is accepted. -/
theorem eq_token_of_verify {t : Text} {now : ℕ} {r : Caller × KeyPair}
    (h : s.verify hmacSha256 t now = .ok r) :
    ∃ payload, t = s.token hmacSha256 payload ∧ threeParts t
      = some ("v1".toList, payload, s.mac hmacSha256 payload) := by
  obtain ⟨_, -, h⟩ := bind_eq_ok.mp h
  obtain ⟨⟨version, payload, mac⟩, hparts, h⟩ := bind_eq_ok.mp h
  obtain ⟨_, hversion, h⟩ := bind_eq_ok.mp h
  obtain ⟨presented, hpresented, h⟩ := bind_eq_ok.mp h
  obtain ⟨_, hmac, -⟩ := bind_eq_ok.mp h
  have hparts := okOr_eq_ok.mp hparts
  obtain rfl : version = "v1".toList := by simpa using require_eq_ok.mp hversion
  have hmac : (s.hmac hmacSha256 "logless-s3-session-v1" payload).val = presented := by
    simpa using require_eq_ok.mp hmac
  obtain rfl : s.mac hmacSha256 payload = mac := by
    rw [Sessions.mac, hmac]
    exact Base64.encode_of_decode (okOr_eq_ok.mp hpresented)
  exact ⟨payload, eq_of_threeParts hparts, hparts⟩

/-! ## A token that was issued -/

theorem parse_asStr (k : Kind) : Kind.parse k.asStr = some k := by
  have hall : ∀ k ∈ [Kind.ingest, .node, .replica, .reader, .admin, .user],
      Kind.parse k.asStr = some k := by decide +kernel
  exact hall k (by cases k <;> simp)

theorem asStr_ne_nil (k : Kind) : k.asStr ≠ [] := by
  have hall : ∀ k ∈ [Kind.ingest, .node, .replica, .reader, .admin, .user], k.asStr ≠ [] := by
    decide +kernel
  exact hall k (by cases k <;> simp)

/-- Star lists are mapped both ways. -/
theorem indexList_toJson (list : List Text) :
    ∃ names, indexList (some (Indexes.fromList list).toJson) = .ok names ∧
      Indexes.fromList names = .fromList list := by
  have hread : ∀ names : List Text, (names.map Value.str).mapM readStr = some names :=
    mapM_map_some fun _ => rfl
  by_cases hstar : list.contains star = true
  · rw [Indexes.fromList, if_pos hstar]
    exact ⟨[star], rfl, rfl⟩
  · rw [Indexes.fromList, if_neg hstar]
    refine ⟨list, ?_, ?_⟩
    · rw [Indexes.toJson, indexList, hread]
      rfl
    · rw [Indexes.fromList, if_neg hstar]

theorem valid_toJson (i : Indexes) : i.toJson.valid = true := by
  cases i with
  | all => rfl
  | only list => exact validItems_map fun _ _ => rfl

theorem textClaim_of_member {claims : List (Text × Value)} {name : String} {t : Text}
    (h : member claims name.toList = some (.str t)) (ht : t ≠ []) : textClaim claims name = some t := by
  rw [textClaim, h]
  simp [readStr, ht]

/-- The principal of a session. -/
def sessionCaller (c : Caller) (expires : ℕ) : Caller where
  tenant := c.tenant
  indexes := c.indexes
  id := c.id
  kind := c.kind
  scopes := []
  roles := []
  source := .session
  expiresUnixSecs := some expires

/-- **What becomes of a token that was issued.** -/
theorem verify_issue {c : Caller} {exp expires : ℕ} (hc : c.FromToken exp)
    (hexpires : expires < 2 ^ 64) (now : ℕ) :
    s.verify hmacSha256 (s.issue hmacSha256 c expires).sessionToken now
      = if 3036 < Text.len (render (sessionValue c expires)) then .error .malformed
        else if now < expires then
          .ok (sessionCaller c expires, s.keyPair hmacSha256 (sessionPayload c expires))
        else .error .expired := by
  have hlen : Text.len (s.token hmacSha256 (sessionPayload c expires))
      = (4 * Text.len (render (sessionValue c expires)) + 2) / 3 + 47 := by
    rw [len_token, sessionPayload, len_encode, Utf8.length_encode]
    rfl
  show s.verify hmacSha256 (s.token hmacSha256 (sessionPayload c expires)) now = _
  by_cases hlong : 3036 < Text.len (render (sessionValue c expires))
  · have hrefused : ¬ Text.len (s.token hmacSha256 (sessionPayload c expires)) ≤ maxSessionTokenLen := by
      rw [hlen, maxSessionTokenLen]
      omega
    rw [if_pos hlong, Sessions.verify, decide_eq_false hrefused]
    rfl
  · rw [if_neg hlong]
    have hfits : Text.len (s.token hmacSha256 (sessionPayload c expires)) ≤ maxSessionTokenLen := by
      rw [hlen, maxSessionTokenLen]
      omega
    have hparts : threeParts (s.token hmacSha256 (sessionPayload c expires))
        = some ("v1".toList, sessionPayload c expires,
          s.mac hmacSha256 (sessionPayload c expires)) :=
      threeParts_of_notMem (by decide +kernel) (dot_notMem_encode _) (dot_notMem_encode _)
    have hmac : Base64.decode (s.mac hmacSha256 (sessionPayload c expires))
        = some (s.hmac hmacSha256 "logless-s3-session-v1" (sessionPayload c expires)).val :=
      Base64.decode_encode _
    obtain ⟨list, hlist⟩ := hc.indexes
    obtain ⟨names, hnames, hindexes⟩ := indexList_toJson list
    generalize hms : sessionValue c expires = v at *
    obtain ⟨ms, rfl⟩ : ∃ ms, v = .obj ms := ⟨_, hms.symm⟩
    have hvalid : (Value.obj ms).valid = true := by
      rw [← hms]
      simp only [sessionValue, Value.valid, validMembers, valid_natValue, valid_toJson,
        Bool.and_self]
    have hclaims : (Base64.decode (sessionPayload c expires)).bind jsonObject = some ms := by
      rw [sessionPayload, hms, Base64.decode_encode, Option.bind_some, jsonObject,
        Utf8.strict_encode, Option.bind_some, parse_render hvalid]
    have hms := Value.obj.inj hms
    have hsub : textClaim ms "sub" = some c.id := by
      apply textClaim_of_member _ hc.id
      rw [← hms]
      rfl
    have hkind : textClaim ms "kind" = some c.kind.asStr := by
      apply textClaim_of_member _ (asStr_ne_nil c.kind)
      rw [← hms]
      rfl
    have htenant : textClaim ms "tenant" = some c.tenant := by
      apply textClaim_of_member
      · rw [← hms]
        rfl
      · intro hnil
        have := hc.tenant
        rw [hnil] at this
        cases this
    have hexp : member ms "exp".toList = some (natValue expires) := by
      rw [← hms]
      rfl
    have hindex : member ms "indexes".toList = some c.indexes.toJson := by
      rw [← hms]
      rfl
    have hcaller : sessionCaller c expires = { sessionCaller c expires with
        indexes := Indexes.fromList names } := by
      rw [hindexes, ← hlist]
      rfl
    rw [Sessions.verify, decide_eq_true hfits, hparts]
    simp only [require, okOr, bind, Except.bind, if_true, beq_self_eq_true, hmac, hclaims, hsub,
      hkind, Option.bind_some, parse_asStr, htenant, hexp, readNat_natValue hexpires, hindex, hlist,
      hnames]
    by_cases hnow : now < expires
    · rw [decide_eq_true hnow, if_pos hnow, hcaller]
      rfl
    · rw [decide_eq_false hnow, if_neg hnow]
      rfl

/-- What a token is signed with. -/
def sessionMessage (payload : Text) : List UInt8 :=
  Utf8.encode ("logless-s3-session-v1".toList ++ '\n' :: payload)

/-- **Credentials work for their scope and life** exactly if what they say fits in 3036 bytes of
JSON. They never outlive the token they were issued for, and a token that is accepted is the one that
is written for its payload: of the issued one, if no other message has its MAC. -/
theorem s3_credentials_exact (fl : FloatText) (ed25519 : List UInt8 → List UInt8 → List UInt8 → Bool)
    (hmacSha256 : List UInt8 → List UInt8 → ByteArr 32) (tenancy : Tenancy) (jwt : Jwt)
    (refreshed : Option KeySet) (presented : Text) (now : ℕ) (c : Caller)
    (hc : verifyToken fl ed25519 tenancy jwt refreshed presented now = .ok c) (s : Sessions)
    (ttl issueTime : ℕ) (issued : S3Credentials)
    (hissued : issueS3Credentials hmacSha256 (some (s, ttl)) c issueTime = .ok issued) :
    (∀ exp, c.expiresUnixSecs = some exp → issued.expiresUnixSecs ≤ exp) ∧
      (∀ later r, issued.expiresUnixSecs ≤ later →
        s.verify hmacSha256 issued.sessionToken later ≠ .ok r) ∧
      (∀ t later r, s.verify hmacSha256 t later = .ok r → ∃ payload,
        t = s.token hmacSha256 payload ∧
          (payload = sessionPayload c issued.expiresUnixSecs → t = issued.sessionToken) ∧
          ((∀ bytes, hmacSha256 s.key.val bytes
              = hmacSha256 s.key.val (sessionMessage (sessionPayload c issued.expiresUnixSecs)) →
                bytes = sessionMessage (sessionPayload c issued.expiresUnixSecs)) →
            s.mac hmacSha256 payload
              = s.mac hmacSha256 (sessionPayload c issued.expiresUnixSecs) →
            t = issued.sessionToken)) ∧
      ((∀ earlier < issued.expiresUnixSecs, ∃ session,
          s.verify hmacSha256 issued.sessionToken earlier
              = .ok (session, ⟨issued.accessKeyId, issued.secretAccessKey⟩) ∧
            session.tenant = c.tenant ∧ session.indexes = c.indexes ∧
            ReadScope.of session.toPrincipal = ReadScope.of c.toPrincipal) ↔
        Text.len (render (sessionValue c issued.expiresUnixSecs)) ≤ 3036) := by
  obtain ⟨exp, hfrom⟩ := fromToken_of_verifyToken hc
  have hsource : ((some (s, ttl)).filter fun _ => c.source == .token) = some (s, ttl) := by
    rw [hfrom.source]
    rfl
  rw [issueS3Credentials, hsource, hfrom.expires] at hissued
  simp only [Option.getD_some] at hissued
  generalize hexpires : min exp (min (2 ^ 64 - 1) (issueTime + ttl)) = expires at hissued
  split at hissued
  · cases hissued
  next hlife =>
  obtain rfl := Except.ok.inj hissued
  have hle : expires ≤ exp := hexpires ▸ min_le_left _ _
  have hspec := @verify_issue hmacSha256 s c exp expires hfrom (by have := hfrom.exp; omega)
  refine ⟨?_, ?_, ?_, ?_, ?_⟩
  · intro e he
    rw [hfrom.expires, Option.some.injEq] at he
    rw [← he]
    exact hle
  · intro later r hlater h
    have hlater : expires ≤ later := hlater
    rw [hspec] at h
    split at h
    · cases h
    · rw [if_neg (not_lt.mpr hlater)] at h
      cases h
  · intro t later r h
    obtain ⟨payload, rfl, -⟩ := eq_token_of_verify h
    refine ⟨payload, rfl, fun hp => by rw [hp]; rfl, fun hideal hmac => ?_⟩
    have hbytes : s.hmac hmacSha256 "logless-s3-session-v1" payload
        = s.hmac hmacSha256 "logless-s3-session-v1" (sessionPayload c expires) := by
      have hdecode := congrArg Base64.decode hmac
      rw [Sessions.mac, Sessions.mac, Base64.decode_encode, Base64.decode_encode,
        Option.some.injEq] at hdecode
      exact Subtype.ext hdecode
    have hmessage := congrArg Utf8.lossy (hideal (sessionMessage payload) hbytes)
    rw [sessionMessage, sessionMessage, Utf8.lossy_encode, Utf8.lossy_encode] at hmessage
    have hpayload := (List.cons.inj (List.append_cancel_left hmessage)).2
    rw [hpayload]
    rfl
  · intro h
    obtain ⟨session, hverify, -⟩ := h issueTime (not_le.mp hlife)
    rw [hspec] at hverify
    split at hverify
    · cases hverify
    · next hlong => exact not_lt.mp hlong
  · intro hshort earlier hearlier
    have hshort : Text.len (render (sessionValue c expires)) ≤ 3036 := hshort
    have hearlier : earlier < expires := hearlier
    refine ⟨sessionCaller c expires, ?_, rfl, rfl, rfl⟩
    rw [hspec, if_neg (not_lt.mpr hshort), if_pos hearlier]
    rfl

end

/-- A MAC that says how long its message is. -/
def lengthMac (_ message : List UInt8) : ByteArr 32 :=
  ⟨List.replicate 32 (UInt8.ofNat message.length), List.length_replicate⟩

def exampleTenancy : Tenancy := ⟨singleTenants .standard, "node-a".toList, standard_checked⟩

def exampleJwt : Jwt where
  issuer := "broker".toList
  audience := "logless".toList
  skew := 60
  keys := [("k".toList, "AAAA".toList)]

def exampleHeader : Text :=
  Base64.encode (Utf8.encode (render (.obj
    [("alg".toList, .str "EdDSA".toList), ("kid".toList, .str "k".toList)])))

/-- The claims beside the indexes. -/
def exampleClaims : List (Text × Value) :=
  [("iss".toList, .str "broker".toList), ("aud".toList, .str "logless".toList),
    ("sub".toList, .str "alice".toList), ("jti".toList, .str "1".toList),
    ("iat".toList, natValue 1000), ("exp".toList, natValue 5000),
    ("tenant".toList, .str defaultTenant), ("kind".toList, .str "user".toList)]

/-- A token of the broker for these indexes of the tenant, until the second 5000. -/
def exampleToken (indexes : List Text) : Text :=
  exampleHeader ++ '.' :: (Base64.encode (Utf8.encode (render (.obj
    (exampleClaims ++ [("indexes".toList, .arr (indexes.map .str))])))) ++ '.' :: "AAAA".toList)

def exampleCaller (indexes : List Text) : Caller where
  tenant := defaultTenant
  indexes := .only indexes
  id := "alice".toList
  kind := .user
  scopes := []
  roles := []
  source := .token
  expiresUnixSecs := some 5000

/-- A claim that is not about the indexes. -/
theorem member_exampleClaims {name : Text} (h : "indexes".toList ≠ name) (v : Value) :
    member (exampleClaims ++ [("indexes".toList, v)]) name = member exampleClaims name := by
  rw [member_concat, if_neg h]

/-- The token is accepted, whatever the indexes are, if it is not too long. -/
theorem verifyToken_exampleToken {indexes : List Text} (h : indexes.contains star = false)
    (hlen : Text.len (exampleToken indexes) ≤ maxTokenLen) :
    verifyToken zeroText (fun _ _ _ => true) exampleTenancy exampleJwt none (exampleToken indexes) 2000
      = .ok (exampleCaller indexes) := by
  have hlist : (indexes.map Value.str).mapM readStr = some indexes :=
    mapM_map_some (f := Value.str) (g := readStr) (fun _ => rfl) indexes
  have hindexes : Indexes.fromList indexes = .only indexes := by
    rw [Indexes.fromList, h]
    rfl
  obtain ⟨payload, hpayload⟩ : ∃ payload, payload = Base64.encode (Utf8.encode (render (.obj
    (exampleClaims ++ [("indexes".toList, .arr (indexes.map .str))])))) := ⟨_, rfl⟩
  have htoken : exampleToken indexes = exampleHeader ++ '.' :: (payload ++ '.' :: "AAAA".toList) := by
    rw [hpayload]
    rfl
  have hheader : '.' ∉ exampleHeader := dot_notMem_encode _
  have hdot : '.' ∉ payload := hpayload ▸ dot_notMem_encode _
  have hsign : '.' ∉ "AAAA".toList := by decide +kernel
  have hlooks : looksLikeJwt (exampleToken indexes) = true := by
    have hstart : "eyJ".toList.isPrefixOf (exampleToken indexes) = true := by
      rw [List.isPrefixOf_iff_prefix, htoken]
      exact (List.isPrefixOf_iff_prefix.mp (by decide +kernel)).trans (List.prefix_append _ _)
    have hcount : (exampleToken indexes).count '.' = 2 := by
      rw [htoken, List.count_append, List.count_cons_self, List.count_append, List.count_cons_self,
        List.count_eq_zero_of_not_mem hheader, List.count_eq_zero_of_not_mem hdot,
        List.count_eq_zero_of_not_mem hsign]
    rw [looksLikeJwt, decide_eq_true hlen, hstart, hcount]
    rfl
  have hparts : threeParts (exampleToken indexes) = some (exampleHeader, payload, "AAAA".toList) := by
    rw [htoken]
    exact threeParts_of_notMem hheader hdot hsign
  have hvalid : (Value.obj (exampleClaims ++
      [("indexes".toList, .arr (indexes.map .str))])).valid = true := by
    have hnames : validItems (indexes.map Value.str) = true := validItems_map fun _ _ => rfl
    simp only [exampleClaims, List.cons_append, List.nil_append, Value.valid, validMembers, hnames,
      valid_natValue, Bool.and_self]
  have hclaims : (Base64.decode payload).bind jsonObject
      = some (exampleClaims ++ [("indexes".toList, .arr (indexes.map .str))]) := by
    rw [hpayload, Base64.decode_encode, Option.bind_some, jsonObject, Utf8.strict_encode,
      Option.bind_some, parse_render hvalid]
  obtain ⟨header, hread, hkid⟩ : ∃ header, (Base64.decode exampleHeader).bind jsonObject = some header
      ∧ headerKid header = .ok "k".toList := by
    have hkid : (((Base64.decode exampleHeader).bind jsonObject).map headerKid)
        = some (.ok "k".toList) := by decide +kernel
    exact Option.map_eq_some_iff.mp hkid
  have hother := fun (name : Text) (hname : "indexes".toList ≠ name) =>
    member_exampleClaims hname (.arr (indexes.map .str))
  have hindex : member (exampleClaims ++ [("indexes".toList, .arr (indexes.map .str))])
      "indexes".toList = some (.arr (indexes.map .str)) := by
    rw [member_concat, if_pos rfl]
  generalize exampleClaims ++ [("indexes".toList, .arr (indexes.map .str))] = ms at *
  have htext : ∀ (name : String) (t : Text), "indexes".toList ≠ name.toList →
      textClaim exampleClaims name = some t → textClaim ms name = some t := by
    intro name t hname ht
    rw [textClaim, hother _ hname]
    exact ht
  have hiss := htext "iss" "broker".toList (by decide +kernel) (by decide +kernel)
  have hsub := htext "sub" "alice".toList (by decide +kernel) (by decide +kernel)
  have hjti := htext "jti" "1".toList (by decide +kernel) (by decide +kernel)
  have htenant := htext "tenant" defaultTenant (by decide +kernel) (by decide +kernel)
  have hkind := htext "kind" "user".toList (by decide +kernel) (by decide +kernel)
  have hname : textClaim ms "name" = none := by
    rw [textClaim, hother _ (by decide +kernel)]
    decide +kernel
  have haud : (member ms "aud".toList).isSome = true ∧
      ((member ms "aud".toList).bind readStr == some exampleJwt.audience) = true := by
    rw [hother _ (by decide +kernel)]
    decide +kernel
  have hexp : secondsClaim zeroText ms "exp" = some 5000 := by
    rw [secondsClaim, hother _ (by decide +kernel)]
    decide +kernel
  have hiat : secondsClaim zeroText ms "iat" = some 1000 := by
    rw [secondsClaim, hother _ (by decide +kernel)]
    decide +kernel
  have hscopes : listClaim ms "scopes" = .ok [] := by
    rw [listClaim, hother _ (by decide +kernel)]
    decide +kernel
  have hroles : listClaim ms "roles" = .ok [] := by
    rw [listClaim, hother _ (by decide +kernel)]
    decide +kernel
  have hnames : listClaim ms "indexes" = .ok indexes := by
    rw [listClaim, hindex]
    simp only
    rw [hlist]
    rfl
  have hread' : exampleJwt.readClaims zeroText ms 2000 = .ok {
      sub := "alice".toList, name := none, tenant := defaultTenant, kind := .user
      indexes := .only indexes, scopes := [], roles := [], exp := 5000 } := by
    have hissuer : ("broker".toList == exampleJwt.issuer) = true := by decide +kernel
    have hlive : decide (2000 - exampleJwt.skew < 5000) = true := by decide
    have hvalid : decide (1000 ≤ min (2 ^ 64 - 1) (2000 + exampleJwt.skew)) = true := by decide
    have huser : Kind.parse "user".toList = some .user := by decide +kernel
    have hident : validIdent defaultTenant = true := by decide +kernel
    rw [Jwt.readClaims, haud.1, haud.2]
    simp only [require, okOr, bind, Except.bind, if_true, hiss, hsub, hexp, hiat, hjti, htenant, hkind,
      hissuer, hlive, hvalid, huser, hident, hnames, hscopes, hroles, hname, hindexes]
    rfl
  have hkey : exampleJwt.keys.key "k".toList = some [0, 0, 0] := by decide +kernel
  have hsigned : Base64.decode "AAAA".toList = some [0, 0, 0] := by decide +kernel
  have htenancy : (exampleTenancy.configured defaultTenant).isSome = true := by decide +kernel
  rw [verifyToken, hlooks, Jwt.verifyAt, hparts]
  simp only [require, okOr, bind, Except.bind, if_true, hread, hkid, hkey, Option.some_or, hsigned,
    hclaims, hread', htenancy]
  rfl

/-- Credentials for two indexes work until they end. -/
theorem s3_credentials_exact_two :
    let s : Sessions := ⟨⟨List.replicate 32 7, rfl⟩⟩
    let c := exampleCaller ["app".toList, "web".toList]
    let issued := s.issue lengthMac c 2900
    ∀ earlier < 2900, ∃ session,
      s.verify lengthMac issued.sessionToken earlier
          = .ok (session, ⟨issued.accessKeyId, issued.secretAccessKey⟩) ∧
        session.tenant = c.tenant ∧ session.indexes = c.indexes ∧
        ReadScope.of session.toPrincipal = ReadScope.of c.toPrincipal := by
  intro s c issued
  have hc : verifyToken zeroText (fun _ _ _ => true) exampleTenancy exampleJwt none
      (exampleToken ["app".toList, "web".toList]) 2000 = .ok c := by decide +kernel
  have hissued : issueS3Credentials lengthMac (some (s, 900)) c 2000 = .ok issued := by
    decide +kernel
  exact (s3_credentials_exact zeroText _ lengthMac exampleTenancy exampleJwt none _ 2000 c hc s 900
    2000 issued hissued).2.2.2.mpr (by decide +kernel)

/-- The length of a member of an object, with its colon and a comma. -/
def memberLen (m : Text × Value) : ℕ := Text.len (quote m.1) + Text.len (render m.2) + 2

theorem len_append (a b : Text) : Text.len (a ++ b) = Text.len a + Text.len b := by
  rw [Text.len, List.map_append, List.sum_append]
  rfl

theorem len_cons (c : Char) (t : Text) : Text.len (c :: t) = c.utf8Size + Text.len t := rfl

theorem len_renderMembers (ms : List (Text × Value)) :
    Text.len (renderMembers ms) = (ms.map memberLen).sum + 1 := by
  induction ms with
  | nil => rfl
  | cons m ms ih =>
    have hone : ∀ c ∈ [',', ':'], Char.utf8Size c = 1 := by
      simp [Char.utf8Size]
    rw [renderMembers, len_cons, len_append, len_cons, len_append, ih, List.map_cons, List.sum_cons,
      memberLen, hone ',' (by simp), hone ':' (by simp)]
    omega

/-- The length of the text of an object. -/
theorem len_render_obj (m : Text × Value) (ms : List (Text × Value)) :
    Text.len (render (.obj (m :: ms))) = ((m :: ms).map memberLen).sum + 1 := by
  have hone : ∀ c ∈ ['{', ':'], Char.utf8Size c = 1 := by
    simp [Char.utf8Size]
  rw [render, len_cons, len_append, len_cons, len_append, len_renderMembers, List.map_cons,
    List.sum_cons, memberLen, hone '{' (by simp), hone ':' (by simp)]
  omega

theorem len_renderItems (n : ℕ) (v : Value) :
    Text.len (renderItems (List.replicate n v)) = n * (Text.len (render v) + 1) + 1 := by
  induction n with
  | zero => rw [List.replicate_zero, zero_mul]; rfl
  | succ n ih =>
    have hone : Char.utf8Size ',' = 1 := by decide
    rw [List.replicate_succ, renderItems, len_cons, len_append, ih, hone]
    ring

/-- Sixty indexes with names of fifty letters. -/
def longNames : List Text := List.replicate 60 (List.replicate 50 'a')

theorem len_longNames : Text.len (render (.arr (longNames.map .str))) = 3181 := by
  have hname : Text.len (render (.str (List.replicate 50 'a'))) = 52 := by decide +kernel
  have hone : Char.utf8Size '[' = 1 := by decide
  have hcons : longNames.map Value.str = .str (List.replicate 50 'a')
      :: List.replicate 59 (.str (List.replicate 50 'a')) := by
    rw [longNames, List.map_replicate]
    rfl
  rw [hcons, render, len_cons, len_append, len_renderItems, hname, hone]

theorem len_longToken : Text.len (exampleToken longNames) ≤ maxTokenLen := by
  have hheader : exampleHeader.len = 34 := by decide +kernel
  have hsign : Text.len "AAAA".toList = 4 := by decide +kernel
  have hdot : Char.utf8Size '.' = 1 := by decide
  have hclaims : (exampleClaims.map memberLen).sum = 110 := by decide +kernel
  have hname : Text.len (quote "indexes".toList) = 9 := by decide +kernel
  have hrender : Text.len (render (.obj
      (exampleClaims ++ [("indexes".toList, .arr (longNames.map .str))]))) = 3303 := by
    have hsplit : exampleClaims ++ [("indexes".toList, .arr (longNames.map .str))]
        = ("iss".toList, .str "broker".toList)
          :: (exampleClaims.tail ++ [("indexes".toList, .arr (longNames.map .str))]) := rfl
    rw [hsplit, len_render_obj, ← hsplit, List.map_append, List.sum_append, hclaims]
    simp only [List.map_cons, List.map_nil, List.sum_singleton]
    rw [memberLen, hname, len_longNames]
  generalize hclaims : render (.obj
    (exampleClaims ++ [("indexes".toList, .arr (longNames.map .str))])) = claims at hrender
  have hbytes : (Utf8.encode claims).length = 3303 := by rw [Utf8.length_encode]; exact hrender
  rw [exampleToken, hclaims, len_append, len_cons, len_append, len_cons, len_encode, hbytes, hdot,
    hheader, hsign, maxTokenLen]
  norm_num

/-- For so many indexes the token of the broker is accepted and credentials are issued, and they work
at no time. -/
theorem credentials_too_long :
    let s : Sessions := ⟨⟨List.replicate 32 7, rfl⟩⟩
    let c := exampleCaller longNames
    let issued := s.issue lengthMac c 2900
    verifyToken zeroText (fun _ _ _ => true) exampleTenancy exampleJwt none
        (exampleToken longNames) 2000 = .ok c ∧
      issueS3Credentials lengthMac (some (s, 900)) c 2000 = .ok issued ∧
      ∀ now, s.verify lengthMac issued.sessionToken now = .error .malformed := by
  intro s c issued
  have hstar : longNames.contains star = false := by decide +kernel
  have hfrom : c.FromToken 5000 := {
    id := by decide +kernel
    tenant := by decide +kernel
    indexes := ⟨longNames, by rw [Indexes.fromList, hstar]; rfl⟩
    source := rfl
    expires := rfl
    exp := by norm_num }
  refine ⟨verifyToken_exampleToken hstar len_longToken, rfl, fun now => ?_⟩
  rw [verify_issue hfrom (by norm_num) now, if_pos]
  have hexp : memberLen ("exp".toList, natValue 2900) = 11 := by decide +kernel
  have hname : Text.len (quote "indexes".toList) = 9 := by decide +kernel
  have hindexes : memberLen ("indexes".toList, c.indexes.toJson) = 3192 := by
    show Text.len (quote "indexes".toList) + Text.len (render (.arr (longNames.map .str))) + 2 = 3192
    rw [hname, len_longNames]
  rw [sessionValue, len_render_obj, List.map_cons, List.map_cons, List.sum_cons, List.sum_cons, hexp,
    hindexes]
  omega

end LogLess.Auth
