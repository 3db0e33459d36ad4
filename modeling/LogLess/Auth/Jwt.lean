import LogLess.Auth.Admit
import LogLess.Lib.Base64
import LogLess.Lib.Float64
import LogLess.Sentry.Envelope

/-!
# Tokens of the broker

`Jwt::verify_at` in its order: the shape and the header, the key, the signature over the bytes as
received, the claims. `Accepted` is what the rest of the program may rely on in a principal that a
token gave.

The signature and how a float is read are parameters, and so is the key set that a refresh brings for
a key that is not known yet. Static keys, which `Verifier::verify_at` tries before, are left out.
-/

namespace LogLess.Auth

open Json Serde Sentry

/-! ## Principals -/

inductive Kind where
  | ingest
  | node
  | replica
  | reader
  | admin
  | user
deriving DecidableEq

def Kind.asStr : Kind → Text
  | .ingest => "ingest".toList
  | .node => "node".toList
  | .replica => "replica".toList
  | .reader => "reader".toList
  | .admin => "admin".toList
  | .user => "user".toList

def Kind.parse (s : Text) : Option Kind :=
  [Kind.ingest, .node, .replica, .reader, .admin, .user].find? fun k => k.asStr == s

/-- Where a principal came from. -/
inductive Source where
  | static
  | token
  | anonymous
  | session
deriving DecidableEq

/-- A principal, with what it is and how long it is. -/
structure Caller extends Principal where
  id : Text
  kind : Kind
  scopes : List Text
  roles : List Text
  source : Source
  expiresUnixSecs : Option ℕ
deriving DecidableEq

/-- Why a credential was not accepted. -/
inductive Refusal where
  | unknownKey
  | malformed
  | alg
  | unknownKid
  | signature
  | claims
  | issuer
  | audience
  | expired
  | notYetValid
  | unknownTenant
deriving DecidableEq

/-- `ok_or`. -/
def okOr {α : Type} (o : Option α) (e : Refusal) : Except Refusal α :=
  match o with
  | some a => .ok a
  | none => .error e

/-- A check that refuses. -/
def require (ok : Bool) (e : Refusal) : Except Refusal Unit := if ok then .ok () else .error e

def star : Text := ['*']

def Indexes.fromList (list : List Text) : Indexes := if list.contains star then .all else .only list

def Indexes.toJson : Indexes → Value
  | .all => .arr [.str star]
  | .only list => .arr (list.map .str)

/-! ## The token -/

structure Claims where
  sub : Text
  name : Option Text
  tenant : Text
  kind : Kind
  indexes : Indexes
  scopes : List Text
  roles : List Text
  exp : ℕ
deriving DecidableEq

/-- The keys by their names, as the broker published them. -/
abbrev KeySet := List (Text × Text)

structure Jwt where
  issuer : Text
  audience : Text
  skew : ℕ
  keys : KeySet

def KeySet.key (keys : KeySet) (kid : Text) : Option (List UInt8) :=
  (Assoc.get keys kid).bind Base64.decode

/-- The two dots of a compact token. -/
def threeParts (token : Text) : Option (Text × Text × Text) :=
  match Text.splitAt '.' token with
  | [a, b, c] => some (a, b, c)
  | _ => none

/-- A claim that is text and not empty. -/
def textClaim (claims : List (Text × Value)) (name : String) : Option Text :=
  ((member claims name.toList).bind readStr).filter fun s => !s.isEmpty

/-- A list of texts; none if it is missing. -/
def listClaim (claims : List (Text × Value)) (name : String) : Except Refusal (List Text) :=
  match member claims name.toList with
  | none => .ok []
  | some (.arr items) => okOr (items.mapM readStr) .claims
  | some _ => .error .claims

section

variable (fl : FloatText)

/-- `as_u64`, or else `as_f64` truncated, which saturates. -/
def readSeconds : Value → Option ℕ
  | .num lexeme =>
    (readNat (2 ^ 64) (.num lexeme)).or <| (fl.read lexeme).bind fun bits =>
      if isFiniteBits bits ∧ 0 ≤ Float64.value bits then
        some (min (2 ^ 64 - 1) ⌊Float64.value bits⌋.toNat)
      else none
  | _ => none

def secondsClaim (claims : List (Text × Value)) (name : String) : Option ℕ :=
  (member claims name.toList).bind (readSeconds fl)

variable (ed25519 : List UInt8 → List UInt8 → List UInt8 → Bool)

/-- The checks of the header, and the name of its key. -/
def headerKid (header : List (Text × Value)) : Except Refusal Text := do
  require ((member header "alg".toList).bind readStr == some "EdDSA".toList) .alg
  require (match member header "typ".toList with
    | none => true
    | some typ => readStr typ == some "JWT".toList) .malformed
  require (member header "crit".toList).isNone .malformed
  okOr (textClaim header "kid") .malformed

/-- The checks of the claims. -/
def Jwt.readClaims (jwt : Jwt) (claims : List (Text × Value)) (now : ℕ) : Except Refusal Claims := do
  require (member claims "aud".toList).isSome .claims
  let iss ← okOr (textClaim claims "iss") .claims
  let sub ← okOr (textClaim claims "sub") .claims
  let exp ← okOr (secondsClaim fl claims "exp") .claims
  let iat ← okOr (secondsClaim fl claims "iat") .claims
  let _ ← okOr (textClaim claims "jti") .claims
  let tenant ← okOr (textClaim claims "tenant") .claims
  let kind ← okOr (textClaim claims "kind") .claims
  require (iss == jwt.issuer) .issuer
  require ((member claims "aud".toList).bind readStr == some jwt.audience) .audience
  require (now - jwt.skew < exp) .expired
  require (iat ≤ min (2 ^ 64 - 1) (now + jwt.skew)) .notYetValid
  let kind ← okOr (Kind.parse kind) .claims
  require (validIdent tenant) .claims
  let indexes ← listClaim claims "indexes"
  let scopes ← listClaim claims "scopes"
  let roles ← listClaim claims "roles"
  return {
    sub := sub
    name := textClaim claims "name"
    tenant := tenant
    kind := kind
    indexes := .fromList indexes
    scopes := scopes
    roles := roles
    exp := exp }

/-- `Jwt::verify_at`. `refreshed` is the key set of a refresh for an unknown key, if there is one. -/
def Jwt.verifyAt (jwt : Jwt) (refreshed : Option KeySet) (token : Text) (now : ℕ) :
    Except Refusal Claims := do
  let (head, payload, signature) ← okOr (threeParts token) .malformed
  let header ← okOr ((Base64.decode head).bind jsonObject) .malformed
  let kid ← headerKid header
  let key ← okOr ((jwt.keys.key kid).or (refreshed.bind fun keys => keys.key kid)) .unknownKid
  let signature ← okOr (Base64.decode signature) .signature
  require (ed25519 key (Utf8.encode (head ++ '.' :: payload)) signature) .signature
  let claims ← okOr ((Base64.decode payload).bind jsonObject) .claims
  jwt.readClaims fl claims now

def maxTokenLen : ℕ := 8 * 1024

/-- Whether a value is tried as a token. -/
def looksLikeJwt (value : Text) : Bool :=
  value.len ≤ maxTokenLen && "eyJ".toList.isPrefixOf value && value.count '.' == 2

/-- The part of `Verifier::verify_at` for a broker's token. -/
def verifyToken (tenancy : Tenancy) (jwt : Jwt) (refreshed : Option KeySet) (presented : Text)
    (now : ℕ) : Except Refusal Caller := do
  require (looksLikeJwt presented) .unknownKey
  let claims ← jwt.verifyAt fl ed25519 refreshed presented now
  require (tenancy.configured claims.tenant).isSome .unknownTenant
  return {
    tenant := claims.tenant
    indexes := claims.indexes
    id := claims.name.getD claims.sub
    kind := claims.kind
    scopes := claims.scopes
    roles := claims.roles
    source := .token
    expiresUnixSecs := some claims.exp }

end

/-! ## What a token gives -/

theorem bind_eq_ok {ε α β : Type} {x : Except ε α} {f : α → Except ε β} {b : β} :
    (x >>= f) = .ok b ↔ ∃ a, x = .ok a ∧ f a = .ok b := by
  cases x with
  | error e => exact ⟨nofun, fun ⟨_, h, _⟩ => nomatch h⟩
  | ok a => exact ⟨fun h => ⟨a, rfl, h⟩, fun ⟨_, h, h'⟩ => by cases h; exact h'⟩

theorem okOr_eq_ok {α : Type} {o : Option α} {e : Refusal} {a : α} :
    okOr o e = .ok a ↔ o = some a := by
  cases o with
  | none => exact ⟨nofun, nofun⟩
  | some b =>
    rw [okOr, Except.ok.injEq, Option.some.injEq]

theorem require_eq_ok {ok : Bool} {e : Refusal} {u : Unit} : require ok e = .ok u ↔ ok = true := by
  cases ok with
  | false => exact ⟨nofun, nofun⟩
  | true => exact ⟨fun _ => rfl, fun _ => rfl⟩

/-- What holds of every principal that a token gave. -/
structure Caller.FromToken (c : Caller) (exp : ℕ) : Prop where
  id : c.id ≠ []
  tenant : validIdent c.tenant = true
  indexes : ∃ list, c.indexes = .fromList list
  source : c.source = .token
  expires : c.expiresUnixSecs = some exp
  exp : exp < 2 ^ 64

theorem ne_nil_of_textClaim {claims : List (Text × Value)} {name : String} {s : Text}
    (h : textClaim claims name = some s) : s ≠ [] := by
  obtain ⟨-, hs⟩ := Option.filter_eq_some_iff.mp h
  rw [Bool.not_eq_true', List.isEmpty_eq_false_iff] at hs
  exact hs

variable {fl : FloatText} {ed25519 : List UInt8 → List UInt8 → List UInt8 → Bool}

theorem lt_of_readSeconds {v : Value} {n : ℕ} (h : readSeconds fl v = some n) : n < 2 ^ 64 := by
  unfold readSeconds at h
  split at h
  · rcases Option.or_eq_some_iff.mp h with h | ⟨-, h⟩
    · exact lt_of_readNat h
    · obtain ⟨bits, -, h⟩ := Option.bind_eq_some_iff.mp h
      split at h
      · obtain rfl := Option.some.inj h
        have hle := min_le_left (2 ^ 64 - 1) ⌊Float64.value bits⌋.toNat
        omega
      · cases h
  · cases h

theorem fromToken_of_verifyToken {tenancy : Tenancy} {jwt : Jwt} {refreshed : Option KeySet}
    {presented : Text} {now : ℕ} {c : Caller}
    (h : verifyToken fl ed25519 tenancy jwt refreshed presented now = .ok c) :
    ∃ exp, c.FromToken exp := by
  obtain ⟨_, -, h⟩ := bind_eq_ok.mp h
  obtain ⟨claims, hclaims, h⟩ := bind_eq_ok.mp h
  obtain ⟨_, -, h⟩ := bind_eq_ok.mp h
  obtain rfl := Except.ok.inj h
  obtain ⟨⟨head, payload, signature⟩, -, hclaims⟩ := bind_eq_ok.mp hclaims
  obtain ⟨header, -, hclaims⟩ := bind_eq_ok.mp hclaims
  obtain ⟨kid, -, hclaims⟩ := bind_eq_ok.mp hclaims
  obtain ⟨key, -, hclaims⟩ := bind_eq_ok.mp hclaims
  obtain ⟨signature, -, hclaims⟩ := bind_eq_ok.mp hclaims
  obtain ⟨_, -, hclaims⟩ := bind_eq_ok.mp hclaims
  obtain ⟨members, -, hclaims⟩ := bind_eq_ok.mp hclaims
  obtain ⟨_, -, hclaims⟩ := bind_eq_ok.mp hclaims
  obtain ⟨iss, -, hclaims⟩ := bind_eq_ok.mp hclaims
  obtain ⟨sub, hsub, hclaims⟩ := bind_eq_ok.mp hclaims
  obtain ⟨exp, hexp, hclaims⟩ := bind_eq_ok.mp hclaims
  obtain ⟨iat, -, hclaims⟩ := bind_eq_ok.mp hclaims
  obtain ⟨jti, -, hclaims⟩ := bind_eq_ok.mp hclaims
  obtain ⟨tenant, -, hclaims⟩ := bind_eq_ok.mp hclaims
  obtain ⟨kindText, -, hclaims⟩ := bind_eq_ok.mp hclaims
  obtain ⟨_, -, hclaims⟩ := bind_eq_ok.mp hclaims
  obtain ⟨_, -, hclaims⟩ := bind_eq_ok.mp hclaims
  obtain ⟨_, -, hclaims⟩ := bind_eq_ok.mp hclaims
  obtain ⟨_, -, hclaims⟩ := bind_eq_ok.mp hclaims
  obtain ⟨kind, -, hclaims⟩ := bind_eq_ok.mp hclaims
  obtain ⟨_, hident, hclaims⟩ := bind_eq_ok.mp hclaims
  obtain ⟨indexes, -, hclaims⟩ := bind_eq_ok.mp hclaims
  obtain ⟨scopes, -, hclaims⟩ := bind_eq_ok.mp hclaims
  obtain ⟨roles, -, hclaims⟩ := bind_eq_ok.mp hclaims
  obtain rfl := Except.ok.inj hclaims
  obtain ⟨v, -, hseconds⟩ := Option.bind_eq_some_iff.mp (okOr_eq_ok.mp hexp)
  refine ⟨exp, ?_, require_eq_ok.mp hident, ⟨indexes, rfl⟩, rfl, rfl, lt_of_readSeconds hseconds⟩
  show (textClaim members "name").getD sub ≠ []
  cases hname : textClaim members "name" with
  | none => exact ne_nil_of_textClaim (okOr_eq_ok.mp hsub)
  | some name => exact ne_nil_of_textClaim hname

end LogLess.Auth
