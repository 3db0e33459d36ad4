import LogLess.Lib.Runs
import LogLess.Lib.Utf8
import LogLess.Model

/-!
# Where a sync token goes

The URL and the token of the peer come from the configuration, the saved settings, the running
sender and the request, with fallbacks of their own. `supplied` keeps every token with the URL that
the configuration or a request gave it for, and `presented` every token that a test sent.
-/

namespace LogLess.Sync

/-! ## The peer's URL -/

/-- Why `raw` cannot be a peer, or the cleaned URL. -/
def checkUrl (raw : Text) : Except Text Text :=
  let url := Text.trim raw
  if url.isEmpty ∨ 2000 < (Utf8.encode url).length then
    .error "A peer URL is 1 to 2000 characters.".toList
  else
    match Text.splitOnceAt "://".toList url with
    | none => .error "A peer URL starts with http:// or https://.".toList
    | some (scheme, rest) =>
      let authority := rest.takeWhile fun c => c ≠ '/' && c ≠ '?' && c ≠ '#'
      if scheme ≠ "http".toList ∧ scheme ≠ "https".toList then
        .error "A peer URL starts with http:// or https://.".toList
      else if authority.isEmpty then .error "A peer URL needs a host.".toList
      else if authority.contains '@' then
        .error "A peer URL cannot carry a user name or password; use the token field.".toList
      else .ok (Text.trimEndMatches (· = '/') url)

/-! ## What is kept -/

structure SyncTarget where
  url : Text
  token : Option Text
  minSeverity : ℕ
  fidelity : ℕ
  anomalyBoost : Bool
deriving DecidableEq

structure SyncSettings where
  enabled : Bool
  url : Text
  minSeverity : ℕ
  fidelity : ℕ
  anomalyBoost : Bool
  updatedAtMs : ℕ
deriving DecidableEq

/-- What a settings change does to the stored token. -/
inductive TokenChange where
  | keep
  | set (token : Text)
  | clear
deriving DecidableEq

/-- `sync.json` and `sync-token`. -/
structure SyncStore where
  settings : Option SyncSettings
  tokenFile : Option Text
deriving DecidableEq

namespace SyncStore

/-- The token as it is read. -/
def token (s : SyncStore) : Option Text :=
  (s.tokenFile.map Text.trim).filter fun t => !t.isEmpty

def load (s : SyncStore) : Option (SyncSettings × Option Text) :=
  s.settings.map fun settings => (settings, s.token)

/-- The first half of `save`. -/
def saveToken (s : SyncStore) : TokenChange → SyncStore
  | .keep => s
  | .set t => { s with tokenFile := some t }
  | .clear => { s with tokenFile := none }

def save (s : SyncStore) (settings : SyncSettings) (change : TokenChange) : SyncStore :=
  { s.saveToken change with settings := some settings }

end SyncStore

/-- A destination of the configuration; other kinds have no peer. -/
inductive Destination where
  | logless (target : SyncTarget)
  | other
deriving DecidableEq

def clampFidelity (n : ℕ) : ℕ := max 1 (min n 100)

/-- The first peer of the configuration. -/
def configTarget (config : List Destination) : Option SyncTarget :=
  config.findSome? fun d =>
    match d with
    | .logless target => some { target with fidelity := clampFidelity target.fidelity }
    | .other => none

/-- Where sync starts: the saved settings if there are any, otherwise the configuration. -/
def initialSyncTarget (config : List Destination) (store : SyncStore) : Option SyncTarget :=
  match store.load with
  | some (settings, token) =>
    if settings.enabled && !settings.url.isEmpty then
      some
        { url := settings.url
          token := token
          minSeverity := settings.minSeverity
          fidelity := clampFidelity settings.fidelity
          anomalyBoost := settings.anomalyBoost }
    else none
  | none => configTarget config

/-! ## Requests -/

structure SyncBody where
  enabled : Bool
  /-- Absent keeps the saved peer's URL, an empty one clears it. -/
  url : Option Text
  /-- Absent keeps the stored one. -/
  token : Option Text
  clearToken : Bool
  minSeverity : Option ℕ
  fidelity : Option ℕ
  anomalyBoost : Option Bool
deriving DecidableEq

structure SyncTestBody where
  url : Option Text
  token : Option Text
deriving DecidableEq

/-- Status, error and message. -/
abbrev Refusal := ℕ × Text × Text

def invalid (message : String) : Refusal := (422, "validation_failed".toList, message.toList)

/-- `char::is_control`. -/
def isControl (c : Char) : Bool := c.toNat < 0x20 || (0x7F ≤ c.toNat && c.toNat ≤ 0x9F)

/-- The URL of a request that names none. -/
def savedUrl (store : SyncStore) (target : Option SyncTarget) : Text :=
  (((store.load.map fun loaded => loaded.1.url).filter fun url => !url.isEmpty).or
    (target.map SyncTarget.url)).getD []

/-- The URL of a request, before it is checked. -/
def putUrl (store : SyncStore) (target : Option SyncTarget) (req : SyncBody) : Text :=
  (req.url.map Text.trim).getD (savedUrl store target)

def cleanUrl (enabled : Bool) (url : Text) : Except Refusal Text :=
  if url.isEmpty then
    if enabled then .error (invalid "Enter the peer's URL to turn sync on.") else .ok []
  else
    match checkUrl url with
    | .ok url => .ok url
    | .error message => .error (422, "validation_failed".toList, message)

/-- The token that a request without one keeps: the saved one, else the one of the sender. -/
def keptToken (store : SyncStore) (target : Option SyncTarget) : Option Text :=
  (store.load.bind Prod.snd).or (target.bind SyncTarget.token)

def givenToken (token : Option Text) : Option Text := token.filter fun t => !t.isEmpty

/-- What a request does to the stored token, and the token the sender gets. -/
def tokenChange (store : SyncStore) (target : Option SyncTarget) (req : SyncBody) :
    Except Refusal (TokenChange × Option Text) :=
  if req.clearToken then .ok (.clear, none)
  else
    match givenToken req.token with
    | some t =>
      if 4096 < t.length ∨ t.any isControl then
        .error (invalid "A token is at most 4096 characters, without control characters.")
      else .ok (.set t, some t)
    | none =>
      match keptToken store target with
      | some t => .ok (.set t, some t)
      | none => .ok (.keep, none)

/-- What a request comes to. -/
structure Put where
  settings : SyncSettings
  change : TokenChange
  token : Option Text

namespace Put

def target (p : Put) : Option SyncTarget :=
  if p.settings.enabled then
    some
      { url := p.settings.url
        token := p.token
        minSeverity := p.settings.minSeverity
        fidelity := p.settings.fidelity
        anomalyBoost := p.settings.anomalyBoost }
  else none

end Put

/-- `sync_put` up to where it saves. -/
def syncPut (store : SyncStore) (target : Option SyncTarget) (req : SyncBody) (now : ℕ) :
    Except Refusal Put :=
  match cleanUrl req.enabled (putUrl store target req) with
  | .error e => .error e
  | .ok url =>
    let saved := store.load.map Prod.fst
    let minSeverity := req.minSeverity.getD 0
    let fidelity := ((req.fidelity.or (saved.map SyncSettings.fidelity)).or
      (target.map SyncTarget.fidelity)).getD 100
    let anomalyBoost := ((req.anomalyBoost.or (saved.map SyncSettings.anomalyBoost)).or
      (target.map SyncTarget.anomalyBoost)).getD true
    if 24 < minSeverity then
      .error (invalid "min_severity is an OpenTelemetry severity number, 0 to 24.")
    else if ¬ (1 ≤ fidelity ∧ fidelity ≤ 100) then
      .error (invalid "fidelity is a percentage, 1 to 100.")
    else
      match tokenChange store target req with
      | .error e => .error e
      | .ok (change, token) =>
        .ok
          { settings := ⟨req.enabled && !url.isEmpty, url, minSeverity, fidelity, anomalyBoost, now⟩
            change := change
            token := token }

/-- `sync_test` up to where it asks the peer: the URL and the token it asks with. -/
def syncTest (target : Option SyncTarget) (req : SyncTestBody) :
    Except Refusal (Text × Option Text) :=
  let given := (req.url.map Text.trim).filter fun url => !url.isEmpty
  match given.or (target.map SyncTarget.url) with
  | none => .error (invalid "Enter a URL to test.")
  | some url =>
    match givenToken req.token with
    | some t => .ok (url, some t)
    | none =>
      match target with
      | some current =>
        if (checkUrl url).toOption = some current.url then .ok (url, current.token)
        else .ok (url, none)
      | none => .ok (url, none)

/-- The token that `probe` sends, and the URL it sends it to. -/
def probed (url : Text) (token : Option Text) : Option (Text × Text) :=
  match checkUrl url with
  | .ok clean => token.map fun t => (t, clean)
  | .error _ => none

/-! ## Runs -/

/-- How far `save` gets. -/
inductive Outcome where
  | nothing
  | tokenOnly
  | saved
deriving DecidableEq

inductive TokenEvent where
  | put (req : SyncBody) (now : ℕ) (outcome : Outcome)
  | test (req : SyncTestBody)
  | restart (config : List Destination)
deriving DecidableEq

/-- `fileUrl` and `liveUrl` are the URLs that the token in the file and the one of the sender were
supplied for. -/
structure TokenWorld where
  store : SyncStore
  target : Option SyncTarget
  fileUrl : Text
  liveUrl : Text
  supplied : List (Text × Text)
  presented : List (Text × Text)
deriving DecidableEq

namespace TokenWorld

/-- The tokens of the configuration. -/
def configTokens (config : List Destination) : List (Text × Text) :=
  config.filterMap fun d =>
    match d with
    | .logless target => target.token.map fun t => (t, target.url)
    | .other => none

def start (config : List Destination) : TokenWorld where
  store := ⟨none, none⟩
  target := configTarget config
  fileUrl := []
  liveUrl := ((configTarget config).map SyncTarget.url).getD []
  supplied := configTokens config
  presented := []

/-- The URL that the token of a request was supplied for: its own, or the one it keeps has. -/
def sourceUrl (w : TokenWorld) (req : SyncBody) : Text :=
  if (givenToken req.token).isSome then putUrl w.store w.target req
  else if (w.store.load.bind Prod.snd).isSome then w.fileUrl
  else w.liveUrl

/-- What a request supplies. -/
def suppliedBy (w : TokenWorld) (req : SyncBody) : List (Text × Text) :=
  ((givenToken req.token).map fun t => (t, putUrl w.store w.target req)).toList

/-- A token file that is written has the token of the request. -/
def writeToken (w : TokenWorld) (req : SyncBody) (change : TokenChange) : TokenWorld :=
  { w with
    store := w.store.saveToken change
    fileUrl := if change = .keep then w.fileUrl else w.sourceUrl req
    supplied := w.suppliedBy req ++ w.supplied }

/-- The settings are written after the token, and the sender gets them. -/
def saveSettings (w : TokenWorld) (req : SyncBody) (p : Put) : TokenWorld :=
  { w.writeToken req p.change with
    store := w.store.save p.settings p.change
    target := p.target
    liveUrl := w.sourceUrl req }

def put (w : TokenWorld) (req : SyncBody) (now : ℕ) (outcome : Outcome) : TokenWorld :=
  match syncPut w.store w.target req now with
  | .error _ => w
  | .ok p =>
    match outcome with
    | .nothing => w
    | .tokenOnly => w.writeToken req p.change
    | .saved => w.saveSettings req p

def test (w : TokenWorld) (req : SyncTestBody) : TokenWorld :=
  match syncTest w.target req with
  | .error _ => w
  | .ok (url, token) =>
    { w with
      supplied := ((givenToken req.token).map fun t => (t, url)).toList ++ w.supplied
      presented := (probed url token).toList ++ w.presented }

def restart (w : TokenWorld) (config : List Destination) : TokenWorld :=
  { w with
    target := initialSyncTarget config w.store
    liveUrl :=
      if w.store.settings.isSome then w.fileUrl
      else ((configTarget config).map SyncTarget.url).getD []
    supplied := configTokens config ++ w.supplied }

def step (w : TokenWorld) : TokenEvent → TokenWorld
  | .put req now outcome => w.put req now outcome
  | .test req => w.test req
  | .restart config => w.restart config

/-- Where a token supplied for `raw` may go. -/
def sameUrl (raw url : Text) : Bool := raw = url || (checkUrl raw).toOption = some url

/-- A token supplied for `raw` may go where a request with `url` sends it. -/
def mayGo (raw url : Text) : Bool := url.isEmpty || (checkUrl url).toOption.all (sameUrl raw)

/-- A token that is read from its file as it was written, or not at all. -/
def trimmed (t : Text) : Bool := Text.trim t = t || (Text.trim t).isEmpty

/-- The token of a put, if it has one, was supplied for the URL that the put has, and if only the
token file is written, for the URL that is saved. -/
def fine (w : TokenWorld) : TokenEvent → Bool
  | .put req _ outcome =>
    if req.clearToken then true
    else
      let url := putUrl w.store w.target req
      let given := givenToken req.token
      let source := w.sourceUrl req
      match given.or (keptToken w.store w.target) with
      | some t =>
        trimmed t && (given.isSome || outcome ≠ .saved || mayGo source url) &&
          (outcome ≠ .tokenOnly || w.store.settings.all fun saved =>
            saved.url.isEmpty || sameUrl source saved.url)
      | none => outcome ≠ .saved || w.store.token.isNone || mayGo w.fileUrl url
  | .test _ => true
  | .restart _ => true

/-! ## The invariant -/

structure Inv (w : TokenWorld) : Prop where
  file : ∀ t, w.store.token = some t → (t, w.fileUrl) ∈ w.supplied
  saved : ∀ t s, w.store.token = some t → w.store.settings = some s → s.url ≠ [] →
    sameUrl w.fileUrl s.url = true
  live : ∀ c t, w.target = some c → c.token = some t →
    (t, w.liveUrl) ∈ w.supplied ∧ sameUrl w.liveUrl c.url = true
  sent : ∀ p ∈ w.presented, ∃ raw, (p.1, raw) ∈ w.supplied ∧ sameUrl raw p.2 = true

/-! ### What a request comes to -/

theorem cleanUrl_eq {enabled : Bool} {url clean : Text} (h : cleanUrl enabled url = .ok clean) :
    (url = [] ∧ clean = []) ∨ checkUrl url = .ok clean := by
  rw [cleanUrl] at h
  split at h
  · next hempty =>
    split at h
    · cases h
    · cases h
      exact .inl ⟨List.isEmpty_iff.mp hempty, rfl⟩
  · split at h
    · next hcheck =>
      cases h
      exact .inr hcheck
    · cases h

theorem tokenChange_eq {store : SyncStore} {target : Option SyncTarget} {req : SyncBody}
    {change : TokenChange} {token : Option Text}
    (h : tokenChange store target req = .ok (change, token)) :
    (req.clearToken = true ∧ change = .clear ∧ token = none) ∨
      (req.clearToken = false ∧ ∃ t, (givenToken req.token).or (keptToken store target) = some t ∧
        change = .set t ∧ token = some t) ∨
      (req.clearToken = false ∧ (givenToken req.token).or (keptToken store target) = none ∧
        change = .keep ∧ token = none) := by
  rw [tokenChange] at h
  cases hclear : req.clearToken with
  | true =>
    rw [hclear, if_pos rfl] at h
    cases h
    exact .inl ⟨rfl, rfl, rfl⟩
  | false =>
    rw [hclear, if_neg (by decide)] at h
    right
    cases hgiven : givenToken req.token with
    | some t =>
      rw [hgiven] at h
      simp only at h
      split at h
      · cases h
      · cases h
        exact .inl ⟨rfl, t, rfl, rfl, rfl⟩
    | none =>
      rw [hgiven] at h
      rw [Option.none_or]
      cases hkept : keptToken store target with
      | some t =>
        rw [hkept] at h
        cases h
        exact .inl ⟨rfl, t, rfl, rfl, rfl⟩
      | none =>
        rw [hkept] at h
        cases h
        exact .inr ⟨rfl, rfl, rfl, rfl⟩

theorem syncPut_eq {store : SyncStore} {target : Option SyncTarget} {req : SyncBody} {now : ℕ}
    {p : Put} (h : syncPut store target req now = .ok p) :
    cleanUrl req.enabled (putUrl store target req) = .ok p.settings.url ∧
      tokenChange store target req = .ok (p.change, p.token) ∧
      (p.settings.enabled = true → p.settings.url ≠ []) := by
  rw [syncPut] at h
  cases hclean : cleanUrl req.enabled (putUrl store target req) with
  | error e =>
    rw [hclean] at h
    cases h
  | ok url =>
    rw [hclean] at h
    simp only at h
    split at h
    · cases h
    · split at h
      · cases h
      · cases hchange : tokenChange store target req with
        | error e =>
          rw [hchange] at h
          cases h
        | ok change =>
          rw [hchange] at h
          cases h
          refine ⟨rfl, rfl, fun henabled => ?_⟩
          rw [Bool.and_eq_true, Bool.not_eq_true'] at henabled
          exact List.isEmpty_eq_false_iff.mp henabled.2

/-- The token a test sends is its own, or the one of the sender, for the URL the sender has. -/
theorem syncTest_eq {target : Option SyncTarget} {req : SyncTestBody} {url : Text} {t : Text}
    (h : syncTest target req = .ok (url, some t)) :
    givenToken req.token = some t ∨
      ∃ c, target = some c ∧ c.token = some t ∧ checkUrl url = .ok c.url := by
  rw [syncTest] at h
  split at h
  · cases h
  · split at h
    · next hgiven =>
      cases h
      exact .inl hgiven
    · split at h
      · next c _ =>
        split at h
        · next hsame =>
          obtain ⟨hurl, htoken⟩ := Prod.mk.inj (Except.ok.inj h)
          right
          refine ⟨c, rfl, htoken, ?_⟩
          rw [← hurl]
          cases hcheck : checkUrl _ with
          | ok clean =>
            rw [hcheck] at hsame
            exact congrArg Except.ok (Option.some.inj hsame)
          | error e =>
            rw [hcheck] at hsame
            cases hsame
        · cases h
      · cases h

theorem probed_eq {url : Text} {token : Option Text} {p : Text × Text}
    (h : probed url token = some p) : token = some p.1 ∧ checkUrl url = .ok p.2 := by
  rw [probed] at h
  split at h
  · next hcheck =>
    obtain ⟨t, ht, rfl⟩ := Option.map_eq_some_iff.mp h
    exact ⟨ht, hcheck⟩
  · cases h

theorem sameUrl_of_checkUrl {raw url : Text} (h : checkUrl raw = .ok url) :
    sameUrl raw url = true := by
  rw [sameUrl, h, Bool.or_eq_true]
  exact .inr (decide_eq_true rfl)

/-- A URL that a token may go to is saved. -/
theorem sameUrl_of_mayGo {raw url clean : Text} {enabled : Bool} (h : mayGo raw url = true)
    (hclean : cleanUrl enabled url = .ok clean) (hne : clean ≠ []) : sameUrl raw clean = true := by
  rcases cleanUrl_eq hclean with ⟨-, hnil⟩ | hcheck
  · exact absurd hnil hne
  · rw [mayGo, hcheck, Bool.or_eq_true] at h
    rcases h with hempty | hsame
    · -- an empty text is no URL
      rw [List.isEmpty_iff.mp hempty] at hcheck
      cases hcheck
    · exact hsame

/-! ### The steps keep it -/

theorem token_set {store : SyncStore} {t u : Text} (ht : trimmed t = true)
    (h : (store.saveToken (.set t)).token = some u) : u = t := by
  obtain ⟨hmap, hne⟩ := Option.filter_eq_some_iff.mp h
  obtain rfl : Text.trim t = u := Option.some.inj hmap
  rw [trimmed, Bool.or_eq_true, decide_eq_true_eq] at ht
  rcases ht with heq | hempty
  · exact heq
  · rw [hempty] at hne
    cases hne

variable {w : TokenWorld}

/-- The token of a put was supplied for its source. -/
theorem Inv.source (h : Inv w) {req : SyncBody} {t : Text}
    (ht : (givenToken req.token).or (keptToken w.store w.target) = some t) :
    (t, w.sourceUrl req) ∈ w.suppliedBy req ++ w.supplied := by
  rw [sourceUrl, suppliedBy]
  cases hgiven : givenToken req.token with
  | some u =>
    rw [hgiven, Option.some_or] at ht
    obtain rfl := Option.some.inj ht
    exact List.mem_append_left _ List.mem_cons_self
  | none =>
    rw [hgiven, Option.none_or, keptToken] at ht
    rw [if_neg (by simp)]
    refine List.mem_append_right _ ?_
    cases hstored : w.store.load.bind Prod.snd with
    | some u =>
      rw [hstored, Option.some_or] at ht
      obtain rfl := Option.some.inj ht
      obtain ⟨loaded, hload, htoken⟩ := Option.bind_eq_some_iff.mp hstored
      obtain ⟨settings, -, rfl⟩ := Option.map_eq_some_iff.mp hload
      exact h.file u htoken
    | none =>
      rw [hstored, Option.none_or] at ht
      rw [if_neg (by simp)]
      obtain ⟨c, hc, htoken⟩ := Option.bind_eq_some_iff.mp ht
      exact (h.live c t hc htoken).1

/-- A token that no settings were saved with is no stored token. -/
theorem token_of_kept (hkept : keptToken w.store w.target = none) {s : SyncSettings}
    (hs : w.store.settings = some s) : w.store.token = none := by
  rw [keptToken, Option.or_eq_none_iff] at hkept
  have hload := hkept.1
  rw [SyncStore.load, hs] at hload
  exact hload

theorem fine_set {req : SyncBody} {now : ℕ} {outcome : Outcome} {t : Text}
    (hfine : w.fine (.put req now outcome) = true) (hclear : req.clearToken = false)
    (ht : (givenToken req.token).or (keptToken w.store w.target) = some t) :
    trimmed t = true ∧
      ((givenToken req.token).isSome = true ∨ outcome ≠ .saved ∨
        mayGo (w.sourceUrl req) (putUrl w.store w.target req) = true) ∧
      (outcome = .tokenOnly → ∀ s, w.store.settings = some s → s.url ≠ [] →
        sameUrl (w.sourceUrl req) s.url = true) := by
  rw [fine, hclear, if_neg (by decide)] at hfine
  simp only [ht, Bool.and_eq_true, Bool.or_eq_true, decide_eq_true_eq] at hfine
  obtain ⟨⟨htrim, hgo⟩, honly⟩ := hfine
  refine ⟨htrim, or_assoc.mp hgo, ?_⟩
  intro houtcome s hs hne
  rw [hs, Option.all_some, Bool.or_eq_true, List.isEmpty_iff] at honly
  exact (honly.resolve_left fun hnot => hnot houtcome).resolve_left hne

theorem fine_keep {req : SyncBody} {now : ℕ} (hfine : w.fine (.put req now .saved) = true)
    (hclear : req.clearToken = false)
    (hnone : (givenToken req.token).or (keptToken w.store w.target) = none) {t : Text}
    (ht : w.store.token = some t) :
    mayGo w.fileUrl (putUrl w.store w.target req) = true := by
  rw [fine, hclear, if_neg (by decide)] at hfine
  simp only [hnone, ht, Bool.or_eq_true] at hfine
  exact hfine.resolve_left (by simp)

section
variable {req : SyncBody} {change : TokenChange}

/-- The token file has a token that was supplied, whether it was written or not. -/
theorem Inv.file_writeToken (h : Inv w)
    (hset : ∀ t, change = .set t → trimmed t = true ∧
      (givenToken req.token).or (keptToken w.store w.target) = some t) {t : Text}
    (ht : (w.store.saveToken change).token = some t) :
    (t, (w.writeToken req change).fileUrl) ∈ w.suppliedBy req ++ w.supplied := by
  cases change with
  | keep => exact List.mem_append_right _ (h.file t ht)
  | clear => cases ht
  | set u =>
    obtain ⟨htrim, hor⟩ := hset u rfl
    obtain rfl := token_set htrim ht
    exact h.source hor

theorem Inv.sent_writeToken (h : Inv w) : ∀ p ∈ w.presented, ∃ raw,
    (p.1, raw) ∈ w.suppliedBy req ++ w.supplied ∧ sameUrl raw p.2 = true := by
  intro p hp
  obtain ⟨raw, hin, hsame⟩ := h.sent p hp
  exact ⟨raw, List.mem_append_right _ hin, hsame⟩

/-- A put whose settings are not saved: the token file may have been written. -/
theorem Inv.writeToken (h : Inv w)
    (hset : ∀ t, change = .set t → trimmed t = true ∧
      (givenToken req.token).or (keptToken w.store w.target) = some t)
    (hurl : ∀ t, change = .set t → ∀ s, w.store.settings = some s → s.url ≠ [] →
      sameUrl (w.sourceUrl req) s.url = true) : Inv (w.writeToken req change) := by
  refine ⟨fun t ht => h.file_writeToken hset ht, ?_, ?_, h.sent_writeToken⟩
  · intro t s ht hs hne
    cases change with
    | keep => exact h.saved t s ht hs hne
    | clear => cases ht
    | set u => exact hurl u rfl s hs hne
  · intro c t hc ht
    obtain ⟨hin, hsame⟩ := h.live c t hc ht
    exact ⟨List.mem_append_right _ hin, hsame⟩

end

theorem Inv.put (h : Inv w) {req : SyncBody} {now : ℕ} {outcome : Outcome}
    (hfine : w.fine (.put req now outcome) = true) : Inv (w.put req now outcome) := by
  rw [TokenWorld.put]
  cases hput : syncPut w.store w.target req now with
  | error e => exact h
  | ok p =>
    obtain ⟨hclean, hchange, henabled⟩ := syncPut_eq hput
    have hcases := tokenChange_eq hchange
    have hset : ∀ t, p.change = .set t → req.clearToken = false ∧
        (givenToken req.token).or (keptToken w.store w.target) = some t := by
      intro t ht
      rcases hcases with ⟨-, hclear, -⟩ | ⟨hclear, u, hor, hu, -⟩ | ⟨-, -, hkeep, -⟩
      · rw [hclear] at ht
        cases ht
      · rw [hu] at ht
        cases ht
        exact ⟨hclear, hor⟩
      · rw [hkeep] at ht
        cases ht
    have htrim : ∀ t, p.change = .set t → trimmed t = true ∧
        (givenToken req.token).or (keptToken w.store w.target) = some t := by
      intro t ht
      obtain ⟨hclear, hor⟩ := hset t ht
      exact ⟨(fine_set hfine hclear hor).1, hor⟩
    cases outcome with
    | nothing => exact h
    | tokenOnly =>
      apply h.writeToken htrim
      intro t ht
      obtain ⟨hclear, hor⟩ := hset t ht
      exact (fine_set hfine hclear hor).2.2 rfl
    | saved =>
      -- a token that is given goes where the request says, one that is kept where it may
      have hgoes : ∀ t, p.change = .set t → p.settings.url ≠ [] →
          sameUrl (w.sourceUrl req) p.settings.url = true := by
        intro t ht hne
        obtain ⟨hclear, hor⟩ := hset t ht
        rcases (fine_set hfine hclear hor).2.1 with hgiven | hnot | hgo
        · rw [sourceUrl, if_pos hgiven]
          rcases cleanUrl_eq hclean with ⟨-, hnil⟩ | hcheck
          · exact absurd hnil hne
          · exact sameUrl_of_checkUrl hcheck
        · exact absurd rfl hnot
        · exact sameUrl_of_mayGo hgo hclean hne
      refine ⟨fun t ht => h.file_writeToken htrim ht, ?_, ?_, h.sent_writeToken⟩
      · intro t s ht hs hne
        have hfile : (w.saveSettings req p).fileUrl
            = if p.change = .keep then w.fileUrl else w.sourceUrl req := rfl
        have htoken : (w.store.saveToken p.change).token = some t := ht
        obtain rfl : p.settings = s := Option.some.inj hs
        show sameUrl (w.saveSettings req p).fileUrl _ = true
        rcases hcases with ⟨-, hclear, -⟩ | ⟨-, u, -, hu, -⟩ | ⟨hclear, hnone, hkeep, -⟩
        · rw [hclear] at htoken
          cases htoken
        · rw [hfile, hu, if_neg (by simp)]
          exact hgoes u hu hne
        · rw [hkeep] at htoken
          rw [hfile, hkeep, if_pos rfl]
          exact sameUrl_of_mayGo (fine_keep hfine hclear hnone htoken) hclean hne
      · intro c t hc ht
        have hc' : p.target = some c := hc
        rw [Put.target] at hc'
        split at hc'
        · next hon =>
          obtain rfl := Option.some.inj hc'
          rcases hcases with ⟨-, -, hnil⟩ | ⟨-, u, hor, hu, htoken⟩ | ⟨-, -, -, hnil⟩
          · rw [hnil] at ht
            cases ht
          · rw [htoken] at ht
            obtain rfl := Option.some.inj ht
            exact ⟨h.source hor, hgoes u hu (henabled hon)⟩
          · rw [hnil] at ht
            cases ht
        · cases hc'

theorem Inv.test (h : Inv w) (req : SyncTestBody) : Inv (w.test req) := by
  rw [TokenWorld.test]
  cases htest : syncTest w.target req with
  | error e => exact h
  | ok sent =>
    obtain ⟨url, token⟩ := sent
    refine ⟨fun t ht => List.mem_append_right _ (h.file t ht), h.saved, ?_, ?_⟩
    · intro c t hc ht
      obtain ⟨hin, hsame⟩ := h.live c t hc ht
      exact ⟨List.mem_append_right _ hin, hsame⟩
    · intro p hp
      rcases List.mem_append.mp hp with hnew | hold
      · obtain ⟨rfl, hcheck⟩ := probed_eq (Option.mem_toList.mp hnew)
        rcases syncTest_eq htest with hgiven | ⟨c, hc, hct, hcurl⟩
        · refine ⟨url, List.mem_append_left _ ?_, sameUrl_of_checkUrl hcheck⟩
          rw [hgiven]
          exact List.mem_cons_self
        · obtain ⟨hin, hsame⟩ := h.live c p.1 hc hct
          rw [hcheck] at hcurl
          rw [← Except.ok.inj hcurl] at hsame
          exact ⟨w.liveUrl, List.mem_append_right _ hin, hsame⟩
      · obtain ⟨raw, hin, hsame⟩ := h.sent p hold
        exact ⟨raw, List.mem_append_right _ hin, hsame⟩

/-- The configuration supplies the token of its own peer. -/
theorem live_configTarget {config : List Destination} {c : SyncTarget} {t : Text}
    (hc : configTarget config = some c) (ht : c.token = some t) :
    (t, c.url) ∈ configTokens config := by
  obtain ⟨d, hd, hsome⟩ := List.exists_of_findSome?_eq_some hc
  cases d with
  | other => cases hsome
  | logless target =>
    obtain rfl := Option.some.inj hsome
    refine List.mem_filterMap.mpr ⟨_, hd, ?_⟩
    have htoken : target.token = some t := ht
    simp only [htoken, Option.map_some]

theorem sameUrl_refl (url : Text) : sameUrl url url = true := by
  rw [sameUrl, decide_eq_true rfl, Bool.true_or]

theorem Inv.restart (h : Inv w) (config : List Destination) : Inv (w.restart config) := by
  refine ⟨fun t ht => List.mem_append_right _ (h.file t ht), h.saved, ?_, ?_⟩
  · intro c t hc ht
    have hc' : initialSyncTarget config w.store = some c := hc
    rw [initialSyncTarget, SyncStore.load] at hc'
    cases hs : w.store.settings with
    | some s =>
      rw [hs] at hc'
      simp only [Option.map_some] at hc'
      split at hc'
      · next hon =>
        obtain rfl := Option.some.inj hc'
        rw [Bool.and_eq_true, Bool.not_eq_true'] at hon
        have hne : s.url ≠ [] := List.isEmpty_eq_false_iff.mp hon.2
        rw [TokenWorld.restart, hs]
        exact ⟨List.mem_append_right _ (h.file t ht), h.saved t s ht hs hne⟩
      · cases hc'
    | none =>
      rw [hs] at hc'
      have hconfig : configTarget config = some c := hc'
      rw [TokenWorld.restart, hs]
      simp only [hconfig, Option.isSome_none, Bool.false_eq_true, if_false, Option.map_some,
        Option.getD_some]
      exact ⟨List.mem_append_left _ (live_configTarget hconfig ht), sameUrl_refl c.url⟩
  · intro p hp
    obtain ⟨raw, hin, hsame⟩ := h.sent p hp
    exact ⟨raw, List.mem_append_right _ hin, hsame⟩

theorem Inv.start (config : List Destination) : Inv (start config) where
  file := by
    intro t ht
    cases ht
  saved := by
    intro t s _ hs
    cases hs
  live := by
    intro c t hc ht
    have hconfig : configTarget config = some c := hc
    have hurl : (TokenWorld.start config).liveUrl = c.url := by
      rw [TokenWorld.start, hconfig]
      rfl
    rw [hurl]
    exact ⟨live_configTarget hconfig ht, sameUrl_refl c.url⟩
  sent := by
    intro p hp
    cases hp

theorem Inv.step (h : Inv w) {e : TokenEvent} (hfine : w.fine e = true) : Inv (w.step e) := by
  cases e with
  | put req now outcome => exact h.put hfine
  | test req => exact h.test req
  | restart config => exact h.restart config

/-- **A token goes only where it was meant to go** as long as no put keeps a token for a URL it was
not supplied for: the one of the sender to the URL of the sender, and those of tests. -/
theorem tokens_stay (config : List Destination) {events : List TokenEvent}
    (h : Runs.Meets step (fun w e => w.fine e = true) (start config) events) :
    let w := Runs.run step (start config) events
    (∀ c t, w.target = some c → c.token = some t →
      ∃ raw, (t, raw) ∈ w.supplied ∧ sameUrl raw c.url = true) ∧
    ∀ p ∈ w.presented, ∃ raw, (p.1, raw) ∈ w.supplied ∧ sameUrl raw p.2 = true := by
  have hinv : Inv (Runs.run step (start config) events) :=
    Runs.Meets.invariant (fun w e hw he => hw.step he) h (Inv.start config)
  refine ⟨?_, hinv.sent⟩
  intro c t hc ht
  exact ⟨_, hinv.live c t hc ht⟩

def examplePeer : SyncTarget := ⟨"https://a.example/".toList, some "first".toList, 0, 100, true⟩

/-- A request that turns sync on. -/
def examplePut (url token : Option String) : SyncBody :=
  ⟨true, url.map String.toList, token.map String.toList, false, none, none, none⟩

/-- The peer of the configuration is tested and saved, then another one with its own token. -/
def exampleEvents : List TokenEvent :=
  [.test ⟨none, none⟩, .put (examplePut none none) 1 .saved,
    .put (examplePut (some "https://b.example") (some "second")) 2 .saved, .restart [],
    .test ⟨some "https://b.example/".toList, none⟩]

theorem tokens_stay_example :
    let w := Runs.run step (start [.logless examplePeer]) exampleEvents
    (∀ c t, w.target = some c → c.token = some t →
      ∃ raw, (t, raw) ∈ w.supplied ∧ sameUrl raw c.url = true) ∧
    ∀ p ∈ w.presented, ∃ raw, (p.1, raw) ∈ w.supplied ∧ sameUrl raw p.2 = true := by
  have h : Runs.Meets step (fun w e => w.fine e = true) (start [.logless examplePeer])
      exampleEvents := by
    decide +kernel
  exact tokens_stay [.logless examplePeer] h

/-- A put with another URL and no token sends the token of the old peer to the new one, be it the
token of the configuration or of an earlier put. -/
theorem tokens_stray : [([Destination.logless examplePeer], ([] : List TokenEvent)),
    ([], [.put (examplePut (some "https://a.example") (some "first")) 1 .saved])].Forall
      fun run =>
        let w := Runs.run step (start run.1)
          (run.2 ++ [.put (examplePut (some "https://b.example") none) 2 .saved])
        w.target = some ⟨"https://b.example".toList, some "first".toList, 0, 100, true⟩ ∧
          (w.supplied.all fun p => !sameUrl p.2 "https://b.example".toList) = true := by
  decide +kernel

end TokenWorld

end LogLess.Sync
