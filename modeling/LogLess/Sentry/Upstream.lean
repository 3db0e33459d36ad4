import LogLess.Config
import LogLess.Lib.Assoc
import LogLess.Lib.Float64
import LogLess.Sentry.Envelope

/-!
# Sending envelopes upstream

Sentry says in its answers which categories it refuses and for how long. `RateLimits` keeps
this, and `send` leaves out the items of a limited category before it posts an envelope, up
to three times. What becomes of the envelope is a `Delivery`.
-/

namespace LogLess.Sentry

open Frames (Bytes)

/-! ## Rate limits -/

structure RateLimits where
  /-- Category to the unix second at which its limit expires. -/
  untilSecond : List (Text × ℕ)
  /-- The header to hand to clients, and when it expires. -/
  raw : Option (Text × ℕ)
deriving DecidableEq

namespace RateLimits

/-- The entry of all categories. -/
def all : Text := "*".toList

def default : RateLimits := ⟨[], none⟩

/-- A second from now on, as the release build adds. -/
def expiry (now seconds : ℕ) : ℕ := (now + seconds) % 2 ^ 64

/-- The categories of one limit, each with a limit no shorter than it had. -/
def recordCategories (expiry : ℕ) (untilSecond : List (Text × ℕ)) (categories : Text) :
    List (Text × ℕ) :=
  (Text.splitAt ';' categories).foldl
    (fun untilSecond category =>
      let category := Text.trim category
      if category.isEmpty then untilSecond
      else Assoc.insert untilSecond category (max ((Assoc.get untilSecond category).getD 0) expiry))
    untilSecond

/-- One limit of a header, `retry_after:categories:scope:reason:namespaces`. -/
def recordLimit (now : ℕ) (untilSecond : List (Text × ℕ)) (limit : Text) : List (Text × ℕ) :=
  let parts := Text.splitAt ':' (Text.trim limit)
  match (parts[0]?).bind fun seconds => Float64.parse (Text.trim seconds) with
  | none => untilSecond
  | some seconds =>
    let categories := Text.trim ((parts[1]?).getD [])
    if categories.isEmpty then Assoc.insert untilSecond all (expiry now seconds.ceilU64)
    else recordCategories (expiry now seconds.ceilU64) untilSecond categories

def record (l : RateLimits) (header : Text) (now : ℕ) : RateLimits :=
  let untilSecond := (Text.splitAt ',' header).foldl (recordLimit now) l.untilSecond
  ⟨untilSecond, some (header, (untilSecond.map Prod.snd).foldl max 0)⟩

def recordRetryAfter (l : RateLimits) (seconds now : ℕ) : RateLimits :=
  ⟨Assoc.insert l.untilSecond all (expiry now seconds),
    some (Decimal.ofNat seconds ++ "::organization:proxy".toList, expiry now seconds)⟩

def isLimited (l : RateLimits) (itemType : ItemType) (now : ℕ) : Bool :=
  (Assoc.get l.untilSecond all).any (now < ·)
    || (Assoc.get l.untilSecond itemType.rateLimitCategory).any (now < ·)

def clientHeader (l : RateLimits) (now : ℕ) : Option Text :=
  match l.raw with
  | some (header, expiry) => if now < expiry then some header else none
  | none => none

end RateLimits

/-! ## Answers -/

structure Response where
  status : ℕ
  headers : List (Text × Text)
  body : Bytes
deriving DecidableEq

/-- Case-insensitive header lookup. -/
def Response.header (r : Response) (name : Text) : Option Text :=
  (r.headers.find? fun h => asciiLower h.1 = asciiLower name).map Prod.snd

/-- A response or the text of a transport failure. -/
abbrev Answer := Except Text Response

structure SentRequest where
  url : Text
  headers : List (Text × Text)
  body : Bytes
deriving DecidableEq

inductive Delivery where
  | sent (status : ℕ)
  /-- All items were limited, and nothing was sent. -/
  | rateLimited
  | nothing
  | failed (message : Text)
deriving DecidableEq

structure UpstreamTarget where
  url : Text
  key : Text
  project : Text
deriving DecidableEq

/-! ## Sending -/

/-- The limits in force, and the requests made with their answers. -/
structure Upstream where
  limits : RateLimits
  log : List (SentRequest × Answer)

namespace Upstream

def maxAttempts : ℕ := 3

def absorbLimits (l : RateLimits) (response : Response) (now : ℕ) : RateLimits :=
  match (response.header "x-sentry-rate-limits".toList).filter fun h => !(Text.trim h).isEmpty with
  | some header => l.record header now
  | none =>
    if response.status = 429 then
      l.recordRetryAfter (((response.header "retry-after".toList).bind fun v =>
        Decimal.parse (Text.trim v)).getD 60) now
    else l

/-- The loop over the attempts, `left` of them to come and the next one answered by
`answers i`. -/
def attempts (request : SentRequest) (now : ℕ) (answers : ℕ → Answer) :
    ℕ → ℕ → Text → Upstream → Delivery × Upstream
  | 0, _, lastError, u => (.failed lastError, u)
  | left + 1, i, _, u =>
    let answer := answers i
    let u := { u with log := u.log ++ [(request, answer)] }
    match answer with
    | .ok response =>
      let u := { u with limits := absorbLimits u.limits response now }
      if response.status = 429 then (.sent 429, u)
      else if 500 ≤ response.status ∧ response.status < 600 ∧ 0 < left then
        attempts request now answers left (i + 1)
          ("upstream ".toList ++ Decimal.ofNat response.status) u
      else (.sent response.status, u)
    | .error e => attempts request now answers left (i + 1) e u

def authHeader (key : Text) : Text :=
  "Sentry sentry_version=7, sentry_client=logless-proxy/0.1, sentry_key=".toList ++ key

/-- The request an envelope is posted with. -/
def requestOf (target : UpstreamTarget) (envelope : Envelope) : SentRequest where
  url := target.url
  headers :=
    [("Content-Type".toList, "application/x-sentry-envelope".toList),
      ("X-Sentry-Auth".toList, authHeader target.key)]
  body := envelope.toBytes

def send (u : Upstream) (target : UpstreamTarget) (envelope : Envelope) (now : ℕ)
    (answers : ℕ → Answer) : Delivery × Upstream :=
  let kept := envelope.retainItems fun item => !u.limits.isLimited item.itemType now
  if kept.isEmpty then (if 0 < envelope.items.length then .rateLimited else .nothing, u)
  else attempts (requestOf target kept) now answers maxAttempts 0 [] u

end Upstream

/-! ## What a delivery says -/

/-- An answer that does not end the attempts, when there are more of them. -/
def Answer.retried : Answer → Bool
  | .ok response => 500 ≤ response.status && response.status < 600
  | .error _ => true

def Answer.status? : Answer → Option ℕ
  | .ok response => some response.status
  | .error _ => none

/-- No attempt that is made is answered with 429. -/
def NoBackoff (answers : ℕ → Answer) : Prop :=
  ∀ k < Upstream.maxAttempts, (∀ j < k, (answers j).retried = true) →
    (answers k).status? ≠ some 429

namespace Upstream

variable {request : SentRequest} {now : ℕ} {answers : ℕ → Answer}

/-- The attempts are requests of their own, and a status that is reported is that of an
answer to one of them. -/
theorem log_attempts (left i : ℕ) (e : Text) (u : Upstream) :
    ∃ more, (attempts request now answers left i e u).2.log = u.log ++ more ∧
      ∀ status, (attempts request now answers left i e u).1 = .sent status →
        ∃ response : Response, (request, .ok response) ∈ more ∧ response.status = status := by
  induction left generalizing i e u with
  | zero =>
    refine ⟨[], by simp [attempts], fun status h => ?_⟩
    rw [attempts] at h
    cases h
  | succ left ih =>
    rw [attempts]
    cases answers i with
    | error message =>
      obtain ⟨more, hlog, hsent⟩ := ih (i + 1) message
        { u with log := u.log ++ [(request, .error message)] }
      refine ⟨(request, .error message) :: more, ?_, fun status h => ?_⟩
      · rw [List.append_cons u.log (request, .error message) more]
        exact hlog
      · obtain ⟨response, hmem, hstatus⟩ := hsent status h
        exact ⟨response, List.mem_cons_of_mem _ hmem, hstatus⟩
    | ok response =>
      simp only
      split
      · next h429 =>
        refine ⟨[(request, .ok response)], rfl, fun status h => ⟨response, by simp, ?_⟩⟩
        rw [Delivery.sent.injEq] at h
        exact h429.trans h
      · split
        · obtain ⟨more, hlog, hsent⟩ := ih (i + 1)
            ("upstream ".toList ++ Decimal.ofNat response.status)
            ⟨absorbLimits u.limits response now, u.log ++ [(request, .ok response)]⟩
          refine ⟨(request, .ok response) :: more, ?_, fun status h => ?_⟩
          · rw [List.append_cons u.log (request, .ok response) more]
            exact hlog
          · obtain ⟨response', hmem, hstatus⟩ := hsent status h
            exact ⟨response', List.mem_cons_of_mem _ hmem, hstatus⟩
        · refine ⟨[(request, .ok response)], rfl, fun status h => ⟨response, by simp, ?_⟩⟩
          rwa [Delivery.sent.injEq] at h

/-- A 429 is reported only if one of the attempts made is answered with it. -/
theorem sent_ne_429 (h : NoBackoff answers) {left i : ℕ} (hleft : i + left = maxAttempts)
    (hretried : ∀ j < i, (answers j).retried = true) (e : Text) (u : Upstream) :
    (attempts request now answers left i e u).1 ≠ .sent 429 := by
  induction left generalizing i e u with
  | zero =>
    rw [attempts]
    exact fun heq => by cases heq
  | succ left ih =>
    have hnext : (answers i).retried = true →
        ∀ j < i + 1, (answers j).retried = true := by
      intro hi j hj
      rcases Nat.lt_succ_iff_lt_or_eq.mp hj with hj | rfl
      · exact hretried j hj
      · exact hi
    have hstatus := h i (by omega) hretried
    rw [attempts]
    cases hanswer : answers i with
    | error message =>
      exact ih (by omega) (hnext (by rw [hanswer]; rfl)) message _
    | ok response =>
      rw [hanswer] at hstatus
      have hne : response.status ≠ 429 := fun heq => hstatus (congrArg some heq)
      simp only [if_neg hne]
      split
      · next hretry =>
        refine ih (by omega) (hnext ?_) _ _
        rw [hanswer, Answer.retried, Bool.and_eq_true, decide_eq_true_eq, decide_eq_true_eq]
        exact ⟨hretry.1, hretry.2.1⟩
      · rw [Ne, Delivery.sent.injEq]
        exact hne

/-- An envelope without limited items, put off by no attempt: it goes out whole, and a status
that is reported is that of an answer to it and not 429. -/
theorem send_eq {u : Upstream} {env : Envelope} (target : UpstreamTarget)
    (hlimits : ∀ item ∈ env.items, u.limits.isLimited item.itemType now = false)
    (hempty : env.isEmpty = false) (hback : NoBackoff answers) :
    let result := u.send target env now answers
    result.1 ≠ .rateLimited ∧ result.1 ≠ .nothing ∧
      ∃ more, result.2.log = u.log ++ more ∧ ∀ status, result.1 = .sent status →
        status ≠ 429 ∧ ∃ response : Response,
          (requestOf target env, .ok response) ∈ more ∧ response.status = status := by
  have hkept : (env.retainItems fun item => !u.limits.isLimited item.itemType now) = env := by
    rw [Envelope.retainItems, List.filter_eq_self.mpr]
    intro item hmem
    rw [hlimits item hmem]
    rfl
  have hsend : u.send target env now answers
      = attempts (requestOf target env) now answers maxAttempts 0 [] u := by
    rw [send]
    simp only [hkept, hempty, Bool.false_eq_true, if_false]
  have hnot : ∀ left i e u', (attempts (requestOf target env) now answers left i e u').1
      ≠ .rateLimited ∧
      (attempts (requestOf target env) now answers left i e u').1 ≠ .nothing := by
    intro left
    induction left with
    | zero =>
      intro i e u'
      rw [attempts]
      exact ⟨nofun, nofun⟩
    | succ left ih =>
      intro i e u'
      rw [attempts]
      cases answers i with
      | error message => exact ih _ _ _
      | ok response =>
        simp only
        split
        · exact ⟨nofun, nofun⟩
        · split
          · exact ih _ _ _
          · exact ⟨nofun, nofun⟩
  obtain ⟨more, hlog, hsent⟩ := @log_attempts (requestOf target env) now answers maxAttempts 0 [] u
  intro result
  have hresult : result = attempts (requestOf target env) now answers maxAttempts 0 [] u := hsend
  rw [hresult]
  refine ⟨(hnot _ _ _ _).1, (hnot _ _ _ _).2, more, hlog, fun status h => ⟨?_, hsent status h⟩⟩
  rintro rfl
  exact sent_ne_429 hback rfl (fun j hj => absurd hj (Nat.not_lt_zero j)) [] u h

end Upstream

end LogLess.Sentry
