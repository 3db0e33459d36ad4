import LogLess.Hec.Listener

/-!
# What the event collector counts

Every exit of every function of the listener against the ledger. A credential that is refused counts
as an outcome wherever that is found out, so it must not be found out on an ack poll; a body that is
refused counts as a request whatever it was sent to; and a query that panics leaves a request without
an outcome. `exact_iff`: a request is counted as it should be if and only if it is none of these.
-/

namespace LogLess.Hec

open Counting (Counted Ledger count amount)
open Frames (Bytes)
open Httpd (Incoming Reply Reject BodyRead Handler Service Visit)

attribute [local instance] lawfulBEq_text

namespace Listener

variable (l : Listener) (p : Process) (r : Incoming)

/-! ## Credentials -/

/-- The verifier accepts what the request presents. -/
def accepts : Bool :=
  let tokens := fromQuery r ((queried r).getD [])
  if l.isOpen then
    (p.authorize false
      (((splunk r).filter fun _ => decide (r.headerCount "authorization" ≤ 1)).or
        (single tokens))).isSome
  else
    decide (r.headerCount "authorization" ≤ 1) &&
      ((splunk r).or (single tokens)).any fun token => (p.authorize true (some token)).isSome

/-- A token was compared or there was none to compare. -/
inductive Tried : Bool → Counted Counter (Except Reply Auth.Principal) → Prop
  | passed (principal : Auth.Principal) : Tried true ⟨[], some (.ok principal)⟩
  | refused (denied : Reply) : Tried false ⟨[(.unauthorized, 1)], some (.error denied)⟩

theorem tried_checkToken (token : Option Text) :
    Tried (p.authorize (!l.isOpen) token).isSome (l.checkToken p token) := by
  rw [checkToken]
  cases p.authorize (!l.isOpen) token with
  | some principal => exact .passed principal
  | none => exact .refused _

theorem tried_refuse (status code : ℕ) (text : String) : Tried false (refuse status code text) :=
  .refused _

theorem splunk_of_empty (h : authorization r = []) : splunk r = none := by
  rw [splunk, h]
  rfl

/-- Unless the query cannot be read, the credential is accepted or the refusal counted. -/
theorem tried_authorized {pairs : List (Text × Text)} (h : queried r = some pairs) :
    Tried (l.accepts p r) (l.authorized p r) := by
  rw [authorized, accepts, h, Option.getD_some, Counting.ofOption_some, Counting.bind_quiet]
  by_cases hopen : l.isOpen = true
  · rw [if_pos hopen, if_pos hopen]
    have htried := l.tried_checkToken p (((splunk r).filter fun _ =>
      decide (r.headerCount "authorization" ≤ 1)).or (single (fromQuery r pairs)))
    rw [hopen] at htried
    exact htried
  · have hclosed : l.isOpen = false := by simpa using hopen
    rw [if_neg hopen, if_neg hopen]
    by_cases htwo : 1 < r.headerCount "authorization"
    · rw [if_pos htwo, decide_eq_false (Nat.not_le_of_lt htwo), Bool.false_and]
      exact tried_refuse _ _ _
    · rw [if_neg htwo, decide_eq_true (Nat.le_of_not_lt htwo), Bool.true_and]
      have hcheck : ∀ token, Tried (p.authorize true (some token)).isSome
          (l.checkToken p (some token)) := by
        intro token
        have htried := l.tried_checkToken p (some token)
        rw [hclosed] at htried
        exact htried
      by_cases hempty : authorization r = []
      · rw [if_pos hempty, splunk_of_empty r hempty, Option.none_or]
        match fromQuery r pairs with
        | [] => exact tried_refuse _ _ _
        | [token] => exact hcheck token
        | _ :: _ :: _ => exact tried_refuse _ _ _
      · rw [if_neg hempty, fromQuery, if_neg hempty]
        cases hsplunk : splunk r with
        | none => exact tried_refuse _ _ _
        | some token => exact hcheck token

theorem authorized_of_unread (h : queried r = none) : l.authorized p r = ⟨[], none⟩ := by
  rw [authorized, h]
  rfl

/-! ## Events -/

theorem exits_submit (channel : Option Text) (records : List LogRecord) :
    ∃ log reply, l.submit p channel records = ⟨log, some reply⟩ ∧ ledger.Exits log := by
  rw [submit]
  split
  · exact ⟨_, _, rfl, rfl, rfl⟩
  · cases p.sink records with
    | accepted => exact ⟨_, _, rfl, rfl, rfl⟩
    | busy => exact ⟨_, _, rfl, rfl, rfl⟩
    | incorrectIndex => exact ⟨_, _, rfl, rfl, rfl⟩

theorem exits_bindAndSubmit (principal : Auth.Principal) (channel : Option Text)
    (parsed : Except EventError (List LogRecord)) :
    ∃ log reply, l.bindAndSubmit p principal channel parsed = ⟨log, some reply⟩ ∧
      ledger.Exits log := by
  cases parsed with
  | error e => exact ⟨_, _, rfl, rfl, rfl⟩
  | ok records =>
    rw [bindAndSubmit]
    split
    · exact l.exits_submit p channel _
    · exact ⟨_, _, rfl, rfl, rfl⟩
    · exact ⟨_, _, rfl, rfl, rfl⟩

theorem log_channel : (channel r).log = [] := by
  rw [channel]
  cases r.header "x-splunk-request-channel" with
  | some c => rfl
  | none => cases queryPairs r.query <;> rfl

theorem channel_of_read (h : (queryPairs r.query).isSome = true) : ∃ c, channel r = ⟨[], some c⟩ := by
  rw [channel]
  cases r.header "x-splunk-request-channel" with
  | some c => exact ⟨_, rfl⟩
  | none =>
    obtain ⟨pairs, hpairs⟩ := Option.isSome_iff_exists.1 h
    rw [hpairs]
    exact ⟨_, rfl⟩

/-- A query that panics after the request is counted. -/
theorem ingest_of_panicked (raw : Bool) (principal : Auth.Principal)
    (hauth : l.authorized p r = ⟨[], some (.ok principal)⟩)
    (h : queryPairs r.query = none) : l.ingest p r raw = ⟨[(.requests, 1)], none⟩ := by
  have hmeta : Metadata.fromQuery r.query = none := by rw [Metadata.fromQuery, h, Option.map_none]
  have hlog := log_channel r
  rw [ingest, hauth, Counting.bind_quiet]
  simp only [Counting.count_bind, hmeta]
  generalize channel r = looked at hlog ⊢
  obtain ⟨log, value⟩ := looked
  obtain rfl : log = [] := hlog
  cases value with
  | none => rfl
  | some c => rfl

theorem ingest_of_read (raw : Bool) (principal : Auth.Principal)
    (hauth : l.authorized p r = ⟨[], some (.ok principal)⟩)
    (h : (queryPairs r.query).isSome = true) :
    ∃ log reply, l.ingest p r raw = ⟨log, some reply⟩ ∧ ledger.Once log := by
  obtain ⟨c, hc⟩ := channel_of_read r h
  obtain ⟨pairs, hpairs⟩ := Option.isSome_iff_exists.1 h
  obtain ⟨log, reply, hlog, hexits⟩ := l.exits_bindAndSubmit p principal c
    (p.parseBody raw r.body (pairs.foldl Metadata.read ⟨none, none, none, none⟩))
  refine ⟨(.requests, 1) :: log, reply, ?_, hexits.once ⟨rfl, rfl⟩⟩
  rw [ingest, hauth, Counting.bind_quiet]
  simp only [Counting.count_bind, hc, Counting.bind_quiet, Metadata.fromQuery, hpairs,
    Option.map_some, Counting.ofOption_some, hlog]

/-- An event request is counted once if it is answered, and not at all if it is not, unless its
credential is accepted and its query panics. -/
theorem ingest_exact (raw : Bool) :
    ledger.Fair (l.ingest p r raw) ↔
      ¬ ((queried r).isSome = true ∧ l.accepts p r = true ∧ queryPairs r.query = none) := by
  cases hq : queried r with
  | none =>
    have hlog : l.ingest p r raw = ⟨[], none⟩ := by
      rw [ingest, l.authorized_of_unread p r hq, Counting.bind_none]
    rw [hlog]
    refine ⟨fun _ h => ?_, fun _ => ⟨rfl, rfl⟩⟩
    cases h.1
  | some pairs =>
    have htried := l.tried_authorized p r hq
    generalize hauth : l.authorized p r = tried at htried
    generalize l.accepts p r = verdict at htried ⊢
    cases htried with
    | refused denied =>
      have hlog : l.ingest p r raw = ⟨[(.unauthorized, 1), (.requests, 1)], some denied⟩ := by
        rw [ingest, hauth, Counting.bind_some]
        rfl
      rw [hlog]
      refine ⟨fun _ h => ?_, fun _ => ⟨rfl, rfl⟩⟩
      cases h.2.1
    | passed principal =>
      cases hread : queryPairs r.query with
      | none =>
        rw [l.ingest_of_panicked p r raw principal hauth hread]
        refine ⟨fun h => ?_, fun h => absurd ⟨rfl, rfl, rfl⟩ h⟩
        cases h.1
      | some read =>
        obtain ⟨log, reply, hlog, honce⟩ := l.ingest_of_read p r raw principal hauth (by rw [hread]; rfl)
        rw [hlog]
        refine ⟨fun _ h => ?_, fun _ => honce⟩
        cases h.2.2

/-! ## Ack polls -/

/-- A poll is not counted, unless its credential is refused. -/
theorem ackQuery_exact :
    ledger.Never (l.ackQuery p r).log ↔
      ¬ ((queried r).isSome = true ∧ l.accepts p r = false) := by
  cases hq : queried r with
  | none =>
    have hlog : l.ackQuery p r = ⟨[], none⟩ := by
      rw [ackQuery, l.authorized_of_unread p r hq, Counting.bind_none]
    rw [hlog]
    refine ⟨fun _ h => ?_, fun _ => ⟨rfl, rfl⟩⟩
    cases h.1
  | some pairs =>
    have htried := l.tried_authorized p r hq
    generalize hauth : l.authorized p r = tried at htried
    generalize l.accepts p r = verdict at htried ⊢
    cases htried with
    | refused denied =>
      have hlog : l.ackQuery p r = ⟨[(.unauthorized, 1)], some denied⟩ := by
        rw [ackQuery, hauth, Counting.bind_some]
        rfl
      rw [hlog]
      refine ⟨fun h => ?_, fun h => absurd ⟨rfl, rfl⟩ h⟩
      cases h.2
    | passed principal =>
      have hpassed : ¬ ((some pairs).isSome = true ∧ true = false) := fun h => nomatch h.2
      rw [iff_true_right hpassed]
      have hchannel := log_channel r
      rw [ackQuery, hauth, Counting.bind_quiet]
      simp only
      split
      · generalize channel r = looked at hchannel ⊢
        obtain ⟨log, value⟩ := looked
        obtain rfl : log = [] := hchannel
        rcases value with _ | _ | c
        · exact ⟨rfl, rfl⟩
        · exact ⟨rfl, rfl⟩
        · exact ⟨rfl, rfl⟩
      · exact ⟨rfl, rfl⟩

/-! ## Heads -/

/-- What a head says against the request, if its credential is accepted. -/
def wellFormed : Bool :=
  decide (r.headerCount "x-splunk-request-channel" ≤ 1) && Httpd.encodingAccepted r

/-- The head is refused for its credential. -/
def refusedCredential : Bool :=
  !(l.isOpen && fromBrowser r) && (queried r).isSome && !l.accepts p r

/-- `preflight` hands the request on. -/
def passes : Bool :=
  !(l.isOpen && fromBrowser r) && (queried r).isSome && l.accepts p r && wellFormed r

/-- What comes of the chain of refusals: whether the credential is refused, whether the head passes. -/
inductive Refusal : Bool → Bool → Counted Counter (Option (Reply × Option Counter)) → Prop
  | panicked : Refusal false false ⟨[], none⟩
  | credential (denied : Reply) :
    Refusal true false ⟨[(.unauthorized, 1)], some (some (denied, none))⟩
  | head (reply : Reply) (k : Counter) (hk : k ∈ ledger.outcomes) :
    Refusal false false ⟨[], some (some (reply, some k))⟩
  | passed : Refusal false true ⟨[], some none⟩

theorem refusal_cases : Refusal (l.refusedCredential p r) (l.passes p r) (l.refusal p r) := by
  rw [refusal, refusedCredential, passes]
  by_cases hmarked : (l.isOpen && fromBrowser r) = true
  · rw [if_pos hmarked, hmarked]
    exact .head _ .unauthorized (by decide)
  · have hclean : (l.isOpen && fromBrowser r) = false := by simpa using hmarked
    rw [if_neg hmarked, hclean]
    cases hq : queried r with
    | none =>
      rw [l.authorized_of_unread p r hq, Counting.bind_none]
      exact .panicked
    | some pairs =>
      have htried := l.tried_authorized p r hq
      generalize l.authorized p r = tried at htried ⊢
      generalize l.accepts p r = verdict at htried ⊢
      cases htried with
      | refused denied => exact .credential denied
      | passed principal =>
        rw [Counting.bind_quiet]
        simp only [Bool.not_false, Option.isSome_some, Bool.and_true, Bool.not_true, Bool.and_false,
          wellFormed]
        by_cases hchannel : 1 < r.headerCount "x-splunk-request-channel"
        · rw [if_pos hchannel, decide_eq_false (Nat.not_le_of_lt hchannel)]
          exact .head _ .badRequest (by decide)
        · rw [if_neg hchannel, decide_eq_true (Nat.le_of_not_lt hchannel)]
          cases Httpd.encodingAccepted r with
          | false => exact .head _ .badRequest (by decide)
          | true => exact .passed

theorem reject_once (reason : Reject) :
    ∃ log reply, reject reason = ⟨log, some reply⟩ ∧ ledger.Once log := by
  cases reason with
  | tooLarge => exact ⟨_, _, rfl, rfl, rfl⟩
  | unreadable why => exact ⟨_, _, rfl, rfl, rfl⟩

end Listener

/-! ## Visits -/

inductive Kind where
  | event
  | ack
  | other
deriving DecidableEq

/-- What a request is for, by its method and path. -/
def kind (r : Incoming) : Kind :=
  if r.method = .post ∧ r.path = Listener.ackPath then .ack
  else if r.method = .post ∧ (r.path ∈ Listener.eventPaths ∨ r.path = Listener.rawPath) then .event
  else .other

section

variable {r : Incoming}

theorem of_kind_ack (h : kind r = .ack) : r.method = .post ∧ r.path = Listener.ackPath := by
  by_contra hnot
  rw [kind, if_neg hnot] at h
  split at h <;> cases h

theorem of_kind_event (h : kind r = .event) : r.method = .post ∧ r.path ≠ Listener.ackPath ∧
    (r.path ∈ Listener.eventPaths ∨ r.path = Listener.rawPath) := by
  rw [kind] at h
  split at h
  · cases h
  · next hack =>
    split at h
    · next hevent => exact ⟨hevent.1, fun hpath => hack ⟨hevent.1, hpath⟩, hevent.2⟩
    · cases h

theorem of_kind_other (h : kind r = .other) : ¬ (r.method = .post ∧ r.path = Listener.ackPath) ∧
    ¬ (r.method = .post ∧ (r.path ∈ Listener.eventPaths ∨ r.path = Listener.rawPath)) := by
  rw [kind] at h
  split at h
  · cases h
  · next hack =>
    split at h
    · cases h
    · next hevent => exact ⟨hack, hevent⟩

end

namespace Listener

variable {l : Listener} {p : Process} {r : Incoming}

theorem preflight_of_ack (h : kind r = .ack) : l.preflight p r = l.refuseHead p r false := by
  rw [preflight, if_pos (of_kind_ack h)]

theorem preflight_of_event (h : kind r = .event) : l.preflight p r = l.refuseHead p r true := by
  obtain ⟨hpost, hack, hpath⟩ := of_kind_event h
  rw [preflight, if_neg fun hboth => hack hboth.2, if_pos ⟨hpost, hpath⟩]

theorem preflight_of_other (h : kind r = .other) : l.preflight p r = ⟨[], some none⟩ := by
  obtain ⟨hack, hevent⟩ := of_kind_other h
  rw [preflight, if_neg hack, if_neg hevent]
  rfl

theorem handle_of_ack (h : kind r = .ack) : l.handle p r = l.ackQuery p r := by
  obtain ⟨hpost, hpath⟩ := of_kind_ack h
  have hget : ¬ (r.method = .get ∧ r.path ∈ healthPaths) := by
    rw [hpost]
    exact fun hboth => nomatch hboth.1
  rw [handle, if_neg hget, if_pos hpost, if_pos hpath]

theorem handle_of_event (h : kind r = .event) : ∃ raw, l.handle p r = l.ingest p r raw := by
  obtain ⟨hpost, hack, hpath⟩ := of_kind_event h
  have hget : ¬ (r.method = .get ∧ r.path ∈ healthPaths) := by
    rw [hpost]
    exact fun hboth => nomatch hboth.1
  rw [handle, if_neg hget, if_pos hpost, if_neg hack]
  by_cases hraw : r.path = rawPath
  · exact ⟨true, by rw [if_pos hraw]⟩
  · exact ⟨false, by rw [if_neg hraw, if_pos (hpath.resolve_right hraw)]⟩

theorem handle_of_other (h : kind r = .other) : ∃ reply, l.handle p r = ⟨[], some reply⟩ := by
  obtain ⟨hack, hevent⟩ := of_kind_other h
  rw [handle]
  split
  · exact ⟨_, rfl⟩
  · split
    · next hpost =>
      rw [if_neg fun hpath => hack ⟨hpost, hpath⟩, if_neg fun hpath => hevent ⟨hpost, .inr hpath⟩,
        if_neg fun hpath => hevent ⟨hpost, .inl hpath⟩]
      exact ⟨_, rfl⟩
    · exact ⟨_, rfl⟩

/-- What `preflight` makes of the head of an event request. -/
inductive EventHead : Bool → Counted Counter (Option Reply) → Prop
  | panicked : EventHead false ⟨[], none⟩
  | refused (log : List (Counter × ℕ)) (reply : Reply) (h : ledger.Once log) :
    EventHead false ⟨log, some (some reply)⟩
  | passed : EventHead true ⟨[], some none⟩

theorem eventHead_of_kind (h : kind r = .event) : EventHead (l.passes p r) (l.preflight p r) := by
  have hcases := l.refusal_cases p r
  rw [preflight_of_event h, refuseHead]
  generalize l.refusal p r = refusal at hcases ⊢
  generalize l.refusedCredential p r = credential at hcases
  generalize l.passes p r = passes at hcases ⊢
  cases hcases with
  | panicked => exact .panicked
  | credential denied => exact .refused [(.unauthorized, 1), (.requests, 1)] _ ⟨rfl, rfl⟩
  | head reply k hk =>
    refine .refused [(.requests, 1), (k, 1)] reply ?_
    cases k with
    | requests | records | ackQueries => exact absurd hk (by decide)
    | accepted | busy | unauthorized | badRequest | tooLarge => exact ⟨rfl, rfl⟩
  | passed => exact .passed

/-- What `preflight` makes of the head of a poll: whether it is refused for its credential, and
whether it passes. -/
inductive AckHead : Bool → Bool → Counted Counter (Option Reply) → Prop
  | panicked : AckHead false false ⟨[], none⟩
  | credential (reply : Reply) : AckHead true false ⟨[(.unauthorized, 1)], some (some reply)⟩
  | refused (reply : Reply) : AckHead false false ⟨[], some (some reply)⟩
  | passed : AckHead false true ⟨[], some none⟩

theorem ackHead_of_kind (h : kind r = .ack) :
    AckHead (l.refusedCredential p r) (l.passes p r) (l.preflight p r) := by
  have hcases := l.refusal_cases p r
  rw [preflight_of_ack h, refuseHead]
  generalize l.refusal p r = refusal at hcases ⊢
  generalize l.refusedCredential p r = credential at hcases ⊢
  generalize l.passes p r = passes at hcases ⊢
  cases hcases with
  | panicked => exact .panicked
  | credential denied => exact .credential denied
  | head reply k hk => exact .refused reply
  | passed => exact .passed

end Listener

def service (l : Listener) : Httpd.Service Counter Process where
  handler := l.handler
  ledger := ledger
  isCounted r := kind r = .event

/-- No credential of a poll is refused, no body of what is not an event request, and no event
request that passes has a query that panics. -/
def fine (l : Listener) (v : Visit Process) : Bool :=
  match kind v.head, v.body with
  | .event, .whole _ =>
    !(l.passes v.atHead v.head && l.accepts v.atBody v.head && (queryPairs v.head.query).isNone)
  | .event, _ => true
  | .ack, .whole _ =>
    !l.refusedCredential v.atHead v.head &&
      !(l.passes v.atHead v.head && !l.accepts v.atBody v.head)
  | .ack, .rejected _ => !l.refusedCredential v.atHead v.head && !l.passes v.atHead v.head
  | .ack, .failed => !l.refusedCredential v.atHead v.head
  | .other, .rejected _ => false
  | .other, _ => true

variable {l : Listener} {v : Visit Process}

theorem readable_of_passes (h : l.passes v.atHead v.head = true) :
    (Listener.queried v.head).isSome = true := by
  simp only [Listener.passes, Bool.and_eq_true] at h
  exact h.1.1.2

theorem exact_of_rejected (hpreflight : l.preflight v.atHead v.head = ⟨[], some none⟩)
    {reason : Reject} (hbody : v.body = .rejected reason) :
    (service l).Exact v ↔ kind v.head = .event := by
  obtain ⟨log, reply, hreject, honce⟩ := Listener.reject_once reason
  have hresult := Service.result_of_rejected (s := service l) hpreflight hbody
  rw [show ((service l).handler v.atBody).reject = Listener.reject from rfl, hreject] at hresult
  rw [Service.exact_of_once hresult honce]
  exact decide_eq_true_iff

theorem exact_of_event (h : kind v.head = .event) :
    (service l).Exact v ↔ fine l v = true := by
  have hcounted : (service l).isCounted v.head = true := decide_eq_true h
  have hhead := Listener.eventHead_of_kind (l := l) (p := v.atHead) h
  have hreadable := readable_of_passes (l := l) (v := v)
  rw [fine, h]
  generalize hpreflight : l.preflight v.atHead v.head = preflight at hhead
  generalize l.passes v.atHead v.head = passes at hhead hreadable ⊢
  cases hhead with
  | panicked =>
    have hresult := Service.result_of_panicked (s := service l) hpreflight
    rw [Service.exact_of_unanswered hresult rfl]
    cases v.body <;> exact iff_of_true ⟨rfl, rfl⟩ rfl
  | refused log reply honce =>
    have hresult := Service.result_of_refused (s := service l) hpreflight
    rw [Service.exact_of_once hresult honce]
    cases v.body <;> exact iff_of_true hcounted rfl
  | passed =>
    cases hbody : v.body with
    | failed =>
      have hresult := Service.result_of_failed (s := service l) hpreflight hbody
      rw [Service.exact_of_unanswered hresult rfl]
      exact iff_of_true ⟨rfl, rfl⟩ rfl
    | rejected reason =>
      rw [exact_of_rejected hpreflight hbody]
      exact iff_of_true h rfl
    | whole bytes =>
      obtain ⟨raw, hhandle⟩ := Listener.handle_of_event (l := l) (p := v.atBody)
        (r := v.head.withBody bytes) h
      have hresult := Service.result_of_whole (s := service l) hpreflight hbody
      rw [show ((service l).handler v.atBody).handle = l.handle v.atBody from rfl, hhandle]
        at hresult
      rw [Service.exact_of_fair hresult hcounted,
        show (service l).ledger = ledger from rfl, l.ingest_exact]
      show ¬ ((Listener.queried v.head).isSome = true ∧ l.accepts v.atBody v.head = true ∧
          queryPairs v.head.query = none) ↔
        (!(true && l.accepts v.atBody v.head && (queryPairs v.head.query).isNone)) = true
      rw [hreadable rfl]
      cases l.accepts v.atBody v.head <;> cases queryPairs v.head.query <;> simp

theorem exact_of_ack (h : kind v.head = .ack) : (service l).Exact v ↔ fine l v = true := by
  have hkind : kind v.head ≠ .event := by rw [h]; decide
  have hother : (service l).isCounted v.head = false := decide_eq_false hkind
  have hhead := Listener.ackHead_of_kind (l := l) (p := v.atHead) h
  have hreadable := readable_of_passes (l := l) (v := v)
  rw [fine, h]
  generalize hpreflight : l.preflight v.atHead v.head = preflight at hhead
  generalize l.refusedCredential v.atHead v.head = credential at hhead ⊢
  generalize l.passes v.atHead v.head = passes at hhead hreadable ⊢
  cases hhead with
  | panicked =>
    have hresult := Service.result_of_panicked (s := service l) hpreflight
    rw [Service.exact_of_unanswered hresult rfl]
    cases v.body <;> exact iff_of_true ⟨rfl, rfl⟩ rfl
  | credential reply =>
    have hresult := Service.result_of_refused (s := service l) hpreflight
    rw [Service.exact_of_other hother, Service.log, hresult]
    have hnever : ¬ ledger.Never [(.unauthorized, 1)] := fun h => by cases h.2
    cases v.body <;> exact iff_of_false hnever Bool.false_ne_true
  | refused reply =>
    have hresult := Service.result_of_refused (s := service l) hpreflight
    rw [Service.exact_of_other hother, Service.log, hresult]
    cases v.body <;> exact iff_of_true ⟨rfl, rfl⟩ rfl
  | passed =>
    cases hbody : v.body with
    | failed =>
      have hresult := Service.result_of_failed (s := service l) hpreflight hbody
      rw [Service.exact_of_unanswered hresult rfl]
      exact iff_of_true ⟨rfl, rfl⟩ rfl
    | rejected reason =>
      rw [exact_of_rejected hpreflight hbody]
      exact iff_of_false hkind Bool.false_ne_true
    | whole bytes =>
      have hhandle := Listener.handle_of_ack (l := l) (p := v.atBody)
        (r := v.head.withBody bytes) h
      have hresult := Service.result_of_whole (s := service l) hpreflight hbody
      rw [show ((service l).handler v.atBody).handle = l.handle v.atBody from rfl, hhandle]
        at hresult
      rw [Service.exact_of_other hother, Service.log, hresult,
        show (service l).ledger = ledger from rfl, l.ackQuery_exact]
      show ¬ ((Listener.queried v.head).isSome = true ∧ l.accepts v.atBody v.head = false) ↔
        (!false && !(true && !l.accepts v.atBody v.head)) = true
      rw [hreadable rfl]
      cases l.accepts v.atBody v.head <;> decide

theorem exact_of_other (h : kind v.head = .other) : (service l).Exact v ↔ fine l v = true := by
  have hkind : kind v.head ≠ .event := by rw [h]; decide
  have hother : (service l).isCounted v.head = false := decide_eq_false hkind
  have hpreflight := Listener.preflight_of_other (l := l) (p := v.atHead) h
  rw [fine, h]
  cases hbody : v.body with
  | failed =>
    have hresult := Service.result_of_failed (s := service l) hpreflight hbody
    rw [Service.exact_of_unanswered hresult rfl]
    exact iff_of_true ⟨rfl, rfl⟩ rfl
  | rejected reason =>
    rw [exact_of_rejected hpreflight hbody]
    exact iff_of_false hkind Bool.false_ne_true
  | whole bytes =>
    obtain ⟨reply, hhandle⟩ := Listener.handle_of_other (l := l) (p := v.atBody)
      (r := v.head.withBody bytes) h
    have hresult := Service.result_of_whole (s := service l) hpreflight hbody
    rw [show ((service l).handler v.atBody).handle = l.handle v.atBody from rfl, hhandle]
      at hresult
    rw [Service.exact_of_other hother, Service.log, hresult]
    exact iff_of_true ⟨rfl, rfl⟩ rfl

theorem exact_iff (l : Listener) (v : Visit Process) :
    (service l).Exact v ↔ fine l v = true := by
  cases h : kind v.head with
  | event => exact exact_of_event h
  | ack => exact exact_of_ack h
  | other => exact exact_of_other h

end LogLess.Hec
