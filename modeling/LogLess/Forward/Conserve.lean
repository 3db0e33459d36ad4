import LogLess.Forward.Dispatch
import LogLess.Lib.Runs

/-!
# What the vendors learn of collapsed errors

Runs of `handle` and `flush_if_due` calls at any times. `Visible` is what a vendor that
aggregates can be promised: the counts it accepted and those still waiting are the errors
handled, and each aggregate stands for errors of one service and one template.

Every error handled is counted once for each destination that aggregates, and a drained
rollup is forgotten whether or not the vendor took it, so `Visible` is kept by the steps
that have at most one such destination and whose aggregates are accepted.
-/

namespace LogLess.Forward

/-! ## Forwarders -/

def Answer.accepts : Answer → Bool
  | .ok status => accepted status
  | .error _ => false

/-- The answers after which a post is tried again. -/
def Answer.retried : Answer → Bool
  | .ok status => !accepted status && !refused status
  | .error _ => true

/-- The errors a body stands for as an aggregate. -/
def Body.count : Body → ℕ
  | .event _ => 0
  | .aggregate r => r.count

/-- The sum of the counts in posts that were accepted. -/
def countAccepted (log : List (Post × Answer)) : ℕ :=
  ((log.filter fun e => e.2.accepts).map fun e => e.1.body.count).sum

@[simp] theorem countAccepted_append (l m : List (Post × Answer)) :
    countAccepted (l ++ m) = countAccepted l + countAccepted m := by
  simp [countAccepted]

/-- Later posts of a forwarder, all of bodies in `P`. -/
structure Forwarder.Adds (P : Body → Prop) (f f' : Forwarder) : Prop where
  destination : f'.destination = f.destination
  answers : f'.transport.answers = f.transport.answers
  maxRetries : f'.maxRetries = f.maxRetries
  log : ∃ more, f'.transport.log = f.transport.log ++ more ∧ ∀ e ∈ more, P e.1.body

namespace Forwarder

variable {P Q : Body → Prop} {f f' f'' : Forwarder}

theorem Adds.refl (f : Forwarder) : f.Adds P f := ⟨rfl, rfl, rfl, [], by simp, by simp⟩

theorem Adds.trans (h : f.Adds P f') (h' : f'.Adds P f'') : f.Adds P f'' := by
  obtain ⟨more, hlog, hmore⟩ := h.log
  obtain ⟨more', hlog', hmore'⟩ := h'.log
  refine ⟨h'.destination.trans h.destination, h'.answers.trans h.answers,
    h'.maxRetries.trans h.maxRetries, more ++ more', ?_, ?_⟩
  · rw [hlog', hlog, List.append_assoc]
  · intro e he
    exact (List.mem_append.mp he).elim (hmore e) (hmore' e)

theorem Adds.imp (h : f.Adds P f') (hPQ : ∀ b, P b → Q b) : f.Adds Q f' := by
  obtain ⟨more, hlog, hmore⟩ := h.log
  exact ⟨h.destination, h.answers, h.maxRetries, more, hlog, fun e he => hPQ _ (hmore e he)⟩

theorem Adds.stats (h : f.Adds P f') (stats : ForwardStats) :
    f.Adds P { f' with stats := stats } := ⟨h.destination, h.answers, h.maxRetries, h.log⟩

/-- A forwarder after one more call of its transport. -/
def called (f : Forwarder) (p : Post) : Forwarder :=
  { f with transport := (f.transport.post p).2 }

theorem log_called (f : Forwarder) (p : Post) :
    (f.called p).transport.log
      = f.transport.log ++ [(p, f.transport.answers f.transport.log.length)] := rfl

theorem adds_called (f : Forwarder) (p : Post) : f.Adds (· = p.body) (f.called p) :=
  ⟨rfl, rfl, rfl, [(p, f.transport.answers f.transport.log.length)], rfl, by simp⟩

/-- One call, and what its answer leads to. -/
theorem attempt_eq (p : Post) (left : ℕ) (f : Forwarder) :
    let answer := f.transport.answers f.transport.log.length
    (answer.accepts = true ∧ attempt p left f = (.ok (), f.called p)) ∨
    (answer.accepts = false ∧ (answer.retried = false ∨ left = 0) ∧
      ∃ e, attempt p left f = (f.called p).failed e) ∨
    (answer.retried = true ∧ answer.accepts = false ∧
      ∃ n, left = n + 1 ∧ attempt p left f = attempt p n (f.called p).again) := by
  intro answer
  have hpost : f.transport.post p = (answer, (f.called p).transport) := rfl
  generalize hres : attempt p left f = res
  unfold attempt at hres
  rw [hpost] at hres
  subst hres
  cases hanswer : answer with
  | error message =>
    cases left with
    | zero => exact .inr (.inl ⟨rfl, .inr rfl, _, rfl⟩)
    | succ n => exact .inr (.inr ⟨rfl, rfl, n, rfl, rfl⟩)
  | ok status =>
    by_cases haccepted : accepted status = true
    · exact .inl ⟨haccepted, if_pos haccepted⟩
    · have haccepts : Answer.accepts (.ok status) = false := Bool.not_eq_true _ ▸ haccepted
      simp only [if_neg haccepted]
      by_cases hrefused : refused status = true
      · refine .inr (.inl ⟨haccepts, .inl ?_, _, if_pos hrefused⟩)
        simp [Answer.retried, hrefused]
      · simp only [if_neg hrefused]
        cases left with
        | zero => exact .inr (.inl ⟨haccepts, .inr rfl, _, rfl⟩)
        | succ n =>
          refine .inr (.inr ⟨?_, haccepts, n, rfl, rfl⟩)
          simp [Answer.retried, haccepted, hrefused]

theorem adds_attempt (p : Post) (left : ℕ) (f : Forwarder) :
    f.Adds (· = p.body) (attempt p left f).2 := by
  induction left generalizing f with
  | zero =>
    rcases attempt_eq p 0 f with ⟨-, h⟩ | ⟨-, -, e, h⟩ | ⟨-, -, n, hn, -⟩
    · rw [h]
      exact adds_called f p
    · rw [h]
      exact (adds_called f p).stats _
    · cases hn
  | succ left ih =>
    rcases attempt_eq p (left + 1) f with ⟨-, h⟩ | ⟨-, -, e, h⟩ | ⟨-, -, n, hn, h⟩
    · rw [h]
      exact adds_called f p
    · rw [h]
      exact (adds_called f p).stats _
    · obtain rfl : left = n := by omega
      rw [h]
      exact ((adds_called f p).stats _).trans (ih (f.called p).again)

/-- A post is made at least once. -/
theorem mem_log_attempt (p : Post) (left : ℕ) (f : Forwarder) :
    ∃ answer, (p, answer) ∈ (attempt p left f).2.transport.log := by
  have hcalled : (p, f.transport.answers f.transport.log.length) ∈ (f.called p).transport.log := by
    simp [log_called]
  rcases attempt_eq p left f with ⟨-, h⟩ | ⟨-, -, e, h⟩ | ⟨-, -, n, -, h⟩
  · rw [h]
    exact ⟨_, hcalled⟩
  · rw [h]
    exact ⟨_, hcalled⟩
  · obtain ⟨more, hlog, -⟩ := (adds_attempt p n (f.called p).again).log
    rw [h, hlog]
    exact ⟨_, List.mem_append_left _ hcalled⟩

/-- The answers that make a post accepted: within `left` retries, a 2xx that comes before
any answer that ends the attempts. -/
theorem attempt_accepted (p : Post) {left k : ℕ} (hk : k ≤ left) (f : Forwarder)
    (hretried : ∀ j < k, (f.transport.answers (f.transport.log.length + j)).retried = true)
    (haccepts : (f.transport.answers (f.transport.log.length + k)).accepts = true) :
    (attempt p left f).2.transport.log.length = f.transport.log.length + k + 1 ∧
      countAccepted (attempt p left f).2.transport.log
        = countAccepted f.transport.log + p.body.count := by
  induction k generalizing left f with
  | zero =>
    rcases attempt_eq p left f with ⟨-, h⟩ | ⟨hno, -, -⟩ | ⟨-, hno, -⟩
    · rw [h, log_called]
      simp only [add_zero] at haccepts
      simp [countAccepted, haccepts]
    all_goals
      rw [add_zero, hno] at haccepts
      cases haccepts
  | succ k ih =>
    have hfirst := hretried 0 (by omega)
    rw [add_zero] at hfirst
    have hnot : (f.transport.answers f.transport.log.length).accepts = false := by
      cases hanswer : f.transport.answers f.transport.log.length with
      | error message => rfl
      | ok status =>
        rw [hanswer, Answer.retried, Bool.and_eq_true, Bool.not_eq_true'] at hfirst
        exact hfirst.1
    rcases attempt_eq p left f with ⟨hyes, -⟩ | ⟨-, hno, -⟩ | ⟨-, -, n, rfl, h⟩
    · rw [hnot] at hyes
      cases hyes
    · rw [hfirst] at hno
      rcases hno with hno | hno
      · cases hno
      · omega
    · have hlen : (f.called p).again.transport.log.length = f.transport.log.length + 1 := by
        show (f.called p).transport.log.length = _
        simp [log_called]
      have hshift : ∀ j, (f.called p).again.transport.log.length + j
          = f.transport.log.length + (j + 1) := by
        intro j
        rw [hlen]
        omega
      obtain ⟨hlog, hcount⟩ := ih (by omega : k ≤ n) (f.called p).again
        (fun j hj => by rw [hshift]; exact hretried (j + 1) (by omega))
        (by rw [hshift]; exact haccepts)
      rw [h]
      constructor
      · rw [hlog, hlen]
        omega
      · rw [hcount]
        congr 1
        show countAccepted (f.called p).transport.log = _
        rw [log_called, countAccepted_append]
        simp [countAccepted, hnot]

theorem adds_post (f : Forwarder) (body : Body) : f.Adds (· = body) (f.post body).2 := by
  unfold post
  split
  · exact Adds.refl f
  · exact adds_attempt ⟨_, _, body⟩ _ _

def isEvent : Body → Prop
  | .event _ => True
  | .aggregate _ => False

theorem adds_sendEvent (f : Forwarder) (window : ContextWindow) :
    f.Adds isEvent (f.sendEvent window).2 := by
  have hpost : f.Adds isEvent (f.post (.event window)).2 :=
    (adds_post f _).imp fun b hb => hb ▸ trivial
  unfold sendEvent
  split
  · exact Adds.refl f
  · cases hr : f.post (.event window) with
    | mk result f' =>
      rw [hr] at hpost
      cases result with
      | error e => exact hpost
      | ok _ => exact hpost.stats _

/-- A destination that aggregates has an endpoint, and `send_aggregate` differs from the
attempts it makes in the counters of the forwarder only. -/
theorem sendAggregate_eq (h : f.destination.aggregates = true) (r : Rollup) :
    ∃ p stats, p.body = .aggregate r ∧
      (f.sendAggregate r).2 = { (attempt p f.maxRetries f).2 with stats := stats } := by
  cases hd : f.destination with
  | sentry dsn =>
    rw [hd] at h
    cases h
  | logless url =>
    rw [hd] at h
    cases h
  | splunkHec url token aggregate =>
    obtain ⟨endpoint, headers, hrequest⟩ :
        ∃ endpoint headers, f.destination.request = .ok (endpoint, headers) := by
      rw [hd]
      exact ⟨_, _, rfl⟩
    have hpost : f.post (.aggregate r)
        = attempt ⟨endpoint, headers, .aggregate r⟩ f.maxRetries f := by
      rw [post, hrequest]
    refine ⟨⟨endpoint, headers, .aggregate r⟩, ?_⟩
    unfold sendAggregate
    rw [hd, hpost]
    cases hr : attempt ⟨endpoint, headers, .aggregate r⟩ f.maxRetries f with
    | mk result f' =>
      cases result with
      | error e => exact ⟨f'.stats, rfl, rfl⟩
      | ok _ => exact ⟨_, rfl, rfl⟩

/-- The aggregates posted, whatever the answer. -/
def Posted (f : Forwarder) (r : Rollup) : Prop := ∃ e ∈ f.transport.log, e.1.body = .aggregate r

theorem Adds.posted (h : f.Adds P f') {r : Rollup} (hr : f.Posted r) : f'.Posted r := by
  obtain ⟨e, he, hbody⟩ := hr
  obtain ⟨more, hlog, -⟩ := h.log
  exact ⟨e, hlog ▸ List.mem_append_left _ he, hbody⟩

theorem Adds.posted_of (h : f.Adds P f') {r : Rollup} (hr : f'.Posted r) :
    f.Posted r ∨ P (.aggregate r) := by
  obtain ⟨e, he, hbody⟩ := hr
  obtain ⟨more, hlog, hmore⟩ := h.log
  rw [hlog] at he
  rcases List.mem_append.mp he with he | he
  · exact .inl ⟨e, he, hbody⟩
  · exact .inr (hbody ▸ hmore e he)

theorem adds_sendAggregate (h : f.destination.aggregates = true) (r : Rollup) :
    f.Adds (· = .aggregate r) (f.sendAggregate r).2 := by
  obtain ⟨p, stats, hbody, heq⟩ := sendAggregate_eq h r
  rw [heq, ← hbody]
  exact (adds_attempt p _ f).stats stats

theorem posted_sendAggregate (h : f.destination.aggregates = true) (r : Rollup) :
    (f.sendAggregate r).2.Posted r := by
  obtain ⟨p, stats, hbody, heq⟩ := sendAggregate_eq h r
  obtain ⟨answer, hmem⟩ := mem_log_attempt p f.maxRetries f
  rw [heq]
  exact ⟨(p, answer), hmem, hbody⟩

/-- From call `i` on, the next `n` posts are accepted: each gets a 2xx within `retries`
retries, and before it only answers after which it is tried again. -/
def AcceptsNext (retries : ℕ) (answers : ℕ → Answer) : ℕ → ℕ → Prop
  | 0, _ => True
  | n + 1, i => ∃ k ≤ retries, (∀ j < k, (answers (i + j)).retried = true) ∧
      (answers (i + k)).accepts = true ∧ AcceptsNext retries answers n (i + k + 1)

/-- The sum of the counts of some rollups. -/
def total (rollups : List Rollup) : ℕ := (rollups.map Rollup.count).sum

theorem adds_flushOne (rollups : List Rollup) (f : Forwarder) :
    f.Adds (∃ r ∈ rollups, · = .aggregate r) (Dispatch.flushOne rollups f) := by
  unfold Dispatch.flushOne
  split
  · next h =>
    induction rollups generalizing f with
    | nil => exact Adds.refl f
    | cons r rs ih =>
      have hfirst := adds_sendAggregate h r
      have hrest := ih (f.sendAggregate r).2 (hfirst.destination ▸ h)
      refine (hfirst.imp fun b hb => ⟨r, by simp, hb⟩).trans (hrest.imp ?_)
      rintro b ⟨r', hr', rfl⟩
      exact ⟨r', List.mem_cons_of_mem r hr', rfl⟩
  · exact Adds.refl f

theorem posted_flushOne {rollups : List Rollup} (h : f.destination.aggregates = true)
    {r : Rollup} (hr : r ∈ rollups) : (Dispatch.flushOne rollups f).Posted r := by
  induction rollups generalizing f with
  | nil => cases hr
  | cons r' rs ih =>
    have hfirst := adds_sendAggregate h r'
    have h' : (f.sendAggregate r').2.destination.aggregates = true := hfirst.destination ▸ h
    have hrest : Dispatch.flushOne (r' :: rs) f = Dispatch.flushOne rs (f.sendAggregate r').2 := by
      rw [Dispatch.flushOne, Dispatch.flushOne, if_pos h, if_pos h', List.foldl_cons]
    rw [hrest]
    rcases List.mem_cons.mp hr with rfl | hr
    · exact (adds_flushOne rs _).posted (posted_sendAggregate h r)
    · exact ih h' hr

/-- A flush whose posts are accepted adds all it sends to what the vendor counts. -/
theorem countAccepted_flushOne {rollups : List Rollup} (h : f.destination.aggregates = true)
    (hnext : AcceptsNext f.maxRetries f.transport.answers rollups.length f.transport.log.length) :
    countAccepted (Dispatch.flushOne rollups f).transport.log
      = countAccepted f.transport.log + total rollups := by
  induction rollups generalizing f with
  | nil => simp [Dispatch.flushOne, h, total]
  | cons r rs ih =>
    have hfirst := adds_sendAggregate h r
    have h' : (f.sendAggregate r).2.destination.aggregates = true := hfirst.destination ▸ h
    obtain ⟨k, hk, hretried, haccepts, hrest⟩ := hnext
    obtain ⟨p, stats, hbody, heq⟩ := sendAggregate_eq h r
    obtain ⟨hlen, hcount⟩ := attempt_accepted p hk f hretried haccepts
    have hlen' : (f.sendAggregate r).2.transport.log.length
        = f.transport.log.length + k + 1 := by
      rw [heq]
      exact hlen
    have hcount' : countAccepted (f.sendAggregate r).2.transport.log
        = countAccepted f.transport.log + r.count := by
      rw [heq]
      show countAccepted (attempt p f.maxRetries f).2.transport.log = _
      rw [hcount, hbody]
      rfl
    have hstep : Dispatch.flushOne (r :: rs) f = Dispatch.flushOne rs (f.sendAggregate r).2 := by
      rw [Dispatch.flushOne, Dispatch.flushOne, if_pos h, if_pos h', List.foldl_cons]
    rw [hstep, ih h' (by rw [hfirst.maxRetries, hfirst.answers, hlen']; exact hrest), hcount']
    simp only [total, List.map_cons, List.sum_cons]
    omega

end Forwarder

/-! ## The aggregator -/

/-- The service and the template an error has, where it has them. -/
def Recorded.origin (e : Recorded) : Option Text × Option ℕ :=
  (e.outbound.window.service, e.outbound.window.errorTemplateId)

/-- What `handle` records of an error. -/
def Aggregator.add (e : Recorded) (a : Aggregator) : Aggregator :=
  a.record (e.outbound.window.service.getD []) (e.outbound.window.errorTemplateId.getD 0)
    e.outbound.templateText e.outbound.window.error.body
    e.outbound.window.error.timestampUnixNano e

/-- The entry of an error in the aggregator's map. -/
def Rollup.Holds (r : Rollup) (e : Recorded) : Prop :=
  e.outbound.window.service.getD [] = r.service ∧
    e.outbound.window.errorTemplateId.getD 0 = r.templateId

open Forwarder (total)

theorem total_enter (new : Rollup) (ts : ℕ) (e : Recorded) (rs : List Rollup) :
    total (Aggregator.enter new ts e rs) = total rs + 1 ∨
      total (Aggregator.enter new ts e rs) = total rs + new.count + 1 := by
  induction rs with
  | nil => exact .inr (by simp [Aggregator.enter, total, Rollup.hit])
  | cons r rs ih =>
    rw [Aggregator.enter]
    split
    · refine .inl ?_
      simp only [total, Rollup.hit, List.map_cons, List.sum_cons]
      omega
    · simp only [total, List.map_cons, List.sum_cons] at ih ⊢
      omega

/-- One more error in the counts. -/
theorem total_add (e : Recorded) (a : Aggregator) :
    total (a.add e).rollups = total a.rollups + 1 := by
  rcases total_enter _ _ e a.rollups with h | h
  · exact h
  · exact h

theorem mem_enter {new : Rollup} {ts : ℕ} {e : Recorded} {rs : List Rollup} {r' : Rollup}
    (h : r' ∈ Aggregator.enter new ts e rs) :
    r' ∈ rs ∨ ∃ r, (r ∈ rs ∨ r = new) ∧ r.key = new.key ∧ r' = r.hit ts e := by
  induction rs with
  | nil => exact .inr ⟨new, .inr rfl, rfl, List.mem_singleton.mp h⟩
  | cons r rs ih =>
    rw [Aggregator.enter] at h
    split at h
    · next hkey =>
      rcases List.mem_cons.mp h with rfl | h
      · exact .inr ⟨r, .inl (by simp), hkey, rfl⟩
      · exact .inl (List.mem_cons_of_mem r h)
    · rcases List.mem_cons.mp h with rfl | h
      · exact .inl (by simp)
      · rcases ih h with h | ⟨r'', hr'', hkey, rfl⟩
        · exact .inl (List.mem_cons_of_mem r h)
        · exact .inr ⟨r'', hr''.imp_left (List.mem_cons_of_mem r), hkey, rfl⟩

/-- What is in the aggregator after an error: the rollups of before, and the one that has
the error as its last. -/
theorem mem_add {e : Recorded} {a : Aggregator} {r' : Rollup} (h : r' ∈ (a.add e).rollups) :
    r' ∈ a.rollups ∨ (r'.Holds e ∧ ∃ r, (r ∈ a.rollups ∨ r.errors = [] ∧ r.count = 0) ∧
      r'.service = r.service ∧ r'.templateId = r.templateId ∧ r'.count = r.count + 1 ∧
      r'.errors = r.errors ++ [e]) := by
  rcases mem_enter h with h | ⟨r, hr, hkey, rfl⟩
  · exact .inl h
  · have heq : (r.service, r.templateId) = (e.outbound.window.service.getD [],
        e.outbound.window.errorTemplateId.getD 0) := toLex_inj.mp hkey
    rw [Prod.mk.injEq] at heq
    refine .inr ⟨⟨heq.1.symm, heq.2.symm⟩, r, ?_, rfl, rfl, rfl, rfl⟩
    rcases hr with hr | rfl
    · exact .inl hr
    · exact .inr ⟨rfl, rfl⟩

/-- No error leaves the aggregator when one is added. -/
theorem exists_mem_add {e : Recorded} {a : Aggregator} {r : Rollup} (h : r ∈ a.rollups) :
    ∃ r' ∈ (a.add e).rollups, ∀ x ∈ r.errors, x ∈ r'.errors := by
  have henter : ∀ (new : Rollup) (ts : ℕ) (rs : List Rollup), r ∈ rs →
      ∃ r' ∈ Aggregator.enter new ts e rs, ∀ x ∈ r.errors, x ∈ r'.errors := by
    intro new ts rs hmem
    induction rs with
    | nil => cases hmem
    | cons r₀ rs ih =>
      rw [Aggregator.enter]
      rcases List.mem_cons.mp hmem with rfl | hmem
      · split
        · exact ⟨r.hit ts e, by simp, fun x hx => List.mem_append_left _ hx⟩
        · exact ⟨r, by simp, fun x hx => hx⟩
      · split
        · exact ⟨r, List.mem_cons_of_mem _ hmem, fun x hx => hx⟩
        · obtain ⟨r', hr', herrors⟩ := ih hmem
          exact ⟨r', List.mem_cons_of_mem _ hr', herrors⟩
  exact henter _ _ _ h

theorem exists_mem_of_add (e : Recorded) (a : Aggregator) :
    ∃ r ∈ (a.add e).rollups, e ∈ r.errors := by
  have henter : ∀ (new : Rollup) (ts : ℕ) (rs : List Rollup),
      ∃ r ∈ Aggregator.enter new ts e rs, e ∈ r.errors := by
    intro new ts rs
    induction rs with
    | nil => exact ⟨new.hit ts e, by simp [Aggregator.enter], by simp [Rollup.hit]⟩
    | cons r₀ rs ih =>
      rw [Aggregator.enter]
      split
      · exact ⟨r₀.hit ts e, by simp, by simp [Rollup.hit]⟩
      · obtain ⟨r, hr, he⟩ := ih
        exact ⟨r, List.mem_cons_of_mem _ hr, he⟩
  exact henter _ _ _

/-! ## One error to all destinations -/

section

variable {now : ℕ} {o : Outbound}

theorem adds_handleAll {fs : List Forwarder} {a : Aggregator} {stats : DispatchStats}
    {f' : Forwarder} (h : f' ∈ (Dispatch.handleAll now o fs a stats).1) :
    ∃ f ∈ fs, f.Adds Forwarder.isEvent f' := by
  induction fs generalizing a stats with
  | nil => cases h
  | cons f fs ih =>
    rw [Dispatch.handleAll] at h
    rcases List.mem_cons.mp h with rfl | h
    · refine ⟨f, by simp, ?_⟩
      unfold Dispatch.handleOne
      split
      · exact Forwarder.adds_sendEvent f _
      · split
        · exact Forwarder.Adds.refl f
        · exact Forwarder.adds_sendEvent f _
    · obtain ⟨f₀, hf₀, hadds⟩ := ih h
      exact ⟨f₀, List.mem_cons_of_mem f hf₀, hadds⟩

/-- An error without context is recorded once for every destination that aggregates. -/
theorem aggregator_handleAll (fs : List Forwarder) (a : Aggregator) (stats : DispatchStats) :
    (Dispatch.handleAll now o fs a stats).2.1
      = if o.hadContext then a
        else (Aggregator.add ⟨now, o⟩)^[fs.countP fun f => f.destination.aggregates] a := by
  induction fs generalizing a stats with
  | nil => simp [Dispatch.handleAll]
  | cons f fs ih =>
    rw [Dispatch.handleAll, ih, Dispatch.handleOne]
    by_cases hcontext : o.hadContext = true
    · simp [hcontext]
    · rw [Bool.not_eq_true] at hcontext
      by_cases hagg : f.destination.aggregates = true
      · rw [List.countP_cons_of_pos (p := fun f : Forwarder => f.destination.aggregates) hagg]
        simp only [hcontext, hagg, if_true, if_false, Bool.false_eq_true]
        rfl
      · rw [List.countP_cons_of_neg (p := fun f : Forwarder => f.destination.aggregates) hagg]
        simp only [hcontext, hagg, if_false, Bool.false_eq_true]

end

/-! ## Runs -/

/-- The calls of the forward thread, each some time after the one before. -/
inductive Op where
  | handle (after : ℕ) (o : Outbound)
  | flushIfDue (after : ℕ) (force : Bool)

structure State where
  dispatch : Dispatch
  clock : ℕ
  /-- The errors handled without context so far. -/
  handled : List Recorded

namespace State

/-- The destinations, each with what its vendor will answer. -/
def start (destinations : List (Destination × (ℕ → Answer))) (flushInterval : ℕ) : State :=
  ⟨.new (destinations.map fun d => .new d.1 ⟨d.2, []⟩) flushInterval, 0, []⟩

def step (s : State) : Op → State
  | .handle after o =>
    let now := s.clock + after
    ⟨s.dispatch.handle now o, now, if o.hadContext then s.handled else s.handled ++ [⟨now, o⟩]⟩
  | .flushIfDue after force =>
    let now := s.clock + after
    ⟨s.dispatch.flushIfDue now force, now, s.handled⟩

/-- The rollups that wait for a flush. -/
def waiting (s : State) : List Rollup := s.dispatch.aggregator.rollups

/-- A rollup that waits or has gone to a vendor. -/
def Known (s : State) (r : Rollup) : Prop :=
  r ∈ s.waiting ∨ ∃ f ∈ s.dispatch.forwarders, f.Posted r

/-- What a vendor that aggregates can be promised. -/
structure Visible (s : State) : Prop where
  conserved : ∀ f ∈ s.dispatch.forwarders, f.destination.aggregates = true →
    countAccepted f.transport.log + total s.waiting = s.handled.length
  separate : ∀ r, s.Known r → r.count = r.errors.length ∧
    ∀ e ∈ r.errors, ∀ e' ∈ r.errors, e.origin = e'.origin

/-- Every error handled an interval before `s'` is in an aggregate sent to each vendor that
aggregates. -/
def Sent (s s' : State) : Prop :=
  ∀ e ∈ s.handled, e.time + s.dispatch.flushInterval ≤ s'.clock →
    ∀ f ∈ s'.dispatch.forwarders, f.destination.aggregates = true →
      ∃ r, f.Posted r ∧ e ∈ r.errors

/-- The steps at which nothing goes out of sight. An error without context: at most one
destination aggregates, and no error waits that is filed under the same service and template
but has none where this one has one. A flush: all its posts are accepted, and the first one
is forced unless no error has waited for an interval. -/
def Fair (s : State) : Op → Prop
  | .handle _ o => o.hadContext = true ∨
      (s.dispatch.forwarders.countP fun f => f.destination.aggregates) ≤ 1 ∧
      ∀ r ∈ s.waiting, ∀ e ∈ r.errors,
        e.outbound.window.service.getD [] = o.window.service.getD [] →
        e.outbound.window.errorTemplateId.getD 0 = o.window.errorTemplateId.getD 0 →
        e.outbound.window.service = o.window.service ∧
          e.outbound.window.errorTemplateId = o.window.errorTemplateId
  | .flushIfDue after force =>
      (s.dispatch.due (s.clock + after) force = true →
        ∀ f ∈ s.dispatch.forwarders, f.destination.aggregates = true →
          Forwarder.AcceptsNext f.maxRetries f.transport.answers s.waiting.length
            f.transport.log.length) ∧
      (force = false → s.dispatch.lastFlush = none →
        ∀ r ∈ s.waiting, ∀ e ∈ r.errors,
          s.clock + after < e.time + s.dispatch.flushInterval)

/-- What every run keeps: where the errors handled are, and when they were recorded. -/
structure Tracks (s : State) : Prop where
  holds : ∀ r ∈ s.waiting, ∀ e ∈ r.errors, r.Holds e
  handled : ∀ r, s.Known r → ∀ e ∈ r.errors, e ∈ s.handled
  offered : ∀ f ∈ s.dispatch.forwarders, f.destination.aggregates = true → ∀ e ∈ s.handled,
    (∃ r ∈ s.waiting, e ∈ r.errors) ∨ ∃ r, f.Posted r ∧ e ∈ r.errors
  flushed : ∀ last, s.dispatch.lastFlush = some last →
    last ≤ s.clock ∧ ∀ r ∈ s.waiting, ∀ e ∈ r.errors, last ≤ e.time

section

variable {s : State}

/-- A flush that is not due does nothing; one that is sends what waits, in the order of the
map. -/
theorem step_flushIfDue (s : State) (after : ℕ) (force : Bool) :
    let s' := s.step (.flushIfDue after force)
    (s.dispatch.due (s.clock + after) force = false ∧ s'.dispatch = s.dispatch) ∨
    (s.dispatch.due (s.clock + after) force = true ∧
      s'.dispatch.lastFlush = some (s.clock + after) ∧ s'.waiting = [] ∧
      ∃ rollups, rollups.Perm s.waiting ∧
        s'.dispatch.forwarders = s.dispatch.forwarders.map (Dispatch.flushOne rollups)) := by
  intro s'
  have hs' : s'.dispatch = s.dispatch.flushIfDue (s.clock + after) force := rfl
  have hwaiting : s'.waiting = (s.dispatch.flushIfDue (s.clock + after) force).aggregator.rollups :=
    rfl
  rw [hs', hwaiting]
  unfold Dispatch.flushIfDue
  by_cases hdue : s.dispatch.due (s.clock + after) force = true
  · rw [if_pos hdue]
    refine .inr ⟨hdue, ?_⟩
    by_cases hempty : s.dispatch.aggregator.rollups.isEmpty = true
    · simp only [hempty, if_true]
      have hnil : s.waiting = [] := List.isEmpty_iff.mp hempty
      have hid : Dispatch.flushOne [] = id := by
        funext f
        unfold Dispatch.flushOne
        split <;> rfl
      refine ⟨trivial, hnil, [], ?_, ?_⟩
      · rw [hnil]
      · rw [hid, List.map_id]
    · simp only [if_neg hempty]
      exact ⟨trivial, rfl, _, List.perm_insertionSort _ _, rfl⟩
  · rw [if_neg hdue]
    exact .inl ⟨Bool.not_eq_true _ ▸ hdue, rfl⟩

theorem waiting_handle (s : State) (after : ℕ) (o : Outbound) :
    (s.step (.handle after o)).dispatch.aggregator
      = if o.hadContext then s.dispatch.aggregator
        else (Aggregator.add ⟨s.clock + after, o⟩)^[s.dispatch.forwarders.countP
          fun f => f.destination.aggregates] s.dispatch.aggregator :=
  aggregator_handleAll _ _ _

theorem forwarders_handle {after : ℕ} {o : Outbound} {f' : Forwarder}
    (h : f' ∈ (s.step (.handle after o)).dispatch.forwarders) :
    ∃ f ∈ s.dispatch.forwarders, f.Adds Forwarder.isEvent f' := adds_handleAll h

theorem posted_of_isEvent {f f' : Forwarder} (h : f.Adds Forwarder.isEvent f') {r : Rollup} :
    f'.Posted r ↔ f.Posted r :=
  ⟨fun hr => (h.posted_of hr).resolve_right id, h.posted⟩

/-- Adding an error several times, from a property that one time keeps. -/
theorem iterate_add {P : Aggregator → Prop} {e : Recorded} (hstep : ∀ a, P a → P (a.add e))
    {a : Aggregator} (h : P a) (n : ℕ) : P ((Aggregator.add e)^[n] a) := by
  induction n generalizing a with
  | zero => exact h
  | succ n ih => exact ih (hstep a h)

theorem Tracks.handle (h : s.Tracks) (after : ℕ) (o : Outbound) :
    (s.step (.handle after o)).Tracks := by
  set s' := s.step (.handle after o) with hs'
  set e₀ : Recorded := ⟨s.clock + after, o⟩ with he₀
  have hlast : s'.dispatch.lastFlush = s.dispatch.lastFlush := rfl
  by_cases hcontext : o.hadContext = true
  · have hwaiting : s'.waiting = s.waiting := by
      show s'.dispatch.aggregator.rollups = _
      rw [hs', waiting_handle, if_pos hcontext]
      rfl
    have hhandled : s'.handled = s.handled := if_pos hcontext
    refine ⟨?_, ?_, ?_, ?_⟩
    · rw [hwaiting]
      exact h.holds
    · rw [hhandled]
      rintro r (hr | ⟨f', hf', hr⟩)
      · exact h.handled r (.inl (hwaiting ▸ hr))
      · obtain ⟨f, hf, hadds⟩ := forwarders_handle hf'
        exact h.handled r (.inr ⟨f, hf, (posted_of_isEvent hadds).mp hr⟩)
    · rw [hwaiting, hhandled]
      intro f' hf' hagg e he
      obtain ⟨f, hf, hadds⟩ := forwarders_handle hf'
      simp only [posted_of_isEvent hadds]
      exact h.offered f hf (hadds.destination ▸ hagg) e he
    · rw [hwaiting, hlast]
      intro last hl
      exact ⟨(h.flushed last hl).1.trans (Nat.le_add_right _ _), (h.flushed last hl).2⟩
  · have hhandled : s'.handled = s.handled ++ [e₀] := if_neg hcontext
    have hwaiting : s'.waiting = ((Aggregator.add e₀)^[s.dispatch.forwarders.countP
        fun f => f.destination.aggregates] s.dispatch.aggregator).rollups := by
      show s'.dispatch.aggregator.rollups = _
      rw [hs', waiting_handle, if_neg hcontext]
    -- a rollup of the aggregator holds what it held, and perhaps the new error
    have hrollups : ∀ r ∈ s'.waiting, ∀ e ∈ r.errors,
        r.Holds e ∧ (e = e₀ ∨ ∃ r₀ ∈ s.waiting, e ∈ r₀.errors) := by
      rw [hwaiting]
      refine iterate_add (P := fun a => ∀ r ∈ a.rollups, ∀ e ∈ r.errors,
        r.Holds e ∧ (e = e₀ ∨ ∃ r₀ ∈ s.waiting, e ∈ r₀.errors)) ?_ ?_ _
      · intro a ha r hr e he
        rcases mem_add hr with hr | ⟨hholds, r₀, hr₀, hservice, htemplate, -, herrors⟩
        · exact ha r hr e he
        · rw [herrors] at he
          rcases List.mem_append.mp he with he | he
          · rcases hr₀ with hr₀ | ⟨hnil, -⟩
            · obtain ⟨hholds₀, hwhere⟩ := ha r₀ hr₀ e he
              refine ⟨?_, hwhere⟩
              rw [Rollup.Holds, hservice, htemplate]
              exact hholds₀
            · rw [hnil] at he
              cases he
          · obtain rfl := List.mem_singleton.mp he
            exact ⟨hholds, .inl rfl⟩
      · intro r hr e he
        exact ⟨h.holds r hr e he, .inr ⟨r, hr, he⟩⟩
    refine ⟨fun r hr e he => (hrollups r hr e he).1, ?_, ?_, ?_⟩
    · rw [hhandled]
      rintro r (hr | ⟨f', hf', hr⟩) e he
      · rcases (hrollups r hr e he).2 with rfl | ⟨r₀, hr₀, he₀⟩
        · simp
        · exact List.mem_append_left _ (h.handled r₀ (.inl hr₀) e he₀)
      · obtain ⟨f, hf, hadds⟩ := forwarders_handle hf'
        exact List.mem_append_left _
          (h.handled r (.inr ⟨f, hf, (posted_of_isEvent hadds).mp hr⟩) e he)
    · intro f' hf' hagg e he
      obtain ⟨f, hf, hadds⟩ := forwarders_handle hf'
      have hf_agg : f.destination.aggregates = true := hadds.destination ▸ hagg
      have hkept : (∃ r ∈ s.waiting, e ∈ r.errors) → ∃ r ∈ s'.waiting, e ∈ r.errors := by
        rw [hwaiting]
        refine iterate_add (P := fun a => (∃ r ∈ s.waiting, e ∈ r.errors) →
          ∃ r ∈ a.rollups, e ∈ r.errors) ?_ id _
        intro a ha hex
        obtain ⟨r, hr, her⟩ := ha hex
        obtain ⟨r', hr', herrors⟩ := exists_mem_add hr
        exact ⟨r', hr', herrors e her⟩
      rw [hhandled] at he
      rcases List.mem_append.mp he with he | he
      · rcases h.offered f hf hf_agg e he with hex | ⟨r, hr, her⟩
        · exact .inl (hkept hex)
        · exact .inr ⟨r, (posted_of_isEvent hadds).mpr hr, her⟩
      · obtain rfl := List.mem_singleton.mp he
        have hpos : 0 < s.dispatch.forwarders.countP fun f => f.destination.aggregates :=
          List.countP_pos_iff.mpr ⟨f, hf, hf_agg⟩
        obtain ⟨n, hn⟩ : ∃ n, (s.dispatch.forwarders.countP fun f => f.destination.aggregates)
            = n + 1 := ⟨_, (Nat.succ_pred_eq_of_pos hpos).symm⟩
        rw [hwaiting, hn, Function.iterate_succ_apply']
        exact .inl (exists_mem_of_add _ _)
    · rw [hlast]
      intro last hl
      obtain ⟨hle, hlater⟩ := h.flushed last hl
      refine ⟨hle.trans (Nat.le_add_right _ _), fun r hr e he => ?_⟩
      rcases (hrollups r hr e he).2 with rfl | ⟨r₀, hr₀, he₀⟩
      · exact hle.trans (Nat.le_add_right _ _)
      · exact hlater r₀ hr₀ e he₀

theorem Tracks.flushIfDue (h : s.Tracks) (after : ℕ) (force : Bool) :
    (s.step (.flushIfDue after force)).Tracks := by
  set s' := s.step (.flushIfDue after force)
  have hhandled : s'.handled = s.handled := rfl
  have hclock : s.clock ≤ s'.clock := Nat.le_add_right _ _
  rcases step_flushIfDue s after force with ⟨-, hsame⟩ | ⟨-, hlast, hnil, rollups, hperm, hmap⟩
  · have hwaiting : s'.waiting = s.waiting := by rw [waiting, hsame, waiting]
    refine ⟨?_, ?_, ?_, ?_⟩
    · rw [hwaiting]
      exact h.holds
    · intro r hr
      rw [Known, hwaiting, hsame] at hr
      exact h.handled r hr
    · rw [hwaiting, hsame]
      exact h.offered
    · rw [hwaiting, hsame]
      exact fun last hl => ⟨(h.flushed last hl).1.trans hclock, (h.flushed last hl).2⟩
  · refine ⟨?_, ?_, ?_, ?_⟩
    · rw [hnil]
      simp
    · rintro r (hr | ⟨f', hf', hr⟩)
      · rw [hnil] at hr
        cases hr
      · rw [hmap] at hf'
        obtain ⟨f, hf, rfl⟩ := List.mem_map.mp hf'
        rcases (Forwarder.adds_flushOne rollups f).posted_of hr with hr | ⟨r', hr', heq⟩
        · exact h.handled r (.inr ⟨f, hf, hr⟩)
        · rw [Body.aggregate.injEq] at heq
          exact h.handled r (.inl (hperm.mem_iff.mp (heq ▸ hr')))
    · intro f' hf' hagg e he
      rw [hmap] at hf'
      obtain ⟨f, hf, rfl⟩ := List.mem_map.mp hf'
      have hadds := Forwarder.adds_flushOne rollups f
      have hf_agg : f.destination.aggregates = true := hadds.destination ▸ hagg
      rcases h.offered f hf hf_agg e he with ⟨r, hr, her⟩ | ⟨r, hr, her⟩
      · exact .inr ⟨r, Forwarder.posted_flushOne hf_agg (hperm.mem_iff.mpr hr), her⟩
      · exact .inr ⟨r, hadds.posted hr, her⟩
    · rw [hlast, hnil]
      intro last hl
      rw [Option.some.injEq] at hl
      exact ⟨hl ▸ le_rfl, by simp⟩

theorem Tracks.step (h : s.Tracks) (op : Op) : (s.step op).Tracks := by
  cases op with
  | handle after o => exact h.handle after o
  | flushIfDue after force => exact h.flushIfDue after force

theorem tracks_start (destinations : List (Destination × (ℕ → Answer))) (flushInterval : ℕ) :
    (start destinations flushInterval).Tracks := by
  refine ⟨by simp [start, waiting, Dispatch.new], ?_, by simp [start], by simp [start, Dispatch.new]⟩
  rintro r (hr | ⟨f, hf, e, he, -⟩)
  · cases hr
  · obtain ⟨d, -, rfl⟩ := List.mem_map.mp hf
    cases he

/-! ### What a fair step keeps -/

theorem Visible.handle (h : s.Visible) (ht : s.Tracks) {after : ℕ} {o : Outbound}
    (hfair : s.Fair (.handle after o)) : (s.step (.handle after o)).Visible := by
  set s' := s.step (.handle after o) with hs'
  have hposted : ∀ r, (∃ f ∈ s'.dispatch.forwarders, f.Posted r) → s.Known r := by
    rintro r ⟨f', hf', hr⟩
    obtain ⟨f, hf, hadds⟩ := forwarders_handle hf'
    exact .inr ⟨f, hf, (posted_of_isEvent hadds).mp hr⟩
  have haccepted : ∀ {f f' : Forwarder}, f.Adds Forwarder.isEvent f' →
      countAccepted f'.transport.log = countAccepted f.transport.log := by
    intro f f' hadds
    obtain ⟨more, hlog, hmore⟩ := hadds.log
    have hzero : countAccepted more = 0 := by
      refine List.sum_eq_zero ?_
      intro n hn
      obtain ⟨e, he, rfl⟩ := List.mem_map.mp hn
      have hevent := hmore e (List.mem_of_mem_filter he)
      cases hbody : e.1.body with
      | event w => rfl
      | aggregate r =>
        rw [hbody] at hevent
        cases hevent
    rw [hlog, countAccepted_append, hzero, Nat.add_zero]
  by_cases hcontext : o.hadContext = true
  · have hwaiting : s'.waiting = s.waiting := by
      show s'.dispatch.aggregator.rollups = _
      rw [hs', waiting_handle, if_pos hcontext]
      rfl
    have hhandled : s'.handled = s.handled := if_pos hcontext
    constructor
    · intro f' hf' hagg
      obtain ⟨f, hf, hadds⟩ := forwarders_handle hf'
      rw [hwaiting, hhandled, haccepted hadds]
      exact h.conserved f hf (hadds.destination ▸ hagg)
    · rintro r (hr | hr)
      · exact h.separate r (.inl (hwaiting ▸ hr))
      · exact h.separate r (hposted r hr)
  · obtain ⟨hone, hclash⟩ := hfair.resolve_left hcontext
    have hhandled : s'.handled = s.handled ++ [⟨s.clock + after, o⟩] := if_neg hcontext
    have hagg_eq := waiting_handle s after o
    rw [if_neg hcontext] at hagg_eq
    constructor
    · intro f' hf' hagg
      obtain ⟨f, hf, hadds⟩ := forwarders_handle hf'
      have hf_agg : f.destination.aggregates = true := hadds.destination ▸ hagg
      have hpos : 0 < s.dispatch.forwarders.countP fun f => f.destination.aggregates :=
        List.countP_pos_iff.mpr ⟨f, hf, hf_agg⟩
      have hcount : (s.dispatch.forwarders.countP fun f => f.destination.aggregates) = 1 := by
        omega
      rw [hcount, Function.iterate_one] at hagg_eq
      have hwaiting : total s'.waiting = total s.waiting + 1 := by
        rw [waiting, hagg_eq, total_add]
        rfl
      have hconserved := h.conserved f hf hf_agg
      rw [hwaiting, hhandled, haccepted hadds, List.length_append, List.length_singleton]
      omega
    · rintro r (hr | hr)
      · -- with one destination the error is added once, to errors of its own kind
        rw [waiting, hagg_eq] at hr
        have hcases : r ∈ s.waiting ∨ r ∈ ((s.dispatch.aggregator).add
            ⟨s.clock + after, o⟩).rollups := by
          interval_cases hn : s.dispatch.forwarders.countP fun f => f.destination.aggregates
          · exact .inl hr
          · exact .inr hr
        rcases hcases with hr | hr
        · exact h.separate r (.inl hr)
        · rcases mem_add hr with hr | ⟨hholds, r₀, hr₀, hservice, htemplate, hcount, herrors⟩
          · exact h.separate r (.inl hr)
          · rcases hr₀ with hr₀ | ⟨hnil, hzero⟩
            · obtain ⟨hlen, hsame⟩ := h.separate r₀ (.inl hr₀)
              have hnew : ∀ e ∈ r₀.errors, e.origin = Recorded.origin ⟨s.clock + after, o⟩ := by
                intro e he
                obtain ⟨hs₀, ht₀⟩ := ht.holds r₀ hr₀ e he
                obtain ⟨heq, heq'⟩ := hclash r₀ hr₀ e he
                  (hs₀.trans (hservice ▸ hholds.1.symm)) (ht₀.trans (htemplate ▸ hholds.2.symm))
                exact Prod.ext heq heq'
              refine ⟨by rw [hcount, herrors, hlen, List.length_append, List.length_singleton], ?_⟩
              have hall : ∀ e ∈ r.errors, e.origin = Recorded.origin ⟨s.clock + after, o⟩ := by
                intro e he
                rw [herrors] at he
                rcases List.mem_append.mp he with he | he
                · exact hnew e he
                · rw [List.mem_singleton.mp he]
              exact fun e he e' he' => (hall e he).trans (hall e' he').symm
            · rw [hnil, List.nil_append] at herrors
              rw [hcount, hzero, herrors]
              simp
      · exact h.separate r (hposted r hr)

theorem Visible.flushIfDue (h : s.Visible) {after : ℕ} {force : Bool}
    (hfair : s.Fair (.flushIfDue after force)) : (s.step (.flushIfDue after force)).Visible := by
  set s' := s.step (.flushIfDue after force)
  have hhandled : s'.handled = s.handled := rfl
  rcases step_flushIfDue s after force with ⟨-, hsame⟩ | ⟨hdue, -, hnil, rollups, hperm, hmap⟩
  · have hwaiting : s'.waiting = s.waiting := by rw [waiting, hsame, waiting]
    constructor
    · rw [hwaiting, hsame, hhandled]
      exact h.conserved
    · intro r hr
      rw [Known, hwaiting, hsame] at hr
      exact h.separate r hr
  · constructor
    · intro f' hf' hagg
      rw [hmap] at hf'
      obtain ⟨f, hf, rfl⟩ := List.mem_map.mp hf'
      have hf_agg : f.destination.aggregates = true :=
        (Forwarder.adds_flushOne rollups f).destination ▸ hagg
      have hnext := hfair.1 hdue f hf hf_agg
      rw [← hperm.length_eq] at hnext
      have htotal : total rollups = total s.waiting := (hperm.map Rollup.count).sum_eq
      rw [Forwarder.countAccepted_flushOne hf_agg hnext, hnil, htotal, hhandled]
      exact h.conserved f hf hf_agg
    · rintro r (hr | ⟨f', hf', hr⟩)
      · rw [hnil] at hr
        cases hr
      · rw [hmap] at hf'
        obtain ⟨f, hf, rfl⟩ := List.mem_map.mp hf'
        rcases (Forwarder.adds_flushOne rollups f).posted_of hr with hr | ⟨r', hr', heq⟩
        · exact h.separate r (.inr ⟨f, hf, hr⟩)
        · rw [Body.aggregate.injEq] at heq
          exact h.separate r (.inl (hperm.mem_iff.mp (heq ▸ hr')))

theorem Visible.step (h : s.Visible) (ht : s.Tracks) {op : Op} (hfair : s.Fair op) :
    (s.step op).Visible := by
  cases op with
  | handle after o => exact h.handle ht hfair
  | flushIfDue after force => exact h.flushIfDue hfair

theorem visible_start (destinations : List (Destination × (ℕ → Answer))) (flushInterval : ℕ) :
    (start destinations flushInterval).Visible := by
  constructor
  · intro f hf _
    obtain ⟨d, -, rfl⟩ := List.mem_map.mp hf
    rfl
  · rintro r (hr | ⟨f, hf, e, he, -⟩)
    · cases hr
    · obtain ⟨d, -, rfl⟩ := List.mem_map.mp hf
      cases he

/-- A call that is not forced sends every error recorded an interval before. -/
theorem Tracks.sent (h : s.Tracks) {after : ℕ} (hfair : s.Fair (.flushIfDue after false)) :
    Sent s (s.step (.flushIfDue after false)) := by
  intro e he htime f' hf' hagg
  have hclock : (s.step (.flushIfDue after false)).clock = s.clock + after := rfl
  rw [hclock] at htime
  rcases step_flushIfDue s after false with ⟨hdue, hsame⟩ | ⟨-, -, hnil, rollups, hperm, hmap⟩
  · rw [hsame] at hf'
    refine (h.offered f' hf' hagg e he).resolve_left ?_
    rintro ⟨r, hr, her⟩
    cases hlast : s.dispatch.lastFlush with
    | none =>
      have hlt := hfair.2 rfl hlast r hr e her
      omega
    | some last =>
      -- the last flush came before the error, so an interval has passed since
      have hle := (h.flushed last hlast).2 r hr e her
      simp only [Dispatch.due, hlast, Bool.false_or, decide_eq_false_iff_not] at hdue
      omega
  · have hoffered := (h.flushIfDue after false).offered f' hf' hagg e he
    rw [hnil] at hoffered
    simpa using hoffered

end

end State

open State in
/-- In every run whose steps are fair, collapsing stays visible: what a vendor has accepted
and what waits for it are the errors handled, an aggregate stands for errors of one service
and one template, and a flush that is not forced sends what is an interval old. -/
theorem collapse_visible (destinations : List (Destination × (ℕ → Answer))) (flushInterval : ℕ)
    (ops : List Op) (h : Runs.Meets State.step Fair (start destinations flushInterval) ops) :
    Visible (Runs.run State.step (start destinations flushInterval) ops) ∧
      ∀ before after rest, ops = before ++ .flushIfDue after false :: rest →
        Sent (Runs.run State.step (start destinations flushInterval) before)
          (Runs.run State.step (start destinations flushInterval)
            (before ++ [.flushIfDue after false])) := by
  have htracks : ∀ ops, Tracks (Runs.run State.step (start destinations flushInterval) ops) :=
    fun ops => Runs.run_invariant (fun _ op ht => ht.step op) (tracks_start _ _) ops
  constructor
  · have hboth : ∀ s op, (Visible s ∧ Tracks s) → Fair s op →
        (Visible (s.step op) ∧ Tracks (s.step op)) :=
      fun s op hs hfair => ⟨hs.1.step hs.2 hfair, hs.2.step op⟩
    exact (h.invariant hboth ⟨visible_start _ _, tracks_start _ _⟩).1
  · rintro before after rest rfl
    rw [Runs.run_concat]
    exact (htracks before).sent h.append_right.1

/-! ## Examples -/

def exampleError (service : Option Text) : Outbound where
  window := ⟨⟨5, "payment timeout".toList⟩, [], some 7, service⟩
  hadContext := false
  templateText := "payment <*>".toList

def exampleVendor (status : ℕ) : Destination × (ℕ → Answer) :=
  (.splunkHec "https://splunk:8088".toList "token".toList true, fun _ => .ok status)

theorem acceptsNext_of_accepts {answers : ℕ → Answer} (h : ∀ i, (answers i).accepts = true)
    (retries n i : ℕ) : Forwarder.AcceptsNext retries answers n i := by
  induction n generalizing i with
  | zero => trivial
  | succ n ih => exact ⟨0, Nat.zero_le _, fun j hj => absurd hj (Nat.not_lt_zero j), h _, ih _⟩

def exampleOps : List Op :=
  [.flushIfDue 0 true, .handle 1 (exampleError (some "api".toList)), .flushIfDue 60 false]

open State in
theorem collapse_visible_example :
    Runs.Meets State.step Fair (start [exampleVendor 200] 60) exampleOps ∧
      Visible (Runs.run State.step (start [exampleVendor 200] 60) exampleOps) := by
  have hfair : Runs.Meets State.step Fair (start [exampleVendor 200] 60) exampleOps := by
    have hvendor : ∀ {n i : ℕ}, Forwarder.AcceptsNext 2 (exampleVendor 200).2 n i :=
      acceptsNext_of_accepts (fun _ => rfl) 2 _ _
    refine ⟨⟨fun _ f hf _ => ?_, by simp⟩, .inr ⟨by decide +kernel, by decide +kernel⟩,
      ⟨fun _ f hf _ => ?_, fun _ hlast => by cases hlast⟩, trivial⟩
    · obtain rfl := List.mem_singleton.mp hf
      exact hvendor
    · obtain rfl := List.mem_singleton.mp hf
      exact hvendor
  exact ⟨hfair, (collapse_visible [exampleVendor 200] 60 exampleOps hfair).1⟩

open State in
/-- An aggregate that is refused is gone; two destinations count an error twice; an error
without a service is counted with those of the empty one; and before the first forced flush
nothing is sent. -/
theorem collapsed_errors_vanish :
    ¬ Visible (Runs.run State.step (start [exampleVendor 400] 60)
        [.handle 0 (exampleError (some "api".toList)), .flushIfDue 0 true]) ∧
      ¬ Visible (Runs.run State.step (start [exampleVendor 200, exampleVendor 200] 60)
        [.handle 0 (exampleError (some "api".toList))]) ∧
      ¬ Visible (Runs.run State.step (start [exampleVendor 200] 60)
        [.handle 0 (exampleError none), .handle 0 (exampleError (some []))]) ∧
      ¬ Sent (Runs.run State.step (start [exampleVendor 200] 60)
          [.handle 0 (exampleError (some "api".toList))])
        (Runs.run State.step (start [exampleVendor 200] 60)
          [.handle 0 (exampleError (some "api".toList)), .flushIfDue 60 false]) := by
  refine ⟨fun h => ?_, fun h => ?_, fun h => ?_, fun h => ?_⟩
  · exact absurd (h.conserved _ List.mem_cons_self rfl) (by decide +kernel)
  · exact absurd (h.conserved _ List.mem_cons_self rfl) (by decide +kernel)
  · exact absurd ((h.separate _ (.inl List.mem_cons_self)).2 _ List.mem_cons_self _
      (List.mem_cons_of_mem _ List.mem_cons_self)) (by decide +kernel)
  · obtain ⟨r, ⟨e, he, -⟩, -⟩ := h _ List.mem_cons_self (by decide +kernel) _ List.mem_cons_self rfl
    cases he

end LogLess.Forward
