import LogLess.Sync.Watch

/-!
# What is reported as new

A pair of a service and a template, and two templates that follow each other in a trace, are
remembered when they are first seen. A set that is full remembers nothing more, and what it does not
remember is reported whenever it is seen. What is reported while there is room is reported once.
-/

namespace LogLess.SyncSignals

open Assoc (get)

variable {ν : Type}

/-- It says that the pair is new. -/
def Finding.presents (key : Key) (f : Finding ν) : Bool :=
  match f.kind with
  | .newPair template => f.service = key.1 ∧ template = key.2
  | _ => false

/-- It says that one template follows another for the first time. -/
def Finding.follows (bigram : Option Text × ℕ × ℕ) (f : Finding ν) : Bool :=
  match f.kind with
  | .flow prev template => f.service = bigram.1 ∧ prev = bigram.2.1 ∧ template = bigram.2.2
  | _ => false

theorem not_presents {f : Finding ν} (h : f.kind.aspect ≠ .novelty) (key : Key) :
    f.presents key = false := by
  rw [Finding.presents]
  split
  · next hkind =>
    rw [hkind] at h
    exact absurd rfl h
  · rfl

theorem not_follows {f : Finding ν} (h : f.kind.aspect ≠ .novelty)
    (bigram : Option Text × ℕ × ℕ) : f.follows bigram = false := by
  rw [Finding.follows]
  split
  · next hkind =>
    rw [hkind] at h
    exact absurd rfl h
  · rfl

/-! ## One record -/

/-- What is not reported, or is remembered then. -/
def Remembers {κ : Type} (nowMs learnUntilMs : ℕ) (firstEver : Bool) (set : List κ) (k : κ) :
    Prop :=
  k ∈ set ∨ set.length < maxSet ∨ firstEver = true ∨ nowMs < learnUntilMs

instance {κ : Type} [DecidableEq κ] (nowMs learnUntilMs : ℕ) (firstEver : Bool) (set : List κ)
    (k : κ) : Decidable (Remembers nowMs learnUntilMs firstEver set k) :=
  inferInstanceAs (Decidable (_ ∨ _ ∨ _ ∨ _))

/-- What is said of a key is said once, when the set does not have it, and then the set has it. -/
structure Introduces {κ : Type} (mark : Finding ν → Bool) (k : κ) (set after : List κ)
    (found : List (Finding ν)) : Prop where
  keeps : k ∈ set → k ∈ after
  le : found.countP mark ≤ 1
  fresh : 0 < found.countP mark → k ∉ set ∧ k ∈ after

namespace Introduces

variable {κ : Type} {mark : Finding ν → Bool} {k : κ} {set after : List κ}
  {found : List (Finding ν)}

theorem of_quiet (h : found.countP mark = 0) : Introduces mark k set set found where
  keeps := id
  le := by omega
  fresh := by omega

/-- Findings of other kinds say nothing of the key. -/
theorem append_quiet (h : Introduces mark k set after found) {rest : List (Finding ν)}
    (hrest : rest.countP mark = 0) : Introduces mark k set after (found ++ rest) := by
  have hcount : (found ++ rest).countP mark = found.countP mark := by
    rw [List.countP_append, hrest, Nat.add_zero]
  refine ⟨h.keeps, ?_, ?_⟩
  · rw [hcount]
    exact h.le
  · rw [hcount]
    exact h.fresh

theorem quiet_append (h : Introduces mark k set after found) {rest : List (Finding ν)}
    (hrest : rest.countP mark = 0) : Introduces mark k set after (rest ++ found) := by
  have hcount : (rest ++ found).countP mark = found.countP mark := by
    rw [List.countP_append, hrest, Nat.zero_add]
  refine ⟨h.keeps, ?_, ?_⟩
  · rw [hcount]
    exact h.le
  · rw [hcount]
    exact h.fresh

end Introduces

namespace Signals

theorem introduces_report {κ : Type} {mark : Finding ν → Bool} {key k : κ} {set : List κ}
    {nowMs learnUntilMs : ℕ} {firstEver : Bool} {service : Option Text} {kind : Kind ν}
    (hnot : key ∉ set) (h : Remembers nowMs learnUntilMs firstEver set key)
    (hmark : mark ⟨service, kind, true⟩ = true → key = k) :
    Introduces mark k set (remember set key)
      (report nowMs learnUntilMs firstEver service kind) := by
  have hkeeps : k ∈ set → k ∈ remember set key := by
    intro hk
    rw [remember]
    split
    · exact List.mem_append_left _ hk
    · exact hk
  rw [report]
  split
  · next hreport =>
    refine ⟨hkeeps, List.countP_le_length, fun hpos => ?_⟩
    obtain ⟨f, hf, hm⟩ := List.countP_pos_iff.1 hpos
    rw [List.mem_singleton.1 hf] at hm
    rw [← hmark hm]
    refine ⟨hnot, ?_⟩
    have hroom : set.length < maxSet := by
      rcases h with h | h | h | h
      · exact absurd h hnot
      · exact h
      · rw [h] at hreport
        cases hreport.1
      · omega
    rw [remember, if_pos hroom]
    exact List.mem_append_right _ List.mem_cons_self
  · exact ⟨hkeeps, Nat.zero_le 1, fun hpos => absurd hpos (Nat.lt_irrefl 0)⟩

variable (s : Signals ν)

theorem introduces_observePair {nowMs : ℕ} {key : Key} {firstEver : Bool}
    (h : Remembers nowMs s.pairsLearnUntilMs firstEver s.pairs key) (k : Key) :
    Introduces (Finding.presents k) k s.pairs (s.observePair nowMs key firstEver).1.pairs
      (s.observePair nowMs key firstEver).2 := by
  rw [observePair]
  split
  · exact .of_quiet rfl
  · next hnot =>
    refine introduces_report hnot h fun hm => ?_
    have hkey := of_decide_eq_true hm
    exact Prod.ext hkey.1 hkey.2

theorem introduces_observeFlow {nowMs : ℕ} {key : Key} {prev : Option ℕ} {firstEver : Bool}
    (h : ∀ p ∈ prev, Remembers nowMs s.bigramsLearnUntilMs firstEver s.bigrams (key.1, p, key.2))
    (k : Option Text × ℕ × ℕ) :
    Introduces (Finding.follows k) k s.bigrams
      (s.observeFlow nowMs key prev firstEver).1.bigrams
      (s.observeFlow nowMs key prev firstEver).2 := by
  cases prev with
  | none => exact .of_quiet rfl
  | some prev =>
    rw [observeFlow]
    split
    · exact .of_quiet rfl
    · next hnot =>
      refine introduces_report hnot (h prev rfl) fun hm => ?_
      obtain ⟨hservice, hprev, htemplate⟩ := of_decide_eq_true hm
      exact Prod.ext hservice (Prod.ext hprev htemplate)

/-- A set that is full stays as it is, and what it does not have is reported. -/
theorem observePair_full (hfull : maxSet ≤ s.pairs.length) {k : Key} (hnot : k ∉ s.pairs)
    (nowMs : ℕ) (key : Key) (firstEver : Bool) :
    (s.observePair nowMs key firstEver).1.pairs = s.pairs ∧
      (s.observePair nowMs key firstEver).2.countP (Finding.presents k)
        = if key = k ∧ firstEver = false ∧ s.pairsLearnUntilMs ≤ nowMs then 1 else 0 := by
  rw [observePair]
  split
  · next hmem =>
    refine ⟨rfl, (if_neg fun h => hnot ?_).symm⟩
    rw [← h.1]
    exact hmem
  · constructor
    · exact if_neg (Nat.not_lt.2 hfull)
    · show (report _ _ _ _ _).countP _ = _
      rw [report]
      simp only [Bool.not_eq_true']
      by_cases hkey : key = k
      · subst hkey
        by_cases hreport : firstEver = false ∧ s.pairsLearnUntilMs ≤ nowMs
        · rw [if_pos hreport, if_pos ⟨rfl, hreport⟩, List.countP_cons_of_pos, List.countP_nil]
          exact decide_eq_true ⟨rfl, rfl⟩
        · rw [if_neg hreport, if_neg fun h => hreport h.2, List.countP_nil]
      · have hnone : (if key = k ∧ firstEver = false ∧ s.pairsLearnUntilMs ≤ nowMs then 1 else 0)
            = 0 := if_neg fun h => hkey h.1
        rw [hnone, List.countP_eq_zero]
        intro f hf hm
        split at hf
        · rw [List.mem_singleton.1 hf] at hm
          have hfields := of_decide_eq_true hm
          exact hkey (Prod.ext hfields.1 hfields.2)
        · cases hf

theorem presents_observeFlow (nowMs : ℕ) (key : Key) (prev : Option ℕ) (firstEver : Bool)
    (k : Key) : (s.observeFlow nowMs key prev firstEver).2.countP (Finding.presents k) = 0 := by
  cases prev with
  | none => rfl
  | some prev =>
    rw [observeFlow]
    split
    · rfl
    · show (report _ _ _ _ _).countP _ = 0
      rw [report]
      split
      · rfl
      · rfl

theorem follows_observePair (nowMs : ℕ) (key : Key) (firstEver : Bool)
    (k : Option Text × ℕ × ℕ) :
    (s.observePair nowMs key firstEver).2.countP (Finding.follows k) = 0 := by
  rw [observePair]
  split
  · rfl
  · show (report _ _ _ _ _).countP _ = 0
    rw [report]
    split
    · rfl
    · rfl

/-- There is room for the pair of a record, and for the templates that follow each other. -/
def Roomy (nowMs : ℕ) (record : LogRecord) (firstEver : Bool) : Prop :=
  ∀ template ∈ record.templateId,
    Remembers nowMs s.pairsLearnUntilMs firstEver s.pairs (record.service, template) ∧
      ∀ trace ∈ record.traceId, ∀ prev ∈ s.previous trace template,
        Remembers nowMs s.bigramsLearnUntilMs firstEver s.bigrams (record.service, prev, template)

instance (nowMs : ℕ) (record : LogRecord) (firstEver : Bool) :
    Decidable (s.Roomy nowMs record firstEver) :=
  inferInstanceAs (Decidable (∀ template ∈ record.templateId, _ ∧ ∀ trace ∈ record.traceId,
    ∀ prev ∈ s.previous trace template, _))

variable [Arith ν]

theorem introduces_pair {nowMs : ℕ} {record : LogRecord} {firstEver : Bool}
    (h : s.Roomy nowMs record firstEver) (k : Key) :
    Introduces (Finding.presents k) k s.pairs (s.observe nowMs record firstEver).1.pairs
      (s.observe nowMs record firstEver).2 := by
  obtain ⟨bucket, ⟨-, heq⟩ | ⟨template, pairs, found, htemplate, hpair, hrest⟩⟩ :=
    s.observe_cases nowMs record firstEver
  · rw [heq]
    exact .of_quiet rfl
  · have hintro := introduces_observePair { s with bucket := bucket } (h template htemplate).1 k
    rw [hpair] at hintro
    rcases hrest with ⟨-, heq⟩ | ⟨trace, traces, order, -, heq⟩
    · rw [heq]
      exact hintro
    · have hquiet := presents_observeFlow { s with
        bucket := bucket, pairs := pairs, traces := traces, traceOrder := order } nowMs
        (record.service, template) (s.previous trace template) firstEver k
      obtain ⟨bigrams, hflow⟩ := observeFlow_frame { s with
        bucket := bucket, pairs := pairs, traces := traces, traceOrder := order } nowMs
        (record.service, template) (s.previous trace template) firstEver
      rw [heq, hflow]
      exact hintro.append_quiet hquiet

theorem introduces_flow {nowMs : ℕ} {record : LogRecord} {firstEver : Bool}
    (h : s.Roomy nowMs record firstEver) (k : Option Text × ℕ × ℕ) :
    Introduces (Finding.follows k) k s.bigrams (s.observe nowMs record firstEver).1.bigrams
      (s.observe nowMs record firstEver).2 := by
  obtain ⟨bucket, ⟨-, heq⟩ | ⟨template, pairs, found, htemplate, hpair, hrest⟩⟩ :=
    s.observe_cases nowMs record firstEver
  · rw [heq]
    exact .of_quiet rfl
  · have hquiet := follows_observePair { s with bucket := bucket } nowMs
      (record.service, template) firstEver k
    rw [hpair] at hquiet
    rcases hrest with ⟨-, heq⟩ | ⟨trace, traces, order, htrace, heq⟩
    · rw [heq]
      exact .of_quiet hquiet
    · rw [heq]
      exact (introduces_observeFlow { s with
        bucket := bucket, pairs := pairs, traces := traces, traceOrder := order }
        ((h template htemplate).2 trace htrace) k).quiet_append hquiet

end Signals

/-! ## Runs -/

namespace Watch

/-- No gap is long enough to start again. -/
def Steady (w : Watch ν) : Op ν → Prop
  | .observe .. => True
  | .close nowMs _ => w.signals.stalled nowMs = false

/-- What a record is reported for is remembered, or there is room for it. -/
def Roomy (w : Watch ν) : Op ν → Prop
  | .observe nowMs record firstEver => w.signals.Roomy nowMs record firstEver
  | .close .. => True

instance (w : Watch ν) (op : Op ν) : Decidable (w.Steady op) :=
  match op with
  | .observe .. => inferInstanceAs (Decidable True)
  | .close nowMs _ => inferInstanceAs (Decidable (w.signals.stalled nowMs = false))

instance (w : Watch ν) (op : Op ν) : Decidable (w.Roomy op) :=
  match op with
  | .observe nowMs record firstEver =>
    inferInstanceAs (Decidable (w.signals.Roomy nowMs record firstEver))
  | .close .. => inferInstanceAs (Decidable True)

/-- What was said of a key was said once, and then the set has the key. -/
structure Once {κ : Type} (set : Signals ν → List κ) (mark : Finding ν → Bool) (k : κ)
    (w : Watch ν) : Prop where
  le : w.log.countP (Note.isFinding mark) ≤ 1
  mem : 0 < w.log.countP (Note.isFinding mark) → k ∈ set w.signals

theorem Once.extend {κ : Type} {set : Signals ν → List κ} {mark : Finding ν → Bool} {k : κ}
    {w after : Watch ν} {found : List (Finding ν)} (h : Once set mark k w)
    (hlog : after.log.countP (Note.isFinding mark)
      = w.log.countP (Note.isFinding mark) + found.countP mark)
    (hfound : Introduces mark k (set w.signals) (set after.signals) found) :
    Once set mark k after := by
  by_cases hnew : 0 < found.countP mark
  · have hfresh := hfound.fresh hnew
    have hnone : w.log.countP (Note.isFinding mark) = 0 := by
      by_contra hsome
      exact hfresh.1 (h.mem (Nat.pos_of_ne_zero hsome))
    refine ⟨?_, fun _ => hfresh.2⟩
    rw [hlog, hnone, Nat.zero_add]
    exact hfound.le
  · have hcount : after.log.countP (Note.isFinding mark)
        = w.log.countP (Note.isFinding mark) := by omega
    refine ⟨hcount.trans_le h.le, fun hpos => hfound.keeps (h.mem ?_)⟩
    rwa [← hcount]

variable [Arith ν]

theorem countP_close {mark : Finding ν → Bool}
    (hmark : ∀ f : Finding ν, f.kind.aspect ≠ .novelty → mark f = false) (w : Watch ν)
    (order : Order ν) :
    (w.close order).log.countP (Note.isFinding mark) = w.log.countP (Note.isFinding mark) := by
  have hnone : (w.signals.closeBucket order).found.countP mark = 0 := by
    rw [List.countP_eq_zero]
    intro f hf
    rw [hmark f (w.signals.closeBucket_old order f hf)]
    exact Bool.false_ne_true
  show (w.log ++ .closed _ :: (w.signals.closeBucket order).found.map Note.found).countP _ = _
  rw [List.countP_append, List.countP_cons_of_neg Bool.false_ne_true, List.countP_map]
  exact congrArg (_ + ·) hnone

/-- Over a gap that is not too long, buckets are closed one by one. -/
theorem close_keeps {p : Watch ν → Prop} (hclose : ∀ w order, p w → p (w.close order))
    {w : Watch ν} {nowMs : ℕ} {orders : ℕ → Order ν} (hsteady : w.Steady (.close nowMs orders))
    (h : p w) : p (w.step (.close nowMs orders)) := by
  have hstalled : w.signals.stalled nowMs = false := hsteady
  show p ⟨(w.signals.closings orders nowMs).1,
    w.log ++ (w.signals.closings orders nowMs).2.flatMap fun c => c.notes⟩
  rw [Signals.closings, hstalled, if_neg Bool.false_ne_true]
  exact closeLoop_keeps hclose orders _ h

theorem once_step {κ : Type} {set : Signals ν → List κ} {mark : Finding ν → Bool} {k : κ}
    (hmark : ∀ f : Finding ν, f.kind.aspect ≠ .novelty → mark f = false)
    (hclose : ∀ (s : Signals ν) order, set (s.closeBucket order).after = set s)
    (hobserve : ∀ (s : Signals ν) nowMs record firstEver, s.Roomy nowMs record firstEver →
      Introduces mark k (set s) (set (s.observe nowMs record firstEver).1)
        (s.observe nowMs record firstEver).2)
    (w : Watch ν) (op : Op ν) (h : Once set mark k w) (hsteady : w.Steady op)
    (hroomy : w.Roomy op) : Once set mark k (w.step op) := by
  cases op with
  | observe nowMs record firstEver =>
    refine h.extend ?_ (hobserve w.signals nowMs record firstEver hroomy)
    show (w.log ++ (w.signals.observe nowMs record firstEver).2.map Note.found).countP _ = _
    rw [List.countP_append, List.countP_map]
    rfl
  | close nowMs orders =>
    refine close_keeps (fun w order h => ?_) hsteady h
    have hsame : Introduces mark k (set w.signals) (set (w.close order).signals) [] := by
      show Introduces mark k (set w.signals) (set (w.signals.closeBucket order).after) []
      rw [hclose]
      exact .of_quiet rfl
    have hcount : (w.close order).log.countP (Note.isFinding mark)
        = w.log.countP (Note.isFinding mark) + ([] : List (Finding ν)).countP mark :=
      countP_close hmark w order
    exact h.extend hcount hsame

/-- What is reported while there is room is reported once. -/
theorem reported_once {nowMs : ℕ} {known : List Key} {ops : List (Op ν)}
    (h : Runs.Meets step (fun w op => w.Steady op ∧ w.Roomy op) (start nowMs known) ops) :
    (∀ key, (Runs.run step (start nowMs known) ops).log.countP
        (Note.isFinding (Finding.presents key)) ≤ 1) ∧
      ∀ bigram, (Runs.run step (start nowMs known) ops).log.countP
        (Note.isFinding (Finding.follows bigram)) ≤ 1 := by
  constructor
  · intro key
    have honce : Once Signals.pairs (Finding.presents key) key
        (Runs.run step (start nowMs known) ops) := by
      refine h.invariant (fun w op hw hop => ?_)
        ⟨Nat.zero_le 1, fun hpos => absurd hpos (Nat.lt_irrefl 0)⟩
      exact once_step (fun f hf => not_presents hf key) (fun _ _ => rfl)
        (fun s _ _ _ hroomy => s.introduces_pair hroomy key) w op hw hop.1 hop.2
    exact honce.le
  · intro bigram
    have honce : Once Signals.bigrams (Finding.follows bigram) bigram
        (Runs.run step (start nowMs known) ops) := by
      refine h.invariant (fun w op hw hop => ?_)
        ⟨Nat.zero_le 1, fun hpos => absurd hpos (Nat.lt_irrefl 0)⟩
      exact once_step (fun f hf => not_follows hf bigram) (fun _ _ => rfl)
        (fun s _ _ _ hroomy => s.introduces_flow hroomy bigram) w op hw hop.1 hop.2
    exact honce.le

/-- A record of a service, in a trace. -/
def apiRecord (template : ℕ) : LogRecord :=
  { LogRecord.new ⟨List.replicate 16 0, List.length_replicate⟩ 0 .INFO [] with
    service := some ['a']
    traceId := some ⟨List.replicate 16 1, List.length_replicate⟩
    templateId := some template }

/-- Two templates that follow each other in a trace, again and again. -/
def alternating : List (Op ℚ) :=
  [.observe 61000 (apiRecord 7) false, .observe 61000 (apiRecord 8) false,
    .observe 62000 (apiRecord 7) false, .observe 63000 (apiRecord 8) false,
    .close 70000 fun _ => ⟨.same, .same, .same, .same, .same⟩]

theorem alternating_once :
    (∀ key, (Runs.run step (start 0 []) alternating).log.countP
        (Note.isFinding (Finding.presents key)) ≤ 1) ∧
      ∀ bigram, (Runs.run step (start 0 []) alternating).log.countP
        (Note.isFinding (Finding.follows bigram)) ≤ 1 := by
  have hmeets : Runs.Meets step (fun w op => w.Steady op ∧ w.Roomy op) (start 0 []) alternating := by
    decide +kernel
  exact reported_once hmeets

/-- A record that is reported if its pair is not remembered. -/
def Reports (learnUntilMs : ℕ) (key : Key) : Op ν → Bool
  | .observe nowMs record firstEver =>
    (record.service, record.templateId) = (key.1, some key.2) ∧ firstEver = false ∧
      learnUntilMs ≤ nowMs
  | .close .. => false

/-- The set of pairs is full, and does not have the pair. -/
structure Full (learnUntilMs : ℕ) (key : Key) (w : Watch ν) : Prop where
  full : maxSet ≤ w.signals.pairs.length
  unknown : key ∉ w.signals.pairs
  learned : w.signals.pairsLearnUntilMs = learnUntilMs

theorem full_observe {learnUntilMs : ℕ} {key : Key} {w : Watch ν} (h : w.Full learnUntilMs key)
    (nowMs : ℕ) (record : LogRecord) (firstEver : Bool) :
    (w.step (.observe nowMs record firstEver)).Full learnUntilMs key ∧
      (w.signals.observe nowMs record firstEver).2.countP (Finding.presents key)
        = if Reports learnUntilMs key (.observe nowMs record firstEver : Op ν) then 1 else 0 := by
  have hkeep : ∀ (s : Signals ν) log, s.pairs = w.signals.pairs →
      s.pairsLearnUntilMs = w.signals.pairsLearnUntilMs → Full learnUntilMs key ⟨s, log⟩ := by
    intro s log hpairs hlearn
    refine ⟨?_, ?_, hlearn.trans h.learned⟩
    · show maxSet ≤ s.pairs.length
      rw [hpairs]
      exact h.full
    · show key ∉ s.pairs
      rw [hpairs]
      exact h.unknown
  rw [step_observe]
  obtain ⟨bucket, ⟨htemplate, heq⟩ | ⟨template, pairs, found, htemplate, hpair, hrest⟩⟩ :=
    w.signals.observe_cases nowMs record firstEver
  · rw [heq, Reports, htemplate]
    exact ⟨hkeep _ _ rfl rfl, (if_neg fun hreport =>
      Option.some_ne_none _ (congrArg Prod.snd (of_decide_eq_true hreport).1).symm).symm⟩
  · obtain ⟨hsame, hcount⟩ := Signals.observePair_full { w.signals with bucket := bucket }
      h.full h.unknown nowMs (record.service, template) firstEver
    rw [hpair] at hsame hcount
    have hreports : found.countP (Finding.presents key)
        = if Reports learnUntilMs key (.observe nowMs record firstEver : Op ν) then 1 else 0 := by
      rw [hcount, Reports, htemplate]
      refine if_congr ?_ rfl rfl
      rw [decide_eq_true_iff, ← h.learned, Prod.ext_iff, Prod.ext_iff, Option.some_inj]
    rcases hrest with ⟨-, heq⟩ | ⟨trace, traces, order, -, heq⟩
    · rw [heq]
      exact ⟨hkeep _ _ hsame rfl, hreports⟩
    · obtain ⟨bigrams, hflow⟩ := Signals.observeFlow_frame { w.signals with
        bucket := bucket, pairs := pairs, traces := traces, traceOrder := order } nowMs
        (record.service, template) (w.signals.previous trace template) firstEver
      have hquiet := Signals.presents_observeFlow { w.signals with
        bucket := bucket, pairs := pairs, traces := traces, traceOrder := order } nowMs
        (record.service, template) (w.signals.previous trace template) firstEver key
      rw [heq, hflow, List.countP_append, hreports, hquiet]
      exact ⟨hkeep _ _ hsame rfl, rfl⟩

/-- A pair the full set does not have is reported whenever it is seen. -/
theorem full_reports_each {learnUntilMs : ℕ} {key : Key} {ops : List (Op ν)} {w : Watch ν}
    (h : w.Full learnUntilMs key) (hsteady : Runs.Meets step Steady w ops) :
    (Runs.run step w ops).log.countP (Note.isFinding (Finding.presents key))
      = w.log.countP (Note.isFinding (Finding.presents key))
        + ops.countP (Reports learnUntilMs key) := by
  induction ops generalizing w with
  | nil => rfl
  | cons op ops ih =>
    obtain ⟨hop, hrest⟩ := hsteady
    have hstep : (w.step op).Full learnUntilMs key ∧
        (w.step op).log.countP (Note.isFinding (Finding.presents key))
          = w.log.countP (Note.isFinding (Finding.presents key))
            + if Reports learnUntilMs key op then 1 else 0 := by
      cases op with
      | observe nowMs record firstEver =>
        obtain ⟨hfull, hcount⟩ := full_observe h nowMs record firstEver
        refine ⟨hfull, ?_⟩
        rw [step_observe, ← hcount, List.countP_append, List.countP_map]
        rfl
      | close nowMs orders =>
        refine close_keeps (p := fun after => after.Full learnUntilMs key ∧
          after.log.countP (Note.isFinding (Finding.presents key))
            = w.log.countP (Note.isFinding (Finding.presents key)) + 0) ?_ hop ⟨h, rfl⟩
        intro w order ⟨hfull, hcount⟩
        exact ⟨⟨hfull.full, hfull.unknown, hfull.learned⟩,
          (countP_close (fun f hf => not_presents hf key) w order).trans hcount⟩
    rw [Runs.run_cons, ih hstep.1 hrest, hstep.2, List.countP_cons]
    omega

omit [Arith ν] in
theorem full_start {known : List Key} (hnodup : known.Nodup) (hlength : known.length = maxSet)
    {key : Key} (hnot : key ∉ known) (nowMs : ℕ) :
    (start nowMs known : Watch ν).Full nowMs key := by
  have hpairs : (known.take maxSet).dedup = known := by
    rw [List.take_of_length_le hlength.le, hnodup.dedup]
  have hempty : known.isEmpty = false := by
    rw [List.isEmpty_eq_false_iff, ← List.length_pos_iff, hlength]
    exact Nat.succ_pos _
  refine ⟨?_, ?_, ?_⟩
  · show maxSet ≤ (known.take maxSet).dedup.length
    rw [hpairs, hlength]
  · show key ∉ (known.take maxSet).dedup
    rw [hpairs]
    exact hnot
  · show (if (known.take maxSet).dedup.isEmpty then _ else nowMs) = nowMs
    rw [hpairs, hempty, if_neg Bool.false_ne_true]

/-- Pairs of templates without a service. -/
def pairsUpTo (n : ℕ) : List Key := (List.range n).map fun template => (none, template)

omit [Arith ν] in
theorem full_pairsUpTo (nowMs template : ℕ) :
    (start nowMs (pairsUpTo maxSet) : Watch ν).Full nowMs (some ['a'], template) := by
  have hlength : ∀ n, (pairsUpTo n).length = n := by
    intro n
    rw [pairsUpTo, List.length_map, List.length_range]
  have hnodup : ∀ n, (pairsUpTo n).Nodup := by
    intro n
    exact List.nodup_range.map fun m n h => congrArg Prod.snd h
  refine full_start (hnodup maxSet) (hlength maxSet) (fun hmem => ?_) nowMs
  obtain ⟨n, -, heq⟩ := List.mem_map.1 hmem
  cases heq

/-- The same record, seen twice. -/
def seenTwice : List (Op ℚ) := [.observe 0 (apiRecord 7) false, .observe 0 (apiRecord 7) false]

theorem full_reports_twice :
    (Runs.run step (start 0 (pairsUpTo maxSet)) seenTwice).log.countP
      (Note.isFinding (Finding.presents (some ['a'], 7))) = 2 := by
  have hreports : seenTwice.countP (Reports 0 (some ['a'], 7)) = 2 := by decide +kernel
  have hsteady : Runs.Meets step Steady (start 0 (pairsUpTo maxSet)) seenTwice :=
    ⟨trivial, trivial, trivial⟩
  rw [full_reports_each (full_pairsUpTo 0 7) hsteady, hreports]
  rfl

end Watch

end LogLess.SyncSignals
