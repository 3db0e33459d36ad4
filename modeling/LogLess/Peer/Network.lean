import LogLess.Lib.Runs
import LogLess.Peer.Frame

/-!
# Forwarding between instances

Any number of instances, each with its id, in any topology. An application writes a record at
an instance, anybody posts any body to one, an instance sends frames of records it holds to
another, and a body is delivered: never, once or again. Between being taken and being sent a
record may change in any way that leaves its provenance, and the receiver may drop more than
the loops (duplicates, records for an index that is refused).

Every copy of a record carries, as a ghost, the instances that accepted it on its way.
`forwarding_never_loops`: no way is longer than `maxHops`, and none leads back.
-/

namespace LogLess.Peer

open Serde

/-- A record as an instance holds it. -/
structure Copy (ι : Type) where
  record : LogRecord
  /-- The instance that wrote it, if it wrote no origin. -/
  source : Option ι
  /-- The instances that accepted it, the last one first. -/
  trail : List ι

/-- A body on its way, with the copies its records were made from. One that is not from an
instance has none. -/
structure Message (ι : Type) where
  dest : ι
  body : List UInt8
  copies : List (Copy ι)

structure Network (ι : Type) where
  held : ι → List (Copy ι)
  flight : List (Message ι)

def Network.empty (ι : Type) : Network ι := ⟨fun _ => [], []⟩

inductive NetEvent (ι : Type) where
  | write (i : ι) (r : LogRecord)
  | post (j : ι) (body : List UInt8)
  | send (i j : ι) (minSeverity : UInt8) (picks : List (ℕ × LogRecord))
  | deliver (k : ℕ) (picks : List (ℕ × LogRecord))

section

variable {ι : Type}

/-- Some of the copies, each as a record with the same provenance. -/
def pick (copies : List (Copy ι)) (picks : List (ℕ × LogRecord)) : List (Copy ι) :=
  picks.filterMap fun (n, r) =>
    (copies[n]?.filter fun c => r.intsFit && provenance r == provenance c.record).map
      fun c => { c with record := r }

/-- The frames of a batch with the copies that are in each. -/
def messages (dest : ι) : List (List UInt8 × ℕ) → List (Copy ι) → List (Message ι)
  | [], _ => []
  | f :: frames, copies =>
    ⟨dest, f.1, copies.take f.2⟩ :: messages dest frames (copies.drop f.2)

/-- What arrives with a message. -/
def Message.arrived (m : Message ι) (rs : List LogRecord) : List (Copy ι) :=
  if m.copies.isEmpty then rs.map fun r => ⟨r, none, []⟩
  else (m.copies.zip rs).map fun (c, r) => { c with record := r }

/-- A record as an application writes it. -/
def written (i : ι) (r : LogRecord) : Copy ι :=
  ⟨r, if (provenance r).map Prod.fst = some none then some i else none, []⟩

variable [DecidableEq ι] (fl : FloatText) (id : ι → Text)

def netStep (s : Network ι) : NetEvent ι → Network ι
  | .write i r =>
    if r.intsFit then { s with held := Function.update s.held i (s.held i ++ [written i r]) }
    else s
  | .post j body => { s with flight := s.flight ++ [⟨j, body, []⟩] }
  | .send i j minSeverity picks =>
    let batch := pick (s.held i) picks
    let frames := (encodeFrames fl (id i) minSeverity (batch.map Copy.record)).1
    let sent := batch.filter fun c => !skipped (id i) minSeverity c.record
    { s with flight := s.flight ++ messages j frames sent }
  | .deliver k picks =>
    match s.flight[k]? with
    | none => s
    | some m =>
      match parseBody fl m.body with
      | .error _ => s
      | .ok rs =>
        let kept := (pick (m.arrived rs) picks).filter fun c => !isLoop c.record (id m.dest)
        let accepted := kept.map fun c => { c with trail := m.dest :: c.trail }
        { s with held := Function.update s.held m.dest (s.held m.dest ++ accepted) }

end

/-! ## Provenance on the wire -/

theorem noteAttr_rereadAttr {fl : FloatText} {a b : Attr} (h : rereadAttr fl a = some b)
    (found : Option Text × Option ℕ) : noteAttr found b = noteAttr found a := by
  obtain ⟨v, hv, rfl⟩ := Option.map_eq_some_iff.mp h
  obtain ⟨key, value⟩ := a
  cases value with
  | f64 bits =>
    obtain ⟨bits', -, rfl⟩ := Option.map_eq_some_iff.mp hv
    rfl
  | str s => rw [← Option.some.inj hv]
  | i64 n => rw [← Option.some.inj hv]
  | bool b => rw [← Option.some.inj hv]

theorem provenance_rereadRecord {fl : FloatText} {r x : LogRecord}
    (h : rereadRecord fl r = some x) : provenance x = provenance r := by
  obtain ⟨as, has, rfl⟩ := Option.map_eq_some_iff.mp h
  have hfold : ∀ (as bs : List Attr) (found : Option Text × Option ℕ),
      List.Forall₂ (fun a b => rereadAttr fl a = some b) as bs →
      bs.foldlM noteAttr found = as.foldlM noteAttr found := by
    intro as bs found hab
    induction hab generalizing found with
    | nil => rfl
    | cons hab _ ih =>
      rw [List.foldlM_cons, List.foldlM_cons, noteAttr_rereadAttr hab]
      exact congrArg _ (funext fun f => ih f)
  rw [provenance, provenance, hfold _ _ _ (Lists.mapM_eq_some_iff.mp has)]

/-! ## The invariant -/

section

variable {ι : Type} {fl : FloatText} {id : ι → Text}

/-- A copy at an instance: written there and not forwarded yet, or accepted after no more
hops than it counts. -/
def HeldOk (id : ι → Text) (i : ι) (c : Copy ι) : Prop :=
  (c.trail = [] ∧ ∀ s, c.source = some s → s = i ∧ ∃ h, provenance c.record = some (none, h)) ∨
  (∃ o h t, c.trail = i :: t ∧ provenance c.record = some (o, h) ∧ o ≠ some (id i) ∧
    h < maxHops ∧ t.length ≤ h ∧ ∀ s, c.source = some s → o = some (id s) ∧ s ∉ c.trail)

/-- A record that was sent from a copy counts one hop more, or nobody takes it. -/
def SentFrom (id : ι → Text) (c : Copy ι) (r : LogRecord) : Prop :=
  provenance r = none ∨
  ∃ o h, (provenance c.record).map Prod.snd = some h ∧ provenance r = some (some o, h + 1) ∧
    c.trail.length ≤ h + 1 ∧ ∀ s, c.source = some s → o = id s ∧ s ∉ c.trail

def FlightOk (fl : FloatText) (id : ι → Text) (m : Message ι) : Prop :=
  m.copies = [] ∨
    ∀ rs, parseBody fl m.body = .ok rs → List.Forall₂ (SentFrom id) m.copies rs

structure NetInv (fl : FloatText) (id : ι → Text) (s : Network ι) : Prop where
  held : ∀ i, ∀ c ∈ s.held i, HeldOk id i c
  flight : ∀ m ∈ s.flight, FlightOk fl id m

/-- What is picked has the provenance, source and trail of a copy. -/
theorem exists_of_mem_pick {copies : List (Copy ι)} {picks : List (ℕ × LogRecord)} {c : Copy ι}
    (h : c ∈ pick copies picks) :
    c.record.intsFit = true ∧ ∃ c' ∈ copies, provenance c.record = provenance c'.record ∧
      c.source = c'.source ∧ c.trail = c'.trail := by
  obtain ⟨⟨n, r⟩, -, hp⟩ := List.mem_filterMap.mp h
  obtain ⟨c', hc', rfl⟩ := Option.map_eq_some_iff.mp hp
  obtain ⟨hget, hok⟩ := Option.filter_eq_some_iff.mp hc'
  simp only [Bool.and_eq_true, beq_iff_eq] at hok
  exact ⟨hok.1, c', List.mem_of_getElem? hget, hok.2, rfl, rfl⟩

theorem heldOk_congr {i : ι} {c c' : Copy ι} (hp : provenance c.record = provenance c'.record)
    (hs : c.source = c'.source) (ht : c.trail = c'.trail) (h : HeldOk id i c') :
    HeldOk id i c := by
  rw [HeldOk, hp, hs, ht]
  exact h

/-- What a held copy is sent as. -/
theorem sentFrom_of_heldOk {i : ι} {c : Copy ι} (h : HeldOk id i c)
    (hloop : isLoop c.record (id i) = false) {x : LogRecord}
    (hx : rereadRecord fl (stampForSend c.record (id i)) = some x) : SentFrom id c x := by
  obtain ⟨origin, hops, hp, hsent⟩ := provenance_sent hloop
  rcases hsent with hnone | hsent
  · exact .inl (by rw [provenance_rereadRecord hx, hnone])
  · refine .inr ⟨origin.getD (id i), hops, by rw [hp]; rfl,
      by rw [provenance_rereadRecord hx, hsent], ?_⟩
    rcases h with ⟨htrail, hsource⟩ | ⟨o, h, t, htrail, hp', -, -, hlen, hsource⟩
    · rw [htrail]
      refine ⟨Nat.zero_le _, fun s hs => ?_⟩
      obtain ⟨rfl, h, hnone⟩ := hsource s hs
      rw [hp, Option.some.injEq, Prod.mk.injEq] at hnone
      rw [hnone.1]
      exact ⟨rfl, List.not_mem_nil⟩
    · rw [hp, Option.some.injEq, Prod.mk.injEq] at hp'
      obtain ⟨rfl, rfl⟩ := hp'
      rw [htrail, List.length_cons]
      refine ⟨by omega, fun s hs => ?_⟩
      obtain ⟨rfl, hmem⟩ := hsource s hs
      exact ⟨rfl, htrail ▸ hmem⟩

/-- An accepted record at its new place. -/
theorem heldOk_of_sentFrom {j : ι} {c : Copy ι} {r : LogRecord} (h : SentFrom id c r)
    (hloop : isLoop r (id j) = false) : HeldOk id j ⟨r, c.source, j :: c.trail⟩ := by
  obtain ⟨origin, hops, hp, hne, hlt⟩ := not_isLoop_iff.mp hloop
  rcases h with hnone | ⟨o, h, -, hp', hlen, hsource⟩
  · rw [hnone] at hp
    cases hp
  · rw [hp, Option.some.injEq, Prod.mk.injEq] at hp'
    obtain ⟨rfl, rfl⟩ := hp'
    refine .inr ⟨some o, h + 1, c.trail, rfl, hp, hne, hlt, hlen, fun s hs => ?_⟩
    obtain ⟨rfl, hmem⟩ := hsource s hs
    refine ⟨rfl, ?_⟩
    simp only [List.mem_cons, not_or]
    exact ⟨fun hsj => hne (by rw [hsj]), hmem⟩

/-- A record from outside at the instance that accepts it. -/
theorem heldOk_of_posted {j : ι} {r : LogRecord} (hloop : isLoop r (id j) = false) :
    HeldOk id j ⟨r, none, [j]⟩ := by
  obtain ⟨origin, hops, hp, hne, hlt⟩ := not_isLoop_iff.mp hloop
  exact .inr ⟨origin, hops, [], rfl, hp, hne, hlt, Nat.zero_le _, by simp⟩

theorem heldOk_arrived {m : Message ι} (hm : FlightOk fl id m) {rs : List LogRecord}
    (hrs : parseBody fl m.body = .ok rs) {c : Copy ι} (hc : c ∈ m.arrived rs)
    (hloop : isLoop c.record (id m.dest) = false) :
    HeldOk id m.dest { c with trail := m.dest :: c.trail } := by
  unfold Message.arrived at hc
  split at hc
  · obtain ⟨r, -, rfl⟩ := List.mem_map.mp hc
    exact heldOk_of_posted hloop
  · next hne =>
    obtain ⟨⟨c, r⟩, hzip, rfl⟩ := List.mem_map.mp hc
    have hsent : List.Forall₂ (SentFrom id) m.copies rs := by
      rcases hm with hnil | hm
      · simp [hnil] at hne
      · exact hm rs hrs
    have hcr : SentFrom id c r := List.forall₂_zip hsent hzip
    exact heldOk_of_sentFrom (c := c) (r := r) hcr hloop

/-- The records of a frame are those of its copies, stamped and read back. -/
theorem flightOk_messages (own : Text) {dest : ι} {frames : List (List UInt8 × ℕ)}
    {groups : List (List LogRecord)} {copies : List (Copy ι)}
    (hframes : List.Forall₂ (fun f group => f.2 = group.length ∧
      (f.1.length ≤ frameBytes ∨ f.2 = 1) ∧
      ∀ out, parseBody fl f.1 = .ok out ↔
        List.Forall₂ (fun r x => rereadRecord fl r = some x) group out) frames groups)
    (hgroups : groups.flatten = copies.map fun c => stampForSend c.record own)
    (hcopies : ∀ c ∈ copies, ∀ x, rereadRecord fl (stampForSend c.record own) = some x →
      SentFrom id c x) :
    ∀ m ∈ messages dest frames copies, FlightOk fl id m := by
  induction hframes generalizing copies with
  | nil => simp [messages]
  | @cons f group frames groups hframe _ ih =>
    obtain ⟨hcount, -, hparse⟩ := hframe
    rw [List.flatten_cons] at hgroups
    have hgroup : group = (copies.take f.2).map fun c => stampForSend c.record own := by
      have := congrArg (List.take f.2) hgroups
      rwa [List.take_append_of_le_length hcount.le, List.take_of_length_le hcount.ge,
        ← List.map_take] at this
    have hrest : groups.flatten = (copies.drop f.2).map fun c => stampForSend c.record own := by
      have := congrArg (List.drop f.2) hgroups
      rwa [hcount, List.drop_left, ← hcount, ← List.map_drop] at this
    intro m hm
    rcases List.mem_cons.mp hm with rfl | hm
    · refine .inr fun rs hrs => ?_
      have hread := (hparse rs).mp hrs
      rw [hgroup, List.forall₂_map_left_iff] at hread
      have hmem : ∀ c ∈ copies.take f.2, ∀ x,
          rereadRecord fl (stampForSend c.record own) = some x → SentFrom id c x :=
        fun c hc => hcopies c (List.mem_of_mem_take hc)
      exact ((List.forall₂_and_left _ _).mpr ⟨hmem, hread⟩).imp fun c x hcx => hcx.1 x hcx.2
    · exact ih hrest (fun c hc => hcopies c (List.mem_of_mem_drop hc)) m hm

/-- What one instance sends. -/
theorem flightOk_send {i j : ι} {batch : List (Copy ι)} (minSeverity : UInt8)
    (hfit : ∀ c ∈ batch, c.record.intsFit = true) (hheld : ∀ c ∈ batch, HeldOk id i c) :
    ∀ m ∈ messages j (encodeFrames fl (id i) minSeverity (batch.map Copy.record)).1
      (batch.filter fun c => !skipped (id i) minSeverity c.record), FlightOk fl id m := by
  have hfit : ∀ r ∈ batch.map Copy.record, r.intsFit = true := by
    simpa using hfit
  obtain ⟨groups, hgroups, hframes⟩ := parse_frames fl (id i) minSeverity hfit
  refine flightOk_messages (id i) hframes ?_ ?_
  · rw [hgroups, stampedRecords, List.filter_map, List.map_map]
    rfl
  · intro c hc x hx
    obtain ⟨hc, hskip⟩ := List.mem_filter.mp hc
    simp only [skipped, Bool.not_eq_true', Bool.or_eq_false_iff] at hskip
    exact sentFrom_of_heldOk (hheld c hc) hskip.2 hx

variable [DecidableEq ι]

theorem netInv_hold {s : Network ι} (h : NetInv fl id s) (i : ι) {copies : List (Copy ι)}
    (hcopies : ∀ c ∈ copies, HeldOk id i c) :
    NetInv fl id { s with held := Function.update s.held i (s.held i ++ copies) } := by
  refine ⟨fun j c hc => ?_, h.flight⟩
  by_cases hj : j = i
  · subst hj
    simp only [Function.update_self] at hc
    rcases List.mem_append.mp hc with hc | hc
    · exact h.held j c hc
    · exact hcopies c hc
  · simp only [Function.update_of_ne hj] at hc
    exact h.held j c hc

theorem netInv_netStep {s : Network ι} (h : NetInv fl id s) (e : NetEvent ι) :
    NetInv fl id (netStep fl id s e) := by
  cases e with
  | write i r =>
    rw [netStep]
    split
    · refine netInv_hold h i fun c hc => ?_
      rw [List.mem_singleton.mp hc]
      refine .inl ⟨rfl, fun s hs => ?_⟩
      simp only [written] at hs ⊢
      split at hs
      · next hnone =>
        obtain ⟨⟨o, hops⟩, hp, rfl⟩ := Option.map_eq_some_iff.mp hnone
        exact ⟨(Option.some.inj hs).symm, hops, hp⟩
      · cases hs
    · exact h
  | post j body =>
    refine ⟨h.held, fun m hm => ?_⟩
    rcases List.mem_append.mp hm with hm | hm
    · exact h.flight m hm
    · rw [List.mem_singleton.mp hm]
      exact .inl rfl
  | send i j minSeverity picks =>
    refine ⟨h.held, fun m hm => ?_⟩
    rcases List.mem_append.mp hm with hm | hm
    · exact h.flight m hm
    · refine flightOk_send minSeverity (fun c hc => (exists_of_mem_pick hc).1) ?_ m hm
      intro c hc
      obtain ⟨-, c', hc', hp, hs, ht⟩ := exists_of_mem_pick hc
      exact heldOk_congr hp hs ht (h.held i c' hc')
  | deliver k picks =>
    rw [netStep]
    split
    · exact h
    · next m hm =>
      split
      · exact h
      · next rs hrs =>
        refine netInv_hold h m.dest fun c hc => ?_
        obtain ⟨c, hkept, rfl⟩ := List.mem_map.mp hc
        obtain ⟨hpicked, hloop⟩ := List.mem_filter.mp hkept
        obtain ⟨-, c', hc', hp, hs, ht⟩ := exists_of_mem_pick hpicked
        have hloop : isLoop c'.record (id m.dest) = false := by
          rw [isLoop, ← hp]
          simpa [isLoop] using hloop
        have hm' := h.flight m (List.mem_of_getElem? hm)
        have hok := heldOk_arrived hm' hrs hc' hloop
        refine heldOk_congr ?_ ?_ ?_ hok
        · exact hp
        · exact hs
        · exact congrArg (m.dest :: ·) ht

/-- The states the network comes to. -/
def netRun (fl : FloatText) (id : ι → Text) (es : List (NetEvent ι)) : Network ι :=
  Runs.run (netStep fl id) (Network.empty ι) es

theorem netInv_netRun (fl : FloatText) (id : ι → Text) (es : List (NetEvent ι)) :
    NetInv fl id (netRun fl id es) := by
  have hstart : NetInv fl id (Network.empty ι) :=
    ⟨fun _ _ hc => absurd hc List.not_mem_nil, fun _ hm => absurd hm List.not_mem_nil⟩
  have hstep : ∀ s e, NetInv fl id s → NetInv fl id (netStep fl id s e) :=
    fun _ e hs => netInv_netStep hs e
  exact Runs.run_invariant hstep hstart es

end

/-- In every run, a record an instance accepted does not name it as its origin and counts less
than `maxHops`; it was accepted at most `maxHops` times on its way, never where it was written;
and what was sent from a copy counts more hops than the copy, or is refused by every instance. -/
theorem forwarding_never_loops {ι : Type} [DecidableEq ι] (fl : FloatText) (id : ι → Text)
    (es : List (NetEvent ι)) :
    (∀ i, ∀ c ∈ (netRun fl id es).held i, c.trail ≠ [] →
      ∃ origin hops, provenance c.record = some (origin, hops) ∧ origin ≠ some (id i) ∧
        hops < maxHops) ∧
    (∀ i, ∀ c ∈ (netRun fl id es).held i, c.trail.length ≤ maxHops ∧
      ∀ s, c.source = some s → s ∉ c.trail) ∧
    (∀ m ∈ (netRun fl id es).flight, m.copies ≠ [] → ∀ rs, parseBody fl m.body = .ok rs →
      List.Forall₂ (fun c r => (∀ j, isLoop r (id j) = true) ∨
        ∃ h h', (provenance c.record).map Prod.snd = some h ∧
          (provenance r).map Prod.snd = some h' ∧ h < h') m.copies rs) := by
  have hinv := netInv_netRun fl id es
  refine ⟨fun i c hc hne => ?_, fun i c hc => ?_, fun m hm hne rs hrs => ?_⟩
  · rcases hinv.held i c hc with ⟨hnil, -⟩ | ⟨o, h, t, -, hp, ho, hh, -, -⟩
    · exact absurd hnil hne
    · exact ⟨o, h, hp, ho, hh⟩
  · rcases hinv.held i c hc with ⟨hnil, -⟩ | ⟨o, h, t, htrail, -, -, hh, hlen, hsource⟩
    · rw [hnil]
      exact ⟨Nat.zero_le _, fun _ _ => List.not_mem_nil⟩
    · refine ⟨?_, fun s hs => (hsource s hs).2⟩
      rw [htrail, List.length_cons]
      omega
  · rcases hinv.flight m hm with hnil | hsent
    · exact absurd hnil hne
    · refine (hsent rs hrs).imp fun c r hcr => ?_
      rcases hcr with hnone | ⟨o, h, hc, hr, -, -⟩
      · exact .inl fun j => by rw [isLoop, hnone]
      · exact .inr ⟨h, h + 1, hc, by rw [hr]; rfl, by omega⟩

end LogLess.Peer
