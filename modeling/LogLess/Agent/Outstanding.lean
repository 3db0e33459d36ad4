import LogLess.Agent.Hec
import LogLess.Hec.Desk

/-!
# What the map of watermarks holds

The record loop binds every HEC batch, and only the retirement of an ack id takes a watermark
out of the map. A batch that was posted without a channel, or with acknowledgements off, has
no ack id: its watermark stays.
-/

namespace LogLess.Agent

open Hec Wal

namespace Pipeline

/-- An ack id is pending for this batch, or its post was accepted and is about to issue one. -/
def Owed (p : Pipeline) (seq : ℕ) : Prop :=
  (∃ name id, Assoc.get (p.acks.channel name).pending id = some seq) ∨ ∃ name, (name, seq) ∈ p.replies

/-- The HEC batches that the loop has not bound yet. -/
def unbound (p : Pipeline) : List ℕ :=
  (p.work.bind Work.seq).toList ++ p.hec.map Batch.seq

/-- The condition on the steps of a run: a post wants an ack, or its batch is not admitted. -/
def wantsAck (s : Settings) (p : Pipeline) : Event → Bool
  | .post channel records =>
    channel.isSome || (p.post s channel records).hec.length == p.hec.length
  | _ => true

/-- What holds in every run in which each batch admitted wants an ack. -/
structure Outstanding (p : Pipeline) : Prop where
  owed : ∀ seq, (Assoc.get p.acks.watermarks seq).isSome = true → p.Owed seq
  unbound : ∀ seq ∈ p.unbound, Assoc.get p.acks.watermarks seq = none ∧ p.Owed seq
  nodup : p.unbound.Nodup
  lt : ∀ seq ∈ p.unbound, seq < p.acks.nextBatch
  fresh : ∀ seq, p.acks.nextBatch ≤ seq → Assoc.get p.acks.watermarks seq = none
  ids : ∀ name id seq, Assoc.get (p.acks.channel name).pending id = some seq →
    id < (p.acks.channel name).nextId

namespace Outstanding

variable {s : Settings} {c : Codec} {p q : Pipeline}

theorem start (wal : SplitWal) : (Pipeline.start s wal).Outstanding where
  owed := by simp [Pipeline.start, AckTable.new]
  unbound := by simp [Pipeline.start, Pipeline.unbound]
  nodup := List.nodup_nil
  lt := by simp [Pipeline.start, Pipeline.unbound]
  fresh := by simp [Pipeline.start, AckTable.new]
  ids := by simp [Pipeline.start, AckTable.new, AckTable.channel, Channel.empty]

/-- The steps that touch neither the table nor a HEC batch. -/
theorem of_same (h : p.Outstanding) (hacks : q.acks = p.acks) (hreplies : q.replies = p.replies)
    (hunbound : q.unbound = p.unbound) : q.Outstanding := by
  have howed : ∀ seq, q.Owed seq ↔ p.Owed seq := by
    intro seq
    rw [Owed, Owed, hacks, hreplies]
  constructor
  · intro seq hsome
    rw [howed]
    exact h.owed seq (hacks ▸ hsome)
  · intro seq hmem
    rw [howed, hacks]
    exact h.unbound seq (hunbound ▸ hmem)
  · exact hunbound ▸ h.nodup
  · intro seq hmem
    rw [hacks]
    exact h.lt seq (hunbound ▸ hmem)
  · intro seq hle
    rw [hacks] at hle ⊢
    exact h.fresh seq hle
  · rw [hacks]
    exact h.ids

/-- A sequence number is taken. -/
theorem nextBatchSeq (h : p.Outstanding) :
    ({ p with acks := p.acks.nextBatchSeq.1 } : Pipeline).Outstanding where
  owed := h.owed
  unbound := h.unbound
  nodup := h.nodup
  lt seq hmem := Nat.lt_succ_of_lt (h.lt seq hmem)
  fresh seq hle := h.fresh seq (Nat.le_of_succ_le hle)
  ids := h.ids

/-- A post is turned away before its batch has a number or after, or its batch is admitted. -/
theorem post_cases (s : Settings) (p : Pipeline) (channel : Option Text) (records : List LogRecord) :
    p.post s channel records = p ∨
      p.post s channel records = { p with acks := p.acks.nextBatchSeq.1 } ∨
      ∃ routed : List LogRecord, p.post s channel records =
        { p with
          acks := p.acks.nextBatchSeq.1
          hec := p.hec ++ [⟨p.acks.nextBatch, routed⟩]
          replies := p.replies ++ (channel.map fun name => (name, p.acks.nextBatch)).toList
          admitted := p.admitted ++ [⟨p.acks.nextBatch, routed⟩] } := by
  unfold Pipeline.post
  split
  · simp only
    split
    · exact .inr (.inl rfl)
    · split
      · exact .inr (.inl rfl)
      · split
        · exact .inr (.inl rfl)
        · exact .inr (.inr ⟨_, rfl⟩)
  · exact .inl rfl

theorem post (h : p.Outstanding) {channel : Option Text} {records : List LogRecord}
    (hok : p.wantsAck s (.post channel records) = true) :
    (p.post s channel records).Outstanding := by
  unfold wantsAck at hok
  simp only at hok
  rcases post_cases s p channel records with heq | heq | ⟨routed, heq⟩
  · rw [heq]
    exact h
  · rw [heq]
    exact h.nextBatchSeq
  · rw [heq] at hok ⊢
    cases channel with
    | none => simp at hok
    | some name =>
      set q : Pipeline :=
        { p with
          acks := p.acks.nextBatchSeq.1
          hec := p.hec ++ [⟨p.acks.nextBatch, routed⟩]
          replies := p.replies ++ ((some name).map fun name => (name, p.acks.nextBatch)).toList
          admitted := p.admitted ++ [⟨p.acks.nextBatch, routed⟩] } with hq
      have howed : ∀ seq, p.Owed seq → q.Owed seq := by
        intro seq howed
        rcases howed with hpending | ⟨other, hmem⟩
        · exact .inl hpending
        · exact .inr ⟨other, List.mem_append_left _ hmem⟩
      have hunbound : q.unbound = p.unbound ++ [p.acks.nextBatch] := by
        simp [Pipeline.unbound, hq]
      -- the batch is the newest one, and its post is about to issue an id
      constructor
      · exact fun seq hsome => howed seq (h.owed seq hsome)
      · intro seq hmem
        rw [hunbound] at hmem
        rcases List.mem_append.mp hmem with hmem | hmem
        · exact ⟨(h.unbound seq hmem).1, howed seq (h.unbound seq hmem).2⟩
        · rw [List.mem_singleton.mp hmem]
          exact ⟨h.fresh _ le_rfl, .inr ⟨name, List.mem_append_right _ (by simp)⟩⟩
      · rw [hunbound, List.nodup_append]
        refine ⟨h.nodup, by simp, ?_⟩
        intro a ha b hb heq
        rw [List.mem_singleton.mp hb] at heq
        exact absurd (h.lt a ha) (by omega)
      · intro seq hmem
        rw [hunbound] at hmem
        show seq < p.acks.nextBatch + 1
        rcases List.mem_append.mp hmem with hmem | hmem
        · have := h.lt seq hmem
          omega
        · rw [List.mem_singleton.mp hmem]
          omega
      · intro seq hle
        have hle' : p.acks.nextBatch + 1 ≤ seq := hle
        exact h.fresh seq (by omega)
      · exact h.ids

/-- An id is issued, and perhaps older ones of its channel are retired. -/
theorem issue (h : p.Outstanding) (k : ℕ) : (p.issue k).Outstanding := by
  unfold Pipeline.issue
  split
  · exact h
  · next name seq hk =>
    set q : Pipeline :=
      { p with
        acks := (p.acks.issue p.synced name seq).1
        replies := p.replies.eraseIdx k
        issued := p.issued ++ [⟨name, (p.acks.issue p.synced name seq).2, seq⟩] } with hq
    show q.Outstanding
    set id := (p.acks.channel name).nextId with hid
    set opened : Channel :=
      { p.acks.channel name with
        nextId := id + 1
        pending := Assoc.insert (p.acks.channel name).pending id seq } with hopened
    set rest := opened.retireDurablePrefix p.acks.watermarks p.synced with hrest
    have hretired : opened.Retired p.synced p.acks.watermarks rest.1 rest.2 :=
      Channel.retired_retire _ opened p.acks.watermarks
    have hchannel : ∀ other, q.acks.channel other = if other = name then rest.1
        else p.acks.channel other := fun other =>
      AckTable.channel_issue p.acks p.synced name other seq
    have hwatermarks : q.acks.watermarks = rest.2 := rfl
    have hunbound : q.unbound = p.unbound := rfl
    -- what is pending on the channel stays so unless its watermark goes with it
    have hpending : ∀ i s, Assoc.get opened.pending i = some s →
        ((Assoc.get rest.2 s).isSome = true ∨ Assoc.get p.acks.watermarks s = none) →
        q.Owed s := by
      intro i s hget hstill
      refine .inl ⟨name, i, ?_⟩
      rw [hchannel, if_pos rfl, hretired.pending, if_neg]
      · exact hget
      · intro hpast
        obtain ⟨hany, hnone⟩ := hretired.passed i s hpast.1 hpast.2 hget
        rcases hstill with hsome | hnever
        · rw [hnone] at hsome
          cases hsome
        · rw [hnever] at hany
          cases hany
    have howed : ∀ s, p.Owed s →
        ((Assoc.get rest.2 s).isSome = true ∨ Assoc.get p.acks.watermarks s = none) →
        q.Owed s := by
      intro s howed hstill
      rcases howed with ⟨other, i, hget⟩ | ⟨other, hmem⟩
      · by_cases hother : other = name
        · subst hother
          refine hpending i s ?_ hstill
          have := h.ids other i s hget
          simp only [hopened]
          rw [Assoc.get_insert, if_neg (by omega)]
          exact hget
        · refine .inl ⟨other, i, ?_⟩
          rw [hchannel, if_neg hother]
          exact hget
      · obtain ⟨j, hj⟩ := List.mem_iff_getElem?.mp hmem
        by_cases hjk : j = k
        · -- it is the post that issues its id now
          rw [hjk, hk] at hj
          obtain ⟨rfl, rfl⟩ := Prod.mk.inj (Option.some.inj hj)
          refine hpending id seq ?_ hstill
          simp only [hopened]
          rw [Assoc.get_insert, if_pos rfl]
        · exact .inr ⟨other, List.mem_eraseIdx_iff_getElem?.mpr ⟨j, hjk, hj⟩⟩
    have hsub : ∀ s, (Assoc.get rest.2 s).isSome = true →
        (Assoc.get p.acks.watermarks s).isSome = true := by
      intro s hsome
      rcases hretired.kept s with heq | ⟨hnone, -⟩
      · rw [← heq]
        exact hsome
      · rw [hnone] at hsome
        cases hsome
    have hnone : ∀ s, Assoc.get p.acks.watermarks s = none → Assoc.get rest.2 s = none := by
      intro s hget
      rw [← Option.not_isSome_iff_eq_none] at hget ⊢
      exact fun hsome => hget (hsub s hsome)
    constructor
    · intro s hsome
      rw [hwatermarks] at hsome
      exact howed s (h.owed s (hsub s hsome)) (.inl hsome)
    · intro s hmem
      rw [hunbound] at hmem
      obtain ⟨hget, howed'⟩ := h.unbound s hmem
      exact ⟨hnone s hget, howed s howed' (.inr hget)⟩
    · exact h.nodup
    · exact h.lt
    · exact fun s hle => hnone s (h.fresh s hle)
    · intro other i s hget
      rw [hchannel] at hget ⊢
      split at hget
      · next hother =>
        rw [if_pos hother, hretired.nextId]
        rw [hretired.pending] at hget
        split at hget
        · cases hget
        · simp only [hopened] at hget ⊢
          rw [Assoc.get_insert] at hget
          split at hget
          · omega
          · have := h.ids name i s hget
            omega
      · next hother =>
        rw [if_neg hother]
        exact h.ids other i s hget

/-- The loop is through with a batch: if it is a HEC batch, it is bound. -/
theorem finish (h : p.Outstanding) : p.finish.Outstanding := by
  unfold Pipeline.finish
  split
  · next seq rest entered hwork =>
    split
    · cases seq with
      | none =>
        refine h.of_same rfl rfl ?_
        simp [Pipeline.unbound, hwork]
      | some seq =>
        have hunbound : p.unbound = seq :: p.hec.map Batch.seq := by
          simp [Pipeline.unbound, hwork]
        have hnodup := h.nodup
        rw [hunbound, List.nodup_cons] at hnodup
        have hmem : ∀ s ∈ p.hec.map Batch.seq, s ∈ p.unbound := by
          intro s hs
          rw [hunbound]
          exact List.mem_cons_of_mem _ hs
        have hself : seq ∈ p.unbound := by
          rw [hunbound]
          exact List.mem_cons_self
        have hget : ∀ s, Assoc.get (p.acks.bind seq p.intake.queue.stats.enqueued).watermarks s
            = if s = seq then some p.intake.queue.stats.enqueued
              else Assoc.get p.acks.watermarks s := fun s => Assoc.get_insert _ _ _ _
        constructor
        · intro s hsome
          simp only at hsome
          rw [hget] at hsome
          split at hsome
          · next heq =>
            rw [heq]
            exact (h.unbound seq hself).2
          · exact h.owed s hsome
        · intro s hs
          simp only
          have hs' : s ∈ p.hec.map Batch.seq := hs
          have hne : s ≠ seq := fun heq => hnodup.1 (heq ▸ hs')
          rw [hget, if_neg hne]
          exact h.unbound s (hmem s hs')
        · exact hnodup.2
        · exact fun s hs => h.lt s (hmem s hs)
        · intro s hle
          have hle' : p.acks.nextBatch ≤ s := hle
          have hlt := h.lt seq hself
          simp only
          rw [hget, if_neg (by omega)]
          exact h.fresh s hle'
        · exact h.ids
    · exact h
  · exact h

theorem takeHec (h : p.Outstanding) : p.takeHec.Outstanding := by
  unfold Pipeline.takeHec
  split
  · next hwork hdone hhec =>
    refine h.of_same rfl rfl ?_
    simp [Pipeline.unbound, hwork, hhec]
  · exact h

theorem takeOther (h : p.Outstanding) (records : List LogRecord) :
    (p.takeOther records).Outstanding := by
  unfold Pipeline.takeOther
  split
  · next hwork hdone =>
    refine h.of_same rfl rfl ?_
    simp [Pipeline.unbound, hwork]
  · exact h

theorem process (h : p.Outstanding) (m : Moment) : (p.process s m).Outstanding := by
  unfold Pipeline.process
  split
  · next hwork hdone =>
    split
    · exact h
    · refine h.of_same rfl rfl ?_
      simp [Pipeline.unbound, hwork]
  · exact h

/-- The writer's steps. -/
theorem writer (h : p.Outstanding) (hfront : p.SameFront q) : q.Outstanding := by
  refine h.of_same hfront.acks hfront.replies ?_
  rw [Pipeline.unbound, Pipeline.unbound, hfront.work, hfront.hec]

theorem step (h : p.Outstanding) (e : Event) (hok : p.wantsAck s e = true) :
    (p.step s c e).Outstanding := by
  cases e with
  | post channel records => exact h.post hok
  | issue k => exact h.issue k
  | takeHec => exact h.takeHec
  | takeOther records => exact h.takeOther records
  | process m => exact h.process m
  | finish => exact h.finish
  | recv n => exact h.writer (.recv p n)
  | append now instant => exact h.writer (.append p now instant)
  | maybeSync now instant => exact h.writer (.maybeSync p now instant)
  | shutdown instant => exact h.writer (.shutdown p instant)
  | fail => exact h.writer (.stopWriter p)

end Outstanding

end Pipeline

/-- **The map of watermarks is bounded by what is outstanding.** In every run in which each
post whose batch is admitted wants an ack: a watermark is that of a batch which is pending on
a channel, or whose id is still to be issued. -/
theorem watermarks_outstanding (s : Settings) (c : Codec) (wal : SplitWal) (events : List Event)
    (hok : Runs.Meets (Pipeline.step s c) (fun p e => p.wantsAck s e = true) (.start s wal) events) :
    let p := Runs.run (Pipeline.step s c) (.start s wal) events
    ∀ seq ∈ p.acks.watermarks.map Prod.fst,
      (∃ name, seq ∈ (p.acks.channel name).pending.map Prod.snd) ∨ seq ∈ p.replies.map Prod.snd := by
  intro p seq hmem
  have h : p.Outstanding :=
    hok.invariant (fun _ e hi hm => hi.step e hm) (Pipeline.Outstanding.start wal)
  rcases h.owed seq (Assoc.isSome_get.mpr hmem) with ⟨name, id, hget⟩ | ⟨name, hreply⟩
  · exact .inl ⟨name, List.mem_map.mpr ⟨_, Assoc.mem_of_get hget, rfl⟩⟩
  · exact .inr (List.mem_map.mpr ⟨_, hreply, rfl⟩)

/-- One post with an ack, and the next one whose id is not issued yet. -/
theorem watermarks_outstanding_two :
    let p := Runs.run (Pipeline.step plainSettings Postcard.codec) exampleStart
      (postOne (.new exampleUuid 1000 .INFO ['a']) 0
        ++ [.post (some ['c']) [.new exampleUuid 1000 .INFO ['b']], .takeHec,
          .process ⟨0, none, false⟩, .finish])
    p.acks.watermarks.map Prod.fst = [1, 2] ∧
      ((∃ name, 2 ∈ (p.acks.channel name).pending.map Prod.snd) ∨ 2 ∈ p.replies.map Prod.snd) := by
  intro p
  have hkeys : p.acks.watermarks.map Prod.fst = [1, 2] := by decide +kernel
  refine ⟨hkeys, ?_⟩
  exact watermarks_outstanding plainSettings Postcard.codec _ _ (by decide +kernel) 2
    (by show 2 ∈ p.acks.watermarks.map Prod.fst; rw [hkeys]; decide)

/-- A post without a channel: its batch is bound, and nothing will take the watermark away. -/
theorem watermark_without_ack_stays :
    let p := Runs.run (Pipeline.step plainSettings Postcard.codec) exampleStart
      [.post none [.new exampleUuid 1000 .INFO ['a']], .takeHec, .process ⟨0, none, false⟩, .finish]
    1 ∈ p.acks.watermarks.map Prod.fst ∧
      ¬ ((∃ name, 1 ∈ (p.acks.channel name).pending.map Prod.snd) ∨
        1 ∈ p.replies.map Prod.snd) := by
  intro p
  have hchannels : p.acks.channels = [] := by decide +kernel
  have hreplies : p.replies = [] := by decide +kernel
  refine ⟨by decide +kernel, ?_⟩
  rw [hreplies]
  intro h
  rcases h with ⟨name, hmem⟩ | hmem
  · rw [AckTable.channel, hchannels] at hmem
    simp [Channel.empty] at hmem
  · cases hmem

end LogLess.Agent
