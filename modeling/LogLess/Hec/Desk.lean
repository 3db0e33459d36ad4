import LogLess.Hec.Ack
import LogLess.Lib.Runs

/-!
# Histories of the table of acknowledgements

The calls of the table in any order, with the synced count growing between them. An answer
is true for just the ids whose batch is bound to a count that is synced, and it stays true.

Ids are retired only when another one is issued, and none is issued on a channel that has no
room. So a channel that is full stays full, also when all that it waits for is on disk.
-/

namespace LogLess.Hec

/-! ## What retirement does -/

/-- The floor has passed ids whose batches are durable; they are gone with their watermarks. -/
structure Channel.Retired (synced : ℕ) (ch : Channel) (watermarks : List (ℕ × ℕ)) (ch' : Channel)
    (watermarks' : List (ℕ × ℕ)) : Prop where
  nextId : ch'.nextId = ch.nextId
  floor : ch.durableFloor ≤ ch'.durableFloor
  floor_le : ch.durableFloor ≤ ch.nextId → ch'.durableFloor ≤ ch.nextId
  pending : ∀ id, Assoc.get ch'.pending id =
    if ch.durableFloor ≤ id ∧ id < ch'.durableFloor then none else Assoc.get ch.pending id
  passed : ∀ id seq, ch.durableFloor ≤ id → id < ch'.durableFloor →
    Assoc.get ch.pending id = some seq →
    (Assoc.get watermarks seq).any (· ≤ synced) = true ∧ Assoc.get watermarks' seq = none
  kept : ∀ seq, Assoc.get watermarks' seq = Assoc.get watermarks seq ∨
    Assoc.get watermarks' seq = none ∧ ∃ id, ch.durableFloor ≤ id ∧ id < ch'.durableFloor ∧
      Assoc.get ch.pending id = some seq
  length : ch'.pending.length ≤ ch.pending.length

namespace Channel

variable {synced : ℕ}

theorem Retired.refl (ch : Channel) (watermarks : List (ℕ × ℕ)) :
    ch.Retired synced watermarks ch watermarks where
  nextId := rfl
  floor := le_rfl
  floor_le := id
  pending i := by rw [if_neg (by omega)]
  passed i seq hle hlt := by omega
  kept _ := .inl rfl
  length := le_rfl

/-- One durable id, and then what the rest of the loop does. -/
theorem Retired.durable {ch ch' : Channel} {watermarks watermarks' : List (ℕ × ℕ)} {seq : ℕ}
    (hfloor : ch.durableFloor < ch.nextId)
    (hseq : Assoc.get ch.pending ch.durableFloor = some seq)
    (hdurable : (Assoc.get watermarks seq).any (· ≤ synced) = true)
    (h : ({ ch with
      durableFloor := ch.durableFloor + 1
      pending := Assoc.erase ch.pending ch.durableFloor } : Channel).Retired synced
        (Assoc.erase watermarks seq) ch' watermarks') :
    ch.Retired synced watermarks ch' watermarks' where
  nextId := h.nextId
  floor := by
    have := h.floor
    simp only at this
    omega
  floor_le _ := h.floor_le hfloor
  pending i := by
    have hstep := h.floor
    have hget := h.pending i
    simp only at hstep hget
    rw [Assoc.get_erase] at hget
    rw [hget]
    by_cases hi : i = ch.durableFloor
    · rw [if_neg (by omega), if_pos hi, if_pos (by omega)]
    · rw [if_neg hi]
      refine if_congr ?_ rfl rfl
      omega
  passed i s hle hlt hget := by
    by_cases hi : i = ch.durableFloor
    · rw [hi, hseq, Option.some.injEq] at hget
      subst hget
      refine ⟨hdurable, ?_⟩
      rcases h.kept seq with heq | hnone
      · rw [heq, Assoc.get_erase, if_pos rfl]
      · exact hnone.1
    · obtain ⟨hany, hnone⟩ := h.passed i s (by simp only; omega) hlt (by
        simp only
        rw [Assoc.get_erase, if_neg hi]
        exact hget)
      refine ⟨?_, hnone⟩
      rw [Assoc.get_erase] at hany
      split at hany
      · cases hany
      · exact hany
  kept s := by
    have hstep := h.floor
    simp only at hstep
    by_cases hs : s = seq
    · right
      subst hs
      refine ⟨?_, ch.durableFloor, le_rfl, by omega, hseq⟩
      rcases h.kept s with heq | hnone
      · rw [heq, Assoc.get_erase, if_pos rfl]
      · exact hnone.1
    · rcases h.kept s with heq | ⟨hnone, i, hle, hlt, hget⟩
      · left
        rw [heq, Assoc.get_erase, if_neg hs]
      · right
        simp only at hle hget
        rw [Assoc.get_erase, if_neg (by omega)] at hget
        exact ⟨hnone, i, by omega, hlt, hget⟩
  length := h.length.trans (List.length_filter_le _ _)

/-- The floor passes an id that was never issued. -/
theorem Retired.skip {ch ch' : Channel} {watermarks watermarks' : List (ℕ × ℕ)}
    (hfloor : ch.durableFloor < ch.nextId) (hnone : Assoc.get ch.pending ch.durableFloor = none)
    (h : ({ ch with durableFloor := ch.durableFloor + 1 } : Channel).Retired synced
      watermarks ch' watermarks') :
    ch.Retired synced watermarks ch' watermarks' where
  nextId := h.nextId
  floor := by
    have := h.floor
    simp only at this
    omega
  floor_le _ := h.floor_le hfloor
  pending i := by
    have hstep := h.floor
    have hget := h.pending i
    simp only at hstep hget
    rw [hget]
    by_cases hi : i = ch.durableFloor
    · rw [if_neg (by omega), if_pos (by omega), hi, hnone]
    · refine if_congr ?_ rfl rfl
      omega
  passed i s hle hlt hget := by
    by_cases hi : i = ch.durableFloor
    · rw [hi, hnone] at hget
      cases hget
    · exact h.passed i s (by simp only; omega) hlt hget
  kept s := by
    rcases h.kept s with heq | ⟨hgone, i, hle, hlt, hget⟩
    · exact .inl heq
    · simp only at hle
      exact .inr ⟨hgone, i, by omega, hlt, hget⟩
  length := h.length

theorem retired_retire (fuel : ℕ) (ch : Channel) (watermarks : List (ℕ × ℕ)) :
    ch.Retired synced watermarks (retire synced fuel ch watermarks).1
      (retire synced fuel ch watermarks).2 := by
  induction fuel generalizing ch watermarks with
  | zero => exact .refl ch watermarks
  | succ fuel ih =>
    unfold retire
    split
    · next hfloor =>
      split
      · next seq hseq =>
        split
        · next hdurable => exact .durable hfloor hseq hdurable (ih _ _)
        · exact .refl ch watermarks
      · next hnone => exact .skip hfloor hnone (ih _ _)
    · exact .refl ch watermarks

/-- If the oldest id is durable, something is retired. -/
theorem length_retireDurablePrefix_lt {ch : Channel} {watermarks : List (ℕ × ℕ)} {seq : ℕ}
    (hfloor : ch.durableFloor < ch.nextId)
    (hseq : Assoc.get ch.pending ch.durableFloor = some seq)
    (hdurable : (Assoc.get watermarks seq).any (· ≤ synced) = true) :
    (ch.retireDurablePrefix watermarks synced).1.pending.length < ch.pending.length := by
  obtain ⟨fuel, hfuel⟩ : ∃ fuel, ch.nextId - ch.durableFloor = fuel + 1 :=
    ⟨ch.nextId - ch.durableFloor - 1, by omega⟩
  unfold retireDurablePrefix
  rw [hfuel, retire, if_pos hfloor]
  simp only [hseq]
  rw [if_pos hdurable]
  refine lt_of_le_of_lt (retired_retire fuel _ _).length ?_
  have hmem : ch.durableFloor ∈ ch.pending.map Prod.fst := Assoc.mem_keys_of_get hseq
  obtain ⟨e, he, hkey⟩ := List.mem_map.mp hmem
  exact List.length_filter_lt_length_iff_exists.mpr ⟨e, he, by simp [hkey]⟩

end Channel

/-! ## Histories -/

/-- A call of the table, or records that the WAL has synced. -/
inductive Op where
  | nextBatchSeq
  | issue (channel : Text) (seq : ℕ)
  | bind (seq total : ℕ)
  | sync (records : ℕ)
  | query (channel : Text) (id : ℕ)

/-- The table, the synced count, and all ids issued and batches bound so far. -/
structure Desk where
  table : AckTable
  synced : ℕ
  issued : List Issued
  bound : List (ℕ × ℕ)

namespace Desk

def start : Desk := ⟨.new, 0, [], []⟩

def step (d : Desk) : Op → Desk
  | .nextBatchSeq => { d with table := d.table.nextBatchSeq.1 }
  | .issue channel seq =>
    let (table, id) := d.table.issue d.synced channel seq
    { d with table := table, issued := d.issued ++ [⟨channel, id, seq⟩] }
  | .bind seq total =>
    { d with table := d.table.bind seq total, bound := d.bound ++ [(seq, total)] }
  | .sync records => { d with synced := d.synced + records }
  -- a poll never mutates
  | .query _ _ => d

/-- A batch is issued an id at most once, and bound at most once. -/
def once (d : Desk) : Op → Bool
  | .issue _ seq => d.issued.all fun x => x.seq != seq
  | .bind seq _ => d.bound.all fun x => x.1 != seq
  | _ => true

/-- What the table answers to a poll now. -/
def answer (d : Desk) (channel : Text) (id : ℕ) : Bool := d.table.query d.synced channel id

/-! ## The answers are exact -/

/-- What the table holds in every history in which batches are issued and bound once. -/
structure Exact (d : Desk) : Prop where
  tracks : d.table.Tracks d.synced d.issued fun seq total => (seq, total) ∈ d.bound
  /-- An entry is of an id that was issued. -/
  entry : ∀ name id seq, Assoc.get (d.table.channel name).pending id = some seq →
    ⟨name, id, seq⟩ ∈ d.issued
  /-- Below the next id all are issued. -/
  ids : ∀ name id, id < (d.table.channel name).nextId → ∃ seq, ⟨name, id, seq⟩ ∈ d.issued
  /-- A watermark is kept until the id of its batch is retired. -/
  kept : ∀ seq total, (seq, total) ∈ d.bound → Assoc.get d.table.watermarks seq = some total ∨
    ∃ x ∈ d.issued, x.seq = seq ∧ x.id < (d.table.channel x.channel).durableFloor
  seqs : (d.issued.map Issued.seq).Nodup

namespace Exact

variable {d : Desk}

theorem start : Desk.start.Exact where
  tracks := AckTable.tracks_new
  entry name id seq h := by simp [Desk.start, AckTable.new, AckTable.channel, Channel.empty] at h
  ids name id h := by simp [Desk.start, AckTable.new, AckTable.channel, Channel.empty] at h
  kept := by simp [Desk.start]
  seqs := List.nodup_nil

theorem issue (h : d.Exact) {channel : Text} {seq : ℕ}
    (hnew : d.once (.issue channel seq) = true) : (d.step (.issue channel seq)).Exact := by
  have hfresh : seq ∉ d.issued.map Issued.seq := by
    intro hmem
    obtain ⟨x, hx, heq⟩ := List.mem_map.mp hmem
    have := List.all_eq_true.mp hnew x hx
    simp [heq] at this
  set id := (d.table.channel channel).nextId with hid
  set opened : Channel :=
    { d.table.channel channel with
      nextId := id + 1
      pending := Assoc.insert (d.table.channel channel).pending id seq } with hopened
  have hretired : opened.Retired d.synced d.table.watermarks
      (opened.retireDurablePrefix d.table.watermarks d.synced).1
      (opened.retireDurablePrefix d.table.watermarks d.synced).2 :=
    Channel.retired_retire _ opened d.table.watermarks
  have hchannel : ∀ name, (d.step (.issue channel seq)).table.channel name =
      if name = channel then (opened.retireDurablePrefix d.table.watermarks d.synced).1
      else d.table.channel name := fun name =>
    AckTable.channel_issue d.table d.synced channel name seq
  have hissued : (d.step (.issue channel seq)).issued = d.issued ++ [⟨channel, id, seq⟩] := rfl
  have hold : ∀ x ∈ d.issued, x ∈ (d.step (.issue channel seq)).issued := by
    intro x hx
    rw [hissued]
    exact List.mem_append_left _ hx
  have hlast : ⟨channel, id, seq⟩ ∈ (d.step (.issue channel seq)).issued := by
    rw [hissued]
    exact List.mem_append_right _ (List.mem_singleton.mpr rfl)
  have hentry : ∀ i s, Assoc.get opened.pending i = some s →
      ⟨channel, i, s⟩ ∈ (d.step (.issue channel seq)).issued := by
    intro i s hget
    simp only [hopened] at hget
    rw [Assoc.get_insert] at hget
    split at hget
    · next heq =>
      rw [heq, ← Option.some.inj hget]
      exact hlast
    · exact hold _ (h.entry channel i s hget)
  refine ⟨h.tracks.issue channel seq, ?_, ?_, ?_, ?_⟩
  · intro name i s hget
    rw [hchannel] at hget
    split at hget
    · next heq =>
      rw [hretired.pending] at hget
      split at hget
      · cases hget
      · rw [heq]
        exact hentry i s hget
    · exact hold _ (h.entry name i s hget)
  · intro name i hlt
    rw [hchannel] at hlt
    split at hlt
    · next heq =>
      rw [hretired.nextId] at hlt
      simp only [hopened] at hlt
      rw [heq]
      by_cases hi : i = id
      · exact ⟨seq, hi ▸ hlast⟩
      · obtain ⟨s, hs⟩ := h.ids channel i (by omega)
        exact ⟨s, hold _ hs⟩
    · obtain ⟨s, hs⟩ := h.ids name i hlt
      exact ⟨s, hold _ hs⟩
  · intro s total hmem
    rcases h.kept s total hmem with hget | ⟨x, hx, hseq, hlt⟩
    · rcases hretired.kept s with heq | ⟨-, i, hle, hlt, hpending⟩
      · exact .inl (heq.trans hget)
      · refine .inr ⟨⟨channel, i, s⟩, hentry i s hpending, rfl, ?_⟩
        rw [hchannel, if_pos rfl]
        exact hlt
    · refine .inr ⟨x, hold x hx, hseq, ?_⟩
      rw [hchannel]
      split
      · next heq =>
        rw [heq] at hlt
        exact lt_of_lt_of_le hlt hretired.floor
      · exact hlt
  · rw [hissued, List.map_append, List.nodup_append]
    refine ⟨h.seqs, by simp, ?_⟩
    intro a ha b hb heq
    obtain rfl : b = seq := by simpa using hb
    exact hfresh (heq ▸ ha)

theorem bind (h : d.Exact) {seq total : ℕ} (hnew : d.once (.bind seq total) = true) :
    (d.step (.bind seq total)).Exact := by
  have hfresh : ∀ w, (seq, w) ∉ d.bound := by
    intro w hmem
    have := List.all_eq_true.mp hnew _ hmem
    simp at this
  refine ⟨?_, h.entry, h.ids, ?_, h.seqs⟩
  · exact (h.tracks.mono le_rfl fun s w hb => List.mem_append_left _ hb).bind
      (List.mem_append_right _ (List.mem_singleton.mpr rfl))
  · intro s w hmem
    show Assoc.get (Assoc.insert d.table.watermarks seq total) s = some w ∨ _
    rw [Assoc.get_insert]
    rcases List.mem_append.mp hmem with hmem | hmem
    · have hne : s ≠ seq := fun heq => hfresh w (heq ▸ hmem)
      rw [if_neg hne]
      exact h.kept s w hmem
    · obtain ⟨rfl, rfl⟩ := Prod.mk.inj (List.mem_singleton.mp hmem)
      rw [if_pos rfl]
      exact .inl rfl

theorem step (h : d.Exact) (op : Op) (hok : d.once op = true) : (d.step op).Exact := by
  cases op with
  | nextBatchSeq => exact ⟨⟨h.tracks.channels, h.tracks.watermarks⟩, h.entry, h.ids, h.kept, h.seqs⟩
  | issue channel seq => exact h.issue hok
  | bind seq total => exact h.bind hok
  | sync records =>
    exact ⟨h.tracks.mono (Nat.le_add_right _ _) fun _ _ hb => hb, h.entry, h.ids, h.kept, h.seqs⟩
  | query channel id => exact h

/-- **The answers are exact** in one state. -/
theorem answer_iff (h : d.Exact) (channel : Text) (id : ℕ) :
    d.answer channel id = true ↔ ∃ seq total, ⟨channel, id, seq⟩ ∈ d.issued ∧
      (seq, total) ∈ d.bound ∧ total ≤ d.synced := by
  constructor
  · intro hanswer
    have hissued : ∃ seq, ⟨channel, id, seq⟩ ∈ d.issued := by
      have hquery := hanswer
      unfold answer AckTable.query at hquery
      split at hquery
      · cases hquery
      · next entry hentry =>
        have heq : d.table.channel channel = entry := by
          rw [AckTable.channel, hentry]
          rfl
        split at hquery
        · next hlt =>
          have hfloor := (h.tracks.channels channel).floor_le
          rw [heq] at hfloor
          exact h.ids channel id (by rw [heq]; omega)
        · cases hget : Assoc.get entry.pending id with
          | none => simp [hget] at hquery
          | some seq => exact ⟨seq, h.entry channel id seq (by rw [heq, hget])⟩
    obtain ⟨seq, hmem⟩ := hissued
    obtain ⟨total, hle, hbound⟩ := h.tracks.query hmem hanswer
    exact ⟨seq, total, hmem, hbound, hle⟩
  · intro hexists
    obtain ⟨seq, total, hmem, hbound, hle⟩ := hexists
    have hchannel := h.tracks.channels channel
    have hlt : id < (d.table.channel channel).nextId := hchannel.lt _ hmem rfl
    unfold answer AckTable.query
    cases hentry : Assoc.get d.table.channels channel with
    | none =>
      have : d.table.channel channel = .empty := by
        rw [AckTable.channel, hentry]
        rfl
      rw [this] at hlt
      exact absurd hlt (Nat.not_lt_zero id)
    | some entry =>
      have heq : d.table.channel channel = entry := by
        rw [AckTable.channel, hentry]
        rfl
      rw [heq] at hchannel
      simp only
      split
      · rfl
      · next hge =>
        have hpending : Assoc.get entry.pending id = some seq :=
          hchannel.pending _ hmem rfl (Nat.le_of_not_lt hge)
        rw [hpending, Option.bind_some]
        rcases h.kept seq total hbound with hget | ⟨x, hx, hseq, hpast⟩
        · rw [hget]
          simpa using hle
        · -- one batch has one id, which is not retired
          have hsame : x = ⟨channel, id, seq⟩ := List.inj_on_of_nodup_map h.seqs hx hmem hseq
          rw [hsame] at hpast
          simp only at hpast
          rw [heq] at hpast
          omega

end Exact

/-- What was issued, bound and synced stays so. -/
theorem run_keeps {d : Desk} {x : Issued} {total : ℕ} (hx : x ∈ d.issued)
    (hbound : (x.seq, total) ∈ d.bound) (hle : total ≤ d.synced) (ops : List Op) :
    x ∈ (Runs.run step d ops).issued ∧ (x.seq, total) ∈ (Runs.run step d ops).bound ∧
      total ≤ (Runs.run step d ops).synced := by
  refine @Runs.run_invariant Desk Op step
    (fun d => x ∈ d.issued ∧ (x.seq, total) ∈ d.bound ∧ total ≤ d.synced) ?_ d ⟨hx, hbound, hle⟩ ops
  intro d op h
  obtain ⟨hx, hbound, hle⟩ := h
  cases op with
  | nextBatchSeq => exact ⟨hx, hbound, hle⟩
  | issue channel seq => exact ⟨List.mem_append_left _ hx, hbound, hle⟩
  | bind seq w => exact ⟨hx, List.mem_append_left _ hbound, hle⟩
  | sync records => exact ⟨hx, hbound, hle.trans (Nat.le_add_right _ _)⟩
  | query channel id => exact ⟨hx, hbound, hle⟩

/-- **A poll answers exactly what is durable, and goes on to.** In every history in which each
batch is issued an id and bound at most once: an id is answered true if and only if it was
issued on this channel for a batch that is bound to a count that is synced, and then it is
answered true after anything that follows. -/
theorem query_exact (ops more : List Op)
    (hops : Runs.Meets step (fun d op => d.once op = true) start (ops ++ more)) (channel : Text)
    (id : ℕ) :
    let d := Runs.run step start ops
    (d.answer channel id = true ↔ ∃ seq total, ⟨channel, id, seq⟩ ∈ d.issued ∧
      (seq, total) ∈ d.bound ∧ total ≤ d.synced) ∧
    (d.answer channel id = true → (Runs.run step d more).answer channel id = true) := by
  intro d
  have hexact : d.Exact := hops.append_left.invariant (fun _ op h hok => h.step op hok) Exact.start
  have hmore : (Runs.run step d more).Exact :=
    hops.append_right.invariant (fun _ op h hok => h.step op hok) hexact
  refine ⟨hexact.answer_iff channel id, ?_⟩
  intro hanswer
  obtain ⟨seq, total, hmem, hbound, hle⟩ := (hexact.answer_iff channel id).mp hanswer
  obtain ⟨hmem, hbound, hle⟩ := run_keeps hmem hbound hle more
  exact (hmore.answer_iff channel id).mpr ⟨seq, total, hmem, hbound, hle⟩

/-- Two batches, the later one bound to a lower count and durable first. -/
theorem query_exact_out_of_order :
    let d := Runs.run step start
      [.issue ['c'] 1, .issue ['c'] 2, .bind 1 500, .bind 2 200, .sync 200]
    d.answer ['c'] 0 = false ∧ d.answer ['c'] 1 = true ∧
      (Runs.run step d [.issue ['c'] 3, .sync 400, .issue ['c'] 4]).answer ['c'] 1 = true := by
  intro d
  have hanswer : d.answer ['c'] 1 = true := by decide
  have hexact := query_exact
    [.issue ['c'] 1, .issue ['c'] 2, .bind 1 500, .bind 2 200, .sync 200]
    [.issue ['c'] 3, .sync 400, .issue ['c'] 4] (by decide) ['c'] 1
  exact ⟨by decide, hanswer, hexact.2 hanswer⟩

/-! ## Room -/

/-- The oldest pending id of a channel is durable. -/
def oldestDurable (d : Desk) (channel : Text) : Bool :=
  let ch := d.table.channel channel
  decide (ch.durableFloor < ch.nextId) &&
    ((Assoc.get ch.pending ch.durableFloor).bind (Assoc.get d.table.watermarks)).any (· ≤ d.synced)

/-- The condition on the steps of a history: an id is issued while the channel is two short of
full, or while its oldest pending id is durable. -/
def roomy (d : Desk) : Op → Bool
  | .issue channel _ =>
    decide ((d.table.channel channel).pending.length + 1 < maxOutstandingPerChannel)
      || d.oldestDurable channel
  | _ => true

/-- An id is issued on a channel with capacity. -/
def guarded (d : Desk) : Op → Bool
  | .issue channel _ => d.table.hasCapacity channel
  | _ => true

/-- Every pending id of the channel is of a batch bound to a count that is synced. -/
def AllDurable (d : Desk) (channel : Text) : Prop :=
  ∀ p ∈ (d.table.channel channel).pending,
    (Assoc.get d.table.watermarks p.2).any (· ≤ d.synced) = true

theorem hasCapacity_iff (d : Desk) (channel : Text) :
    d.table.hasCapacity channel = true ↔
      (d.table.channel channel).pending.length < maxOutstandingPerChannel := by
  rw [AckTable.hasCapacity, AckTable.channel]
  cases Assoc.get d.table.channels channel with
  | none => simp [Channel.empty, maxOutstandingPerChannel]
  | some ch => simp

/-- An issue that meets the condition leaves the channel with capacity. -/
theorem length_pending_issue {d : Desk} {channel : Text} {seq : ℕ}
    (h : (d.table.channel channel).pending.length < maxOutstandingPerChannel)
    (hok : d.roomy (.issue channel seq) = true) :
    ((d.step (.issue channel seq)).table.channel channel).pending.length
      < maxOutstandingPerChannel := by
  have hchannel := AckTable.channel_issue d.table d.synced channel channel seq
  rw [if_pos rfl] at hchannel
  set opened : Channel :=
    { d.table.channel channel with
      nextId := (d.table.channel channel).nextId + 1
      pending := Assoc.insert (d.table.channel channel).pending (d.table.channel channel).nextId
        seq } with hopened
  have hlength : opened.pending.length ≤ (d.table.channel channel).pending.length + 1 :=
    Assoc.length_insert_le ..
  show ((d.table.issue d.synced channel seq).1.channel channel).pending.length < _
  rw [hchannel]
  rcases Bool.or_eq_true_iff.mp hok with hroom | hdurable
  · have hle := (@Channel.retired_retire d.synced (opened.nextId - opened.durableFloor) opened
      d.table.watermarks).length
    exact lt_of_le_of_lt (hle.trans hlength) (of_decide_eq_true hroom)
  · unfold oldestDurable at hdurable
    simp only [Bool.and_eq_true, decide_eq_true_eq] at hdurable
    obtain ⟨hfloor, hany⟩ := hdurable
    cases hget : Assoc.get (d.table.channel channel).pending
        (d.table.channel channel).durableFloor with
    | none => simp [hget] at hany
    | some oldest =>
      rw [hget, Option.bind_some] at hany
      have hoverflow : opened.durableFloor < opened.nextId := Nat.lt_succ_of_lt hfloor
      have holdest : Assoc.get opened.pending opened.durableFloor = some oldest := by
        simp only [hopened]
        rw [Assoc.get_insert, if_neg (by omega)]
        exact hget
      have hlt := Channel.length_retireDurablePrefix_lt hoverflow holdest hany
      omega

theorem pending_run {ops : List Op}
    (h : Runs.Meets step (fun d op => d.roomy op = true) start ops) (channel : Text) :
    ((Runs.run step start ops).table.channel channel).pending.length
      < maxOutstandingPerChannel := by
  refine @Runs.Meets.invariant Desk Op step (fun d op => d.roomy op = true)
    (fun d => ∀ channel, (d.table.channel channel).pending.length < maxOutstandingPerChannel)
    ?_ start ops h ?_ channel
  · intro d op hd hok channel
    cases op with
    | issue name seq =>
      by_cases heq : channel = name
      · subst heq
        exact length_pending_issue (hd channel) hok
      · have hother := AckTable.channel_issue d.table d.synced name channel seq
        rw [if_neg heq] at hother
        show ((d.table.issue d.synced name seq).1.channel channel).pending.length < _
        rw [hother]
        exact hd channel
    | nextBatchSeq => exact hd channel
    | bind seq total => exact hd channel
    | sync records => exact hd channel
    | query name id => exact hd channel
  · intro channel
    simp [start, AckTable.new, AckTable.channel, Channel.empty, maxOutstandingPerChannel]

/-- **A channel that was never full recovers.** In every history whose steps meet `roomy`, a
channel all of whose pending ids are durable has capacity. -/
theorem channel_recovers (ops : List Op)
    (hops : Runs.Meets step (fun d op => d.roomy op = true) start ops) (channel : Text) :
    let d := Runs.run step start ops
    d.AllDurable channel → d.table.hasCapacity channel = true :=
  fun _ => (hasCapacity_iff _ channel).mpr (pending_run hops channel)

/-- What is full stays full: nothing is retired without an issue, and no issue is made. -/
theorem full_forever {d : Desk} {channel : Text} (hfull : d.table.hasCapacity channel = false)
    (ops : List Op) (hops : Runs.Meets step (fun d op => d.guarded op = true) d ops) :
    (Runs.run step d ops).table.hasCapacity channel = false := by
  refine @Runs.Meets.invariant Desk Op step (fun d op => d.guarded op = true)
    (fun d => d.table.hasCapacity channel = false) ?_ d ops hops hfull
  intro d op hd hok
  cases op with
  | issue name seq =>
    have hne : channel ≠ name := by
      intro heq
      rw [guarded, ← heq, hd] at hok
      cases hok
    rw [← Bool.not_eq_true, hasCapacity_iff] at hd ⊢
    have hother := AckTable.channel_issue d.table d.synced name channel seq
    rw [if_neg hne] at hother
    show ¬ ((d.table.issue d.synced name seq).1.channel channel).pending.length < _
    rw [hother]
    exact hd
  | nextBatchSeq => exact hd
  | bind seq total => exact hd
  | sync records => exact hd
  | query name id => exact hd

/-- The first batch is durable before the second one is issued its id. -/
theorem channel_recovers_two :
    let d := Runs.run step start
      [.nextBatchSeq, .issue ['c'] 1, .bind 1 10, .sync 10, .nextBatchSeq, .issue ['c'] 2, .bind 2 10]
    d.AllDurable ['c'] ∧ d.table.hasCapacity ['c'] = true := by
  intro d
  have hdurable : d.AllDurable ['c'] := by
    unfold AllDurable
    decide
  exact ⟨hdurable, channel_recovers [.nextBatchSeq, .issue ['c'] 1, .bind 1 10, .sync 10,
    .nextBatchSeq, .issue ['c'] 2, .bind 2 10] (by decide) ['c'] hdurable⟩

/-! ## A channel that is full -/

/-- `n` posts on one channel. -/
def posts (n : ℕ) : List Op :=
  (List.range n).flatMap fun k => [.nextBatchSeq, .issue ['c'] (k + 1)]

/-- Their batches bound to one record. -/
def binds (n : ℕ) : List Op := (List.range n).map fun k => .bind (k + 1) 1

theorem posts_succ (n : ℕ) : posts (n + 1) = posts n ++ [.nextBatchSeq, .issue ['c'] (n + 1)] := by
  simp [posts, List.range_succ]

/-- While nothing is bound, nothing is retired. -/
theorem table_posts (n : ℕ) :
    (Runs.run step start (posts n)).table.channel ['c']
        = ⟨n, 0, (List.range n).map fun k => (k, k + 1)⟩ ∧
      (Runs.run step start (posts n)).table.watermarks = [] := by
  induction n with
  | zero => exact ⟨rfl, rfl⟩
  | succ n ih =>
    obtain ⟨hchannel, hwatermarks⟩ := ih
    rw [posts_succ, Runs.run_append]
    set d := Runs.run step start (posts n) with hd
    set pending : List (ℕ × ℕ) := (List.range n).map fun k => (k, k + 1) with hpending
    have hinsert : Assoc.insert pending n (n + 1)
        = (List.range (n + 1)).map fun k => (k, k + 1) := by
      rw [Assoc.insert_of_notMem, List.range_succ, List.map_append]
      · rfl
      · simp [hpending]
    have hoverall : Channel.retireDurablePrefix ⟨n + 1, 0, Assoc.insert pending n (n + 1)⟩ [] d.synced
        = (⟨n + 1, 0, Assoc.insert pending n (n + 1)⟩, []) := by
      rw [hinsert, List.range_succ_eq_map]
      rfl
    have hissue : d.table.nextBatchSeq.1.issue d.synced ['c'] (n + 1)
        = ({ d.table.nextBatchSeq.1 with
              channels := Assoc.insert d.table.channels ['c']
                ⟨n + 1, 0, Assoc.insert pending n (n + 1)⟩ }, n) := by
      have hsame : d.table.nextBatchSeq.1.channel ['c'] = ⟨n, 0, pending⟩ := hchannel
      have hnone : d.table.nextBatchSeq.1.watermarks = [] := hwatermarks
      unfold AckTable.issue
      simp only [hsame, hnone, hoverall]
      rfl
    have hstep : Runs.run step d [.nextBatchSeq, .issue ['c'] (n + 1)]
        = { d with
            table :=
              { d.table.nextBatchSeq.1 with
                channels := Assoc.insert d.table.channels ['c']
                  ⟨n + 1, 0, Assoc.insert pending n (n + 1)⟩ }
            issued := d.issued ++ [⟨['c'], n, n + 1⟩] } := by
      simp only [Runs.run_cons, Runs.run_nil, step, hissue]
    rw [hstep]
    refine ⟨?_, hwatermarks⟩
    rw [AckTable.channel, Assoc.get_insert, if_pos rfl, hinsert]
    rfl

theorem guarded_posts {n : ℕ} (h : n ≤ maxOutstandingPerChannel) :
    Runs.Meets step (fun d op => d.guarded op = true) start (posts n) := by
  induction n with
  | zero => exact Runs.Meets.nil _
  | succ n ih =>
    rw [posts_succ]
    refine (ih (by omega)).append ⟨rfl, ?_, trivial⟩
    show ((Runs.run step start (posts n)).step .nextBatchSeq).table.hasCapacity ['c'] = true
    rw [hasCapacity_iff]
    show ((Runs.run step start (posts n)).table.channel ['c']).pending.length < _
    rw [(table_posts n).1]
    simpa using h

/-- Binding changes no channel, and binds. -/
theorem run_binds (d : Desk) (n : ℕ) :
    (Runs.run step d (binds n)).table.channels = d.table.channels ∧
      (Runs.run step d (binds n)).synced = d.synced ∧
      ∀ k < n, Assoc.get (Runs.run step d (binds n)).table.watermarks (k + 1) = some 1 := by
  induction n with
  | zero => exact ⟨rfl, rfl, fun k hk => absurd hk (Nat.not_lt_zero k)⟩
  | succ n ih =>
    obtain ⟨hchannels, hsynced, hget⟩ := ih
    have hsucc : binds (n + 1) = binds n ++ [.bind (n + 1) 1] := by simp [binds, List.range_succ]
    rw [hsucc, Runs.run_concat]
    refine ⟨hchannels, hsynced, fun k hk => ?_⟩
    show Assoc.get (Assoc.insert _ (n + 1) 1) (k + 1) = some 1
    rw [Assoc.get_insert]
    split
    · rfl
    · next hne => exact hget k (by omega)

theorem guarded_binds (d : Desk) (n : ℕ) :
    Runs.Meets step (fun d op => d.guarded op = true) d (binds n ++ [.sync 1]) := by
  have hall : ∀ (ops : List Op), (∀ op ∈ ops, ∀ d : Desk, d.guarded op = true) → ∀ d : Desk,
      Runs.Meets step (fun d op => d.guarded op = true) d ops := by
    intro ops
    induction ops with
    | nil => exact fun _ _ => trivial
    | cons op ops ih =>
      exact fun h d => ⟨h op List.mem_cons_self d, ih (fun o ho => h o (List.mem_cons_of_mem _ ho)) _⟩
  refine hall _ ?_ d
  intro op hop d
  rcases List.mem_append.mp hop with hop | hop
  · obtain ⟨k, -, rfl⟩ := List.mem_map.mp hop
    rfl
  · rw [List.mem_singleton.mp hop]
    rfl

/-- A channel is filled while nothing is bound. Then all is bound and synced, every pending id
is durable, and the channel has no capacity. -/
theorem full_channel_stays_busy :
    ∃ ops, Runs.Meets step (fun d op => d.guarded op = true) start ops ∧
      (Runs.run step start ops).AllDurable ['c'] ∧
      (Runs.run step start ops).table.hasCapacity ['c'] = false := by
  obtain ⟨n, hn⟩ : ∃ n, n = maxOutstandingPerChannel := ⟨_, rfl⟩
  refine ⟨posts n ++ (binds n ++ [.sync 1]), (guarded_posts hn.le).append (guarded_binds _ n), ?_⟩
  rw [Runs.run_append, Runs.run_concat]
  set d := Runs.run step start (posts n) with hd
  have hchannel := (table_posts n).1
  rw [← hd] at hchannel
  obtain ⟨hchannels, -, hget⟩ := run_binds d n
  have hsame : ((Runs.run step d (binds n)).step (.sync 1)).table.channel ['c']
      = d.table.channel ['c'] := by
    show (Assoc.get (Runs.run step d (binds n)).table.channels ['c']).getD _ = _
    rw [hchannels]
    rfl
  constructor
  · intro p hp
    rw [hsame, hchannel] at hp
    obtain ⟨k, hk, rfl⟩ := List.mem_map.mp hp
    show (Assoc.get (Runs.run step d (binds n)).table.watermarks (k + 1)).any
      _ = true
    rw [hget k (List.mem_range.mp hk)]
    simp [step]
  · rw [← Bool.not_eq_true, hasCapacity_iff, hsame, hchannel]
    simp [hn]

end Desk

end LogLess.Hec
