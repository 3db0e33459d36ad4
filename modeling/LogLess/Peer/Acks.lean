import LogLess.Lib.Assoc
import LogLess.Lib.Runs

/-!
# Batches that wait for the log

`WalAcks` tells a request when the write-ahead log has its batch. A request that gave up
leaves the batch's ids behind, and `settle` returns them once the batch is durable after all.

`AckWorld` has the table with the parties around it: the requests, each with a ticket of its
own, the record path that binds the tickets it took, and the log that counts what it has
synced. What is written down beside the state says for every batch that was given up where
its ids are: returned by one call of `settle`, in the table still, or dropped because more
than `MAX_ABANDONED` were waiting.
-/

namespace LogLess.Peer

def maxAbandoned : ℕ := 1024

structure TicketState (ι : Type) where
  /-- The record count that covers the batch. -/
  watermark : Option ℕ
  /-- The ids to save if the batch syncs after its request was answered. -/
  abandoned : Option (List ι)

/-- How a wait ended. -/
inductive WalWait where
  | synced
  | timedOut
  | closed
deriving DecidableEq

structure WalAcks (ι : Type) where
  synced : ℕ
  next : ℕ
  tickets : List (ℕ × TicketState ι)
  abandoned : List ℕ
  closed : Bool

namespace WalAcks

variable {ι : Type}

def new : WalAcks ι := ⟨0, 1, [], [], false⟩

def issue (a : WalAcks ι) : WalAcks ι × ℕ :=
  ({ a with next := a.next + 1, tickets := Assoc.insert a.tickets a.next ⟨none, none⟩ }, a.next)

def forget (a : WalAcks ι) (ticket : ℕ) : WalAcks ι :=
  { a with tickets := Assoc.erase a.tickets ticket }

def bind (a : WalAcks ι) (ticket recordsSubmittedTotal : ℕ) : WalAcks ι :=
  match Assoc.get a.tickets ticket with
  | some t =>
    { a with
      tickets := Assoc.insert a.tickets ticket { t with watermark := some recordsSubmittedTotal } }
  | none => a

def publish (a : WalAcks ι) (syncedRecords : ℕ) : WalAcks ι := { a with synced := syncedRecords }

def close (a : WalAcks ι) : WalAcks ι := { a with closed := true }

/-- `durable`, for the ticket of this number. -/
def durable (a : WalAcks ι) (ticket : ℕ) : Bool :=
  ((Assoc.get a.tickets ticket).bind TicketState.watermark).any (· ≤ a.synced)

/-- Once round the loop of `wait`; `late` says that the deadline has passed. -/
def wake (a : WalAcks ι) (ticket : ℕ) (late : Bool) : WalAcks ι × Option WalWait :=
  if a.closed then (a.forget ticket, some .closed)
  else if a.durable ticket then (a.forget ticket, some .synced)
  else if late then (a, some .timedOut)
  else (a, none)

/-- The oldest tickets are dropped while there are too many. -/
def evict : List ℕ → List (ℕ × TicketState ι) → List ℕ × List (ℕ × TicketState ι)
  | [], tickets => ([], tickets)
  | old :: queue, tickets =>
    if maxAbandoned < (old :: queue).length then evict queue (Assoc.erase tickets old)
    else (old :: queue, tickets)

def abandon (a : WalAcks ι) (ticket : ℕ) (ids : List ι) : WalAcks ι :=
  match Assoc.get a.tickets ticket with
  | none => a
  | some t =>
    let (abandoned, tickets) := evict (a.abandoned ++ [ticket])
      (Assoc.insert a.tickets ticket { t with abandoned := some ids })
    { a with abandoned := abandoned, tickets := tickets }

/-- The loop of `settle` over the tickets given up: those that stay, the table, and the ids. -/
def settleFrom (a : WalAcks ι) : List ℕ → WalAcks ι × List ι
  | [] => ({ a with abandoned := [] }, [])
  | seq :: queue =>
    if a.durable seq then
      let own := ((Assoc.get a.tickets seq).bind TicketState.abandoned).getD []
      let (rest, ids) := (a.forget seq).settleFrom queue
      (rest, own ++ ids)
    else
      let (rest, ids) := a.settleFrom queue
      ({ rest with abandoned := seq :: rest.abandoned }, ids)

def settle (a : WalAcks ι) : WalAcks ι × List ι := a.settleFrom a.abandoned

/-- The batches given up, oldest first, with their ids. -/
def queued (a : WalAcks ι) : List (ℕ × List ι) :=
  a.abandoned.map fun t => (t, ((Assoc.get a.tickets t).bind TicketState.abandoned).getD [])

end WalAcks

/-! ## The parties -/

/-- What a request does with its ticket: it hands the batch over, waits for it, or has waited
long enough. -/
inductive Phase where
  | sending
  | waiting
  | late
deriving DecidableEq

/-- What one call of `settle` did: the count of that moment, the ids it returned, and the
batches that were in the table and are not any more. -/
structure Settled (ι : Type) where
  synced : ℕ
  ids : List ι
  batches : List (ℕ × List ι)

structure AckWorld (ι : Type) where
  acks : WalAcks ι
  /-- The requests that are in flight. -/
  requests : List (ℕ × Phase)
  /-- The tickets that were handed over and are not bound. -/
  pipeline : List ℕ
  /-- What was bound to which count. -/
  bound : List (ℕ × ℕ)
  /-- The batches that were given up, with their ids. -/
  given : List (ℕ × List ι)
  settled : List (Settled ι)
  /-- The batches that went over the bound. -/
  dropped : List (ℕ × List ι)

inductive AckEvent (ι : Type) where
  | issue
  /-- The batch is taken by the pipeline, or is not. -/
  | send (ticket : ℕ) (taken : Bool)
  | bind (ticket total : ℕ)
  /-- The log has synced so many records more. -/
  | sync (more : ℕ)
  | close
  | wake (ticket : ℕ) (late : Bool)
  | abandon (ticket : ℕ) (ids : List ι)
  | settle

namespace AckWorld

variable {ι : Type}

def init : AckWorld ι := ⟨.new, [], [], [], [], [], []⟩

def step (w : AckWorld ι) : AckEvent ι → AckWorld ι
  | .issue =>
    let (acks, ticket) := w.acks.issue
    { w with acks := acks, requests := w.requests ++ [(ticket, .sending)] }
  | .send ticket taken =>
    if Assoc.get w.requests ticket = some .sending then
      if taken then
        { w with
          requests := Assoc.insert w.requests ticket .waiting
          pipeline := w.pipeline ++ [ticket] }
      else
        { w with acks := w.acks.forget ticket, requests := Assoc.erase w.requests ticket }
    else w
  | .bind ticket total =>
    if ticket ∈ w.pipeline then
      { w with
        acks := w.acks.bind ticket total
        pipeline := w.pipeline.erase ticket
        bound := w.bound ++ [(ticket, total)] }
    else w
  | .sync more => { w with acks := w.acks.publish (w.acks.synced + more) }
  | .close => { w with acks := w.acks.close }
  | .wake ticket late =>
    if Assoc.get w.requests ticket = some .waiting then
      let (acks, outcome) := w.acks.wake ticket late
      match outcome with
      | none => { w with acks := acks }
      | some .timedOut =>
        { w with acks := acks, requests := Assoc.insert w.requests ticket .late }
      | some _ => { w with acks := acks, requests := Assoc.erase w.requests ticket }
    else w
  | .abandon ticket ids =>
    if Assoc.get w.requests ticket = some .late then
      let waiting := w.acks.queued ++ [(ticket, ids)]
      { w with
        acks := w.acks.abandon ticket ids
        requests := Assoc.erase w.requests ticket
        given := w.given ++ [(ticket, ids)]
        dropped := w.dropped ++ waiting.take (waiting.length - maxAbandoned) }
    else w
  | .settle =>
    let (acks, ids) := w.acks.settle
    let batches := w.acks.queued.filter fun b => !acks.abandoned.contains b.1
    { w with acks := acks, settled := w.settled ++ [⟨w.acks.synced, ids, batches⟩] }

def run (es : List (AckEvent ι)) : AckWorld ι := Runs.run step init es

/-- The batches that calls of `settle` returned. -/
def returned (w : AckWorld ι) : List (ℕ × List ι) := w.settled.flatMap Settled.batches

end AckWorld

/-! ## What the operations do -/

namespace WalAcks

variable {ι : Type} {a : WalAcks ι} {queue : List ℕ} {tickets : List (ℕ × TicketState ι)}

theorem evict_eq (queue : List ℕ) (tickets : List (ℕ × TicketState ι)) :
    evict queue tickets = (queue.drop (queue.length - maxAbandoned),
      (queue.take (queue.length - maxAbandoned)).foldl Assoc.erase tickets) := by
  induction queue generalizing tickets with
  | nil => rfl
  | cons old queue ih =>
    rw [evict]
    split
    · next hover =>
      rw [List.length_cons] at hover ⊢
      have hcount : queue.length + 1 - maxAbandoned = (queue.length - maxAbandoned) + 1 := by omega
      rw [ih, hcount, List.drop_succ_cons, List.take_succ_cons, List.foldl_cons]
    · next hfits =>
      rw [Nat.sub_eq_zero_of_le (not_lt.mp hfits), List.drop_zero, List.take_zero, List.foldl_nil]

theorem get_foldl_erase (ks : List ℕ) (t : ℕ) :
    Assoc.get (ks.foldl Assoc.erase tickets) t
      = if t ∈ ks then none else Assoc.get tickets t := by
  rw [Assoc.foldl_erase, Assoc.get_filter fun t => ks.all fun k => decide (t ≠ k)]
  by_cases h : t ∈ ks
  · rw [if_pos h, if_neg]
    rw [List.all_eq_true]
    intro hall
    simpa using hall t h
  · rw [if_neg h, if_pos]
    rw [List.all_eq_true]
    intro k hk
    rw [decide_eq_true_eq]
    rintro rfl
    exact h hk

theorem keys_foldl_erase (ks : List ℕ) (t : ℕ) :
    t ∈ (ks.foldl Assoc.erase tickets).map Prod.fst ↔ t ∈ tickets.map Prod.fst ∧ t ∉ ks := by
  rw [← Assoc.isSome_get, ← Assoc.isSome_get, get_foldl_erase]
  by_cases h : t ∈ ks <;> simp [h]

theorem nodup_foldl_erase (h : (tickets.map Prod.fst).Nodup) (ks : List ℕ) :
    ((ks.foldl Assoc.erase tickets).map Prod.fst).Nodup := by
  rw [Assoc.foldl_erase]
  exact h.sublist (List.filter_sublist.map _)

theorem keys_queued (a : WalAcks ι) : a.queued.map Prod.fst = a.abandoned := by
  rw [queued, List.map_map]
  exact List.map_id _

/-- The batches given up are the same if their entries in the table are. -/
theorem queued_congr {b : WalAcks ι} (hqueue : b.abandoned = a.abandoned)
    (hsame : ∀ t ∈ a.abandoned, (Assoc.get b.tickets t).bind TicketState.abandoned
      = (Assoc.get a.tickets t).bind TicketState.abandoned) : b.queued = a.queued := by
  rw [queued, queued, hqueue]
  refine List.map_congr_left fun t ht => ?_
  rw [hsame t ht]

theorem durable_forget {seq t : ℕ} (h : t ≠ seq) : (a.forget seq).durable t = a.durable t := by
  rw [durable, forget, Assoc.get_erase, if_neg h]
  rfl

/-- What `settle` leaves: the tickets that are not durable stay, and the ids of the others are
returned in the order they were given up. -/
theorem settleFrom_eq (h : queue.Nodup) : a.settleFrom queue =
    ({ a with
       abandoned := queue.filter fun t => !a.durable t
       tickets := (queue.filter fun t => a.durable t).foldl Assoc.erase a.tickets },
     (queue.filter fun t => a.durable t).flatMap fun t =>
       ((Assoc.get a.tickets t).bind TicketState.abandoned).getD []) := by
  induction queue generalizing a with
  | nil => rfl
  | cons seq queue ih =>
    obtain ⟨hfresh, hnodup⟩ := List.nodup_cons.mp h
    have hne : ∀ t ∈ queue, t ≠ seq := by
      rintro t ht rfl
      exact hfresh ht
    rw [settleFrom]
    by_cases hdurable : a.durable seq = true
    · have hsame : ∀ t ∈ queue, (a.forget seq).durable t = a.durable t :=
        fun t ht => durable_forget (hne t ht)
      have hkept : queue.filter (fun t => !(a.forget seq).durable t)
          = queue.filter fun t => !a.durable t :=
        List.filter_congr fun t ht => by rw [hsame t ht]
      have hgone : queue.filter (fun t => (a.forget seq).durable t)
          = queue.filter fun t => a.durable t :=
        List.filter_congr fun t ht => by rw [hsame t ht]
      have hids : ((queue.filter fun t => a.durable t).flatMap fun t =>
            ((Assoc.get (a.forget seq).tickets t).bind TicketState.abandoned).getD [])
          = (queue.filter fun t => a.durable t).flatMap fun t =>
            ((Assoc.get a.tickets t).bind TicketState.abandoned).getD [] := by
        refine List.flatMap_congr fun t ht => ?_
        rw [forget, Assoc.get_erase, if_neg (hne t (List.mem_filter.mp ht).1)]
      rw [if_pos hdurable, ih hnodup, hkept, hgone, hids]
      simp [hdurable, forget]
    · rw [if_neg hdurable, ih hnodup]
      simp [hdurable]

theorem settle_eq (h : a.abandoned.Nodup) : a.settle =
    ({ a with
       abandoned := a.abandoned.filter fun t => !a.durable t
       tickets := (a.abandoned.filter fun t => a.durable t).foldl Assoc.erase a.tickets },
     (a.queued.filter fun b => a.durable b.1).flatMap Prod.snd) := by
  have hids : (a.abandoned.filter fun t => a.durable t).flatMap (fun t =>
      ((Assoc.get a.tickets t).bind TicketState.abandoned).getD [])
      = (a.queued.filter fun b => a.durable b.1).flatMap Prod.snd := by
    rw [queued, List.filter_map, List.flatMap_map]
    rfl
  rw [settle, settleFrom_eq h, hids]

theorem queued_settle (h : a.abandoned.Nodup) :
    a.settle.1.queued = a.queued.filter fun b => !a.durable b.1 := by
  have hstay : a.queued.filter (fun b => !a.durable b.1)
      = (a.abandoned.filter fun t => !a.durable t).map fun t =>
        (t, ((Assoc.get a.tickets t).bind TicketState.abandoned).getD []) := by
    rw [queued, List.filter_map]
    rfl
  rw [hstay, settle_eq h, queued]
  refine List.map_congr_left fun t ht => ?_
  have hstays : t ∉ a.abandoned.filter fun t => a.durable t := by
    intro hgone
    have hdurable := (List.mem_filter.mp hgone).2
    have hnot := (List.mem_filter.mp ht).2
    rw [Bool.not_eq_true'] at hnot
    rw [hnot] at hdurable
    cases hdurable
  rw [get_foldl_erase, if_neg hstays]

/-- The batches that leave the table are those that are durable. -/
theorem left_settle (h : a.abandoned.Nodup) :
    (a.queued.filter fun b => !a.settle.1.abandoned.contains b.1)
      = a.queued.filter fun b => a.durable b.1 := by
  refine List.filter_congr fun b hb => ?_
  have hmem : b.1 ∈ a.abandoned := by
    rw [← keys_queued]
    exact List.mem_map_of_mem hb
  rw [settle_eq h, Bool.eq_iff_iff, Bool.not_eq_true', ← Bool.not_eq_true, List.contains_iff_mem,
    List.mem_filter]
  simp [hmem]

end WalAcks

namespace WalAcks

variable {ι : Type} {a : WalAcks ι}

theorem bind_frame (a : WalAcks ι) (ticket total : ℕ) :
    (a.bind ticket total).abandoned = a.abandoned ∧ (a.bind ticket total).next = a.next ∧
      (a.bind ticket total).synced = a.synced := by
  rw [bind]
  split <;> exact ⟨rfl, rfl, rfl⟩

/-- A turn of the wait loop ends the wait or leaves the table as it is. -/
theorem wake_cases (a : WalAcks ι) (ticket : ℕ) (late : Bool) :
    a.wake ticket late = (a.forget ticket, some .closed) ∨
      a.wake ticket late = (a.forget ticket, some .synced) ∨
      a.wake ticket late = (a, some .timedOut) ∨ a.wake ticket late = (a, none) := by
  unfold wake
  by_cases hclosed : a.closed = true
  · exact .inl (if_pos hclosed)
  · rw [if_neg hclosed]
    by_cases hdurable : a.durable ticket = true
    · exact .inr (.inl (if_pos hdurable))
    · rw [if_neg hdurable]
      cases late with
      | true => exact .inr (.inr (.inl rfl))
      | false => exact .inr (.inr (.inr rfl))

theorem abandon_eq {ticket : ℕ} {t : TicketState ι} (h : Assoc.get a.tickets ticket = some t)
    (ids : List ι) : a.abandon ticket ids =
      { a with
        abandoned :=
          (a.abandoned ++ [ticket]).drop ((a.abandoned ++ [ticket]).length - maxAbandoned)
        tickets := ((a.abandoned ++ [ticket]).take
          ((a.abandoned ++ [ticket]).length - maxAbandoned)).foldl Assoc.erase
            (Assoc.insert a.tickets ticket { t with abandoned := some ids }) } := by
  rw [abandon, h]
  simp only [evict_eq]

/-- A batch more is given up, and the oldest ones go over the bound. -/
theorem queued_abandon {ticket : ℕ} {t : TicketState ι} (h : Assoc.get a.tickets ticket = some t)
    (hnodup : (a.abandoned ++ [ticket]).Nodup) (ids : List ι) : (a.abandon ticket ids).queued
      = (a.queued ++ [(ticket, ids)]).drop
        ((a.queued ++ [(ticket, ids)]).length - maxAbandoned) := by
  have hlength : (a.queued ++ [(ticket, ids)]).length = (a.abandoned ++ [ticket]).length := by
    simp [queued]
  have hfresh : ticket ∉ a.abandoned := by
    intro hmem
    exact (List.nodup_append.mp hnodup).2.2 ticket hmem ticket (List.mem_singleton.mpr rfl) rfl
  have hall : (a.abandoned ++ [ticket]).map (fun x => (x, ((Assoc.get (Assoc.insert a.tickets ticket
      { t with abandoned := some ids }) x).bind TicketState.abandoned).getD []))
      = a.queued ++ [(ticket, ids)] := by
    rw [List.map_append, queued]
    refine congrArg₂ _ (List.map_congr_left fun x hx => ?_) ?_
    · have hne : x ≠ ticket := by
        rintro rfl
        exact hfresh hx
      rw [Assoc.get_insert, if_neg hne]
    · simp [Assoc.get_insert]
  rw [hlength, ← hall, ← List.map_drop, abandon_eq h, queued]
  generalize (a.abandoned ++ [ticket]).length - maxAbandoned = k
  refine List.map_congr_left fun x hx => ?_
  have hkept : x ∉ (a.abandoned ++ [ticket]).take k := by
    intro hgone
    exact List.disjoint_take_drop hnodup le_rfl hgone hx
  simp only [get_foldl_erase, if_neg hkept]

end WalAcks

namespace AckWorld

variable {ι : Type} {w : AckWorld ι}

/-- What holds in every state: the tickets in the table are those of the requests in flight and
those given up, and every batch that was given up is in one place. -/
structure Inv (w : AckWorld ι) : Prop where
  tickets : (w.acks.tickets.map Prod.fst).Nodup
  mem : ∀ t, t ∈ w.acks.tickets.map Prod.fst ↔ t ∈ w.requests.map Prod.fst ∨ t ∈ w.acks.abandoned
  apart : (w.requests.map Prod.fst ++ w.given.map Prod.fst).Nodup
  conserved : w.given.Perm (w.returned ++ w.dropped ++ w.acks.queued)
  few : w.acks.abandoned.length ≤ maxAbandoned
  fresh : ∀ t, t ∈ w.requests.map Prod.fst ∨ t ∈ w.given.map Prod.fst ∨ t ∈ w.pipeline ∨
    t ∈ w.bound.map Prod.fst → t < w.acks.next
  bound : (w.pipeline ++ w.bound.map Prod.fst).Nodup
  unsent : ∀ t, Assoc.get w.requests t = some .sending →
    t ∉ w.pipeline ∧ t ∉ w.bound.map Prod.fst
  watermark : ∀ t ticket, Assoc.get w.acks.tickets t = some ticket →
    ticket.watermark = Assoc.get w.bound t
  settled : ∀ s ∈ w.settled, s.ids = s.batches.flatMap Prod.snd ∧
    ∀ b ∈ s.batches, ∃ n ≤ s.synced, (b.1, n) ∈ w.bound

namespace Inv

theorem init : (init : AckWorld ι).Inv where
  tickets := List.nodup_nil
  mem := by simp [AckWorld.init, WalAcks.new]
  apart := List.nodup_nil
  conserved := List.Perm.refl _
  few := Nat.zero_le _
  fresh := by simp [AckWorld.init]
  bound := List.nodup_nil
  unsent := by simp [AckWorld.init]
  watermark := by simp [AckWorld.init, WalAcks.new]
  settled := by simp [AckWorld.init]

variable (h : w.Inv)
include h

theorem nodup_given : (w.given.map Prod.fst).Nodup := (List.nodup_append.mp h.apart).2.1

theorem nodup_places : ((w.returned ++ w.dropped).map Prod.fst ++ w.acks.abandoned).Nodup := by
  have hperm := h.conserved.map Prod.fst
  rw [List.map_append, WalAcks.keys_queued] at hperm
  exact hperm.nodup_iff.mp h.nodup_given

theorem nodup_abandoned : w.acks.abandoned.Nodup := (List.nodup_append.mp h.nodup_places).2.1

theorem mem_given {t : ℕ} (ht : t ∈ w.acks.abandoned) : t ∈ w.given.map Prod.fst := by
  have hperm := h.conserved.map Prod.fst
  rw [List.map_append, WalAcks.keys_queued] at hperm
  exact hperm.mem_iff.mpr (List.mem_append_right _ ht)

theorem not_request {t : ℕ} (ht : t ∈ w.acks.abandoned) : t ∉ w.requests.map Prod.fst := by
  intro hreq
  exact (List.nodup_append.mp h.apart).2.2 t hreq t (h.mem_given ht) rfl

theorem ne_next {t : ℕ} (ht : t ∈ w.requests.map Prod.fst ∨ t ∈ w.given.map Prod.fst ∨
    t ∈ w.pipeline ∨ t ∈ w.bound.map Prod.fst) : t ≠ w.acks.next := (h.fresh t ht).ne

theorem next_notMem : w.acks.next ∉ w.acks.tickets.map Prod.fst := by
  intro hmem
  rcases (h.mem _).mp hmem with hreq | hgiven
  · exact h.ne_next (.inl hreq) rfl
  · exact h.ne_next (.inr (.inl (h.mem_given hgiven))) rfl

/-- A ticket for a new request. -/
theorem issue : (w.step .issue).Inv := by
  have hkeys : ∀ t, t ∈ (Assoc.insert w.acks.tickets w.acks.next ⟨none, none⟩).map Prod.fst ↔
      t = w.acks.next ∨ t ∈ w.acks.tickets.map Prod.fst := fun t => Assoc.mem_keys_insert
  have hqueued : w.acks.issue.1.queued = w.acks.queued := by
    refine WalAcks.queued_congr rfl fun t ht => ?_
    rw [WalAcks.issue, Assoc.get_insert, if_neg (h.ne_next (.inr (.inl (h.mem_given ht))))]
  exact
    { tickets := Assoc.nodup_keys_insert h.tickets _ _
      mem := by
        intro t
        simp only [step, WalAcks.issue, hkeys, h.mem, List.map_append, List.mem_append,
          List.map_cons, List.map_nil, List.mem_singleton]
        tauto
      apart := by
        simp only [step, WalAcks.issue, List.map_append, List.map_cons, List.map_nil]
        rw [List.append_assoc, List.singleton_append]
        refine List.nodup_middle.mpr (List.nodup_cons.mpr ⟨?_, h.apart⟩)
        intro hmem
        rcases List.mem_append.mp hmem with hreq | hgiven
        · exact h.ne_next (.inl hreq) rfl
        · exact h.ne_next (.inr (.inl hgiven)) rfl
      conserved := by
        have hplaces := h.conserved
        rwa [← hqueued] at hplaces
      few := h.few
      fresh := by
        intro t ht
        simp only [step, WalAcks.issue, List.map_append, List.mem_append, List.map_cons,
          List.map_nil, List.mem_singleton] at ht ⊢
        by_cases hnew : t = w.acks.next
        · omega
        · have hold := h.fresh t (by tauto)
          omega
      bound := h.bound
      unsent := by
        intro t ht
        by_cases hnew : t = w.acks.next
        · exact ⟨fun hmem => h.ne_next (.inr (.inr (.inl hmem))) hnew,
            fun hmem => h.ne_next (.inr (.inr (.inr hmem))) hnew⟩
        · simp only [step, WalAcks.issue] at ht
          rw [Assoc.get_append] at ht
          have hnone : Assoc.get [(w.acks.next, Phase.sending)] t = none := by
            simp [Assoc.get, Ne.symm hnew]
          rw [hnone, Option.or_none] at ht
          exact h.unsent t ht
      watermark := by
        intro t ticket ht
        simp only [step, WalAcks.issue] at ht
        rw [Assoc.get_insert] at ht
        split at ht
        · next hnew =>
          have hunbound : Assoc.get w.bound t = none := by
            rw [← Option.not_isSome_iff_eq_none, Assoc.isSome_get]
            intro hmem
            exact h.ne_next (.inr (.inr (.inr hmem))) hnew
          rw [← Option.some.inj ht]
          exact hunbound.symm
        · exact h.watermark t ticket ht
      settled := h.settled }

/-- A request that is answered takes its ticket out of the table. -/
theorem leave {ticket : ℕ} (hreq : ticket ∈ w.requests.map Prod.fst) :
    ({ w with
       acks := w.acks.forget ticket
       requests := Assoc.erase w.requests ticket } : AckWorld ι).Inv := by
  have hne : ∀ t ∈ w.acks.abandoned, t ≠ ticket := by
    rintro t ht rfl
    exact h.not_request ht hreq
  have hqueued : (w.acks.forget ticket).queued = w.acks.queued := by
    refine WalAcks.queued_congr rfl fun t ht => ?_
    rw [WalAcks.forget, Assoc.get_erase, if_neg (hne t ht)]
  have hsub : ∀ t, t ∈ (Assoc.erase w.requests ticket).map Prod.fst →
      t ∈ w.requests.map Prod.fst := by
    intro t ht
    rw [Assoc.keys_erase] at ht
    exact (List.mem_filter.mp ht).1
  exact
    { tickets := Assoc.nodup_keys_erase h.tickets ticket
      mem := by
        intro t
        simp only [WalAcks.forget, Assoc.keys_erase, List.mem_filter, h.mem, decide_eq_true_eq]
        constructor
        · rintro ⟨hmem | hmem, hother⟩
          · exact .inl ⟨hmem, hother⟩
          · exact .inr hmem
        · rintro (⟨hmem, hother⟩ | hmem)
          · exact ⟨.inl hmem, hother⟩
          · exact ⟨.inr hmem, hne t hmem⟩
      apart := by
        simp only [Assoc.keys_erase]
        exact h.apart.sublist (List.Sublist.append List.filter_sublist (List.Sublist.refl _))
      conserved := by
        have hplaces := h.conserved
        rwa [← hqueued] at hplaces
      few := h.few
      fresh := by
        intro t ht
        exact h.fresh t (ht.imp_left (hsub t))
      bound := h.bound
      unsent := by
        intro t ht
        simp only [Assoc.get_erase] at ht
        split at ht
        · cases ht
        · exact h.unsent t ht
      watermark := by
        intro t x ht
        simp only [WalAcks.forget, Assoc.get_erase] at ht
        split at ht
        · cases ht
        · exact h.watermark t x ht
      settled := h.settled }

/-- A request goes on to another phase. -/
theorem turn {ticket : ℕ} {phase : Phase} (hreq : ticket ∈ w.requests.map Prod.fst)
    (hphase : phase ≠ .sending) :
    ({ w with requests := Assoc.insert w.requests ticket phase } : AckWorld ι).Inv := by
  have hkeys : ∀ t, t ∈ (Assoc.insert w.requests ticket phase).map Prod.fst ↔
      t ∈ w.requests.map Prod.fst := by
    intro t
    rw [Assoc.mem_keys_insert]
    refine ⟨?_, .inr⟩
    rintro (rfl | ht)
    · exact hreq
    · exact ht
  obtain ⟨hrequests, hgiven, hdisjoint⟩ := List.nodup_append.mp h.apart
  exact
    { tickets := h.tickets
      mem := by
        intro t
        rw [hkeys]
        exact h.mem t
      apart := by
        refine List.nodup_append.mpr ⟨Assoc.nodup_keys_insert hrequests _ _, hgiven, ?_⟩
        intro t ht
        exact hdisjoint t ((hkeys t).mp ht)
      conserved := h.conserved
      few := h.few
      fresh := by
        intro t ht
        exact h.fresh t (ht.imp_left (hkeys t).mp)
      bound := h.bound
      unsent := by
        intro t ht
        simp only [Assoc.get_insert] at ht
        split at ht
        · exact absurd (Option.some.inj ht) hphase
        · exact h.unsent t ht
      watermark := h.watermark
      settled := h.settled }

/-- The pipeline takes a batch, or the request is answered at once. -/
theorem send (ticket : ℕ) (taken : Bool) : (w.step (.send ticket taken)).Inv := by
  rw [step]
  split
  swap
  · exact h
  next hsending =>
  have hreq := Assoc.mem_keys_of_get hsending
  cases taken with
  | false => exact h.leave hreq
  | true =>
    obtain ⟨hpipeline, hbound⟩ := h.unsent ticket hsending
    have hturned := h.turn hreq (show Phase.waiting ≠ .sending by decide)
    exact
      { hturned with
        fresh := by
          intro t ht
          rcases ht with ht | ht | ht | ht
          · exact hturned.fresh t (.inl ht)
          · exact hturned.fresh t (.inr (.inl ht))
          · rcases List.mem_append.mp ht with ht | ht
            · exact hturned.fresh t (.inr (.inr (.inl ht)))
            · rw [List.mem_singleton.mp ht]
              exact h.fresh ticket (.inl hreq)
          · exact hturned.fresh t (.inr (.inr (.inr ht)))
        bound := by
          simp only [if_true]
          rw [List.append_assoc, List.singleton_append]
          refine List.nodup_middle.mpr (List.nodup_cons.mpr ⟨?_, h.bound⟩)
          intro hmem
          exact (List.mem_append.mp hmem).elim hpipeline hbound
        unsent := by
          intro t ht
          simp only [if_true, Assoc.get_insert] at ht
          split at ht
          · cases ht
          · next hother =>
            obtain ⟨hout, hunbound⟩ := h.unsent t ht
            refine ⟨?_, hunbound⟩
            simp only [if_true, List.mem_append, List.mem_singleton]
            rintro (hmem | heq)
            · exact hout hmem
            · exact hother heq }

/-- The record path binds a ticket it took: only watermarks change. -/
theorem bindTicket (ticket total : ℕ) : (w.step (.bind ticket total)).Inv := by
  rw [step]
  split
  swap
  · exact h
  next hpipe =>
  obtain ⟨hpipeline, hbound, hdisjoint⟩ := List.nodup_append.mp h.bound
  have hunbound : ticket ∉ w.bound.map Prod.fst := fun hmem => hdisjoint ticket hpipe ticket hmem rfl
  have hget : ∀ t, Assoc.get (w.bound ++ [(ticket, total)]) t
      = if t = ticket then some total else Assoc.get w.bound t := by
    intro t
    rw [← Assoc.insert_of_notMem hunbound, Assoc.get_insert]
  -- what an entry of the table becomes
  have hentry : ∀ t, Assoc.get (w.acks.bind ticket total).tickets t
      = (Assoc.get w.acks.tickets t).map fun x =>
        if t = ticket then { x with watermark := some total } else x := by
    intro t
    rw [WalAcks.bind]
    split
    · next x hx =>
      rw [Assoc.get_insert]
      split
      · next heq => rw [heq, hx, Option.map_some]
      · exact Option.map_id'.symm
    · next hx =>
      split
      · next heq => rw [heq, hx, Option.map_none]
      · exact Option.map_id'.symm
  have hkeys : ∀ t, t ∈ (w.acks.bind ticket total).tickets.map Prod.fst ↔
      t ∈ w.acks.tickets.map Prod.fst := by
    intro t
    rw [← Assoc.isSome_get, ← Assoc.isSome_get, hentry, Option.isSome_map]
  obtain ⟨hqueue, hnext, -⟩ := w.acks.bind_frame ticket total
  have hqueued : (w.acks.bind ticket total).queued = w.acks.queued := by
    refine WalAcks.queued_congr hqueue fun t _ => ?_
    rw [hentry]
    cases Assoc.get w.acks.tickets t with
    | none => rfl
    | some x =>
      simp only [Option.map_some, Option.bind_some]
      split <;> rfl
  have hsub : ∀ t, t ∈ w.pipeline.erase ticket → t ∈ w.pipeline := fun t => List.mem_of_mem_erase
  exact
    { tickets := by
        simp only [WalAcks.bind]
        split
        · exact Assoc.nodup_keys_insert h.tickets _ _
        · exact h.tickets
      mem := by
        intro t
        rw [hkeys, hqueue]
        exact h.mem t
      apart := h.apart
      conserved := by
        have hplaces := h.conserved
        rwa [← hqueued] at hplaces
      few := by
        rw [hqueue]
        exact h.few
      fresh := by
        intro t ht
        rw [hnext]
        rcases ht with ht | ht | ht | ht
        · exact h.fresh t (.inl ht)
        · exact h.fresh t (.inr (.inl ht))
        · exact h.fresh t (.inr (.inr (.inl (hsub t ht))))
        · simp only [List.map_append, List.mem_append, List.map_cons, List.map_nil,
            List.mem_singleton] at ht
          rcases ht with ht | rfl
          · exact h.fresh t (.inr (.inr (.inr ht)))
          · exact h.fresh t (.inr (.inr (.inl hpipe)))
      bound := by
        simp only [List.map_append, List.map_cons, List.map_nil]
        rw [← List.append_assoc]
        refine List.nodup_append.mpr ⟨?_, List.nodup_singleton _, ?_⟩
        · exact h.bound.sublist (List.Sublist.append List.erase_sublist (List.Sublist.refl _))
        · intro t ht t' ht'
          rw [List.mem_singleton.mp ht']
          rintro rfl
          rcases List.mem_append.mp ht with ht | ht
          · exact (hpipeline.not_mem_erase) ht
          · exact hunbound ht
      unsent := by
        intro t ht
        obtain ⟨hout, hfree⟩ := h.unsent t ht
        refine ⟨fun hmem => hout (hsub t hmem), ?_⟩
        simp only [List.map_append, List.mem_append, List.map_cons, List.map_nil,
          List.mem_singleton]
        rintro (hmem | rfl)
        · exact hfree hmem
        · exact hout hpipe
      watermark := by
        intro t x ht
        rw [hentry] at ht
        obtain ⟨y, hy, rfl⟩ := Option.map_eq_some_iff.mp ht
        rw [hget]
        by_cases heq : t = ticket
        · rw [if_pos heq, if_pos heq]
        · rw [if_neg heq, if_neg heq]
          exact h.watermark t y hy
      settled := by
        intro s hs
        obtain ⟨hids, hdurable⟩ := h.settled s hs
        refine ⟨hids, fun b hb => ?_⟩
        obtain ⟨n, hn, hmem⟩ := hdurable b hb
        exact ⟨n, hn, List.mem_append_left _ hmem⟩ }

/-- A turn of the wait loop. -/
theorem wake (ticket : ℕ) (late : Bool) : (w.step (.wake ticket late)).Inv := by
  rw [step]
  split
  swap
  · exact h
  next hwaiting =>
  have hreq := Assoc.mem_keys_of_get hwaiting
  rcases w.acks.wake_cases ticket late with hwake | hwake | hwake | hwake
  · simp only [hwake]
    exact h.leave hreq
  · simp only [hwake]
    exact h.leave hreq
  · simp only [hwake]
    exact h.turn hreq (by decide)
  · simp only [hwake]
    exact h

/-- A request that waited long enough leaves its ids in the table. -/
theorem abandon (ticket : ℕ) (ids : List ι) : (w.step (.abandon ticket ids)).Inv := by
  rw [step]
  split
  swap
  · exact h
  next hlate =>
  have hreq := Assoc.mem_keys_of_get hlate
  have hticket : ticket ∈ w.acks.tickets.map Prod.fst := (h.mem ticket).mpr (.inl hreq)
  rw [← Assoc.isSome_get] at hticket
  obtain ⟨x, hx⟩ := Option.isSome_iff_exists.mp hticket
  obtain ⟨hrequests, hgiven, hdisjoint⟩ := List.nodup_append.mp h.apart
  have hfresh : ticket ∉ w.acks.abandoned := fun hmem => h.not_request hmem hreq
  have hnodup : (w.acks.abandoned ++ [ticket]).Nodup := by
    refine List.nodup_append.mpr ⟨h.nodup_abandoned, List.nodup_singleton _, ?_⟩
    rintro t ht t' ht' rfl
    exact hfresh (List.mem_singleton.mp ht' ▸ ht)
  have hacks := WalAcks.abandon_eq hx ids
  have hqueued := WalAcks.queued_abandon hx hnodup ids
  have hsub : ∀ t, t ∈ (Assoc.erase w.requests ticket).map Prod.fst →
      t ∈ w.requests.map Prod.fst := by
    intro t ht
    rw [Assoc.keys_erase] at ht
    exact (List.mem_filter.mp ht).1
  refine
    { tickets := ?_, mem := ?_, apart := ?_, conserved := ?_, few := ?_, fresh := ?_,
      bound := h.bound, unsent := ?_, watermark := ?_, settled := h.settled }
  · simp only [hacks]
    exact WalAcks.nodup_foldl_erase (Assoc.nodup_keys_insert h.tickets _ _) _
  · intro t
    simp only [hacks]
    generalize (w.acks.abandoned ++ [ticket]).length - maxAbandoned = k
    have hsplit := List.take_append_drop k (w.acks.abandoned ++ [ticket])
    have hapart : ∀ t, t ∈ (w.acks.abandoned ++ [ticket]).take k →
        t ∉ (w.acks.abandoned ++ [ticket]).drop k :=
      fun t ht hd => List.disjoint_take_drop hnodup le_rfl ht hd
    have hmem : t ∈ w.acks.abandoned ∨ t = ticket ↔
        t ∈ (w.acks.abandoned ++ [ticket]).take k ∨ t ∈ (w.acks.abandoned ++ [ticket]).drop k := by
      rw [← List.mem_append, hsplit, List.mem_append, List.mem_singleton]
    have hnot : t ∈ w.acks.abandoned ∨ t = ticket → ¬ (t ∈ w.requests.map Prod.fst ∧ t ≠ ticket) := by
      rintro (hqueue | rfl) ⟨hmem, hne⟩
      · exact h.not_request hqueue hmem
      · exact hne rfl
    rw [WalAcks.keys_foldl_erase, Assoc.mem_keys_insert, h.mem, Assoc.keys_erase, List.mem_filter,
      decide_eq_true_eq]
    have hdrop := hapart t
    by_cases heq : t = ticket <;> tauto
  · simp only [Assoc.keys_erase, List.map_append, List.map_cons, List.map_nil]
    rw [← List.append_assoc]
    refine List.nodup_append.mpr ⟨?_, List.nodup_singleton _, ?_⟩
    · exact h.apart.sublist (List.Sublist.append List.filter_sublist (List.Sublist.refl _))
    · intro t ht t' ht'
      rw [List.mem_singleton.mp ht']
      rintro rfl
      rcases List.mem_append.mp ht with ht | ht
      · simpa using (List.mem_filter.mp ht).2
      · exact hdisjoint t hreq t ht rfl
  · simp only [hqueued]
    generalize (w.acks.queued ++ [(ticket, ids)]).length - maxAbandoned = k
    have hsplit := List.take_append_drop k (w.acks.queued ++ [(ticket, ids)])
    have hplaces := h.conserved.append_right [(ticket, ids)]
    rw [List.append_assoc, ← hsplit] at hplaces
    simpa only [AckWorld.returned, List.append_assoc] using hplaces
  · simp only [hacks, List.length_drop]
    omega
  · intro t ht
    have hnext : (w.acks.abandon ticket ids).next = w.acks.next := by rw [hacks]
    simp only [hnext]
    rcases ht with ht | ht | ht | ht
    · exact h.fresh t (.inl (hsub t ht))
    · simp only [List.map_append, List.mem_append, List.map_cons, List.map_nil,
        List.mem_singleton] at ht
      rcases ht with ht | rfl
      · exact h.fresh t (.inr (.inl ht))
      · exact h.fresh t (.inl hreq)
    · exact h.fresh t (.inr (.inr (.inl ht)))
    · exact h.fresh t (.inr (.inr (.inr ht)))
  · intro t ht
    simp only [Assoc.get_erase] at ht
    split at ht
    · cases ht
    · exact h.unsent t ht
  · intro t y ht
    simp only [hacks, WalAcks.get_foldl_erase, Assoc.get_insert] at ht
    split at ht
    · cases ht
    · split at ht
      · next heq =>
        rw [← Option.some.inj ht, heq]
        exact h.watermark ticket x hx
      · exact h.watermark t y ht

/-- A call of `settle` takes the durable batches out of the table. -/
theorem settle : (w.step .settle).Inv := by
  have hnodup := h.nodup_abandoned
  have hacks := WalAcks.settle_eq hnodup
  have hqueued := WalAcks.queued_settle hnodup
  have hleft := WalAcks.left_settle hnodup
  refine
    { tickets := ?_, mem := ?_, apart := h.apart, conserved := ?_, few := ?_, fresh := ?_,
      bound := h.bound, unsent := h.unsent, watermark := ?_, settled := ?_ }
  · simp only [step, hacks]
    exact WalAcks.nodup_foldl_erase h.tickets _
  · intro t
    simp only [step, hacks]
    rw [WalAcks.keys_foldl_erase, h.mem, List.mem_filter, List.mem_filter]
    by_cases hqueue : t ∈ w.acks.abandoned
    · have hnot := h.not_request hqueue
      simp [hqueue, hnot]
    · simp [hqueue]
  · have hplaces : (w.step .settle).returned = w.returned
        ++ w.acks.queued.filter fun b => w.acks.durable b.1 := by
      simp only [step, AckWorld.returned, List.flatMap_append, List.flatMap_cons,
        List.flatMap_nil, List.append_nil, hleft]
    have hdropped : (w.step .settle).dropped = w.dropped := rfl
    have hstay : (w.step .settle).acks.queued = w.acks.queued.filter fun b => !w.acks.durable b.1 :=
      hqueued
    have hsplit := List.filter_append_perm (fun b => w.acks.durable b.1) w.acks.queued
    rw [hplaces, hdropped, hstay]
    refine h.conserved.trans ((hsplit.symm.append_left _).trans ?_)
    rw [← List.append_assoc]
    refine List.Perm.append_right _ ?_
    rw [List.append_assoc, List.append_assoc]
    exact List.perm_append_comm.append_left _
  · simp only [step, hacks]
    exact (List.length_filter_le _ _).trans h.few
  · simp only [step, hacks]
    exact h.fresh
  · intro t x ht
    simp only [step, hacks, WalAcks.get_foldl_erase] at ht
    split at ht
    · cases ht
    · exact h.watermark t x ht
  · intro s hs
    simp only [step, List.mem_append, List.mem_singleton] at hs
    rcases hs with hs | rfl
    · exact h.settled s hs
    · simp only [hleft]
      refine ⟨by rw [hacks], fun b hb => ?_⟩
      have hdurable := (List.mem_filter.mp hb).2
      obtain ⟨n, hn, hle⟩ := (Option.any_eq_true _ _).mp hdurable
      obtain ⟨x, hx, hmark⟩ := Option.bind_eq_some_iff.mp hn
      rw [h.watermark b.1 x hx] at hmark
      exact ⟨n, by simpa using hle, Assoc.mem_of_get hmark⟩

end Inv

/-- Every step keeps the invariant. -/
theorem inv_step (w : AckWorld ι) (e : AckEvent ι) (h : w.Inv) : (w.step e).Inv := by
  cases e with
  | issue => exact h.issue
  | send ticket taken => exact h.send ticket taken
  | bind ticket total => exact h.bindTicket ticket total
  | sync more => exact { h with }
  | close => exact { h with }
  | wake ticket late => exact h.wake ticket late
  | abandon ticket ids => exact h.abandon ticket ids
  | settle => exact h.settle

/-! ## Abandoned batches settle once -/

/-- Every batch that was given up is returned by one call of `settle`, is in the table, or was
dropped for the bound; `settle` returned it when its count was synced; and the table holds no
more than the tickets in flight and the bound. -/
structure SettlesOnce (w : AckWorld ι) : Prop where
  once : (w.given.map Prod.fst).Nodup
  conserved : w.given.Perm (w.returned ++ w.dropped ++ w.acks.queued)
  bound : (w.bound.map Prod.fst).Nodup
  settled : ∀ s ∈ w.settled, s.ids = s.batches.flatMap Prod.snd ∧
    ∀ b ∈ s.batches, ∃ n ≤ s.synced, (b.1, n) ∈ w.bound
  present : ∀ t ∈ w.acks.abandoned, t ∈ w.acks.tickets.map Prod.fst
  few : (w.acks.tickets.map Prod.fst).Nodup ∧
    w.acks.tickets.length ≤ w.requests.length + maxAbandoned

theorem Inv.settlesOnce (h : w.Inv) : w.SettlesOnce where
  once := h.nodup_given
  conserved := h.conserved
  bound := (List.nodup_append.mp h.bound).2.1
  settled := h.settled
  present := fun t ht => (h.mem t).mpr (.inr ht)
  few := by
    refine ⟨h.tickets, ?_⟩
    have hsub : w.acks.tickets.map Prod.fst ⊆ w.requests.map Prod.fst ++ w.acks.abandoned := by
      intro t ht
      exact List.mem_append.mpr ((h.mem t).mp ht)
    have hle := (List.subperm_of_subset h.tickets hsub).length_le
    rw [List.length_append, List.length_map, List.length_map] at hle
    exact hle.trans (Nat.add_le_add_left h.few _)

/-- No step takes back what was given up, bound or synced, and only a batch that is given up
joins the table's list. -/
structure Onward (w w' : AckWorld ι) : Prop where
  given : w.given <+: w'.given
  bound : w.bound <+: w'.bound
  synced : w.acks.synced ≤ w'.acks.synced
  queue : ∀ t ∈ w'.acks.abandoned, t ∈ w.acks.abandoned ∨ t ∉ w.given.map Prod.fst

theorem Onward.refl (w : AckWorld ι) : w.Onward w :=
  ⟨List.prefix_refl _, List.prefix_refl _, le_rfl, fun _ ht => .inl ht⟩

theorem Onward.trans {w' w'' : AckWorld ι} (h : w.Onward w') (h' : w'.Onward w'') :
    w.Onward w'' where
  given := h.given.trans h'.given
  bound := h.bound.trans h'.bound
  synced := h.synced.trans h'.synced
  queue := by
    intro t ht
    rcases h'.queue t ht with ht | hnew
    · exact h.queue t ht
    · exact .inr fun hmem => hnew ((h.given.map Prod.fst).subset hmem)

theorem Inv.onward (h : w.Inv) (e : AckEvent ι) : w.Onward (w.step e) := by
  have hsame : ∀ {w' : AckWorld ι}, w'.given = w.given → w'.bound = w.bound →
      w'.acks.synced = w.acks.synced → w'.acks.abandoned = w.acks.abandoned → w.Onward w' := by
    intro w' hgiven hbound hsynced hqueue
    exact ⟨hgiven ▸ List.prefix_refl _, hbound ▸ List.prefix_refl _, hsynced.ge,
      fun t ht => .inl (hqueue ▸ ht)⟩
  cases e with
  | issue => exact hsame rfl rfl rfl rfl
  | send ticket taken =>
    rw [step]
    split
    · cases taken <;> exact hsame rfl rfl rfl rfl
    · exact .refl w
  | bind ticket total =>
    rw [step]
    split
    · obtain ⟨hqueue, -, hsynced⟩ := w.acks.bind_frame ticket total
      exact ⟨List.prefix_refl _, List.prefix_append _ _, hsynced.ge, fun t ht => .inl (hqueue ▸ ht)⟩
    · exact .refl w
  | sync more =>
    exact ⟨List.prefix_refl _, List.prefix_refl _, Nat.le_add_right _ _, fun t ht => .inl ht⟩
  | close => exact hsame rfl rfl rfl rfl
  | wake ticket late =>
    rw [step]
    split
    · rcases w.acks.wake_cases ticket late with hwake | hwake | hwake | hwake <;>
        simp only [hwake] <;> exact hsame rfl rfl rfl rfl
    · exact .refl w
  | abandon ticket ids =>
    rw [step]
    split
    swap
    · exact .refl w
    next hlate =>
    have hreq := Assoc.mem_keys_of_get hlate
    have hticket := (h.mem ticket).mpr (.inl hreq)
    rw [← Assoc.isSome_get] at hticket
    obtain ⟨x, hx⟩ := Option.isSome_iff_exists.mp hticket
    have hacks := WalAcks.abandon_eq hx ids
    refine ⟨List.prefix_append _ _, List.prefix_refl _, by rw [hacks], ?_⟩
    intro t ht
    simp only [hacks] at ht
    rcases List.mem_append.mp (List.mem_of_mem_drop ht) with ht | ht
    · exact .inl ht
    · right
      intro hgiven
      exact (List.nodup_append.mp h.apart).2.2 ticket hreq t hgiven (List.mem_singleton.mp ht).symm
  | settle =>
    have hacks := WalAcks.settle_eq h.nodup_abandoned
    refine ⟨List.prefix_refl _, List.prefix_refl _, by simp only [step, hacks, le_refl], ?_⟩
    intro t ht
    simp only [step, hacks] at ht
    exact .inl (List.mem_filter.mp ht).1

theorem Inv.onward_run (h : w.Inv) (es : List (AckEvent ι)) : w.Onward (Runs.run step w es) := by
  induction es generalizing w with
  | nil => exact .refl w
  | cons e es ih => exact (h.onward e).trans (ih (inv_step w e h))

theorem Inv.run (h : w.Inv) (es : List (AckEvent ι)) : (Runs.run step w es).Inv :=
  @Runs.run_invariant _ _ step Inv inv_step w h es

/-- After a call of `settle` no batch is in the table that was durable before it. -/
theorem Inv.settle_durable (h : w.Inv) {t n : ℕ} (hbound : (t, n) ∈ w.bound)
    (hn : n ≤ w.acks.synced) : t ∉ (w.step .settle).acks.abandoned := by
  simp only [step, WalAcks.settle_eq h.nodup_abandoned]
  intro hmem
  obtain ⟨hqueue, hnot⟩ := List.mem_filter.mp hmem
  have hticket := (h.mem t).mpr (.inr hqueue)
  rw [← Assoc.isSome_get] at hticket
  obtain ⟨x, hx⟩ := Option.isSome_iff_exists.mp hticket
  have hmark := h.watermark t x hx
  rw [(Assoc.get_eq_some_iff (List.nodup_append.mp h.bound).2.1).mpr hbound] at hmark
  simp [WalAcks.durable, hx, hmark, hn] at hnot

/-- In every run each abandoned batch settles once, when its watermark is synced; and one that
is durable has been returned after the next call of `settle`, if it was not dropped. -/
theorem abandoned_settle_once (es : List (AckEvent ι)) : (run es).SettlesOnce ∧
    ∀ fs t n, t ∈ (run es).given.map Prod.fst → (t, n) ∈ (run es).bound →
      n ≤ (run es).acks.synced → .settle ∈ fs →
      t ∈ (run (es ++ fs)).returned.map Prod.fst ∨ t ∈ (run (es ++ fs)).dropped.map Prod.fst := by
  have hinv : (run es).Inv := Inv.init.run es
  refine ⟨hinv.settlesOnce, ?_⟩
  intro fs t n hgiven hbound hn hsettle
  obtain ⟨before, after, rfl⟩ := List.append_of_mem hsettle
  have hrun : run (es ++ (before ++ .settle :: after))
      = Runs.run step ((Runs.run step (run es) before).step .settle) after := by
    rw [run, Runs.run_append, Runs.run_append]
    rfl
  rw [hrun]
  have hmid := hinv.run before
  have hbefore := hinv.onward_run before
  generalize Runs.run step (run es) before = m at hmid hbefore
  have hout := hmid.settle_durable (hbefore.bound.subset hbound) (hn.trans hbefore.synced)
  have hsettled := inv_step m .settle hmid
  have hgiven' : t ∈ (m.step .settle).given.map Prod.fst :=
    ((hbefore.given.trans (hmid.onward .settle).given).map Prod.fst).subset hgiven
  have hafter := hsettled.onward_run after
  have hlast := hsettled.run after
  generalize Runs.run step (m.step .settle) after = l at hafter hlast
  have hplaces := (hlast.conserved.map Prod.fst).mem_iff.mp
    ((hafter.given.map Prod.fst).subset hgiven')
  rw [List.map_append, List.map_append, WalAcks.keys_queued] at hplaces
  rcases List.mem_append.mp hplaces with hplace | hqueue
  · exact List.mem_append.mp hplace
  · rcases hafter.queue t hqueue with hold | hnew
    · exact absurd hold hout
    · exact absurd hgiven' hnew

/-- A batch is bound and synced after its request was answered. -/
theorem abandoned_settle_once_late :
    let es : List (AckEvent ℕ) := [.issue, .send 1 true, .wake 1 true, .abandon 1 [7, 8],
      .bind 1 2, .sync 2]
    1 ∈ (run (es ++ [.settle])).returned.map Prod.fst ∨
      1 ∈ (run (es ++ [.settle])).dropped.map Prod.fst := by
  intro es
  exact (abandoned_settle_once es).2 [.settle] 1 2 (by decide) (by decide) (by decide) (by simp)

example : (run [.issue, .send 1 true, .wake 1 true, .abandon 1 [7, 8], .bind 1 2, .sync 2,
    .settle, .settle]).settled.map Settled.ids = [[7, 8], []] := by
  decide

end AckWorld

end LogLess.Peer
