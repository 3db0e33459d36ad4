import LogLess.Forward.Dispatch
import LogLess.Outbound.Delivery

/-!
# The forward spool

An error is spooled before it is dispatched, and the cursor of the spool moves behind it after.
What a run left behind is replayed by the next one before anything new: the records that the
spool returns are dispatched one after another, and the cursor is set behind the last of them.

A replay reads 4096 records at most, and the loop that follows commits whatever it reads next.
A record that lies behind the first 4096 is passed without being dispatched.
-/

namespace LogLess.Forward

open Frames (Bytes)
open LogLess.Outbound (Cursor History Seg Spool ends ends_append headerBytes)

/-- How many records `replay_spool` reads. -/
def replayMax : ℕ := 4096

/-- How many records the loop reads after each error. -/
def liveMax : ℕ := 256

/-- A record of the spool and the cursor at which it ends. -/
abbrev Entry := Cursor × Bytes

/-- Where the forwarding thread stands. -/
inductive Phase where
  | down
  /-- In `replay_spool`: what is left to dispatch, and where the last record ends that was taken. -/
  | replaying (pending : List Entry) (last : Option Cursor)
  | waiting
  /-- An error was received and pushed, and is not dispatched yet. -/
  | pushed (item : Outbound) (entries : List Entry)
  | handled

/-- The records that the phase still has to dispatch. -/
def Phase.rest : Phase → List Entry
  | .replaying pending _ => pending
  | .pushed _ entries => entries
  | _ => []

/-- The spool, the thread and the records that were handed to a dispatcher: in earlier runs, and
in this one in the order of dispatch. -/
structure Feed where
  history : History
  opened : Bool
  dispatch : Dispatch
  phase : Phase
  earlier : List Entry
  now : List Entry

inductive FeedEvent where
  /-- A process starts, after one that left `cut` bytes of the last segment. Its spool may fail
  to read. -/
  | start (cut : ℕ) (reads : Bool) (dispatch : Dispatch)
  | replay (clock : ℕ)
  | commitReplay (writes : Bool)
  | receive (item : Outbound)
  | handle (clock : ℕ)
  | commit (writes : Bool)
  | flush (clock : ℕ) (force : Bool)

namespace Feed

variable (hash : Bytes → UInt32) (encode : Outbound → Option Bytes)
  (decode : Bytes → Option Outbound)

/-- A spool as a process finds it: what its cursor has passed was handed over. -/
def found (h : History) : Feed where
  history := h
  opened := false
  dispatch := .new [] 0
  phase := .down
  earlier := h.log.filter fun e => !h.spool.cursor.before e
  now := []

/-- The start of the thread, up to the `peek` of `replay_spool`. -/
def start (f : Feed) (cut : ℕ) (reads : Bool) (dispatch : Dispatch) : Feed :=
  let dir := f.history.spool.crash cut
  let opened := (Spool.open dir f.history.spool.config).toBool
  let h := f.history.step hash (.reopen cut)
  { history := h
    opened := opened
    dispatch := dispatch
    phase := .replaying (if opened && reads then h.spool.peek hash replayMax else []) none
    earlier := (f.earlier ++ f.now).filter dir.holds
    now := [] }

/-- One turn of the loop of `replay_spool`. -/
def replayOne (f : Feed) (clock : ℕ) : Feed :=
  match f.phase with
  | .replaying (e :: pending) _ =>
    match decode e.2 with
    | some item =>
      { f with
        dispatch := f.dispatch.handle clock item
        phase := .replaying pending (some e.1)
        now := f.now ++ [e] }
    -- a record this build cannot read must not wedge the queue behind it forever
    | none => { f with phase := .replaying pending (some e.1) }
  | _ => f

def commitReplay (f : Feed) (writes : Bool) : Feed :=
  match f.phase with
  | .replaying [] (some cursor) =>
    { f with
      history := if writes then f.history.step hash (.commit cursor) else f.history
      phase := .waiting }
  | .replaying [] none => { f with phase := .waiting }
  | _ => f

/-- An error is received and pushed. -/
def receive (f : Feed) (item : Outbound) : Feed :=
  match f.phase with
  | .waiting =>
    let h :=
      match f.opened, encode item with
      | true, some bytes => f.history.step hash (.push bytes)
      | _, _ => f.history
    { f with history := h, phase := .pushed item (h.log.drop f.history.log.length) }
  | _ => f

def handle (f : Feed) (clock : ℕ) : Feed :=
  match f.phase with
  | .pushed item entries =>
    { f with
      dispatch := f.dispatch.handle clock item
      phase := .handled
      now := f.now ++ entries }
  | _ => f

/-- The commit after an error was dispatched. -/
def commit (f : Feed) (writes : Bool) : Feed :=
  match f.phase with
  | .handled =>
    let h :=
      match f.opened && writes, (f.history.spool.peek hash liveMax).getLast? with
      | true, some e => f.history.step hash (.commit e.1)
      | _, _ => f.history
    { f with history := h, phase := .waiting }
  | _ => f

def flush (f : Feed) (clock : ℕ) (force : Bool) : Feed :=
  match f.phase with
  | .waiting => { f with dispatch := f.dispatch.flushIfDue clock force }
  | _ => f

def step (f : Feed) : FeedEvent → Feed
  | .start cut reads dispatch => f.start hash cut reads dispatch
  | .replay clock => f.replayOne decode clock
  | .commitReplay writes => f.commitReplay hash writes
  | .receive item => f.receive hash encode item
  | .handle clock => f.handle clock
  | .commit writes => f.commit hash writes
  | .flush clock force => f.flush clock force

/-! ## What the cursor passes -/

/-- The record was handed to a dispatcher, or cannot be read. -/
def Done (f : Feed) (e : Entry) : Prop := e ∈ f.earlier ++ f.now ∨ decode e.2 = none

/-- The cursor has passed only records that were handed over, and this run hands them over in the
order of the spool. -/
def Safe (f : Feed) : Prop :=
  (∀ e ∈ f.history.log, f.history.spool.cursor.before e = false → f.Done decode e) ∧
    f.now.Sublist f.history.log

/-- At a start the records that the replay does not read were handed over before, a record is
pushed behind whole frames, and cursors are pairs of `u64`. -/
def Fine (f : Feed) : FeedEvent → Prop
  | .start cut reads _ =>
    let h := f.history.step hash (.reopen cut)
    ∀ e ∈ (h.log.filter h.spool.cursor.before).drop (if reads then replayMax else 0), f.Done decode e
  | .receive item =>
    ∀ bytes, encode item = some bytes → bytes.length ≤ f.history.spool.config.maxRecordBytes →
      f.history.Ok hash (.push bytes)
  | .commitReplay _ => ∀ e ∈ f.history.log, e.1.segment < 2 ^ 64 ∧ e.1.offset < 2 ^ 64
  | .commit _ => ∀ e ∈ f.history.log, e.1.segment < 2 ^ 64 ∧ e.1.offset < 2 ^ 64
  | _ => True

structure Inv (f : Feed) : Prop where
  history : f.history.Inv hash
  passed : ∀ e ∈ f.history.log, f.history.spool.cursor.before e = false → f.Done decode e
  order : (f.now ++ f.phase.rest).Sublist f.history.log
  /-- Once the thread runs, every record was handed over or is about to be. -/
  kept : f.phase ≠ .down → ∀ e ∈ f.history.log, f.Done decode e ∨ e ∈ f.phase.rest
  read : ∀ pending last, f.phase = .replaying pending last →
    last.toList ++ pending.map Prod.fst ⊆ (f.history.spool.peek hash replayMax).map Prod.fst

variable {hash encode decode} {f : Feed} {h : History}

/-! ### The spool under the thread -/

theorem peek_eq (H : h.Inv hash) (max : ℕ) :
    h.spool.peek hash max = (h.log.filter h.spool.cursor.before).take max := by
  obtain ⟨segs, first, last, gone, H⟩ := H
  exact H.peek_eq max

/-- A restart opens the spool at the cursor it had, without the records that the crash cut. -/
theorem reopen_spec (H : h.Inv hash) (cut : ℕ) :
    (Spool.open (h.spool.crash cut) h.spool.config).toBool = true ∧
      (h.step hash (.reopen cut)).log = h.log.filter (h.spool.crash cut).holds ∧
      (h.step hash (.reopen cut)).spool.cursor = h.spool.cursor := by
  obtain ⟨segs, first, last, gone, H⟩ := H
  obtain ⟨init, rfl⟩ := List.getLast?_eq_some_iff.mp H.getLast
  obtain ⟨s, segs', first', last', gone', hs, hcursor, -⟩ := H.reopen cut
  rw [History.step, hs]
  exact ⟨rfl, rfl, hcursor⟩

theorem cursor_roll (s : Spool) :
    s.roll.1.cursor = s.cursor ∧ s.roll.1.writeSegment = s.writeSegment + 1 := by
  unfold Spool.roll
  simp only
  split <;> exact ⟨rfl, rfl⟩

/-- A push leaves the cursor, and what it adds to the log lies behind the cursor. -/
theorem push_spec (H : h.Inv hash) {p : Bytes} (hok : h.Ok hash (.push p)) :
    (h.step hash (.push p)).spool.cursor = h.spool.cursor ∧
      ∃ entries, (h.step hash (.push p)).log = h.log ++ entries ∧
        ∀ e ∈ entries, h.spool.cursor.before e = true := by
  obtain ⟨segs, first, last, gone, H⟩ := H
  have hsegment : h.spool.cursor.segment ≤ h.spool.writeSegment := by
    rw [H.cursor.1, H.writeSegment]
    exact H.dir.id_le H.getLast (List.mem_of_head? H.head)
  obtain ⟨-, hok⟩ := hok
  have hsame : h.log = h.log ++ [] := (List.append_nil h.log).symm
  rw [History.step, Spool.push]
  by_cases hlarge : h.spool.config.maxRecordBytes < p.length
  · rw [if_pos hlarge]
    exact ⟨rfl, [], hsame, by simp⟩
  · rw [if_neg hlarge]
    by_cases hfull : h.spool.config.maxTotalBytes < h.spool.totalBytes + p.length
    · rw [if_pos hfull]
      exact ⟨rfl, [], hsame, by simp⟩
    · rw [if_neg hfull]
      by_cases hroll : h.spool.rolls p.length = true
      · -- the record is the first of a new segment
        obtain ⟨hcursor, hwrite⟩ := cursor_roll h.spool
        rw [if_pos hroll]
        rcases hr : h.spool.roll with ⟨s, e | u⟩
        · rw [hr] at hcursor
          exact ⟨hcursor, [], hsame, by simp⟩
        · rw [hr] at hcursor hwrite
          refine ⟨hcursor, [(⟨s.writeSegment, _⟩, p)], rfl, ?_⟩
          intro e he
          rw [List.mem_singleton.mp he]
          have hlt : h.spool.cursor.segment < s.writeSegment := by
            have hnext : s.writeSegment = h.spool.writeSegment + 1 := hwrite
            omega
          simp [Cursor.before, hlt]
      · -- or it follows the frames of the last one, which the cursor is not past
        obtain ⟨-, hpast⟩ : h.spool.wholeTail hash = true ∧ h.spool.cursorPast = false := by
          tauto
        rw [if_neg hroll]
        refine ⟨rfl, [(⟨h.spool.writeSegment, h.spool.writeOffset + _⟩, p)], rfl, ?_⟩
        intro e he
        rw [List.mem_singleton.mp he]
        have hpos : 0 < (Frames.frame hash p).length := by
          rw [Frames.length_frame]
          omega
        simp only [Spool.cursorPast, Bool.and_eq_false_iff, beq_eq_false_iff_ne,
          decide_eq_false_iff_not] at hpast
        simp only [Cursor.before, Bool.or_eq_true, decide_eq_true_eq, Bool.and_eq_true, beq_iff_eq]
        rw [H.writer] at hpast
        rw [H.writeSegment] at hsegment ⊢
        omega

/-- A push that is too large changes nothing. -/
theorem push_tooLarge {p : Bytes} (hp : h.spool.config.maxRecordBytes < p.length) :
    h.step hash (.push p) = h := by
  rw [History.step, Spool.push, if_pos hp]

/-! ### One step -/

theorem Done.mono {f' : Feed} {e : Entry} (h : f.Done decode e)
    (hsub : f.earlier ++ f.now ⊆ f'.earlier ++ f'.now) : f'.Done decode e := by
  rcases h with h | h
  · exact .inl (hsub h)
  · exact .inr h

theorem Inv.start (hf : f.Inv hash decode) {cut : ℕ} {reads : Bool} {dispatch : Dispatch}
    (hfine : f.Fine hash encode decode (.start cut reads dispatch)) :
    (f.start hash cut reads dispatch).Inv hash decode := by
  obtain ⟨hopen, hlog, hcursor⟩ := reopen_spec hf.history cut
  have hinv : (f.history.step hash (.reopen cut)).Inv hash :=
    History.inv_step f.history (.reopen cut) hf.history trivial
  have hdone : ∀ e ∈ (f.history.step hash (.reopen cut)).log, f.Done decode e →
      (f.start hash cut reads dispatch).Done decode e := by
    intro e he hdone
    rw [hlog] at he
    rcases hdone with hhanded | hunread
    · left
      show e ∈ (f.earlier ++ f.now).filter _ ++ []
      rw [List.append_nil]
      exact List.mem_filter.mpr ⟨hhanded, (List.mem_filter.mp he).2⟩
    · exact .inr hunread
  have hpassed : ∀ e ∈ (f.history.step hash (.reopen cut)).log,
      (f.history.step hash (.reopen cut)).spool.cursor.before e = false → f.Done decode e := by
    intro e he hbehind
    rw [hlog] at he
    rw [hcursor] at hbehind
    exact hf.passed e (List.mem_filter.mp he).1 hbehind
  have hrest : (f.start hash cut reads dispatch).phase.rest
      = if reads then (f.history.step hash (.reopen cut)).spool.peek hash replayMax else [] := by
    show (if (Spool.open _ _).toBool && reads then _ else _) = _
    rw [hopen, Bool.true_and]
  refine ⟨hinv, fun e he hbehind => hdone e he (hpassed e he hbehind), ?_, ?_, ?_⟩
  · rw [hrest]
    show List.Sublist ([] ++ _) _
    rw [List.nil_append]
    split
    · rw [peek_eq hinv]
      exact (List.take_sublist _ _).trans List.filter_sublist
    · exact List.nil_sublist _
  · intro _ e he
    by_cases hbehind : (f.history.step hash (.reopen cut)).spool.cursor.before e = true
    · -- the records after the cursor are those that are read now and those behind them
      have hafter := List.mem_filter.mpr ⟨he, hbehind⟩
      rw [← List.take_append_drop (if reads then replayMax else 0)
        (List.filter _ _), List.mem_append] at hafter
      rcases hafter with hread | hlater
      · right
        rw [hrest]
        cases reads with
        | true =>
          rw [if_pos rfl, peek_eq hinv]
          exact hread
        | false => cases hread
      · exact .inl (hdone e he (hfine e hlater))
    · rw [Bool.not_eq_true] at hbehind
      exact .inl (hdone e he (hpassed e he hbehind))
  · intro pending last hphase
    have hpending : pending = (f.start hash cut reads dispatch).phase.rest := by rw [hphase]; rfl
    have hlast : last = none := (Phase.replaying.inj hphase).2.symm
    rw [hpending, hrest, hlast]
    show _ ⊆ ((f.history.step hash (.reopen cut)).spool.peek hash replayMax).map Prod.fst
    split <;> simp

theorem Inv.replayOne (hf : f.Inv hash decode) (clock : ℕ) :
    (f.replayOne decode clock).Inv hash decode := by
  unfold Feed.replayOne
  split
  · next e pending last hphase =>
    have hrun : f.phase ≠ .down := by rw [hphase]; exact Phase.noConfusion
    have horder := hf.order
    have hkept := hf.kept hrun
    have hread := hf.read _ _ hphase
    rw [hphase] at horder hkept
    have hread' : (some e.1).toList ++ pending.map Prod.fst
        ⊆ (f.history.spool.peek hash replayMax).map Prod.fst := by
      intro c hc
      exact hread (List.mem_append_right _ hc)
    split
    · next item _ =>
      have hmono : f.earlier ++ f.now ⊆ f.earlier ++ (f.now ++ [e]) := by
        rw [← List.append_assoc]
        exact List.subset_append_left _ _
      refine ⟨hf.history, fun x hx hbehind => (hf.passed x hx hbehind).mono hmono, ?_, ?_, ?_⟩
      · show List.Sublist (f.now ++ [e] ++ pending) _
        rw [List.append_assoc]
        exact horder
      · intro _ x hx
        rcases hkept x hx with hdone | hrest
        · exact .inl (hdone.mono hmono)
        · rcases List.mem_cons.mp hrest with rfl | hrest
          · exact .inl (.inl (by simp))
          · exact .inr hrest
      · rintro _ _ ⟨⟩
        exact hread'
    · next hnone =>
      refine ⟨hf.history, hf.passed, ?_, ?_, ?_⟩
      · exact ((List.Sublist.refl f.now).append (List.sublist_cons_self e pending)).trans horder
      · intro _ x hx
        rcases hkept x hx with hdone | hrest
        · exact .inl hdone
        · rcases List.mem_cons.mp hrest with rfl | hrest
          · exact .inl (.inr hnone)
          · exact .inr hrest
      · rintro _ _ ⟨⟩
        exact hread'
  · exact hf

/-- A commit at a cursor that `peek` returns, once every record was handed over. -/
theorem Inv.commitAt (hf : f.Inv hash decode) (hrun : f.phase ≠ .down) (hrest : f.phase.rest = [])
    (hfits : ∀ e ∈ f.history.log, e.1.segment < 2 ^ 64 ∧ e.1.offset < 2 ^ 64) {max : ℕ}
    {c : Cursor} (hc : c ∈ (f.history.spool.peek hash max).map Prod.fst) :
    ({ f with history := f.history.step hash (.commit c), phase := .waiting } : Feed).Inv
      hash decode := by
  have hkept := hf.kept hrun
  have horder := hf.order
  rw [hrest] at hkept horder
  have hdone : ∀ e ∈ f.history.log, f.Done decode e := by
    intro e he
    rcases hkept e he with h | h
    · exact h
    · cases h
  have hok : f.history.Ok hash (.commit c) := by
    obtain ⟨e, he, rfl⟩ := List.mem_map.mp hc
    have hlog : e ∈ f.history.log := by
      rw [peek_eq hf.history] at he
      exact (List.mem_filter.mp (List.mem_of_mem_take he)).1
    exact ⟨(hfits e hlog).1, (hfits e hlog).2, max, hc⟩
  refine ⟨History.inv_step f.history (.commit c) hf.history hok, fun e he _ => hdone e he, horder,
    fun _ e he => .inl (hdone e he), ?_⟩
  rintro _ _ ⟨⟩

/-- The thread waits for the next error, with nothing left to hand over. -/
theorem Inv.wait (hf : f.Inv hash decode) (hrun : f.phase ≠ .down) (hrest : f.phase.rest = []) :
    ({ f with phase := .waiting } : Feed).Inv hash decode := by
  have hkept := hf.kept hrun
  have horder := hf.order
  rw [hrest] at hkept horder
  exact ⟨hf.history, hf.passed, horder, fun _ => hkept, by rintro _ _ ⟨⟩⟩

theorem Inv.commitReplay (hf : f.Inv hash decode) {writes : Bool}
    (hfine : f.Fine hash encode decode (.commitReplay writes)) :
    (f.commitReplay hash writes).Inv hash decode := by
  unfold Feed.commitReplay
  split
  · next c hphase =>
    have hrun : f.phase ≠ .down := by rw [hphase]; exact Phase.noConfusion
    have hrest : f.phase.rest = [] := by rw [hphase]; rfl
    cases writes with
    | true =>
      apply hf.commitAt hrun hrest hfine
      exact hf.read _ _ hphase (by simp)
    | false => exact hf.wait hrun hrest
  · next hphase =>
    apply hf.wait
    · rw [hphase]; exact Phase.noConfusion
    · rw [hphase]; rfl
  · exact hf

theorem Inv.receive (hf : f.Inv hash decode) {item : Outbound}
    (hfine : f.Fine hash encode decode (.receive item)) :
    (f.receive hash encode item).Inv hash decode := by
  unfold Feed.receive
  split
  · next hphase =>
    have hrun : f.phase ≠ .down := by rw [hphase]; exact Phase.noConfusion
    have hkept := hf.kept hrun
    have horder := hf.order
    rw [hphase] at hkept horder
    rw [show Phase.waiting.rest = [] from rfl, List.append_nil] at horder
    -- what the push makes of the spool
    generalize hh : (match f.opened, encode item with
      | true, some bytes => f.history.step hash (.push bytes)
      | _, _ => f.history) = h
    have hspec : h.Inv hash ∧ h.spool.cursor = f.history.spool.cursor ∧
        ∃ entries, h.log = f.history.log ++ entries ∧
          ∀ e ∈ entries, f.history.spool.cursor.before e = true := by
      have hsame : f.history.log = f.history.log ++ [] := (List.append_nil f.history.log).symm
      split at hh
      · next bytes _ hbytes =>
        rw [← hh]
        by_cases hlarge : f.history.spool.config.maxRecordBytes < bytes.length
        · rw [push_tooLarge hlarge]
          exact ⟨hf.history, rfl, [], hsame, by simp⟩
        · have hok := hfine bytes hbytes (Nat.le_of_not_lt hlarge)
          exact ⟨History.inv_step f.history (.push bytes) hf.history hok, push_spec hf.history hok⟩
      · rw [← hh]
        exact ⟨hf.history, rfl, [], hsame, by simp⟩
    obtain ⟨hinv, hcursor, entries, hlog, hafter⟩ := hspec
    have hnew : h.log.drop f.history.log.length = entries := by rw [hlog, List.drop_left]
    simp only [hnew]
    refine ⟨hinv, ?_, ?_, ?_, ?_⟩
    · intro e he hbehind
      rw [hcursor] at hbehind
      rw [hlog] at he
      rcases List.mem_append.mp he with he | he
      · exact hf.passed e he hbehind
      · rw [hafter e he] at hbehind
        cases hbehind
    · show List.Sublist (f.now ++ entries) h.log
      rw [hlog]
      exact horder.append (List.Sublist.refl entries)
    · intro _ e he
      rw [hlog] at he
      rcases List.mem_append.mp he with he | he
      · rcases hkept e he with hdone | hrest
        · exact .inl hdone
        · cases hrest
      · exact .inr he
    · rintro _ _ ⟨⟩
  · exact hf

theorem Inv.handle (hf : f.Inv hash decode) (clock : ℕ) : (f.handle clock).Inv hash decode := by
  unfold Feed.handle
  split
  · next item entries hphase =>
    have hrun : f.phase ≠ .down := by rw [hphase]; exact Phase.noConfusion
    have hkept := hf.kept hrun
    have horder := hf.order
    rw [hphase] at hkept horder
    have hmono : f.earlier ++ f.now ⊆ f.earlier ++ (f.now ++ entries) := by
      rw [← List.append_assoc]
      exact List.subset_append_left _ _
    refine ⟨hf.history, fun x hx hbehind => (hf.passed x hx hbehind).mono hmono, ?_, ?_, ?_⟩
    · show List.Sublist (f.now ++ entries ++ []) _
      rw [List.append_nil]
      exact horder
    · intro _ x hx
      left
      rcases hkept x hx with hdone | hrest
      · exact hdone.mono hmono
      · exact .inl (List.mem_append_right _ (List.mem_append_right _ hrest))
    · rintro _ _ ⟨⟩
  · exact hf

theorem Inv.commit (hf : f.Inv hash decode) {writes : Bool}
    (hfine : f.Fine hash encode decode (.commit writes)) :
    (f.commit hash writes).Inv hash decode := by
  unfold Feed.commit
  split
  · next hphase =>
    have hrun : f.phase ≠ .down := by rw [hphase]; exact Phase.noConfusion
    have hrest : f.phase.rest = [] := by rw [hphase]; rfl
    simp only
    split
    · next e _ hlast =>
      apply hf.commitAt hrun hrest hfine
      exact List.mem_map_of_mem (List.mem_of_getLast? hlast)
    · exact hf.wait hrun hrest
  · exact hf

theorem Inv.flush (hf : f.Inv hash decode) (clock : ℕ) (force : Bool) :
    (f.flush clock force).Inv hash decode := by
  unfold Feed.flush
  split
  · exact ⟨hf.history, hf.passed, hf.order, hf.kept, hf.read⟩
  · exact hf

theorem inv_step (f : Feed) (e : FeedEvent) (hf : f.Inv hash decode)
    (hfine : f.Fine hash encode decode e) : (f.step hash encode decode e).Inv hash decode := by
  cases e with
  | start cut reads dispatch => exact hf.start hfine
  | replay clock => exact hf.replayOne clock
  | commitReplay writes => exact hf.commitReplay hfine
  | receive item => exact hf.receive hfine
  | handle clock => exact hf.handle clock
  | commit writes => exact hf.commit hfine
  | flush clock force => exact hf.flush clock force

theorem inv_found (H : h.Inv hash) : (found h).Inv hash decode := by
  refine ⟨H, ?_, List.nil_sublist _, fun hrun => absurd rfl hrun, by rintro _ _ ⟨⟩⟩
  intro e he hbehind
  left
  show e ∈ h.log.filter _ ++ []
  rw [List.append_nil]
  have hbehind' : h.spool.cursor.before e = false := hbehind
  exact List.mem_filter.mpr ⟨he, by rw [hbehind']; rfl⟩

theorem Inv.safe (hf : f.Inv hash decode) : f.Safe decode :=
  ⟨hf.passed, (List.sublist_append_left _ _).trans hf.order⟩

/-! ## Piles of records -/

/-- `n` records of one byte. -/
def ones (n : ℕ) : List Bytes := List.replicate n [1]

variable (hash) in
/-- A spool that holds `n` records of one byte in its first segment. -/
def pile (n : ℕ) (saved : Option (List Char)) (cursor : Cursor) : History where
  spool :=
    { dir := ⟨[(⟨1, ones n, [], headerBytes⟩ : Seg).file hash], saved⟩
      config := .default
      writeSegment := 1
      writer := 1
      writeOffset := headerBytes + 9 * n
      cursor := cursor
      droppedFull := 0 }
  log := ends 1 headerBytes (ones n)

theorem length_frames_ones (n : ℕ) : (Frames.frames hash (ones n)).length = 9 * n := by
  induction n with
  | zero => rfl
  | succ n ih =>
    rw [ones, List.replicate_succ, Frames.frames_cons, List.length_append, Frames.length_frame]
    rw [ones] at ih
    rw [ih, List.length_singleton]
    omega

theorem length_file_ones (n : ℕ) :
    ((⟨1, ones n, [], headerBytes⟩ : Seg).file hash).bytes.length = headerBytes + 9 * n := by
  rw [Seg.length_file, length_frames_ones, List.length_nil, Nat.add_zero]

theorem ends_ones (hash : Bytes → UInt32) (m k : ℕ) :
    ends 1 headerBytes (ones (m + k))
      = ends 1 headerBytes (ones m) ++ ends 1 (headerBytes + 9 * m) (ones k) := by
  rw [ones, List.replicate_add, ends_append hash]
  rw [← ones, ← ones, length_frames_ones]

theorem inv_pile {m n : ℕ} (hm : m ≤ n) {saved : Option (List Char)}
    (hsaved : (saved = none ∧ m = 0) ∨
      ∃ dir : Outbound.Dir, saved = (Outbound.writeCursor dir ⟨1, headerBytes + 9 * m⟩).cursor ∧
        headerBytes + 9 * m < 2 ^ 64) :
    (pile hash n saved ⟨1, headerBytes + 9 * m⟩).Inv hash := by
  let g : Seg := ⟨1, ones n, [], headerBytes⟩
  refine ⟨[g], g, g, [], ?_⟩
  exact
    { dir :=
        { files := rfl
          ids := by simp
          sound := by
            intro x hx
            rw [List.mem_singleton.mp hx]
            refine ⟨Nat.one_pos, ?_, .inl rfl, le_rfl⟩
            intro p hp
            rw [List.eq_of_mem_replicate hp]
            decide }
      head := rfl
      getLast := rfl
      writer := rfl
      writeSegment := rfl
      writeOffset := (length_file_ones n).symm
      log := by simp [pile, g, Seg.entries]
      gone := by simp
      cursor := by
        refine ⟨rfl, .inl ⟨ones m, ones (n - m), ?_, ?_⟩⟩
        · show ones n = ones m ++ ones (n - m)
          rw [ones, ones, ones, List.replicate_append_replicate, Nat.add_sub_cancel' hm]
        · rw [length_frames_ones]
          rfl
      saved := by
        rcases hsaved with ⟨rfl, rfl⟩ | ⟨dir, rfl, hfits⟩
        · exact .inl ⟨rfl, rfl⟩
        · exact .inr (Outbound.readCursor_writeCursor dir (show 1 < 2 ^ 64 by decide) hfits) }

/-- From any spool of whole frames, in every run whose restarts leave nothing undispatched behind
the first 4096 records and whose pushes land behind whole frames, the cursor passes only records
that were handed to a dispatcher, in the order of the spool. -/
theorem replay_skips_nothing (hash : Bytes → UInt32) (encode : Outbound → Option Bytes)
    (decode : Bytes → Option Outbound) {h : History} (H : h.Inv hash) {es : List FeedEvent}
    (hes : Runs.Meets (step hash encode decode) (Fine hash encode decode) (found h) es) :
    (Runs.run (step hash encode decode) (found h) es).Safe decode :=
  (hes.invariant inv_step (inv_found H)).safe

/-- What the spool holds of an error in the runs below. -/
def exampleItem : Outbound := ⟨⟨⟨0, []⟩, [], none, none⟩, false, "a".toList⟩

def exampleDecode (bytes : Bytes) : Option Outbound := if bytes = [1] then some exampleItem else none

/-- One record is replayed, and one error comes after it. -/
theorem replay_skips_nothing_once :
    let hash := Wal.Postcard.hash
    let es := [.start 17 true (.new [] 0), .replay 0, .commitReplay true, .receive exampleItem,
      .handle 0, .commit true]
    (Runs.run (step hash (fun _ => some [1]) exampleDecode) (found (pile hash 1 none ⟨1, 8⟩))
      es).Safe exampleDecode := by
  intro hash es
  have hinv : (pile hash 1 none ⟨1, 8⟩).Inv hash :=
    @inv_pile hash 0 1 (Nat.zero_le 1) none (.inl ⟨rfl, rfl⟩)
  refine replay_skips_nothing hash _ _ hinv ⟨?_, trivial, ?_, ?_, trivial, ?_, trivial⟩
  · intro e he
    have hnone : (((pile hash 1 none ⟨1, 8⟩).step hash (.reopen 17)).log.filter
        ((pile hash 1 none ⟨1, 8⟩).step hash (.reopen 17)).spool.cursor.before).drop replayMax
          = [] := by decide +kernel
    exact absurd (hnone ▸ he) List.not_mem_nil
  · show ∀ e : Entry, e ∈ _ → e.1.segment < 2 ^ 64 ∧ e.1.offset < 2 ^ 64
    decide +kernel
  · rintro bytes hbytes -
    obtain rfl : [1] = bytes := Option.some.inj hbytes
    exact ⟨by decide, .inr (.inr (.inr ⟨by decide +kernel, by decide +kernel⟩))⟩
  · show ∀ e : Entry, e ∈ _ → e.1.segment < 2 ^ 64 ∧ e.1.offset < 2 ^ 64
    decide +kernel

/-! ## A backlog -/

/-- A restart after which nothing is missing. -/
theorem reopen_pile (n : ℕ) :
    (pile hash n none ⟨1, headerBytes⟩).step hash (.reopen (headerBytes + 9 * n))
      = pile hash n none ⟨1, headerBytes⟩ := by
  have hlen := @length_file_ones hash n
  have hcrash : (pile hash n none ⟨1, headerBytes⟩).spool.crash (headerBytes + 9 * n)
      = (pile hash n none ⟨1, headerBytes⟩).spool.dir := by
    have htake : ((⟨1, ones n, [], headerBytes⟩ : Seg).file hash).bytes.take
        (max (headerBytes + 9 * n) headerBytes)
          = ((⟨1, ones n, [], headerBytes⟩ : Seg).file hash).bytes := by
      apply List.take_of_length_le
      rw [hlen]
      exact le_max_left _ _
    show Outbound.Dir.mk [⟨1, List.take (max (headerBytes + 9 * n) headerBytes) _, headerBytes⟩] none
      = _
    rw [htake]
    rfl
  have hopen : Spool.open (pile hash n none ⟨1, headerBytes⟩).spool.dir .default
      = .ok (pile hash n none ⟨1, headerBytes⟩).spool := by
    have hlong : ¬ ((⟨1, ones n, [], headerBytes⟩ : Seg).file hash).bytes.length < 8 := by
      rw [hlen, headerBytes]
      omega
    have happend : Outbound.openSegmentForAppend (pile hash n none ⟨1, headerBytes⟩).spool.dir 1
        = .ok ((pile hash n none ⟨1, headerBytes⟩).spool.dir, headerBytes + 9 * n) := by
      have hfile : (pile hash n none ⟨1, headerBytes⟩).spool.dir.file 1
          = some ((⟨1, ones n, [], headerBytes⟩ : Seg).file hash) := rfl
      have hmagic : ¬ ((⟨1, ones n, [], headerBytes⟩ : Seg).file hash).bytes.take 8
          ≠ Outbound.magic := not_not.mpr (List.take_left' rfl)
      rw [Outbound.openSegmentForAppend, hfile]
      simp only
      rw [if_neg hlong, if_neg hmagic, hlen]
    have hsegments : (pile hash n none ⟨1, headerBytes⟩).spool.dir.listSegments = [1] := rfl
    rw [Spool.open]
    simp only [hsegments, List.getLast?_singleton, Option.getD_some, happend]
    rfl
  have hall : (pile hash n none ⟨1, headerBytes⟩).log.filter
      (pile hash n none ⟨1, headerBytes⟩).spool.dir.holds
        = (pile hash n none ⟨1, headerBytes⟩).log := by
    rw [List.filter_eq_self]
    rintro ⟨⟨segment, offset⟩, p⟩ he
    obtain ⟨hsegment, -, hle⟩ := Outbound.ends_bounds hash he
    obtain rfl : segment = 1 := hsegment
    rw [length_frames_ones] at hle
    show decide (offset ≤ ((⟨1, ones n, [], headerBytes⟩ : Seg).file hash).bytes.length) = true
    rw [hlen, decide_eq_true_eq]
    exact hle
  rw [History.step]
  simp only [hcrash, hall]
  rw [show (pile hash n none ⟨1, headerBytes⟩).spool.config = .default from rfl, hopen]

/-- A commit in the first segment. -/
theorem commit_pile (n : ℕ) (saved : Option (List Char)) (c : Cursor) (offset : ℕ) :
    (pile hash n saved c).step hash (.commit ⟨1, offset⟩)
      = pile hash n (Outbound.writeCursor (pile hash n saved c).spool.dir ⟨1, offset⟩).cursor
          ⟨1, offset⟩ := rfl

/-- One more record of one byte, as long as the segment is not full. -/
theorem push_pile {n : ℕ} (hn : n < 2 ^ 20) (saved : Option (List Char)) (c : Cursor) :
    (pile hash n saved c).step hash (.push [1]) = pile hash (n + 1) saved c := by
  have hlen := @length_file_ones hash n
  have htotal : (pile hash n saved c).spool.totalBytes = headerBytes + 9 * n := by
    show ((⟨1, ones n, [], headerBytes⟩ : Seg).file hash).bytes.length + 0 = _
    exact hlen
  have hones : ones (n + 1) = ones n ++ [[1]] := List.replicate_succ'
  have hfile : ((⟨1, ones (n + 1), [], headerBytes⟩ : Seg).file hash)
      = ⟨1, ((⟨1, ones n, [], headerBytes⟩ : Seg).file hash).bytes ++ Frames.frame hash [1],
          headerBytes⟩ := by
    simp [Seg.file, hones]
  have hrolls : (pile hash n saved c).spool.rolls ([1] : Bytes).length = false := by
    have hroom : ¬ 16 * 1024 * 1024 < headerBytes + 9 * n + Outbound.frameOverhead + 1 := by
      rw [headerBytes, Outbound.frameOverhead]
      omega
    show (decide (16 * 1024 * 1024 < headerBytes + 9 * n + Outbound.frameOverhead + 1) && _) = false
    rw [decide_eq_false hroom, Bool.false_and]
  have hsmall : ¬ (pile hash n saved c).spool.config.maxRecordBytes < ([1] : Bytes).length := by
    show ¬ 32 * 1024 * 1024 < 1
    omega
  have hroom : ¬ (pile hash n saved c).spool.config.maxTotalBytes
      < (pile hash n saved c).spool.totalBytes + ([1] : Bytes).length := by
    rw [htotal]
    show ¬ 512 * 1024 * 1024 < headerBytes + 9 * n + 1
    rw [headerBytes]
    omega
  have hentry : ends 1 headerBytes (ones (n + 1)) = ends 1 headerBytes (ones n)
      ++ [(⟨1, headerBytes + 9 * n + (Frames.frame hash [1]).length⟩, [1])] := by
    rw [ends_ones hash n 1, Frames.length_frame]
    rfl
  have hoffset : headerBytes + 9 * (n + 1)
      = headerBytes + 9 * n + (Frames.frame hash [1]).length := by
    rw [Frames.length_frame]
    rfl
  rw [History.step, Spool.push, if_neg hsmall, if_neg hroom, hrolls]
  simp only [pile, hfile, hentry, hoffset]
  rfl

/-- The loop of `replay_spool` over records that decode. -/
theorem run_replay {pending : List Entry} (hdecode : ∀ e ∈ pending, decode e.2 ≠ none) {g : Feed}
    {last : Option Cursor} (hg : g.phase = .replaying pending last) :
    ∃ d, Runs.run (step hash encode decode) g (List.replicate pending.length (.replay 0)) =
      { g with
        dispatch := d
        phase := .replaying [] ((pending.getLast?.map Prod.fst).or last)
        now := g.now ++ pending } := by
  induction pending generalizing g last with
  | nil =>
    refine ⟨g.dispatch, ?_⟩
    rw [List.append_nil]
    show g = { g with phase := .replaying [] last }
    rw [← hg]
  | cons e pending ih =>
    obtain ⟨item, hitem⟩ := Option.ne_none_iff_exists'.mp (hdecode e List.mem_cons_self)
    have hone : g.step hash encode decode (.replay 0) =
        { g with
          dispatch := g.dispatch.handle 0 item
          phase := .replaying pending (some e.1)
          now := g.now ++ [e] } := by
      rw [step, replayOne, hg]
      simp only [hitem]
    obtain ⟨d, hd⟩ := ih (fun x hx => hdecode x (List.mem_cons_of_mem e hx)) (congrArg phase hone)
    refine ⟨d, ?_⟩
    rw [List.length_cons, List.replicate_succ, Runs.run_cons, hd, hone]
    cases pending with
    | nil => simp
    | cons x xs => simp [List.getLast?_cons_cons, Option.or_of_isSome]

/-- The records of a pile lie after the cursor exactly if they are behind the first `m`. -/
theorem filter_pile (hash : Bytes → UInt32) (m k : ℕ) :
    (ends 1 headerBytes (ones (m + k))).filter (Cursor.before ⟨1, headerBytes + 9 * m⟩)
      = ends 1 (headerBytes + 9 * m) (ones k) := by
  rw [ends_ones hash, List.filter_append]
  have hbehind : (ends 1 headerBytes (ones m)).filter
      (Cursor.before ⟨1, headerBytes + 9 * m⟩) = [] := by
    rw [List.filter_eq_nil_iff]
    intro e he
    obtain ⟨hsegment, -, hle⟩ := Outbound.ends_bounds hash he
    rw [length_frames_ones] at hle
    simp only [Cursor.before, hsegment, lt_irrefl, decide_false, beq_self_eq_true, Bool.true_and,
      Bool.false_or, decide_eq_true_eq]
    omega
  have hafter : (ends 1 (headerBytes + 9 * m) (ones k)).filter
      (Cursor.before ⟨1, headerBytes + 9 * m⟩) = ends 1 (headerBytes + 9 * m) (ones k) := by
    rw [List.filter_eq_self]
    intro e he
    obtain ⟨hsegment, hlt, -⟩ := Outbound.ends_bounds hash he
    simp [Cursor.before, hsegment, hlt]
  rw [hbehind, hafter, List.nil_append]

theorem getLast_ones (hash : Bytes → UInt32) (m : ℕ) :
    (ends 1 headerBytes (ones (m + 1))).getLast? = some (⟨1, headerBytes + 9 * (m + 1)⟩, [1]) := by
  rw [ends_ones hash, List.getLast?_append]
  rfl

/-- What the start of a replay makes of a pile: its first records are to be dispatched. -/
theorem start_pile (hash : Bytes → UInt32) (k : ℕ) (dispatch : Dispatch) :
    (found (pile hash (replayMax + k) none ⟨1, headerBytes⟩)).start hash
        (headerBytes + 9 * (replayMax + k)) true dispatch =
      { history := pile hash (replayMax + k) none ⟨1, headerBytes⟩
        opened := true
        dispatch := dispatch
        phase := .replaying (ends 1 headerBytes (ones replayMax)) none
        earlier := []
        now := [] } := by
  have hinv : (pile hash (replayMax + k) none ⟨1, headerBytes⟩).Inv hash :=
    @inv_pile hash 0 (replayMax + k) (Nat.zero_le _) none (.inl ⟨rfl, rfl⟩)
  obtain ⟨hopen, -, -⟩ := reopen_spec hinv (headerBytes + 9 * (replayMax + k))
  have hfilter : (ends 1 headerBytes (ones (replayMax + k))).filter
      (Cursor.before ⟨1, headerBytes⟩) = ends 1 headerBytes (ones (replayMax + k)) := by
    have h := filter_pile hash 0 (replayMax + k)
    rwa [Nat.zero_add] at h
  have hpeek : (pile hash (replayMax + k) none ⟨1, headerBytes⟩).spool.peek hash replayMax
      = ends 1 headerBytes (ones replayMax) := by
    rw [peek_eq hinv]
    show ((ends 1 headerBytes (ones (replayMax + k))).filter (Cursor.before ⟨1, headerBytes⟩)).take
      replayMax = _
    rw [hfilter, ends_ones hash]
    apply List.take_left'
    rw [Outbound.length_ends, ones, List.length_replicate]
  have hearlier : (found (pile hash (replayMax + k) none ⟨1, headerBytes⟩)).earlier = [] := by
    show (ends 1 headerBytes (ones (replayMax + k))).filter
      (fun e => !Cursor.before ⟨1, headerBytes⟩ e) = []
    rw [List.filter_eq_nil_iff]
    intro e he
    rw [← hfilter] at he
    rw [(List.mem_filter.mp he).2]
    decide
  have hhistory : (found (pile hash (replayMax + k) none ⟨1, headerBytes⟩)).history
      = pile hash (replayMax + k) none ⟨1, headerBytes⟩ := rfl
  rw [start, hearlier, hhistory, reopen_pile, hopen]
  simp only [Bool.true_and, if_true, hpeek]
  rfl

/-- The thread after a replay that dispatched `now` and left one record. -/
def replayed (hash : Bytes → UInt32) (m : ℕ) (d : Dispatch) (now : List Entry) : Feed where
  history := pile hash (m + 1) none ⟨1, headerBytes⟩
  opened := true
  dispatch := d
  phase := .replaying [] (some ⟨1, headerBytes + 9 * m⟩)
  earlier := []
  now := now

/-- The error after a replay is committed together with the record that the replay left. -/
theorem live_pile (hash : Bytes → UInt32) (m : ℕ) (hm : m + 1 < 2 ^ 20) {item : Outbound}
    (hitem : encode item = some [1]) (d : Dispatch) (now : List Entry) :
    let f := Runs.run (step hash encode decode) (replayed hash m d now)
      [.commitReplay true, .receive item, .handle 0, .commit true]
    f.history.spool.cursor = ⟨1, headerBytes + 9 * (m + 2)⟩ ∧
      f.history.log = ends 1 headerBytes (ones (m + 2)) ∧ f.earlier = [] ∧
      f.now = now ++ [(⟨1, headerBytes + 9 * (m + 2)⟩, [1])] := by
  intro f
  let g := replayed hash m d now
  let c : Cursor := ⟨1, headerBytes + 9 * m⟩
  let saved := (Outbound.writeCursor g.history.spool.dir c).cursor
  let after : History := pile hash (m + 2) saved c
  have hinv : after.Inv hash := by
    refine inv_pile (Nat.le_add_right m 2) (.inr ⟨g.history.spool.dir, rfl, ?_⟩)
    rw [headerBytes]
    omega
  have hfilter : (ends 1 headerBytes (ones (m + 2))).filter c.before
      = ends 1 (headerBytes + 9 * m) (ones 2) := filter_pile hash m 2
  have hpeek : (after.spool.peek hash liveMax).getLast?
      = some (⟨1, headerBytes + 9 * (m + 2)⟩, [1]) := by
    rw [peek_eq hinv]
    show (((ends 1 headerBytes (ones (m + 2))).filter c.before).take liveMax).getLast? = _
    rw [hfilter]
    rfl
  have hpushed : (pile hash (m + 1) saved c).step hash (.push [1]) = after := push_pile hm saved c
  have hentries : after.log.drop (pile hash (m + 1) saved c).log.length
      = [(⟨1, headerBytes + 9 * (m + 2)⟩, [1])] := by
    show (ends 1 headerBytes (ones (m + 1 + 1))).drop (ends 1 headerBytes (ones (m + 1))).length = _
    rw [ends_ones hash (m + 1) 1, List.drop_left]
    rfl
  -- the four steps one after another
  have hone : g.step hash encode decode (.commitReplay true)
      = { g with history := pile hash (m + 1) saved c, phase := .waiting } := rfl
  have htwo : ({ g with history := pile hash (m + 1) saved c, phase := .waiting } : Feed).step hash
      encode decode (.receive item) = { g with
        history := after
        phase := .pushed item [(⟨1, headerBytes + 9 * (m + 2)⟩, [1])] } := by
    rw [step, receive]
    simp only [hitem, g, replayed, hpushed, hentries]
  let handled : Feed := { g with
    history := after
    dispatch := d.handle 0 item
    phase := .handled
    now := now ++ [(⟨1, headerBytes + 9 * (m + 2)⟩, [1])] }
  have hthree : ({ g with
      history := after
      phase := .pushed item [(⟨1, headerBytes + 9 * (m + 2)⟩, [1])] } : Feed).step hash encode
      decode (.handle 0) = handled := rfl
  have hfour : handled.step hash encode decode (.commit true) = { handled with
      history := after.step hash (.commit ⟨1, headerBytes + 9 * (m + 2)⟩)
      phase := .waiting } := by
    rw [step, commit]
    simp only [handled, g, replayed, hpeek, Bool.and_self]
  have hf : f = { handled with
      history := after.step hash (.commit ⟨1, headerBytes + 9 * (m + 2)⟩)
      phase := .waiting } := by
    rw [← hfour, ← hthree, ← htwo, ← hone]
    rfl
  rw [hf]
  exact ⟨rfl, rfl, rfl, rfl⟩

/-- A spool with one record too many for a replay: the next error's commit passes it. -/
theorem backlog_skipped :
    let hash := Wal.Postcard.hash
    let h := pile hash (replayMax + 1) none ⟨1, headerBytes⟩
    let es := .start (headerBytes + 9 * (replayMax + 1)) true (.new [] 0)
      :: List.replicate replayMax (.replay 0)
      ++ [.commitReplay true, .receive exampleItem, .handle 0, .commit true]
    h.Inv hash ∧
      ¬ (Runs.run (step hash (fun _ => some [1]) exampleDecode) (found h) es).Safe
        exampleDecode := by
  intro hash h es
  have hinv : h.Inv hash := @inv_pile hash 0 (replayMax + 1) (Nat.zero_le _) none (.inl ⟨rfl, rfl⟩)
  refine ⟨hinv, ?_⟩
  let pending := ends 1 headerBytes (ones replayMax)
  have hlength : pending.length = replayMax := by
    rw [Outbound.length_ends, ones, List.length_replicate]
  have hpayload : ∀ n offset, ∀ e ∈ ends 1 offset (ones n), e.2 = [1] := by
    intro n
    induction n with
    | zero => simp [ones, ends]
    | succ n ih =>
      intro offset e he
      rw [ones, List.replicate_succ, ends, List.mem_cons] at he
      rcases he with rfl | he
      · rfl
      · exact ih _ e he
  have hdecode : ∀ e ∈ pending, exampleDecode e.2 ≠ none := by
    intro e he
    rw [hpayload _ _ e he]
    decide
  obtain ⟨d, hd⟩ := @run_replay hash (fun _ => some [1]) exampleDecode pending hdecode
    ((found h).start hash (headerBytes + 9 * (replayMax + 1)) true (.new [] 0)) none
    (congrArg phase (start_pile hash 1 (.new [] 0)))
  have hlast : pending.getLast? = some (⟨1, headerBytes + 9 * replayMax⟩, [1]) :=
    getLast_ones hash 4095
  rw [hlength, hlast, start_pile] at hd
  simp only [Option.map_some, Option.some_or, List.nil_append] at hd
  obtain ⟨hcursor, hlog, hearlier, hnow⟩ := @live_pile (fun _ => some [1]) exampleDecode hash
    replayMax (by decide) exampleItem rfl d pending
  have hrun : Runs.run (step hash (fun _ => some [1]) exampleDecode) (found h) es
      = Runs.run (step hash (fun _ => some [1]) exampleDecode) (replayed hash replayMax d pending)
          [.commitReplay true, .receive exampleItem, .handle 0, .commit true] := by
    have hstart : (found h).step hash (fun _ => some [1]) exampleDecode
        (.start (headerBytes + 9 * (replayMax + 1)) true (.new [] 0)) = _ := start_pile hash 1 _
    have hreplay : Runs.run (step hash (fun _ => some [1]) exampleDecode) (found h)
        (.start (headerBytes + 9 * (replayMax + 1)) true (.new [] 0)
          :: List.replicate replayMax (.replay 0)) = replayed hash replayMax d pending := by
      rw [Runs.run_cons, hstart, hd, replayed]
    rw [Runs.run_append, hreplay]
  rw [hrun]
  rintro ⟨hpassed, -⟩
  let left : Entry := (⟨1, headerBytes + 9 * (replayMax + 1)⟩, [1])
  have hmem : left ∈ ends 1 headerBytes (ones (replayMax + 2)) := by
    rw [ends_ones hash replayMax 2]
    exact List.mem_append_right _ List.mem_cons_self
  rw [hlog, hcursor] at hpassed
  rcases hpassed left hmem (by decide) with hhanded | hunread
  · rw [hearlier, hnow, List.nil_append] at hhanded
    rcases List.mem_append.mp hhanded with hhanded | hhanded
    · obtain ⟨-, -, hle⟩ := Outbound.ends_bounds hash hhanded
      rw [length_frames_ones] at hle
      have hoffset : left.1.offset = headerBytes + 9 * (replayMax + 1) := rfl
      omega
    · exact absurd (List.mem_singleton.mp hhanded) (by decide)
  · exact absurd hunread (by decide)

end Feed

end LogLess.Forward
