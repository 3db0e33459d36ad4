import LogLess.Lib.Runs

/-!
# The locks of the token verifier

The key set is behind a read-write lock and the state of its refreshes behind a mutex. A call is the
list of what it acquires and releases, in the order of the code, and a lock is taken if a call holds
it. `blocked_or_done`: calls block each other for good only where one holds the key set and waits for
the refresh state, and another holds the refresh state and waits to write the key set.
-/

namespace LogLess.Auth.Locks

inductive Act where
  | readKeys
  | releaseRead
  | writeKeys
  | releaseWrite
  | lockState
  | unlockState
deriving DecidableEq

/-! ## The calls -/

/-- `Jwt::key`. -/
def key : List Act := [.readKeys, .releaseRead]

/-- `Jwt::refresh`, by what came of the fetch. Without a source it does nothing. -/
def refresh : Option Bool → List Act
  | none => []
  | some true =>
    -- the etag is read and let go of before the fetch
    [.readKeys, .releaseRead, .lockState, .writeKeys, .releaseWrite, .unlockState]
  | some false => [.readKeys, .releaseRead, .lockState, .readKeys, .releaseRead, .unlockState]

/-- What becomes of a call for an unknown key id. -/
inductive Attempt where
  | noSource
  | tooSoon
  | made (fetched : Bool)
deriving DecidableEq

/-- `Jwt::refresh_for_unknown_kid`. -/
def refreshForUnknownKid : Attempt → List Act
  | .noSource => []
  | .tooSoon => [.lockState, .unlockState]
  | .made fetched => [.lockState, .unlockState] ++ refresh (some fetched)

/-- `Jwt::status`: what it has locked is released in the order opposite to the one it was locked in. -/
def status : List Act := [.readKeys, .lockState, .unlockState, .releaseRead]

inductive Call where
  | key
  | refresh (fetched : Option Bool)
  | refreshForUnknownKid (attempt : Attempt)
  | status
  /-- `verify_at`: by whether the key is known, and what was made of it where it is not. -/
  | verifyAt (unknown : Option Attempt)
deriving DecidableEq

def Call.acts : Call → List Act
  | .key => Locks.key
  | .refresh fetched => Locks.refresh fetched
  | .refreshForUnknownKid attempt => Locks.refreshForUnknownKid attempt
  | .status => Locks.status
  | .verifyAt none => Locks.key
  | .verifyAt (some (.made true)) =>
    Locks.key ++ Locks.refreshForUnknownKid (.made true) ++ Locks.key
  | .verifyAt (some attempt) => Locks.key ++ Locks.refreshForUnknownKid attempt

/-! ## Calls under way -/

structure Held where
  read : Bool
  write : Bool
  mutex : Bool
deriving DecidableEq

def Held.none : Held := ⟨false, false, false⟩

def Held.after (h : Held) : Act → Held
  | .readKeys => { h with read := true }
  | .releaseRead => { h with read := false }
  | .writeKeys => { h with write := true }
  | .releaseWrite => { h with write := false }
  | .lockState => { h with mutex := true }
  | .unlockState => { h with mutex := false }

/-- What a call that holds so much may do: nothing is acquired twice, what is released is held, and the
key set is written under the mutex. -/
def allowed (h : Held) : Act → Bool
  | .readKeys => !h.read && !h.write
  | .releaseRead => h.read
  | .writeKeys => !h.read && !h.write && h.mutex
  | .releaseWrite => h.write
  | .lockState => !h.mutex
  | .unlockState => h.mutex && !h.write

/-- Whether a call that holds so much may go on so to its end, where it holds nothing. -/
def ordered : Held → List Act → Bool
  | h, [] => h == Held.none
  | h, a :: rest => allowed h a && ordered (h.after a) rest

/-- A call under way: what it holds and what is left of it. -/
structure Thread where
  held : Held
  todo : List Act
  ordered : ordered held todo = true
  write : held.write = true → held.mutex = true

theorem ordered_acts (c : Call) : ordered Held.none c.acts = true := by
  cases c with
  | key => rfl
  | status => rfl
  | refresh fetched =>
    cases fetched with
    | none => rfl
    | some fetched => cases fetched <;> rfl
  | refreshForUnknownKid attempt =>
    cases attempt with
    | noSource => rfl
    | tooSoon => rfl
    | made fetched => cases fetched <;> rfl
  | verifyAt unknown =>
    cases unknown with
    | none => rfl
    | some attempt =>
      cases attempt with
      | noSource => rfl
      | tooSoon => rfl
      | made fetched => cases fetched <;> rfl

def Thread.start (c : Call) : Thread := ⟨Held.none, c.acts, ordered_acts c, nofun⟩

theorem ordered_tail {h : Held} {a : Act} {rest : List Act} (ho : ordered h (a :: rest) = true) :
    ordered (h.after a) rest = true := (Bool.and_eq_true_iff.mp ho).2

theorem write_after {h : Held} {a : Act} {rest : List Act} (ho : ordered h (a :: rest) = true)
    (hw : h.write = true → h.mutex = true) : (h.after a).write = true → (h.after a).mutex = true := by
  have ho := (Bool.and_eq_true_iff.mp ho).1
  cases a with
  | readKeys => exact hw
  | releaseRead => exact hw
  | writeKeys => exact fun _ => (Bool.and_eq_true_iff.mp ho).2
  | releaseWrite => exact nofun
  | lockState => exact fun _ => rfl
  | unlockState =>
    intro hwrite
    have hfree := (Bool.and_eq_true_iff.mp ho).2
    rw [show h.write = true from hwrite] at hfree
    cases hfree

/-- The call with its next act done. -/
def Thread.advance (t : Thread) : Thread :=
  match t with
  | ⟨held, [], ho, hw⟩ => ⟨held, [], ho, hw⟩
  | ⟨held, a :: rest, ho, hw⟩ => ⟨held.after a, rest, ordered_tail ho, write_after ho hw⟩

/-- It holds the key set and waits for the refresh state. -/
def Thread.waitsInside (t : Thread) : Bool := t.held.read && t.todo.head? == some .lockState

/-- It waits to write the key set. -/
def Thread.writesNext (t : Thread) : Bool := t.todo.head? == some .writeKeys

abbrev World := List Thread

/-- Whether the next act of the call can be done. A waiting writer may keep readers out. -/
def canStep (writersFirst : Bool) (w : World) (i : ℕ) : Bool :=
  match w[i]?.bind fun t => t.todo.head? with
  | none => false
  | some .readKeys =>
    w.all fun t => !t.held.write && !(writersFirst && t.writesNext)
  | some .writeKeys => w.all fun t => !t.held.read && !t.held.write
  | some .lockState => w.all fun t => !t.held.mutex
  | some _ => true

inductive Event where
  | start (c : Call)
  | step (i : ℕ)
deriving DecidableEq

def step (writersFirst : Bool) (w : World) : Event → World
  | .start c => w ++ [.start c]
  | .step i =>
    if canStep writersFirst w i then w.modify i Thread.advance else w

/-- A call is not brought to where it waits for the refresh state inside the key set while another
waits to write the key set, nor the other way round. -/
def fine (w : World) : Event → Bool
  | .start _ => true
  | .step i =>
    match w[i]?.map Thread.advance with
    | none => true
    | some t =>
      (!t.waitsInside || w.all fun s => !s.writesNext) &&
        (!t.writesNext || w.all fun s => !s.waitsInside)

/-! ## The invariant -/

/-- One call holds the refresh state, and no call waits for it inside the key set while another waits
to write. -/
structure Inv (w : World) : Prop where
  mutex : ∀ (i j : ℕ) (s t : Thread), w[i]? = some s → w[j]? = some t → s.held.mutex = true →
    t.held.mutex = true → i = j
  apart : ∀ s ∈ w, ∀ t ∈ w, s.waitsInside = true → t.writesNext = true → False

theorem Inv.nil : Inv [] := ⟨nofun, nofun⟩

/-- A call that starts holds nothing and does not begin with a write. -/
theorem start_quiet (c : Call) : (Thread.start c).held.mutex = false ∧
    (Thread.start c).waitsInside = false ∧ (Thread.start c).writesNext = false := by
  have hhead : (Thread.start c).writesNext = false := by
    have ho := ordered_acts c
    show (c.acts.head? == some .writeKeys) = false
    cases hacts : c.acts with
    | nil => rfl
    | cons a rest =>
      rw [hacts] at ho
      cases a with
      | writeKeys => cases ho
      | readKeys => rfl
      | releaseRead => rfl
      | releaseWrite => rfl
      | lockState => rfl
      | unlockState => rfl
  exact ⟨rfl, rfl, hhead⟩

theorem Inv.start {w : World} (h : Inv w) (c : Call) : Inv (w ++ [.start c]) := by
  obtain ⟨hmutex, hinside, hwrites⟩ := start_quiet c
  constructor
  · intro i j s t hi hj hs ht
    rw [List.getElem?_append] at hi hj
    have hold : ∀ {k : ℕ} {x : Thread}, (if k < w.length then w[k]? else [Thread.start c][k - w.length]?)
        = some x → x.held.mutex = true → w[k]? = some x := by
      intro k x hk hx
      split at hk
      · exact hk
      · have hmem := List.mem_singleton.mp (List.mem_of_getElem? hk)
        rw [hmem, hmutex] at hx
        cases hx
    exact h.mutex i j s t (hold hi hs) (hold hj ht) hs ht
  · intro s hs t ht hwaits hnext
    rcases List.mem_append.mp hs with hs | hs
    · rcases List.mem_append.mp ht with ht | ht
      · exact h.apart s hs t ht hwaits hnext
      · rw [List.mem_singleton.mp ht, hwrites] at hnext
        cases hnext
    · rw [List.mem_singleton.mp hs, hinside] at hwaits
      cases hwaits

/-- The refresh state is held after an act only if it was before, or the act has locked it. -/
theorem mutex_advance {t : Thread} (h : t.advance.held.mutex = true) :
    t.held.mutex = true ∨ t.todo.head? = some .lockState := by
  obtain ⟨held, todo, ho, hw⟩ := t
  cases todo with
  | nil => exact Or.inl h
  | cons a rest =>
    cases a with
    | lockState => exact Or.inr rfl
    | unlockState => cases h
    | readKeys => exact Or.inl h
    | releaseRead => exact Or.inl h
    | writeKeys => exact Or.inl h
    | releaseWrite => exact Or.inl h

theorem not_both (t : Thread) : ¬ (t.waitsInside = true ∧ t.writesNext = true) := by
  rw [Thread.waitsInside, Thread.writesNext]
  simp only [Bool.and_eq_true, beq_iff_eq]
  intro h
  rw [h.1.2] at h
  cases h.2

theorem mem_of_mem_modify {w : World} {i : ℕ} {x : Thread}
    (h : x ∈ w.modify i Thread.advance) : x ∈ w ∨ ∃ t, w[i]? = some t ∧ x = t.advance := by
  obtain ⟨k, hk⟩ := List.mem_iff_getElem?.mp h
  rw [List.getElem?_modify] at hk
  obtain ⟨t, ht, hx⟩ := Option.map_eq_some_iff.mp hk
  split at hx
  · next hik => exact Or.inr ⟨t, hik ▸ ht, hx.symm⟩
  · exact Or.inl (hx ▸ List.mem_of_getElem? ht)

theorem Inv.advance {w : World} (h : Inv w) {writersFirst : Bool} {i : ℕ}
    (hcan : canStep writersFirst w i = true) (hfine : fine w (.step i) = true) :
    Inv (w.modify i Thread.advance) := by
  constructor
  · intro j k s t hj hk hs ht
    rw [List.getElem?_modify] at hj hk
    obtain ⟨s', hs', rfl⟩ := Option.map_eq_some_iff.mp hj
    obtain ⟨t', ht', rfl⟩ := Option.map_eq_some_iff.mp hk
    -- who has just locked the refresh state found it free
    have hfree : ∀ {x y : Thread} {m : ℕ}, w[i]? = some x → w[m]? = some y →
        x.advance.held.mutex = true → y.held.mutex = true → i = m := by
      intro x y m hx hy hxm hym
      rcases mutex_advance hxm with hheld | hlock
      · exact h.mutex i m x y hx hy hheld hym
      · rw [canStep, hx, Option.bind_some, hlock] at hcan
        have hnone := List.all_eq_true.mp hcan y (List.mem_of_getElem? hy)
        rw [hym] at hnone
        cases hnone
    by_cases hij : i = j
    · subst hij
      by_cases hik : i = k
      · exact hik
      · rw [if_pos rfl] at hs
        rw [if_neg hik] at ht
        exact hfree hs' ht' hs ht
    · rw [if_neg hij] at hs
      by_cases hik : i = k
      · subst hik
        rw [if_pos rfl] at ht
        exact (hfree ht' hs' ht hs).symm
      · rw [if_neg hik] at ht
        exact h.mutex j k s' t' hs' ht' hs ht
  · intro s hs t ht hwaits hnext
    have hmoved : ∀ x, w[i]? = some x →
        (x.advance.waitsInside = true → ∀ y ∈ w, y.writesNext = false) ∧
        (x.advance.writesNext = true → ∀ y ∈ w, y.waitsInside = false) := by
      intro x hx
      rw [fine, hx, Option.map_some] at hfine
      simp only [Bool.and_eq_true, Bool.or_eq_true, Bool.not_eq_true', List.all_eq_true] at hfine
      constructor
      · intro hinside y hy
        exact (hfine.1.resolve_left (by simp [hinside])) y hy
      · intro hwrites y hy
        exact (hfine.2.resolve_left (by simp [hwrites])) y hy
    rcases mem_of_mem_modify hs with hs | ⟨x, hx, rfl⟩
    · rcases mem_of_mem_modify ht with ht | ⟨y, hy, rfl⟩
      · exact h.apart s hs t ht hwaits hnext
      · have := (hmoved y hy).2 hnext s hs
        rw [this] at hwaits
        cases hwaits
    · rcases mem_of_mem_modify ht with ht | ⟨y, hy, rfl⟩
      · have := (hmoved x hx).1 hwaits t ht
        rw [this] at hnext
        cases hnext
      · rw [hx, Option.some.injEq] at hy
        subst hy
        exact not_both _ ⟨hwaits, hnext⟩

theorem Inv.step {w : World} (h : Inv w) {writersFirst : Bool} (e : Event) (hfine : fine w e = true) :
    Inv (step writersFirst w e) := by
  cases e with
  | start c => exact h.start c
  | step i =>
    show Inv (if canStep writersFirst w i then w.modify i Thread.advance else w)
    split
    · next hcan => exact h.advance hcan hfine
    · exact h

/-! ## Progress -/

theorem Thread.held_of_done {t : Thread} (h : t.todo = []) : t.held = Held.none := by
  have ho := t.ordered
  rw [h, LogLess.Auth.Locks.ordered, beq_iff_eq] at ho
  exact ho

theorem Thread.allowed_head {t : Thread} {a : Act} (h : t.todo.head? = some a) :
    allowed t.held a = true := by
  have ho := t.ordered
  cases htodo : t.todo with
  | nil =>
    rw [htodo] at h
    cases h
  | cons b rest =>
    rw [htodo] at h ho
    obtain rfl := Option.some.inj h
    exact (Bool.and_eq_true_iff.mp ho).1

/-- A call that holds something has something left to do. -/
theorem Thread.exists_head {t : Thread} (h : t.held ≠ Held.none) : ∃ a, t.todo.head? = some a := by
  cases htodo : t.todo with
  | nil => exact absurd (t.held_of_done htodo) h
  | cons a rest => exact ⟨a, rfl⟩

theorem mutex_of_writesNext {t : Thread} (h : t.writesNext = true) : t.held.mutex = true := by
  rw [Thread.writesNext, beq_iff_eq] at h
  exact (Bool.and_eq_true_iff.mp (t.allowed_head h)).2

/-- What a call that holds the key set for reading, and not the refresh state, does next. -/
theorem head_of_read {t : Thread} (h : t.held.read = true) (hm : t.held.mutex = false) :
    t.todo.head? = some .releaseRead ∨ t.waitsInside = true := by
  have hwrite : t.held.write = false := by
    cases hw : t.held.write with
    | false => rfl
    | true => rw [← t.write hw, hm]
  have hsome : t.held ≠ Held.none := by
    intro hnone
    rw [hnone] at h
    cases h
  obtain ⟨a, ha⟩ := t.exists_head hsome
  have hok := t.allowed_head ha
  cases a with
  | releaseRead => exact Or.inl ha
  | lockState => exact Or.inr (by rw [Thread.waitsInside, h, ha]; rfl)
  | readKeys =>
    rw [allowed, h] at hok
    cases hok
  | writeKeys =>
    rw [allowed, h] at hok
    cases hok
  | releaseWrite =>
    rw [allowed, hwrite] at hok
    cases hok
  | unlockState =>
    rw [allowed, hm] at hok
    cases hok

theorem canStep_of_release {writersFirst : Bool} {w : World} {i : ℕ} {t : Thread} {a : Act}
    (hi : w[i]? = some t) (ha : t.todo.head? = some a) (hread : a ≠ .readKeys) (hwrite : a ≠ .writeKeys)
    (hlock : a ≠ .lockState) : canStep writersFirst w i = true := by
  rw [canStep, hi, Option.bind_some, ha]
  cases a with
  | readKeys => exact absurd rfl hread
  | writeKeys => exact absurd rfl hwrite
  | lockState => exact absurd rfl hlock
  | releaseRead => rfl
  | releaseWrite => rfl
  | unlockState => rfl

/-- **The calls of a state that keeps the invariant do not block each other.** Who holds the refresh
state goes on unless the key set is held, and then the one who holds it goes on. -/
theorem Inv.progress {w : World} (h : Inv w) (writersFirst : Bool) :
    (∀ t ∈ w, t.todo = []) ∨ ∃ i, canStep writersFirst w i = true := by
  by_cases hdone : ∀ t ∈ w, t.todo = []
  · exact Or.inl hdone
  refine Or.inr ?_
  by_cases hheld : ∃ t ∈ w, t.held.mutex = true
  · obtain ⟨t, ht, hmutex⟩ := hheld
    obtain ⟨i, hi⟩ := List.mem_iff_getElem?.mp ht
    have honly : ∀ s ∈ w, s.held.mutex = true → s = t := by
      intro s hs hsm
      obtain ⟨j, hj⟩ := List.mem_iff_getElem?.mp hs
      obtain rfl := h.mutex i j t s hi hj hmutex hsm
      exact Option.some.inj (hj.symm.trans hi)
    have hsome : t.held ≠ Held.none := by
      intro hnone
      rw [hnone] at hmutex
      cases hmutex
    obtain ⟨a, ha⟩ := t.exists_head hsome
    have hok := t.allowed_head ha
    have hnot : a ≠ .lockState := by
      rintro rfl
      rw [allowed, hmutex] at hok
      cases hok
    by_cases hread : a = .readKeys
    · -- no other call writes, or waits to
      subst hread
      refine ⟨i, ?_⟩
      rw [canStep, hi, Option.bind_some, ha]
      simp only [List.all_eq_true, Bool.and_eq_true, Bool.not_eq_true', Bool.and_eq_false_iff]
      simp only [allowed, Bool.and_eq_true, Bool.not_eq_true'] at hok
      intro s hs
      constructor
      · cases hw : s.held.write with
        | false => rfl
        | true => rw [← hw, honly s hs (s.write hw), hok.2]
      · right
        cases hw : s.writesNext with
        | false => rfl
        | true =>
          rw [← hw, honly s hs (mutex_of_writesNext hw), Thread.writesNext, ha]
          rfl
    · by_cases hwrite : a = .writeKeys
      · subst hwrite
        simp only [allowed, Bool.and_eq_true, Bool.not_eq_true'] at hok
        by_cases hreader : ∃ s ∈ w, s.held.read = true
        · obtain ⟨s, hs, hsr⟩ := hreader
          obtain ⟨j, hj⟩ := List.mem_iff_getElem?.mp hs
          have hsm : s.held.mutex = false := by
            cases hsm : s.held.mutex with
            | false => rfl
            | true => rw [honly s hs hsm, hok.1.1] at hsr; cases hsr
          rcases head_of_read hsr hsm with hrelease | hinside
          · exact ⟨j, canStep_of_release hj hrelease nofun nofun nofun⟩
          · exact (h.apart s hs t ht hinside (by rw [Thread.writesNext, ha]; rfl)).elim
        · refine ⟨i, ?_⟩
          rw [canStep, hi, Option.bind_some, ha]
          simp only [List.all_eq_true, Bool.and_eq_true, Bool.not_eq_true']
          intro s hs
          constructor
          · cases hr : s.held.read with
            | false => rfl
            | true => exact absurd ⟨s, hs, hr⟩ hreader
          · cases hw : s.held.write with
            | false => rfl
            | true => rw [← hw, honly s hs (s.write hw), hok.1.2]
      · exact ⟨i, canStep_of_release hi ha hread hwrite hnot⟩
  · -- nobody holds the refresh state, so nobody writes the key set or waits to
    have hnone : ∀ s ∈ w, s.held.mutex = false := by
      intro s hs
      cases hsm : s.held.mutex with
      | false => rfl
      | true => exact absurd ⟨s, hs, hsm⟩ hheld
    push Not at hdone
    obtain ⟨t, ht, htodo⟩ := hdone
    obtain ⟨i, hi⟩ := List.mem_iff_getElem?.mp ht
    obtain ⟨a, rest, hcons⟩ := List.exists_cons_of_ne_nil htodo
    have ha : t.todo.head? = some a := by rw [hcons]; rfl
    refine ⟨i, ?_⟩
    by_cases hlock : a = .lockState
    · subst hlock
      rw [canStep, hi, Option.bind_some, ha]
      simp only [List.all_eq_true, Bool.not_eq_true']
      exact hnone
    by_cases hread : a = .readKeys
    · subst hread
      rw [canStep, hi, Option.bind_some, ha]
      simp only [List.all_eq_true, Bool.and_eq_true, Bool.not_eq_true', Bool.and_eq_false_iff]
      intro s hs
      constructor
      · cases hw : s.held.write with
        | false => rfl
        | true => rw [← s.write hw, hnone s hs]
      · right
        cases hw : s.writesNext with
        | false => rfl
        | true => rw [← mutex_of_writesNext hw, hnone s hs]
    by_cases hwrite : a = .writeKeys
    · have hmutex := mutex_of_writesNext (t := t) (by rw [Thread.writesNext, ha, hwrite]; rfl)
      rw [hnone t ht] at hmutex
      cases hmutex
    · exact canStep_of_release hi ha hread hwrite hlock

/-- **The token verifier does not deadlock** where no call of `status` waits inside the key set while
a refresh waits to write it. -/
theorem no_deadlock (writersFirst : Bool) (es : List Event)
    (h : Runs.Meets (step writersFirst) (fun w e => fine w e = true) [] es) :
    (∀ t ∈ Runs.run (step writersFirst) [] es, t.todo = []) ∨
      ∃ i, canStep writersFirst (Runs.run (step writersFirst) [] es) i = true :=
  (h.invariant (fun _ e hw he => hw.step e he) Inv.nil).progress writersFirst

/-- A refresh that goes through beside a status and a lookup. -/
theorem no_deadlock_refreshed :
    let es : List Event := [.start .status, .start (.verifyAt (some (.made true))), .step 0, .step 0,
      .step 1, .step 1, .step 0, .step 0, .step 1, .step 1, .step 1, .step 1, .step 1, .step 1]
    (∀ t ∈ Runs.run (step true) [] es, t.todo = []) ∨
      ∃ i, canStep true (Runs.run (step true) [] es) i = true := by
  intro es
  exact no_deadlock true es (by decide)

/-- A status reads the key set after a refresh has locked its state: neither goes on. -/
theorem status_and_refresh_block :
    let es : List Event := [.start .status, .start (.refresh (some true)), .step 1, .step 1, .step 0,
      .step 1]
    ∀ writersFirst, (Runs.run (step writersFirst) [] es).length = 2 ∧
      (∃ t ∈ Runs.run (step writersFirst) [] es, t.todo ≠ []) ∧
      ∀ i < 2, canStep writersFirst (Runs.run (step writersFirst) [] es) i = false := by
  decide

end LogLess.Auth.Locks
