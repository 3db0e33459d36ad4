import LogLess.Lib.Runs
import LogLess.Model

/-!
# The ids a peer has seen

A receiver remembers the last ids it took, and appends each new one to a file of 16 bytes for
an id. `open` loads the end of the file; an append is compacted away when the file has grown to
twice the window.

There is no framing. An append that fails leaves bytes that the next one continues, so that all
ids behind them are shifted; a failed append is not counted, and its ids are remembered all the
same, so that a later call for them writes nothing. `fits` says that none of this has happened:
the file loads as the window the process has.
-/

namespace LogLess.Peer

/-- The last `n` of a list. -/
def lastOf {α : Type} (n : ℕ) (l : List α) : List α := l.drop (l.length - n)

/-- `DedupeWindow`, opened with a log, and the file. The set is that of the ids in `order`. -/
structure DedupeWindow where
  capacity : ℕ
  order : List Uuid
  file : List UInt8
  /-- So many bytes survive a crash. -/
  durable : ℕ
  /-- The ids in the file, as the log counts them. -/
  ids : ℕ
  /-- The open handle is that of the file with the name. -/
  attached : Bool

/-- How the file operations of `insert_all` end: the write is torn, the sync fails, or the
compaction fails before or after its rename. -/
inductive Outcome where
  | done
  | torn (kept : ℕ)
  | unsynced
  | uncompacted (renamed : Bool)
deriving DecidableEq

namespace DedupeWindow

def remember (capacity : ℕ) (order : List Uuid) (id : Uuid) : List Uuid × Bool :=
  if id ∈ order then (order, false) else (lastOf capacity (order ++ [id]), true)

/-- Ids remembered one after another, with those that were new. -/
def rememberAll (capacity : ℕ) : List Uuid → List Uuid → List Uuid × List Uuid
  | order, [] => (order, [])
  | order, id :: ids =>
    let (order, new) := remember capacity order id
    let (order, fresh) := rememberAll capacity order ids
    (order, if new then id :: fresh else fresh)

/-- The bytes of ids. -/
def bytesOf (ids : List Uuid) : List UInt8 := ids.flatMap Uuid.bytes

/-- `chunks_exact(16)`, at most `n` of them. -/
def chunks : ℕ → List UInt8 → List Uuid
  | 0, _ => []
  | n + 1, bytes =>
    if h : 16 ≤ bytes.length then
      ⟨bytes.take 16, by rw [List.length_take, Nat.min_eq_left h]⟩ :: chunks n (bytes.drop 16)
    else []

def loadIds (bytes : List UInt8) : List Uuid := chunks (bytes.length / 16) bytes

end DedupeWindow

/-- `open`, with what is on disk. -/
def DedupeWindow.open (capacity : ℕ) (bytes : List UInt8) : DedupeWindow :=
  let whole := bytes.length / 16 * 16
  { capacity := capacity
    order := (rememberAll capacity [] (lastOf capacity (loadIds bytes))).1
    file := bytes.take whole
    durable := whole
    ids := bytes.length / 16
    attached := true }

namespace DedupeWindow

/-- Opened again after a crash that leaves `kept` bytes, or all that was synced. -/
def reopen (w : DedupeWindow) (kept : ℕ) : DedupeWindow :=
  .open w.capacity (w.file.take (max w.durable kept))

/-- `compact`, and whether it is through. -/
def compact (w : DedupeWindow) : Outcome → DedupeWindow × Bool
  | .uncompacted false => (w, false)
  | .uncompacted true =>
    ({ w with
       file := bytesOf w.order
       durable := (bytesOf w.order).length
       attached := false }, false)
  | _ =>
    ({ w with
       file := bytesOf w.order
       durable := (bytesOf w.order).length
       ids := w.order.length
       attached := true }, true)

/-- Bytes written through the open handle. -/
def write (w : DedupeWindow) (bytes : List UInt8) : DedupeWindow :=
  if w.attached then { w with file := w.file ++ bytes } else w

/-- `insert_all`, and whether it returns without an error. -/
def insertAll (w : DedupeWindow) (ids : List Uuid) (outcome : Outcome) : DedupeWindow × Bool :=
  let (order, fresh) := rememberAll w.capacity w.order ids
  let w := { w with order := order }
  if fresh.isEmpty then (w, true)
  else
    match outcome with
    | .torn kept => (w.write ((bytesOf fresh).take kept), false)
    | .unsynced => (w.write (bytesOf fresh), false)
    | _ =>
      let w := w.write (bytesOf fresh)
      let w := { w with durable := w.file.length, ids := w.ids + fresh.length }
      if 2 * w.capacity < w.ids then w.compact outcome else (w, true)

/-- The file is whole ids, all of them counted, at most twice the window, and loads as the
window that is remembered. -/
def fits (w : DedupeWindow) : Bool :=
  w.file.length == 16 * w.ids && w.ids ≤ 2 * w.capacity
    && w.order == (w.reopen w.file.length).order

end DedupeWindow

/-! ## Histories -/

/-- A window with what was done to it: the ids of calls that returned without an error since
they were last new, all ids ever inserted, and the largest batch. -/
structure DedupeHistory where
  window : DedupeWindow
  saved : List Uuid
  inserted : List Uuid
  batch : ℕ

inductive DedupeEvent where
  | insert (ids : List Uuid) (outcome : Outcome)
  | reopen (kept : ℕ)

namespace DedupeHistory

/-- An empty file, opened with a capacity of at least one. -/
def init (capacity : ℕ) : DedupeHistory := ⟨.open (max 1 capacity) [], [], [], 0⟩

def step (s : DedupeHistory) : DedupeEvent → DedupeHistory
  | .insert ids outcome =>
    let (window, ok) := s.window.insertAll ids outcome
    let fresh := (DedupeWindow.rememberAll s.window.capacity s.window.order ids).2
    let before := s.saved.filter fun x => x ∉ fresh
    { window := window
      saved := if ok then before ++ ids else before
      inserted := s.inserted ++ ids
      batch := max s.batch ids.length }
  | .reopen kept => { s with window := s.window.reopen kept }

/-- No id of a successful call that is among those remembered is forgotten by a restart, no
id is made up, and the file stays in its bound. -/
structure Survives (s : DedupeHistory) : Prop where
  recognised : ∀ kept, ∀ x ∈ s.window.order, x ∈ s.saved → x ∈ (s.window.reopen kept).order
  inserted : ∀ kept, ∀ x, x ∈ s.window.order ∨ x ∈ (s.window.reopen kept).order → x ∈ s.inserted
  bounded : s.window.file.length ≤ 16 * (2 * s.window.capacity + s.batch)

/-- Each call finds the file as it should be. -/
def Ok (s : DedupeHistory) : DedupeEvent → Prop
  | .insert _ _ => s.window.fits = true
  | .reopen _ => True

instance (s : DedupeHistory) (e : DedupeEvent) : Decidable (s.Ok e) := by
  cases e
  all_goals unfold Ok; infer_instance

end DedupeHistory

/-! ## The last elements -/

section

variable {α : Type} {n : ℕ} {l m : List α} {x : α}

theorem length_lastOf (n : ℕ) (l : List α) : (lastOf n l).length ≤ n := by
  rw [lastOf, List.length_drop]
  omega

theorem lastOf_of_length_le (h : l.length ≤ n) : lastOf n l = l := by
  rw [lastOf, Nat.sub_eq_zero_of_le h, List.drop_zero]

theorem lastOf_subset (n : ℕ) (l : List α) : lastOf n l ⊆ l := List.drop_subset _ _

/-- The last of a list that goes on. -/
theorem lastOf_append (n : ℕ) (l m : List α) : lastOf n (lastOf n l ++ m) = lastOf n (l ++ m) := by
  have hdrop : lastOf n l ++ m = (l ++ m).drop (l.length - n) := by
    rw [lastOf, List.drop_append_of_le_length (Nat.sub_le _ _)]
  rw [hdrop]
  unfold lastOf
  rw [List.drop_drop, List.length_drop, List.length_append]
  congr 1
  omega

/-- What is among the last, and not of those that came last, was there before them. -/
theorem mem_lastOf_of_append (h : x ∈ lastOf n (l ++ m)) (hm : x ∉ m) : x ∈ lastOf n l := by
  rw [lastOf, List.drop_append] at h
  rcases List.mem_append.mp h with h | h
  · have hle : l.length - n ≤ (l ++ m).length - n := by
      rw [List.length_append]
      omega
    exact (List.drop_sublist_drop_left l hle).subset h
  · exact absurd (List.mem_of_mem_drop h) hm

end

namespace DedupeWindow

/-! ## The bytes of ids -/

variable {capacity : ℕ} {order ids es : List Uuid} {bytes t : List UInt8}

theorem length_bytesOf (ids : List Uuid) : (bytesOf ids).length = 16 * ids.length := by
  induction ids with
  | nil => rfl
  | cons id ids ih =>
    have hcons : bytesOf (id :: ids) = id.bytes ++ bytesOf ids := rfl
    rw [hcons, List.length_append, ih, id.length_bytes, List.length_cons]
    omega

theorem bytesOf_append (ids ids' : List Uuid) : bytesOf (ids ++ ids') = bytesOf ids ++ bytesOf ids' :=
  List.flatMap_append

theorem loadIds_short (h : bytes.length < 16) : loadIds bytes = [] := by
  rw [loadIds, Nat.div_eq_of_lt h, chunks]

theorem loadIds_cons (id : Uuid) (bytes : List UInt8) :
    loadIds (id.bytes ++ bytes) = id :: loadIds bytes := by
  have hcount : (id.bytes ++ bytes).length / 16 = bytes.length / 16 + 1 := by
    rw [List.length_append, id.length_bytes]
    omega
  have hlong : 16 ≤ (id.bytes ++ bytes).length := by
    rw [List.length_append, id.length_bytes]
    omega
  have htake : (id.bytes ++ bytes).take 16 = id.bytes := List.take_left' id.length_bytes
  have hdrop : (id.bytes ++ bytes).drop 16 = bytes := List.drop_left' id.length_bytes
  rw [loadIds, hcount, chunks, dif_pos hlong, hdrop, loadIds]
  simp only [htake]

/-- The ids in a piece of a file. -/
theorem loadIds_take (es : List Uuid) (ht : t.length < 16) (k : ℕ) :
    loadIds ((bytesOf es ++ t).take k) = es.take (k / 16) := by
  induction es generalizing k with
  | nil =>
    rw [List.take_nil]
    refine loadIds_short ?_
    rw [List.length_take]
    exact (Nat.min_le_right _ _).trans_lt ht
  | cons id es ih =>
    have hcons : bytesOf (id :: es) ++ t = id.bytes ++ (bytesOf es ++ t) := List.append_assoc _ _ _
    rw [hcons]
    by_cases hk : k < 16
    · rw [Nat.div_eq_of_lt hk, List.take_zero]
      refine loadIds_short ?_
      rw [List.length_take]
      exact (Nat.min_le_left _ _).trans_lt hk
    · obtain ⟨j, rfl⟩ : ∃ j, k = 16 + j := ⟨k - 16, by omega⟩
      have htake : (id.bytes ++ (bytesOf es ++ t)).take (16 + j)
          = id.bytes ++ (bytesOf es ++ t).take j := by
        have hlong : id.bytes.length ≤ 16 + j := by
          rw [id.length_bytes]
          omega
        rw [List.take_append, List.take_of_length_le hlong, id.length_bytes, Nat.add_sub_cancel_left]
      have hdiv : (16 + j) / 16 = j / 16 + 1 := by omega
      rw [htake, loadIds_cons, ih, hdiv, List.take_succ_cons]

theorem loadIds_bytesOf (es : List Uuid) : loadIds (bytesOf es) = es := by
  have h := loadIds_take es (t := []) (by decide) (16 * es.length)
  rw [List.append_nil, List.take_of_length_le (length_bytesOf es).le] at h
  rw [h, List.take_of_length_le]
  omega

/-- Every file is whole ids, and less than another one. -/
theorem exists_bytesOf (bytes : List UInt8) :
    ∃ t, t.length < 16 ∧ bytes = bytesOf (loadIds bytes) ++ t := by
  induction hn : bytes.length / 16 generalizing bytes with
  | zero =>
    have hshort : bytes.length < 16 := by omega
    exact ⟨bytes, hshort, by rw [loadIds_short hshort]; rfl⟩
  | succ n ih =>
    have hlong : 16 ≤ bytes.length := by omega
    have hhead : (bytes.take 16).length = 16 := by rw [List.length_take, Nat.min_eq_left hlong]
    obtain ⟨t, ht, heq⟩ := ih (bytes.drop 16) (by rw [List.length_drop]; omega)
    refine ⟨t, ht, ?_⟩
    have hcons := loadIds_cons ⟨bytes.take 16, hhead⟩ (bytes.drop 16)
    rw [List.take_append_drop] at hcons
    have hbytes : bytesOf (⟨bytes.take 16, hhead⟩ :: loadIds (bytes.drop 16)) ++ t
        = bytes.take 16 ++ (bytesOf (loadIds (bytes.drop 16)) ++ t) := List.append_assoc _ _ _
    rw [hcons, hbytes, ← heq, List.take_append_drop]

theorem loadIds_take_subset (bytes : List UInt8) (k : ℕ) :
    loadIds (bytes.take k) ⊆ loadIds bytes := by
  obtain ⟨t, ht, heq⟩ := exists_bytesOf bytes
  have htake := loadIds_take (loadIds bytes) ht k
  rw [← heq] at htake
  rw [htake]
  exact List.take_subset _ _

/-! ## The window -/

theorem rememberAll_old {id : Uuid} (h : id ∈ order) (ids : List Uuid) :
    rememberAll capacity order (id :: ids) = rememberAll capacity order ids := by
  rw [rememberAll, remember, if_pos h]
  rfl

theorem rememberAll_new {id : Uuid} (h : id ∉ order) (ids : List Uuid) :
    rememberAll capacity order (id :: ids)
      = ((rememberAll capacity (lastOf capacity (order ++ [id])) ids).1,
        id :: (rememberAll capacity (lastOf capacity (order ++ [id])) ids).2) := by
  rw [rememberAll, remember, if_neg h]
  rfl

/-- Remembering ids: the window is the last of what was there with the new ones, and stays
without duplicates all along. -/
theorem rememberAll_spec (h : order = lastOf capacity es) (hnodup : order.Nodup) (ids : List Uuid) :
    (rememberAll capacity order ids).1
        = lastOf capacity (es ++ (rememberAll capacity order ids).2) ∧
      (∀ j, (lastOf capacity (es ++ (rememberAll capacity order ids).2.take j)).Nodup) ∧
      (rememberAll capacity order ids).2 ⊆ ids ∧
      (rememberAll capacity order ids).2.length ≤ ids.length := by
  induction ids generalizing order es with
  | nil =>
    refine ⟨by simpa [rememberAll] using h, fun j => ?_, by simp [rememberAll], Nat.zero_le _⟩
    rw [rememberAll, List.take_nil, List.append_nil, ← h]
    exact hnodup
  | cons id ids ih =>
    by_cases hold : id ∈ order
    · rw [rememberAll_old hold]
      obtain ⟨horder, hwindows, hsub, hlength⟩ := ih h hnodup
      exact ⟨horder, hwindows, fun x hx => List.mem_cons_of_mem _ (hsub hx),
        hlength.trans (Nat.le_succ _)⟩
    · rw [rememberAll_new hold]
      have hnext : lastOf capacity (order ++ [id]) = lastOf capacity (es ++ [id]) := by
        rw [h, lastOf_append]
      have hnodup' : (lastOf capacity (order ++ [id])).Nodup := by
        refine List.Nodup.sublist (List.drop_sublist _ _) ?_
        refine List.nodup_append.mpr ⟨hnodup, List.nodup_singleton id, ?_⟩
        rintro x hx y hy rfl
        exact hold (List.mem_singleton.mp hy ▸ hx)
      obtain ⟨horder, hwindows, hsub, hlength⟩ := ih hnext hnodup'
      have hassoc : ∀ l, es ++ id :: l = (es ++ [id]) ++ l := fun l => by simp
      refine ⟨by rw [hassoc]; exact horder, fun j => ?_, ?_, ?_⟩
      · cases j with
        | zero =>
          rw [List.take_zero, List.append_nil, ← h]
          exact hnodup
        | succ j =>
          rw [List.take_succ_cons, hassoc]
          exact hwindows j
      · intro x hx
        rcases List.mem_cons.mp hx with rfl | hx
        · exact List.mem_cons_self
        · exact List.mem_cons_of_mem _ (hsub hx)
      · rw [List.length_cons, List.length_cons]
        exact Nat.succ_le_succ hlength

/-- Ids that are all new are all appended. -/
theorem rememberAll_of_new (hnew : (order ++ ids).Nodup) :
    (rememberAll capacity order ids).2 = ids := by
  induction ids generalizing order with
  | nil => rfl
  | cons id ids ih =>
    have hid : id ∉ order := by
      intro hmem
      exact (List.nodup_append.mp hnew).2.2 id hmem id List.mem_cons_self rfl
    have hrest : (lastOf capacity (order ++ [id]) ++ ids).Nodup := by
      refine hnew.sublist ?_
      have hassoc : order ++ id :: ids = (order ++ [id]) ++ ids := by simp
      rw [hassoc]
      exact (List.drop_sublist _ _).append (List.Sublist.refl _)
    rw [rememberAll_new hid, ih hrest]

/-- A file that ends in different ids loads as these. -/
theorem order_open (h : (lastOf capacity (loadIds bytes)).Nodup) :
    (DedupeWindow.open capacity bytes).order = lastOf capacity (loadIds bytes) := by
  have hall := @rememberAll_of_new capacity [] (lastOf capacity (loadIds bytes)) (by simpa using h)
  have hspec := (@rememberAll_spec capacity [] [] (by simp [lastOf]) List.nodup_nil
    (lastOf capacity (loadIds bytes))).1
  rw [hall, List.nil_append] at hspec
  rw [DedupeWindow.open]
  simp only
  rw [hspec, lastOf_of_length_le (length_lastOf _ _)]

end DedupeWindow

/-! ## What every history keeps -/

namespace DedupeHistory

open DedupeWindow

variable {s : DedupeHistory}

/-- What a crash would leave of the file. -/
def left (s : DedupeHistory) (kept : ℕ) : List Uuid :=
  loadIds (s.window.file.take (max s.window.durable kept))

/-- However the file is cut, it loads as a window, with the ids of successful calls that are
remembered in it. -/
structure Inv (s : DedupeHistory) : Prop where
  attached : s.window.attached = true ∨ 2 * s.window.capacity < s.window.ids
  counted : s.window.attached = true → 16 * s.window.ids ≤ s.window.durable
  durable : s.window.durable ≤ s.window.file.length
  windows : ∀ kept, (lastOf s.window.capacity (s.left kept)).Nodup
  saved : ∀ kept, ∀ x ∈ s.window.order, x ∈ s.saved → x ∈ lastOf s.window.capacity (s.left kept)
  loaded : ∀ x ∈ loadIds s.window.file, x ∈ s.inserted
  remembered : ∀ x ∈ s.window.order, x ∈ s.inserted
  bounded : s.window.file.length ≤ 16 * (2 * s.window.capacity + s.batch)

theorem Inv.survives (h : s.Inv) : s.Survives where
  recognised := by
    intro kept x hx hsaved
    rw [reopen, order_open (h.windows kept)]
    exact h.saved kept x hx hsaved
  inserted := by
    rintro kept x (hx | hx)
    · exact h.remembered x hx
    · rw [reopen, order_open (h.windows kept)] at hx
      exact h.loaded x (loadIds_take_subset _ _ (lastOf_subset _ _ hx))
  bounded := h.bounded

/-- A file that was opened is whole ids. -/
theorem open_eq (capacity : ℕ) (bytes : List UInt8) :
    (DedupeWindow.open capacity bytes).file = bytesOf (loadIds bytes) ∧
      (DedupeWindow.open capacity bytes).durable = (bytesOf (loadIds bytes)).length ∧
      (DedupeWindow.open capacity bytes).ids = (loadIds bytes).length := by
  obtain ⟨t, ht, heq⟩ := exists_bytesOf bytes
  have hlength := congrArg List.length heq
  rw [List.length_append, length_bytesOf] at hlength
  have hcount : bytes.length / 16 = (loadIds bytes).length := by omega
  have hwhole : bytes.length / 16 * 16 = (bytesOf (loadIds bytes)).length := by
    rw [hcount, length_bytesOf, Nat.mul_comm]
  refine ⟨?_, hwhole, hcount⟩
  rw [DedupeWindow.open]
  simp only
  rw [hwhole]
  exact (congrArg (List.take _) heq).trans List.take_left

theorem Inv.reopen (h : s.Inv) (kept : ℕ) : (s.step (.reopen kept)).Inv := by
  obtain ⟨hfile, hdurable, hids⟩ :=
    open_eq s.window.capacity (s.window.file.take (max s.window.durable kept))
  have horder := order_open (h.windows kept)
  have hleft : ∀ kept', (s.step (.reopen kept)).left kept' = s.left kept := by
    intro kept'
    have hlong : (s.step (.reopen kept)).window.file.length
        ≤ max (s.step (.reopen kept)).window.durable kept' := by
      simp only [step, DedupeWindow.reopen, hfile, hdurable]
      exact Nat.le_max_left _ _
    rw [left, List.take_of_length_le hlong]
    simp only [step, DedupeWindow.reopen, hfile, loadIds_bytesOf]
    rfl
  have hcapacity : (s.step (.reopen kept)).window.capacity = s.window.capacity := rfl
  have hwindow : (s.step (.reopen kept)).window.order
      = lastOf s.window.capacity (s.left kept) := horder
  refine
    { attached := .inl rfl, counted := ?_, durable := ?_, windows := ?_, saved := ?_,
      loaded := ?_, remembered := ?_, bounded := ?_ }
  · intro _
    simp only [step, DedupeWindow.reopen, hdurable, hids, length_bytesOf, le_refl]
  · simp only [step, DedupeWindow.reopen, hfile, hdurable, le_refl]
  · intro kept'
    rw [hleft, hcapacity]
    exact h.windows kept
  · intro kept' x hx _
    rw [hleft, hcapacity, ← hwindow]
    exact hx
  · intro x hx
    simp only [step, DedupeWindow.reopen, hfile, loadIds_bytesOf] at hx
    exact h.loaded x (loadIds_take_subset _ _ hx)
  · intro x hx
    rw [hwindow] at hx
    exact h.loaded x (loadIds_take_subset _ _ (lastOf_subset _ _ hx))
  · obtain ⟨t, -, heq⟩ := exists_bytesOf (s.window.file.take (max s.window.durable kept))
    have hlength := congrArg List.length heq
    rw [List.length_append, List.length_take] at hlength
    have hbound := h.bounded
    simp only [step, DedupeWindow.reopen, hfile]
    exact (show _ ≤ _ by omega : (bytesOf (loadIds (s.window.file.take
      (max s.window.durable kept)))).length ≤ s.window.file.length).trans hbound

/-- A file that fits is that of the window. -/
theorem Inv.exists_of_fits (h : s.Inv) (hfits : s.window.fits = true) :
    ∃ es, s.window.file = bytesOf es ∧ s.window.ids = es.length ∧
      s.window.durable = s.window.file.length ∧ s.window.order = lastOf s.window.capacity es ∧
      s.window.order.Nodup ∧ s.window.attached = true ∧ es.length ≤ 2 * s.window.capacity := by
  simp only [fits, Bool.and_eq_true, beq_iff_eq, decide_eq_true_eq] at hfits
  obtain ⟨⟨hlength, hcap⟩, hloads⟩ := hfits
  have hattached : s.window.attached = true := by
    rcases h.attached with hyes | hover
    · exact hyes
    · omega
  have hdurable : s.window.durable = s.window.file.length :=
    Nat.le_antisymm h.durable (hlength ▸ h.counted hattached)
  obtain ⟨t, ht, heq⟩ := exists_bytesOf s.window.file
  have hwhole := congrArg List.length heq
  rw [List.length_append, length_bytesOf] at hwhole
  have hnil : t = [] := List.eq_nil_of_length_eq_zero (by omega)
  rw [hnil, List.append_nil] at heq
  have hall : s.left s.window.file.length = loadIds s.window.file := by
    rw [left, List.take_of_length_le (Nat.le_max_right _ _)]
  have hnodup := h.windows s.window.file.length
  have horder := order_open hnodup
  rw [DedupeWindow.reopen] at hloads
  rw [← hloads] at horder
  refine ⟨loadIds s.window.file, heq, by omega, hdurable, ?_, ?_, hattached, by omega⟩
  · rw [horder, ← hall]
    rfl
  · rw [horder]
    exact hnodup

/-- What a call leaves, if the file fits: `es` is what is in the file, `fresh` what is new. -/
inductive Grows (w w' : DedupeWindow) (es fresh : List Uuid) : Bool → Prop where
  /-- Some of the new ids are in the file, and a piece of one. -/
  | torn (m : ℕ) (hm : 16 * es.length ≤ m) (hfile : w'.file = (bytesOf (es ++ fresh)).take m)
    (hdurable : w'.durable = w.durable) (hids : w'.ids = w.ids)
    (hattached : w'.attached = true) : Grows w w' es fresh false
  /-- All of them are. -/
  | whole (ok : Bool) (hfile : w'.file = bytesOf (es ++ fresh))
    (hdurable : w'.durable = w'.file.length) (hids : w'.ids = (es ++ fresh).length)
    (hattached : w'.attached = true) : Grows w w' es fresh ok
  /-- The file was written anew. -/
  | compacted (ok : Bool) (hfile : w'.file = bytesOf w'.order)
    (hdurable : w'.durable = w'.file.length)
    (hids : w'.attached = true ∧ w'.ids = w'.order.length ∨
      w'.attached = false ∧ 2 * w.capacity < w'.ids) :
    Grows w w' es fresh ok

theorem insertAll_grows {w : DedupeWindow} {es : List Uuid} (hfile : w.file = bytesOf es)
    (hids : w.ids = es.length) (hdurable : w.durable = w.file.length)
    (hattached : w.attached = true) (ids : List Uuid) (outcome : Outcome) :
    Grows w (w.insertAll ids outcome).1 es (rememberAll w.capacity w.order ids).2
        (w.insertAll ids outcome).2 ∧
      (w.insertAll ids outcome).1.order = (rememberAll w.capacity w.order ids).1 ∧
      (w.insertAll ids outcome).1.capacity = w.capacity := by
  rcases hall : rememberAll w.capacity w.order ids with ⟨order, fresh⟩
  have hcount : w.ids + fresh.length = (es ++ fresh).length := by rw [hids, List.length_append]
  have hwrite : ∀ bytes, ({ w with order := order } : DedupeWindow).write bytes
      = { w with order := order, file := w.file ++ bytes } := by
    intro bytes
    rw [write, if_pos hattached]
  unfold insertAll
  rw [hall]
  simp only [hwrite]
  split
  · next hnone =>
    rw [List.isEmpty_iff] at hnone
    subst hnone
    refine ⟨.whole true ?_ hdurable ?_ hattached, rfl, rfl⟩
    · rw [List.append_nil, hfile]
    · rw [List.append_nil, hids]
  · cases outcome with
    | torn kept =>
      refine ⟨.torn (16 * es.length + kept) (Nat.le_add_right _ _) ?_ rfl rfl hattached, rfl, rfl⟩
      rw [hfile, bytesOf_append, ← length_bytesOf, List.take_length_add_append]
    | unsynced =>
      refine ⟨.torn (bytesOf (es ++ fresh)).length ?_ ?_ rfl rfl hattached, rfl, rfl⟩
      · rw [length_bytesOf, List.length_append]
        omega
      · rw [List.take_length, hfile, bytesOf_append]
    | done =>
      simp only
      split
      · exact ⟨.compacted true rfl rfl (.inl ⟨rfl, rfl⟩), rfl, rfl⟩
      · refine ⟨.whole true ?_ rfl ?_ hattached, rfl, rfl⟩
        · rw [hfile, bytesOf_append]
        · exact hcount
    | uncompacted renamed =>
      simp only
      split
      · next hover =>
        cases renamed with
        | false =>
          refine ⟨.whole false ?_ rfl ?_ hattached, rfl, rfl⟩
          · rw [compact, hfile, bytesOf_append]
          · exact hcount
        | true => exact ⟨.compacted false rfl rfl (.inr ⟨rfl, hover⟩), rfl, rfl⟩
      · refine ⟨.whole true ?_ rfl ?_ hattached, rfl, rfl⟩
        · rw [hfile, bytesOf_append]
        · exact hcount

/-- What the file of a grown window loads as, however it is cut. -/
theorem Grows.loads {w w' : DedupeWindow} {es fresh : List Uuid} {ok : Bool}
    (h : Grows w w' es fresh ok) (hdurable : w.durable = 16 * es.length)
    (horder : w'.order = lastOf w.capacity (es ++ fresh)) (kept : ℕ) :
    (∃ j, loadIds (w'.file.take (max w'.durable kept)) = es ++ fresh.take j ∧
      (ok = true → es ++ fresh.take j = es ++ fresh)) ∨
      loadIds (w'.file.take (max w'.durable kept)) = lastOf w.capacity (es ++ fresh) := by
  cases h with
  | torn m hm hfile hdurable' =>
    refine .inl ⟨min (max w'.durable kept) m / 16 - es.length, ?_, fun hok => by cases hok⟩
    have htake := loadIds_take (es ++ fresh) (t := []) (by decide) (min (max w'.durable kept) m)
    have hle : es.length ≤ min (max w'.durable kept) m / 16 := by
      rw [Nat.le_div_iff_mul_le (by decide)]
      rw [hdurable', hdurable]
      omega
    rw [List.append_nil, List.take_append, List.take_of_length_le hle] at htake
    rw [hfile, List.take_take, htake]
  | whole ok hfile hdurable' =>
    refine .inl ⟨fresh.length, ?_, fun _ => by rw [List.take_length]⟩
    rw [List.take_length, List.take_of_length_le (by rw [hdurable']; exact Nat.le_max_left _ _),
      hfile, loadIds_bytesOf]
  | compacted ok hfile hdurable' =>
    right
    rw [List.take_of_length_le (by rw [hdurable']; exact Nat.le_max_left _ _), hfile,
      loadIds_bytesOf, horder]

theorem Inv.insert (h : s.Inv) {ids : List Uuid} {outcome : Outcome}
    (hfits : s.window.fits = true) : (s.step (.insert ids outcome)).Inv := by
  obtain ⟨es, hfile, hids, hdurable, horder, hnodup, hattached, hcap⟩ := h.exists_of_fits hfits
  obtain ⟨hgrows, horder', hcapacity⟩ := insertAll_grows hfile hids hdurable hattached ids outcome
  obtain ⟨hlast, hwindows, hsub, hcount⟩ := rememberAll_spec horder hnodup ids
  have hlength : s.window.file.length = 16 * es.length := by rw [hfile, length_bytesOf]
  rw [hlast] at horder'
  have hloads := hgrows.loads (hdurable.trans hlength) horder'
  have hold : ∀ x ∈ es, x ∈ s.inserted := by
    intro x hx
    refine h.loaded x ?_
    rw [hfile, loadIds_bytesOf]
    exact hx
  unfold step
  simp only
  generalize s.window.insertAll ids outcome = result at *
  obtain ⟨w', ok⟩ := result
  generalize (rememberAll s.window.capacity s.window.order ids).2 = fresh at *
  simp only at hgrows horder' hcapacity hloads ⊢
  have hins : ∀ x ∈ es ++ fresh, x ∈ s.inserted ++ ids := by
    intro x hx
    rcases List.mem_append.mp hx with hx | hx
    · exact List.mem_append_left _ (hold x hx)
    · exact List.mem_append_right _ (hsub hx)
  have hbytes : (bytesOf (es ++ fresh)).length
      ≤ 16 * (2 * s.window.capacity + max s.batch ids.length) := by
    rw [length_bytesOf, List.length_append]
    have := Nat.le_max_right s.batch ids.length
    omega
  have hwindow : (bytesOf w'.order).length
      ≤ 16 * (2 * s.window.capacity + max s.batch ids.length) := by
    rw [length_bytesOf, horder']
    have := length_lastOf s.window.capacity (es ++ fresh)
    omega
  refine
    { attached := ?_, counted := ?_, durable := ?_, windows := ?_, saved := ?_, loaded := ?_,
      remembered := ?_, bounded := ?_ }
  · cases hgrows with
    | torn m hm hf hd hi ha => exact .inl ha
    | whole ok hf hd hi ha => exact .inl ha
    | compacted ok hf hd hi =>
      rcases hi with ⟨ha, -⟩ | ⟨-, hover⟩
      · exact .inl ha
      · exact .inr (by simp only [hcapacity]; exact hover)
  · intro ha
    simp only at ha ⊢
    cases hgrows with
    | torn m hm hf hd hi =>
      rw [hi, hd, hids, hdurable, hlength]
    | whole ok hf hd hi =>
      rw [hi, hd, hf, length_bytesOf]
    | compacted ok hf hd hi =>
      rcases hi with ⟨-, hi⟩ | ⟨hdetached, -⟩
      · rw [hi, hd, hf, length_bytesOf]
      · rw [ha] at hdetached
        cases hdetached
  · cases hgrows with
    | torn m hm hf hd hi =>
      simp only
      rw [hd, hf, hdurable, hlength, List.length_take, length_bytesOf, List.length_append]
      omega
    | whole ok hf hd hi => exact hd.le
    | compacted ok hf hd hi => exact hd.le
  · intro kept
    simp only [left, hcapacity]
    rcases hloads kept with ⟨j, hload, -⟩ | hload
    · rw [hload]
      exact hwindows j
    · rw [hload, lastOf_of_length_le (length_lastOf _ _)]
      have hall := hwindows fresh.length
      rwa [List.take_length] at hall
  · intro kept x hx hsaved
    simp only [left, hcapacity]
    simp only [horder'] at hx
    rcases hloads kept with ⟨j, hload, hok⟩ | hload
    · rw [hload]
      cases ok with
      | true =>
        rw [hok rfl]
        exact hx
      | false =>
        -- it is none of the new ones, and was among the last before them
        have hfresh : x ∉ fresh := by simpa using (List.mem_filter.mp hsaved).2
        rw [← List.take_append_drop j fresh, ← List.append_assoc] at hx
        exact mem_lastOf_of_append hx fun hmem => hfresh (List.mem_of_mem_drop hmem)
    · rw [hload, lastOf_of_length_le (length_lastOf _ _)]
      exact hx
  · intro x hx
    simp only at hx ⊢
    refine hins x ?_
    cases hgrows with
    | torn m hm hf hd hi =>
      rw [hf] at hx
      have hall := loadIds_take_subset (bytesOf (es ++ fresh)) m hx
      rwa [loadIds_bytesOf] at hall
    | whole ok hf hd hi => rwa [hf, loadIds_bytesOf] at hx
    | compacted ok hf hd hi =>
      rw [hf, loadIds_bytesOf, horder'] at hx
      exact lastOf_subset _ _ hx
  · intro x hx
    simp only [horder'] at hx
    exact hins x (lastOf_subset _ _ hx)
  · simp only [hcapacity]
    cases hgrows with
    | torn m hm hf hd hi =>
      rw [hf]
      exact (List.length_take_le' _ _).trans hbytes
    | whole ok hf hd hi => rwa [hf]
    | compacted ok hf hd hi => rwa [hf]

/-- A new window and its empty file. -/
theorem inv_init (capacity : ℕ) : (init capacity).Inv where
  attached := .inl rfl
  counted := fun _ => le_rfl
  durable := le_rfl
  windows := fun kept => by simp [left, init, DedupeWindow.open, loadIds_short, lastOf]
  saved := fun kept x hx => by simp [init, DedupeWindow.open, lastOf, loadIds_short, rememberAll] at hx
  loaded := fun x hx => by simp [init, DedupeWindow.open, loadIds_short] at hx
  remembered := fun x hx => by simp [init, DedupeWindow.open, lastOf, loadIds_short, rememberAll] at hx
  bounded := Nat.zero_le _

theorem inv_step (s : DedupeHistory) (e : DedupeEvent) (h : s.Inv) (hok : s.Ok e) :
    (s.step e).Inv := by
  cases e with
  | insert ids outcome => exact h.insert hok
  | reopen kept => exact h.reopen kept

/-- The window survives every crash in a history where each call finds a file that fits. -/
theorem dedupe_survives (capacity : ℕ) (es : List DedupeEvent)
    (h : Runs.Meets step Ok (init capacity) es) :
    (Runs.run step (init capacity) es).Survives :=
  (h.invariant inv_step (inv_init capacity)).survives

end DedupeHistory

/-- An id of sixteen equal bytes. -/
def exampleId (b : UInt8) : Uuid := ⟨List.replicate 16 b, List.length_replicate⟩

namespace DedupeHistory

/-- A batch is saved, and a crash tears the next one. -/
theorem dedupe_survives_torn :
    let es : List DedupeEvent :=
      [.insert [exampleId 1, exampleId 2] .done, .insert [exampleId 3] (.torn 5), .reopen 40]
    (Runs.run step (init 4) es).Survives ∧
      (Runs.run step (init 4) es).window.order = [exampleId 1, exampleId 2] := by
  intro es
  have hmeets : Runs.Meets step Ok (init 4) es := by decide +kernel
  exact ⟨dedupe_survives 4 es hmeets, by decide +kernel⟩

/-- A write that fails behind five bytes, and one that does not: after a restart the id saved
is not known, and one that was never inserted is. -/
theorem torn_write_shifts : ¬ (Runs.run step (init 4)
    [.insert [exampleId 1] (.torn 5), .insert [exampleId 2] .done]).Survives := by
  intro h
  have hknown := h.recognised 0 (exampleId 2) (by decide +kernel) (by decide +kernel)
  revert hknown
  decide +kernel

end DedupeHistory

end LogLess.Peer
