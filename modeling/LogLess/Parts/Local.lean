import LogLess.Lib.Assoc
import LogLess.Lib.Runs
import LogLess.Model

/-!
# The parts on central's own disk

Uploads, replica fetches and the deletes of a sweep work on one directory at once. A counter says
how many bytes are installed and another how many are promised. A part's file and the counter of
its bytes change in separate steps, and between them the directory may be measured again.

A file under its final name is a whole part, so its size is that of the part its name is the hash
of: `bytesOf`.
-/

namespace LogLess.Parts

/-- The node and the name of a part. -/
structure Place where
  node : Text
  name : Text
deriving DecidableEq

/-- Who brings a part. -/
inductive Kind where
  | upload
  | fetch
deriving DecidableEq

/-- An operation under way, by the step it takes next. -/
inductive Op where
  /-- The part was not there: `begin`. -/
  | absent (kind : Kind) (place : Place) (size : ℕ)
  /-- Marked as arriving: `room`. -/
  | begun (kind : Kind) (place : Place) (size : ℕ)
  /-- Its bytes are promised, and on their way. -/
  | receiving (kind : Kind) (place : Place) (size : ℕ)
  /-- Written, verified and synced: the look under the `install` lock. -/
  | verified (kind : Kind) (place : Place) (size : ℕ)
  | installing (place : Place) (size : ℕ)
  /-- Renamed into place: the directories are to be synced. -/
  | renamed (place : Place) (size : ℕ)
  /-- The outcome is known: `settle`. -/
  | ended (place : Place) (size : ℕ) (installed : Bool)
  /-- A delete that has read the size. -/
  | sized (place : Place) (size : ℕ)
  /-- A delete that has removed the file: the counter is next. -/
  | unlinked (size : ℕ)
deriving DecidableEq

namespace Op

/-- The key that the operation holds in `arriving`. -/
def arriving : Op → Option Place
  | begun _ place _ => some place
  | receiving _ place _ => some place
  | verified _ place _ => some place
  | installing place _ => some place
  | renamed place _ => some place
  | ended place _ _ => some place
  | _ => none

/-- It holds the `install` lock. -/
def locks : Op → Bool
  | installing _ _ => true
  | renamed _ _ => true
  | _ => false

/-- The bytes it was promised. -/
def held : Op → ℕ
  | receiving _ _ size => size
  | verified _ _ size => size
  | installing _ size => size
  | renamed _ size => size
  | ended _ size _ => size
  | _ => 0

/-- The bytes it installed and has not counted yet. -/
def grown : Op → ℕ
  | renamed _ size => size
  | ended _ size true => size
  | _ => 0

/-- The bytes it removed and has not counted yet. -/
def gone : Op → ℕ
  | unlinked size => size
  | _ => 0

theorem grown_le_held (op : Op) : op.grown ≤ op.held := by
  cases op with
  | ended place size installed =>
    cases installed
    · exact Nat.zero_le size
    · exact le_refl size
  | renamed place size => exact le_refl size
  | _ => exact Nat.zero_le _

end Op

/-- `LocalStore`, with the operations that threads have under way. -/
structure LocalStore where
  /-- 0: no budget. -/
  budget : ℕ
  /-- The installed parts. -/
  files : List Place
  /-- Bytes of installed parts. -/
  used : ℕ
  /-- Bytes promised to uploads in flight. -/
  reserved : ℕ
  ops : List (ℕ × Op)

inductive StoreEvent where
  /-- `room` for a presign. `walk` is what measuring the directory finds, if it is time to. -/
  | check (size : ℕ) (walk : Option ℕ)
  | head (id : ℕ) (kind : Kind) (place : Place) (size : ℕ) (stat : Bool)
  | begin (id : ℕ)
  | reserve (id : ℕ) (walk : Option ℕ)
  | arrive (id : ℕ) (whole : Bool)
  | look (id : ℕ) (stat : Bool)
  | rename (id : ℕ) (done : Bool)
  | sync (id : ℕ) (done : Bool)
  | settle (id : ℕ)
  | stat (id : ℕ) (place : Place) (found : Bool)
  | unlink (id : ℕ) (done : Bool)
  | count (id : ℕ)

/-- The store at its start. -/
def LocalStore.open (bytesOf : Place → ℕ) (budget : ℕ) (files : List Place) : LocalStore where
  budget := budget
  files := files
  used := (files.map bytesOf).sum
  reserved := 0
  ops := []

namespace LocalStore

variable (bytesOf : Place → ℕ)

/-- `dir_bytes` of a directory that can be read. -/
def total (s : LocalStore) : ℕ := (s.files.map bytesOf).sum

/-- `present`: a regular file of that name and size. -/
def present (s : LocalStore) (place : Place) (size : ℕ) : Bool :=
  place ∈ s.files && bytesOf place == size

def isOver (s : LocalStore) (size : ℕ) : Bool :=
  s.budget != 0 && s.budget < s.used + s.reserved + size

/-- The re-measurement of `room`. -/
def measure (s : LocalStore) (size : ℕ) (walk : Option ℕ) : LocalStore :=
  match walk with
  | some bytes => if s.isOver size then { s with used := bytes } else s
  | none => s

/-- `room`, and with `reserve` the promise. -/
def room (s : LocalStore) (size : ℕ) (walk : Option ℕ) (reserve : Bool) : LocalStore × Bool :=
  let s := s.measure size walk
  if s.isOver size then (s, false)
  else (if reserve then { s with reserved := s.reserved + size } else s, true)

/-- An operation takes a step. -/
def put (s : LocalStore) (id : ℕ) (op : Op) : LocalStore :=
  { s with ops := Assoc.insert s.ops id op }

/-- An operation is over. -/
def finish (s : LocalStore) (id : ℕ) : LocalStore := { s with ops := Assoc.erase s.ops id }

/-- A part that is not there, as an upload's head or a catalog page names it. -/
def head (s : LocalStore) (id : ℕ) (kind : Kind) (place : Place) (size : ℕ) (stat : Bool) :
    LocalStore :=
  if (Assoc.get s.ops id).isSome || !stat || s.present bytesOf place size then s
  else s.put id (.absent kind place size)

/-- `begin`, and what is not fresh ends there. -/
def begin (s : LocalStore) (id : ℕ) : LocalStore :=
  match Assoc.get s.ops id with
  | some (.absent kind place size) =>
    if s.ops.any fun x => x.2.arriving == some place then s.finish id
    else s.put id (.begun kind place size)
  | _ => s

def reserve (s : LocalStore) (id : ℕ) (walk : Option ℕ) : LocalStore :=
  match Assoc.get s.ops id with
  | some (.begun kind place size) =>
    let r := s.room size walk true
    if r.2 then r.1.put id (.receiving kind place size) else r.1.finish id
  | _ => s

/-- The body has arrived: whole and with the hash that is its name, or not. -/
def arrive (s : LocalStore) (id : ℕ) (whole : Bool) : LocalStore :=
  match Assoc.get s.ops id with
  | some (.receiving kind place size) =>
    if whole && bytesOf place == size then s.put id (.verified kind place size)
    else s.put id (.ended place size false)
  | _ => s

def look (s : LocalStore) (id : ℕ) (stat : Bool) : LocalStore :=
  match Assoc.get s.ops id with
  | some (.verified kind place size) =>
    if s.ops.any fun x => x.2.locks then s
    -- a fetch that lost the race has succeeded all the same
    else if stat && s.present bytesOf place size then s.put id (.ended place size (kind == .fetch))
    else s.put id (.installing place size)
  | _ => s

def rename (s : LocalStore) (id : ℕ) (done : Bool) : LocalStore :=
  match Assoc.get s.ops id with
  | some (.installing place size) =>
    if done then
      { s.put id (.renamed place size) with
        files := if place ∈ s.files then s.files else s.files ++ [place] }
    else s.put id (.ended place size false)
  | _ => s

/-- The two `sync_dir` after a rename. -/
def sync (s : LocalStore) (id : ℕ) (done : Bool) : LocalStore :=
  match Assoc.get s.ops id with
  | some (.renamed place size) => s.put id (.ended place size done)
  | _ => s

def settle (s : LocalStore) (id : ℕ) : LocalStore :=
  match Assoc.get s.ops id with
  | some (.ended _ size installed) =>
    { s.finish id with
      reserved := s.reserved - size
      used := if installed then s.used + size else s.used }
  | _ => s

/-- `delete` reads the size. -/
def stat (s : LocalStore) (id : ℕ) (place : Place) (found : Bool) : LocalStore :=
  if (Assoc.get s.ops id).isSome then s
  else s.put id (.sized place (if found && place ∈ s.files then bytesOf place else 0))

/-- `delete` removes the file. -/
def unlink (s : LocalStore) (id : ℕ) (done : Bool) : LocalStore :=
  match Assoc.get s.ops id with
  | some (.sized place size) =>
    if done && place ∈ s.files then
      { s.put id (.unlinked size) with files := s.files.filter (· ≠ place) }
    else s.finish id
  | _ => s

/-- `delete` counts the file. -/
def count (s : LocalStore) (id : ℕ) : LocalStore :=
  match Assoc.get s.ops id with
  | some (.unlinked size) => { s.finish id with used := s.used - size }
  | _ => s

def step (s : LocalStore) : StoreEvent → LocalStore
  | .check size walk => (s.room size walk false).1
  | .head id kind place size stat => s.head bytesOf id kind place size stat
  | .begin id => s.begin id
  | .reserve id walk => s.reserve id walk
  | .arrive id whole => s.arrive bytesOf id whole
  | .look id stat => s.look bytesOf id stat
  | .rename id done => s.rename id done
  | .sync id done => s.sync id done
  | .settle id => s.settle id
  | .stat id place found => s.stat bytesOf id place found
  | .unlink id done => s.unlink id done
  | .count id => s.count id

/-- No operation has changed the directory without having counted it. -/
def quiet (s : LocalStore) : Bool := s.ops.all fun x => x.2.grown == 0 && x.2.gone == 0

/-- A re-measurement counts every installed part, while no counter is behind the directory. -/
def Measures (s : LocalStore) (size : ℕ) (walk : Option ℕ) : Prop :=
  ∀ bytes, walk = some bytes → s.isOver size = true → bytes = s.total bytesOf ∧ s.quiet = true

/-- The counters are measured when they are up to date, the directories can be synced after a
rename, a part is not there when it is about to be installed (an upload sees it if it is), and a
delete has read the size of the file that it removes and finds its bytes counted. -/
def Fine (s : LocalStore) : StoreEvent → Prop
  | .check size walk => s.Measures bytesOf size walk
  | .reserve id walk => ∀ kind place size, Assoc.get s.ops id = some (.begun kind place size) →
      s.Measures bytesOf size walk
  | .look id stat => ∀ kind place size, Assoc.get s.ops id = some (.verified kind place size) →
      place ∈ s.files → kind = .upload ∧ stat = true
  | .sync _ done => done = true
  | .unlink id done => ∀ place size, Assoc.get s.ops id = some (.sized place size) →
      done = true → place ∈ s.files → size = bytesOf place
  | .count id => ∀ size, Assoc.get s.ops id = some (.unlinked size) → size ≤ s.used
  | _ => True

/-- The installed parts fit the budget, and with nothing in flight the counters are exact. -/
def Safe (s : LocalStore) : Prop :=
  s.total bytesOf ≤ s.budget ∧
    (s.ops = [] → s.reserved = 0 ∧ s.used = s.total bytesOf)

/-! ## What every step keeps -/

/-- A sum over the operations under way. -/
def sum (s : LocalStore) (f : Op → ℕ) : ℕ := (s.ops.map fun x => f x.2).sum

structure Inv (s : LocalStore) : Prop where
  ids : (s.ops.map Prod.fst).Nodup
  files : s.files.Nodup
  budget : 0 < s.budget
  /-- One upload per part at a time. -/
  arriving : ∀ id id' op op' place, Assoc.get s.ops id = some op → Assoc.get s.ops id' = some op' →
    op.arriving = some place → op'.arriving = some place → id = id'
  verified : ∀ id kind place size, Assoc.get s.ops id = some (.verified kind place size) →
    size = bytesOf place
  installing : ∀ id place size, Assoc.get s.ops id = some (.installing place size) →
    size = bytesOf place ∧ place ∉ s.files
  reserved : s.reserved = s.sum Op.held
  used : s.used + s.sum Op.grown = s.total bytesOf + s.sum Op.gone
  fits : s.used + s.reserved ≤ s.budget

variable {bytesOf} {s t : LocalStore} {id : ℕ}

/-- From `s` to `t` one operation has moved to `o`, or is over. -/
structure Moves (s t : LocalStore) (id : ℕ) (o : Option Op) : Prop where
  budget : t.budget = s.budget
  ids : (s.ops.map Prod.fst).Nodup → (t.ops.map Prod.fst).Nodup
  get : ∀ id', Assoc.get t.ops id' = if id' = id then o else Assoc.get s.ops id'
  sum : (s.ops.map Prod.fst).Nodup → ∀ f : Op → ℕ,
    t.sum f + ((Assoc.get s.ops id).map f).getD 0 = s.sum f + (o.map f).getD 0

theorem moves_put (s : LocalStore) (id : ℕ) (op : Op) (files : List Place) (used reserved : ℕ) :
    Moves s { s.put id op with files := files, used := used, reserved := reserved } id
      (some op) where
  budget := rfl
  ids h := Assoc.nodup_keys_insert h id op
  get _ := Assoc.get_insert ..
  sum h f := Assoc.sum_insert h f id op

theorem moves_finish (s : LocalStore) (id : ℕ) (used reserved : ℕ) :
    Moves s { s.finish id with used := used, reserved := reserved } id none where
  budget := rfl
  ids h := Assoc.nodup_keys_erase h id
  get _ := Assoc.get_erase ..
  sum h f := (Assoc.sum_erase h f id).symm

/-- An amount of an operation that may be over. -/
def amount (f : Op → ℕ) (o : Option Op) : ℕ := (o.map f).getD 0

/-- One operation has moved, and the counters and the directory with it. -/
theorem Inv.move (hs : s.Inv bytesOf) {o o' : Option Op} (hm : Moves s t id o')
    (ho : Assoc.get s.ops id = o)
    (harriving : ∀ op place, o' = some op → op.arriving = some place →
      (∃ op₀, o = some op₀ ∧ op₀.arriving = some place) ∨
        ∀ id' op₀, Assoc.get s.ops id' = some op₀ → op₀.arriving ≠ some place)
    (hverified : ∀ kind place size, o' = some (.verified kind place size) → size = bytesOf place)
    (hinstalling : ∀ place size, o' = some (.installing place size) →
      size = bytesOf place ∧ place ∉ t.files)
    (hfiles : t.files.Nodup)
    (hothers : ∀ id' place size, id' ≠ id → Assoc.get s.ops id' = some (.installing place size) →
      place ∉ t.files)
    (hreserved : t.reserved + amount Op.held o = s.reserved + amount Op.held o')
    (hused : t.used + amount Op.grown o' + (s.total bytesOf + amount Op.gone o)
      = s.used + amount Op.grown o + (t.total bytesOf + amount Op.gone o'))
    (hfits : t.used + t.reserved ≤ s.budget) : t.Inv bytesOf := by
  have hheld := hm.sum hs.ids Op.held
  have hgrown := hm.sum hs.ids Op.grown
  have hgone := hm.sum hs.ids Op.gone
  rw [ho] at hheld hgrown hgone
  simp only [amount] at hreserved hused
  refine ⟨hm.ids hs.ids, hfiles, hm.budget ▸ hs.budget, ?_, ?_, ?_, ?_, ?_, ?_⟩
  · -- the one that moved holds the key it held, or one that nobody holds
    have hnew : ∀ id' op op₁ place, id' ≠ id → o' = some op → Assoc.get s.ops id' = some op₁ →
        op.arriving = some place → op₁.arriving ≠ some place := by
      intro id' op op₁ place hne hop hop₁ hplace hplace₁
      rcases harriving op place hop hplace with ⟨op₀, hold, hkey⟩ | hfresh
      · exact hne (hs.arriving id' id op₁ op₀ place hop₁ (ho.trans hold) hplace₁ hkey)
      · exact hfresh id' op₁ hop₁ hplace₁
    intro id₁ id₂ op₁ op₂ place h₁ h₂ hplace₁ hplace₂
    rw [hm.get] at h₁ h₂
    by_contra hne
    split at h₁
    · next heq₁ =>
      have hne₂ : id₂ ≠ id := fun heq₂ => hne (heq₁.trans heq₂.symm)
      rw [if_neg hne₂] at h₂
      exact hnew id₂ op₁ op₂ place hne₂ h₁ h₂ hplace₁ hplace₂
    · next hne₁ =>
      split at h₂
      · exact hnew id₁ op₂ op₁ place hne₁ h₂ h₁ hplace₂ hplace₁
      · exact hne (hs.arriving id₁ id₂ op₁ op₂ place h₁ h₂ hplace₁ hplace₂)
  · intro id' kind place size h
    rw [hm.get] at h
    split at h
    · exact hverified kind place size h
    · exact hs.verified id' kind place size h
  · intro id' place size h
    rw [hm.get] at h
    split at h
    · exact hinstalling place size h
    · next hne => exact ⟨(hs.installing id' place size h).1, hothers id' place size hne h⟩
  · have h := hs.reserved
    omega
  · have h := hs.used
    omega
  · rw [hm.budget]
    exact hfits

/-- One operation has moved, and the directory has not. -/
theorem Inv.moveOnly (hs : s.Inv bytesOf) {o o' : Option Op} (hm : Moves s t id o')
    (ho : Assoc.get s.ops id = o) (hfiles : t.files = s.files)
    (harriving : ∀ op place, o' = some op → op.arriving = some place →
      (∃ op₀, o = some op₀ ∧ op₀.arriving = some place) ∨
        ∀ id' op₀, Assoc.get s.ops id' = some op₀ → op₀.arriving ≠ some place)
    (hverified : ∀ kind place size, o' = some (.verified kind place size) → size = bytesOf place)
    (hinstalling : ∀ place size, o' = some (.installing place size) →
      size = bytesOf place ∧ place ∉ s.files)
    (hreserved : t.reserved + amount Op.held o = s.reserved + amount Op.held o')
    (hused : t.used + amount Op.grown o' + amount Op.gone o
      = s.used + amount Op.grown o + amount Op.gone o')
    (hfits : t.used + t.reserved ≤ s.budget) : t.Inv bytesOf := by
  have htotal : t.total bytesOf = s.total bytesOf := by rw [total, total, hfiles]
  apply hs.move hm ho harriving hverified
  · rw [hfiles]
    exact hinstalling
  · rw [hfiles]
    exact hs.files
  · intro id' place size _ h
    rw [hfiles]
    exact (hs.installing id' place size h).2
  · exact hreserved
  · omega
  · exact hfits

/-! ### One step -/

theorem measure_of_fine (hs : s.Inv bytesOf) {size : ℕ} {walk : Option ℕ}
    (hfine : s.Measures bytesOf size walk) : s.measure size walk = s := by
  cases walk with
  | none => rfl
  | some bytes =>
    rw [measure]
    by_cases hover : s.isOver size = true
    · obtain ⟨rfl, hquiet⟩ := hfine bytes rfl hover
      have hzero : ∀ x ∈ s.ops, x.2.grown = 0 ∧ x.2.gone = 0 := by
        intro x hx
        have h := List.all_eq_true.mp hquiet x hx
        simpa using h
      have hsum : ∀ f : Op → ℕ, (∀ x ∈ s.ops, f x.2 = 0) → s.sum f = 0 := by
        intro f hf
        apply List.sum_eq_zero
        intro n hn
        obtain ⟨x, hx, rfl⟩ := List.mem_map.mp hn
        exact hf x hx
      have hgrown := hsum Op.grown fun x hx => (hzero x hx).1
      have hgone := hsum Op.gone fun x hx => (hzero x hx).2
      have hused := hs.used
      have hexact : s.total bytesOf = s.used := by omega
      rw [if_pos hover, hexact]
    · rw [if_neg hover]

/-- `room` under a budget: what it promises fits. -/
theorem room_of_fine (hs : s.Inv bytesOf) {size : ℕ} {walk : Option ℕ} {reserve : Bool}
    (hfine : s.Measures bytesOf size walk) :
    s.room size walk reserve = (s, false) ∨
      (s.used + s.reserved + size ≤ s.budget ∧
        s.room size walk reserve =
          (if reserve then { s with reserved := s.reserved + size } else s, true)) := by
  rw [room, measure_of_fine hs hfine]
  by_cases hover : s.isOver size = true
  · left
    rw [if_pos hover]
  · right
    have hbudget := hs.budget
    rw [if_neg hover]
    simp only [isOver, Bool.and_eq_true, bne_iff_ne, ne_eq, decide_eq_true_eq] at hover
    exact ⟨by omega, rfl⟩

theorem Inv.check (hs : s.Inv bytesOf) {size : ℕ} {walk : Option ℕ}
    (hfine : s.Measures bytesOf size walk) : (s.room size walk false).1.Inv bytesOf := by
  rcases room_of_fine hs hfine with h | ⟨-, h⟩
  all_goals
    rw [h]
    exact hs

/-- An operation without a key, without bytes and not about to install. -/
theorem Inv.idle (hs : s.Inv bytesOf) (hnone : Assoc.get s.ops id = none) {op : Op}
    (harriving : op.arriving = none) (hheld : op.held = 0) (hgrown : op.grown = 0)
    (hgone : op.gone = 0) : (s.put id op).Inv bytesOf := by
  apply hs.moveOnly (moves_put s id op s.files s.used s.reserved) hnone rfl
  · rintro _ place ⟨⟩ hplace
    rw [harriving] at hplace
    cases hplace
  · rintro kind place size ⟨⟩
    cases harriving
  · rintro place size ⟨⟩
    cases harriving
  · simp [amount, hheld]
  · simp [amount, hgrown, hgone]
  · exact hs.fits

/-- An operation that holds nothing is over. -/
theorem Inv.over (hs : s.Inv bytesOf) {op : Op} (hop : Assoc.get s.ops id = some op)
    (hheld : op.held = 0) (hgrown : op.grown = 0) (hgone : op.gone = 0) :
    (s.finish id).Inv bytesOf := by
  apply hs.moveOnly (moves_finish s id s.used s.reserved) hop rfl
  · rintro _ _ ⟨⟩
  · rintro _ _ _ ⟨⟩
  · rintro _ _ ⟨⟩
  · simp [amount, hheld]
  · simp [amount, hgrown, hgone]
  · exact hs.fits

theorem Inv.head (hs : s.Inv bytesOf) (id : ℕ) (kind : Kind) (place : Place) (size : ℕ)
    (stat : Bool) : (s.head bytesOf id kind place size stat).Inv bytesOf := by
  unfold LocalStore.head
  split
  · exact hs
  · next h =>
    simp only [Bool.or_eq_true, not_or, Bool.not_eq_true, Option.isSome_eq_false_iff,
      Option.isNone_iff_eq_none] at h
    exact hs.idle h.1.1 rfl rfl rfl rfl

theorem Inv.begin (hs : s.Inv bytesOf) (id : ℕ) : (s.begin id).Inv bytesOf := by
  unfold LocalStore.begin
  split
  · next kind place size hop =>
    split
    · exact hs.over hop rfl rfl rfl
    · next hfresh =>
      apply hs.moveOnly (moves_put s id _ s.files s.used s.reserved) hop rfl
      · rintro _ _ ⟨⟩ ⟨⟩
        right
        intro id' op₀ hop₀ hplace
        apply hfresh
        rw [List.any_eq_true]
        exact ⟨(id', op₀), Assoc.mem_of_get hop₀, by simp [hplace]⟩
      · rintro _ _ _ ⟨⟩
      · rintro _ _ ⟨⟩
      · rfl
      · rfl
      · exact hs.fits
  · exact hs

theorem Inv.reserve (hs : s.Inv bytesOf) {walk : Option ℕ}
    (hfine : s.Fine bytesOf (.reserve id walk)) : (s.reserve id walk).Inv bytesOf := by
  unfold LocalStore.reserve
  split
  · next kind place size hop =>
    rcases @room_of_fine _ _ hs size walk true (hfine kind place size hop) with h | ⟨hfits, h⟩
    · simp only [h, Bool.false_eq_true, if_false]
      exact hs.over hop rfl rfl rfl
    · simp only [h, if_true]
      apply hs.moveOnly (moves_put s id _ s.files s.used (s.reserved + size)) hop rfl
      · rintro _ _ ⟨⟩ ⟨⟩
        exact .inl ⟨_, rfl, rfl⟩
      · rintro _ _ _ ⟨⟩
      · rintro _ _ ⟨⟩
      · rfl
      · rfl
      · show s.used + (s.reserved + size) ≤ s.budget
        omega
  · exact hs

/-- A step of an arriving part that changes no counter and not the directory. -/
theorem Inv.onward (hs : s.Inv bytesOf) {op₀ : Op} (hop : Assoc.get s.ops id = some op₀) (op : Op)
    (harriving : op.arriving = op₀.arriving)
    (hverified : ∀ kind place size, op = .verified kind place size → size = bytesOf place)
    (hinstalling : ∀ place size, op = .installing place size →
      size = bytesOf place ∧ place ∉ s.files)
    (hheld : op.held = op₀.held) (hgrown : op.grown = op₀.grown) (hgone : op.gone = op₀.gone) :
    (s.put id op).Inv bytesOf := by
  apply hs.moveOnly (moves_put s id op s.files s.used s.reserved) hop rfl
  · rintro _ place ⟨⟩ hplace
    exact .inl ⟨op₀, rfl, by rw [← harriving, hplace]⟩
  · rintro kind place size ⟨⟩
    exact hverified kind place size rfl
  · rintro place size ⟨⟩
    exact hinstalling place size rfl
  · simp [amount, hheld]
  · simp [amount, hgrown, hgone]
  · exact hs.fits

theorem Inv.arrive (hs : s.Inv bytesOf) (id : ℕ) (whole : Bool) :
    (s.arrive bytesOf id whole).Inv bytesOf := by
  unfold LocalStore.arrive
  split
  · next kind place size hop =>
    split
    · next hwhole =>
      simp only [Bool.and_eq_true, beq_iff_eq] at hwhole
      refine hs.onward hop _ rfl ?_ ?_ rfl rfl rfl
      · rintro _ _ _ ⟨⟩
        exact hwhole.2.symm
      · rintro _ _ ⟨⟩
    · refine hs.onward hop _ rfl ?_ ?_ rfl rfl rfl
      · rintro _ _ _ ⟨⟩
      · rintro _ _ ⟨⟩
  · exact hs

theorem Inv.look (hs : s.Inv bytesOf) {stat : Bool} (hfine : s.Fine bytesOf (.look id stat)) :
    (s.look bytesOf id stat).Inv bytesOf := by
  unfold LocalStore.look
  split
  · next kind place size hop =>
    have hsize := hs.verified id kind place size hop
    split
    · exact hs
    · split
      · next hfound =>
        simp only [Bool.and_eq_true, present, decide_eq_true_eq] at hfound
        obtain ⟨rfl, -⟩ := hfine kind place size hop hfound.2.1
        refine hs.onward hop _ rfl ?_ ?_ rfl rfl rfl
        · rintro _ _ _ ⟨⟩
        · rintro _ _ ⟨⟩
      · next hmissing =>
        refine hs.onward hop _ rfl ?_ ?_ rfl rfl rfl
        · rintro _ _ _ ⟨⟩
        · rintro _ _ ⟨⟩
          refine ⟨hsize, fun hmem => hmissing ?_⟩
          obtain ⟨-, rfl⟩ := hfine kind place size hop hmem
          simp [present, hmem, hsize]
  · exact hs

theorem Inv.rename (hs : s.Inv bytesOf) (id : ℕ) (done : Bool) :
    (s.rename id done).Inv bytesOf := by
  unfold LocalStore.rename
  split
  · next place size hop =>
    obtain ⟨hsize, habsent⟩ := hs.installing id place size hop
    split
    · simp only
      have htotal : ((s.files ++ [place]).map bytesOf).sum = s.total bytesOf + size := by
        rw [List.map_append, List.sum_append, List.map_singleton, List.sum_singleton, ← hsize]
        rfl
      apply hs.move (moves_put s id _ (s.files ++ [place]) s.used s.reserved) hop
      · rintro _ _ ⟨⟩ ⟨⟩
        exact .inl ⟨_, rfl, rfl⟩
      · rintro _ _ _ ⟨⟩
      · rintro _ _ ⟨⟩
      · rw [List.nodup_append]
        refine ⟨hs.files, List.nodup_singleton place, ?_⟩
        rintro x hx y hy rfl
        exact habsent (List.mem_singleton.mp hy ▸ hx)
      · intro id' place' size' hne h hmem
        rcases List.mem_append.mp hmem with hmem | hmem
        · exact (hs.installing id' place' size' h).2 hmem
        · -- two operations do not bring one part
          obtain rfl := List.mem_singleton.mp hmem
          exact hne (hs.arriving id' id _ _ place' h hop rfl rfl)
      · rfl
      · show s.used + size + (s.total bytesOf + 0)
          = s.used + 0 + (((s.files ++ [place]).map bytesOf).sum + 0)
        omega
      · exact hs.fits
    · refine hs.onward hop _ rfl ?_ ?_ rfl rfl rfl
      · rintro _ _ _ ⟨⟩
      · rintro _ _ ⟨⟩
  · exact hs

theorem Inv.sync (hs : s.Inv bytesOf) (id : ℕ) : (s.sync id true).Inv bytesOf := by
  unfold LocalStore.sync
  split
  · next place size hop =>
    refine hs.onward hop _ rfl ?_ ?_ rfl rfl rfl
    · rintro _ _ _ ⟨⟩
    · rintro _ _ ⟨⟩
  · exact hs

/-- What an operation holds is part of what is reserved. -/
theorem held_le (hs : s.Inv bytesOf) {op : Op} (hop : Assoc.get s.ops id = some op) :
    op.held ≤ s.reserved := by
  have h := Assoc.sum_erase hs.ids Op.held id
  rw [hop] at h
  rw [hs.reserved, sum, h]
  exact Nat.le_add_left _ _

theorem Inv.settle (hs : s.Inv bytesOf) (id : ℕ) : (s.settle id).Inv bytesOf := by
  unfold LocalStore.settle
  split
  · next place size installed hop =>
    have hle : size ≤ s.reserved := held_le hs hop
    have hfits := hs.fits
    apply hs.moveOnly (moves_finish s id _ _) hop rfl
    · rintro _ _ ⟨⟩
    · rintro _ _ _ ⟨⟩
    · rintro _ _ ⟨⟩
    · show s.reserved - size + size = s.reserved + 0
      omega
    · cases installed
      · rfl
      · rfl
    · show (if installed then s.used + size else s.used) + (s.reserved - size) ≤ s.budget
      split <;> omega
  · exact hs

theorem Inv.stat (hs : s.Inv bytesOf) (id : ℕ) (place : Place) (found : Bool) :
    (s.stat bytesOf id place found).Inv bytesOf := by
  unfold LocalStore.stat
  split
  · exact hs
  · next h =>
    rw [Bool.not_eq_true, Option.isSome_eq_false_iff, Option.isNone_iff_eq_none] at h
    exact hs.idle h rfl rfl rfl rfl

/-- The total without one of the parts. -/
theorem sum_filter_ne {files : List Place} (hfiles : files.Nodup) {place : Place}
    (hmem : place ∈ files) :
    ((files.filter (· ≠ place)).map bytesOf).sum + bytesOf place = (files.map bytesOf).sum := by
  have herase : files.erase place = files.filter (· ≠ place) := by
    rw [hfiles.erase_eq_filter]
    apply List.filter_congr
    intro x _
    by_cases h : x = place <;> simp [h]
  rw [← herase, ((List.perm_cons_erase hmem).map bytesOf).sum_eq, List.map_cons, List.sum_cons]
  omega

theorem Inv.unlink (hs : s.Inv bytesOf) {done : Bool} (hfine : s.Fine bytesOf (.unlink id done)) :
    (s.unlink id done).Inv bytesOf := by
  unfold LocalStore.unlink
  split
  · next place size hop =>
    split
    · next hdone =>
      simp only [Bool.and_eq_true, decide_eq_true_eq] at hdone
      obtain ⟨hdone, hmem⟩ := hdone
      have hsize := hfine place size hop hdone hmem
      have htotal := @sum_filter_ne bytesOf s.files hs.files place hmem
      apply hs.move (moves_put s id _ (s.files.filter (· ≠ place)) s.used s.reserved) hop
      · rintro _ _ ⟨⟩ ⟨⟩
      · rintro _ _ _ ⟨⟩
      · rintro _ _ ⟨⟩
      · exact hs.files.filter _
      · intro id' place' size' _ h hmem'
        exact (hs.installing id' place' size' h).2 (List.mem_filter.mp hmem').1
      · rfl
      · show s.used + 0 + ((s.files.map bytesOf).sum + 0)
          = s.used + 0 + (((s.files.filter (· ≠ place)).map bytesOf).sum + size)
        omega
      · exact hs.fits
    · exact hs.over hop rfl rfl rfl
  · exact hs

theorem Inv.count (hs : s.Inv bytesOf) (hfine : s.Fine bytesOf (.count id)) :
    (s.count id).Inv bytesOf := by
  unfold LocalStore.count
  split
  · next size hop =>
    have hle : size ≤ s.used := hfine size hop
    have hfits := hs.fits
    apply hs.moveOnly (moves_finish s id _ s.reserved) hop rfl
    · rintro _ _ ⟨⟩
    · rintro _ _ _ ⟨⟩
    · rintro _ _ ⟨⟩
    · rfl
    · show s.used - size + 0 + size = s.used + 0 + 0
      omega
    · show s.used - size + s.reserved ≤ s.budget
      omega
  · exact hs

theorem inv_step (s : LocalStore) (e : StoreEvent) (hs : s.Inv bytesOf) (hfine : s.Fine bytesOf e) :
    (s.step bytesOf e).Inv bytesOf := by
  cases e with
  | check size walk => exact hs.check hfine
  | head id kind place size stat => exact hs.head id kind place size stat
  | begin id => exact hs.begin id
  | reserve id walk => exact hs.reserve hfine
  | arrive id whole => exact hs.arrive id whole
  | look id stat => exact hs.look hfine
  | rename id done => exact hs.rename id done
  | sync id done =>
    obtain rfl : done = true := hfine
    exact hs.sync id
  | settle id => exact hs.settle id
  | stat id place found => exact hs.stat id place found
  | unlink id done => exact hs.unlink hfine
  | count id => exact hs.count hfine

theorem inv_open {budget : ℕ} {files : List Place} (hbudget : 0 < budget) (hfiles : files.Nodup)
    (hfits : (files.map bytesOf).sum ≤ budget) :
    (LocalStore.open bytesOf budget files).Inv bytesOf := by
  refine ⟨List.nodup_nil, hfiles, hbudget, ?_, ?_, ?_, rfl, rfl, hfits⟩
  · rintro _ _ _ _ _ ⟨⟩
  · rintro _ _ _ _ ⟨⟩
  · rintro _ _ _ ⟨⟩

theorem Inv.safe (hs : s.Inv bytesOf) : s.Safe bytesOf := by
  have hused := hs.used
  have hfits := hs.fits
  have hreserved := hs.reserved
  constructor
  · have hle : s.sum Op.grown ≤ s.sum Op.held := by
      rw [sum, sum]
      exact List.sum_le_sum fun x _ => x.2.grown_le_held
    omega
  · intro hnone
    have hzero : ∀ f : Op → ℕ, s.sum f = 0 := by
      intro f
      rw [sum, hnone]
      rfl
    rw [hzero] at hreserved hused
    rw [hzero] at hused
    exact ⟨hreserved, hused⟩

/-- Starting under a budget, in every interleaving whose steps are all fine, the installed parts
fit the budget, and the counters are exact whenever nothing is in flight. -/
theorem budget_holds (bytesOf : Place → ℕ) {budget : ℕ} {files : List Place} (hbudget : 0 < budget)
    (hfiles : files.Nodup) (hfits : (files.map bytesOf).sum ≤ budget) {es : List StoreEvent}
    (hes : Runs.Meets (step bytesOf) (Fine bytesOf) (LocalStore.open bytesOf budget files) es) :
    (Runs.run (step bytesOf) (LocalStore.open bytesOf budget files) es).Safe bytesOf :=
  (hes.invariant inv_step (inv_open hbudget hfiles hfits)).safe

/-- The place of a part whose name is one digit repeated. -/
def exampleName (digit : Char) : Place :=
  ⟨"edge-a".toList, List.replicate 64 digit ++ ".parquet".toList⟩

/-- The sizes of the parts in the runs below. -/
def exampleBytes (place : Place) : ℕ :=
  if place = exampleName 'a' then 40 else if place = exampleName 'b' then 60 else 100

/-- The steps of an upload that nothing disturbs. -/
def exampleUpload (id : ℕ) (place : Place) : List StoreEvent :=
  [.head id .upload place (exampleBytes place) true, .begin id, .reserve id none, .arrive id true,
    .look id true, .rename id true, .sync id true, .settle id]

/-- One part is uploaded and another one deleted. -/
theorem budget_holds_upload :
    let es := exampleUpload 0 (exampleName 'b')
      ++ [.stat 1 (exampleName 'a') true, .unlink 1 true, .count 1]
    (Runs.run (step exampleBytes) (LocalStore.open exampleBytes 100 [exampleName 'a']) es).Safe
      exampleBytes := by
  intro es
  have hfits : ([exampleName 'a'].map exampleBytes).sum ≤ 100 := by decide +kernel
  refine budget_holds exampleBytes (by decide) (List.nodup_singleton _) hfits
    ⟨trivial, trivial, ?_, trivial, ?_, trivial, rfl, trivial, trivial, ?_, ?_, trivial⟩
  · rintro _ _ _ _ _ ⟨⟩
  · intro kind place size hop _
    have hget : Assoc.get (Runs.run (step exampleBytes)
        (LocalStore.open exampleBytes 100 [exampleName 'a']) (es.take 4)).ops 0
          = some (.verified .upload (exampleName 'b') 60) := by decide +kernel
    have heq := hget.symm.trans hop
    exact ⟨(Op.verified.inj (Option.some.inj heq)).1.symm, rfl⟩
  · intro place size hop _ _
    have hget : Assoc.get (Runs.run (step exampleBytes)
        (LocalStore.open exampleBytes 100 [exampleName 'a']) (es.take 9)).ops 1
          = some (.sized (exampleName 'a') (exampleBytes (exampleName 'a'))) := by decide +kernel
    obtain ⟨rfl, rfl⟩ := Op.sized.inj (Option.some.inj (hget.symm.trans hop))
    rfl
  · intro size hop
    have hget : Assoc.get (Runs.run (step exampleBytes)
        (LocalStore.open exampleBytes 100 [exampleName 'a']) (es.take 10)).ops 1
          = some (.unlinked 40) := by decide +kernel
    obtain rfl := Op.unlinked.inj (Option.some.inj (hget.symm.trans hop))
    decide +kernel

/-- A delete counts its file after a measurement that did not find it any more, and the next upload
passes the budget. -/
theorem measured_twice :
    let es := [.stat 0 (exampleName 'b') true, .unlink 0 true, .check 10 (some 40), .count 0]
      ++ exampleUpload 1 (exampleName 'c')
    let s := Runs.run (step exampleBytes)
      (LocalStore.open exampleBytes 100 [exampleName 'a', exampleName 'b']) es
    ¬ s.Safe exampleBytes ∧ s.ops = [] ∧ s.used = 100 ∧ s.total exampleBytes = 140 := by
  intro es s
  have htotal : s.total exampleBytes = 140 := by decide +kernel
  refine ⟨?_, by decide +kernel, by decide +kernel, htotal⟩
  rintro ⟨hfits, -⟩
  rw [htotal] at hfits
  exact absurd hfits (by decide +kernel)

end LocalStore

end LogLess.Parts
