import LogLess.Lib.Assoc
import LogLess.Model

/-!
# The table of acknowledgements

`AckTable` hands out ids per channel, learns for each batch the record count that must
be synced for it, and answers polls. The synced count is an argument of each call.

`AckTable.Tracks` is what the table knows of the ids it issued: an id at or above its
channel's floor is pending with the batch it was issued for, and the floor passes an id
only when that batch was bound to a count no larger than the synced one.
-/

namespace LogLess.Hec

def maxOutstandingPerChannel : ℕ := 8192

structure Channel where
  nextId : ℕ
  /-- Ids below this have been durable. -/
  durableFloor : ℕ
  /-- Ack id to batch sequence. -/
  pending : List (ℕ × ℕ)
deriving DecidableEq

def Channel.empty : Channel := ⟨0, 0, []⟩

/-- The floor moved over the leading run of durable ids, at most `fuel` of them. -/
def Channel.retire (synced : ℕ) : ℕ → Channel → List (ℕ × ℕ) → Channel × List (ℕ × ℕ)
  | 0, ch, watermarks => (ch, watermarks)
  | fuel + 1, ch, watermarks =>
    if ch.durableFloor < ch.nextId then
      match Assoc.get ch.pending ch.durableFloor with
      | some seq =>
        if (Assoc.get watermarks seq).any (· ≤ synced) then
          retire synced fuel
            { ch with
              durableFloor := ch.durableFloor + 1
              pending := Assoc.erase ch.pending ch.durableFloor }
            (Assoc.erase watermarks seq)
        else (ch, watermarks)
      | none => retire synced fuel { ch with durableFloor := ch.durableFloor + 1 } watermarks
    else (ch, watermarks)

/-- `Channel::retire_durable_prefix`: the loop runs once for each id at most. -/
def Channel.retireDurablePrefix (ch : Channel) (watermarks : List (ℕ × ℕ)) (synced : ℕ) :
    Channel × List (ℕ × ℕ) :=
  retire synced (ch.nextId - ch.durableFloor) ch watermarks

structure AckTable where
  channels : List (Text × Channel)
  /-- Batch sequence to the record count that makes the batch durable. -/
  watermarks : List (ℕ × ℕ)
  nextBatch : ℕ
deriving DecidableEq

namespace AckTable

def new : AckTable := ⟨[], [], 1⟩

/-- The channel as `entry().or_default()` finds it. -/
def channel (t : AckTable) (name : Text) : Channel := (Assoc.get t.channels name).getD .empty

def nextBatchSeq (t : AckTable) : AckTable × ℕ :=
  ({ t with nextBatch := t.nextBatch + 1 }, t.nextBatch)

def issue (t : AckTable) (synced : ℕ) (name : Text) (seq : ℕ) : AckTable × ℕ :=
  let entry := t.channel name
  let id := entry.nextId
  let entry := { entry with nextId := id + 1, pending := Assoc.insert entry.pending id seq }
  let (entry, watermarks) := entry.retireDurablePrefix t.watermarks synced
  ({ t with channels := Assoc.insert t.channels name entry, watermarks := watermarks }, id)

def hasCapacity (t : AckTable) (name : Text) : Bool :=
  (Assoc.get t.channels name).all fun ch => ch.pending.length < maxOutstandingPerChannel

def bind (t : AckTable) (seq recordsSubmittedTotal : ℕ) : AckTable :=
  { t with watermarks := Assoc.insert t.watermarks seq recordsSubmittedTotal }

/-- The answer to a poll for one id. -/
def query (t : AckTable) (synced : ℕ) (name : Text) (id : ℕ) : Bool :=
  match Assoc.get t.channels name with
  | none => false
  | some entry =>
    if id < entry.durableFloor then true
    else ((Assoc.get entry.pending id).bind (Assoc.get t.watermarks)).any (· ≤ synced)

end AckTable

/-! ## What the table knows of the ids it issued -/

/-- An id handed out: its channel, the id, and the batch it was issued for. -/
structure Issued where
  channel : Text
  id : ℕ
  seq : ℕ
deriving DecidableEq

/-- One channel's entries, for the ids `issued` on it. `Durable` is what is known of a
batch whose watermark has been passed. -/
structure Channel.Tracks (ch : Channel) (name : Text) (issued : List Issued)
    (Durable : ℕ → Prop) : Prop where
  floor_le : ch.durableFloor ≤ ch.nextId
  lt : ∀ x ∈ issued, x.channel = name → x.id < ch.nextId
  pending : ∀ x ∈ issued, x.channel = name → ch.durableFloor ≤ x.id →
    Assoc.get ch.pending x.id = some x.seq
  durable : ∀ x ∈ issued, x.channel = name → x.id < ch.durableFloor → Durable x.seq

/-- A batch bound to a count that has been synced. -/
def Passed (synced : ℕ) (Bound : ℕ → ℕ → Prop) (seq : ℕ) : Prop := ∃ w ≤ synced, Bound seq w

/-- The whole table: every channel is tracked, and a watermark is one its batch was bound
to. -/
structure AckTable.Tracks (t : AckTable) (synced : ℕ) (issued : List Issued)
    (Bound : ℕ → ℕ → Prop) : Prop where
  channels : ∀ name, (t.channel name).Tracks name issued (Passed synced Bound)
  watermarks : ∀ seq w, Assoc.get t.watermarks seq = some w → Bound seq w

variable {t : AckTable} {synced : ℕ} {issued : List Issued} {Bound : ℕ → ℕ → Prop}

theorem Channel.Tracks.retire {name : Text} (fuel : ℕ) {ch : Channel}
    {watermarks : List (ℕ × ℕ)} (h : ch.Tracks name issued (Passed synced Bound))
    (hw : ∀ seq w, Assoc.get watermarks seq = some w → Bound seq w) :
    (Channel.retire synced fuel ch watermarks).1.Tracks name issued (Passed synced Bound) ∧
      ∀ seq w, Assoc.get (Channel.retire synced fuel ch watermarks).2 seq = some w →
        Assoc.get watermarks seq = some w := by
  induction fuel generalizing ch watermarks with
  | zero => exact ⟨h, fun _ _ hg => hg⟩
  | succ fuel ih =>
    rw [Channel.retire]
    split
    · next hfloor =>
      split
      · next seq hseq =>
        split
        · next hdur =>
          -- the id at the floor is durable: the floor passes it
          obtain ⟨w, hgw, hws⟩ := by simpa [Option.any_eq_true] using hdur
          have hch : ({ ch with
              durableFloor := ch.durableFloor + 1
              pending := Assoc.erase ch.pending ch.durableFloor } : Channel).Tracks name issued
                (Passed synced Bound) := by
            refine ⟨hfloor, h.lt, ?_, ?_⟩
            · intro x hx hname hle
              simp only at hle
              rw [Assoc.get_erase, if_neg (by omega)]
              exact h.pending x hx hname (by omega)
            · intro x hx hname hlt
              simp only at hlt
              rcases Nat.lt_or_ge x.id ch.durableFloor with hold | hnew
              · exact h.durable x hx hname hold
              · have hid : x.id = ch.durableFloor := by omega
                have hp := h.pending x hx hname hnew
                rw [hid, hseq] at hp
                exact Option.some.inj hp ▸ ⟨w, hws, hw seq w hgw⟩
          have hsub : ∀ s v, Assoc.get (Assoc.erase watermarks seq) s = some v →
              Assoc.get watermarks s = some v := by
            intro s v hg
            rw [Assoc.get_erase] at hg
            split at hg
            · cases hg
            · exact hg
          obtain ⟨h1, h2⟩ := ih hch fun s v hg => hw s v (hsub s v hg)
          exact ⟨h1, fun s v hg => hsub s v (h2 s v hg)⟩
        · exact ⟨h, fun _ _ hg => hg⟩
      · next hnone =>
        -- no entry at the floor: no id was issued there
        refine ih ⟨hfloor, h.lt, ?_, ?_⟩ hw
        · intro x hx hname hle
          exact h.pending x hx hname (by simp only at hle; omega)
        · intro x hx hname hlt
          simp only at hlt
          rcases Nat.lt_or_ge x.id ch.durableFloor with hold | hnew
          · exact h.durable x hx hname hold
          · have hp := h.pending x hx hname hnew
            rw [show x.id = ch.durableFloor by omega, hnone] at hp
            cases hp
    · exact ⟨h, fun _ _ hg => hg⟩

namespace AckTable

theorem tracks_new : (new : AckTable).Tracks synced [] Bound :=
  ⟨fun _ => ⟨le_rfl, by simp, by simp, by simp⟩, by simp [new]⟩

theorem channel_issue (t : AckTable) (synced : ℕ) (name other : Text) (seq : ℕ) :
    (t.issue synced name seq).1.channel other
      = if other = name then
          (Channel.retireDurablePrefix
            { t.channel name with
              nextId := (t.channel name).nextId + 1
              pending := Assoc.insert (t.channel name).pending (t.channel name).nextId seq }
            t.watermarks synced).1
        else t.channel other := by
  simp only [issue, channel, Assoc.get_insert]
  split <;> rfl

/-- Issuing an id: it is tracked with the batch it is for. -/
theorem Tracks.issue (h : t.Tracks synced issued Bound) (name : Text) (seq : ℕ) :
    (t.issue synced name seq).1.Tracks synced
      (issued ++ [⟨name, (t.issue synced name seq).2, seq⟩]) Bound := by
  have hnew : ({ t.channel name with
      nextId := (t.channel name).nextId + 1
      pending := Assoc.insert (t.channel name).pending (t.channel name).nextId seq } :
        Channel).Tracks name (issued ++ [⟨name, (t.issue synced name seq).2, seq⟩])
          (Passed synced Bound) := by
    have hid : (t.issue synced name seq).2 = (t.channel name).nextId := rfl
    have hch := h.channels name
    have hfloor := hch.floor_le
    rw [hid]
    refine ⟨by simp only; omega, ?_, ?_, ?_⟩
    · intro x hx hname
      rcases List.mem_append.mp hx with hx | hx
      · have := hch.lt x hx hname
        simp only
        omega
      · obtain rfl := List.mem_singleton.mp hx
        simp
    · intro x hx hname hle
      rw [Assoc.get_insert]
      rcases List.mem_append.mp hx with hx | hx
      · have := hch.lt x hx hname
        rw [if_neg (by omega)]
        exact hch.pending x hx hname hle
      · obtain rfl := List.mem_singleton.mp hx
        simp
    · intro x hx hname hlt
      rcases List.mem_append.mp hx with hx | hx
      · exact hch.durable x hx hname hlt
      · obtain rfl := List.mem_singleton.mp hx
        simp only at hlt
        omega
  obtain ⟨hkept, hsub⟩ :=
    hnew.retire ((t.channel name).nextId + 1 - (t.channel name).durableFloor) h.watermarks
  refine ⟨?_, fun s w hg => h.watermarks s w (hsub s w hg)⟩
  intro other
  rw [channel_issue]
  split
  · next heq =>
    subst heq
    exact hkept
  · next hne =>
    have hch := h.channels other
    -- the new id is on another channel
    have hold : ∀ x ∈ issued ++ [⟨name, (t.issue synced name seq).2, seq⟩], x.channel = other →
        x ∈ issued := by
      intro x hx hname
      rcases List.mem_append.mp hx with hx | hx
      · exact hx
      · obtain rfl := List.mem_singleton.mp hx
        exact absurd hname.symm hne
    exact ⟨hch.floor_le, fun x hx hn => hch.lt x (hold x hx hn) hn,
      fun x hx hn => hch.pending x (hold x hx hn) hn,
      fun x hx hn => hch.durable x (hold x hx hn) hn⟩

theorem Tracks.bind (h : t.Tracks synced issued Bound) {seq total : ℕ} (hb : Bound seq total) :
    (t.bind seq total).Tracks synced issued Bound := by
  refine ⟨h.channels, ?_⟩
  intro s w hg
  rw [AckTable.bind, Assoc.get_insert] at hg
  split at hg
  · next heq => exact heq ▸ Option.some.inj hg ▸ hb
  · exact h.watermarks s w hg

/-- More is known after more has been synced and more batches have been bound. -/
theorem Tracks.mono (h : t.Tracks synced issued Bound) {synced' : ℕ} {Bound' : ℕ → ℕ → Prop}
    (hs : synced ≤ synced') (hb : ∀ seq w, Bound seq w → Bound' seq w) :
    t.Tracks synced' issued Bound' := by
  refine ⟨fun name => ?_, fun seq w hg => hb seq w (h.watermarks seq w hg)⟩
  have hch := h.channels name
  refine ⟨hch.floor_le, hch.lt, hch.pending, ?_⟩
  intro x hx hn hlt
  obtain ⟨w, hw, hbw⟩ := hch.durable x hx hn hlt
  exact ⟨w, hw.trans hs, hb _ w hbw⟩

/-- A poll that answers true is about a batch bound to a synced count. -/
theorem Tracks.query (h : t.Tracks synced issued Bound) {x : Issued} (hx : x ∈ issued)
    (hq : t.query synced x.channel x.id = true) : Passed synced Bound x.seq := by
  have hch := h.channels x.channel
  unfold AckTable.query at hq
  split at hq
  · cases hq
  · next entry hentry =>
    have heq : t.channel x.channel = entry := by rw [AckTable.channel, hentry]; rfl
    rw [heq] at hch
    split at hq
    · next hlt => exact hch.durable x hx rfl hlt
    · next hge =>
      rw [hch.pending x hx rfl (by omega), Option.bind_some] at hq
      obtain ⟨w, hgw, hws⟩ := by simpa [Option.any_eq_true] using hq
      exact ⟨w, hws, h.watermarks x.seq w hgw⟩

end AckTable

end LogLess.Hec
