import LogLess.Lib.Runs
import LogLess.Ring.Context

/-!
# The memory of the ring

Each shard keeps its bytes and the order of its keys beside the lines themselves. Both are
exact after every call, so the budget of a shard bounds what it holds, and the shards together
hold no more than the ring may.
-/

namespace LogLess.Ring

/-! ## A shard -/

def bytesOf (queue : List Entry) : ℕ := (queue.map Entry.bytes).sum

/-- The books of a shard: its bytes are those of its lines, and its order is that of its keys. -/
structure Shard.Exact (maxLines : ℕ) (s : Shard) : Prop where
  nodup : (s.keys.map Prod.fst).Nodup
  bytes : s.bytes = (s.keys.map fun e => bytesOf e.2).sum
  order : s.order.Nodup ∧ ∀ key, key ∈ s.order ↔ key ∈ s.keys.map Prod.fst
  lines : ∀ e ∈ s.keys, e.2.length ≤ maxLines

def Shard.held (s : Shard) : ℕ := (s.keys.map fun e => e.2.length).sum

variable {maxLines budget : ℕ}

theorem Shard.exact_empty : Shard.empty.Exact maxLines where
  nodup := List.nodup_nil
  bytes := rfl
  order := ⟨List.nodup_nil, by simp [Shard.empty]⟩
  lines := by simp [Shard.empty]

theorem foldl_bytes (queue : List Entry) (bytes : ℕ) :
    queue.foldl (fun bytes e => bytes - e.bytes) bytes = bytes - bytesOf queue := by
  induction queue generalizing bytes with
  | nil => rfl
  | cons e queue ih =>
    rw [List.foldl_cons, ih, bytesOf, bytesOf, List.map_cons, List.sum_cons]
    omega

/-- What leaves is taken off the bytes, and what stays is short enough. -/
theorem capLines_spec (queue : List Entry) (rest : ℕ) :
    (capLines maxLines queue (bytesOf queue + rest)).2
        = bytesOf (capLines maxLines queue (bytesOf queue + rest)).1 + rest ∧
      (capLines maxLines queue (bytesOf queue + rest)).1.length ≤ maxLines ∧
      (capLines maxLines queue (bytesOf queue + rest)).1.length ≤ queue.length := by
  induction queue with
  | nil => exact ⟨rfl, Nat.zero_le _, le_rfl⟩
  | cons old queue ih =>
    have hbytes : bytesOf (old :: queue) + rest - old.bytes = bytesOf queue + rest := by
      rw [bytesOf, List.map_cons, List.sum_cons, ← bytesOf]
      omega
    unfold capLines
    split
    · rw [hbytes]
      obtain ⟨h1, h2, h3⟩ := ih
      exact ⟨h1, h2, h3.trans (Nat.le_succ _)⟩
    · next hshort => exact ⟨rfl, by simp only [List.length_cons]; omega, le_rfl⟩

/-- The oldest keys leave with their bytes and lines, until the shard is in its budget. -/
theorem evictKeys_spec {order : List CorrelationKey} {keys : List (CorrelationKey × List Entry)}
    {bytes : ℕ} (h : (⟨keys, order, bytes⟩ : Shard).Exact maxLines) :
    (evictKeys budget order keys bytes).1.Exact maxLines ∧
      (evictKeys budget order keys bytes).1.bytes ≤ budget ∧
      (evictKeys budget order keys bytes).1.held + (evictKeys budget order keys bytes).2
        = (⟨keys, order, bytes⟩ : Shard).held := by
  induction order generalizing keys bytes with
  | nil =>
    -- no key is left, so there are no bytes
    have hnil : keys = [] := by
      rw [← List.map_eq_nil_iff (f := Prod.fst), List.eq_nil_iff_forall_not_mem]
      intro key hkey
      exact absurd ((h.order.2 key).mpr hkey) List.not_mem_nil
    subst hnil
    have hbytes : bytes = 0 := h.bytes
    subst hbytes
    exact ⟨h, Nat.zero_le _, rfl⟩
  | cons oldest order ih =>
    unfold evictKeys
    split
    · next hover =>
      have hsum := Assoc.sum_erase h.nodup bytesOf oldest
      have hlines := Assoc.sum_erase h.nodup List.length oldest
      have hmem := (h.order.2 oldest).mp List.mem_cons_self
      obtain ⟨queue, hqueue⟩ := Option.isSome_iff_exists.mp (Assoc.isSome_get.mpr hmem)
      have hbytes : bytes = (keys.map fun e => bytesOf e.2).sum := h.bytes
      simp only [hqueue, Option.map_some, Option.getD_some] at hsum hlines ⊢
      have hrest : (⟨Assoc.erase keys oldest, order,
          queue.foldl (fun bytes e => bytes - e.bytes) bytes⟩ : Shard).Exact maxLines := by
        obtain ⟨hfresh, horder⟩ := List.nodup_cons.mp h.order.1
        refine ⟨Assoc.nodup_keys_erase h.nodup oldest, ?_, ⟨horder, ?_⟩, ?_⟩
        · show queue.foldl (fun bytes e => bytes - e.bytes) bytes
            = ((Assoc.erase keys oldest).map fun e => bytesOf e.2).sum
          rw [foldl_bytes]
          omega
        · intro key
          rw [Assoc.keys_erase, List.mem_filter, ← h.order.2 key, List.mem_cons, decide_eq_true_eq]
          constructor
          · intro hkey
            exact ⟨.inr hkey, fun heq => hfresh (heq ▸ hkey)⟩
          · intro hkey
            exact hkey.1.resolve_left hkey.2
        · exact fun e he => h.lines e (List.mem_filter.mp he).1
      obtain ⟨hexact, hbudget, hheld⟩ := ih hrest
      refine ⟨hexact, hbudget, ?_⟩
      simp only [Shard.held] at hheld ⊢
      omega
    · next hunder => exact ⟨h, Nat.le_of_not_lt hunder, rfl⟩

/-- **A line recorded**: the books stay exact, the shard is in its budget, and each line is
held or counted as one that left. -/
theorem Shard.Exact.observe {s : Shard} (h : s.Exact maxLines) (key : CorrelationKey)
    (entry : Entry) :
    (s.observe maxLines budget key entry).1.Exact maxLines ∧
      (s.observe maxLines budget key entry).1.bytes ≤ budget ∧
      (s.observe maxLines budget key entry).1.held + (s.observe maxLines budget key entry).2
        = s.held + 1 := by
  unfold Shard.observe
  simp only
  set order := if (Assoc.get s.keys key).isSome then s.order else s.order ++ [key] with horder
  set queue := (Assoc.get s.keys key).getD [] with hqueue
  have hsum := Assoc.sum_erase h.nodup bytesOf key
  have hlines := Assoc.sum_erase h.nodup List.length key
  have hold : ((Assoc.get s.keys key).map bytesOf).getD 0 = bytesOf queue := by
    rw [hqueue]
    cases Assoc.get s.keys key <;> rfl
  have holdLines : ((Assoc.get s.keys key).map List.length).getD 0 = queue.length := by
    rw [hqueue]
    cases Assoc.get s.keys key <;> rfl
  have happend : bytesOf (queue ++ [entry]) = bytesOf queue + entry.bytes := by
    simp [bytesOf]
  have hbytes : s.bytes + entry.bytes = bytesOf (queue ++ [entry])
      + ((Assoc.erase s.keys key).map fun e => bytesOf e.2).sum := by
    rw [h.bytes, hsum, hold, happend]
    omega
  obtain ⟨hcap, hshort, hfewer⟩ := @capLines_spec maxLines (queue ++ [entry])
    ((Assoc.erase s.keys key).map fun e => bytesOf e.2).sum
  rw [← hbytes] at hcap hshort hfewer
  set kept := (capLines maxLines (queue ++ [entry]) (s.bytes + entry.bytes)).1 with hkept
  set bytes := (capLines maxLines (queue ++ [entry]) (s.bytes + entry.bytes)).2 with hbytesDef
  have hwritten : (⟨Assoc.insert s.keys key kept, order, bytes⟩ : Shard).Exact maxLines := by
    refine ⟨Assoc.nodup_keys_insert h.nodup key kept, ?_, ⟨?_, ?_⟩, ?_⟩
    · show bytes = ((Assoc.insert s.keys key kept).map fun e => bytesOf e.2).sum
      have hinsert := Assoc.sum_insert h.nodup bytesOf key kept
      rw [hold] at hinsert
      rw [hold] at hsum
      omega
    · rw [horder]
      split
      · exact h.order.1
      · next hnew =>
        rw [List.nodup_append]
        refine ⟨h.order.1, List.nodup_singleton key, ?_⟩
        intro a ha b hb heq
        rw [heq, List.mem_singleton.mp hb, h.order.2] at ha
        exact hnew (Assoc.isSome_get.mpr ha)
    · intro other
      rw [Assoc.mem_keys_insert, ← h.order.2, horder]
      split
      · next hthere =>
        constructor
        · exact .inr
        · intro hor
          rcases hor with rfl | hmem
          · exact (h.order.2 _).mpr (Assoc.isSome_get.mp hthere)
          · exact hmem
      · rw [List.mem_append, List.mem_singleton]
        tauto
    · intro e he
      rcases List.mem_append.mp he with he | he
      · exact h.lines e (List.mem_filter.mp he).1
      · rw [List.mem_singleton.mp he]
        exact hshort
  obtain ⟨hexact, hbudget, hheld⟩ := @evictKeys_spec maxLines budget _ _ _ hwritten
  refine ⟨hexact, hbudget, ?_⟩
  have hinsert := Assoc.sum_insert h.nodup List.length key kept
  rw [holdLines] at hinsert
  have hlength : (queue ++ [entry]).length = queue.length + 1 := by simp
  simp only [Shard.held] at hheld ⊢
  omega

/-! ## The ring -/

/-- A call of the ring. -/
inductive Call where
  | observe (record : LogRecord)
  | capture (error : LogRecord)

def call (hasher : Hasher) (r : Ring) : Call → Ring
  | .observe record => r.observe hasher record
  | .capture error => (r.capture hasher error).1

/-- What holds of the memory of a ring after every call. -/
structure Bounded (config : Config) (r : Ring) : Prop where
  settings : r.config = config
  shards : r.shards.length = max config.shards 1
  exact : ∀ s ∈ r.shards, s.Exact config.maxLinesPerKey
  budget : ∀ s ∈ r.shards, s.bytes ≤ config.maxBytes / r.shards.length
  held : r.stats.linesBuffered = r.stats.linesEvicted + (r.shards.map Shard.held).sum

theorem bounded_new (config : Config) : (Ring.new config).Bounded config where
  settings := rfl
  shards := List.length_replicate
  exact s hs := List.eq_of_mem_replicate hs ▸ Shard.exact_empty
  budget s hs := by
    rw [List.eq_of_mem_replicate hs]
    exact Nat.zero_le _
  held := by
    show 0 = 0 + ((List.replicate (max config.shards 1) Shard.empty).map Shard.held).sum
    simp [Shard.held, Shard.empty]

theorem sum_set {f : Shard → ℕ} {shards : List Shard} {i : ℕ} (hi : i < shards.length) (s : Shard) :
    ((shards.set i s).map f).sum + f (shards.getD i .empty) = (shards.map f).sum + f s := by
  induction shards generalizing i with
  | nil => exact absurd hi (Nat.not_lt_zero i)
  | cons t shards ih =>
    cases i with
    | zero =>
      simp
      omega
    | succ i =>
      have := ih (Nat.lt_of_succ_lt_succ hi)
      simp only [List.set_cons_succ, List.map_cons, List.sum_cons, List.getD_cons_succ]
      omega

theorem Bounded.observe {config : Config} {hasher : Hasher} {r : Ring} (h : r.Bounded config)
    (record : LogRecord) : (r.observe hasher record).Bounded config := by
  set key := correlationKey record with hkey
  set entry : Entry :=
    ⟨record.observedUnixNano, record.severity.num, record.templateId, record.body⟩ with hentry
  set i := r.shardFor hasher key with hi
  have hlength := h.shards
  have hlt : i < r.shards.length := Nat.mod_lt _ (by omega)
  have hmem : r.shards.getD i .empty ∈ r.shards := by
    rw [List.getD_eq_getElem?_getD, List.getElem?_eq_getElem hlt]
    exact List.getElem_mem hlt
  have hbudget : r.shardBudget = config.maxBytes / r.shards.length := by
    rw [shardBudget, h.settings]
    congr 1
    omega
  have hshard := @Shard.Exact.observe config.maxLinesPerKey r.shardBudget _ (h.exact _ hmem) key
    entry
  rw [← h.settings] at hshard
  set written := (r.shards.getD i .empty).observe r.config.maxLinesPerKey r.shardBudget key entry
    with hwritten
  have hring : r.observe hasher record =
      { r with
        shards := r.shards.set i written.1
        stats :=
          { r.stats with
            linesBuffered := r.stats.linesBuffered + 1
            linesEvicted := r.stats.linesEvicted + written.2
            bytesHeld := ((r.shards.set i written.1).map Shard.bytes).sum } } := rfl
  rw [hring]
  refine ⟨h.settings, by rw [List.length_set]; exact hlength, ?_, ?_, ?_⟩
  · intro s hs
    rcases List.mem_or_eq_of_mem_set hs with hs | rfl
    · exact h.exact s hs
    · rw [← h.settings]
      exact hshard.1
  · intro s hs
    rw [List.length_set]
    rcases List.mem_or_eq_of_mem_set hs with hs | rfl
    · exact h.budget s hs
    · rw [← hbudget]
      exact hshard.2.1
  · have hsum := @sum_set Shard.held r.shards i hlt written.1
    have hheld := h.held
    have hline := hshard.2.2
    show r.stats.linesBuffered + 1
      = r.stats.linesEvicted + written.2 + ((r.shards.set i written.1).map Shard.held).sum
    omega

/-- An answer changes neither the shards nor the counts of lines. -/
theorem capture_frame (hasher : Hasher) (r : Ring) (error : LogRecord) :
    (r.capture hasher error).1.config = r.config ∧
      (r.capture hasher error).1.shards = r.shards ∧
      (r.capture hasher error).1.stats.linesBuffered = r.stats.linesBuffered ∧
      (r.capture hasher error).1.stats.linesEvicted = r.stats.linesEvicted := by
  have hprune : ∀ now, (r.pruneFlows now).config = r.config ∧ (r.pruneFlows now).shards = r.shards ∧
      (r.pruneFlows now).stats = r.stats := by
    intro now
    unfold pruneFlows
    split <;> exact ⟨rfl, rfl, rfl⟩
  have hopen : ∀ flow now, (r.openFlow flow now).1.config = r.config ∧
      (r.openFlow flow now).1.shards = r.shards ∧
      (r.openFlow flow now).1.stats.linesBuffered = r.stats.linesBuffered ∧
      (r.openFlow flow now).1.stats.linesEvicted = r.stats.linesEvicted := by
    intro flow now
    obtain ⟨hconfig, hshards, hstats⟩ := hprune now
    unfold openFlow
    split
    · split <;> exact ⟨rfl, rfl, rfl, rfl⟩
    · exact ⟨hconfig, hshards, by simp only [hstats], by simp only [hstats]⟩
  have hlimit : ∀ (r : Ring) now shape, (r.limit now shape).1.config = r.config ∧
      (r.limit now shape).1.shards = r.shards ∧
      (r.limit now shape).1.stats.linesBuffered = r.stats.linesBuffered ∧
      (r.limit now shape).1.stats.linesEvicted = r.stats.linesEvicted := by
    intro r now shape
    unfold limit
    simp only
    split
    · exact ⟨rfl, rfl, rfl, rfl⟩
    · split <;> exact ⟨rfl, rfl, rfl, rfl⟩
  unfold capture
  split
  · exact ⟨rfl, rfl, rfl, rfl⟩
  · next context _ =>
    have hopened := hopen (flowHash hasher context error.templateId) error.observedUnixNano
    simp only
    split
    · next r' heq =>
      rw [heq] at hopened
      exact hopened
    · next r' suppressed heq =>
      rw [heq] at hopened
      have hlimited := hlimit r' error.observedUnixNano (shapeOf error)
      split
      · next r'' heq' =>
        rw [heq'] at hlimited
        exact ⟨hlimited.1.trans hopened.1, hlimited.2.1.trans hopened.2.1,
          hlimited.2.2.1.trans hopened.2.2.1, hlimited.2.2.2.trans hopened.2.2.2⟩
      · next r'' heq' =>
        rw [heq'] at hlimited
        exact ⟨hlimited.1.trans hopened.1, hlimited.2.1.trans hopened.2.1,
          hlimited.2.2.1.trans hopened.2.2.1, hlimited.2.2.2.trans hopened.2.2.2⟩

theorem Bounded.call {config : Config} {hasher : Hasher} {r : Ring} (h : r.Bounded config)
    (c : Call) : (r.call hasher c).Bounded config := by
  cases c with
  | observe record => exact h.observe record
  | capture error =>
    obtain ⟨hconfig, hshards, hbuffered, hevicted⟩ := capture_frame hasher r error
    refine ⟨hconfig.trans h.settings, ?_, ?_, ?_, ?_⟩
    · show (r.capture hasher error).1.shards.length = _
      rw [hshards]
      exact h.shards
    · show ∀ s ∈ (r.capture hasher error).1.shards, _
      rw [hshards]
      exact h.exact
    · show ∀ s ∈ (r.capture hasher error).1.shards,
        s.bytes ≤ config.maxBytes / (r.capture hasher error).1.shards.length
      rw [hshards]
      exact h.budget
    · show (r.capture hasher error).1.stats.linesBuffered = _
      rw [hbuffered, h.held]
      show _ = (r.capture hasher error).1.stats.linesEvicted
        + ((r.capture hasher error).1.shards.map Shard.held).sum
      rw [hevicted, hshards]

/-- **The memory of the ring is bounded and its books are exact**, after any calls: in each
shard the bytes are those of its lines and the order lists its keys, each once; no key holds
more than `max_lines_per_key` lines; all shards together hold at most `max_bytes`; and a line
that was buffered is held or was evicted. -/
theorem memory_bounded (hasher : Hasher) (config : Config) (calls : List Call) :
    let r := Runs.run (call hasher) (Ring.new config) calls
    (∀ s ∈ r.shards, s.bytes = (s.keys.map fun e => (e.2.map Entry.bytes).sum).sum ∧
      s.order.Nodup ∧ (∀ key, key ∈ s.order ↔ key ∈ s.keys.map Prod.fst) ∧
      ∀ e ∈ s.keys, e.2.length ≤ config.maxLinesPerKey) ∧
    (r.shards.map Shard.bytes).sum ≤ config.maxBytes ∧
    r.stats.linesBuffered - r.stats.linesEvicted
      = (r.shards.map fun s => (s.keys.map fun e => e.2.length).sum).sum := by
  intro r
  have h : r.Bounded config :=
    Runs.run_invariant (fun _ c hr => hr.call c) (bounded_new config) calls
  refine ⟨?_, ?_, ?_⟩
  · intro s hs
    have hexact := h.exact s hs
    exact ⟨hexact.bytes, hexact.order.1, hexact.order.2, hexact.lines⟩
  · have hle : (r.shards.map Shard.bytes).sum
        ≤ r.shards.length * (config.maxBytes / r.shards.length) := by
      have := List.sum_le_card_nsmul (r.shards.map Shard.bytes)
        (config.maxBytes / r.shards.length) (by
          intro bytes hbytes
          obtain ⟨s, hs, rfl⟩ := List.mem_map.mp hbytes
          exact h.budget s hs)
      simpa using this
    exact hle.trans (Nat.mul_div_le _ _)
  · have hheld := h.held
    show _ = (r.shards.map Shard.held).sum
    omega

end LogLess.Ring
