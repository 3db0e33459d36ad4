import LogLess.Auth.Jwt
import LogLess.Lib.Runs

/-!
# Refreshes of the broker's keys

A refresh asks the source for the key set outside every lock and stores the answer afterwards, so
refreshes of the timer and of requests with unknown key ids overlap in any order. Asking, being
served and storing are steps of their own here. What the source answers is given from outside.
-/

namespace LogLess.Auth.Refresh

open Json Serde Sentry

def unknownKidRefreshSecs : ℕ := 60

inductive JwksError where
  | notJson
  | noKeys
  | noEd25519
deriving DecidableEq

inductive FetchError where
  | unreachable (why : Text)
  | jwks (e : JwksError)
deriving DecidableEq

/-- What the source answers. -/
inductive Answer where
  | failed (why : Text)
  | notModified
  | body (bytes : List UInt8) (etag : Option Text)
deriving DecidableEq

/-- `KeySet` of one issuer. -/
structure StoredKeys where
  keys : KeySet
  fetchedUnixSecs : ℕ
  etag : Option Text
deriving DecidableEq

/-- The id and the key of one entry, if it is an Ed25519 key. -/
def ed25519Key (key : Value) : Option (Text × Text) := do
  let .obj fields := key | none
  let text := fun (name : String) => (member fields name.toList).bind readStr
  guard (text "kty" = some "OKP".toList ∧ text "crv" = some "Ed25519".toList)
  let kid ← text "kid"
  let x ← text "x"
  let raw ← Base64.decode x
  guard (raw.length = 32)
  return (kid, x)

def parseJwks (bytes : List UInt8) : Except JwksError KeySet :=
  match (Utf8.strict bytes).bind Json.parse with
  | none => .error .notJson
  | some (.obj doc) =>
    match member doc "keys".toList with
    | some (.arr keys) =>
      let out : KeySet := (keys.filterMap ed25519Key).foldl (fun out k => Assoc.insert out k.1 k.2) []
      if out.isEmpty then .error .noEd25519 else .ok out
    | _ => .error .noKeys
  | some _ => .error .noKeys

/-- What a refresh makes of the answer: nothing new, or keys. -/
def outcome : Answer → Except FetchError (Option (KeySet × Option Text))
  | .failed why => .error (.unreachable why)
  | .notModified => .ok none
  | .body bytes etag =>
    match parseJwks bytes with
    | .ok keys => .ok (some (keys, etag))
    | .error e => .error (.jwks e)

/-! ## The steps -/

structure RefreshState where
  lastAttemptUnixSecs : ℕ
  lastError : Option FetchError
  lastErrorUnixSecs : ℕ
  refreshes : ℕ
  failures : ℕ
deriving DecidableEq

inductive Phase where
  | begun
  | asked (etag : Option Text)
  /-- Answered, as the so-manyth fetch that the source served. -/
  | served (nth : ℕ) (answer : Answer)
  | done
deriving DecidableEq

structure Call where
  now : ℕ
  phase : Phase
deriving DecidableEq

structure World where
  set : StoredKeys
  disk : Option StoredKeys
  state : RefreshState
  calls : List Call
  /-- How many fetches the source has served. -/
  served : ℕ
  /-- The answers that were stored, the last one first: which fetch the source served, and its
  keys unless it said that nothing is new. -/
  stored : List (ℕ × Option KeySet)
  /-- When requests have started a fetch, the last one first. -/
  requested : List ℕ
deriving DecidableEq

/-- A verifier with its keys and its cache as `load_cache` left them. -/
def World.start (set : StoredKeys) (disk : Option StoredKeys) : World :=
  ⟨set, disk, ⟨0, none, 0, 0, 0⟩, [], 0, [], []⟩

inductive Event where
  /-- The thread of `start_refresh`. -/
  | timer (now : ℕ)
  | unknownKid (now : ℕ)
  | ask (i : ℕ)
  | serve (i : ℕ) (answer : Answer)
  /-- The end of a refresh; whether the cache could be written. -/
  | store (i : ℕ) (saved : Bool)
deriving DecidableEq

/-- `refresh_for_unknown_kid`, up to where it goes on to `refresh`. -/
def World.unknownKid (w : World) (now : ℕ) : World :=
  if w.state.lastAttemptUnixSecs ≠ 0 ∧ now - w.state.lastAttemptUnixSecs < unknownKidRefreshSecs then w
  else { w with
    state := { w.state with lastAttemptUnixSecs := max now 1 }
    calls := w.calls ++ [⟨now, .begun⟩]
    requested := now :: w.requested }

/-- The end of `refresh`, under its two locks. -/
def World.storeAnswer (w : World) (now nth : ℕ) (answer : Answer) (saved : Bool) : World :=
  let state := { w.state with lastAttemptUnixSecs := max now 1 }
  match outcome answer with
  | .ok new =>
    let set := match new with
      | some (keys, etag) => { w.set with keys := keys, etag := etag }
      | none => w.set
    let set := { set with fetchedUnixSecs := now }
    { w with
      set := set
      disk := if saved then some set else w.disk
      state := { state with refreshes := state.refreshes + 1, lastError := none }
      stored := (nth, new.map (·.1)) :: w.stored }
  | .error e =>
    { w with
      state := { state with
        failures := state.failures + 1
        lastError := some e
        lastErrorUnixSecs := now } }

def World.step (w : World) : Event → World
  | .timer now => { w with calls := w.calls ++ [⟨now, .begun⟩] }
  | .unknownKid now => w.unknownKid now
  | .ask i =>
    match w.calls[i]? with
    | some ⟨now, .begun⟩ => { w with calls := w.calls.set i ⟨now, .asked w.set.etag⟩ }
    | _ => w
  | .serve i answer =>
    match w.calls[i]? with
    | some ⟨now, .asked _⟩ =>
      { w with calls := w.calls.set i ⟨now, .served w.served answer⟩, served := w.served + 1 }
    | _ => w
  | .store i saved =>
    match w.calls[i]? with
    | some ⟨now, .served nth answer⟩ =>
      { w.storeAnswer now nth answer saved with calls := w.calls.set i ⟨now, .done⟩ }
    | _ => w

/-- No request has started a fetch since the refresh that ends began, and its keys are stored
before any answer that was served after them. -/
def World.fine (w : World) : Event → Bool
  | .store i _ =>
    match w.calls[i]? with
    | some ⟨now, .served nth answer⟩ =>
      (w.requested.all fun t => t ≤ now) &&
        (match outcome answer with
          | .ok (some _) => w.stored.all fun m => m.1 < nth
          | _ => true)
    | _ => true
  | _ => true

/-! ## A refresh that fails -/

/-- Only the end of a refresh that succeeds touches the keys, in memory or on disk. -/
theorem keys_kept (w : World) (e : Event) :
    (∃ i saved now nth answer new, e = .store i saved ∧
      w.calls[i]? = some ⟨now, .served nth answer⟩ ∧ outcome answer = .ok new) ∨
    (w.step e).set = w.set ∧ (w.step e).disk = w.disk := by
  cases e with
  | timer now => exact .inr ⟨rfl, rfl⟩
  | unknownKid now =>
    right
    show (w.unknownKid now).set = w.set ∧ (w.unknownKid now).disk = w.disk
    rw [World.unknownKid]
    split <;> exact ⟨rfl, rfl⟩
  | ask i =>
    right
    rw [World.step]
    split <;> exact ⟨rfl, rfl⟩
  | serve i answer =>
    right
    rw [World.step]
    split <;> exact ⟨rfl, rfl⟩
  | store i saved =>
    rw [World.step]
    split
    · next now nth answer hcall =>
      cases hout : outcome answer with
      | ok new => exact .inl ⟨i, saved, now, nth, answer, new, rfl, hcall, hout⟩
      | error why =>
        right
        rw [World.storeAnswer, hout]
        exact ⟨rfl, rfl⟩
    · exact .inr ⟨rfl, rfl⟩

/-! ## The invariant -/

/-- The keys of the last stored answer that has some, else those a verifier started with. -/
def lastStored (first : KeySet) (stored : List (ℕ × Option KeySet)) : KeySet :=
  (stored.findSome? (·.2)).getD first

/-- Requests have started fetches the time apart, and the last one is remembered. No stored answer
was replaced by keys that were served before it. -/
structure World.Inv (first : KeySet) (w : World) : Prop where
  apart : w.requested.Pairwise fun later earlier => earlier + unknownKidRefreshSecs ≤ later
  remembered : ∀ t ∈ w.requested, max t 1 ≤ w.state.lastAttemptUnixSecs
  inOrder : w.stored.Pairwise fun later earlier => later.2 ≠ none → earlier.1 < later.1
  current : w.set.keys = lastStored first w.stored

theorem World.Inv.start (set : StoredKeys) (disk : Option StoredKeys) :
    (World.start set disk).Inv set.keys :=
  ⟨List.Pairwise.nil, nofun, List.Pairwise.nil, rfl⟩

theorem World.Inv.unknownKid {first : KeySet} {w : World} (h : w.Inv first) (now : ℕ) :
    (w.unknownKid now).Inv first := by
  rw [World.unknownKid]
  split
  · exact h
  · next hlet =>
    have hgap : ∀ t ∈ w.requested, t + unknownKidRefreshSecs ≤ now := by
      intro t ht
      have hlast := h.remembered t ht
      have ht1 := le_max_left t 1
      have h1 := le_max_right t 1
      rw [not_and, not_lt] at hlet
      have := hlet (by omega)
      rw [unknownKidRefreshSecs] at *
      omega
    refine ⟨List.pairwise_cons.mpr ⟨hgap, h.apart⟩, ?_, h.inOrder, h.current⟩
    intro t ht
    show max t 1 ≤ max now 1
    rcases List.mem_cons.mp ht with rfl | ht
    · exact le_rfl
    · have := hgap t ht
      exact max_le_max_right 1 (by omega)

/-- What the end of a refresh leaves of the requests. -/
theorem storeAnswer_requested (w : World) (now nth : ℕ) (answer : Answer) (saved : Bool) :
    (w.storeAnswer now nth answer saved).requested = w.requested ∧
      (w.storeAnswer now nth answer saved).state.lastAttemptUnixSecs = max now 1 := by
  rw [World.storeAnswer]
  cases outcome answer with
  | ok new => exact ⟨rfl, rfl⟩
  | error e => exact ⟨rfl, rfl⟩

/-- The end of a refresh that no request overtook and that brings no older keys. -/
theorem World.Inv.storeAnswer {first : KeySet} {w : World} (h : w.Inv first) {now nth : ℕ}
    {answer : Answer} (saved : Bool) (hlast : ∀ t ∈ w.requested, t ≤ now)
    (hnth : ∀ new, outcome answer = .ok (some new) → ∀ m ∈ w.stored, m.1 < nth) :
    (w.storeAnswer now nth answer saved).Inv first := by
  have hremembered : ∀ t ∈ w.requested, max t 1 ≤ max now 1 :=
    fun t ht => max_le_max_right 1 (hlast t ht)
  rw [World.storeAnswer]
  cases hout : outcome answer with
  | error why => exact ⟨h.apart, hremembered, h.inOrder, h.current⟩
  | ok new =>
    cases new with
    | none =>
      have hinOrder : ((nth, none) :: w.stored).Pairwise
          fun later earlier => later.2 ≠ none → earlier.1 < later.1 :=
        List.pairwise_cons.mpr ⟨fun _ _ hne => absurd rfl hne, h.inOrder⟩
      exact ⟨h.apart, hremembered, hinOrder, h.current⟩
    | some new =>
      have hinOrder : ((nth, some new.1) :: w.stored).Pairwise
          fun later earlier => later.2 ≠ none → earlier.1 < later.1 :=
        List.pairwise_cons.mpr ⟨fun m hm _ => hnth new hout m hm, h.inOrder⟩
      exact ⟨h.apart, hremembered, hinOrder, rfl⟩

theorem World.Inv.step {first : KeySet} {w : World} (h : w.Inv first) (e : Event)
    (hfine : w.fine e = true) : (w.step e).Inv first := by
  cases e with
  | timer now => exact ⟨h.apart, h.remembered, h.inOrder, h.current⟩
  | unknownKid now => exact h.unknownKid now
  | ask i =>
    rw [World.step]
    split
    · exact ⟨h.apart, h.remembered, h.inOrder, h.current⟩
    · exact h
  | serve i answer =>
    rw [World.step]
    split
    · exact ⟨h.apart, h.remembered, h.inOrder, h.current⟩
    · exact h
  | store i saved =>
    rw [World.step]
    split
    · next now nth answer hcall =>
      rw [World.fine, hcall] at hfine
      obtain ⟨hlast, hnth⟩ := Bool.and_eq_true_iff.mp hfine
      have hstored : (w.storeAnswer now nth answer saved).Inv first := by
        apply h.storeAnswer saved
        · intro t ht
          exact of_decide_eq_true (List.all_eq_true.mp hlast t ht)
        · intro new hout m hm
          rw [hout] at hnth
          exact of_decide_eq_true (List.all_eq_true.mp hnth m hm)
      exact ⟨hstored.apart, hstored.remembered, hstored.inOrder, hstored.current⟩
    · exact h

/-- What holds of the refreshes of a run: requests start fetches the time apart, keys never replace
an answer served after them and are those in memory, and a step that ends no successful refresh
leaves the keys in memory and on disk. -/
def Safe (set : StoredKeys) (w : World) : Prop :=
  (w.requested.Pairwise fun later earlier => earlier + unknownKidRefreshSecs ≤ later) ∧
  (w.stored.Pairwise fun later earlier => later.2 ≠ none → earlier.1 < later.1) ∧
  w.set.keys = lastStored set.keys w.stored ∧
  ∀ e, (∃ i saved now nth answer new, e = Event.store i saved ∧
      w.calls[i]? = some ⟨now, .served nth answer⟩ ∧ outcome answer = .ok new) ∨
    (w.step e).set = w.set ∧ (w.step e).disk = w.disk

theorem refreshes_safe (set : StoredKeys) (disk : Option StoredKeys) (es : List Event)
    (h : Runs.Meets World.step (fun w e => w.fine e = true) (World.start set disk) es) :
    Safe set (Runs.run World.step (World.start set disk) es) := by
  have hinv : (Runs.run World.step (World.start set disk) es).Inv set.keys :=
    h.invariant (fun _ e hw hok => hw.step e hok) (World.Inv.start set disk)
  exact ⟨hinv.apart, hinv.inOrder, hinv.current, keys_kept _⟩

/-! ## Two refreshes that overlap -/

/-- A key set document with one key, whose thirty-two bytes are `b`. -/
def jwks (kid : Text) (b : UInt8) : Answer :=
  .body (Utf8.encode (Json.render (.obj [("keys".toList, .arr [.obj [
    ("kty".toList, .str "OKP".toList), ("crv".toList, .str "Ed25519".toList),
    ("kid".toList, .str kid), ("x".toList, .str (Base64.encode (List.replicate 32 b)))]])]))) none

def noKeys : StoredKeys := ⟨[], 0, none⟩

/-- Two refreshes one after the other, a request that comes too early between them. -/
def inTurn : List Event :=
  [.timer 1000, .ask 0, .serve 0 (jwks "a".toList 1), .store 0 true, .unknownKid 1030,
    .unknownKid 1060, .ask 1, .serve 1 (jwks "b".toList 2), .store 1 true, .unknownKid 1090]

theorem refreshes_safe_inTurn :
    Safe noKeys (Runs.run World.step (World.start noKeys none) inTurn) := by
  have hmeets : Runs.Meets World.step (fun w e => w.fine e = true) (World.start noKeys none)
      inTurn := by
    decide +kernel
  exact refreshes_safe noKeys none inTurn hmeets

/-- The timer's refresh is served before a request's and stored after it. -/
def overlapping : List Event :=
  [.timer 1000, .ask 0, .serve 0 (jwks "a".toList 1), .unknownKid 1001, .ask 1,
    .serve 1 (jwks "b".toList 2), .store 1 true, .store 0 true]

/-- The timer's refresh ends after a request has begun one, and a second request begins another
less than a minute later. -/
def early : List Event :=
  [.timer 1000, .ask 0, .unknownKid 1003, .serve 0 (jwks "a".toList 1), .store 0 true,
    .unknownKid 1060]

/-- The keys that were withdrawn are back, and two requests fetch within a minute. -/
theorem refreshes_overlap :
    ¬ Safe noKeys (Runs.run World.step (World.start noKeys none) overlapping) ∧
      ¬ Safe noKeys (Runs.run World.step (World.start noKeys none) early) := by
  constructor
  · intro h
    have hstored := h.2.1
    revert hstored
    decide +kernel
  · intro h
    have hrequested := h.1
    revert hrequested
    decide +kernel

end LogLess.Auth.Refresh
