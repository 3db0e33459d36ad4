import LogLess.Auth.Sessions
import LogLess.Hec.Accounting
import LogLess.Otlp.Grpc

/-!
# The accounts of the listeners

Each receiver has a ledger of requests and outcomes, and its threads count in any order. The ledger
is exact if and only if no request comes that its listener counts wrongly: `Hec.fine`, `Otlp.fine` and
`Grpc.Arrival.fine`. On the two OTLP listeners it is balanced even then.
-/

namespace LogLess

open Counting (World Event)

section

variable {ρ : Type} {κ : Type} [DecidableEq κ]

theorem accounts_run {l : Counting.Ledger κ} {logOf : ρ → List (κ × ℕ)} {counted fine : ρ → Bool}
    (hexact : ∀ r, (if counted r then l.Once (logOf r) else l.Never (logOf r)) ↔ fine r = true)
    {w : World κ ρ} (hw : w.Holds logOf) :
    l.Accounts logOf counted w ↔ ∀ r ∈ w.arrived, fine r = true := by
  rw [Counting.Ledger.accounts_iff hw counted]
  exact forall₂_congr fun r _ => hexact r

end

/-- Whatever the requests and however their threads take turns. -/
theorem listeners_account (hec : Hec.Listener) (http : Otlp.Listener) {δ ε : Type}
    (cfg : Grpc.GrpcConfig) (s : Grpc.Services δ ε) (decoder : δ) (encoder : ε)
    (posts : List (Event (Httpd.Visit Hec.Process))) (exports : List (Event (Httpd.Visit Otlp.Process)))
    (frames : List Grpc.Event) :
    let hecWorld := Runs.run (World.step (Hec.service hec).log) .start posts
    let httpWorld := Runs.run (World.step (Otlp.service http).log) .start exports
    let grpcWorld := (Runs.run (Grpc.Receiver.step cfg s decoder encoder) .start frames).world
    (Hec.ledger.Accounts (Hec.service hec).log (Hec.service hec).counted hecWorld ↔
        ∀ v ∈ hecWorld.arrived, Hec.fine hec v = true) ∧
      (Otlp.ledger.Accounts (Otlp.service http).log (Otlp.service http).counted httpWorld ↔
        ∀ v ∈ httpWorld.arrived, Otlp.fine v = true) ∧
      (Otlp.ledger.Accounts (Grpc.Arrival.log cfg s) (Grpc.Arrival.counted cfg s) grpcWorld ↔
        ∀ a ∈ grpcWorld.arrived, a.fine cfg s = true) ∧
      (httpWorld.Quiet → Otlp.ledger.balanced httpWorld.counters = true) ∧
      (grpcWorld.Quiet → Otlp.ledger.balanced grpcWorld.counters = true) := by
  intro hecWorld httpWorld grpcWorld
  have hhec := World.holds_run (Hec.service hec).log posts
  have hhttp := World.holds_run (Otlp.service http).log exports
  have hgrpc := Grpc.Receiver.holds_run cfg s decoder encoder frames
  refine ⟨accounts_run (Hec.exact_iff hec) hhec, accounts_run (Otlp.exact_iff http) hhttp,
    accounts_run (fun a => a.exact_iff cfg s) hgrpc, fun hquiet => ?_, fun hquiet => ?_⟩
  · exact Counting.Ledger.balanced_of_quiet hhttp hquiet fun v _ => Otlp.even_log http v
  · exact Counting.Ledger.balanced_of_quiet hgrpc hquiet fun a _ => a.even_log cfg s

/-! ## A poll with a wrong token -/

/-- A process that knows no token. -/
def strangerProcess : Hec.Process where
  authorize _ _ := none
  verifier := ⟨Auth.exampleTenancy, fun _ => [], true⟩
  parseBody _ _ _ := .error .noData
  hasCapacity _ := true
  sink _ := .accepted
  issue _ := 0
  durable _ _ := false

def strangerPoll : Httpd.Visit Hec.Process where
  head :=
    ⟨.post, Hec.Listener.ackPath, [], [("Authorization".toList, "Splunk wrong".toList)], []⟩
  body := .whole "\x7b\"acks\":[0]\x7d".toUTF8.toList
  atHead := strangerProcess
  atBody := strangerProcess

/-- The poll is refused and nothing is left to be counted, and the ledger has an outcome more than
it has requests. -/
theorem refused_poll_unbalances :
    let w := Runs.run (World.step (Hec.service ⟨false, true⟩).log) .start
      [.arrive strangerPoll, .count 0]
    w.threads = [[]] ∧ w.counters .requests = 0 ∧ w.counters .unauthorized = 1 ∧
      Hec.ledger.balanced w.counters = false := by
  decide +kernel

end LogLess
