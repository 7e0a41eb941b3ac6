import TreeDatabase.Operation
import TreeDatabase.Reply
import TreeDatabase.Resolver
import TreeDatabase.Statement.Parser
import TreeDatabase.Store.Records

/-!
# The engine

A store and the state of a resolver, driven by one statement after the other.
-/

namespace TreeDatabase

structure Engine (σ : Type) where
  store : Store := Store.empty
  resolverState : σ
  format : DataFormat := .basic
  /-- Whether the last statement changed the store. -/
  persist : Bool := false
  /-- Whether a statement has asked to end the session. -/
  exited : Bool := false

namespace Engine

variable {σ : Type}

/-- The answer of a verb that concerns the session and not the store. -/
def sessionResponse? (s : Statement) : Option Response :=
  match s.verb with
  | .error => some (.ofFaults s)
  | .comment => some (.message .comment "")
  | .exit => some (.message .exit "Bye!")
  | .begin => some (.message .begin "No transaction started.")
  | .commit => some (.message .commit "Nothing to commit.")
  | .rollback => some (.message .rollback "Nothing to roll back.")
  | _ => none

/-- Executes a statement whose keywords have been resolved. A refusal of the store is the answer,
and what was done before it stays. -/
def perform (e : Engine σ) (s : Statement) : Engine σ × Response :=
  match s.executeOn e.store with
  | .ok (store, response) => ({ e with store }, response)
  | .error stop =>
    ({ e with store := stop.store }, .ofFaults (s.addFault (.refusal stop.fault)))

def run (r : Resolver σ) (e : Engine σ) (s : Statement) : Engine σ × Response :=
  match sessionResponse? s with
  | some response => ({ e with exited := e.exited || s.verb == .exit }, response)
  | none =>
    let (resolved, state) := r.apply e.store s e.resolverState
    let e := { e with resolverState := state }
    if resolved.isError then (e, .ofFaults resolved) else e.perform resolved

/-- Executes a statement up to `n` times, and not again after an error. -/
def runTimes (r : Resolver σ) (s : Statement) :
    (n : Nat) → Engine σ → List Tally → Engine σ × List Tally
  | 0, e, tallies => (e, tallies)
  | n + 1, e, tallies =>
    let (ran, response) := e.run r s
    let ran := { ran with persist := ran.persist || response.changed }
    let tallies := Tally.record response tallies
    if response.isError then (ran, tallies) else runTimes r s n ran tallies

/-- The statement of a text as the engine reads it, in the format of the engine. -/
def parse (e : Engine σ) (text : String) : Statement :=
  { Statement.parse text with format := e.format }

/-- Executes the statement of a text as often as it asks. -/
def execute (r : Resolver σ) (e : Engine σ) (text : String) : Engine σ × Reply :=
  let s := e.parse text
  let (e, tallies) := runTimes r s s.repetitions { e with persist := false } []
  (e, ⟨s, tallies⟩)

/-- Loads or merges records into the store. What was merged before a refusal stays. -/
def addRecords (e : Engine σ) (add : Store → List Record → Except Interruption (Store × Nat))
    (rs : List Record) : Engine σ × Except StoreFault Nat :=
  match add e.store rs with
  | .ok (store, n) => ({ e with store }, .ok n)
  | .error stop => ({ e with store := stop.store }, .error stop.fault)

end Engine

end TreeDatabase
