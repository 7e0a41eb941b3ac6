import Mathlib.Logic.Function.Basic
import Mathlib.Logic.Relation
import TreeDatabase.Database.Service

/-!
# Callers of a service

Callers put requests into the queue of a service and wait for the answers, in whatever order their
steps come. The service takes one request at a time and answers it in stages: it executes the
statement, saves the store if it has to, and only then gives the answer. Callers go on between the
stages.
-/

namespace TreeDatabase

/-- What a caller asks of a service. A shutdown is a flush with which it gives up its handle. -/
inductive Call where
  | execute (text : String)
  | flush
  | shutdown
  deriving DecidableEq, Repr

/-- Where a caller stands. -/
inductive Caller where
  /-- It has no handle of the service. -/
  | absent
  | ready
  /-- It has asked, and waits for room in the queue. -/
  | sending (call : Call)
  /-- It waits for the answer to the request of a ticket. -/
  | awaiting (call : Call) (ticket : Nat)
  deriving DecidableEq, Repr

def Call.request : Call → Request
  | execute text => .execute text
  | flush | shutdown => .flush

/-- Where a caller stands when it has its answer. -/
def Call.returned : Call → Caller
  | shutdown => .absent
  | execute _ | flush => .ready

namespace Caller

/-- What a caller has asked that is not in the queue yet. -/
def sent : Caller → List Request
  | sending call => [call.request]
  | absent | ready | awaiting _ _ => []

/-- The request that a caller of a number waits for. -/
def awaited (caller : Nat) : Caller → List Pending
  | awaiting call ticket => [⟨ticket, caller, call.request⟩]
  | absent | ready | sending _ => []

@[simp]
theorem sent_returned (call : Call) : call.returned.sent = [] := by cases call <;> rfl

@[simp]
theorem awaited_returned (call : Call) (c : Nat) : call.returned.awaited c = [] := by
  cases call <;> rfl

end Caller

/-- Where a service stands with the request that it has taken from the queue. -/
inductive Stage where
  | idle
  | taken (p : Pending)
  /-- The store is to be saved, after a statement that gave a reply or for a flush. -/
  | saving (p : Pending) (reply : Option Reply)
  | answering (p : Pending) (a : Answer)

namespace Stage

variable {σ : Type}

/-- The request that is neither in the queue nor answered. -/
def current : Stage → List Pending
  | idle => []
  | taken p | saving p _ | answering p _ => [p]

/-- The first stage of a request: a statement is executed. The store is saved next when that is
asked for, or when the statement changed it and is to be saved. -/
def compute (r : Resolver σ) (db : Database σ) (p : Pending) : Database σ × Stage :=
  match p.request with
  | .execute text =>
    let (engine, reply) := db.engine.execute r text
    let db := { db with engine }
    (db, if db.autosave && engine.persist then saving p (some reply)
      else answering p (.reply reply))
  | .flush => (db, saving p none)

/-- The answer after a save. -/
def answerTo (saved : Except StorageFault Unit) : Option Reply → Answer
  | some reply => .ofReply (saved.map fun _ => reply)
  | none => .ofFlush saved

end Stage

/-- A service with its callers, in a world that its backend uses, and what has happened so far: what
callers have asked, which requests have entered the queue, and which answers callers have got, the
oldest first. -/
structure System (σ W : Type) where
  service : Service σ
  world : W
  stage : Stage := .idle
  callers : Nat → Caller
  asked : List (Nat × Call) := []
  entered : List Pending := []
  received : List (Pending × Answer) := []

namespace System

variable {σ W : Type}

/-- A service that has just begun. The caller of number zero has the only handle. -/
def start (db : Database σ) (world : W) : System σ W :=
  { service := { database := db }
    world
    callers := fun c => if c = 0 then .ready else .absent }

def setCaller (s : System σ W) (c : Nat) (caller : Caller) : System σ W :=
  { s with callers := Function.update s.callers c caller }

@[simp]
theorem callers_setCaller_self (s : System σ W) (c : Nat) (caller : Caller) :
    (s.setCaller c caller).callers c = caller := Function.update_self _ _ _

@[simp]
theorem callers_setCaller_of_ne (s : System σ W) {c d : Nat} (h : d ≠ c) (caller : Caller) :
    (s.setCaller c caller).callers d = s.callers d := Function.update_of_ne h _ _

@[simp]
theorem service_setCaller (s : System σ W) (c : Nat) (caller : Caller) :
    (s.setCaller c caller).service = s.service := rfl

@[simp]
theorem stage_setCaller (s : System σ W) (c : Nat) (caller : Caller) :
    (s.setCaller c caller).stage = s.stage := rfl

@[simp]
theorem asked_setCaller (s : System σ W) (c : Nat) (caller : Caller) :
    (s.setCaller c caller).asked = s.asked := rfl

@[simp]
theorem entered_setCaller (s : System σ W) (c : Nat) (caller : Caller) :
    (s.setCaller c caller).entered = s.entered := rfl

@[simp]
theorem received_setCaller (s : System σ W) (c : Nat) (caller : Caller) :
    (s.setCaller c caller).received = s.received := rfl

/-- What a caller has asked. -/
def askedBy (s : System σ W) (c : Nat) : List Request :=
  (s.asked.filter (·.1 = c)).map fun asked => asked.2.request

/-- The requests of a caller that have entered the queue. -/
def enteredBy (s : System σ W) (c : Nat) : List Pending := s.entered.filter (·.caller = c)

/-- The requests of a caller that were answered, with the answers that it got. -/
def receivedBy (s : System σ W) (c : Nat) : List (Pending × Answer) :=
  s.received.filter (·.1.caller = c)

/-! ## Steps -/

/-- What callers do on their own. -/
inductive Acts : System σ W → System σ W → Prop
  | clone {s : System σ W} {c d : Nat} (handle : s.callers c ≠ .absent)
      (absent : s.callers d = .absent) : Acts s (s.setCaller d .ready)
  | release {s : System σ W} {c : Nat} (ready : s.callers c = .ready) :
      Acts s (s.setCaller c .absent)
  | ask {s : System σ W} {c : Nat} (ready : s.callers c = .ready) (call : Call) :
      Acts s { s.setCaller c (.sending call) with asked := s.asked ++ [(c, call)] }

/-- What brings a request nearer to its answer. -/
inductive Serves (b : Backend (StateM W)) (r : Resolver σ) : System σ W → System σ W → Prop
  | enter {s : System σ W} {c : Nat} {call : Call} {service : Service σ} {ticket : Nat}
      (sending : s.callers c = .sending call)
      (room : s.service.submit c call.request = some (service, ticket)) :
      Serves b r s { s.setCaller c (.awaiting call ticket) with
        service
        entered := s.entered ++ [⟨ticket, c, call.request⟩] }
  | take {s : System σ W} {p : Pending} {queue : List Pending} (idle : s.stage = .idle)
      (waiting : s.service.queue = p :: queue) :
      Serves b r s { s with service := { s.service with queue }, stage := .taken p }
  | compute {s : System σ W} {p : Pending} (taken : s.stage = .taken p) :
      Serves b r s { s with
        service := { s.service with database := (Stage.compute r s.service.database p).1 }
        stage := (Stage.compute r s.service.database p).2 }
  | save {s : System σ W} {p : Pending} {reply : Option Reply} (saving : s.stage = .saving p reply)
      {saved : Except StorageFault Unit} {world : W}
      (flush : (s.service.database.flush b).run.run s.world = (saved, world)) :
      Serves b r s { s with world, stage := .answering p (Stage.answerTo saved reply) }
  | answer {s : System σ W} {p : Pending} {a : Answer} (answering : s.stage = .answering p a) :
      Serves b r s { s with
        service := { s.service with answers := (p.ticket, a) :: s.service.answers }
        stage := .idle }
  | receive {s : System σ W} {c : Nat} {call : Call} {ticket : Nat} {a : Answer}
      (awaiting : s.callers c = .awaiting call ticket)
      (answered : s.service.answer? ticket = some a) :
      Serves b r s { s.setCaller c call.returned with
        received := s.received ++ [(⟨ticket, c, call.request⟩, a)] }

/-- A system that steps lead to. -/
def Reaches (b : Backend (StateM W)) (r : Resolver σ) : System σ W → System σ W → Prop :=
  Relation.ReflTransGen fun s t => Acts s t ∨ Serves b r s t

end System

end TreeDatabase
