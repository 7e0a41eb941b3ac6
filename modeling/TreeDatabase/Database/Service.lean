import TreeDatabase.Database

/-!
# Serving a database

Many callers share one database through a queue of bounded length. Requests are answered one at a
time, in the order in which they entered the queue.
-/

namespace TreeDatabase

inductive Request where
  | execute (text : String)
  | flush
  deriving DecidableEq, Repr

inductive Answer where
  | reply (reply : Reply)
  | flushed
  | refused (fault : StorageFault)
  deriving DecidableEq, Repr

/-- The answer to a statement: its reply, or why it was not saved. -/
def Answer.ofReply : Except StorageFault Reply → Answer
  | .ok given => .reply given
  | .error fault => .refused fault

def Answer.ofFlush : Except StorageFault Unit → Answer
  | .ok () => .flushed
  | .error fault => .refused fault

/-- A request in the queue, with the number of its caller and a ticket of its own. -/
structure Pending where
  ticket : Nat
  caller : Nat
  request : Request
  deriving DecidableEq, Repr

structure Service (σ : Type) where
  database : Database σ
  /-- The requests that wait, the oldest first. -/
  queue : List Pending := []
  /-- The answers that were given, by ticket, the latest first. -/
  answers : List (Nat × Answer) := []
  /-- The ticket of the next request. -/
  nextTicket : Nat := 0
  isOpen : Bool := true

namespace Service

variable {σ : Type} {m : Type → Type} [Monad m]

/-- The number of requests that can wait. -/
def capacity : Nat := 64

/-- The database after one request, and the answer to it. -/
def answer (b : Backend m) (r : Resolver σ) (db : Database σ) : Request → m (Database σ × Answer)
  | .execute text => do
    let (db, reply) ← db.execute b r text
    return (db, Answer.ofReply reply)
  | .flush => do return (db, Answer.ofFlush (← (db.flush b).run))

/-- Puts a request into the queue and gives its ticket. A full queue takes none for now, so that
its caller waits. After the end of the service the request is refused at once. -/
def submit (s : Service σ) (caller : Nat) (request : Request) : Option (Service σ × Nat) :=
  let s' := { s with nextTicket := s.nextTicket + 1 }
  if !s.isOpen then
    some ({ s' with answers := (s.nextTicket, .refused .closed) :: s.answers }, s.nextTicket)
  else if s.queue.length < capacity then
    some ({ s' with queue := s.queue ++ [⟨s.nextTicket, caller, request⟩] }, s.nextTicket)
  else none

def serve (b : Backend m) (r : Resolver σ) (s : Service σ) : m (Service σ) :=
  match s.queue with
  | [] => pure s
  | p :: queue => do
    let (database, a) ← answer b r s.database p.request
    return { s with database, queue, answers := (p.ticket, a) :: s.answers }

/-- Ends the service. Requests that wait are refused. -/
def abort (s : Service σ) : Service σ :=
  { s with
    queue := []
    answers := (s.queue.map fun p => (p.ticket, .refused .closed)).reverse ++ s.answers
    isOpen := false }

def answer? (s : Service σ) (ticket : Nat) : Option Answer := s.answers.lookup ticket

def serveTimes (b : Backend m) (r : Resolver σ) : Nat → Service σ → m (Service σ)
  | 0, s => pure s
  | n + 1, s => do serveTimes b r n (← s.serve b r)

/-- Submits a request and waits for its answer. A full queue is served first. -/
def call (b : Backend m) (r : Resolver σ) (s : Service σ) (caller : Nat) (request : Request) :
    m (Service σ × Answer) := do
  let ready ← if s.isOpen && capacity ≤ s.queue.length then s.serve b r else pure s
  match ready.submit caller request with
  | none => return (ready, .refused .closed)
  | some (sent, ticket) =>
    let served ← serveTimes b r sent.queue.length sent
    return (served, (served.answer? ticket).getD (.refused .closed))

end Service

end TreeDatabase
