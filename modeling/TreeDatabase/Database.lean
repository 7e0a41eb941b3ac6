import TreeDatabase.Database.Backend
import TreeDatabase.Engine

/-!
# Databases

An engine whose store is kept in a backend: loaded when the database is opened, and saved whenever
a statement has changed it.
-/

namespace TreeDatabase

structure Database (σ : Type) where
  engine : Engine σ
  /-- Whether a statement that changed the store saves it. -/
  autosave : Bool := true

namespace Database

variable {σ : Type} {m : Type → Type} [Monad m]

/-- A database whose store holds records, if there are any. The store of the engine has to be empty
then. -/
def ofRecords (engine : Engine σ) : List Record → Except StorageFault (Database σ)
  | [] => .ok { engine }
  | rs =>
    match engine.store.load rs with
    | .error stop => .error (.store stop.fault)
    | .ok (store, _) => .ok { engine := { engine with store } }

def openWith (b : Backend m) (engine : Engine σ) : ExceptT StorageFault m (Database σ) := do
  b.prepare
  let rs ← b.load
  ofRecords engine rs

def records (db : Database σ) : List Record := db.engine.store.toRecords

/-- Saves the store whether it has changed or not. -/
def flush (b : Backend m) (db : Database σ) : ExceptT StorageFault m Unit := b.save db.records

/-- Executes a statement, and saves the store if the statement changed it. When the store cannot be
saved there is no reply, though the statement has been executed. -/
def execute (b : Backend m) (r : Resolver σ) (db : Database σ) (text : String) :
    m (Database σ × Except StorageFault Reply) := do
  let (engine, reply) := db.engine.execute r text
  let db := { db with engine }
  if db.autosave && engine.persist then
    let saved ← (db.flush b).run
    return (db, saved.map fun _ => reply)
  else return (db, .ok reply)

/-- Loads or merges records and saves the store. After a refusal nothing is saved, and what was
merged before it stays in the store. -/
def addRecords (b : Backend m) (db : Database σ) (rs : List Record) (merge : Bool) :
    m (Database σ × Except StorageFault Nat) := do
  match db.engine.addRecords (if merge then Store.merge else Store.load) rs with
  | (engine, .error fault) => return ({ db with engine }, .error (.store fault))
  | (engine, .ok n) =>
    let db := { db with engine }
    let saved ← (db.flush b).run
    return (db, saved.map fun _ => n)

end Database

end TreeDatabase
