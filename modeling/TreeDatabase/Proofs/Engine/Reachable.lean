import TreeDatabase.Proofs.Engine.Alphabet

/-!
# Reachable engines

Statements, and changes of the store between them, lead from a new engine to others, whose stores
are all coherent.
-/

namespace TreeDatabase.Engine

variable {σ : Type} {r : Resolver σ} {e : Engine σ}

/-- The engines that statements, and changes of the store between them, lead to. -/
inductive Reachable (r : Resolver σ) : Engine σ → Prop
  | start (state : σ) (format : DataFormat) : Reachable r { resolverState := state, format }
  | execute {e : Engine σ} (before : Reachable r e) (text : String) :
      Reachable r (e.execute r text).1
  | change {e : Engine σ} (before : Reachable r e) (c : Change) :
      Reachable r { e with store := c.apply e.store }

theorem Reachable.coherent (hr : Reachable r e) : e.store.Coherent := by
  induction hr with
  | start => exact Store.coherent_empty
  | @execute e _ text ih =>
    have h := coherent_runTexts r [text] e ih
    rw [runTexts_cons, Engine.runTexts, List.foldl_nil] at h
    exact h
  | change _ c ih => exact Change.coherent_apply ih c

theorem Reachable.runTexts (hr : Reachable r e) (texts : List String) :
    Reachable r (e.runTexts r texts) := by
  induction texts generalizing e with
  | nil => exact hr
  | cons text texts ih =>
    rw [runTexts_cons]
    exact ih (hr.execute text)

end TreeDatabase.Engine
