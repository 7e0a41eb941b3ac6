import TreeDatabase.Statement
import TreeDatabase.Store

/-!
# Resolving keywords

A resolver answers each keyword of a statement with a text, or leaves it as it is written. It may
keep a state from one answer to the next.
-/

namespace TreeDatabase

structure KeywordRequest where
  generator : Generator
  parameter : Option String
  field : Field
  deriving DecidableEq, Repr

def KeywordSite.request (site : KeywordSite) : KeywordRequest :=
  ⟨site.generator, site.parameter, site.field⟩

/-- A source of texts for keywords, with a state of type `σ`. -/
structure Resolver (σ : Type) where
  resolve : KeywordRequest → Store → σ → Option String × σ

namespace Resolver

variable {σ : Type}

/-- Leaves every keyword as it is written. -/
def literal : Resolver Unit := ⟨fun _ _ state => (none, state)⟩

def fill (r : Resolver σ) (store : Store) (current : Statement × σ) (site : KeywordSite) :
    Statement × σ :=
  match r.resolve site.request store current.2 with
  | (some text, state) => (current.1.setField site.field text, state)
  | (none, state) => (current.1, state)

/-- The keyword sites of a statement in the order in which the keywords stand in it. -/
def orderedSites (s : Statement) : List KeywordSite :=
  s.sites.mergeSort fun a b => decide (a.ordinal ≤ b.ordinal)

def hasRepeats : List String → Bool
  | [] => false
  | name :: names => names.contains name || hasRepeats names

/-- Fills all keyword sites of a statement. Names of children that coincide then are a fault. -/
def apply (r : Resolver σ) (store : Store) (s : Statement) (state : σ) : Statement × σ :=
  if s.isError || s.sites.isEmpty then (s, state)
  else
    let (filled, state) := (orderedSites s).foldl (r.fill store) (s, state)
    (if hasRepeats filled.childNames then filled.addFault .duplicateChildren else filled, state)

end Resolver

end TreeDatabase
