/-!
# Where filters

A filter lists fields with the values it accepts in them; a field without values only has to be
present. Items for one field are gathered.
-/

namespace TreeDatabase

structure Filter where
  fields : List (String × List String) := []
  deriving DecidableEq, Repr

namespace Filter

def isEmpty (f : Filter) : Bool := f.fields.isEmpty

/-- Adds values to the field of a name, which comes last when it is new. -/
def addTo (field : String) (values : List String) :
    List (String × List String) → List (String × List String)
  | [] => [(field, values)]
  | (name, accepted) :: rest =>
    if name = field then (name, accepted ++ values) :: rest
    else (name, accepted) :: addTo field values rest

/-- Adds an item: a field, and perhaps one more value that is accepted in it. -/
def add (f : Filter) (field : String) (value : Option String) : Filter :=
  ⟨addTo field value.toList f.fields⟩

/-- Whether a node of the given name and value satisfies a field. -/
def accepts (f : Filter) (name value : String) : Bool :=
  f.fields.any fun field => field.1 == name && (field.2.isEmpty || field.2.contains value)

end Filter

end TreeDatabase
