/-!
# Options of a command line

Arguments are scanned from left to right. Options have a long name after two dashes, and perhaps a
letter after one; some take a value, in the same argument or in the next one. What is no option is
an operand, or the name of a subcommand where there are any. After a lone pair of dashes everything
is an operand.
-/

namespace TreeDatabase.CommandLine

inductive Arity where
  /-- May be given once. -/
  | switch
  /-- May be given any number of times. -/
  | counter
  /-- Takes a value and may be given once. -/
  | value
  /-- Asks for information. Nothing behind it is read. -/
  | information
  deriving DecidableEq, Repr

structure OptionSpec where
  long : String
  short : Option Char := none
  arity : Arity := .switch
  /-- Which values are accepted. -/
  accepts : String → Bool := fun _ => true
  /-- The variable of the environment that gives the value when no option does. -/
  variableName : Option String := none

structure Found where
  /-- The options by their long names, the latest first. -/
  options : List (String × String) := []
  operands : List String := []
  /-- The subcommand and the arguments after it. -/
  subcommand : Option (String × List String) := none
  deriving Repr

inductive Stop where
  /-- The arguments make no sense. -/
  | usage
  /-- Help or the version was asked for. -/
  | information
  deriving DecidableEq, Repr

namespace Found

/-- Records an option, which may be given once unless it counts. -/
def record (f : Found) (spec : OptionSpec) (value : String) : Except Stop Found :=
  if spec.arity = .information then .error .information
  else if spec.arity ≠ .counter ∧ (f.options.lookup spec.long).isSome then .error .usage
  else if !spec.accepts value then .error .usage
  else .ok { f with options := (spec.long, value) :: f.options }

def value? (f : Found) (long : String) : Option String := f.options.lookup long

def has (f : Found) (long : String) : Bool := (f.value? long).isSome

end Found

/-- Whether an argument can only be an option: a dash and something after it. -/
def looksLikeOption (arg : String) : Bool :=
  match arg.toList with
  | '-' :: _ :: _ => true
  | _ => false

/-- What remains to be done for an option that was read without its value. -/
inductive Reading where
  | done (found : Found)
  | needsValue (spec : OptionSpec) (found : Found)

/-- Reads a long option, given by what follows the dashes. -/
def readLong (specs : List OptionSpec) (f : Found) (cs : List Char) : Except Stop Reading :=
  let name := String.ofList (cs.takeWhile (· ≠ '='))
  let attached := match cs.dropWhile (· ≠ '=') with
    | _ :: value => some (String.ofList value)
    | [] => none
  match specs.find? (·.long == name), attached with
  | none, _ => .error .usage
  | some spec, some value =>
    if spec.arity = .value then (f.record spec value).map .done else .error .usage
  | some spec, none =>
    if spec.arity = .value then .ok (.needsValue spec f) else (f.record spec "").map .done

/-- Reads letters that follow one dash. The value of an option may follow its letter, with an
equals sign or without. -/
def readShort (specs : List OptionSpec) (f : Found) : List Char → Except Stop Reading
  | [] => .ok (.done f)
  | c :: cs =>
    match specs.find? (·.short == some c) with
    | none => .error .usage
    | some spec =>
      if spec.arity = .value then
        match cs with
        | [] => .ok (.needsValue spec f)
        | '=' :: value => (f.record spec (String.ofList value)).map .done
        | value => (f.record spec (String.ofList value)).map .done
      else
        match f.record spec "" with
        | .error stop => .error stop
        | .ok f => readShort specs f cs

def readOption (specs : List OptionSpec) (f : Found) (arg : String) : Except Stop Reading :=
  match arg.toList with
  | '-' :: '-' :: cs => readLong specs f cs
  | _ :: cs => readShort specs f cs
  | [] => .error .usage

structure Level where
  options : List OptionSpec := []
  subcommands : List String := []
  /-- Which operands are accepted, by their places counted from zero. -/
  operand : Nat → String → Bool := fun _ _ => false

def Level.addOperand (level : Level) (f : Found) (arg : String) : Except Stop Found :=
  if level.operand f.operands.length arg then .ok { f with operands := f.operands ++ [arg] }
  else .error .usage

def Level.scan (level : Level) (f : Found) : List String → Except Stop Found
  | [] => .ok f
  | arg :: rest =>
    if arg = "--" then rest.foldlM level.addOperand f
    else if looksLikeOption arg then
      match readOption level.options f arg, rest with
      | .error stop, _ => .error stop
      | .ok (.done f), rest => level.scan f rest
      | .ok (.needsValue _ _), [] => .error .usage
      | .ok (.needsValue spec f), value :: rest =>
        if looksLikeOption value then .error .usage
        else
          match f.record spec value with
          | .error stop => .error stop
          | .ok f => level.scan f rest
    else if level.subcommands.contains arg then .ok { f with subcommand := some (arg, rest) }
    else
      match level.addOperand f arg with
      | .error stop => .error stop
      | .ok f => level.scan f rest

/-- Adds the values that the environment gives to options that were not given. An unacceptable one
is an error. -/
def addVariables (specs : List OptionSpec) (environment : String → Option String) (f : Found) :
    Except Stop (List (String × String)) :=
  specs.foldlM (fun found spec =>
    match spec.variableName.bind environment with
    | none => .ok found
    | some value =>
      if f.has spec.long then .ok found
      else if spec.accepts value then .ok ((spec.long, value) :: found)
      else .error .usage) []

end TreeDatabase.CommandLine
