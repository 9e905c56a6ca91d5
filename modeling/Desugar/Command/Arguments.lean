/-!
# Arguments

The arguments of a command are words and options.  An option is a flag, or takes
a value that is attached to it or follows it.  After two dashes that stand alone
every argument is a word.
-/

namespace Desugar
namespace Command

inductive Arity where
  /-- No value; given at most once. -/
  | flag
  /-- A value; given at most once. -/
  | once
  /-- A value; given any number of times. -/
  | repeated
deriving DecidableEq, Inhabited

structure OptionSpec where
  long : String
  short : Option Char := none
  arity : Arity
deriving DecidableEq, Inhabited

structure Grammar where
  words : Nat
  options : List OptionSpec := []
deriving DecidableEq, Inhabited

inductive Refusal where
  | helpWanted
  | misused
deriving DecidableEq, Inhabited

structure Arguments where
  words : List String := []
  options : List (String × Option String) := []
deriving DecidableEq, Inhabited

namespace Arguments

def hasFlag (arguments : Arguments) (name : String) : Bool :=
  arguments.options.any (fun given => given.1 == name)

def values (arguments : Arguments) (name : String) : List String :=
  arguments.options.filterMap (fun given => if given.1 == name then given.2 else none)

def value? (arguments : Arguments) (name : String) : Option String :=
  (arguments.values name).head?

end Arguments

/-!
## Reading
-/

structure Reading where
  arguments : Arguments := {}
  pending : Option OptionSpec := none
  wordsOnly : Bool := false
deriving DecidableEq, Inhabited

namespace Reading

def addWord (grammar : Grammar) (reading : Reading) (word : String) : Except Refusal Reading :=
  let arguments := reading.arguments
  if arguments.words.length < grammar.words then
    .ok { reading with arguments := { arguments with words := arguments.words ++ [word] } }
  else .error .misused

def addOption (reading : Reading) (spec : OptionSpec) (value : Option String) :
    Except Refusal Reading :=
  let arguments := reading.arguments
  if spec.arity ≠ .repeated ∧ arguments.hasFlag spec.long then .error .misused
  else
    let options := arguments.options ++ [(spec.long, value)]
    .ok { reading with arguments := { arguments with options := options }, pending := none }

def meet (reading : Reading) (spec : OptionSpec) (attached : Option String) :
    Except Refusal Reading :=
  match spec.arity, attached with
  | .flag, none => reading.addOption spec none
  | .flag, some _ => .error .misused
  | _, none => .ok { reading with pending := some spec }
  | _, some value => reading.addOption spec (some value)

def splitAttached (text : List Char) : String × Option String :=
  match text.span (· != '=') with
  | (name, []) => (String.ofList name, none)
  | (name, _ :: value) => (String.ofList name, some (String.ofList value))

def long (grammar : Grammar) (reading : Reading) (text : List Char) : Except Refusal Reading :=
  let (name, attached) := splitAttached text
  match grammar.options.find? (fun spec => spec.long == name) with
  | some spec => reading.meet spec attached
  | none => .error (if name == "help" && attached.isNone then .helpWanted else .misused)

/-- Options of one letter, of which the last may have its value attached. -/
def short (grammar : Grammar) (reading : Reading) : List Char → Except Refusal Reading
  | [] => .ok reading
  | letter :: rest =>
      match grammar.options.find? (fun spec => spec.short == some letter) with
      | none => .error (if letter == 'h' then .helpWanted else .misused)
      | some spec =>
          if spec.arity = .flag then do
            let reading ← reading.meet spec none
            short grammar reading rest
          else
            match rest with
            | [] => reading.meet spec none
            | '=' :: value => reading.meet spec (some (String.ofList value))
            | value => reading.meet spec (some (String.ofList value))

def looksLikeOption (arg : String) : Bool :=
  match arg.toList with
  | '-' :: _ :: _ => true
  | _ => false

def step (grammar : Grammar) (reading : Reading) (arg : String) : Except Refusal Reading :=
  if reading.wordsOnly then reading.addWord grammar arg
  else
    match reading.pending with
    | some spec =>
        if looksLikeOption arg then .error .misused else reading.addOption spec (some arg)
    | none =>
        match arg.toList with
        | ['-', '-'] => .ok { reading with wordsOnly := true }
        | '-' :: '-' :: text => reading.long grammar text
        | '-' :: letter :: text => reading.short grammar (letter :: text)
        | _ => reading.addWord grammar arg

end Reading

def Grammar.read (grammar : Grammar) (args : List String) : Except Refusal Arguments := do
  let reading ← args.foldlM (Reading.step grammar) {}
  if reading.pending.isNone ∧ reading.arguments.words.length = grammar.words then
    return reading.arguments
  else throw .misused

end Command
end Desugar
