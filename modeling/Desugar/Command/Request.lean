import Desugar.Command.Arguments

/-!
# Requests

What the program can be asked to do.
-/

namespace Desugar
namespace Command

structure NormalizeOptions where
  input : String
  /-- Where the document goes; standard output when there is none. -/
  output : Option String := none
  /-- A file with a configuration, to which the other options are added. -/
  config : Option String := none
  disable : List String := []
  verify : Bool := false
  keepGoing : Bool := false
deriving DecidableEq, Inhabited

inductive Request where
  | normalize (options : NormalizeOptions)
  | check (input : String)
  | rules
  | version
  | help
deriving DecidableEq, Inhabited

namespace Request

def normalizeGrammar : Grammar where
  words := 1
  options := [
    { long := "output", short := some 'o', arity := .once },
    { long := "config", arity := .once },
    { long := "disable", arity := .repeated },
    { long := "verify", arity := .flag },
    { long := "keep-going", arity := .flag }]

def ofNormalize (arguments : Arguments) : Except Refusal Request :=
  match arguments.words with
  | [input] => .ok (.normalize {
      input := input
      output := arguments.value? "output"
      config := arguments.value? "config"
      disable := arguments.values "disable"
      verify := arguments.hasFlag "verify"
      keepGoing := arguments.hasFlag "keep-going" })
  | _ => .error .misused

def ofCheck (arguments : Arguments) : Except Refusal Request :=
  match arguments.words with
  | [input] => .ok (.check input)
  | _ => .error .misused

def orHelp : Except Refusal Request → Option Request
  | .ok request => some request
  | .error .helpWanted => some .help
  | .error .misused => none

def ofOption (arg : String) : Option Request :=
  match arg.toList with
  | '-' :: 'V' :: _ => some .version
  | '-' :: 'h' :: _ => some .help
  | _ => if arg == "--version" then some .version else if arg == "--help" then some .help else none

/-- The request of a command line, if it makes sense. -/
def parse? : List String → Option Request
  | "normalize" :: args => orHelp ((normalizeGrammar.read args).bind ofNormalize)
  | "check" :: args => orHelp ((Grammar.read ⟨1, []⟩ args).bind ofCheck)
  | "rules" :: args => orHelp ((Grammar.read ⟨0, []⟩ args).map (fun _ => .rules))
  | ["help"] => some .help
  | ["help", name] =>
      if ["normalize", "check", "rules", "help"].contains name then some .help else none
  | arg :: _ => ofOption arg
  | [] => none

end Request
end Command
end Desugar
