import Desugar.Command.Failure
import Desugar.Command.Files
import Desugar.Command.Request
import Desugar.Document
import Desugar.Pipeline.Summary

/-!
# Commands

A command reads and writes files, and ends with what goes to standard output and
to standard error, and a status.
-/

namespace Desugar

def Rule.listing (rules : List Rule) : String :=
  String.join <| rules.zipIdx.map fun (rule, position) =>
    let number := padLeft 2 (toString (position + 1))
    let line := s!"{number}. {padRight ruleColumn rule.name} {rule.description}\n"
    if rule.requires.isEmpty then line
    else line ++ "    requires: " ++ ", ".intercalate rule.requires ++ "\n"

namespace Command

def version : String :=
  "0.1.0"

def usage : String :=
  "Usage: astnorm <COMMAND>\n\n" ++
  "Commands:\n" ++
  "  normalize [-o PATH] [--config PATH] [--disable RULE]... [--verify] [--keep-going] INPUT\n" ++
  "  check INPUT\n" ++
  "  rules\n"

structure Outcome where
  stdout : String := ""
  stderr : String := ""
  status : UInt8 := 0
deriving DecidableEq, Inhabited

variable {m : Type → Type} [Monad m]

abbrev CommandT (m : Type → Type) (α : Type) := ExceptT Failure m α

/-!
## Parts
-/

def readFile (files : Files m) (path : String) (failure : String → Failure) :
    CommandT m String := do
  match ← files.read path with
  | .ok text => return text
  | .error error => throw (failure error.reason)

def loadConfig (files : Files m) (path : String) : CommandT m Config := do
  let text ← readFile files path (.unreadableConfig path)
  match Config.parse? text with
  | some config => return config
  | none => throw .malformedConfig

def loadDocument (files : Files m) (path : String) : CommandT m Document := do
  let text ← readFile files path (.unreadableDocument path)
  match Document.parse? text with
  | some document => return document
  | none => throw (.malformedDocument path)

def saveDocument (files : Files m) (path : String) (document : Document) : CommandT m Unit := do
  match ← files.write path document.write with
  | .ok () => return ()
  | .error error => throw (.unwritable path error.reason)

namespace NormalizeOptions

def adjust (options : NormalizeOptions) (config : Config) : Config :=
  let disabled := options.disable.foldl
    (fun names name => if names.contains name then names else names ++ [name]) config.disabled
  { config with
    disabled := disabled
    verify := config.verify || options.verify
    keepGoing := config.keepGoing || options.keepGoing }

def effectiveConfig (options : NormalizeOptions) (files : Files m) : CommandT m Config := do
  match options.config with
  | none => return options.adjust {}
  | some path => return options.adjust (← loadConfig files path)

def normalized (options : NormalizeOptions) (files : Files m) : CommandT m (Report × Document) := do
  let config ← options.effectiveConfig files
  match Pipeline.ofConfig config with
  | .error problem => throw (.rejectedConfig problem)
  | .ok pipeline =>
      let document ← loadDocument files options.input
      match document.normalize pipeline with
      | .ok result => return result
      | .error (.problem problem) => throw (.notNormalized options.input problem)
      | .error .exhausted => throw .exhausted
      | .error .endless => throw .endless

end NormalizeOptions

def fileViolations (files : Files m) (path : String) : CommandT m (List Violation) :=
  return (← loadDocument files path).violations

/-!
## Whole commands
-/

def Outcome.fail (outcome : Outcome) (failure : Failure) : Outcome :=
  { outcome with stderr := outcome.stderr ++ failure.report, status := failure.status }

def normalize (files : Files m) (options : NormalizeOptions) : CommandT m Outcome := do
  let (report, document) ← options.normalized files
  let stdout ← match options.output with
    | some path => do
        saveDocument files path document
        pure ""
    | none => pure (document.write ++ "\n")
  let outcome : Outcome := { stdout := stdout, stderr := report.summary ++ "\n" }
  if report.success then return outcome
  else return outcome.fail (.incomplete (max report.failed.length 1))

def check (files : Files m) (path : String) : CommandT m Outcome := do
  match ← fileViolations files path with
  | [] => return { stdout := s!"{path}: normalized\n" }
  | violations =>
      let lines := violations.map (fun violation => violation.describe ++ "\n")
      return ({ stdout := String.join lines } : Outcome).fail (.violated violations.length)

def perform (files : Files m) : Request → CommandT m Outcome
  | .normalize options => normalize files options
  | .check path => check files path
  | .rules => return { stdout := Rule.listing Rule.catalog }
  | .version => return { stdout := s!"astnorm {version}\n" }
  | .help => return { stdout := usage }

def run (files : Files m) (args : List String) : m Outcome := do
  match Request.parse? args with
  | none => return { stderr := usage, status := 2 }
  | some request =>
      match ← (perform files request).run with
      | .ok outcome => return outcome
      | .error failure => return ({} : Outcome).fail failure

end Command
end Desugar
