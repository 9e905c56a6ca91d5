import Desugar.Command.Run

/-!
# The program

Files are those of the operating system.
-/

namespace Desugar
namespace Command

/-- The failure that a code of the system stands for.  Some calls give the code
with its sign changed. -/
def errorOfCode (code : UInt32) (details : String) : AccessError :=
  let number := if code > 0x80000000 then 0 - code else code
  if number = 20 then .notDirectory
  else if number = 21 then .isDirectory
  else if number = 36 then .nameTooLong
  else .other s!"{details} (os error {number})"

def accessError : IO.Error → AccessError
  | .noFileOrDirectory _ _ _ => .noSuchFile
  | .permissionDenied _ _ _ => .other "Permission denied (os error 13)"
  | .inappropriateType _ code details | .invalidArgument _ code details
  | .resourceBusy code details | .resourceExhausted _ code details => errorOfCode code details
  | error => .other (toString error)

def systemFiles : Files IO where
  read path := do
    match ← (IO.FS.readFile path).toBaseIO with
    | .ok text => return .ok text
    | .error error => return .error (accessError error)
  write path text := do
    match ← (IO.FS.writeFile path text).toBaseIO with
    | .ok () => return .ok ()
    | .error error => return .error (accessError error)

end Command
end Desugar

def main (args : List String) : IO UInt32 := do
  let outcome ← Desugar.Command.run Desugar.Command.systemFiles args
  IO.print outcome.stdout
  IO.eprint outcome.stderr
  return outcome.status.toUInt32
