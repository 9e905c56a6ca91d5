/-!
# Columns

Texts that are filled up with blanks to a width in characters.  A text that is
wider stays as it is.
-/

namespace Desugar

def padRight (width : Nat) (text : String) : String :=
  text ++ String.ofList (List.replicate (width - text.length) ' ')

def padLeft (width : Nat) (text : String) : String :=
  String.ofList (List.replicate (width - text.length) ' ') ++ text

end Desugar
