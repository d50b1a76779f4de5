import CornerPoint.Instance
import CornerPoint.Numeral.Reader

/-!
A request for random problems, as given on a command line.
-/
namespace CornerPoint.Instance

def integer? (text : String) : Option Int :=
  let (negative, body) := Numeral.splitSign (Text.trim Text.isWhiteSpace text.toList)
  if body.isEmpty || !body.all Char.isDigit then none
  else
    let size : Int := Numeral.digitsValue body
    some (if negative then -size else size)

namespace Request

def set? (r : Request) (option value : String) : Option Request :=
  match option, integer? value with
  | "--constraints", some n => some { r with constraints := n }
  | "--seed", some n => some { r with seed := some n }
  | "--count", some n => some { r with count := n }
  | _, _ => none

/-- An option and its value may stand in one argument, with an equals sign between them. -/
def splitArgument (argument : String) : List String :=
  let option := argument.toList.takeWhile (· != '=')
  match argument.toList.dropWhile (· != '=') with
  | [] => [argument]
  | _ :: value => [String.ofList option, String.ofList value]

/-- Options and values in turn; of an option that is repeated, the last value counts. -/
def ofWords? (r : Request) : List String → Option Request
  | [] => some r
  | [_] => none
  | option :: value :: rest => (r.set? option value).bind fun r => r.ofWords? rest

def ofArguments? (arguments : List String) : Option Request :=
  ofWords? {} (arguments.flatMap splitArgument)

def usage : String :=
  "usage: [--constraints CONSTRAINTS] [--seed SEED] [--count COUNT]"

end Request

end CornerPoint.Instance
