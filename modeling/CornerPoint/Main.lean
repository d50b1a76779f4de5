import CornerPoint.Decimal.Shortest
import CornerPoint.Form.Printer
import CornerPoint.Form.Results
import CornerPoint.Instance.Arguments

/-!
The command line: prints random problems.
-/

open CornerPoint

def main (arguments : List String) : IO UInt32 := do
  match Instance.Request.ofArguments? arguments with
  | none =>
    (← IO.getStderr).putStrLn Instance.Request.usage
    return 2
  | some request =>
    let problems : List (Problem Float) := Instance.batch request
    let document := Document.list (problems.map fun p => (p.map some).document)
    IO.println (document.pretty Decimal.number 0)
    return 0
