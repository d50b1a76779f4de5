import CornerPoint.Form.Document
import CornerPoint.Text.Quoted

/-!
Documents as indented text.
-/
namespace CornerPoint.Document

def escapeChar (c : Char) : List Char :=
  if c == '"' then ['\\', '"']
  else if c == '\\' then ['\\', '\\']
  else if c == '\n' then ['\\', 'n']
  else if c == '\r' then ['\\', 'r']
  else if c == '\t' then ['\\', 't']
  else if 0x20 ≤ c.toNat && c.toNat < 0x7f then [c]
  else if c.toNat < 0x10000 then '\\' :: 'u' :: Text.hex 4 c.toNat
  else
    let n := c.toNat - 0x10000
    '\\' :: 'u' :: Text.hex 4 (0xd800 + n / 0x400) ++
      '\\' :: 'u' :: Text.hex 4 (0xdc00 + n % 0x400)

def quote (s : String) : String :=
  "\"" ++ String.ofList (s.toList.flatMap escapeChar) ++ "\""

def newLine (depth : Nat) : String := "\n" ++ String.ofList (List.replicate (2 * depth) ' ')

variable {ν : Type}

mutual

/-- Members stand on lines of their own, two spaces further in than what holds them. -/
def pretty (number : ν → String) (depth : Nat) : Document ν → String
  | .null => "null"
  | .flag b => if b then "true" else "false"
  | .integer n => toString n
  | .number v => number v
  | .text s => quote s
  | .list [] => "[]"
  | .list (item :: rest) =>
    "[" ++ newLine (depth + 1) ++ pretty number (depth + 1) item ++
      prettyItems number (depth + 1) rest ++ newLine depth ++ "]"
  | .record [] => "\x7b\x7d"
  | .record ((key, value) :: rest) =>
    "\x7b" ++ newLine (depth + 1) ++ quote key ++ ": " ++ pretty number (depth + 1) value ++
      prettyFields number (depth + 1) rest ++ newLine depth ++ "\x7d"

def prettyItems (number : ν → String) (depth : Nat) : List (Document ν) → String
  | [] => ""
  | item :: rest =>
    "," ++ newLine depth ++ pretty number depth item ++ prettyItems number depth rest

def prettyFields (number : ν → String) (depth : Nat) : List (String × Document ν) → String
  | [] => ""
  | (key, value) :: rest =>
    "," ++ newLine depth ++ quote key ++ ": " ++ pretty number depth value ++
      prettyFields number depth rest

end

end CornerPoint.Document
