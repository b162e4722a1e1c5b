import MetaFs.Quoted
/-!
How structured values are shown: a name, then named parts in braces or unnamed parts in
parentheses.
-/

namespace MetaFs.Shown

def record (name : String) (fields : List (String × String)) : String :=
  let parts := fields.map fun (field, value) => field ++ ": " ++ value
  if parts.isEmpty then name else name ++ " \x7b " ++ ", ".intercalate parts ++ " \x7d"

def tuple (name : String) (parts : List String) : String :=
  name ++ "(" ++ ", ".intercalate parts ++ ")"

def list (items : List String) : String :=
  "[" ++ ", ".intercalate items ++ "]"

def option {α : Type} (render : α → String) : Option α → String
  | none => "None"
  | some value => tuple "Some" [render value]

def number {α : Type} [ToString α] (n : α) : String :=
  toString n

def truth (b : Bool) : String :=
  if b then "true" else "false"

/-- A length of time in milliseconds, in seconds when there is a whole one. The fraction has no
zeros at its end. -/
def duration (millis : Nat) : String :=
  if millis = 0 then "0ns"
  else if millis < 1000 then s!"{millis}ms"
  else
    let fraction := millis % 1000
    let digits := (toString (1000 + fraction)).toList.drop 1
    let kept := (digits.reverse.dropWhile (· = '0')).reverse
    if kept.isEmpty then s!"{millis / 1000}s" else s!"{millis / 1000}.{String.ofList kept}s"

end MetaFs.Shown
