import StorageMarket.Decimal

/-!
# JSON values and their text

The values that are ever written: no negative numbers and no fractions, and
objects keep their members in the order given. Two layouts of the text are
known: *compact*, without any blank, and *pretty*, with each item on a line of
its own, two blanks of indentation a level, and empty arrays and objects kept
together.

Inside a string the quote, the backslash and the characters below the blank are
escaped, and nothing else is.
-/

namespace StorageMarket

inductive Json where
  | null
  | bool (b : Bool)
  | number (n : Nat)
  | string (s : String)
  | array (items : List Json)
  | object (members : List (String × Json))

namespace Json

/-! ## Strings -/

def escape (c : Char) : List Char :=
  if c = '"' then ['\\', '"']
  else if c = '\\' then ['\\', '\\']
  else if c.toNat = 8 then ['\\', 'b']
  else if c.toNat = 9 then ['\\', 't']
  else if c.toNat = 10 then ['\\', 'n']
  else if c.toNat = 12 then ['\\', 'f']
  else if c.toNat = 13 then ['\\', 'r']
  else if c.toNat < 32 then
    ['\\', 'u', '0', '0', Nat.digitChar (c.toNat / 16), Nat.digitChar (c.toNat % 16)]
  else [c]

def quoted (s : String) : List Char := '"' :: s.toList.flatMap escape ++ ['"']

/-! ## The compact layout -/

mutual

def compact : Json → List Char
  | .null => ['n', 'u', 'l', 'l']
  | .bool true => ['t', 'r', 'u', 'e']
  | .bool false => ['f', 'a', 'l', 's', 'e']
  | .number n => Decimal.digits n
  | .string s => quoted s
  | .array [] => ['[', ']']
  | .array (item :: rest) => '[' :: compact item ++ compactItems rest
  | .object [] => ['{', '}']
  | .object ((name, value) :: rest) =>
      '{' :: quoted name ++ ':' :: compact value ++ compactMembers rest

/-- The items after the first, and the closing bracket. -/
def compactItems : List Json → List Char
  | [] => [']']
  | item :: rest => ',' :: compact item ++ compactItems rest

/-- The members after the first, and the closing brace. -/
def compactMembers : List (String × Json) → List Char
  | [] => ['}']
  | (name, value) :: rest => ',' :: quoted name ++ ':' :: compact value ++ compactMembers rest

end

/-! ## The pretty layout -/

def newLine (level : Nat) : List Char := '\n' :: List.replicate (2 * level) ' '

mutual

/-- The text of a value on lines of its own, its first line already indented. -/
def pretty (level : Nat) : Json → List Char
  | .array [] => ['[', ']']
  | .array (item :: rest) =>
      '[' :: newLine (level + 1) ++ pretty (level + 1) item ++ prettyItems level rest
  | .object [] => ['{', '}']
  | .object ((name, value) :: rest) =>
      '{' :: newLine (level + 1) ++ quoted name ++ ':' :: ' ' :: pretty (level + 1) value
        ++ prettyMembers level rest
  | .null => ['n', 'u', 'l', 'l']
  | .bool true => ['t', 'r', 'u', 'e']
  | .bool false => ['f', 'a', 'l', 's', 'e']
  | .number n => Decimal.digits n
  | .string s => quoted s

def prettyItems (level : Nat) : List Json → List Char
  | [] => newLine level ++ [']']
  | item :: rest =>
      ',' :: newLine (level + 1) ++ pretty (level + 1) item ++ prettyItems level rest

def prettyMembers (level : Nat) : List (String × Json) → List Char
  | [] => newLine level ++ ['}']
  | (name, value) :: rest =>
      ',' :: newLine (level + 1) ++ quoted name ++ ':' :: ' ' :: pretty (level + 1) value
        ++ prettyMembers level rest

end

def toText (json : Json) : String := String.ofList json.compact

def toPrettyText (json : Json) : String := String.ofList (json.pretty 0)

def ofOption {α : Type} (write : α → Json) : Option α → Json
  | some a => write a
  | none => .null

example : (Json.array [.number 1, .null]).compact = ['[', '1', ',', 'n', 'u', 'l', 'l', ']'] := by
  decide +kernel
example : (Json.array []).pretty 3 = ['[', ']'] := by decide +kernel

end Json

end StorageMarket
