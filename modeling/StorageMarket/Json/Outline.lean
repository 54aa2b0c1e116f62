import StorageMarket.Json.Numeral

/-!
# The outline of a JSON text

An outline holds the values of a text as far as the text can be followed. Where it
goes wrong, the outline ends with the fault in the place of what should stand there.
So one pass over the characters serves every reader: whoever walks the outline in
order meets the first fault in the order of the text, and a reader that finds a
value of the wrong kind before that place stops there instead.

Two rules keep apart faults that different readers meet differently:

* after a comma there is always another item or member, if only a broken one, and
  `cut` stands for a text that goes wrong where a comma or the end has to stand;
* a string whose escapes make no text is complete, and only its content is missing.
-/

namespace StorageMarket.Json

/-! ## Outlines -/

/-- What a text that goes wrong has started to write. -/
inductive Begun where
  | nothing
  | string
  | scalar
deriving DecidableEq

mutual

/-- A value, as far as the text can be followed. -/
inductive Outline where
  | null
  | bool (b : Bool)
  | number (n : Numeral)
  /-- A string, and its content or what is wrong with it. -/
  | string (content : Except Fault String)
  | array (items : Items)
  | object (members : Members)
  /-- The text goes wrong here. -/
  | broken (begun : Begun) (mishap : Mishap)

inductive Items where
  | done
  | cut (fault : Fault)
  | item (head : Outline) (rest : Items)

inductive Members where
  | done
  | cut (fault : Fault)
  | member (name : Except Fault String) (value : Outline) (rest : Members)

end

def Members.broken (fault : Fault) : Members :=
  .member (.error fault) (.broken .nothing (.both fault)) .done

/-! ## Blanks -/

def isSpace (c : Char) : Bool := c = ' ' || c = '\n' || c = '\t' || c = '\r'

def skipSpace (cs : List Char) : List Char := cs.dropWhile isSpace

/-! ## Strings -/

def hexValue? (c : Char) : Option Nat :=
  if '0' ≤ c ∧ c ≤ '9' then some (c.toNat - 48)
  else if 'a' ≤ c ∧ c ≤ 'f' then some (c.toNat - 87)
  else if 'A' ≤ c ∧ c ≤ 'F' then some (c.toNat - 55)
  else none

def unit? (a b c d : Char) : Option Nat := do
  let a ← hexValue? a
  let b ← hexValue? b
  let c ← hexValue? c
  let d ← hexValue? d
  return ((a * 16 + b) * 16 + c) * 16 + d

/-- What is wrong after the mark of a unit: fewer than four bytes are left, or they are not all
digits. -/
def unitFault (cs : List Char) : Fault :=
  if ((cs.take 4).flatMap String.utf8EncodeChar).length < 4 then .truncated else .malformed

def simpleEscape? (c : Char) : Option Char :=
  if c = '"' ∨ c = '\\' ∨ c = '/' then some c
  else if c = 'b' then some (Char.ofNat 8)
  else if c = 'f' then some (Char.ofNat 12)
  else if c = 'n' then some '\n'
  else if c = 'r' then some '\r'
  else if c = 't' then some '\t'
  else none

def isLead (u : Nat) : Bool := 0xd800 ≤ u && u ≤ 0xdbff

def isTrail (u : Nat) : Bool := 0xdc00 ≤ u && u ≤ 0xdfff

def pairFault : List Char → Fault
  | [] => .truncated
  | ['\\'] => .truncated
  | '\\' :: 'u' :: cs => unitFault cs
  | _ => .malformed

/-- Finds the end of a string whose opening quote is already read, without looking at what its
units stand for: the text after the closing quote. -/
def skipString : List Char → Except Fault (List Char)
  | [] => .error .truncated
  | '"' :: rest => .ok rest
  | '\\' :: 'u' :: a :: b :: c :: d :: rest =>
      match unit? a b c d with
      | some _ => skipString rest
      | none => .error .malformed
  | '\\' :: 'u' :: rest => .error (unitFault rest)
  | '\\' :: c :: rest => if (simpleEscape? c).isSome then skipString rest else .error .malformed
  | ['\\'] => .error .truncated
  | c :: rest => if c.toNat < 32 then .error .malformed else skipString rest

def readString : List Char → Except Fault (List Char)
  | [] => .error .truncated
  | '"' :: _ => .ok []
  | '\\' :: 'u' :: a :: b :: c :: d :: rest =>
      match unit? a b c d with
      | none => .error .malformed
      | some u =>
          if isTrail u then .error .malformed
          else if isLead u then
            match rest with
            | '\\' :: 'u' :: a' :: b' :: c' :: d' :: rest =>
                match unit? a' b' c' d' with
                | none => .error .malformed
                | some v =>
                    if isTrail v then
                      (readString rest).map
                        (Char.ofNat ((u - 0xd800) * 1024 + (v - 0xdc00) + 0x10000) :: ·)
                    else .error .malformed
            | rest => .error (pairFault rest)
          else (readString rest).map (Char.ofNat u :: ·)
  | '\\' :: 'u' :: rest => .error (unitFault rest)
  | '\\' :: c :: rest =>
      match simpleEscape? c with
      | some e => (readString rest).map (e :: ·)
      | none => .error .malformed
  | ['\\'] => .error .truncated
  | c :: rest =>
      if c.toNat < 32 then .error .malformed else (readString rest).map (c :: ·)

def scanString (cs : List Char) : Except Mishap (Except Fault String × List Char) :=
  match skipString cs with
  | .ok rest => .ok ((readString cs).map String.ofList, rest)
  | .error skip =>
      match readString cs with
      -- what can be read can be skipped, so this does not happen
      | .ok _ => .error ⟨skip, skip⟩
      | .error read => .error ⟨read, skip⟩

/-! ## Values -/

def literal (letters : List Char) (value : Outline) (cs : List Char) :
    Outline × Option (List Char) :=
  match letters, cs with
  | [], cs => (value, some cs)
  | _ :: _, [] => (.broken .scalar (.both .truncated), none)
  | l :: letters, c :: cs =>
      if c = l then literal letters value cs else (.broken .scalar (.both .malformed), none)

mutual

/-- The outline of the value at the head of a text, and the text after it unless the text goes
wrong inside. -/
def outline : Nat → List Char → Outline × Option (List Char)
  | 0, _ => (.broken .nothing (.both .truncated), none)
  | fuel + 1, cs =>
      match skipSpace cs with
      | [] => (.broken .nothing (.both .truncated), none)
      | 'n' :: cs => literal ['u', 'l', 'l'] .null cs
      | 't' :: cs => literal ['r', 'u', 'e'] (.bool true) cs
      | 'f' :: cs => literal ['a', 'l', 's', 'e'] (.bool false) cs
      | '"' :: cs =>
          match scanString cs with
          | .ok (content, rest) => (.string content, some rest)
          | .error mishap => (.broken .string mishap, none)
      | '[' :: cs =>
          match skipSpace cs with
          | [] => (.array (.cut .truncated), none)
          | ']' :: rest => (.array .done, some rest)
          | cs =>
              let (items, rest) := outlineItems fuel cs
              (.array items, rest)
      | '\x7b' :: cs =>
          match skipSpace cs with
          | [] => (.object (.cut .truncated), none)
          | '\x7d' :: rest => (.object .done, some rest)
          | '"' :: cs =>
              let (members, rest) := outlineMembers fuel cs
              (.object members, rest)
          | _ => (.object (.cut .malformed), none)
      | c :: cs =>
          if c = '-' ∨ c.isDigit then
            match Numeral.read (c :: cs) with
            | .ok (n, rest) => (.number n, some rest)
            | .error mishap => (.broken .scalar mishap, none)
          else (.broken .nothing (.both .malformed), none)

def outlineItems : Nat → List Char → Items × Option (List Char)
  | 0, _ => (.cut .truncated, none)
  | fuel + 1, cs =>
      match outline fuel cs with
      | (head, none) => (.item head .done, none)
      | (head, some rest) =>
          match skipSpace rest with
          | [] => (.item head (.cut .truncated), none)
          | ']' :: rest => (.item head .done, some rest)
          | ',' :: cs =>
              let (items, rest) := outlineItems fuel cs
              (.item head items, rest)
          | _ => (.item head (.cut .malformed), none)

def outlineMembers : Nat → List Char → Members × Option (List Char)
  | 0, _ => (.cut .truncated, none)
  | fuel + 1, cs =>
      match scanString cs with
      | .error mishap => (.member (.error mishap.read) (.broken .string mishap) .done, none)
      | .ok (name, rest) =>
          match skipSpace rest with
          | [] => (.member name (.broken .nothing (.both .truncated)) .done, none)
          | ':' :: cs =>
              match outline fuel cs with
              | (value, none) => (.member name value .done, none)
              | (value, some rest) =>
                  match skipSpace rest with
                  | [] => (.member name value (.cut .truncated), none)
                  | '\x7d' :: rest => (.member name value .done, some rest)
                  | ',' :: cs =>
                      match skipSpace cs with
                      | '"' :: cs =>
                          let (members, rest) := outlineMembers fuel cs
                          (.member name value members, rest)
                      | [] => (.member name value (.broken .truncated), none)
                      | _ => (.member name value (.broken .malformed), none)
                  | _ => (.member name value (.cut .malformed), none)
          | _ => (.member name (.broken .nothing (.both .malformed)) .done, none)

end

def Outline.ofText (cs : List Char) : Outline × Option (List Char) :=
  outline (2 * cs.length + 2) cs

end StorageMarket.Json
