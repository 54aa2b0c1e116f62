import StorageMarket.Json.Outline

/-!
# Reading values out of an outline

A `Decoder` reads a value of some type from an outline, or stops at the first fault.
It is told how many arrays and objects are open around the value, because content
that is kept aside, to be read once its type is known, may not nest too deeply.

Records are read by a `Fields`, which lists the fields of a record in order. A record
is an object, whose members may come in any order and may include unknown ones, or
an array of exactly the fields in their order.

Content that is kept aside is looked through first, and has to be well formed
throughout; afterwards every fault in it is a mismatch.
-/

namespace StorageMarket.Json

/-- Reads a value, given the number of arrays and objects that are open around it. -/
abbrev Decoder (α : Type) := Nat → Outline → Except Fault α

def unexpected : Fault := .mismatch .unexpected

/-! ## Values that are not read -/

/-- The fault of a value of the wrong type. A number, a string or a literal is read before it is
refused; of an array or object only the opening is looked at. -/
def Outline.refusal : Outline → Fault
  | .broken _ mishap => mishap.read
  | .number n => if n.isBeyondDouble then .malformed else unexpected
  | .string (.error fault) => fault
  | _ => unexpected

mutual

def Outline.skip : Outline → Except Fault Unit
  | .broken _ mishap => .error mishap.skip
  | .array items => items.skip
  | .object members => members.skip
  | _ => .ok ()

def Items.skip : Items → Except Fault Unit
  | .done => .ok ()
  | .cut fault => .error fault
  | .item head rest => do
      head.skip
      rest.skip

def Members.skip : Members → Except Fault Unit
  | .done => .ok ()
  | .cut fault => .error fault
  | .member _ value rest => do
      value.skip
      rest.skip

end

/-- The number of arrays and objects that may not be open at once in content kept aside. -/
def nestingLimit : Nat := 128

def checkNesting (depth : Nat) : Except Fault Unit :=
  if depth + 1 < nestingLimit then .ok () else .error .malformed

mutual

/-- Looks through a value that is kept aside. -/
def Outline.inspect (depth : Nat) : Outline → Except Fault Unit
  | .broken _ mishap => .error mishap.read
  | .number n => if n.isBeyondDouble then .error .malformed else .ok ()
  | .string (.error fault) => .error fault
  | .array items => do
      checkNesting depth
      items.inspect (depth + 1)
  | .object members => do
      checkNesting depth
      members.inspect (depth + 1)
  | _ => .ok ()

def Items.inspect (depth : Nat) : Items → Except Fault Unit
  | .done => .ok ()
  | .cut fault => .error fault
  | .item head rest => do
      head.inspect depth
      rest.inspect depth

def Members.inspect (depth : Nat) : Members → Except Fault Unit
  | .done => .ok ()
  | .cut fault => .error fault
  | .member name value rest => do
      let _ ← name
      value.inspect depth
      rest.inspect depth

end

/-- A fault met in content that was kept aside: the text is known to be in order, so whatever is
wrong is a mismatch. -/
def Fault.inContent : Fault → Fault
  | .mismatch why => .mismatch why
  | _ => unexpected

def Decoder.inContent {α : Type} (decode : Decoder α) : Decoder α := fun depth content =>
  match decode depth content with
  | .ok a => .ok a
  | .error fault => .error fault.inContent

/-! ## Plain values -/

def decodeUInt64 : Decoder UInt64 := fun _ value =>
  match value with
  | .number n =>
      match n.toUInt64? with
      | some u => .ok u
      | none => .error value.refusal
  | _ => .error value.refusal

def decodeBool : Decoder Bool := fun _ value =>
  match value with
  | .bool b => .ok b
  | _ => .error value.refusal

def decodeString : Decoder String := fun _ value =>
  match value with
  | .string (.ok s) => .ok s
  | _ => .error value.refusal

def decodeText {α : Type} (read : List Char → Except Mismatch α) : Decoder α :=
  fun depth value => do
    let s ← decodeString depth value
    match read s.toList with
    | .ok a => return a
    | .error why => throw (.mismatch why)

def Items.decode {α : Type} (decode : Decoder α) (depth : Nat) : Items → Except Fault (List α)
  | .done => .ok []
  | .cut fault => .error fault
  | .item head rest => do
      let a ← decode depth head
      let rest ← rest.decode decode depth
      return a :: rest

def decodeList {α : Type} (decode : Decoder α) : Decoder (List α) := fun depth value =>
  match value with
  | .array items => items.decode decode (depth + 1)
  | _ => .error value.refusal

/-! ## Records -/

/-- The fields of a record: their names in order, how to read them one by one in any order, and
what to make of them in the end. -/
structure Fields (α : Type) where
  /-- The fields that are read so far. -/
  State : Type
  start : State
  names : List String
  /-- Reads the value of a field, if the name is that of one. -/
  read : String → Nat → Outline → State → Option (Except Fault State)
  /-- The record; `absent` is the fault of a field that is missing. -/
  finish : (String → Fault) → State → Except Fault α

namespace Fields

/-- A record with one field, which may be left out if there is a value to take instead. -/
def single {α : Type} (name : String) (decode : Decoder α) (default? : Option α) : Fields α where
  State := Option α
  start := none
  names := [name]
  read name' depth value state :=
    if name' = name then
      some (match state with
        | some _ => .error (.mismatch (.repeatedField name))
        | none => (decode depth value).map some)
    else none
  finish absent state :=
    match state.or default? with
    | some a => .ok a
    | none => .error (absent name)

def required {α : Type} (name : String) (decode : Decoder α) : Fields α := single name decode none

def optional {α : Type} (name : String) (decode : Decoder α) (default : α) : Fields α :=
  single name decode (some default)

def both {α β γ : Type} (combine : α → β → γ) (first : Fields α) (second : Fields β) :
    Fields γ where
  State := first.State × second.State
  start := (first.start, second.start)
  names := first.names ++ second.names
  read name depth value state :=
    match first.read name depth value state.1 with
    | some outcome => some (outcome.map fun s => (s, state.2))
    | none =>
        (second.read name depth value state.2).map fun outcome =>
          outcome.map fun s => (state.1, s)
  finish absent state := do
    let a ← first.finish absent state.1
    let b ← second.finish absent state.2
    return combine a b

def map {α β : Type} (f : α → β) (fields : Fields α) : Fields β where
  State := fields.State
  start := fields.start
  names := fields.names
  read := fields.read
  finish absent state := (fields.finish absent state).map f

def apply {α β : Type} (f : Fields (α → β)) (fields : Fields α) : Fields β := both (· ·) f fields

variable {α : Type}

/-- Reads the members of an object; unknown ones are passed over. -/
def readMembers (fields : Fields α) (depth : Nat) :
    Members → fields.State → Except Fault fields.State
  | .done, state => .ok state
  | .cut fault, _ => .error fault
  | .member name value rest, state => do
      let name ← name
      match fields.read name depth value state with
      | some outcome => do
          let state ← outcome
          fields.readMembers depth rest state
      | none => do
          value.skip
          fields.readMembers depth rest state

/-- Reads the items of an array as the fields of the given names. Items may run out before the
names do; a further item is out of place. -/
def readItems (fields : Fields α) (depth : Nat) :
    List String → Items → fields.State → Except Fault fields.State
  | [], .done, state => .ok state
  | [], .cut fault, _ => .error fault
  | [], .item .., _ => .error .malformed
  | _ :: _, .done, state => .ok state
  | _ :: _, .cut fault, _ => .error fault
  | name :: names, .item head rest, state =>
      match fields.read name depth head state with
      | some outcome => do
          let state ← outcome
          fields.readItems depth names rest state
      | none => fields.readItems depth names rest state

def decode (fields : Fields α) : Decoder α := fun depth value =>
  match value with
  | .object members => do
      let state ← fields.readMembers (depth + 1) members fields.start
      fields.finish (fun name => .mismatch (.missingField name)) state
  | .array items => do
      let state ← fields.readItems (depth + 1) fields.names items fields.start
      fields.finish (fun _ => unexpected) state
  | _ => .error value.refusal

end Fields

/-! ## Tagged records -/

/-- Takes the tag out of the members of an object, and looks through the others. -/
def Members.takeTag {κ : Type} (tag : String) (decode : Decoder κ) (depth : Nat) :
    Members → Option κ → Except Fault (Option κ × Members)
  | .done, found => .ok (found, .done)
  | .cut fault, _ => .error fault
  | .member name value rest, found => do
      let name' ← name
      if name' = tag then
        match found with
        | some _ => throw (.mismatch (.repeatedField tag))
        | none =>
            let kind ← decode depth value
            rest.takeTag tag decode depth (some kind)
      else
        value.inspect depth
        let (found, others) ← rest.takeTag tag decode depth found
        return (found, .member name value others)

/-- A record whose fields depend on a tag, which may stand anywhere among the members of an
object and comes first in an array. -/
def decodeTagged {κ α : Type} (tag : String) (kind : Decoder κ) (fields : κ → Fields α) :
    Decoder α := fun depth value =>
  match value with
  | .object members => do
      let (found, others) ← members.takeTag tag kind (depth + 1) none
      match found with
      -- only now is it known which fields to read
      | some k => (fields k).decode.inContent depth (.object others)
      | none => throw (.mismatch (.missingField tag))
  | .array .done => .error (.mismatch (.missingField tag))
  | .array (.cut fault) => .error fault
  | .array (.item head rest) => do
      let k ← kind (depth + 1) head
      rest.inspect (depth + 1)
      (fields k).decode.inContent depth (.array rest)
  | _ => .error value.refusal

/-! ## Records inside records -/

def Fields.readOwn {α : Type} (fields : Fields α) (depth : Nat) :
    Members → fields.State → Except Fault (fields.State × Members)
  | .done, state => .ok (state, .done)
  | .cut fault, _ => .error fault
  | .member name value rest, state => do
      let name' ← name
      match fields.read name' depth value state with
      | some outcome => do
          let state ← outcome
          fields.readOwn depth rest state
      | none => do
          value.inspect depth
          let (state, others) ← fields.readOwn depth rest state
          return (state, .member name value others)

/-- A record that holds the fields of a second one among its own. It has to be an object. -/
def decodeJoined {α β γ : Type} (combine : α → β → γ) (own : Fields α) (inner : Fields β) :
    Decoder γ := fun depth value =>
  match value with
  | .object members => do
      let (state, others) ← own.readOwn (depth + 1) members own.start
      let a ← own.finish (fun name => .mismatch (.missingField name)) state
      let b ← inner.decode.inContent depth (.object others)
      return combine a b
  | _ => .error value.refusal

/-! ## Alternatives by name -/

/-- One of several names: a string, or an object whose only member has the name and null. -/
def decodeName {α : Type} (find? : String → Option α) : Decoder α := fun _ value =>
  let named (s : String) : Except Fault α :=
    match find? s with
    | some a => .ok a
    | none => .error unexpected
  match value with
  | .string (.ok s) => named s
  | .string (.error fault) => .error fault
  -- an object has to hold a name before it is asked which one it is
  | .object .done => .error .malformed
  | .object (.cut fault) => .error fault
  | .object (.member name value rest) => do
      let s ← name
      let a ← named s
      match value with
      | .null =>
          match rest with
          | .done => return a
          | .cut fault => throw fault
          | _ => throw .malformed
      | _ => throw value.refusal
  | .broken .scalar _ => .error .malformed
  | .broken _ mishap => .error mishap.read
  | _ => .error .malformed

/-! ## Whole texts -/

/-- Reads a text that holds one value and nothing after it but blanks. -/
def readText {α : Type} (decode : Decoder α) (text : List Char) : Except Fault α := do
  let (value, rest) := Outline.ofText text
  let a ← decode 0 value
  match rest with
  | some rest => if (skipSpace rest).isEmpty then return a else throw .malformed
  | none => throw .malformed

end StorageMarket.Json
