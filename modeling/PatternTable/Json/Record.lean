import PatternTable.Json.Value

/-!
# Records in JSON

A record has a fixed list of named fields. It is written as an object, in which the fields may stand
in any order and other members are ignored, or as an array of the values of its first fields. A
field that is not written keeps its value.
-/

namespace PatternTable.Json

/-- A field of a record, and how its value updates the record. -/
structure Field (ρ : Type) where
  name : String
  read : ρ → Reader ρ

/-- A field with an optional value. -/
def Field.ofOptional {ρ α : Type} (name : String) (read : Reader α)
    (set : ρ → Option α → ρ) : Field ρ :=
  ⟨name, fun record cs => (optional read cs).map fun (value, rest) => (set record value, rest)⟩

/-- Reads one member of a record's object, beside the names of the fields that have been read. A
    field that occurs a second time is a mismatch. -/
def member {ρ : Type} (bound : Nat) (fields : List (Field ρ)) :
    List String × ρ → Reader (List String × ρ) :=
  fun (seen, record) cs =>
    match key cs with
    | .error fault => .error fault
    | .ok (name, rest) =>
      match fields.find? (fun field => field.name == name) with
      | none =>
        match colon rest with
        | .error fault => .error fault
        | .ok rest => (skipValue bound rest).map fun rest => ((seen, record), rest)
      | some field =>
        if seen.contains name then .error .mismatched
        else
          match colon rest with
          | .error fault => .error fault
          | .ok rest =>
            (field.read record rest).map fun (record, rest) => ((name :: seen, record), rest)

/-- Reads the values of fields in their order, up to the closing bracket of an array. -/
def valuesFrom {ρ : Type} (isFirst : Bool) : List (Field ρ) → ρ → Reader ρ
  | [], record, cs =>
    match skipSpaces cs with
    | [] => .error .truncated
    | c :: rest => if c = ']' then .ok (record, rest) else .error .malformed
  | field :: fields, record, cs =>
    match skipSpaces cs with
    | [] => .error .truncated
    | c :: rest =>
      if c = ']' then .ok (record, rest)
      else if isFirst then
        match field.read record (c :: rest) with
        | .error fault => .error fault
        | .ok (record, rest) => valuesFrom false fields record rest
      else if c = ',' then
        match skipSpaces rest with
        | [] => .error .truncated
        | d :: rest =>
          if d = ']' then .error .malformed
          else
            match field.read record (d :: rest) with
            | .error fault => .error fault
            | .ok (record, rest) => valuesFrom false fields record rest
      else .error .malformed

/-- Reads a record, from the values that its fields have when they are not written. -/
def record {ρ : Type} (bound : Nat) (fields : List (Field ρ)) (initial : ρ) : Reader ρ := fun cs =>
  match skipSpaces cs with
  | '\x7b' :: rest =>
    (entries bound '\x7d' (member bound fields) ([], initial) rest).map fun ((_, record), rest) =>
      (record, rest)
  | '[' :: rest => valuesFrom true fields initial rest
  | cs => .error (kindFault cs)

end PatternTable.Json
