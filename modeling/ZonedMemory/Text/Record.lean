namespace ZonedMemory.Text

/-!
The text of a record and of a tagged value, as diagnostics print them.
-/

/-- A named record with its fields in order: name, opening brace, `field: text` items between
commas, closing brace. -/
def record (name : String) (fields : List (String × String)) : String :=
  name ++ " \x7b " ++ String.intercalate ", " (fields.map fun field => field.1 ++ ": " ++ field.2) ++
    " \x7d"

/-- A named wrapper around one text: `Name(text)`. -/
def tagged (name content : String) : String :=
  name ++ "(" ++ content ++ ")"

/-- The decimal text of a number, padded on the left with blanks to at least `width` places. -/
def padded (width value : Nat) : String :=
  let digits := toString value
  String.ofList (List.replicate (width - digits.length) ' ') ++ digits

end ZonedMemory.Text
