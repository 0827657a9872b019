import SequentCalculus.Toml.Number

/-! # TOML values

    The data that a TOML document describes: a table of named values, which may
    be tables and lists again. -/

namespace SequentCalculus.Toml

/-- A value of a TOML document.  Dates and times are kept as they are written. -/
inductive Value
  | string (s : String)
  | number (n : Numeral)
  | boolean (b : Bool)
  | datetime (literal : String)
  | array (elements : List Value)
  | table (entries : List (String × Value))
  deriving Repr

instance : Inhabited Value := ⟨.boolean false⟩

/-- The deepest nesting of lists and inline tables, and the longest dotted key,
    that a document may use. -/
def nestingLimit : Nat := 80

mutual

/-- Whether all numbers in a value can be read. -/
def Value.isReadable : Value → Bool
  | .number n => n.isReadable
  | .array vs => elementsReadable vs
  | .table es => entriesReadable es
  | _ => true

/-- Whether all numbers in the elements of a list can be read. -/
def elementsReadable : List Value → Bool
  | [] => true
  | v :: vs => v.isReadable && elementsReadable vs

/-- Whether all numbers in the entries of a table can be read. -/
def entriesReadable : List (String × Value) → Bool
  | [] => true
  | (_, v) :: es => v.isReadable && entriesReadable es

end

end SequentCalculus.Toml
