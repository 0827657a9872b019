import SequentCalculus.Cbor.Item

/-! # Reading typed data from CBOR items

    Two conventions for structured data.  A structure is a map from the names
    or positions of its fields, or a list of all fields in order; unknown names
    and positions are ignored.  A variant is its name or position alone, a map
    with that single key, or a list that begins with it.

    Tags in front of a value say nothing here and are dropped. -/

namespace SequentCalculus.Cbor

/-- The item behind all tags. -/
def Item.untagged : Item → Item
  | .tagged _ i => i.untagged
  | i => i

/-- A string, given as text or as UTF-8 bytes. -/
def Item.string? (i : Item) : Option String :=
  match i.untagged with
  | .text s => some s
  | .bytes bs => utf8Text? bs
  | _ => none

/-- A string given as text. -/
def Item.text? (i : Item) : Option String :=
  match i.untagged with
  | .text s => some s
  | _ => none

def Item.boolean? (i : Item) : Option Bool :=
  match i.untagged with
  | .boolean b => some b
  | _ => none

/-- A number that fits a byte. -/
def Item.byte? (i : Item) : Option UInt8 :=
  match i.untagged with
  | .unsigned n => if n < 256 then some (UInt8.ofNat n) else none
  | _ => none

def Item.array? (i : Item) : Option (List Item) :=
  match i.untagged with
  | .array is => some is
  | _ => none

/-- What a name or position refers to in a list of names. -/
inductive Reference
  | index (i : Nat)
  /-- A name or position that is not in the list. -/
  | unknown
  deriving DecidableEq, Repr

/-- Reads a name, as text or bytes, or a position. -/
def Item.reference? (names : List String) (i : Item) : Option Reference :=
  let named (bs : List UInt8) : Reference :=
    match names.findIdx? fun n => utf8Bytes n == bs with
    | some k => .index k
    | none => .unknown
  match i.untagged with
  | .unsigned n => some (if n < names.length then .index n else .unknown)
  | .text s => some (named (utf8Bytes s))
  | .bytes bs => some (named bs)
  | _ => none

/-- The values of the fields at each position, from the entries of a map.  No
    field may be given twice. -/
def collectFields (names : List String) :
    List (Item × Item) → (found : List (Option Item)) → Option (List (Option Item))
  | [], found => some found
  | (k, v) :: es, found =>
      match k.reference? names with
      | none => none
      | some .unknown => collectFields names es found
      | some (.index i) =>
          match found[i]? with
          | some none => collectFields names es (found.set i (some v))
          | _ => none

/-- The values of all fields of a structure, in the order of their names. -/
def Item.fields? (names : List String) (i : Item) : Option (List Item) :=
  match i.untagged with
  | .array is => if is.length = names.length then some is else none
  | .map _ es => do
      let found ← collectFields names es (names.map fun _ => none)
      found.mapM id
  | _ => none

/-- How the contents of a variant are given. -/
inductive Contents
  /-- The variant stands alone. -/
  | nothing
  /-- The contents are the value of a map entry. -/
  | entry (i : Item)
  /-- The contents follow the variant in a list. -/
  | inline (is : List Item)

/-- Reads a variant by its name or position, with its contents. -/
def Item.variant? (names : List String) (i : Item) : Option (Nat × Contents) := do
  let (key, contents) ←
    match i with
    | .array (k :: is) => some (k, Contents.inline is)
    | .array [] => none
    | .map true [(k, v)] => some (k, .entry v)
    | _ => some (i, .nothing)
  match key.reference? names with
  | some (.index n) => some (n, contents)
  | _ => none

def Item.isNull (i : Item) : Bool :=
  match i.untagged with
  | .null => true
  | _ => false

/-- Whether the contents are those of a variant without data, which are null
    unless the variant stands alone. -/
def Contents.isUnit : Contents → Bool
  | nothing => true
  | entry i => i.isNull
  | inline [i] => i.isNull
  | inline _ => false

/-- The contents of a variant with one value. -/
def Contents.single? : Contents → Option Item
  | entry i => some i
  | inline [i] => some i
  | _ => none

/-- The contents of a variant with two values. -/
def Contents.double? : Contents → Option (Item × Item)
  | entry i =>
      match i.array? with
      | some [a, b] => some (a, b)
      | _ => none
  | inline [a, b] => some (a, b)
  | _ => none

end SequentCalculus.Cbor
