import SequentCalculus.Text.Utf8

/-! # CBOR items

    The concise binary object representation: every item begins with a head
    byte whose upper three bits give its kind and whose lower five give its
    argument, or say how many bytes hold it.

    `Item.encode` writes definite lengths and the shortest arguments.
    `decode?` also reads longer arguments and indefinite lengths.  It enters at
    most `nestingLimit` lists, maps and tags within each other. -/

namespace SequentCalculus.Cbor

/-- A data item. -/
inductive Item
  | unsigned (n : Nat)
  /-- The number `-1 - n`. -/
  | negative (n : Nat)
  | bytes (bs : List UInt8)
  | text (s : String)
  | array (items : List Item)
  /-- The flag says whether the number of entries stands in the head byte. -/
  | map (inHead : Bool) (entries : List (Item × Item))
  | tagged (tag : Nat) (item : Item)
  | boolean (b : Bool)
  /-- Null or undefined. -/
  | null
  /-- A floating-point number, as its bytes. -/
  | float (bs : List UInt8)
  deriving Repr

instance : Inhabited Item := ⟨.null⟩

/-! ## Writing -/

/-- The `n` bytes of a number, the most significant first. -/
def bigEndian : (n : Nat) → Nat → List UInt8
  | 0, _ => []
  | n + 1, v => UInt8.ofNat (v / Nat.pow 256 n) :: bigEndian n (v % Nat.pow 256 n)

/-- The head of an item: its kind and the shortest form of its argument. -/
def head (kind argument : Nat) : List UInt8 :=
  let start (low : Nat) := UInt8.ofNat (32 * kind + low)
  if argument < 24 then [start argument]
  else if argument < 0x100 then start 24 :: bigEndian 1 argument
  else if argument < 0x10000 then start 25 :: bigEndian 2 argument
  else if argument < 0x100000000 then start 26 :: bigEndian 4 argument
  else start 27 :: bigEndian 8 argument

mutual

/-- The bytes of an item. -/
def Item.encode : Item → List UInt8
  | .unsigned n => head 0 n
  | .negative n => head 1 n
  | .bytes bs => head 2 bs.length ++ bs
  | .text s => head 3 s.utf8ByteSize ++ utf8Bytes s
  | .array items => head 4 items.length ++ encodeItems items
  | .map _ entries => head 5 entries.length ++ encodeEntries entries
  | .tagged tag item => head 6 tag ++ item.encode
  | .boolean false => [0xF4]
  | .boolean true => [0xF5]
  | .null => [0xF6]
  | .float bs => UInt8.ofNat (0xF8 + bs.length.log2) :: bs

/-- The bytes of several items. -/
def encodeItems : List Item → List UInt8
  | [] => []
  | i :: is => i.encode ++ encodeItems is

/-- The bytes of the entries of a map. -/
def encodeEntries : List (Item × Item) → List UInt8
  | [] => []
  | (k, v) :: es => k.encode ++ (v.encode ++ encodeEntries es)

end

/-! ## Reading -/

/-- The first `n` bytes and the rest, if there are as many. -/
def take? : (n : Nat) → List UInt8 → Option (List UInt8 × List UInt8)
  | 0, bs => some ([], bs)
  | _ + 1, [] => none
  | n + 1, b :: bs => (take? n bs).map fun (front, rest) => (b :: front, rest)

/-- The number that bytes spell, the most significant first. -/
def ofBigEndian (bs : List UInt8) : Nat := bs.foldl (fun n b => 256 * n + b.toNat) 0

/-- What the head of an item says besides its kind. -/
inductive Argument
  /-- A number, and whether it stands in the head byte. -/
  | value (inHead : Bool) (n : Nat)
  /-- The length is indefinite. -/
  | indefinite

/-- Reads the argument of a head whose lower five bits are `low`. -/
def argument? (low : Nat) (bs : List UInt8) : Option (Argument × List UInt8) :=
  let wide (n : Nat) :=
    (take? n bs).map fun (v, rest) => (Argument.value false (ofBigEndian v), rest)
  if low < 24 then some (.value true low, bs)
  else
    match low with
    | 24 => wide 1
    | 25 => wide 2
    | 26 => wide 4
    | 27 => wide 8
    | 31 => some (.indefinite, bs)
    | _ => none

/-- Reads the chunks of a string of indefinite length, all of one kind and of
    definite length; `fuel` bounds their number. -/
def chunks? (kind fuel : Nat) (bs : List UInt8) : Option (List UInt8 × List UInt8) :=
  match fuel, bs with
  | 0, _ => none
  | _, [] => none
  | fuel + 1, b :: rest =>
      if b = 0xFF then some ([], rest)
      else if b.toNat / 32 = kind then
        match argument? (b.toNat % 32) rest with
        | some (.value _ n, rest) =>
            match take? n rest with
            | some (chunk, rest) =>
                (chunks? kind fuel rest).map fun (chunks, rest) => (chunk ++ chunks, rest)
            | none => none
        | _ => none
      else none

/-- Reads the bytes of a string. -/
def string? (kind : Nat) (a : Argument) (bs : List UInt8) : Option (List UInt8 × List UInt8) :=
  match a with
  | .value _ n => take? n bs
  | .indefinite => chunks? kind (bs.length + 1) bs

section Repetition

variable {α : Type} (read : List UInt8 → Option (α × List UInt8))

/-- Reads a number of things one after the other. -/
def exactly? : Nat → List UInt8 → Option (List α × List UInt8)
  | 0, bs => some ([], bs)
  | n + 1, bs =>
      match read bs with
      | none => none
      | some (a, rest) => (exactly? n rest).map fun (as, rest) => (a :: as, rest)

/-- Reads things up to the break byte; `fuel` bounds their number. -/
def untilBreak? : (fuel : Nat) → List UInt8 → Option (List α × List UInt8)
  | 0, _ => none
  | _, [] => none
  | fuel + 1, b :: rest =>
      if b = 0xFF then some ([], rest)
      else
        match read (b :: rest) with
        | none => none
        | some (a, rest) => (untilBreak? fuel rest).map fun (as, rest) => (a :: as, rest)

/-- Reads as many things as the argument says. -/
def several? (a : Argument) (bs : List UInt8) : Option (List α × List UInt8) :=
  match a with
  | .value _ n => exactly? read n bs
  | .indefinite => untilBreak? read (bs.length + 1) bs

/-- Reads two things. -/
def pair? (bs : List UInt8) : Option ((α × α) × List UInt8) :=
  match read bs with
  | none => none
  | some (k, rest) =>
      match read rest with
      | none => none
      | some (v, rest) => some ((k, v), rest)

end Repetition

/-- Reads an item of one of the kinds without further items inside. -/
def plain? (kind low : Nat) (bs : List UInt8) : Option (Item × List UInt8) :=
  match kind with
  | 0 =>
      match argument? low bs with
      | some (.value _ n, rest) => some (.unsigned n, rest)
      | _ => none
  | 1 =>
      match argument? low bs with
      | some (.value _ n, rest) => some (.negative n, rest)
      | _ => none
  | 2 => do
      let (a, rest) ← argument? low bs
      let (s, rest) ← string? 2 a rest
      some (.bytes s, rest)
  | 3 => do
      let (a, rest) ← argument? low bs
      let (s, rest) ← string? 3 a rest
      some (.text (← utf8Text? s), rest)
  | _ =>
      match low with
      | 20 => some (.boolean false, bs)
      | 21 => some (.boolean true, bs)
      | 22 => some (.null, bs)
      | 23 => some (.null, bs)
      | 25 => (take? 2 bs).map fun (v, rest) => (.float v, rest)
      | 26 => (take? 4 bs).map fun (v, rest) => (.float v, rest)
      | 27 => (take? 8 bs).map fun (v, rest) => (.float v, rest)
      | _ => none

/-- Reads an item that may enter `room` further lists, maps and tags. -/
def item? (room : Nat) (bs : List UInt8) : Option (Item × List UInt8) :=
  match bs with
  | [] => none
  | b :: bs =>
      let kind := b.toNat / 32
      let low := b.toNat % 32
      if 4 ≤ kind ∧ kind ≤ 6 then
        match room with
        | 0 => none
        | room + 1 =>
            match kind, argument? low bs with
            | 4, some (a, rest) =>
                (several? (item? room) a rest).map fun (is, rest) => (.array is, rest)
            | 5, some (a, rest) =>
                let inHead := match a with
                  | .value inHead _ => inHead
                  | .indefinite => false
                (several? (pair? (item? room)) a rest).map fun (es, rest) => (.map inHead es, rest)
            | 6, some (.value _ tag, rest) =>
                (item? room rest).map fun (i, rest) => (.tagged tag i, rest)
            | _, _ => none
      else plain? kind low bs

/-- The most lists, maps and tags within each other. -/
def nestingLimit : Nat := 127

/-- Reads a document of exactly one item. -/
def decode? (bs : List UInt8) : Option Item :=
  match item? nestingLimit bs with
  | some (i, []) => some i
  | _ => none

end SequentCalculus.Cbor
