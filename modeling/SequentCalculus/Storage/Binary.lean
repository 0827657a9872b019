import SequentCalculus.Cbor.Schema
import SequentCalculus.Storage.Record

/-! # The binary format of proof trees

    A tree is encoded as a CBOR document of its own, which is put as a list of
    bytes into an envelope with magic bytes and a version requirement.  Reading
    checks the envelope first and the tree afterwards: every node has to be
    marked as grown exactly when it has branches, and its branches have to be
    of a shape that decomposition produces. -/

namespace SequentCalculus

open Cbor (Item)

/-- The magic bytes of an envelope: `SEQTREE` and a zero byte. -/
def storageMagic : List UInt8 := [0x53, 0x45, 0x51, 0x54, 0x52, 0x45, 0x45, 0x00]

/-- The version that writes and reads envelopes. -/
def storageVersion : Version := ⟨0, 1, 0⟩

/-! ## Writing -/

/-- A structure as a map from the names of its fields. -/
def itemOfFields (fields : List (String × Item)) : Item :=
  .map true (fields.map fun (k, v) => (.text k, v))

/-- A variant as a map from its name to its contents. -/
def itemOfVariant (name : String) (contents : Item) : Item :=
  .map true [(.text name, contents)]

/-- The name of a binary compound in the encoding. -/
def Operator.variantName : Operator → String
  | conjunction => "Conjunction"
  | disjunction => "Disjunction"
  | conditional => "Conditional"

/-- The name of a quantified formula in the encoding. -/
def Quantifier.variantName : Quantifier → String
  | universal => "Universal"
  | existential => "Existential"

def Atom.toItem (a : Atom) : Item :=
  itemOfFields [("predicate", .text a.predicate), ("terms", .array (a.terms.map .text))]

def Formula.toItem : Formula → Item
  | atom a => itemOfVariant "Atom" a.toItem
  | negation p => itemOfVariant "Negation" p.toItem
  | binary op p q => itemOfVariant op.variantName (.array [p.toItem, q.toItem])
  | quantified k x p => itemOfVariant k.variantName (.array [.text x, p.toItem])

def Sequent.toItem (s : Sequent) : Item :=
  itemOfFields
    [("antecedent", .array (s.antecedent.map Formula.toItem)),
      ("consequent", .array (s.consequent.map Formula.toItem))]

/-- A branch over children that are items already. -/
def branchItem : Branch Item → Item
  | .initial => .text "Axiom"
  | .premises items => itemOfVariant "Premises" (.array items)

def ProofTree.toItem : ProofTree → Item :=
  fold fun root branches grown =>
    itemOfFields
      [("root", root.toItem), ("branches", .array (branches.map branchItem)),
        ("grown", .boolean grown)]

/-- The bytes of an envelope around the bytes of a tree. -/
def envelope (required : Requirement) (content : List UInt8) : List UInt8 :=
  let byteList (bs : List UInt8) : Item := .array (bs.map fun b => .unsigned b.toNat)
  (itemOfFields
    [("magic", byteList storageMagic), ("version_req", .text required.text),
      ("data", byteList content)]).encode

/-- The bytes of a tree. -/
def ProofTree.encode (t : ProofTree) : List UInt8 :=
  envelope (.exactly storageVersion) t.toItem.encode

/-! ## Reading

    The functions below descend into items.  An item read from bytes is nested
    no deeper than `Cbor.nestingLimit`, and every formula and every tree inside
    another one is nested at least one level deeper, so `room` for as many
    descents is enough. -/

def Atom.ofItem? (i : Item) : Option Atom := do
  match ← i.fields? ["predicate", "terms"] with
  | [predicate, terms] => do
      let predicate ← predicate.string?
      let terms ← (← terms.array?).mapM Item.string?
      some ⟨predicate, terms⟩
  | _ => none

/-- The names of the forms of a formula in the encoding. -/
def formulaVariants : List String :=
  ["Atom", "Negation", "Conjunction", "Disjunction", "Conditional", "Universal", "Existential"]

def Formula.ofItem? : (room : Nat) → Item → Option Formula
  | 0, _ => none
  | room + 1, i => do
      let (form, contents) ← i.variant? formulaVariants
      let binary (op : Operator) : Option Formula := do
        let (p, q) ← contents.double?
        some (.binary op (← ofItem? room p) (← ofItem? room q))
      let quantified (k : Quantifier) : Option Formula := do
        let (x, p) ← contents.double?
        some (.quantified k (← x.string?) (← ofItem? room p))
      match form with
      | 0 => do some (.atom (← Atom.ofItem? (← contents.single?)))
      | 1 => do some (.negation (← ofItem? room (← contents.single?)))
      | 2 => binary .conjunction
      | 3 => binary .disjunction
      | 4 => binary .conditional
      | 5 => quantified .universal
      | 6 => quantified .existential
      | _ => none

def Sequent.ofItem? (i : Item) : Option Sequent := do
  match ← i.fields? ["antecedent", "consequent"] with
  | [antecedent, consequent] => do
      let antecedent ← (← antecedent.array?).mapM (Formula.ofItem? Cbor.nestingLimit)
      let consequent ← (← consequent.array?).mapM (Formula.ofItem? Cbor.nestingLimit)
      some ⟨antecedent, consequent⟩
  | _ => none

/-- Reads a branch, given how to read a tree. -/
def branchOfItem? (readTree : Item → Option ProofTree) (i : Item) :
    Option (Branch ProofTree) := do
  let (form, contents) ← i.variant? ["Axiom", "Premises"]
  match form with
  | 0 => if contents.isUnit then some .initial else none
  | 1 => do some (.premises (← (← (← contents.single?).array?).mapM readTree))
  | _ => none

def ProofTree.ofItem? : (room : Nat) → Item → Option ProofTree
  | 0, _ => none
  | room + 1, i => do
      match ← i.fields? ["root", "branches", "grown"] with
      | [root, branches, grown] => do
          let root ← Sequent.ofItem? root
          let branches ← (← branches.array?).mapM (branchOfItem? (ofItem? room))
          some (.node root branches (← grown.boolean?))
      | _ => none

/-- What an envelope holds. -/
structure Envelope where
  magic : List UInt8
  required : Requirement
  content : List UInt8
  deriving DecidableEq, Repr

def Envelope.ofBytes? (bs : List UInt8) : Option Envelope := do
  match ← (← Cbor.decode? bs).fields? ["magic", "version_req", "data"] with
  | [magic, required, content] => do
      let magic ← (← magic.array?).mapM Item.byte?
      let required ← Requirement.parse? (← required.text?)
      let content ← (← content.array?).mapM Item.byte?
      if magic.length = storageMagic.length then some ⟨magic, required, content⟩ else none
  | _ => none

/-- The tree in the bytes of an envelope's content. -/
def ProofTree.ofContent? (bs : List UInt8) : Option ProofTree := do
  ProofTree.ofItem? Cbor.nestingLimit (← Cbor.decode? bs)

/-- The first failure among several checks. -/
def firstFailure : List (Except Error Unit) → Except Error Unit
  | [] => .ok ()
  | .ok _ :: rest => firstFailure rest
  | .error e :: _ => .error e

/-- Checks the mark and the shape of a node, then takes what was found below. -/
def checkNode (root : Sequent) (branches : List (Branch (Except Error Unit))) (grown : Bool) :
    Except Error Unit :=
  if grown == branches.isEmpty then .error (.decode (.growthMarker root))
  else
    match checkShape root (branches.map fun b => b.children.length) with
    | .error e => .error e
    | .ok _ => firstFailure (branches.flatMap Branch.children)

/-- Checks the marks and shapes of a tree, each node before what is below it. -/
def ProofTree.check : ProofTree → Except Error Unit := fold checkNode

/-- Reads the bytes of a tree. -/
def ProofTree.decode (bs : List UInt8) : Except Error ProofTree :=
  match Envelope.ofBytes? bs with
  | none => .error (.decode .envelope)
  | some e =>
      if e.magic ≠ storageMagic then .error (.decode .magic)
      else if !e.required.admits storageVersion then
        .error (.incompatible e.required storageVersion)
      else
        match ProofTree.ofContent? e.content with
        | none => .error (.decode .content)
        | some t =>
            match t.check with
            | .error e => .error e
            | .ok _ => .ok t

end SequentCalculus
