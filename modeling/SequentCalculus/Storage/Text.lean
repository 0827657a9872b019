import SequentCalculus.Storage.Record
import SequentCalculus.Toml.Document

/-! # The text format of proof trees

    A tree is written as a TOML document: the key `sequent` holds the sequent
    of the root, the list of tables `branches` its branches, and in each branch
    the list of tables `premises` the trees of its premises.  Empty lists are
    left out.  Reading ignores other keys, though their numbers have to be
    readable, and takes a list in place of a table as the values of its keys in
    order.  It does not look at further values of such a list. -/

namespace SequentCalculus

/-! ## Writing -/

mutual

/-- The lines of a record whose tables stand below `path`. -/
def TreeRecord.lines (path : String) : TreeRecord → String
  | .node sequent branches =>
      "sequent = " ++ Toml.quote sequent ++ "\n" ++ branchLines (path ++ "branches") branches

/-- The lines of branches whose tables have the header `header`. -/
def branchLines (header : String) : List (List TreeRecord) → String
  | [] => ""
  | b :: bs =>
      "\n[[" ++ header ++ "]]\n" ++ premiseLines (header ++ ".premises") b ++
        branchLines header bs

/-- The lines of premises whose tables have the header `header`. -/
def premiseLines (header : String) : List TreeRecord → String
  | [] => ""
  | r :: rs =>
      "\n[[" ++ header ++ "]]\n" ++ r.lines (header ++ ".") ++ premiseLines header rs

end

/-- The text of a record. -/
def TreeRecord.toText (r : TreeRecord) : String := r.lines ""

/-! ## Reading -/

/-- Whether the numbers at other keys than the given ones can be read. -/
def othersReadable (keys : List String) (es : List (String × Toml.Value)) : Bool :=
  es.all fun (k, v) => keys.contains k || v.isReadable

mutual

/-- The record that a value describes. -/
def recordOf? : Toml.Value → Option TreeRecord
  | .table es => do
      let sequent ← sequentIn? es
      let branches ← branchesIn? es
      if othersReadable ["sequent", "branches"] es then some (.node sequent branches) else none
  | .array (.string sequent :: vs) => do
      let branches ← firstBranches? vs
      some (.node sequent branches)
  | _ => none

/-- The text at the key `sequent`, which has to be there. -/
def sequentIn? : List (String × Toml.Value) → Option String
  | [] => none
  | (k, v) :: es =>
      if k = "sequent" then
        match v with
        | .string s => some s
        | _ => none
      else sequentIn? es

/-- The branches at the key `branches`; none if it is missing. -/
def branchesIn? : List (String × Toml.Value) → Option (List (List TreeRecord))
  | [] => some []
  | (k, v) :: es =>
      if k = "branches" then
        match v with
        | .array vs => branchesOf? vs
        | _ => none
      else branchesIn? es

/-- The branches in the first value of a list; none if it is empty. -/
def firstBranches? : List Toml.Value → Option (List (List TreeRecord))
  | [] => some []
  | .array vs :: _ => branchesOf? vs
  | _ :: _ => none

/-- The branches that values describe. -/
def branchesOf? : List Toml.Value → Option (List (List TreeRecord))
  | [] => some []
  | v :: vs => do
      let b ← branchOf? v
      let bs ← branchesOf? vs
      some (b :: bs)

/-- The premises that a value describes.  A date has none of the keys. -/
def branchOf? : Toml.Value → Option (List TreeRecord)
  | .table es => if othersReadable ["premises"] es then premisesIn? es else none
  | .array vs => firstPremises? vs
  | .datetime _ => some []
  | _ => none

/-- The premises at the key `premises`; none if it is missing. -/
def premisesIn? : List (String × Toml.Value) → Option (List TreeRecord)
  | [] => some []
  | (k, v) :: es =>
      if k = "premises" then
        match v with
        | .array vs => recordsOf? vs
        | _ => none
      else premisesIn? es

/-- The premises in the first value of a list; none if it is empty. -/
def firstPremises? : List Toml.Value → Option (List TreeRecord)
  | [] => some []
  | .array vs :: _ => recordsOf? vs
  | _ :: _ => none

/-- The records that values describe. -/
def recordsOf? : List Toml.Value → Option (List TreeRecord)
  | [] => some []
  | v :: vs => do
      let r ← recordOf? v
      let rs ← recordsOf? vs
      some (r :: rs)

end

/-- Reads the text of a record. -/
def TreeRecord.ofText? (text : String) : Option TreeRecord :=
  match Toml.parse? text with
  | some es => recordOf? (.table es)
  | none => none

namespace ProofTree

/-- The text of a tree. -/
def toText (t : ProofTree) : String := t.toRecord.toText

/-- Reads the text of a tree. -/
def ofText (text : String) : Except Error ProofTree :=
  match TreeRecord.ofText? text with
  | some r => r.toTree
  | none => .error (.decode .text)

end ProofTree

end SequentCalculus
