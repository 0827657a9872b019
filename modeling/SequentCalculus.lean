import SequentCalculus.Formula.Substitution
import SequentCalculus.Formula.Order
import SequentCalculus.Sequent.Partition
import SequentCalculus.Sequent.Order
import SequentCalculus.Sequent.Display
import SequentCalculus.Grammar.Reading
import SequentCalculus.Decomposition
import SequentCalculus.ProofTree.Queries
import SequentCalculus.ProofTree.Split
import SequentCalculus.ProofTree.Growth
import SequentCalculus.ProofTree.Outline
import SequentCalculus.Toml.Quoted
import SequentCalculus.Toml.Number
import SequentCalculus.Toml.Value
import SequentCalculus.Toml.Document
import SequentCalculus.Storage.Text
import SequentCalculus.Cbor.Schema
import SequentCalculus.Storage.Binary
import SequentCalculus.File.Disk
import SequentCalculus.Batch
import SequentCalculus.Storage.File
import SequentCalculus.Rule.File
import SequentCalculus.Command.Run
import SequentCalculus.Main
import SequentCalculus.Proofs.Substitution
import SequentCalculus.Proofs.Nameless
import SequentCalculus.Proofs.Binders
import SequentCalculus.Proofs.Decomposition
import SequentCalculus.Proofs.Growth
import SequentCalculus.Proofs.Shape
import SequentCalculus.Proofs.Semantics
import SequentCalculus.Proofs.Witness
import SequentCalculus.Proofs.Soundness
import SequentCalculus.Proofs.Decision
import SequentCalculus.Proofs.Lexing
import SequentCalculus.Proofs.Quoting
import SequentCalculus.Proofs.Document
import SequentCalculus.Proofs.Reading
import SequentCalculus.Proofs.Grammar
import SequentCalculus.Proofs.Roundtrip
import SequentCalculus.Proofs.Records
import SequentCalculus.Proofs.Text
import SequentCalculus.Proofs.Naming
import SequentCalculus.Proofs.Binary
import SequentCalculus.Proofs.Derivations
import SequentCalculus.Proofs.Conservation
import SequentCalculus.Proofs.Paths
import SequentCalculus.Proofs.Renaming
import SequentCalculus.Proofs.Failure
import SequentCalculus.Proofs.Storage
import SequentCalculus.Proofs.Scheduling
import SequentCalculus.Proofs.Subformula
import SequentCalculus.Proofs.Runs
import SequentCalculus.Proofs.SupplyOrder
import SequentCalculus.Proofs.Choices
import SequentCalculus.Proofs.Rules
import SequentCalculus.Proofs.Partitions
import SequentCalculus.Proofs.DeadEnds
import SequentCalculus.Proofs.Numbering
import SequentCalculus.Proofs.Colours
import SequentCalculus.Proofs.Outlines
import SequentCalculus.Proofs.Segmentation
import SequentCalculus.Proofs.Ordering
import SequentCalculus.Proofs.Saving
import SequentCalculus.Proofs.Showing
