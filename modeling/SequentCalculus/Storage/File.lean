import SequentCalculus.File.Disk
import SequentCalculus.Log.Event
import SequentCalculus.Storage.Binary
import SequentCalculus.Storage.Text

/-! # Trees in files

    The name of a file decides the format of the tree in it.  Reading works on
    what stands at a path, so it is the same for any source of files. -/

namespace SequentCalculus

/-- What a failure to read a stored tree reports besides the failure itself. -/
def Error.storageEvents : Error → List Event
  | .decode .text => []
  | .decode .envelope => [.envelopeMalformed]
  | .decode .magic => [.magicWrong]
  | .decode .content => [.contentMalformed]
  | .decode (.growthMarker root) => [.markerInconsistent root]
  | .decode (.branchShape root counts) => [.branchesMalformed root counts]
  | .incompatible required found => [.incompatible required found]
  | _ => []

/-- The events that come with a result of reading. -/
def resultEvents {α : Type} : Except Error α → List Event
  | .ok _ => []
  | .error e => e.storageEvents

namespace ProofTree

/-- The content of the file that stores a tree. -/
def stored (t : ProofTree) (p : Path) : List UInt8 :=
  match StorageFormat.ofPath p with
  | .text => utf8Bytes t.toText
  | .binary => t.encode

/-- The tree stored at a path. -/
def load (p : Path) (e : Entry) : Except Error ProofTree :=
  match StorageFormat.ofPath p with
  | .text =>
      match e.text with
      | .error e => .error e
      | .ok s => ofText s
  | .binary =>
      match e.bytes with
      | .error e => .error e
      | .ok bs => decode bs

/-- The events of encoding a tree. -/
def encodeEvents : List Event := [.encoding (.exactly storageVersion)]

/-- The events of decoding bytes. -/
def decodeEvents (bs : List UInt8) : List Event :=
  .decoding bs.length :: resultEvents (decode bs)

/-- The events of producing the content of a file. -/
def storedEvents (p : Path) : List Event :=
  match StorageFormat.ofPath p with
  | .text => []
  | .binary => encodeEvents

/-- The events of loading a tree. -/
def loadEvents (p : Path) (e : Entry) : List Event :=
  .loading p ::
    match StorageFormat.ofPath p, e with
    | .text, _ => resultEvents (load p e)
    | .binary, .file bs => decodeEvents bs
    | .binary, _ => []

end ProofTree

end SequentCalculus
