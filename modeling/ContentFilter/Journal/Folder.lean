import ContentFilter.Journal

/-!
Where the path of a journal leads. A tree of named nodes stands for the files around the filter;
opening a path for appending follows it component by component and either finds or makes a file,
or says why it cannot. Only the last component may be missing.
-/

namespace ContentFilter

/-- Why a path cannot be opened for appending. -/
inductive Obstacle where
  | missing
  | notFolder
  | isFolder
  | nameTooLong
  | holdsNul
  deriving DecidableEq, Repr

def Obstacle.message : Obstacle → String
  | .missing => "No such file or directory (os error 2)"
  | .notFolder => "Not a directory (os error 20)"
  | .isFolder => "Is a directory (os error 21)"
  | .nameTooLong => "File name too long (os error 36)"
  | .holdsNul => "file name contained an unexpected NUL byte"

inductive Node where
  | folder
  | file (contents : Bytes)
  /-- Something that takes bytes and keeps none of them to be read. -/
  | device (outlet : Outlet)
  deriving DecidableEq, Repr

/-- A place is named by the components from the root down. -/
abbrev Place := List Bytes

structure Tree where
  /-- Where paths that do not start at the root begin. -/
  here : Place
  nodes : List (Place × Node)
  deriving DecidableEq, Repr

namespace Tree

def slash : UInt8 := 47

def maxName : Nat := 255
def maxPath : Nat := 4095

/-- Devices that accept all or refuse every byte, and an empty folder to work in. -/
def bare : Tree :=
  let dev := Text.bytes "dev"
  let tmp := Text.bytes "tmp"
  let work := Text.bytes "work"
  { here := [tmp, work]
    nodes := [([], .folder), ([tmp], .folder), ([tmp, work], .folder), ([dev], .folder),
      ([dev, Text.bytes "full"],
        .device { room := some 0, refusal := "No space left on device (os error 28)" }),
      ([dev, Text.bytes "null"], .device {}), ([dev, Text.bytes "zero"], .device {})] }

def find? (tree : Tree) (place : Place) : Option Node := tree.nodes.lookup place

def put (tree : Tree) (place : Place) (node : Node) : Tree :=
  { tree with nodes := (place, node) :: tree.nodes.filter fun entry => entry.1 != place }

/-- The names between the slashes of a path, empty ones included. -/
def split : Bytes → List Bytes
  | [] => [[]]
  | byte :: rest =>
      if byte = slash then [] :: split rest
      else match split rest with
        | [] => [[byte]]
        | first :: others => (byte :: first) :: others

/-- The components of a path. Slashes in a row count as one. -/
def components (path : Bytes) : List Bytes := (split path).filter (· ≠ [])

def isUp (name : Bytes) : Bool := name == Text.bytes ".."

def isSame (name : Bytes) : Bool := name == Text.bytes "."

/-- Whether a path can only lead to a folder, by its last component: that is a dot or two, has a
slash behind it, or is missing. -/
def endsInFolder (path : Bytes) : Bool :=
  path.getLast? == some slash || (components path).getLast?.all fun name => isSame name || isUp name

/-- Goes into the folders `names`, one after the other. -/
def enter (tree : Tree) (place : Place) : List Bytes → Except Obstacle Place
  | [] => .ok place
  | name :: rest =>
      if isSame name then enter tree place rest
      else if isUp name then enter tree place.dropLast rest
      else if maxName < name.length then .error .nameTooLong
      else match tree.find? (place ++ [name]) with
        | some .folder => enter tree (place ++ [name]) rest
        | some _ => .error .notFolder
        | none => .error .missing

/-- The place of a path that can be opened for appending, and what will accept the bytes. A path
that ends in a folder is refused as one even if nothing is there. -/
def openAppend (tree : Tree) (path : Bytes) : Except Obstacle (Place × Outlet) :=
  if 0 ∈ path then .error .holdsNul
  else if maxPath < path.length then .error .nameTooLong
  else
    let names := components path
    let name := names.getLast?.getD []
    let start := if path.head? = some slash then [] else tree.here
    match tree.enter start names.dropLast with
    | .error obstacle => .error obstacle
    | .ok folder =>
        if endsInFolder path then .error .isFolder
        else if maxName < name.length then .error .nameTooLong
        else
          let place := folder ++ [name]
          match tree.find? place with
          | some .folder => .error .isFolder
          | some (.file contents) => .ok (place, { accepted := contents.toArray })
          | some (.device outlet) => .ok (place, outlet)
          | none => .ok (place, {})

/-- The tree after bytes have been accepted at a place; a device keeps none. -/
def store (tree : Tree) (place : Place) (outlet : Outlet) : Tree :=
  match tree.find? place with
  | some (.device _) => tree
  | _ => tree.put place (.file outlet.contents)

/-- What the file at `path` holds, if it is one. -/
def contents? (tree : Tree) (path : Bytes) : Option Bytes :=
  match tree.openAppend path with
  | .ok (place, _) =>
      match tree.find? place with
      | some (.file contents) => some contents
      | _ => none
  | .error _ => none

end Tree

namespace Journal

/-- Opens the journal at `path`, with the place its file has in the tree. -/
def openAt (tree : Tree) (path : Bytes) : Except Failure (Place × Journal) :=
  let shown := Text.display path
  match tree.openAppend path with
  | .ok (place, file) => .ok (place, { path := shown, file })
  | .error obstacle => .error (.journal shown obstacle.message)

end Journal

end ContentFilter
