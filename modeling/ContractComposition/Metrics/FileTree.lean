/-!
# File trees

A model of the files that a command can see: folders and plain files below a root, which is the
working directory and, since nothing lies above it, its own parent. An entry of the tree has a
place, the names on the way to it from the root; `FileTree.entryAt?` is the view through which the
tree is read, and `FileTree.entryAt?_put` says that what was put at a place is found there.

A path is a text in which `/` separates the parts; the parts that are empty or `.` lead nowhere, and
`..` leads to the parent. Names and paths must not be too long.
-/

namespace ContractComposition

namespace Path

/-- The parts of a path, as they are written. -/
def parts (path : String) : List String :=
  path.splitOn "/"

/-- Whether a part of a path names an entry of a folder, rather than a folder already passed. -/
def isEntryName (part : String) : Bool :=
  !(part == "" || part == "." || part == "..")

/-- The greatest number of bytes in the name of an entry. -/
def nameLimit : Nat := 255

/-- The greatest number of bytes in a path. -/
def lengthLimit : Nat := 4095

/-- Whether a path is short enough to be followed at all. -/
def isUsable (path : String) : Bool :=
  decide (path.utf8ByteSize ≤ lengthLimit)

/-- Whether an entry of this name can be created. -/
def isUsableName (part : String) : Bool :=
  isEntryName part && decide (part.utf8ByteSize ≤ nameLimit)

/-- The parts of the path to the folder that a path's last entry is in; parts that lead nowhere are
left out. -/
def parentParts (path : String) : List String :=
  ((parts path).filter fun part => !(part == "" || part == ".")).dropLast

/-- The path to the folder that a path's last entry is in, unless that is where the path begins. -/
def parent? (path : String) : Option String :=
  match parentParts path with
  | [] => none
  | parts => some ((if path.startsWith "/" then "/" else "") ++ "/".intercalate parts)

end Path

/-- A plain file, or a folder with the entries that it has under their names. -/
inductive FileTree where
  /-- A plain file and what it contains. -/
  | file (content : String)
  /-- A folder. -/
  | folder (entries : List (String × FileTree))

namespace FileTree

/-- An empty folder. -/
instance : Inhabited FileTree :=
  ⟨.folder []⟩

/-- The entry that a folder has under a name; a plain file has none. -/
def child? (name : String) : FileTree → Option FileTree
  | .file _ => none
  | .folder entries => (entries.find? fun entry => entry.1 == name).map (·.2)

/-- Gives a folder an entry under a name, in place of an earlier one. A plain file gives way to a
folder with that entry alone. -/
def setChild (tree : FileTree) (name : String) (child : FileTree) : FileTree :=
  match tree with
  | .file _ => .folder [(name, child)]
  | .folder entries => .folder ((name, child) :: entries.filter fun entry => entry.1 != name)

@[simp]
theorem child?_setChild_self (tree : FileTree) (name : String) (child : FileTree) :
    (tree.setChild name child).child? name = some child := by
  cases tree <;> simp [setChild, child?]

/-- The entry at a place. -/
def entryAt? (tree : FileTree) : List String → Option FileTree
  | [] => some tree
  | name :: place => (tree.child? name).bind fun child => child.entryAt? place

/-- Puts an entry at a place, in folders that are created where they are missing. -/
def put (tree : FileTree) (place : List String) (entry : FileTree) : FileTree :=
  match place with
  | [] => entry
  | name :: place => tree.setChild name (put ((tree.child? name).getD default) place entry)

/-- What was put at a place is found there. -/
theorem entryAt?_put (tree : FileTree) (place : List String) (entry : FileTree) :
    (tree.put place entry).entryAt? place = some entry := by
  induction place generalizing tree with
  | nil => rfl
  | cons name place ih => simp [put, entryAt?, ih]

/-- Whether there is a folder at a place. -/
def isFolder (tree : FileTree) (place : List String) : Bool :=
  match tree.entryAt? place with
  | some (.folder _) => true
  | _ => false

/-- What the file at a place contains, if there is one. -/
def content? (tree : FileTree) (place : List String) : Option String :=
  match tree.entryAt? place with
  | some (.file content) => some content
  | _ => none

/-- Follows the parts of a path from a folder, as long as they lead to folders. -/
def walk? (tree : FileTree) (place : List String) : List String → Option (List String)
  | [] => some place
  | part :: parts =>
    if part == ".." then tree.walk? place.dropLast parts
    else if Path.isEntryName part then
      if tree.isFolder (place ++ [part]) then tree.walk? (place ++ [part]) parts else none
    else tree.walk? place parts

/-- Follows the parts of a path from a folder and creates the folders that are missing; `none` if a
plain file is in the way, or if a missing folder cannot have its name. -/
def makeFoldersFrom? (tree : FileTree) (place : List String) : List String → Option FileTree
  | [] => some tree
  | part :: parts =>
    if part == ".." then tree.makeFoldersFrom? place.dropLast parts
    else if Path.isEntryName part then
      let next := place ++ [part]
      match tree.entryAt? next with
      | some (.folder _) => tree.makeFoldersFrom? next parts
      | some (.file _) => none
      | none =>
        if Path.isUsableName part then (tree.put next (.folder [])).makeFoldersFrom? next parts
        else none
    else tree.makeFoldersFrom? place parts

/-- Creates the folder that a path leads to, and the folders that are missing on the way to it;
`none` for a path that is too long, or if one of them cannot be created. -/
def makeFolders? (tree : FileTree) (path : String) : Option FileTree :=
  if Path.isUsable path then tree.makeFoldersFrom? [] (Path.parts path) else none

/-- The place of the file that a path names: its folder must be there, and the last part must be the
name of an entry that is not a folder. -/
def filePlace? (tree : FileTree) (path : String) : Option (List String) :=
  if Path.isUsable path then do
    let parts := Path.parts path
    let name ← parts.getLast?
    let folder ← tree.walk? [] parts.dropLast
    let place := folder ++ [name]
    if Path.isUsableName name && !tree.isFolder place then some place else none
  else none

/-- Writes a file, over an earlier one. -/
def write? (tree : FileTree) (path content : String) : Option FileTree := do
  let place ← tree.filePlace? path
  return tree.put place (.file content)

/-- Reads a file. -/
def read? (tree : FileTree) (path : String) : Option String := do
  tree.content? (← tree.filePlace? path)

end FileTree

end ContractComposition
