import TeenyLang.Path

set_option autoImplicit false

/-!
# Files

`FileAccess` is what the compiler asks of a file system, and `FileTree` is a file system
that is a value: directories and files below one root, and a working directory from which
relative paths start. A double dot leads out of the working directory as out of any other;
only the root is its own parent.
-/
namespace TeenyLang

inductive FileFault where
  | notFound
  | permissionDenied
  | notDirectory
  | isDirectory
  | nameTooLong
  | nullCharacter
deriving DecidableEq, Repr

/-- What stands at a place. It is `unknown` where the system refuses to look, and `unreadable`
if it is a file that may not be read. -/
inductive FileStatus where
  | missing
  | file
  | unreadable
  | directory
  | unknown
deriving DecidableEq, Repr

/-- The file operations of a monad. A place is given as a text, as to the system. -/
class FileAccess (m : Type → Type) where
  status : String → m FileStatus
  read : String → m (Except FileFault ByteArray)
  write : String → ByteArray → m (Except FileFault Unit)

def FileFault.message (path : String) : FileFault → String
  | notFound => s!"[Errno 2] No such file or directory: {Text.quoted path}"
  | permissionDenied => s!"[Errno 13] Permission denied: {Text.quoted path}"
  | notDirectory => s!"[Errno 20] Not a directory: {Text.quoted path}"
  | isDirectory => s!"[Errno 21] Is a directory: {Text.quoted path}"
  | nameTooLong => s!"[Errno 36] File name too long: {Text.quoted path}"
  | nullCharacter => "embedded null byte"

inductive FileNode where
  | file (content : ByteArray)
  | directory

instance : DecidableEq FileNode
  | .file a, .file b =>
    match ByteArray.instDecidableEq a b with
    | isTrue h => isTrue (congrArg FileNode.file h)
    | isFalse h => isFalse fun heq => h (FileNode.file.inj heq)
  | .directory, .directory => isTrue rfl
  | .file _, .directory => isFalse FileNode.noConfusion
  | .directory, .file _ => isFalse FileNode.noConfusion

structure FileTree where
  /-- The names that lead from the root to the working directory. -/
  home : List String := []
  /-- The nodes below the root, by the names that lead to them. -/
  nodes : List (List String × FileNode) := []
  /-- Where files stand that may not be read. -/
  locked : List (List String) := []

namespace FileTree

/-- The node at a sequence of names. The working directory and all above it are there. -/
def node? (tree : FileTree) (names : List String) : Option FileNode :=
  if names.isPrefixOf tree.home then some .directory else tree.nodes.lookup names

def insert (tree : FileTree) (names : List String) (node : FileNode) : FileTree :=
  if (tree.nodes.lookup names).isSome then
    { tree with
      nodes := tree.nodes.map fun entry => if entry.1 = names then (names, node) else entry }
  else
    { tree with nodes := tree.nodes ++ [(names, node)] }

/-- The length in bytes of the longest name in a directory. -/
def nameLimit : Nat := 255

/-- The length in bytes of the longest path that can be looked up. -/
def pathLimit : Nat := 4095

/-- Follows components from the directory at `names`. Every component, also an empty one, asks
for a directory to stand in. -/
def walk (tree : FileTree) (names : List String) :
    List String → Except FileFault (List String)
  | [] => .ok names
  | component :: rest =>
    match tree.node? names with
    | none => .error .notFound
    | some (.file _) => .error .notDirectory
    | some .directory =>
      if component.isEmpty || component == "." then tree.walk names rest
      else if component == ".." then tree.walk names.dropLast rest
      else if nameLimit < component.utf8ByteSize then .error .nameTooLong
      else if (tree.node? (names ++ [component])).isNone then .error .notFound
      else tree.walk (names ++ [component]) rest

/-- Where a path starts: at the root if it begins with a slash, else at the working
directory. -/
def startOf (tree : FileTree) (path : String) : List String :=
  if path.toList.head? = some '/' then [] else tree.home

def checkPath (path : String) : Except FileFault Unit :=
  if path.isEmpty then .error .notFound
  else if path.toList.contains '\x00' then .error .nullCharacter
  else if pathLimit < path.utf8ByteSize then .error .nameTooLong
  else .ok ()

def resolve (tree : FileTree) (path : String) : Except FileFault (List String) := do
  checkPath path
  tree.walk (tree.startOf path) (Path.components path)

def statusAt (tree : FileTree) (path : String) : FileStatus :=
  match tree.resolve path with
  | .error .nameTooLong => .unknown
  | .error _ => .missing
  | .ok names =>
    match tree.node? names with
    | some (.file _) => if tree.locked.contains names then .unreadable else .file
    | some .directory => .directory
    | none => .missing

def readAt (tree : FileTree) (path : String) : Except FileFault ByteArray := do
  let names ← tree.resolve path
  match tree.node? names with
  | some (.file content) =>
    if tree.locked.contains names then throw .permissionDenied else return content
  | some .directory => throw .isDirectory
  | none => throw .notFound

/-- Puts a file at `path`. Its directory must be there, and no directory in its place. -/
def writeAt (tree : FileTree) (path : String) (content : ByteArray) :
    Except FileFault FileTree := do
  checkPath path
  let components := Path.components path
  let last := components.getLast?.getD ""
  let place ← tree.walk (tree.startOf path) components.dropLast
  match tree.node? place with
  | none => throw .notFound
  | some (.file _) => throw .notDirectory
  | some .directory =>
    if ["", ".", ".."].contains last then throw .isDirectory
    if nameLimit < last.utf8ByteSize then throw .nameTooLong
    match tree.node? (place ++ [last]) with
    | some .directory => throw .isDirectory
    | _ => return tree.insert (place ++ [last]) (.file content)

instance : FileAccess (StateM FileTree) where
  status path := return (← get).statusAt path
  read path := return (← get).readAt path
  write path content := do
    match (← get).writeAt path content with
    | .ok tree => set tree; return .ok ()
    | .error fault => return .error fault

def withParents (tree : FileTree) (names : List String) : FileTree :=
  (List.range names.length).foldl (fun tree n =>
    if (tree.node? (names.take n)).isSome then tree
    else tree.insert (names.take n) .directory) tree

/-- The names at which a path of plain names below the working directory stands. -/
def namesBelowHome (tree : FileTree) (path : String) : List String :=
  tree.home ++ (Path.ofText path).names

def addDirectory (tree : FileTree) (path : String) : FileTree :=
  let names := tree.namesBelowHome path
  let tree := tree.withParents names
  if (tree.node? names).isSome then tree else tree.insert names .directory

def addFile (tree : FileTree) (path : String) (content : ByteArray) : FileTree :=
  let names := tree.namesBelowHome path
  (tree.withParents names).insert names (.file content)

/-- The files below the working directory that are new or have another content than in
`before`, with their paths from there. -/
def changedFrom (tree before : FileTree) : List (String × ByteArray) :=
  tree.nodes.filterMap fun entry =>
    match entry.2 with
    | .directory => none
    | .file content =>
      if !tree.home.isPrefixOf entry.1 || before.node? entry.1 = some (.file content) then none
      else some ("/".intercalate (entry.1.drop tree.home.length), content)

end FileTree

end TeenyLang
