import NestedRegex.Command.Run

namespace NestedRegex.Command

/-- Special files. -/
inductive Device where
  /-- It is empty and keeps nothing that is written to it. -/
  | null
  /-- It has no room for anything. -/
  | full
  | input
  | output
  | errors
  deriving DecidableEq

/-- What a location in a file tree holds. -/
inductive Entry where
  | folder
  | file (content : ByteArray)
  | device (device : Device)

/-- A location in a file tree: the names that lead there from the top, innermost first. -/
abbrev Location := List String

/-- Files and folders by their locations, the folder that paths start from, and the texts of the
standard streams. The top is a folder and has no entry. -/
structure FileTree where
  entries : List (Location × Entry)
  here : Location
  input : String
  output : String
  errors : String

namespace FileTree

/-- The longest name, in bytes. -/
def maxNameLength : Nat :=
  255

/-- The longest path, in bytes. -/
def maxPathLength : Nat :=
  4095

def get? (t : FileTree) : Location → Option Entry
  | [] => some .folder
  | location => t.entries.lookup location

/-- The tree with this entry at a location, new or not. -/
def put (t : FileTree) (location : Location) (entry : Entry) : FileTree :=
  { t with entries := (location, entry) :: t.entries.filter (·.1 ≠ location) }

/-- The tree with a folder at a location and folders above it, where nothing was. -/
def putFolders (t : FileTree) : Location → FileTree
  | [] => t
  | name :: above =>
    if (t.get? (name :: above)).isSome then t
    else (t.putFolders above).put (name :: above) .folder

/-- The names between the slashes of a path. -/
def parts (path : String) : List String :=
  (path.splitOn "/").filter (· ≠ "")

/-- The tree with a file at a path from the working folder, and with the folders that it needs. -/
def putFile (t : FileTree) (path : String) (content : ByteArray) : FileTree :=
  let location := (parts path).reverse ++ t.here
  (t.putFolders location.tail).put location (.file content)

/-- The folders that every system has. -/
def systemFolders : List Location :=
  [["bin"], ["boot"], ["dev"], ["fd", "dev"], ["etc"], ["home"], ["lib"], ["media"], ["mnt"],
    ["opt"], ["proc"], ["self", "proc"], ["fd", "self", "proc"], ["root"], ["run"], ["sbin"],
    ["srv"], ["sys"], ["tmp"], ["usr"], ["bin", "usr"], ["lib", "usr"], ["local", "usr"], ["var"],
    ["log", "var"], ["tmp", "var"]]

/-- The devices that every system has. The streams go by name and by number. -/
def systemDevices : List (Location × Device) :=
  [(["null", "dev"], .null), (["full", "dev"], .full), (["stdin", "dev"], .input),
    (["stdout", "dev"], .output), (["stderr", "dev"], .errors), (["0", "fd", "dev"], .input),
    (["1", "fd", "dev"], .output), (["2", "fd", "dev"], .errors),
    (["0", "fd", "self", "proc"], .input), (["1", "fd", "self", "proc"], .output),
    (["2", "fd", "self", "proc"], .errors)]

/-- A working folder with these files on a system that has little else. -/
def ofFiles (input : String) (files : List (String × ByteArray)) : FileTree :=
  let system := systemFolders.map (·, Entry.folder) ++
    systemDevices.map fun (location, device) => (location, .device device)
  let here := ["work", "tmp"]
  files.foldl (fun t (path, content) => t.putFile path content)
    ⟨(here, .folder) :: system, here, input, "", ""⟩

/-- The location of a name in a folder. The top is the folder above itself. -/
def stepInto (folder : Location) (name : String) : Except FileError Location :=
  if name = "." then .ok folder
  else if name = ".." then .ok folder.tail
  else if maxNameLength < name.utf8ByteSize then .error .nameTooLong
  else .ok (name :: folder)

/-- The folder that names lead to from another one. -/
def enter (t : FileTree) (folder : Location) : List String → Except FileError Location
  | [] => .ok folder
  | name :: names => do
    let location ← stepInto folder name
    match t.get? location with
    | some .folder => t.enter location names
    | some _ => throw .notDirectory
    | none => throw .notFound

/-- What a path leads to. -/
inductive Target where
  /-- The path is the top or ends in dots, so it leads to a folder. -/
  | folder
  /-- A name in a folder, which need not be there; `asFolder` if a slash follows it. -/
  | named (folder : Location) (name : String) (asFolder : Bool)

/-- Follow a path up to its last name. -/
def locate (t : FileTree) (path : String) : Except FileError Target := do
  if maxPathLength < path.utf8ByteSize then
    throw .nameTooLong
  let fromTop := path.startsWith "/"
  match (parts path).getLast? with
  | none => if fromTop then return .folder else throw .notFound
  | some last =>
    let folder ← t.enter (if fromTop then [] else t.here) (parts path).dropLast
    if last = "." ∨ last = ".." then return .folder
    else return .named folder last (path.endsWith "/")

/-- The content of a device. -/
def readDevice (t : FileTree) : Device → ByteArray
  | .input => t.input.toUTF8
  | .null | .full | .output | .errors => ByteArray.empty

/-- Read the file at a path. A slash behind its name asks for a folder. -/
def read (t : FileTree) (path : String) : Except FileError ByteArray := do
  match ← t.locate path with
  | .folder => throw .isDirectory
  | .named folder name asFolder =>
    match t.get? (← stepInto folder name) with
    | none => throw .notFound
    | some .folder => throw .isDirectory
    | some (.file content) => if asFolder then throw .notDirectory else return content
    | some (.device d) => if asFolder then throw .notDirectory else return t.readDevice d

/-- Write to a device. -/
def writeDevice (t : FileTree) (text : String) : Device → Except FileError FileTree
  | .null | .input => .ok t
  | .full => .error .noSpace
  | .output => .ok { t with output := t.output ++ text }
  | .errors => .ok { t with errors := t.errors ++ text }

/-- Write the file at a path, new or not. A slash behind a name is refused before anything else
about that name. -/
def write (t : FileTree) (path text : String) : Except FileError FileTree := do
  match ← t.locate path with
  | .folder | .named _ _ true => throw .isDirectory
  | .named folder name false =>
    let location ← stepInto folder name
    match t.get? location with
    | some .folder => throw .isDirectory
    | some (.device d) => t.writeDevice text d
    | some (.file _) | none => return t.put location (.file text.toUTF8)

/-- A file tree as the surroundings of the command. -/
def host : Host (StateM FileTree) where
  readInput := return .ok (← get).input
  readFile path := return (← get).read path >>= decode
  writeFile path text := do
    match (← get).write path text with
    | .ok t =>
      set t
      return .ok ()
    | .error e => return .error e

/-- Run the command on a file tree. What it wrote to the streams as files precedes its own words. -/
def run (t : FileTree) (arguments : List String) : Reply × FileTree :=
  let (reply, t) := (Command.run host arguments).run t
  ({ reply with output := t.output ++ reply.output, errors := t.errors ++ reply.errors }, t)

end FileTree

end NestedRegex.Command
