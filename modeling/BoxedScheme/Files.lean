import BoxedScheme.Text.Lines

/-!
# Files

What a machine knows about files. A store is either complete, so that a name it does not list is a file that
does not exist, or open, so that such a name has to be asked for outside.
-/

namespace BoxedScheme

/-- What stands behind a name. -/
inductive FileContent where
  | bytes (bytes : ByteArray)
  | directory
  /-- Reading failed for the given reason. -/
  | unreadable (reason : String)

structure Files where
  known : List (String × FileContent) := []
  complete : Bool := false
deriving Inhabited

namespace Files

def noSuchFile : String := "No such file or directory (os error 2)"

def isDirectory : String := "Is a directory (os error 21)"

def notDirectory : String := "Not a directory (os error 20)"

def nameTooLong : String := "File name too long (os error 36)"

def notText : String := "stream did not contain valid UTF-8"

def nulInName : String := "file name contained an unexpected NUL byte"

/-- The text of a file, or the reason why it cannot be read. -/
def textOf : FileContent → Except String String
  | .bytes bytes =>
    match String.fromUTF8? bytes with
    | some text => .ok text
    | none => .error notText
  | .directory => .error isDirectory
  | .unreadable reason => .error reason

/-! ## Paths -/

/-- The bytes that a path may have. -/
def pathLimit : Nat := 4095

/-- The bytes that a name between slashes may have. -/
def nameLimit : Nat := 255

/-- Where a path has led so far. -/
inductive Place where
  /-- A directory, by the names that lead to it from the current directory. -/
  | directory (names : List String)
  /-- A directory that is not below the current one. No file of it has a known name. -/
  | outside
  | file (content : FileContent)

/-- One name further along a path. -/
def step (f : Files) (place : Place) (name : String) : Except String Place :=
  match place with
  | .file _ => .error notDirectory
  | .directory names =>
    if name = "" ∨ name = "." then .ok place
    else if name = ".." then .ok (if names.isEmpty then .outside else .directory names.dropLast)
    else if nameLimit < name.utf8ByteSize then .error nameTooLong
    else match f.known.lookup ("/".intercalate (names ++ [name])) with
      | some .directory => .ok (.directory (names ++ [name]))
      | some content => .ok (.file content)
      | none => .error noSuchFile
  | .outside =>
    if name = "" ∨ name = "." ∨ name = ".." then .ok .outside
    else if nameLimit < name.utf8ByteSize then .error nameTooLong
    else .error noSuchFile

/-- Where a path leads, from the current directory or, behind a slash, from outside. -/
def walk (f : Files) (path : String) : Except String Place :=
  (path.splitOn "/").foldlM f.step (if path.startsWith "/" then .outside else .directory [])

/-- What a path leads to in a store that lists every file of the current directory. -/
def resolve (f : Files) (path : String) : Except String String :=
  if '\x00' ∈ path.toList then .error nulInName
  else if path.isEmpty then .error noSuchFile
  else if pathLimit < path.utf8ByteSize then .error nameTooLong
  else match f.walk path with
    | .ok (.file content) => textOf content
    | .ok _ => .error isDirectory
    | .error reason => .error reason

/-- The text of the file at a path or the reason why it cannot be read; nothing if that is not known. -/
def read? (f : Files) (path : String) : Option (Except String String) :=
  if f.complete then some (f.resolve path)
  else (f.known.lookup path).map textOf

/-- A store that knows one path more. -/
def add (f : Files) (path : String) (content : FileContent) : Files :=
  { f with known := (path, content) :: f.known }

end Files

end BoxedScheme
