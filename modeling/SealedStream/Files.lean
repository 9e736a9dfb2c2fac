import SealedStream.IoError
import SealedStream.Source

/-!
# Files

What a program sees of a file system: which places hold files, which are
folders, and how the names of a path lead from the working folder to a place.
Two paths that lead to the same place are the same file, however they are
written.  Links do not occur, and every file can be opened for reading and for
writing.

`Files` is its own view: it says of every place what is there.
-/

namespace SealedStream

/-- What a place holds. -/
inductive Node
  | file (contents : Bytes) (ownerOnly : Bool)
  | folder
  deriving DecidableEq, Repr

/-- A place is the way to it: the names of folders from the working folder on,
and of the thing itself.  Two dots at the front lead above the working folder,
and a slash at the front is the root. -/
abbrev Place := List String

/-- What is at every place. -/
abbrev Files := Place → Option Node

namespace Place

/-- The working folder. -/
def here : Place := []

/-- The root. -/
def root : Place := ["/"]

/-- Where one name leads. -/
def step (p : Place) (name : String) : Place :=
  if name = "" ∨ name = "." then p
  else if name = ".." then
    if p = root then p
    else if p.getLast?.all (· = "..") then p ++ [".."]
    else p.dropLast
  else p ++ [name]

/-- The working folder, the root, and all folders above the working folder. -/
def isAnchor (p : Place) : Bool :=
  p = root || p.all (· = "..")

/-- A path that leads to the place. -/
def path (p : Place) : String :=
  match p with
  | [] => "."
  | "/" :: names => "/" ++ String.intercalate "/" names
  | names => String.intercalate "/" names

end Place

namespace Files

/-! ## Errors -/

/-- There is nothing at the place. -/
def absent : IoError :=
  ⟨.notFound, some "No such file or directory (os error 2)"⟩

/-- There is something at the place already. -/
def taken : IoError :=
  ⟨.alreadyExists, some "File exists (os error 17)"⟩

/-- A name on the way is not that of a folder. -/
def notAFolder : IoError :=
  ⟨.notADirectory, some "Not a directory (os error 20)"⟩

/-- A folder has no contents to read or write. -/
def aFolder : IoError :=
  ⟨.isADirectory, some "Is a directory (os error 21)"⟩

/-- The contents of a file are not text. -/
def notText : IoError :=
  ⟨.invalidData, some "stream did not contain valid UTF-8"⟩

/-! ## Contents -/

/-- Nothing but the folders that are always there. -/
def empty : Files :=
  fun p => if p.isAnchor then some .folder else none

/-- Put something at a place, whatever was there before. -/
def put (fs : Files) (p : Place) (node : Node) : Files :=
  fun q => if q = p then some node else fs q

/-- Take away what is at a place. -/
def erase (fs : Files) (p : Place) : Files :=
  fun q => if q = p then none else fs q

@[simp] theorem put_same (fs : Files) (p : Place) (node : Node) :
    fs.put p node p = some node := by
  simp [put]

theorem put_other (fs : Files) {p q : Place} (node : Node) (h : q ≠ p) :
    fs.put p node q = fs q := by
  simp [put, h]

@[simp] theorem erase_same (fs : Files) (p : Place) : fs.erase p p = none := by
  simp [erase]

theorem erase_other (fs : Files) {p q : Place} (h : q ≠ p) :
    fs.erase p q = fs q := by
  simp [erase, h]

/-! ## Paths -/

/-- What stands between the slashes of a path. -/
def cut : List Char → List (List Char)
  | [] => [[]]
  | c :: r =>
      if c = '/' then [] :: cut r
      else
        match cut r with
        | [] => [[c]]
        | name :: names => (c :: name) :: names

/-- Where a path begins and the names it is made of. -/
def way (path : String) : Place × List String :=
  let s := path.toList
  let start := if s.head? = some '/' then Place.root else Place.here
  (start, (cut s).map String.ofList)

/-- Follow names from a place; what a name is looked up in has to be a
folder. -/
def follow (fs : Files) : Place → List String → Except IoError Place
  | p, [] => .ok p
  | p, name :: names =>
      match fs p with
      | none => .error absent
      | some (.file ..) => .error notAFolder
      | some .folder => follow fs (p.step name) names

/-- Every place that a path leads through, its end included. -/
def through (path : String) : List Place :=
  let (start, names) := way path
  (List.range (names.length + 1)).map fun k => (names.take k).foldl Place.step start

/-- The place of a file that is to be created.  A slash after its name is
refused, since only folders are written so. -/
def placeFor (fs : Files) (path : String) : Except IoError Place :=
  let (start, names) := way path
  let names' := (names.reverse.dropWhile (· = "")).reverse
  match follow fs start names' with
  | .error e => .error e
  | .ok p =>
      match names'.getLast? with
      | none => .ok p
      | some last =>
          if names'.length < names.length ∧ last ≠ "." ∧ last ≠ ".." then
            .error aFolder
          else .ok p

/-! ## Operations -/

/-- The place of what is at the end of a path, which may be a folder. -/
def openPlace (fs : Files) (path : String) : Except IoError Place :=
  let (start, names) := way path
  match follow fs start names with
  | .error e => .error e
  | .ok p => if (fs p).isSome then .ok p else .error absent

/-- What reading from an opened place brings.  A folder can be opened, but not
read. -/
def sourceAt (fs : Files) (p : Place) : Source :=
  match fs p with
  | some (.file contents _) => .ofBytes contents
  | some .folder => [.failure aFolder]
  | none => []

/-- Is there anything at the end of a path? -/
def has (fs : Files) (path : String) : Bool :=
  (fs.openPlace path).isOk

/-- The text that a file holds. -/
def textOf (contents : Bytes) : Except IoError String :=
  match String.fromUTF8? ⟨contents.toArray⟩ with
  | some text => .ok text
  | none => .error notText

/-- The text of the file at the end of a path. -/
def readText (fs : Files) (path : String) : Except IoError String :=
  match fs.openPlace path with
  | .error e => .error e
  | .ok p =>
      match fs p with
      | some (.file contents _) => textOf contents
      | some .folder => .error aFolder
      | none => .error absent

/-- Make an empty file, or empty the one that is there.  The answer is its
place. -/
def create (fs : Files) (path : String) : Except IoError (Place × Files) :=
  match fs.placeFor path with
  | .error e => .error e
  | .ok p =>
      match fs p with
      | some .folder => .error aFolder
      | some (.file _ ownerOnly) => .ok (p, fs.put p (.file [] ownerOnly))
      | none => .ok (p, fs.put p (.file [] false))

/-- Make a file that only its owner may read and write, where nothing has been
before. -/
def createSecret (fs : Files) (path : String) (contents : Bytes) :
    Except IoError Files :=
  match fs.placeFor path with
  | .error e => .error e
  | .ok p =>
      match fs p with
      | some _ => .error taken
      | none => .ok (fs.put p (.file contents true))

/-- Replace the contents of a file. -/
def fill (fs : Files) (p : Place) (contents : Bytes) : Files :=
  match fs p with
  | some (.file _ ownerOnly) => fs.put p (.file contents ownerOnly)
  | _ => fs

end Files

end SealedStream
