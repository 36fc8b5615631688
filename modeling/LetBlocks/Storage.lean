import LetBlocks.Text

/-!
The files and directories that a run can see: what a path means, and what can be read there. A
directory can be read and then holds nothing. A path that is too long, or that has a name in it
that is too long, means nothing at all.

How files are written is the matter of `LetBlocks.Storage.Writer`.
-/

namespace LetBlocks

/-- Where an entry is, from the innermost name to the outermost. The empty location is the
current directory, `..` stands for a directory above it, and `/` for the root. -/
abbrev Storage.Place := List Text

structure Storage where
  directories : List Storage.Place := []
  /-- What the files hold, in the pieces that were written one after another, latest first. -/
  files : List (Storage.Place × List Text) := []
  /-- Files that can be read and not written. -/
  readOnly : List Storage.Place := []
  deriving Inhabited

namespace Storage

def maxPath : Nat := 4095

def maxName : Nat := 255

def here : Place := []

def root : Place := [utf8 "/"]

def usual : List Place :=
  ["bin", "boot", "dev", "etc", "home", "lib", "media", "mnt", "opt", "proc", "root", "run",
    "sbin", "srv", "sys", "tmp", "usr", "var"].map fun name => utf8 name :: root

/-- A file that is always empty: what is written to it is lost. -/
def nullDevice : Place := utf8 "null" :: utf8 "dev" :: root

def isUp (name : Text) : Bool := name == utf8 ".."

/-- A name that leads nowhere else: a dot, or nothing, as before or after a needless slash. -/
def isStay (name : Text) : Bool := name.isEmpty || name == utf8 "."

def above : Place → Place
  | [] => [utf8 ".."]
  | name :: outer =>
    if isUp name then utf8 ".." :: name :: outer else if name :: outer = root then root
    else outer

def isDirectory (storage : Storage) (place : Place) : Bool :=
  place.all isUp || place == root || usual.contains place || storage.directories.contains place

/-- Follows names from a directory. All but the last have to be directories; the last need not
exist. -/
def follow (storage : Storage) (place : Place) : List Text → Option Place
  | [] => some place
  | name :: names =>
    if name.length ≤ maxName ∧ storage.isDirectory place then
      if isStay name then storage.follow place names
      else if isUp name then storage.follow (above place) names
      else storage.follow (name :: place) names
    else none

def split (path : Text) : Place × List Text :=
  match path with
  | [] => (here, [])
  | b :: rest =>
    if b = Byte.slash then (root, rest.splitOn Byte.slash) else (here, path.splitOn Byte.slash)

/-- The place that a path means. A path ends at its first zero byte, and the empty path means
nothing. -/
def resolve (storage : Storage) (path : Text) : Option Place :=
  if maxPath < path.beforeZero.length then none
  else
    match split path.beforeZero with
    | (_, []) => none
    | (start, names) => storage.follow start names

def fileAt? (storage : Storage) (place : Place) : Option Text :=
  (storage.files.lookup place).map fun pieces => pieces.reverse.flatten

def contentAt? (storage : Storage) (path : Text) : Option Text :=
  (storage.resolve path).bind storage.fileAt?

/-- What can be read at a path: the content of a file, nothing from a directory, and none if
there is neither. -/
def read? (storage : Storage) (path : Text) : Option Text :=
  (storage.resolve path).bind fun place =>
    if storage.isDirectory place ∨ place = nullDevice then some [] else storage.fileAt? place

def setPieces (storage : Storage) (place : Place) (pieces : List Text) : Storage :=
  if place = nullDevice then storage
  else { storage with files := (place, pieces) :: storage.files.filter (·.1 ≠ place) }

def setContent (storage : Storage) (place : Place) (content : Text) : Storage :=
  storage.setPieces place [content]

def append (storage : Storage) (place : Place) (data : Text) : Storage :=
  storage.setPieces place (data :: (storage.files.lookup place).getD [])

/-- Follows names from a directory and adds a directory for each that is not there, as far as
no file is in the way. -/
def enter (storage : Storage) (place : Place) : List Text → Storage
  | [] => storage
  | name :: names =>
    if isStay name then storage.enter place names
    else if isUp name then storage.enter (above place) names
    else if storage.isDirectory (name :: place) then storage.enter (name :: place) names
    else if (storage.files.lookup (name :: place)).isSome then storage
    else enter { storage with directories := (name :: place) :: storage.directories }
      (name :: place) names

def addDirectory (storage : Storage) (path : Text) : Storage :=
  let (start, names) := split path.beforeZero
  if maxPath < path.beforeZero.length ∨ names.any (maxName < ·.length) then storage
  else storage.enter start names

def directoryPart (path : Text) : Text := (path.reverse.dropWhile (· ≠ Byte.slash)).reverse

def protect (storage : Storage) (path : Text) : Storage :=
  match storage.resolve path with
  | some place => { storage with readOnly := place :: storage.readOnly }
  | none => storage

end Storage

end LetBlocks
