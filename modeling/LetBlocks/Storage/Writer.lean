import LetBlocks.Storage

/-!
A file is created when it is opened for writing, provided its directory is there; a directory
cannot be opened.

A writer keeps short texts until they are flushed or until there is no room for more. Two
writers on one file are therefore told apart by when they were flushed, and a writer that does
not append goes on at its own position, whatever others have written since.
-/

namespace LetBlocks.Storage

/-- A file opened for writing: the place of the next byte, unless it is always the end, and
what has not been written yet. -/
structure Writer where
  place : Place
  position : Option Nat := none
  waiting : Text := []
  deriving Inhabited

def openWriter (storage : Storage) (path : Text) (append : Bool) : Option (Writer × Storage) :=
  (storage.resolve path).bind fun place =>
    if storage.isDirectory place ∨ place ∈ storage.readOnly then none
    else if append then some ({ place }, storage.append place [])
    else some ({ place, position := some 0 }, storage.setContent place [])

/-- A text with `data` written at a position, after zero bytes if the text is too short to
reach it. -/
def overwrite (content : Text) (position : Nat) (data : Text) : Text :=
  content.take position ++ List.replicate (position - content.length) 0 ++ data ++
    content.drop (position + data.length)

def flush (storage : Storage) (writer : Writer) : Writer × Storage :=
  match writer.waiting, writer.position with
  | [], _ => (writer, storage)
  | data, none => ({ writer with waiting := [] }, storage.append writer.place data)
  | data, some position =>
    ({ writer with position := some (position + data.length), waiting := [] },
      storage.setContent writer.place
        (overwrite ((storage.fileAt? writer.place).getD []) position data))

namespace Writer

def longText : Nat := 1024

def capacity : Nat := 8191

end Writer

/-- Hands a text to a writer. A long text, and one that would fill the writer, is written at
once, together with what has been waiting. -/
def put (storage : Storage) (writer : Writer) (text : Text) : Writer × Storage :=
  let writer := { writer with waiting := writer.waiting ++ text }
  if text.length < Writer.longText ∧ writer.waiting.length < Writer.capacity then
    (writer, storage)
  else storage.flush writer

def writeFile (storage : Storage) (path content : Text) : Storage :=
  match storage.openWriter path false with
  | some (writer, storage) => storage.setContent writer.place content
  | none => storage

end LetBlocks.Storage
