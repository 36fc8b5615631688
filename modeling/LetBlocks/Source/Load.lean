import LetBlocks.Source

/-!
A source comes from a file or from an input stream. Loading is the one step of a run that can
fail.
-/

namespace LetBlocks

inductive LoadError
  | cannotOpen (path : Text)
  | cannotRead (name : Text)
  deriving DecidableEq, Repr

def LoadError.message : LoadError → Text
  | cannotOpen path => utf8 "Failed to open file: " ++ path
  | cannotRead name => utf8 "Failed to read " ++ name

/-- What is left of an input stream. A broken stream stays broken. -/
structure InputStream where
  content : Text := []
  broken : Bool := false
  deriving Inhabited

def InputStream.drained (stream : InputStream) : InputStream := { stream with content := [] }

namespace Source

/-- Loads a file; `read?` gives the content of those that can be opened. -/
def ofFile (read? : Text → Option Text) (path : Text) : Except LoadError Source :=
  match read? path with
  | some content => .ok (Source.ofText content path)
  | none => .error (.cannotOpen path)

def ofStream (stream : InputStream) (name : Text := utf8 "<stdin>") :
    Except LoadError Source :=
  if stream.broken then .error (.cannotRead name) else .ok (Source.ofText stream.content name)

end Source

end LetBlocks
