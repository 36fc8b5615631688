import LetBlocks.Cli.Run
import Std.Time.DateTime.Timestamp
import Std.Time.Zoned.Database

/-!
The outer layer of the command line: it looks up what `Cli.Program.invoke` has to know about
the files, the standard streams, the environment and the time, and carries out what that
decides.
-/

namespace LetBlocks.Main

open Std.Time

def bytes (b : ByteArray) : Text := b.data.toList

def pack (text : Text) : ByteArray := ⟨text.toArray⟩

/-- Reads a stream to its end. -/
partial def readAll (stream : IO.FS.Stream) (done : ByteArray) : IO ByteArray := do
  let chunk ← stream.read 65536
  if chunk.isEmpty then return done else readAll stream (done ++ chunk)

def pathOf (text : Text) : String := (String.fromUTF8? (pack text)).getD ""

/-- Adds what is at a path. Something that can be opened and not read is a directory. -/
def explore (storage : Storage) (path : Text) : IO Storage := do
  match ← (IO.FS.Handle.mk (pathOf path) .read).toBaseIO with
  | .error _ => return storage
  | .ok handle =>
    match ← handle.readBinToEnd.toBaseIO with
    | .error _ => return storage.addDirectory path
    | .ok content =>
      return (storage.addDirectory (Storage.directoryPart path)).writeFile path (bytes content)

def snapshot (inputs : List Cli.Input) : IO Storage :=
  (inputs.filter (!·.fromStdin)).foldlM (fun storage input => explore storage input.path) {}

/-- Opens the log file. The storage learns whether that worked. -/
def openLog (path : Text) (storage : Storage) : IO (Option IO.FS.Handle × Storage) := do
  if path = [] then return (none, storage)
  match ← (IO.FS.Handle.mk (pathOf path) .append).toBaseIO with
  | .error _ => return (none, storage.protect path)
  | .ok handle => return (some handle, storage.addDirectory (Storage.directoryPart path))

def stamp : IO Log.Stamp := do
  let now ← Timestamp.now
  let zone := (← Database.defaultGetLocalZoneRules).timezoneAt now
  return Log.Stamp.ofMillis now.toMillisecondsSinceUnixEpoch.val zone.offset.second.val

def surroundings (options : Cli.Options) (storage : Storage) (logValue : Option Text) :
    IO Cli.Surroundings := do
  let stdin ←
    if options.inputs.any (·.fromStdin) then readAll (← IO.getStdin) .empty else pure .empty
  return {
    storage
    stdin := { content := bytes stdin }
    terminal :=
      { interactive := ← (← IO.getStderr).isTty, type := (← IO.getEnv "TERM").map utf8 }
    logVariable := logValue
    stamp := ← stamp }

end LetBlocks.Main

open LetBlocks in
def main (args : List String) : IO UInt32 := do
  let arguments := args.map utf8
  let logValue := (← IO.getEnv "LETC_LOG").map utf8
  let options := (Cli.Options.ofArguments arguments logValue).toOption.getD {}
  let (handle, storage) ← Main.openLog options.log.file (← Main.snapshot options.inputs)
  let around ← Main.surroundings options storage logValue
  let result := Cli.Program.invoke around arguments
  let stdout ← IO.getStdout
  stdout.write (Main.pack result.out)
  stdout.flush
  (← IO.getStderr).write (Main.pack result.err)
  if let some handle := handle then
    let before := (storage.contentAt? options.log.file).getD []
    let after := (result.storage.contentAt? options.log.file).getD []
    handle.write (Main.pack (after.drop before.length))
  return result.code.toUInt32
