import LetBlocks.Log.Filter
import LetBlocks.Storage.Writer

/-!
A logger hands the records that its filter accepts to its sinks. It also keeps a level of its
own, below which it rejects a record without asking the filter; that level has to stay at or
below every level of the filter.

Writing is described by its effects: a record kept by a capturing sink, or text on one of two
streams. What goes to files changes the storage.
-/

namespace LetBlocks.Log

/-- Where a console writes: to the standard error stream, or into memory. -/
inductive Stream
  | standardError
  | memory
  deriving DecidableEq, Repr, Inhabited

inductive Sink
  /-- Drops every record. -/
  | discard
  /-- Keeps every record as it is. -/
  | capture
  | console (stream : Stream) (format : Format) (colors : Bool)
  /-- A file, or nothing if it could not be opened. -/
  | file (format : Format) (writer : Option Storage.Writer)
  deriving Inhabited

inductive Effect
  | captured (record : Record)
  | wrote (stream : Stream) (text : Text)
  deriving DecidableEq, Repr

/-- How a logger is to be set up. An empty filter or file name means there is none. -/
structure Config where
  level : Level := Level.info
  format : Format := .text
  filter : Text := []
  file : Text := []
  console : Bool := true
  colors : Bool := true
  deriving DecidableEq, Repr, Inhabited

structure Logger where
  level : Level := Level.info
  filter : Filter := {}
  sinks : List Sink := []
  deriving Inhabited

namespace Sink

def openFile (storage : Storage) (path : Text) (append : Bool) (format : Format) :
    Sink × Storage :=
  match storage.openWriter path append with
  | some (writer, storage) => (.file format (some writer), storage)
  | none => (.file format none, storage)

def isOpen : Sink → Bool
  | file _ writer => writer.isSome
  | _ => true

def flush (storage : Storage) : Sink → Sink × Storage
  | file format (some writer) =>
    let (writer, storage) := storage.flush writer
    (file format (some writer), storage)
  | sink => (sink, storage)

/-- Writes a record. A file is flushed after an error. -/
def write (storage : Storage) (record : Record) : Sink → Sink × Storage × List Effect
  | discard => (discard, storage, [])
  | capture => (capture, storage, [.captured record])
  | console stream format colors =>
    (console stream format colors, storage, [.wrote stream (record.line format colors)])
  | file format none => (file format none, storage, [])
  | file format (some writer) =>
    let (writer, storage) := storage.put writer (record.line format false)
    let (writer, storage) :=
      if Level.error ≤ record.level then storage.flush writer else (writer, storage)
    (file format (some writer), storage, [])

end Sink

namespace Logger

def flushSinks (storage : Storage) : List Sink → List Sink × Storage
  | [] => ([], storage)
  | sink :: sinks =>
    let (sink, storage) := sink.flush storage
    let (sinks, storage) := flushSinks storage sinks
    (sink :: sinks, storage)

def writeSinks (storage : Storage) (record : Record) :
    List Sink → List Sink × Storage × List Effect
  | [] => ([], storage, [])
  | sink :: sinks =>
    let (sink, storage, effects) := sink.write storage record
    let (sinks, storage, more) := writeSinks storage record sinks
    (sink :: sinks, storage, effects ++ more)

def flush (logger : Logger) (storage : Storage) : Logger × Storage :=
  let (sinks, storage) := flushSinks storage logger.sinks
  ({ logger with sinks }, storage)

def close (logger : Logger) (storage : Storage) : Storage :=
  (flushSinks storage logger.sinks).2

def addSink (logger : Logger) (sink : Sink) : Logger :=
  { logger with sinks := logger.sinks ++ [sink] }

/-- Sets the level of the logger and of every module that has none of its own. -/
def setLevel (logger : Logger) (level : Level) : Logger :=
  { logger with level, filter := { logger.filter with fallback := level } }

/-- Reads a written filter. The logger's own level only ever goes down. -/
def setFilter (logger : Logger) (spec : Text) : Logger :=
  let filter := logger.filter.parse spec
  { logger with
    filter
    level := if filter.lowest < logger.level then filter.lowest else logger.level }

def ofConfig (config : Config) : Logger :=
  let filter : Filter := { fallback := config.level }
  if config.filter = [] then { level := config.level, filter }
  else
    let filter := filter.parse config.filter
    { level := filter.lowest, filter }

def cannotOpen (path : Text) : Text :=
  utf8 "warning: could not open log file: " ++ path ++ utf8 "\n"

/-- Sets a logger up anew. The files of the one before are closed first. -/
def init (before : Logger) (config : Config) (terminal : Terminal) (storage : Storage) :
    Logger × Storage × List Effect :=
  let storage := before.close storage
  let console :=
    if config.console then
      [Sink.console .standardError config.format (config.colors && terminal.supportsColors)]
    else []
  let logger := { ofConfig config with sinks := console }
  if config.file = [] then (logger, storage, [])
  else
    let (sink, storage) := Sink.openFile storage config.file true config.format
    if sink.isOpen then (logger.addSink sink, storage, [])
    else (logger, storage, [.wrote .standardError (cannotOpen config.file)])

def shouldLog (logger : Logger) (level : Level) (module : Text) : Bool :=
  !(level < logger.level) && !logger.sinks.isEmpty && logger.filter.accepts level module

def write (logger : Logger) (storage : Storage) (record : Record) :
    Logger × Storage × List Effect :=
  let (sinks, storage, effects) := writeSinks storage record logger.sinks
  ({ logger with sinks }, storage, effects)

def log (logger : Logger) (storage : Storage) (stamp : Stamp) (entry : Entry) :
    Logger × Storage × List Effect :=
  if logger.shouldLog entry.level entry.module then logger.write storage { entry with stamp }
  else (logger, storage, [])

/-- Continues a log with entries; `done` are the effects before. -/
def logFrom (logger : Logger) (storage : Storage) (stamp : Stamp) (done : Array Effect) :
    List Entry → Logger × Storage × Array Effect
  | [] => (logger, storage, done)
  | entry :: entries =>
    let (logger, storage, effects) := logger.log storage stamp entry
    logFrom logger storage stamp (done ++ effects) entries

def logAll (logger : Logger) (storage : Storage) (stamp : Stamp) (entries : List Entry) :
    Logger × Storage × List Effect :=
  let (logger, storage, effects) := logger.logFrom storage stamp #[] entries
  (logger, storage, effects.toList)

end Logger

end LetBlocks.Log
