import LetBlocks.Console
import LetBlocks.Json

/-!
A level is an integer, so that any two can be compared; seven of them have names. An entry is
what a part of the program has to say, a record an entry with the time it was made. The time
comes in from outside in the two forms that the formats show: milliseconds, and the time of day
as text.
-/

namespace LetBlocks.Log

abbrev Level := Int

namespace Level

def trace : Level := 0
def debug : Level := 1
def info : Level := 2
def warn : Level := 3
def error : Level := 4
def fatal : Level := 5
def off : Level := 6

def names : List (Level × String × String) :=
  [(trace, "TRACE", "trace"), (debug, "DEBUG", "debug"), (info, "INFO", "info"),
    (warn, "WARN", "warn"),
    (error, "ERROR", "error"), (fatal, "FATAL", "fatal"), (off, "OFF", "off")]

def name (level : Level) : String := (names.lookup level).elim "???" (·.1)

/-- The level with a given name, which is all capitals or all small letters. -/
def ofName? (text : Text) : Option Level :=
  (names.find? fun (_, upper, lower) => text == utf8 upper || text == utf8 lower).map (·.1)

/-- The level with a given name; a text that names none stands for `info`. -/
def ofName (text : Text) : Level := (ofName? text).getD info

def color (level : Level) : Text :=
  (([(trace, "\x1b[90m"), (debug, "\x1b[36m"), (info, "\x1b[32m"), (warn, "\x1b[33m"),
    (error, "\x1b[31m"),
    (fatal, "\x1b[1;31m")] : List (Level × String)).lookup level).elim [] utf8

end Level

structure Stamp where
  millis : Int
  clock : Text
  deriving DecidableEq, Repr, Inhabited

/-- The time `millis` after the epoch, in a place whose clocks are `offset` seconds ahead. -/
def Stamp.ofMillis (millis offset : Int) : Stamp :=
  let ofDay := ((millis + offset * 1000) % 86400000).toNat
  let digits (n width : Nat) :=
    List.replicate (width - (Text.ofNat n).length) 0x30 ++ Text.ofNat n
  { millis
    clock := digits (ofDay / 3600000) 2 ++ utf8 ":" ++ digits (ofDay / 60000 % 60) 2 ++
      utf8 ":" ++ digits (ofDay / 1000 % 60) 2 ++ utf8 "." ++ digits (ofDay % 1000) 3 }

structure Entry where
  level : Level
  module : Text
  message : Text
  deriving DecidableEq, Repr, Inhabited

structure Record extends Entry where
  stamp : Stamp
  deriving DecidableEq, Repr, Inhabited

namespace Record

def textLine (colors : Bool) (r : Record) : Text :=
  r.stamp.clock ++ utf8 " " ++ Ansi.paint colors r.level.color ++
    Text.padRight 5 (utf8 r.level.name) ++
    Ansi.paint colors Ansi.reset ++ utf8 " [" ++ r.module ++ utf8 "] " ++ r.message ++
    utf8 "\n"

/-- The form of a text inside the JSON strings of a log. Only the escapes of one letter are
used here, and not all of those: other control characters stand for themselves. -/
def escape (text : Text) : Text := text.flatMap fun b => (Json.shortEscape? b).getD [b]

def jsonLine (r : Record) : Text :=
  Json.object
    [Json.member "ts" (Text.ofInt r.stamp.millis),
      Json.stringMember "level" (utf8 r.level.name),
      Json.stringMember "module" (escape r.module),
      Json.stringMember "msg" (escape r.message)] ++
    utf8 "\n"

def line (format : Format) (colors : Bool) (r : Record) : Text :=
  match format with
  | .text => r.textLine colors
  | .json => r.jsonLine

end Record

end LetBlocks.Log
