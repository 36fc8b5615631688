import LetBlocks.Console
import LetBlocks.Diagnostic
import LetBlocks.Json

/-!
A diagnostic is reported as a line of JSON, or as text: a headline, the place, and, if the
source is known, the line that the span starts on with a row of carets below it. The row keeps
the tabs of the line, so the carets stand under the bytes they mean whatever the width of a tab
is.
-/

namespace LetBlocks

/-- The line with the given index, counted from 0, in a text; empty if there is none. -/
def Text.lineAt : Nat → Text → Text
  | 0, text => text.takeWhile (!·.isLineBreak)
  | index + 1, text =>
    match text.dropWhile (!·.isLineBreak) with
    | [] => []
    | b :: rest =>
      Text.lineAt index (if b = Byte.cr ∧ rest.head? = some Byte.lf then rest.tail else rest)

namespace Report

def severityColor : Severity → Text
  | .error => Ansi.brightRed
  | .warning => Ansi.brightYellow

def headline (colors : Bool) (d : Diagnostic) : Text :=
  Ansi.paint colors Ansi.bold ++ Ansi.paint colors (severityColor d.severity) ++
    utf8 d.severity.name ++ (if d.code = [] then [] else utf8 "[" ++ d.code ++ utf8 "]") ++
    Ansi.paint colors Ansi.reset ++ Ansi.paint colors Ansi.bold ++ utf8 ": " ++ d.message ++
    Ansi.paint colors Ansi.reset ++ utf8 "\n"

def framed (colors : Bool) (text : Text) : Text :=
  Ansi.paint colors Ansi.brightBlue ++ text ++ Ansi.paint colors Ansi.reset

def startColumn (span : Span) : Nat := span.start.column.toNat - 1

/-- The column after the last one to be marked on the span's first line. A span that goes on
beyond that line is marked to the end of the line, and at least one column is marked. -/
def stopColumn (span : Span) (line : Text) : Nat :=
  let stop :=
    if span.stop.line = span.start.line ∧ span.start.column ≤ span.stop.column then
      span.stop.column
    else line.length.toUInt32
  max stop.toNat (startColumn span + 1)

/-- The blanks before the carets: a tab where the line has one. -/
def padding (width : Nat) (line : Text) : Text :=
  let padded := (line.take width).map fun b => if b = Byte.tab then Byte.tab else Byte.space
  padded ++ List.replicate (width - padded.length) Byte.space

def caretRow (colors : Bool) (d : Diagnostic) (line : Text) : Text :=
  let start := startColumn d.span
  padding start line ++ Ansi.paint colors (severityColor d.severity) ++
    List.replicate (stopColumn d.span line - start) 0x5e ++ Ansi.paint colors Ansi.reset

def excerpt (colors : Bool) (d : Diagnostic) (line : Text) : Text :=
  let number := Text.ofNat d.span.start.line.toNat
  let width := max number.length 4
  let ruler := framed colors (Text.padLeft width [] ++ utf8 " |") ++ utf8 "\n"
  ruler ++
    framed colors (Text.padLeft width number ++ utf8 " | ") ++ line ++ utf8 "\n" ++
    framed colors (Text.padLeft width [] ++ utf8 " | ") ++ caretRow colors d line ++
    utf8 "\n" ++ ruler

/-- Where it is. A diagnostic without a position has at most a file, and `line` is empty if the
source is not known. -/
def snippet (colors : Bool) (d : Diagnostic) (line : Text) : Text :=
  let arrow := framed colors (utf8 "  --> ")
  if d.span.start.line = 0 then
    if d.file = [] then [] else arrow ++ d.file ++ utf8 "\n"
  else
    arrow ++ d.file ++ utf8 ":" ++ Text.ofNat d.span.start.line.toNat ++ utf8 ":" ++
      Text.ofNat d.span.start.column.toNat ++ utf8 "\n" ++
      if line = [] then [] else excerpt colors d line

def position (l : Location) : Text :=
  Json.object [Json.member "line" (Text.ofNat l.line.toNat),
    Json.member "column" (Text.ofNat l.column.toNat)]

def jsonLine (d : Diagnostic) : Text :=
  Json.object
    [Json.stringMember "severity" (utf8 d.severity.name),
      Json.stringMember "code" (Json.escape d.code),
      Json.stringMember "message" (Json.escape d.message),
      Json.member "span" (Json.object
        [Json.stringMember "file" (Json.escape d.file),
          Json.member "start" (position d.span.start),
          Json.member "end" (position d.span.stop)])] ++
    utf8 "\n"

end Report

/-- Whoever reports diagnostics: how, from which sources, and how many of each severity so far.
Of two sources with one name the later one counts; it stands first. -/
structure Reporter where
  colors : Bool := false
  format : Format := .text
  sources : List (Text × Text) := []
  errors : Nat := 0
  warnings : Nat := 0
  deriving Inhabited

namespace Reporter

def addSource (reporter : Reporter) (name content : Text) : Reporter :=
  { reporter with sources := (name, content) :: reporter.sources.filter (·.1 ≠ name) }

def sourceLine (reporter : Reporter) (file : Text) (number : UInt32) : Text :=
  match number.toNat, reporter.sources.lookup file with
  | index + 1, some content => content.lineAt index
  | _, _ => []

def describe (reporter : Reporter) (d : Diagnostic) : Text :=
  match reporter.format with
  | .json => Report.jsonLine d
  | .text =>
    Report.headline reporter.colors d ++
      Report.snippet reporter.colors d (reporter.sourceLine d.file d.span.start.line)

def counted (reporter : Reporter) (d : Diagnostic) : Reporter :=
  match d.severity with
  | .error => { reporter with errors := reporter.errors + 1 }
  | .warning => { reporter with warnings := reporter.warnings + 1 }

def emit (reporter : Reporter) (d : Diagnostic) : Text × Reporter :=
  (reporter.describe d, reporter.counted d)

def emitAll (reporter : Reporter) (ds : List Diagnostic) : Text × Reporter :=
  (ds.flatMap reporter.describe, ds.foldl counted reporter)

end Reporter

end LetBlocks
