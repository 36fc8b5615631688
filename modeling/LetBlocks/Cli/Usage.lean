import LetBlocks.Text

/-!
What the program says about itself: its name and version, and how it is used.
-/

namespace LetBlocks.Cli

def version : String := "1.2.0"

def versionText : Text := utf8 "letc " ++ utf8 version ++ utf8 "\n"

def usageText : Text :=
  utf8 "letc " ++ utf8 version ++ utf8 " - let-block compiler for JavaScript\n\n" ++
    utf8 "Usage: letc [options] --compile[=<file>]...\n\n" ++
    utf8 "Rewrites `let (a = 1, b) \x7b ... \x7d` blocks. Output goes to stdout in the\n" ++
    utf8 "order the units are given; everything else passes through unchanged.\n\n" ++
    utf8 "Options:\n" ++
    utf8 "  --compile             Compile standard input\n" ++
    utf8 "  --compile=<file>      Compile <file> (repeatable)\n" ++
    utf8 "  --es6                 Emit native `\x7b let ...; \x7d` blocks " ++
    utf8 "(default: ES3 try/catch)\n" ++
    utf8 "  --no-annotate         Omit /*let*/ comments from ES3 output\n" ++
    utf8 "  --ignore-warnings     Do not print warnings or fail because of them\n" ++
    utf8 "  --error-format=json   Print diagnostics as JSON lines\n" ++
    utf8 "  --no-color            Disable colored output\n" ++
    utf8 "  --help, -h            Show this message\n" ++
    utf8 "  --version, -V         Show the version\n\n" ++
    utf8 "Logging:\n" ++
    utf8 "  --log-level=<level>   trace, debug, info, warn (default), error, off\n" ++
    utf8 "  --log-filter=<spec>   Per-module levels, e.g. parser=trace,*=warn\n" ++
    utf8 "  --log-file=<path>     Also write log records to <path>\n" ++
    utf8 "  --log-format=json     Log records as JSON lines\n" ++
    utf8 "  -v, -vv, -vvv         info, debug, trace\n" ++
    utf8 "  -q                    Errors only\n\n" ++
    utf8 "Environment:\n" ++
    utf8 "  LETC_LOG              Level or filter spec when no log option is given\n"

end LetBlocks.Cli
