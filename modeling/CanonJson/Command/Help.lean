import CanonJson.Text.CodePoint
/-!
# Help texts
-/

namespace CanonJson.Command

def programName : String := "jsonsrt"

def versionText : String := "jsonsrt 1.0.0\n"

def usageText : String :=
"usage: jsonsrt [-h] [--version] [--no-sort-keys]
               [--key-order \x7bcodepoint,utf16\x7d] [--sort-by-value KEY]
               [--indent INDENT] [--compact] [--no-trailing-newline]
               [--normalize-numbers] [--ascii] [--rfc8785] [--check]
               [--digest] [--max-depth MAX_DEPTH] [--jobs JOBS] [--quiet]
               [--verbose] [--log-json]
               [FILE ...]"

/-- What the program does and what its options mean. -/
def detailsText : String :=
"

Sort JSON contents into a deterministic, canonical layout. Reads stdin and
writes stdout unless FILE arguments are given, in which case each file is
rewritten in place.

positional arguments:
  FILE                  Files to process, otherwise uses stdin/stdout

options:
  -h, --help            show this help message and exit
  --version             show program's version number and exit

ordering:
  --no-sort-keys        Keep object members in input order
  --key-order \x7bcodepoint,utf16\x7d
                        Key comparison: codepoint (default) or utf16 (RFC
                        8785)
  --sort-by-value KEY   Sort arrays by the value of member KEY, compared by
                        type then value (numbers numerically). Elements that
                        are not objects or lack KEY move to the end of the
                        array, keeping their relative order

layout:
  --indent INDENT       Spaces per level, 'tab', or 'none' for single-line
                        output (default: 2)
  --compact             No space after ':' (or after ',' on single-line
                        output)
  --no-trailing-newline
                        Do not end output with a newline
  --normalize-numbers   Render numbers in normalized form instead of as
                        written
  --ascii               Escape all non-ASCII characters as \\uXXXX
  --rfc8785             RFC 8785 preset: utf16 key order, single line,
                        compact, normalized numbers

behaviour:
  --check               Do not rewrite files; exit 1 if any file is not
                        already canonical
  --digest              Print the sha256 digest of the canonical output
                        instead of the output
  --max-depth MAX_DEPTH
                        Maximum nesting depth (default: 512)
  --jobs JOBS           Number of files processed in parallel
  --quiet               Suppress all non-error output.
  --verbose             Log per-file progress to stderr.
  --log-json            Emit log records as JSON lines.
"

def helpText : String := usageText ++ detailsText

end CanonJson.Command
