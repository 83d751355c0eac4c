import SqlCompose.Cli.Args

/-! The help texts of the command line. -/

namespace SqlCompose.Cli

def rootHelp : Text := "typedsql - tools for raw SQL fragments

USAGE:
  typedsql <COMMAND> [OPTIONS]

COMMANDS:
  tokenize   Split a SQL fragment into tokens
  fmt        Re-indent a SQL fragment the way the renderer embeds it

Run `typedsql <COMMAND> --help` for command options.

ENVIRONMENT:
  TYPEDSQL_LOG   tracing filter, e.g. typedsql=trace
"

def tokenizeHelp : Text := "typedsql tokenize - split a SQL fragment into tokens

USAGE:
  typedsql tokenize [FILE] [OPTIONS]

Reads stdin when FILE is omitted or `-`.

OPTIONS:
  --config <FILE>   Config file path (default: typedsql.toml, optional)
  --json            Print tokens as JSON
  -h, --help        Print help
"

def formatHelp : Text := "typedsql fmt - re-indent a SQL fragment

USAGE:
  typedsql fmt [FILE] [OPTIONS]

Reads stdin when FILE is omitted or `-`. The fragment is checked with the
tokenizer, stripped of its common indentation, and printed with continuation
lines shifted right by one column plus the extra indent.

OPTIONS:
  --config <FILE>          Config file path (default: typedsql.toml, optional)
  --extra-indent <N>       Additional continuation indent (default: 0)
  -h, --help               Print help
"

def helpText : HelpTopic → Text
  | .root => rootHelp
  | .tokenize => tokenizeHelp
  | .format => formatHelp

end SqlCompose.Cli
