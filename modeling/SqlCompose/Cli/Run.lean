import SqlCompose.Cli.Help
import SqlCompose.Cli.TokenList
import SqlCompose.Config.Project
import SqlCompose.Render.Format

/-! What the command line does, as a function of its arguments and of what it finds around it. -/

namespace SqlCompose.Cli

inductive ReadFault where
  | notFound
  | notDirectory
  | isDirectory
  | notText
  | other (reason : Text)
  deriving DecidableEq

def ReadFault.message : ReadFault → Text
  | notFound => "No such file or directory (os error 2)"
  | notDirectory => "Not a directory (os error 20)"
  | isDirectory => "Is a directory (os error 21)"
  | notText => "stream did not contain valid UTF-8"
  | other reason => reason

/-- What a run finds: files by path, standard input, and the variables of the environment. -/
structure Surroundings where
  file : Text → Except ReadFault Text
  input : Except ReadFault Text
  getVar : Text → Option Text

inductive CliError where
  | args (fault : ArgFault)
  | configFile (path : Text) (fault : ReadFault)
  | config (path : Text) (fault : ProjectFault)
  | sourceFile (path : Text) (fault : ReadFault)
  | input (fault : ReadFault)
  | noSql
  | sql (source : Text) (e : SqlError)

def CliError.message : CliError → Text
  | args fault => fault.message
  | configFile path fault => "failed to read config file " ++ path ++ ": " ++ fault.message
  | config path fault => "invalid config file " ++ path ++ ": " ++ fault.message
  | sourceFile path fault => "failed to read " ++ path ++ ": " ++ fault.message
  | input fault => "failed to read stdin: " ++ fault.message
  | noSql => "no SQL provided (pass a file or pipe SQL to stdin)"
  | sql source e => source ++ ": " ++ e.message

def splitSlashes : Text → List Text
  | [] => [[]]
  | c :: s =>
    if c = '/' then [] :: splitSlashes s
    else
      match splitSlashes s with
      | [] => [[c]]
      | piece :: rest => (c :: piece) :: rest

/-- The components of a path: empty ones do not count, nor does a dot behind the first. -/
def pathComponents (path : Text) : List Text :=
  match splitSlashes path with
  | [] => []
  | first :: rest =>
    let later := rest.filter fun p => p ≠ [] ∧ p ≠ ['.']
    if path = [] then []
    else if first = [] then ['/'] :: later
    else first :: later

/-- Loads the project file. It may be missing where it is looked for by default. -/
def loadConfig (s : Surroundings) (path : Text) : Except CliError ProjectConfig :=
  let content := s.file path
  let isMissing := match content with
    | .error .notFound | .error .notDirectory => true
    | _ => false
  if isMissing && pathComponents path == [defaultConfig] then .ok .defaults
  else
    match content with
    | .error fault => .error (.configFile path fault)
    | .ok text => (ProjectConfig.parse s.getVar text).mapError (.config path)

def readSource (s : Surroundings) (file : Option Text) : Except CliError Text := do
  let text ← match file with
    | some path => (s.file path).mapError (.sourceFile path)
    | none => s.input.mapError .input
  if text.isAllBlank then .error .noSql else .ok text

def sourceLabel (file : Option Text) : Text :=
  file.getD "stdin"

def withSource (s : Surroundings) (i : Inputs) (f : RenderConfig → Text → Except SqlError Text) :
    Except CliError Text := do
  let config ← loadConfig s i.config
  let sql ← readSource s i.file
  (f config.render sql).mapError (.sql (sourceLabel i.file))

def run (s : Surroundings) (args : List Text) : Except CliError Text := do
  match ← (parseArgs args).mapError .args with
  | .help topic => .ok (helpText topic)
  | .tokenize inputs json =>
    withSource s inputs fun c sql => do
      let tokens ← SqlCompose.tokenize c.maxTokens sql
      .ok (if json then tokenJson tokens else tokenTable tokens)
  | .format inputs extra => withSource s inputs fun c sql => formatFragment c extra sql

structure Ending where
  exit : Nat
  output : Text
  errors : Text
  deriving DecidableEq

def ending (s : Surroundings) (args : List Text) : Ending :=
  match run s args with
  | .ok output => ⟨0, output, []⟩
  | .error e => ⟨1, [], e.message ++ ['\n']⟩

end SqlCompose.Cli
