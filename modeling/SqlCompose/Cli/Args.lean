import SqlCompose.Text.Numeral

/-! Arguments of the command line. A flag with a value takes it from the next argument or from
behind an equals sign. -/

namespace SqlCompose.Cli

inductive HelpTopic where
  | root
  | tokenize
  | format
  deriving DecidableEq

structure Inputs where
  config : Text
  file : Option Text
  deriving DecidableEq

inductive Command where
  | help (topic : HelpTopic)
  | tokenize (inputs : Inputs) (json : Bool)
  | format (inputs : Inputs) (extra : Nat)
  deriving DecidableEq

def Command.inputs? : Command → Option Inputs
  | help _ => none
  | tokenize i _ => some i
  | format i _ => some i

inductive ArgFault where
  | unknownCommand (name : Text)
  | unknownArgument (arg : Text)
  | noValue (flag : Text)
  | secondFile (first second : Text)
  | badIndent (given : Text)
  deriving DecidableEq

def configFlag : Text := "--config"

def indentFlag : Text := "--extra-indent"

def ArgFault.message : ArgFault → Text
  | unknownCommand name => "unknown command: " ++ name
  | unknownArgument arg => "unknown argument: " ++ arg
  | noValue flag => flag ++ " requires a value"
  | secondFile first second =>
    "only one input file is accepted (got " ++ first ++ " and " ++ second ++ [')']
  | badIndent given => indentFlag ++ " must be a non-negative integer, got: " ++ given

def defaultConfig : Text := "typedsql.toml"

def Inputs.defaults : Inputs :=
  ⟨defaultConfig, none⟩

def Inputs.setFile (i : Inputs) (arg : Text) : Except ArgFault Inputs :=
  match i.file with
  | some first => .error (.secondFile first arg)
  | none => .ok { i with file := some arg }

def isHelpFlag (arg : Text) : Bool :=
  arg == "-h".toList || arg == "--help".toList

/-- An argument that is neither a flag of the command nor one with a value: a dash stands for
standard input, and anything that begins with a dash is refused. -/
def Inputs.takeOther (i : Inputs) (arg : Text) : Except ArgFault Inputs :=
  if arg = ['-'] then .ok i
  else if arg.head? = some '-' then .error (.unknownArgument arg)
  else i.setFile arg

/-- Drops all repetitions of `lead` at the front of a text. -/
def dropLeads (lead s : Text) : Text :=
  match _h : Text.stripLead lead s with
  | none => s
  | some rest => if rest.length < s.length then dropLeads lead rest else s
  termination_by s.length

def readIndent (value : Text) : Except ArgFault Nat :=
  match Numeral.readSize value with
  | some n => .ok n
  | none => .error (.badIndent value)

def parseTokenize (i : Inputs) (json : Bool) : List Text → Except ArgFault Command
  | [] => .ok (.tokenize i json)
  | arg :: rest =>
    if arg = configFlag then
      match rest with
      | [] => .error (.noValue configFlag)
      | value :: rest => parseTokenize { i with config := value } json rest
    else
      match Text.stripLead (configFlag ++ ['=']) arg with
      | some value => parseTokenize { i with config := value } json rest
      | none =>
        if isHelpFlag arg then .ok (.help .tokenize)
        else if arg = "--json".toList then parseTokenize i true rest
        else
          match i.takeOther arg with
          | .error e => .error e
          | .ok i => parseTokenize i json rest

def parseFormat (i : Inputs) (extra : Nat) : List Text → Except ArgFault Command
  | [] => .ok (.format i extra)
  | arg :: rest =>
    if arg = configFlag then
      match rest with
      | [] => .error (.noValue configFlag)
      | value :: rest => parseFormat { i with config := value } extra rest
    else
      match Text.stripLead (configFlag ++ ['=']) arg with
      | some value => parseFormat { i with config := value } extra rest
      | none =>
        if isHelpFlag arg then .ok (.help .format)
        else if arg = indentFlag then
          match rest with
          | [] => .error (.noValue indentFlag)
          | value :: rest =>
            match readIndent value with
            | .error e => .error e
            | .ok extra => parseFormat i extra rest
        else if (Text.stripLead (indentFlag ++ ['=']) arg).isSome then
          match readIndent (dropLeads (indentFlag ++ ['=']) arg) with
          | .error e => .error e
          | .ok extra => parseFormat i extra rest
        else
          match i.takeOther arg with
          | .error e => .error e
          | .ok i => parseFormat i extra rest

def parseArgs : List Text → Except ArgFault Command
  | [] => .ok (.help .root)
  | name :: rest =>
    if isHelpFlag name || name == "help".toList then .ok (.help .root)
    else if name = "tokenize" then parseTokenize .defaults false rest
    else if name = "fmt" then parseFormat .defaults 0 rest
    else .error (.unknownCommand name)

end SqlCompose.Cli
