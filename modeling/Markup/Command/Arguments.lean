import Markup.Text.Decimal

/-!
# Command line arguments

The program has two commands, each with options of its own, and a few options that may stand
anywhere. An option with a value takes it behind an equals sign or as the next argument, which then
must not look like an option. No option may be given twice.
-/

namespace Markup.Command

/-! ## Options -/

/-- The options that were given. -/
structure Options where
  verbose : Bool := false
  debug : Bool := false
  settings : Option String := none
  width : Option Nat := none
  indent : Option Nat := none
  range : Option String := none
  inPlace : Bool := false
  colour : Bool := false
  file : Option String := none
  deriving DecidableEq, Repr, Inhabited

/-- What the program is asked to do. -/
inductive Verb where
  | check
  | format
  deriving DecidableEq, Repr, Inhabited

def Verb.name : Verb → String
  | check => "check"
  | format => "format"

/-- Why reading arguments ends before they do: they are wrong, or something is asked for that takes
the place of the command. -/
inductive Stop where
  | usage
  | help
  | version
  deriving DecidableEq, Repr, Inhabited

/-- An option without a value. -/
inductive Switch where
  | verbose
  | debug
  | inPlace
  | colour
  | help
  | version
  deriving DecidableEq, Repr, Inhabited

/-- An option with a value. -/
inductive Setting where
  | settings
  | width
  | indent
  | range
  deriving DecidableEq, Repr, Inhabited

/-- The switches of the program as such, by their long names. -/
def programSwitches : List (String × Switch) :=
  [("verbose", .verbose), ("debug", .debug), ("help", .help), ("version", .version)]

/-- The switches of a command, or of the program as such, by their long names. -/
def switches : Option Verb → List (String × Switch)
  | some .format => programSwitches ++ [("in-place", .inPlace), ("raw-control-chars", .colour)]
  | some .check => programSwitches
  | none => programSwitches

/-- The switches of the program as such, by their short names. -/
def shortProgramSwitches : List (Char × Switch) :=
  [('v', .verbose), ('h', .help), ('V', .version)]

/-- The switches of a command, or of the program as such, by their short names. -/
def shortSwitches : Option Verb → List (Char × Switch)
  | some .format => ('R', .colour) :: shortProgramSwitches
  | some .check => shortProgramSwitches
  | none => shortProgramSwitches

/-- The options with a value of a command, by their names. -/
def valueOptions : Option Verb → List (String × Setting)
  | some .format =>
      [("settings", .settings), ("width", .width), ("indent", .indent), ("range", .range)]
  | some .check => [("settings", .settings)]
  | none => []

namespace Options

/-- Throws a switch, which has to be off. -/
def throw (options : Options) : Switch → Except Stop Options
  | .verbose => if options.verbose then .error .usage else .ok { options with verbose := true }
  | .debug => if options.debug then .error .usage else .ok { options with debug := true }
  | .inPlace => if options.inPlace then .error .usage else .ok { options with inPlace := true }
  | .colour => if options.colour then .error .usage else .ok { options with colour := true }
  | .help => .error .help
  | .version => .error .version

/-- Gives an option a value, which it must not have yet. -/
def give (options : Options) (setting : Setting) (value : String) : Except Stop Options :=
  let number := Text.natural? value.toList
  match setting with
  | .settings =>
      if options.settings.isSome then .error .usage
      else .ok { options with settings := some value }
  | .range =>
      if options.range.isSome then .error .usage else .ok { options with range := some value }
  | .width =>
      if options.width.isSome || number.isNone then .error .usage
      else .ok { options with width := number }
  | .indent =>
      if options.indent.isSome || number.isNone then .error .usage
      else .ok { options with indent := number }

/-- Takes the name of the file, of which there is one. -/
def name (options : Options) (file : String) : Except Stop Options :=
  if options.file.isSome then .error .usage else .ok { options with file := some file }

/-- Throws the switches of a cluster of short names. -/
def throwShort (verb : Option Verb) (options : Options) (cluster : List Char) :
    Except Stop Options :=
  cluster.foldlM (fun options c =>
    match (shortSwitches verb).lookup c with
    | some switch => options.throw switch
    | none => .error .usage) options

end Options

/-! ## Reading arguments -/

/-- An argument by its looks. -/
inductive Shape where
  | separator
  | long (name : String) (value : Option String)
  | short (cluster : List Char)
  | plain (text : String)
  deriving DecidableEq, Repr, Inhabited

/-- How an argument looks. A single hyphen is a plain argument. -/
def shape (argument : String) : Shape :=
  match argument.toList with
  | ['-', '-'] => .separator
  | '-' :: '-' :: rest =>
      let name := String.ofList (rest.takeWhile (· != '='))
      match rest.dropWhile (· != '=') with
      | [] => .long name none
      | _ :: value => .long name (some (String.ofList value))
  | '-' :: c :: rest => .short (c :: rest)
  | _ => .plain argument

/-- Reads the arguments of a command. -/
def readOptions (verb : Verb) (options : Options) : List String → Except Stop Options
  | [] => .ok options
  | argument :: rest =>
      match shape argument with
      | .separator => rest.foldlM Options.name options
      | .plain file => do
          let named ← options.name file
          readOptions verb named rest
      | .short cluster => do
          let thrown ← options.throwShort (some verb) cluster
          readOptions verb thrown rest
      | .long name attached =>
          match (switches (some verb)).lookup name, attached with
          | some switch, none => do
              let thrown ← options.throw switch
              readOptions verb thrown rest
          | some _, some _ => .error .usage
          | none, some value =>
              match (valueOptions (some verb)).lookup name with
              | some setting => do
                  let given ← options.give setting value
                  readOptions verb given rest
              | none => .error .usage
          | none, none =>
              match (valueOptions (some verb)).lookup name with
              | some setting =>
                  match rest with
                  | next :: others =>
                      match shape next with
                      | .plain value => do
                          let given ← options.give setting value
                          readOptions verb given others
                      | _ => .error .usage
                  | [] => .error .usage
              | none => .error .usage

/-- What a command line asks for. -/
inductive Request where
  /-- Nothing in particular. -/
  | nothing
  | run (verb : Verb) (file : String) (options : Options)
  /-- Something in place of a command, perhaps about a command. -/
  | stopped (reason : Stop) (verb : Option Verb)
  deriving DecidableEq, Repr, Inhabited

/-- The command with the given name. -/
def verb? (name : String) : Option Verb :=
  [Verb.check, Verb.format].find? (·.name == name)

/-- Reads the arguments behind the name of a command, which needs a file. -/
def readCommand (verb : Verb) (arguments : List String) : Request :=
  match readOptions verb {} arguments with
  | .error reason => .stopped reason (some verb)
  | .ok options =>
      match options.file with
      | none => .stopped .usage (some verb)
      | some file => .run verb file options

/-- Reads a command line. -/
def readArguments (options : Options) : List String → Request
  | [] => .nothing
  | argument :: rest =>
      match shape argument with
      | .separator => if rest.isEmpty then .nothing else .stopped .usage none
      | .plain name =>
          match verb? name with
          | some verb => readCommand verb rest
          | none => .stopped .usage none
      | .short cluster =>
          match options.throwShort none cluster with
          | .ok thrown => readArguments thrown rest
          | .error reason => .stopped reason none
      | .long name attached =>
          match (switches none).lookup name, attached with
          | some switch, none =>
              match options.throw switch with
              | .ok thrown => readArguments thrown rest
              | .error reason => .stopped reason none
          | _, _ => .stopped .usage none

/-- The request that a command line makes. -/
def request (arguments : List String) : Request :=
  readArguments {} arguments

end Markup.Command
