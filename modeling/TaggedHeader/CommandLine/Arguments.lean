import TaggedHeader.Path

/-!
# Arguments of the command line

Arguments are options and operands, in any order. An option is written in full behind two hyphens or as a letter
behind one, letters may be joined, and the value of an option is the rest of its argument or the next argument.
No option may be given twice; behind two hyphens alone all arguments are operands.
-/

namespace TaggedHeader.CommandLine

/-- How the result of a check is written. -/
inductive OutputFormat where
  | text
  | json
deriving DecidableEq, Repr

/-- An option. -/
inductive OptionName where
  /-- The root of the project. -/
  | path
  /-- More is said about what is done. -/
  | verbose
  /-- Nothing is coloured. -/
  | noColor
  /-- Where the module interfaces go. -/
  | destination
  /-- Inclusions stay as they are. -/
  | noImplicit
  /-- Nothing is written. -/
  | dryRun
  /-- Differences are shown. -/
  | diff
  /-- How the result is written. -/
  | format
  /-- The usage is shown and nothing done. -/
  | help
  /-- The version is shown and nothing done. -/
  | version
deriving DecidableEq, Repr

/-- Where an option may stand. -/
inductive Place where
  /-- Before the command. -/
  | top
  /-- Behind the command `convert`. -/
  | convert
  /-- Behind the command `check`. -/
  | check
deriving DecidableEq, Repr

/-- The options that may stand at a place, with their long and their short names. -/
def Place.options : Place → List (OptionName × String × Option Char)
  | .top => shared ++ [(.version, "version", some 'V')]
  | .convert => shared ++ target ++ [(.dryRun, "dry-run", none)]
  | .check => shared ++ target ++ [(.diff, "diff", none), (.format, "format", none)]
where
  shared := [(.path, "path", some 'p'), (.verbose, "verbose", some 'v'),
    (.noColor, "no-color", none), (.help, "help", some 'h')]
  target := [(.destination, "dest", some 'o'), (.noImplicit, "no-implicit", some 'x')]

/-- Whether an option has a value. -/
def OptionName.takesValue : OptionName → Bool
  | .path | .destination | .format => true
  | _ => false

/-- What the arguments at one place say. -/
structure Settings where
  /-- The options given, with their values, the latest first. -/
  options : List (OptionName × Text)
  /-- The operands, in order. -/
  operands : List Text
deriving DecidableEq, Repr

/-- Why the arguments do not lead to a command being carried out. -/
inductive Stop where
  /-- The usage is asked for. -/
  | help
  /-- The version is asked for. -/
  | version
  /-- The arguments are wrong. -/
  | rejected
deriving DecidableEq, Repr

/-- Whether an option accepts a value: no value is empty, and a format is one of two words. -/
def OptionName.accepts : OptionName → Text → Bool
  | .format, value => value = "text".toList || value = "json".toList
  | _, value => value ≠ []

namespace Settings

/-- Whether an option is given. -/
def has (settings : Settings) (name : OptionName) : Bool := settings.options.any (·.1 == name)

/-- The value of an option that is given. -/
def value? (settings : Settings) (name : OptionName) : Option Text :=
  (settings.options.find? (·.1 == name)).map Prod.snd

/-- Adds an option, which must not be given yet. -/
def give (settings : Settings) (name : OptionName) (value : Text) : Except Stop Settings :=
  match name with
  | .help => .error .help
  | .version => .error .version
  | _ =>
    if settings.has name then .error .rejected
    else .ok { settings with options := (name, value) :: settings.options }

/-- Adds an option with a value, which must be one that the option accepts. -/
def giveValue (settings : Settings) (name : OptionName) (value : Text) : Except Stop Settings :=
  if name.accepts value then settings.give name value else .error .rejected

end Settings

/-- Whether an argument is an option, or the end of options, and no operand. A hyphen alone is an operand. -/
def looksLikeOption (argument : Text) : Bool := argument.head? = some '-' && argument ≠ ['-']

/-- The value for an option from the arguments behind it, with the arguments behind that. -/
def takeNext : List Text → Except Stop (Text × List Text)
  | [] => .error .rejected
  | next :: rest => if looksLikeOption next then .error .rejected else .ok (next, rest)

/-- An option with the value that stands in its own argument, if any, or else in the next one. -/
def readOption (settings : Settings) (name : OptionName) (attached : Option Text)
    (rest : List Text) : Except Stop (Settings × List Text) :=
  match name.takesValue, attached with
  | true, some value => do return (← settings.giveValue name value, rest)
  | true, none => do
    let (value, rest) ← takeNext rest
    return (← settings.giveValue name value, rest)
  | false, none => do return (← settings.give name [], rest)
  | false, some _ => .error .rejected

/-- Reads an option written in full, behind its hyphens. -/
def readLong (place : Place) (settings : Settings) (text : Text) (rest : List Text) :
    Except Stop (Settings × List Text) :=
  let name := text.takeWhile (· != '=')
  let attached := match text.dropWhile (· != '=') with
    | [] => none
    | _ :: value => some value
  match place.options.find? (·.2.1.toList == name) with
  | some (option, _) => readOption settings option attached rest
  | none => .error .rejected

/-- Reads options written as joined letters, behind their hyphen. What follows the letter of an option with a
value is the value, with or without an equals sign between them. -/
def readShort (place : Place) (settings : Settings) : Text → (rest : List Text) →
    Except Stop (Settings × List Text)
  | [], rest => .ok (settings, rest)
  | letter :: more, rest =>
    match place.options.find? (·.2.2 == some letter) with
    | none => .error .rejected
    | some (option, _) =>
      if option.takesValue then
        let attached := match more with
          | [] => none
          | '=' :: value => some value
          | value => some value
        readOption settings option attached rest
      else
        match settings.give option [] with
        | .error stop => .error stop
        | .ok settings => readShort place settings more rest

/-- What comes of the arguments at one place: what they say, and the first operand with the arguments behind it
if operands end the place. -/
abbrev Read := Settings × Option (Text × List Text)

/-- Reads the arguments at a place. Before the command, the first operand ends the place. -/
def readPlace (place : Place) (settings : Settings) (arguments : List Text) : Except Stop Read :=
  match arguments with
  | [] => .ok (settings, none)
  | ['-', '-'] :: rest =>
    if place = .top then
      if rest.isEmpty then .ok (settings, none) else .error .rejected
    else if rest.any (· == []) then .error .rejected
    else .ok ({ settings with operands := settings.operands ++ rest }, none)
  | argument :: rest =>
    let result := match argument with
      | '-' :: '-' :: text => readLong place settings text rest
      | '-' :: letter :: letters => readShort place settings (letter :: letters) rest
      | _ =>
        if argument = [] then .error .rejected
        else .ok ({ settings with operands := settings.operands ++ [argument] }, rest)
    if place = .top && !looksLikeOption argument then .ok (settings, some (argument, rest))
    else match result with
      | .error stop => .error stop
      | .ok (settings, remaining) =>
        if remaining.length ≤ rest.length then readPlace place settings remaining
        else .error .rejected
termination_by arguments.length
decreasing_by simp only [List.length_cons]; omega

/-- Which headers to convert, and how. -/
structure Target where
  /-- Headers and directories; the whole project if there are none. -/
  inputs : List Path
  destination : Option Path
  noImplicit : Bool
deriving DecidableEq, Repr

/-- What is to be done. -/
inductive Command where
  /-- Headers are converted. -/
  | convert (target : Target) (dryRun : Bool)
  /-- Module interfaces are compared with what their headers yield. -/
  | check (target : Target) (diff : Bool) (format : OutputFormat)
deriving DecidableEq, Repr

/-- What the arguments of the command line say. -/
structure Arguments where
  command : Option Command
  path : Option Path
  verbose : Bool
  noColor : Bool
deriving DecidableEq, Repr

/-- The headers that the arguments of a command name. -/
def Settings.target (settings : Settings) : Target :=
  { inputs := settings.operands.map (⟨·⟩)
    destination := (settings.value? .destination).map (⟨·⟩)
    noImplicit := settings.has .noImplicit }

/-- Whether the arguments behind `help` name something to explain: nothing, or one of the commands. -/
def isHelpTopic : List Text → Bool
  | [] => true
  | [name] => ["convert", "check", "help"].any (·.toList == name)
  | _ => false

/-- Reads the arguments of the command line. Options for all commands may stand before or behind the command;
where both give a value, the one behind counts. -/
def Arguments.parse (arguments : List Text) : Except Stop Arguments := do
  let (top, rest) ← readPlace .top ⟨[], []⟩ arguments
  let ofSettings (command : Option Command) (inner : Settings) : Arguments :=
    { command
      path := ((inner.value? .path).orElse fun _ => top.value? .path).map (⟨·⟩)
      verbose := inner.has .verbose || top.has .verbose
      noColor := inner.has .noColor || top.has .noColor }
  match rest with
  | none => return ofSettings none ⟨[], []⟩
  | some (name, rest) =>
    if name = "convert".toList then
      let (inner, _) ← readPlace .convert ⟨[], []⟩ rest
      return ofSettings (some (.convert inner.target (inner.has .dryRun))) inner
    else if name = "check".toList then
      let (inner, _) ← readPlace .check ⟨[], []⟩ rest
      let format := if inner.value? .format = some "json".toList then .json else .text
      return ofSettings (some (.check inner.target (inner.has .diff) format)) inner
    else if name = "help".toList && isHelpTopic rest then throw .help
    else throw .rejected

end TaggedHeader.CommandLine
