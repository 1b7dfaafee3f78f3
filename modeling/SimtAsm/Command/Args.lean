import SimtAsm.Text.Basic

namespace SimtAsm

/-- How many values an option takes: none, one, or every value up to the next option. -/
inductive OptionArity
  | flag
  | one
  | many
  deriving DecidableEq, Repr

/-- An option in its long spelling, with a short one if it has one. -/
structure OptionSpec where
  name : Text
  short? : Option Text
  arity : OptionArity
  deriving DecidableEq, Repr

/-- One argument by itself. -/
inductive Arg
  | value (text : Text)
  | option (spelling : Text) (attached? : Option Text)
  deriving DecidableEq, Repr

def Arg.ofText : Text → Arg
  | '-' :: '-' :: rest =>
    let spelling := '-' :: '-' :: rest.takeWhile (· != '=')
    match rest.dropWhile (· != '=') with
    | [] => .option spelling none
    | _ :: attached => .option spelling (some attached)
  | ['-'] => .value ['-']
  | '-' :: rest => .option ('-' :: rest) none
  | text => .value text

/-- An argument in its place. Options carry their long spelling. -/
inductive Item
  | flag (name : Text)
  | setting (name value : Text)
  | positional (value : Text)
  deriving DecidableEq, Repr

/-- The items before a subcommand, and the subcommand with the arguments behind it. -/
structure CommandLine where
  items : List Item
  subcommand? : Option (Text × List Text)
  deriving DecidableEq, Repr

/-- The options of a command and the names of its subcommands. -/
structure Grammar where
  options : List OptionSpec
  subcommands : List Text

namespace Grammar

def find? (grammar : Grammar) (spelling : Text) : Option OptionSpec :=
  grammar.options.find? fun spec => spec.name == spelling || spec.short? == some spelling

/-- Puts an item in front of a command line that was read. -/
def consItem (item : Item) (line? : Option CommandLine) : Option CommandLine :=
  line?.map fun line => { line with items := item :: line.items }

/-- Reads arguments, where `filling?` is the option that further values belong to. A long option takes its value from the
next argument or behind an equals sign, a short one from the next argument, and a value does not start with a dash, save
for the dash alone. An unknown option, a flag with a value and an option without one are refused. -/
def readFrom (grammar : Grammar) (filling? : Option Text) : List Text → Option CommandLine
  | [] => some ⟨[], none⟩
  | arg :: rest =>
    match Arg.ofText arg with
    | .value text =>
      match filling? with
      | some name => consItem (.setting name text) (grammar.readFrom filling? rest)
      | none =>
        if text ∈ grammar.subcommands then some ⟨[], some (text, rest)⟩
        else consItem (.positional text) (grammar.readFrom none rest)
    | .option spelling attached? =>
      match grammar.find? spelling with
      | none => none
      | some spec =>
        match spec.arity, attached? with
        | .flag, none => consItem (.flag spec.name) (grammar.readFrom none rest)
        | .flag, some _ => none
        | .one, some value | .many, some value =>
          consItem (.setting spec.name value) (grammar.readFrom none rest)
        | arity, none =>
          match rest with
          | [] => none
          | next :: rest =>
            match Arg.ofText next with
            | .value value =>
              let filling? := if arity = .many then some spec.name else none
              consItem (.setting spec.name value) (grammar.readFrom filling? rest)
            | .option .. => none

def read (grammar : Grammar) (args : List Text) : Option CommandLine := grammar.readFrom none args

end Grammar

namespace CommandLine

def positionals (line : CommandLine) : List Text :=
  line.items.filterMap fun
    | .positional value => some value
    | _ => none

/-- The values of an option in order. -/
def values (line : CommandLine) (name : Text) : List Text :=
  line.items.filterMap fun
    | .setting given value => if given = name then some value else none
    | _ => none

/-- The value of an option that may be given once at most; refused when it is given again. -/
def setting? (line : CommandLine) (name : Text) : Option (Option Text) :=
  match line.values name with
  | [] => some none
  | [value] => some (some value)
  | _ => none

/-- Whether a flag is given; refused when it is given again. -/
def flag? (line : CommandLine) (name : Text) : Option Bool :=
  match line.items.count (.flag name) with
  | 0 => some false
  | 1 => some true
  | _ => none

end CommandLine

end SimtAsm
