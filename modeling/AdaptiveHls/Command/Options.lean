/-!
# Options and operands

A command has options, operands and perhaps subcommands. Its words are read one by one. A word that
an option waits for, or an operand, is not looked at before the next option or operand comes or the
words end; until then it is pending. So an option that is not known is complained about before a
bad value in front of it is.
-/

namespace AdaptiveHls

/-- Why a command line is refused, or what it asks for in place of being carried out. -/
inductive UsageError where
  | displayHelp
  | displayHelpOnMissing
  | displayVersion
  | invalidValue
  | valueValidation
  | tooManyValues
  | unknownArgument
  | invalidSubcommand
  | missingSubcommand
  | missingArgument
  | conflict
  deriving DecidableEq, Repr

namespace UsageError

def isAnswer : UsageError → Bool
  | displayHelp => true
  | displayVersion => true
  | _ => false

def message : UsageError → String
  | displayHelp => "inspect [--segments] URL, or follow [--max-bandwidth N] URL"
  | displayHelpOnMissing => "a command is needed: inspect or follow"
  | displayVersion => "1.0"
  | invalidValue => "an option has no value"
  | valueValidation => "a value does not fit"
  | tooManyValues => "a value for an option that takes none"
  | unknownArgument => "an unknown argument"
  | invalidSubcommand => "an unknown command"
  | missingSubcommand => "no command"
  | missingArgument => "no address"
  | conflict => "an option that is given twice"

end UsageError

inductive ParameterKind where
  /-- Present or not. -/
  | flag
  /-- With a value, once. -/
  | single
  /-- With a value, any number of times. -/
  | repeated
  | help
  | version
  deriving DecidableEq, Repr

structure Parameter where
  name : String
  short : Option Char := none
  kind : ParameterKind
  /-- What is wrong with a value. -/
  fault : String → Option UsageError := fun _ => none

/-- A command as the reader of its words sees it. -/
structure Usage where
  options : List Parameter
  operand : Option Parameter := none
  subcommands : List String := []

structure Reading where
  /-- The parameters met so far and their values; a flag has none. -/
  given : List (String × Option String) := []
  /-- A parameter that has not been looked at, with its value if it has come. -/
  pending : Option (Parameter × Option String) := none
  operandTaken : Bool := false
  /-- Whether all further words are operands. -/
  operandsOnly : Bool := false

structure Subcommand where
  name : String
  words : List String
  deriving DecidableEq, Repr

namespace Reading

def expectsValue (r : Reading) : Bool :=
  match r.pending with
  | some (_, none) => true
  | _ => false

def isGiven (r : Reading) (p : Parameter) : Bool := r.given.any (·.1 == p.name)

def accept (r : Reading) (p : Parameter) (value : Option String) : Except UsageError Reading :=
  match p.kind, value with
  | .help, _ => .error .displayHelp
  | .version, _ => .error .displayVersion
  | .flag, _ =>
    if r.isGiven p then .error .conflict else .ok { r with given := r.given ++ [(p.name, none)] }
  | _, none => .error .invalidValue
  | kind, some v =>
    if kind = .single && r.isGiven p then .error .conflict
    else match p.fault v with
      | some e => .error e
      | none => .ok { r with given := r.given ++ [(p.name, some v)] }

def resolve (r : Reading) : Except UsageError Reading :=
  match r.pending with
  | some (p, value) => { r with pending := none }.accept p value
  | none => .ok r

def takesValue (p : Parameter) : Bool := p.kind = .single || p.kind = .repeated

def option (r : Reading) (p : Parameter) (attached : Option String) :
    Except UsageError Reading := do
  let r ← r.resolve
  if takesValue p then
    match attached with
    | some v => r.accept p (some v)
    | none => return { r with pending := some (p, none) }
  else r.accept p none

end Reading

namespace Usage

/-- The name and the attached value of a long option, behind its two dashes. -/
def splitLong : List Char → List Char × Option (List Char)
  | [] => ([], none)
  | c :: rest =>
    if c == '=' then ([], some rest)
    else
      let (name, value) := splitLong rest
      (c :: name, value)

def readLong (u : Usage) (r : Reading) (word : List Char) : Except UsageError Reading :=
  let (name, attached) := splitLong word
  match u.options.find? (·.name == String.ofList name) with
  | none => .error .unknownArgument
  | some p =>
    if attached.isSome && !Reading.takesValue p then .error .tooManyValues
    else r.option p (attached.map String.ofList)

/-- What is attached to a short option; an equals sign in front is not part of it. -/
def attachedValue : List Char → Option String
  | [] => none
  | '=' :: rest => some (String.ofList rest)
  | rest => some (String.ofList rest)

def readShort (u : Usage) (r : Reading) : List Char → Except UsageError Reading
  | [] => .ok r
  | c :: rest =>
    match u.options.find? (·.short == some c) with
    | none => .error .unknownArgument
    | some p =>
      if Reading.takesValue p then r.option p (attachedValue rest)
      else do readShort u (← r.option p none) rest

/-- What is wrong with a word for which there is no operand. -/
def surplus (u : Usage) (r : Reading) (word : String) : UsageError :=
  if u.subcommands.isEmpty || (r.operandsOnly && u.subcommands.contains word) then .unknownArgument
  else .invalidSubcommand

def readOperand (u : Usage) (r : Reading) (word : String) : Except UsageError Reading :=
  match u.operand, r.operandTaken with
  | some p, false => do
    let r ← r.resolve
    return { r with pending := some (p, some word), operandTaken := true }
  | _, _ => .error (u.surplus r word)

def readWord (u : Usage) (r : Reading) (word : String) : Except UsageError Reading :=
  if r.operandsOnly then u.readOperand r word
  else match word.toList with
    | ['-', '-'] => .ok { r with operandsOnly := true }
    | '-' :: '-' :: rest => u.readLong r rest
    | '-' :: c :: rest => u.readShort r (c :: rest)
    | _ =>
      match r.pending with
      | some (p, none) => .ok { r with pending := some (p, some word) }
      | _ => u.readOperand r word

def read (u : Usage) (r : Reading) : List String → Except UsageError (Reading × Option Subcommand)
  | [] => do return (← r.resolve, none)
  | word :: rest =>
    if !r.operandsOnly && !r.expectsValue && u.subcommands.contains word then
      if word == "help" then .ok (r, some ⟨word, rest⟩)
      else do return (← r.resolve, some ⟨word, rest⟩)
    else do u.read (← u.readWord r word) rest

end Usage

namespace Reading

def values (r : Reading) (name : String) : List String :=
  (r.given.filter (·.1 == name)).filterMap (·.2)

def has (r : Reading) (name : String) : Bool := r.given.any (·.1 == name)

end Reading

end AdaptiveHls
