import AdaptiveHls.Command.Options
import AdaptiveHls.Url.Parser

/-!
# The command line

Two commands, one to print what a playlist holds and one to follow a live playlist, under common
options. A command line that does not fit is refused for one reason.
-/

namespace AdaptiveHls

inductive Command where
  | inspect (url : Url) (segments : Bool)
  | follow (url : Url) (maxBandwidth : Option Nat)
  deriving DecidableEq, Repr

structure Arguments where
  config : Option String
  cookies : List String
  command : Command
  deriving DecidableEq, Repr

namespace Arguments

def helpOption : Parameter := { name := "help", short := some 'h', kind := .help }

def urlOperand : Parameter where
  name := "url"
  kind := .single
  fault v := match Url.parse v with
    | .ok _ => none
    | .error _ => some .valueValidation

def bandwidth? (v : String) : Option Nat := Number.wholeCount? Count.greatest v.toList

def topUsage : Usage where
  options := [
    { name := "config", short := some 'c', kind := .single,
      fault := fun v => if v.isEmpty then some .invalidValue else none },
    { name := "cookies", kind := .repeated },
    helpOption,
    { name := "version", short := some 'V', kind := .version }]
  subcommands := ["inspect", "follow", "help"]

def inspectUsage : Usage where
  options := [{ name := "segments", kind := .flag }, helpOption]
  operand := some urlOperand

def followUsage : Usage where
  options := [
    { name := "max-bandwidth", kind := .single,
      fault := fun v => if (bandwidth? v).isNone then some .valueValidation else none },
    helpOption]
  operand := some urlOperand

/-- What the words after `help` lead to: the help for a command that exists. -/
def helpFor : List String → UsageError
  | [] => .displayHelp
  | [word] => if topUsage.subcommands.contains word then .displayHelp else .invalidSubcommand
  | "help" :: rest => helpFor rest
  | _ => .invalidSubcommand

def readCommand (u : Usage) (words : List String) : Except UsageError (Reading × Url) := do
  let (r, _) ← u.read {} words
  match (r.values "url").head?.map Url.parse with
  | some (.ok url) => return (r, url)
  | some (.error _) => throw .valueValidation
  | none => throw .missingArgument

def readSubcommand (sub : Subcommand) : Except UsageError Command :=
  match sub.name with
  | "inspect" => do
    let (r, url) ← readCommand inspectUsage sub.words
    return .inspect url (r.has "segments")
  | "follow" => do
    let (r, url) ← readCommand followUsage sub.words
    return .follow url ((r.values "max-bandwidth").head?.bind bandwidth?)
  | _ => .error (helpFor sub.words)

def read (words : List String) : Except UsageError Arguments := do
  let (r, sub) ← topUsage.read {} words
  match sub with
  | some sub =>
    let command ← readSubcommand sub
    return { config := (r.values "config").head?, cookies := r.values "cookies", command }
  | none => throw (if r.given.isEmpty then .displayHelpOnMissing else .missingSubcommand)

end Arguments

end AdaptiveHls
