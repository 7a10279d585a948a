import AdaptiveHls.Command.Arguments
import AdaptiveHls.Command.Follow
import AdaptiveHls.Settings.Read

/-!
# The program

The address of a playlist is an argument, and its data come from standard input. What is found in
them goes to standard output, one line each.
-/

namespace AdaptiveHls.Program

def loadConfig : Option String → IO Config
  | none => pure {}
  | some path => do
    match Config.read? (← IO.FS.readFile path) with
    | some config => pure config
    | none => throw (IO.userError (path ++ " holds no settings"))

partial def readAll (input : IO.FS.Stream) (before : ByteArray) : IO ByteArray := do
  let chunk ← input.read 65536
  if chunk.isEmpty then pure before else readAll input (before ++ chunk)

def answer (command : Command) (config : Config) (data : List UInt8) :
    Except Failure (List String) :=
  match command with
  | .inspect url segments => (Playlist.ofBytes url data).map (Report.lines · segments)
  | .follow url most => do
    Follow.firstLines (← Playlist.ofBytes url data) data most config.tracker

def run (a : Arguments) : IO UInt32 := do
  let config ← loadConfig a.config
  let data ← readAll (← IO.getStdin) .empty
  match answer a.command config data.toList with
  | .ok lines =>
    for line in lines do IO.println line
    return 0
  | .error e =>
    IO.eprintln ("Error: " ++ e.message)
    return 1

def start (words : List String) : IO UInt32 := do
  match Arguments.read words with
  | .ok a => run a
  | .error e =>
    if e.isAnswer then
      IO.println e.message
      return 0
    else
      IO.eprintln e.message
      return 2

end AdaptiveHls.Program

def main (words : List String) : IO UInt32 := AdaptiveHls.Program.start words
