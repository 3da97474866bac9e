import MarkupText.Program

namespace MarkupText

def readSource (name : Text) : IO Source := do
  try return .file (some (← IO.FS.readBinFile (String.ofList name)))
  catch _ => return .file none

def outcomeOf (arguments : List Text) : IO Outcome := do
  match CommandLine.parse arguments with
  | .error stop => return stop.outcome
  | .ok invocation =>
    let config ← match invocation.config? with
      | some name => readSource name
      | none => pure (.file none)
    return .ofReport (invocation.run config (← readSource invocation.file))

end MarkupText

open MarkupText in
def main (arguments : List String) : IO UInt32 := do
  let outcome ← outcomeOf (arguments.map String.toList)
  IO.print (String.ofList outcome.output)
  match outcome.error? with
  | some message => IO.eprintln ("Error: " ++ String.ofList message)
  | none =>
    if outcome.status = 2 then IO.eprintln "error: the arguments are not understood, try --help"
  return outcome.status.toUInt32
