import TemplateResolution.CommandLine

/-!
# The program

Prints what the command line answers, the failure if there is one on standard
error, and exits with the status.
-/

def main (args : List String) : IO UInt32 := do
  let transcript := TemplateResolution.CommandLine.run args
  IO.print transcript.text
  if let some failure := transcript.failure then
    IO.eprintln failure.message
  return transcript.status.toUInt32
