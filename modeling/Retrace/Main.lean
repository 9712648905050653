import Retrace.Host

/-!
The program: runs the command line on this machine.
-/

def main (args : List String) : IO UInt32 := do
  let words := args.map Retrace.Utf8.encode
  let o ← Retrace.Host.carryOut (Retrace.CommandLine.runProgram (← Retrace.Host.surroundings) words)
  o.out.forM IO.println
  o.err.forM IO.eprintln
  return UInt32.ofNat o.code
