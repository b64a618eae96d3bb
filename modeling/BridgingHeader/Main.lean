import BridgingHeader.CommandLine.Commands
import BridgingHeader.LocalSystem

/-!
# The program

The program carries out the command line that it is given on the local system.
-/

/-- Carries out a command line on the local system. -/
def main (arguments : List String) : IO UInt32 := do
  return UInt32.ofNat (← BridgingHeader.CommandLine.run arguments).code
