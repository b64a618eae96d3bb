import BridgingHeader.Path.Basic

/-!
# Relative paths

The path that leads from a base to a target drops the components that both start with, climbs out
of the remaining components of the base, and then follows the target.
-/

namespace BridgingHeader.Path

/-- One climbing step for each component. -/
def climb (base : List Component) : List Component := base.map fun _ => .up

/-- The way from a base to a target once they differ or one has ended; there is none out of a `..`,
and a `.` needs no step. -/
def wayFrom : (target base : List Component) → Option (List Component)
  | target, [] => some target
  | [], base => some (climb base)
  | next :: target, .current :: base => (wayFrom target base).map (next :: ·)
  | _ :: _, .up :: _ => none
  | target, base => some (climb base ++ target)

/-- The way from a base to a target, after the components they share. -/
def way : (target base : List Component) → Option (List Component)
  | next :: target, step :: base =>
    if next = step then way target base else wayFrom (next :: target) (step :: base)
  | target, base => wayFrom target base

/-- The path from a base to a target. Between an absolute and a relative path there is a way only to
the absolute one, namely that path itself. -/
def relative? (base target : Path) : Option Path :=
  if target.isAbsolute = base.isAbsolute then
    (way target.components base.components).map fun steps => ofSegments (steps.map Component.text)
  else if target.isAbsolute then some target
  else none

/-- The path from a base to a target, or the target as given if there is no way. -/
def relativeTo (target base : Path) : Path := (relative? base target).getD target

end BridgingHeader.Path
