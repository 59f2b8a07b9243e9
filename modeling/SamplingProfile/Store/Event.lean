-- Recording: a profiler registers functions and reports samples, and each report either
-- enters the store or is refused, which leaves the store as it is.
import SamplingProfile.Store.Depth
import SamplingProfile.FunctionProfile.Record

namespace SamplingProfile

/-- One report of a profiler. A stack of frames is given from the innermost frame to the
frame of the function. -/
inductive Event
  /-- A function is known. -/
  | register (name : String)
  /-- A function was entered. -/
  | entry (name : String) (count : Count) (mode : Mode)
  /-- The innermost frame was sampled. -/
  | sample (name : String) (stack : List Frame) (count : Count) (mode : Mode)
  /-- The innermost frame called another function indirectly. -/
  | target (name : String) (stack : List Frame) (callee : String) (count : Count)
deriving DecidableEq

namespace Store

/-- Changes the tally that a stack leads to, if the function is known, the stack is not
empty and the frames above the function's own are not too many. -/
def editAt? (s : Store) (name : String) (stack : List Frame) (edit : Tally → Tally) :
    Option Store :=
  match s.get? name, stack.reverse with
  | some f, frame :: inner =>
    if inner.length ≤ maxInlineDepth then some (s.insert (f.editAt edit frame inner)) else none
  | _, _ => none

/-- The store after a report, or `none` when the report is refused. -/
def record? (s : Store) : Event → Option Store
  | .register name =>
    some (if s.contains name then s else s.insert (FunctionProfile.ofName name))
  | .entry name count mode =>
    (s.get? name).map fun f =>
      s.insert { f with entryCount := mode.combine f.entryCount count }
  | .sample name stack count mode => s.editAt? name stack (Tally.addSample mode count)
  | .target name stack callee count => s.editAt? name stack (Tally.addTarget callee count)

/-- The store after a report; a refused one changes nothing. -/
def record (s : Store) (e : Event) : Store := (s.record? e).getD s

/-- The store after a list of reports. -/
def recordAll (s : Store) (events : List Event) : Store := events.foldl record s

end Store

end SamplingProfile
