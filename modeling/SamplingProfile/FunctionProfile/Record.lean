-- Recording in a function: a stack of frames leads from the function down through the
-- callees that were inlined, and the sample belongs to the location of the innermost frame.
import SamplingProfile.FunctionProfile.Basic

namespace SamplingProfile

/-- Changes the tally of one location, which starts empty. -/
def Body.editAt (b : Body) (location : Location) (edit : Tally → Tally) : Body :=
  { b with samples := b.samples.update location fun t => edit (t.getD {}) }

/-- Changes the tally that a stack of frames leads to. The frame of the function itself
comes first and the frames inlined in it follow, the innermost one last; callees that are
not there yet start without samples. -/
def FunctionProfile.editAt (edit : Tally → Tally) :
    FunctionProfile → Frame → List Frame → FunctionProfile
  | f, frame, [] => { f with toBody := f.toBody.editAt frame.location edit }
  | f, frame, callee :: inner =>
    { f with
      callees := f.callees.update ⟨frame.location, callee.function⟩ fun node =>
        (node.getD (ofFrame callee)).editAt edit callee inner }

/-- One more sample of a location. -/
def Tally.addSample (mode : Mode) (count : Count) (t : Tally) : Tally :=
  { t with count := mode.combine t.count count, instructions := t.instructions.plus 1 }

/-- Calls from a location to `target`. -/
def Tally.addTarget (target : String) (count : Count) (t : Tally) : Tally :=
  { t with targets := t.targets.update target fun own => (own.getD 0).plus count }

end SamplingProfile
