-- Reading text profiles. A line belongs to the nearest line above it that is indented less,
-- and the lines of one body are all indented alike.
import SamplingProfile.Text.Grammar
import SamplingProfile.Store.Depth

namespace SamplingProfile.Text

/-- The lines at the front that are indented deeper, which are the body of the line above. -/
def deeper (indent : Nat) (lines : List Line) : List Line :=
  lines.takeWhile fun l => indent < l.indent

/-- The lines behind the body of the line above. -/
def behind (indent : Nat) (lines : List Line) : List Line :=
  lines.dropWhile fun l => indent < l.indent

theorem length_behind_le (indent : Nat) (lines : List Line) :
    (behind indent lines).length ≤ lines.length :=
  (List.dropWhile_sublist _).length_le

theorem length_deeper_le (indent : Nat) (lines : List Line) :
    (deeper indent lines).length ≤ lines.length :=
  (List.takeWhile_sublist _).length_le

/-- Stops with a problem met at a line. -/
def failAtLine {α : Type} (line : Line) (problem : Problem) : Except ParseError α :=
  .error { problem, offset := line.content.start }

/-- Reads lines into a node, each of which must be indented by `indent`; `levels` is how many
levels of callees may follow below it. The body of a callee is read before the callsite is
found to be there already. -/
def readItems (indent levels : Nat) (node : FunctionProfile) (lines : List Line) :
    Except ParseError FunctionProfile :=
  match lines with
  | [] => .ok node
  | line :: rest =>
    if line.indent ≠ indent then failAtLine line .inconsistentIndent
    else do
      match ← readBodyLine line.content with
      | .sample location count targets =>
        if node.samples.contains location then failAtLine line .duplicateLocation
        else
          let tally := { count, instructions := 1, targets := .ofList targets }
          readItems indent levels
            { node with samples := node.samples.insert location tally } rest
      | .callee site =>
        match levels with
        | 0 => failAtLine line .inlinedTooDeep
        | below + 1 =>
          let inner := deeper indent rest
          let first := (inner.head?.map Line.indent).getD 0
          let callee ← readItems first below (.ofName site.callee) inner
          if (node.callee? site).isSome then failAtLine line .duplicateCallsite
          else
            readItems indent (below + 1)
              { node with callees := node.callees.insert site callee } (behind indent rest)
termination_by lines.length
decreasing_by
  all_goals simp only [List.length_cons]
  · omega
  · exact Nat.lt_succ_of_le (length_deeper_le indent rest)
  · exact Nat.lt_succ_of_le (length_behind_le indent rest)

/-- Reads the body of a node: all of `lines`, indented as the first of them. -/
def readBody (levels : Nat) (node : FunctionProfile) (lines : List Line) :
    Except ParseError FunctionProfile :=
  readItems ((lines.head?.map Line.indent).getD 0) levels node lines

/-- Reads functions into a store. Each begins with a line that is not indented. -/
def readFunctions (store : Store) (lines : List Line) : Except ParseError Store :=
  match lines with
  | [] => .ok store
  | line :: rest =>
    if line.indent ≠ 0 then failAtLine line .expectedFunction
    else do
      let (name, _, entryCount) ← readFunctionLine line.content
      let f ← readBody maxInlineDepth
        { FunctionProfile.ofName name with entryCount := UInt64.ofNat entryCount } (deeper 0 rest)
      if store.contains f.name then failAtLine line .duplicateFunction
      else readFunctions (store.insert f) (behind 0 rest)
termination_by lines.length
decreasing_by
  simp only [List.length_cons]
  exact Nat.lt_succ_of_le (length_behind_le 0 rest)

/-- The store of a text profile. -/
def read (bytes : List UInt8) : Except ParseError Store :=
  readFunctions ∅ (lines (skipHeader (.ofBytes bytes)))

end SamplingProfile.Text
