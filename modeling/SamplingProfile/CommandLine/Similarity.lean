-- How alike two words are, to tell a mistyped command from any other word: the share of
-- letters that match at nearly the same place, raised for words that begin alike.

namespace SamplingProfile.CommandLine

/-- Marks the first letter of `word` that is `c`, stands from `low` to `high` and is not
marked yet; gives its place. Each letter comes with its mark. -/
def matchLetter (c : Char) (low high : Nat) :
    (place : Nat) → List (Char × Bool) → Option (Nat × List (Char × Bool))
  | _, [] => none
  | place, (d, marked) :: rest =>
    if low ≤ place ∧ place ≤ high ∧ d = c ∧ !marked then some (place, (d, true) :: rest)
    else (matchLetter c low high (place + 1) rest).map fun r => (r.1, (d, marked) :: r.2)

/-- The number of letters of a word that match, and how often a match stands before the match
of the letter before it. `range` is how far apart the places may be. -/
def matchLetters (range : Nat) :
    (place last : Nat) → List Char → List (Char × Bool) → Nat × Nat
  | _, _, [], _ => (0, 0)
  | place, last, c :: rest, word =>
    match matchLetter c (place - range) (place + range) 0 word with
    | none => matchLetters range (place + 1) last rest word
    | some (found, word) =>
      let (matched, swapped) := matchLetters range (place + 1) found rest word
      (matched + 1, if found < last then swapped + 1 else swapped)

/-- Whether two words are alike by more than four fifths, where equal words are alike by 1. -/
def isAlike (a b : String) : Bool :=
  let m := a.toList.length
  let n := b.toList.length
  let (matched, swapped) :=
    matchLetters (max m n / 2 - 1) 0 0 a.toList (b.toList.map fun c => (c, false))
  if matched = 0 then false
  else
    -- Both parts of the fraction `share / whole`, the likeness before it is raised.
    let whole := 3 * m * n * matched
    let share := matched * matched * n + matched * matched * m + (matched - swapped) * m * n
    let common := ((a.toList.zip b.toList).takeWhile fun p => p.1 = p.2).length
    -- Each common letter in front adds a tenth of what is missing to 1.
    8 * whole < 10 * share + common * (whole - share)

end SamplingProfile.CommandLine
