-- Inputs with a weight, as they are given on the command line: a path, or a weight and a
-- path with a comma between them.
import SamplingProfile.Count

namespace SamplingProfile.CommandLine

/-- Why a text is no number of 64 bits. -/
inductive NumberError
  | empty
  | invalidDigit
  | tooLarge
deriving DecidableEq, Repr

/-- What is said of the error. -/
def NumberError.message : NumberError → String
  | .empty => "cannot parse integer from empty string"
  | .invalidDigit => "invalid digit found in string"
  | .tooLarge => "number too large to fit in target type"

/-- The number of some digits, behind the number `n` of the digits before them. -/
def digitsNumber (n : Nat) : List Char → Except NumberError Nat
  | [] => .ok n
  | c :: rest =>
    if c.isDigit then
      let n := 10 * n + (c.toNat - '0'.toNat)
      if n < UInt64.size then digitsNumber n rest else .error .tooLarge
    else .error .invalidDigit

/-- A number of 64 bits in decimal digits, perhaps behind a plus sign. -/
def number (s : String) : Except NumberError Nat :=
  match s.toList with
  | [] => .error .empty
  | ['+'] => .error .invalidDigit
  | '+' :: rest => digitsNumber 0 rest
  | digits => digitsNumber 0 digits

/-- Why a text is no weighted input. -/
inductive WeightError
  | form
  | weight (e : NumberError)
  | zero
deriving DecidableEq, Repr

/-- What is said of the error. -/
def WeightError.message : WeightError → String
  | .form => "Unexpected weighting format, expected $weight,$name or just $name"
  | .weight e => s!"Invalid weight: {e.message}"
  | .zero => "Weight must be positive integer"

/-- A path with its weight, which is 1 if none is given. -/
def weighted (s : String) : Except WeightError (Count × String) :=
  match s.splitOn "," with
  | [path] => .ok (1, path)
  | [weight, path] =>
    match number weight with
    | .error e => .error (.weight e)
    | .ok 0 => .error .zero
    | .ok n => .ok (UInt64.ofNat n, path)
  | _ => .error .form

end SamplingProfile.CommandLine
