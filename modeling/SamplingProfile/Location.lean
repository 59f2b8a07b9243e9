-- Places inside a function. A location is a line, counted from the first line of the
-- function, with a discriminator that tells apart the places on one line; a callsite is
-- the location of a call together with the function that was inlined there.

namespace SamplingProfile

/-! ## Locations -/

/-- A place in a function, packed in one word: the line in the upper 16 bits and the
discriminator in the lower 16. -/
structure Location where
  packed : UInt32
deriving DecidableEq, Repr, Inhabited

namespace Location

/-- The location of a line and a discriminator. What does not fit in 16 bits is dropped. -/
def ofLine (line discriminator : UInt32) : Location :=
  ⟨(line <<< 16) ||| (discriminator &&& 0xffff)⟩

/-- The line, counted from the first line of the function. -/
def line (l : Location) : UInt32 := l.packed >>> 16

/-- What tells apart the places on one line. -/
def discriminator (l : Location) : UInt32 := l.packed &&& 0xffff

instance : Ord Location := ⟨fun a b => compare a.packed b.packed⟩

instance : Std.TransOrd Location :=
  inferInstanceAs (Std.TransCmp (compareOn Location.packed))

instance : Std.LawfulEqOrd Location where
  eq_of_compare {a b} h := by
    have : a.packed = b.packed := Std.compare_eq_iff_eq.1 h
    cases a
    cases b
    simpa using this

theorem toNat_ofLine (line discriminator : UInt32) :
    (ofLine line discriminator).packed.toNat
      = line.toNat % 65536 * 65536 + discriminator.toNat % 65536 := by
  have h1 : (ofLine line discriminator).packed.toNat
      = (line.toNat <<< 16 % UInt32.size) ||| (discriminator.toNat &&& 65535) := rfl
  have h2 : line.toNat <<< 16 % UInt32.size = line.toNat % 65536 * 65536 := by
    rw [Nat.shiftLeft_eq, UInt32.size]
    omega
  have h3 : discriminator.toNat &&& 65535 = discriminator.toNat % 65536 :=
    Nat.and_two_pow_sub_one_eq_mod _ 16
  have h4 : discriminator.toNat % 65536 < 65536 := Nat.mod_lt _ (by decide)
  have h5 := Nat.two_pow_add_eq_or_of_lt (i := 16) h4 (line.toNat % 65536)
  rw [h1, h2, h3, Nat.mul_comm]
  exact h5.symm

theorem toNat_line (l : Location) : l.line.toNat = l.packed.toNat / 65536 := by
  simp [line, UInt32.toNat_shiftRight, Nat.shiftRight_eq_div_pow]

theorem toNat_discriminator (l : Location) :
    l.discriminator.toNat = l.packed.toNat % 65536 :=
  Nat.and_two_pow_sub_one_eq_mod l.packed.toNat 16

/-- A location is made of its line and its discriminator. -/
theorem ofLine_line_discriminator (l : Location) : ofLine l.line l.discriminator = l := by
  have h : (ofLine l.line l.discriminator).packed = l.packed := by
    apply UInt32.toNat_inj.1
    have := l.packed.toNat_lt
    rw [toNat_ofLine, toNat_line, toNat_discriminator]
    omega
  cases l
  simpa [ofLine] using h

end Location

/-! ## Callsites -/

/-- A call that was inlined: where it stands in the caller, and the function called. -/
structure Callsite where
  location : Location
  callee : String
deriving DecidableEq, Repr, Inhabited

namespace Callsite

/-- Callsites are ordered by location, and at one location by the name of the callee. -/
instance : Ord Callsite :=
  ⟨compareLex (compareOn Callsite.location) (compareOn Callsite.callee)⟩

instance : Std.TransOrd Callsite :=
  inferInstanceAs
    (Std.TransCmp (compareLex (compareOn Callsite.location) (compareOn Callsite.callee)))

instance : Std.LawfulEqOrd Callsite where
  eq_of_compare {a b} h := by
    have h' : (compare a.location b.location).then (compare a.callee b.callee) = .eq := h
    rw [Ordering.then_eq_eq] at h'
    obtain ⟨h1, h2⟩ := h'
    rw [Std.compare_eq_iff_eq] at h1 h2
    cases a
    cases b
    simp_all

end Callsite

/-! ## Frames -/

/-- One frame of a call stack: a function, where its source is, and where in it the
execution stood. -/
structure Frame where
  function : String := ""
  directory : String := ""
  file : String := ""
  startLine : UInt32 := 0
  line : UInt32 := 0
  discriminator : UInt32 := 0
deriving DecidableEq, Repr, Inhabited

/-- Where in its function the frame stands. A line before the first one wraps. -/
def Frame.location (f : Frame) : Location :=
  Location.ofLine (f.line - f.startLine) f.discriminator

end SamplingProfile
