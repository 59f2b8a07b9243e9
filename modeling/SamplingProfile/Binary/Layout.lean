-- The versions of the binary form. All carry the same, and differ in how numbers and names
-- stand in the bytes.
import SamplingProfile.NameList
import SamplingProfile.Writing.Output

namespace SamplingProfile.Binary

/-- The versions of the binary form. -/
inductive Version
  /-- Numbers of fixed width, and names where they are used. -/
  | fixed
  /-- Numbers of 64 bits, and a table of names. -/
  | wide
  /-- Numbers in groups of seven bits, and a table of names that may be compressed. -/
  | compact
deriving DecidableEq, Repr

namespace Version

/-- The number that stands for a version. -/
def number : Version → Nat
  | fixed => 1
  | wide => 2
  | compact => 3

/-- The version that a number stands for. -/
def ofNumber? : Nat → Option Version
  | 1 => some fixed
  | 2 => some wide
  | 3 => some compact
  | _ => none

/-- All versions, the oldest first. -/
def all : List Version := [fixed, wide, compact]

/-- The newest version. -/
def latest : Version := compact

instance : Inhabited Version := ⟨latest⟩

theorem ofNumber?_eq_some_iff {n : Nat} {v : Version} :
    ofNumber? n = some v ↔ n = v.number := by
  constructor
  · intro h
    unfold ofNumber? at h
    split at h <;> simp_all <;> subst h <;> rfl
  · rintro rfl
    cases v <;> rfl

end Version

/-- How numbers stand in the bytes. -/
inductive Integers
  /-- Counts in 64 bits and all other numbers in 32. -/
  | narrow
  /-- All numbers in 64 bits. -/
  | wide
  /-- All numbers in groups of seven bits. -/
  | leb128
deriving DecidableEq, Repr

/-- How names stand in the bytes. -/
inductive Names
  /-- A name stands, behind its length, wherever it is used. -/
  | inlined
  /-- A name is an index into a table. -/
  | table
  /-- A name is an index into a table that may be compressed. -/
  | compressibleTable
deriving DecidableEq, Repr

/-- How a version writes what a profile holds. -/
structure Layout where
  version : Version
  integers : Integers
  names : Names
deriving DecidableEq, Repr

/-- The layout of a version. -/
def Version.layout (v : Version) : Layout :=
  match v with
  | fixed => ⟨v, .narrow, .inlined⟩
  | wide => ⟨v, .wide, .table⟩
  | compact => ⟨v, .leb128, .compressibleTable⟩

/-- The bytes in front of every binary profile. -/
def magic : List UInt8 := [0xff, 0x73, 0x70, 0x72, 0x6f, 0x66, 0x73, 0x81]

/-- Whether bytes begin as a binary profile does. -/
def hasMagic (bytes : List UInt8) : Bool := bytes.take 8 = magic

namespace Layout

/-! ## Numbers -/

/-- A length, an index, a line, an offset or a cutoff. -/
def readSmall (l : Layout) : Reader Nat :=
  match l.integers with
  | .narrow => Reader.littleEndian 4
  | .wide => Reader.littleEndian 8
  | .leb128 => Reader.leb128

/-- A small number of at most 32 bits. -/
def readWord (l : Layout) : Reader UInt32 := do
  let span ← get
  let n ← l.readSmall
  if n < UInt32.size then return UInt32.ofNat n else Reader.failAt span .exceeds32Bits

/-- A count. -/
def readCount (l : Layout) : Reader Count := do
  match l.integers with
  | .narrow | .wide => return UInt64.ofNat (← Reader.littleEndian 8)
  | .leb128 => return UInt64.ofNat (← Reader.leb128)

/-- Writes a length, an index, a line, an offset or a cutoff. -/
def writeSmall (l : Layout) (field : Field) (n : Nat) : Output :=
  match l.integers with
  | .narrow =>
    if n < UInt32.size then ⟨LittleEndian.encode 4 n, none⟩
    else .fail (.tooLarge l.version.number field)
  | .wide => ⟨LittleEndian.encode 8 n, none⟩
  | .leb128 => ⟨Leb128.encode n, none⟩

/-- Writes a count. -/
def writeCount (l : Layout) (count : Count) : Output :=
  match l.integers with
  | .narrow | .wide => ⟨LittleEndian.encode 8 count.toNat, none⟩
  | .leb128 => ⟨Leb128.encode count.toNat, none⟩

end Layout

end SamplingProfile.Binary
