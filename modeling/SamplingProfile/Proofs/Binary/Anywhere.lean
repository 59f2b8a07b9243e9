-- The sections of a binary profile are the same wherever they stand. So what stands behind the
-- summary is read the same however long the summary is.
import SamplingProfile.Proofs.Binary.Sections
import SamplingProfile.Proofs.Reading.Anywhere

namespace SamplingProfile

open Reader

namespace Binary.Layout

variable (l : Layout)

/-! ## Numbers and names -/

theorem agrees_readSmall : l.readSmall.Agrees l.readSmall := by
  unfold readSmall
  cases l.integers with
  | narrow => exact agrees_littleEndian 4
  | wide => exact agrees_littleEndian 8
  | leb128 => exact agrees_leb128

theorem agrees_readWord : l.readWord.Agrees l.readWord := by
  refine agrees_get_bind fun span span' _ => l.agrees_readSmall.bind fun n => ?_
  split
  · exact agrees_pure _
  · exact agrees_failAt span span' _

theorem agrees_readCount : l.readCount.Agrees l.readCount := by
  unfold readCount
  cases l.integers with
  | narrow => exact (agrees_littleEndian 8).bind fun _ => agrees_pure _
  | wide => exact (agrees_littleEndian 8).bind fun _ => agrees_pure _
  | leb128 => exact agrees_leb128.bind fun _ => agrees_pure _

theorem agrees_readText : l.readText.Agrees l.readText := l.agrees_readSmall.bind agrees_text

theorem agrees_readTable : l.readTable.Agrees l.readTable := by
  unfold readTable
  cases l.names with
  | inlined => exact agrees_pure _
  | table =>
    exact l.agrees_readSmall.bind fun count => (agrees_ensure count).bind fun _ =>
      (l.agrees_readText.repeated count).bind fun _ => agrees_pure _
  | compressibleTable => exact NameList.agrees_read.bind fun _ => agrees_pure _

variable (table : NameArray)

theorem agrees_readName : (l.readName table).Agrees (l.readName table) := by
  unfold readName
  cases l.names with
  | inlined => exact l.agrees_readText
  | table | compressibleTable =>
    refine agrees_get_bind fun span span' _ => l.agrees_readSmall.bind fun index => ?_
    split
    · exact agrees_pure _
    · exact agrees_failAt span span' _

/-! ## Functions -/

theorem agrees_readTarget : (l.readTarget table).Agrees (l.readTarget table) :=
  (l.agrees_readName table).bind fun _ => l.agrees_readCount.bind fun _ => agrees_pure _

theorem agrees_readSample : (l.readSample table).Agrees (l.readSample table) :=
  l.agrees_readWord.bind fun _ => l.agrees_readCount.bind fun _ =>
    l.agrees_readCount.bind fun _ => l.agrees_readSmall.bind fun targets =>
      ((l.agrees_readTarget table).distinct _ targets []).bind fun _ => agrees_pure _

theorem agrees_readBody : (l.readBody table).Agrees (l.readBody table) :=
  (l.agrees_readName table).bind fun _ => (l.agrees_readName table).bind fun _ =>
    (l.agrees_readName table).bind fun _ => l.agrees_readWord.bind fun _ =>
      l.agrees_readCount.bind fun _ => l.agrees_readSmall.bind fun locations =>
        ((l.agrees_readSample table).distinct _ locations []).bind fun _ => agrees_pure _

theorem agrees_readFunction (levels : Nat) :
    (l.readFunction table levels).Agrees (l.readFunction table levels) := by
  induction levels with
  | zero => exact agrees_fail _
  | succ levels ih =>
    unfold readFunction
    refine (l.agrees_readBody table).bind fun _ => l.agrees_readSmall.bind fun callsites => ?_
    refine Agrees.bind (Agrees.distinct ?_ _ callsites []) fun _ => agrees_pure _
    exact l.agrees_readWord.bind fun _ => ih.bind fun _ => agrees_pure _

theorem agrees_readEntry : (l.readEntry table).Agrees (l.readEntry table) :=
  ((l.agrees_readFunction table _).within .function).bind fun _ => agrees_pure _

/-! ## Behind the summary -/

/-- The sections behind the summary. -/
def readStore : Reader Store := do
  let table ← Reader.within .nameTable l.readTable
  let count ← l.readSmall
  let functions ← Reader.distinct .duplicateFunction (l.readEntry table) count []
  return .ofList (functions.map Prod.snd)

theorem readSections_eq :
    l.readSections = do
      let summary? ← Reader.within .summary l.readSummary
      return (← l.readStore, summary?) := by
  simp only [readSections, readStore, bind_assoc, pure_bind]

theorem agrees_readStore : l.readStore.Agrees l.readStore :=
  (l.agrees_readTable.within .nameTable).bind fun table => l.agrees_readSmall.bind fun count =>
    ((l.agrees_readEntry table).distinct _ count []).bind fun _ => agrees_pure _

end Binary.Layout

end SamplingProfile
