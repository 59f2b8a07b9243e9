-- What is passed over at the top of a text, against what is dropped from the lines below it. At the
-- top all white space counts as such, and below only spaces, tabs and the return that ends a line.
-- So a form feed, which is passed over at the top, is a line like any other below.
import SamplingProfile.Proofs.Text.LineItems
import SamplingProfile.Proofs.Text.Nesting

namespace SamplingProfile.Text

/-- The store of all lines of a text, of which none is passed over at the top. -/
def readAllLines (bytes : List UInt8) : Except ParseError Store :=
  readFunctions ∅ (lines (.ofBytes bytes))

/-- A form feed stands first behind the blanks of a row, or a return that does not end the row. -/
def BeginsWithFeed (row : List UInt8) : Prop :=
  ∃ b ∈ (dropReturn (row.dropWhile isBlank)).head?, b = 0x0c ∨ b = 0x0d

instance (row : List UInt8) : Decidable (BeginsWithFeed row) :=
  inferInstanceAs (Decidable (∃ b ∈ (dropReturn (row.dropWhile isBlank)).head?, _))

theorem isSilent_iff_of_passedOver {content : List UInt8} (hover : isPassedOver content = true)
    (hblank : content.takeWhile isBlank = []) (hline : newline ∉ content) :
    isSilent content = true ↔ ¬ ∃ b ∈ content.head?, b = 0x0c ∨ b = 0x0d := by
  cases content with
  | nil => simp [isSilent]
  | cons b rest =>
    have hb : isBlank b = false := by
      by_contra hb
      simp [hb] at hblank
    have hnewline : b ≠ newline := fun h => hline (h ▸ List.mem_cons_self)
    constructor
    · rintro hhash ⟨x, hx, hfeed⟩
      obtain rfl : b = 0x23 := by simpa [isSilent] using hhash
      cases hx
      revert hfeed
      decide
    · intro hfeed
      have hspace : isSpace b = false := by
        have hother : ¬ (b = 0x0c ∨ b = 0x0d) := fun h => hfeed ⟨b, rfl, h⟩
        simp only [isBlank, isSpace, newline, decide_eq_false_iff_not] at hb hnewline ⊢
        tauto
      rwa [isPassedOver, List.dropWhile_cons, hspace] at hover

/-- Of the rows that are passed over at the top those say something below that begin with a feed. -/
theorem said?_eq_none_iff {row : List UInt8} (hover : isPassedOver row = true)
    (hrow : newline ∉ row) : said? row = none ↔ ¬ BeginsWithFeed row := by
  obtain ⟨blanks, back, rfl, hblanks, hback⟩ := exists_blanks row
  rw [isPassedOver_append hblanks, ← isPassedOver_dropReturn] at hover
  have hline : newline ∉ dropReturn back := fun hmem =>
    hrow (List.mem_append_right _ ((isPrefix_dropReturn back).subset hmem))
  rw [BeginsWithFeed, said?_append hblanks hback, dropWhile_append_eq_right hblanks hback,
    ← isSilent_iff_of_passedOver hover (takeWhile_dropReturn hback) hline]
  simp

/-! ## Counting lines -/

/-- Every line that is read makes a store larger. -/
theorem length_items_of_readFunctions {ls : List Line} {s : Store}
    (h : readFunctions ∅ ls = .ok s) : s.items.length = ls.length := by
  have hitems : s.items.length = (ls.map Line.item).length :=
    (readFunctions_eq_ok_iff.1 h).perm_items.length_eq
  rwa [List.length_map] at hitems

theorem length_items_of_read {text : List UInt8} {s : Store} (h : Text.read text = .ok s) :
    s.items.length = (heard (rows text)).length := by
  have hheard := map_said_lines_skipHeader (.ofBytes text)
  rw [Span.ofBytes] at hheard
  rw [length_items_of_readFunctions h, ← hheard, List.length_map]
  rfl

theorem length_items_of_readAllLines {text : List UInt8} {s : Store}
    (h : readAllLines text = .ok s) : s.items.length = ((rows text).filterMap said?).length := by
  have hsaid := map_said_lines (.ofBytes text)
  rw [Span.ofBytes] at hsaid
  rw [length_items_of_readFunctions h, ← hsaid, List.length_map]
  rfl

theorem filterMap_said? (rows : List (List UInt8)) :
    rows.filterMap said? = (rows.takeWhile isPassedOver).filterMap said? ++ heard rows := by
  rw [heard, ← List.filterMap_append, List.takeWhile_append_dropWhile]

/-! ## The same line elsewhere -/

/-- A line that is passed over at the top of a text may be put in anywhere if it says nothing below,
or else where all above it is passed over. -/
theorem read_insert_iff {front line back : List UInt8} {s : Store} (hfront : EndsLine front)
    (hline : newline ∉ line) (hover : isPassedOver line = true)
    (hread : Text.read (front ++ back) = .ok s) :
    Text.read (front ++ (line ++ newline :: back)) = .ok s ↔
      said? line = none ∨ ∀ row ∈ rows front, isPassedOver row = true := by
  obtain ⟨above, habove, hrows⟩ := hfront.exists_rows
  have hall : (∀ row ∈ rows front, isPassedOver row = true) ↔
      ∀ row ∈ above, isPassedOver row = true := by
    rw [habove, List.forall_mem_append]
    exact and_iff_left (List.forall_mem_singleton.2 rfl)
  rw [hall]
  constructor
  · intro hinserted
    by_contra hplace
    rw [not_or] at hplace
    obtain ⟨l, hl⟩ := Option.ne_none_iff_exists'.1 hplace.1
    -- the line is heard, and each line that is heard makes the store larger
    have hmore := length_items_of_read hinserted
    have hless := length_items_of_read hread
    rw [hrows, rows_append_of_notMem hline, heard_append hplace.2,
      List.filterMap_cons_some hl, List.length_append, List.length_cons] at hmore
    rw [hrows, heard_append hplace.2, List.length_append] at hless
    omega
  · intro hplace
    refine (read_iff_of_heard ?_ s).2 hread
    rw [hrows, hrows, rows_append_of_notMem hline, heard_insert hover hplace]

/-- All lines of a text make the store that is read from it if the rows that are passed over at its
top say nothing, and only then. -/
theorem readAllLines_iff {text : List UInt8} {s : Store}
    (h : Text.read text = .ok s ∨ readAllLines text = .ok s) :
    Text.read text = .ok s ∧ readAllLines text = .ok s ↔
      ∀ row ∈ (rows text).takeWhile isPassedOver, said? row = none := by
  rw [← List.filterMap_eq_nil_iff]
  constructor
  · rintro ⟨hread, hall⟩
    have hbelow := length_items_of_read hread
    have hwhole := length_items_of_readAllLines hall
    rw [filterMap_said?, List.length_append] at hwhole
    exact List.eq_nil_of_length_eq_zero (by omega)
  · intro hsilent
    have hsaid : (lines (.ofBytes text)).map Line.said
        = (lines (skipHeader (.ofBytes text))).map Line.said := by
      rw [map_said_lines, map_said_lines_skipHeader, filterMap_said?]
      exact congrArg (· ++ _) hsilent
    have hsame := readFunctions_iff_of_said hsaid s
    rcases h with hread | hall
    · exact ⟨hread, hsame.2 hread⟩
    · exact ⟨hsame.1 hall, hall⟩

/-- A line that is passed over at the top of a text may be put in anywhere and nothing else is read,
and all lines of a text are read as those below its top are, as long as no line begins with a feed
among those that are passed over. One that does is a line of its own wherever it is not at the top:
the text is refused, or read as another store. -/
theorem passed_over_elsewhere_iff (text : List UInt8) (s : Store) :
    (Text.read text = .ok s → ∀ front line back, text = front ++ back → EndsLine front →
      newline ∉ line → isPassedOver line = true →
      (Text.read (front ++ (line ++ newline :: back)) = .ok s ↔
        ¬ BeginsWithFeed line ∨ ∀ row ∈ rows front, isPassedOver row = true)) ∧
    (Text.read text = .ok s ∨ readAllLines text = .ok s →
      (Text.read text = .ok s ∧ readAllLines text = .ok s ↔
        ∀ row ∈ (rows text).takeWhile isPassedOver, ¬ BeginsWithFeed row)) := by
  refine ⟨?_, fun h => ?_⟩
  · rintro hread front line back rfl hfront hline hover
    rw [← said?_eq_none_iff hover hline]
    exact read_insert_iff hfront hline hover hread
  · rw [readAllLines_iff h]
    refine forall₂_congr fun row hrow => said?_eq_none_iff ?_ ?_
    · exact List.mem_takeWhile_imp hrow
    · exact newline_notMem_of_mem_rows ((List.takeWhile_prefix _).subset hrow)

/-- A blank line with a return between two functions, and a comment above both. -/
theorem blank_line_between_functions :
    ∃ s, Text.read (encodeText "# x\nf:1:1\ng:1:1\n") = .ok s ∧
      Text.read (encodeText "# x\nf:1:1\n \r\ng:1:1\n") = .ok s ∧
      readAllLines (encodeText "# x\nf:1:1\n \r\ng:1:1\n") = .ok s := by
  obtain ⟨s, hs⟩ :=
    exists_of_isOk (x := Text.read (encodeText "# x\nf:1:1\ng:1:1\n")) (by decide +kernel)
  have htext : encodeText "# x\nf:1:1\ng:1:1\n"
      = encodeText "# x\nf:1:1\n" ++ encodeText "g:1:1\n" := by decide +kernel
  have htext' : encodeText "# x\nf:1:1\n \r\ng:1:1\n"
      = encodeText "# x\nf:1:1\n" ++ ([0x20, 0x0d] ++ newline :: encodeText "g:1:1\n") := by
    decide +kernel
  have hfront : EndsLine (encodeText "# x\nf:1:1\n") :=
    .inr ⟨encodeText "# x\nf:1:1", by decide +kernel⟩
  have hread : Text.read (encodeText "# x\nf:1:1\n \r\ng:1:1\n") = .ok s := by
    rw [htext']
    exact ((passed_over_elsewhere_iff _ s).1 hs _ _ _ htext hfront (by decide) rfl).2
      (.inl (by decide))
  have hboth := ((passed_over_elsewhere_iff _ s).2 (.inl hread)).2 (by decide +kernel)
  exact ⟨s, hs, hread, hboth.2⟩

/-- A form feed is passed over at the top, and refused between two functions and wherever nothing is
passed over. -/
theorem feed_is_heard_below :
    isPassedOver [0x0c] = true ∧
      (Text.read (encodeText "f:1:1\n" ++ encodeText "g:1:1\n")).isOk = true ∧
      Text.read (encodeText "f:1:1\n" ++ ([0x0c] ++ newline :: encodeText "g:1:1\n"))
        = .error { problem := .expectedFunctionHeader, offset := 6 } ∧
      (Text.read (encodeText "\x0c\nf:1:1\n")).isOk = true ∧
      readAllLines (encodeText "\x0c\nf:1:1\n")
        = .error { problem := .expectedFunctionHeader, offset := 0 } := by
  decide +kernel

end SamplingProfile.Text
