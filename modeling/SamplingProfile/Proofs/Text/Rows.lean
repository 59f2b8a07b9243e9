-- A text as rows, the bytes between its newlines. The rows at the top that hold nothing but white
-- space, or a comment behind white space, are passed over; of the others each is a line or says
-- nothing. What is read from a text hangs on what its rows say, and not on where they stand.
import Mathlib.Data.List.Forall2
import SamplingProfile.Proofs.Text.LineParts
import SamplingProfile.Proofs.Text.Lines

namespace SamplingProfile.Text

/-- The bytes between the newlines of a text. -/
def rows (text : List UInt8) : List (List UInt8) := text.splitOn newline

theorem rows_append (front back : List UInt8) :
    rows (front ++ newline :: back) = rows front ++ rows back := by
  simp only [rows, List.splitOn_eq_splitOnP]
  exact List.splitOnP_append_cons _ _ (by simp)

theorem rows_of_notMem {row : List UInt8} (h : newline ∉ row) : rows row = [row] :=
  List.splitOn_eq_singleton h

theorem rows_append_of_notMem {row : List UInt8} (h : newline ∉ row) (back : List UInt8) :
    rows (row ++ newline :: back) = row :: rows back := by
  rw [rows_append, rows_of_notMem h, List.singleton_append]

theorem rows_of_splitLine_eq_none {bytes line : List UInt8} (h : splitLine bytes = (line, none)) :
    rows bytes = [line] := by
  rw [eq_of_splitLine_eq_none h]
  exact rows_of_notMem (newline_notMem_of_splitLine h)

theorem rows_of_splitLine_eq_some {bytes line rest : List UInt8}
    (h : splitLine bytes = (line, some rest)) : rows bytes = line :: rows rest := by
  rw [eq_of_splitLine_eq_some h]
  exact rows_append_of_notMem (newline_notMem_of_splitLine h) rest

theorem rows_cons (b : UInt8) (text : List UInt8) :
    rows (b :: text)
      = if b = newline then [] :: rows text else (rows text).modifyHead (b :: ·) := by
  simp [rows, List.splitOn_cons_eq_if_modifyHead]

theorem newline_notMem_of_mem_rows {text row : List UInt8} (h : row ∈ rows text) :
    newline ∉ row := by
  induction text generalizing row with
  | nil =>
    rw [List.mem_singleton.1 h]
    exact List.not_mem_nil
  | cons b text ih =>
    rw [rows_cons] at h
    split at h
    · rcases List.mem_cons.1 h with rfl | hbelow
      · exact List.not_mem_nil
      · exact ih hbelow
    · rename_i hb
      cases htext : rows text with
      | nil =>
        rw [htext] at h
        cases h
      | cons first below =>
        rw [htext] at h ih
        rcases List.mem_cons.1 h with rfl | hbelow
        · exact List.not_mem_cons_of_ne_of_not_mem (Ne.symm hb) (ih List.mem_cons_self)
        · exact ih (List.mem_cons_of_mem _ hbelow)

/-- Nothing, or lines that are complete, so that another line may follow. -/
def EndsLine (front : List UInt8) : Prop := front = [] ∨ ∃ above, front = above ++ [newline]

/-- What follows complete lines begins a row of its own. -/
theorem EndsLine.exists_rows {front : List UInt8} (h : EndsLine front) :
    ∃ above, rows front = above ++ [[]] ∧ ∀ back, rows (front ++ back) = above ++ rows back := by
  rcases h with rfl | ⟨above, rfl⟩
  · exact ⟨[], rfl, fun _ => rfl⟩
  · refine ⟨rows above, rows_append above [], fun back => ?_⟩
    rw [List.append_assoc]
    exact rows_append above back

/-! ## What one row says -/

/-- The indent and the content of a row, if it says something. -/
def said? (row : List UInt8) : Option (Nat × List UInt8) := (lineOf? 0 row).map Line.said

/-- Whether a row is passed over at the top: it is white space, or a comment behind white space. -/
def isPassedOver (row : List UInt8) : Bool := isSilent (row.dropWhile isSpace)

theorem map_said_lineOf? (start : Nat) (row : List UInt8) :
    (lineOf? start row).map Line.said = said? row := by
  simp only [said?, lineOf?]
  split <;> rfl

theorem isSilent_eq_true_iff {content : List UInt8} :
    isSilent content = true ↔ content = [] ∨ ∃ comment, content = 0x23 :: comment := by
  cases content <;> simp [isSilent]

theorem isSpace_of_isBlank {b : UInt8} (h : isBlank b = true) : isSpace b = true := by
  by_contra hspace
  rw [isBlank_of_isSpace (Bool.eq_false_iff.2 hspace)] at h
  cases h

/-- A row is blanks with something else behind them. -/
theorem exists_blanks (row : List UInt8) :
    ∃ blanks back, row = blanks ++ back ∧ (∀ b ∈ blanks, isBlank b = true) ∧
      back.takeWhile isBlank = [] :=
  ⟨_, _, List.takeWhile_append_dropWhile.symm, List.all_eq_true.1 List.all_takeWhile,
    takeWhile_dropWhile isBlank row⟩

theorem dropReturn_concat (row : List UInt8) : dropReturn (row ++ [0x0d]) = row := by
  simp [dropReturn]

theorem dropReturn_of_notMem {row : List UInt8} (h : 0x0d ∉ row) : dropReturn row = row :=
  if_neg fun hlast => h (List.mem_of_getLast? hlast)

/-- A row has no return to drop, or one return. -/
theorem dropReturn_cases (row : List UInt8) :
    dropReturn row = row ∨ row = dropReturn row ++ [0x0d] := by
  unfold dropReturn
  split
  · rename_i hlast
    exact .inr (List.dropLast_append_getLast? _ hlast).symm
  · exact .inl rfl

theorem isPrefix_dropReturn (row : List UInt8) : dropReturn row <+: row := by
  rcases dropReturn_cases row with hnone | hreturn
  · exact ⟨[], (List.append_nil _).trans hnone⟩
  · exact ⟨[0x0d], hreturn.symm⟩

theorem dropReturn_append_of_ne_nil (front : List UInt8) {back : List UInt8} (hback : back ≠ []) :
    dropReturn (front ++ back) = front ++ dropReturn back := by
  unfold dropReturn
  rw [List.getLast?_append_of_ne_nil _ hback]
  split
  · rw [List.dropLast_append_of_ne_nil hback]
  · rfl

theorem dropReturn_cons {b : UInt8} (hb : b ≠ 0x0d) (back : List UInt8) :
    dropReturn (b :: back) = b :: dropReturn back := by
  by_cases hback : back = []
  · rw [hback]
    exact dropReturn_of_notMem (by simpa using hb.symm)
  · exact dropReturn_append_of_ne_nil [b] hback

theorem said?_concat {row : List UInt8} (h : 0x0d ∉ row) : said? (row ++ [0x0d]) = said? row := by
  unfold said? lineOf?
  rw [dropReturn_concat, dropReturn_of_notMem h]

theorem isPassedOver_concat (row : List UInt8) :
    isPassedOver (row ++ [0x0d]) = isPassedOver row := by
  have hreturn : isSpace 0x0d = true := by decide
  unfold isPassedOver
  rw [List.dropWhile_append]
  cases row.dropWhile isSpace <;> simp [isSilent, hreturn]

theorem isPassedOver_dropReturn (row : List UInt8) :
    isPassedOver (dropReturn row) = isPassedOver row := by
  rcases dropReturn_cases row with hnone | hreturn
  · rw [hnone]
  · rw [← isPassedOver_concat, ← hreturn]

theorem takeWhile_dropReturn {p : UInt8 → Bool} {row : List UInt8} (h : row.takeWhile p = []) :
    (dropReturn row).takeWhile p = [] := by
  obtain ⟨tail, htail⟩ := isPrefix_dropReturn row
  rw [← htail] at h
  exact takeWhile_eq_nil_of_append h

section Blanks

variable {blanks back : List UInt8} (hblanks : ∀ b ∈ blanks, isBlank b = true)
include hblanks

theorem isPassedOver_append : isPassedOver (blanks ++ back) = isPassedOver back := by
  unfold isPassedOver
  rw [List.dropWhile_append_of_pos fun b hb => isSpace_of_isBlank (hblanks b hb)]

theorem dropReturn_append : dropReturn (blanks ++ back) = blanks ++ dropReturn back := by
  by_cases hback : back = []
  · have hblank : 0x0d ∉ blanks := fun hmem => nomatch hblanks 0x0d hmem
    rw [hback, List.append_nil, dropReturn_of_notMem hblank]
    simp [dropReturn]
  · exact dropReturn_append_of_ne_nil blanks hback

/-- A row says what stands behind its blanks, without a return at the end, and as far indented as
there are blanks. -/
theorem said?_append (hback : back.takeWhile isBlank = []) :
    said? (blanks ++ back)
      = if isSilent (dropReturn back) then none else some (blanks.length, dropReturn back) := by
  have hrest := takeWhile_dropReturn hback
  simp only [said?, lineOf?, dropReturn_append hblanks, takeWhile_append_eq_left hblanks hrest,
    dropWhile_append_eq_right hblanks hrest]
  split <;> rfl

end Blanks

/-- A row that says nothing would be passed over at the top too. -/
theorem isPassedOver_of_said?_eq_none {row : List UInt8} (h : said? row = none) :
    isPassedOver row = true := by
  obtain ⟨blanks, back, rfl, hblanks, hback⟩ := exists_blanks row
  have hsilent : isSilent (dropReturn back) = true := by
    rw [said?_append hblanks hback] at h
    by_contra hheard
    simp [hheard] at h
  have hover : isPassedOver (dropReturn back) = true := by
    rcases isSilent_eq_true_iff.1 hsilent with hnil | ⟨comment, hcomment⟩
    · rw [hnil]
      rfl
    · rw [hcomment]
      rfl
  rwa [isPassedOver_append hblanks, ← isPassedOver_dropReturn]

/-- Behind blanks neither nothing nor a comment says anything. -/
theorem said?_of_isSilent {blanks back : List UInt8} (hblanks : ∀ b ∈ blanks, isBlank b = true)
    (h : isSilent back = true) : said? (blanks ++ back) = none := by
  rcases isSilent_eq_true_iff.1 h with rfl | ⟨comment, rfl⟩
  · rw [said?_append hblanks rfl]
    rfl
  · rw [said?_append hblanks rfl, dropReturn_cons (by decide)]
    rfl

/-! ## What all rows say -/

/-- What is said by rows, the top of which is passed over. -/
def heard (rows : List (List UInt8)) : List (Nat × List UInt8) :=
  (rows.dropWhile isPassedOver).filterMap said?

theorem heard_cons_of_passedOver {row : List UInt8} (h : isPassedOver row = true)
    (below : List (List UInt8)) : heard (row :: below) = heard below := by
  rw [heard, heard, List.dropWhile_cons_of_pos h]

theorem heard_cons {row : List UInt8} (h : ¬ isPassedOver row = true)
    (below : List (List UInt8)) : heard (row :: below) = (row :: below).filterMap said? := by
  rw [heard, List.dropWhile_cons_of_neg h]

/-- Of rows below others that are all passed over the top is passed over too. -/
theorem heard_append_of_passedOver {above : List (List UInt8)}
    (h : ∀ row ∈ above, isPassedOver row = true) (below : List (List UInt8)) :
    heard (above ++ below) = heard below := by
  rw [heard, heard, List.dropWhile_append_of_pos h]

/-- Below a row that is not passed over each row is heard that says something. -/
theorem heard_append {above : List (List UInt8)} (h : ¬ ∀ row ∈ above, isPassedOver row = true)
    (below : List (List UInt8)) :
    heard (above ++ below) = heard above ++ below.filterMap said? := by
  have hrest : above.dropWhile isPassedOver ≠ [] := mt List.dropWhile_eq_nil_iff.1 h
  rw [heard, heard, List.dropWhile_append, if_neg (by simpa using hrest), List.filterMap_append]

/-- A row that is passed over may stand between rows if it says nothing, or if all above it are
passed over. -/
theorem heard_insert {above : List (List UInt8)} {row : List UInt8} (h : isPassedOver row = true)
    (hplace : said? row = none ∨ ∀ row ∈ above, isPassedOver row = true)
    (below : List (List UInt8)) : heard (above ++ row :: below) = heard (above ++ below) := by
  by_cases habove : ∀ row ∈ above, isPassedOver row = true
  · rw [heard_append_of_passedOver habove, heard_append_of_passedOver habove,
      heard_cons_of_passedOver h]
  · have hnone := hplace.resolve_right habove
    rw [heard_append habove, heard_append habove, List.filterMap_cons_none hnone]

/-- The lines of a text are what its rows say. -/
theorem map_said_lines (span : Span) :
    (lines span).map Line.said = (rows span.bytes).filterMap said? := by
  fun_induction lines span with
  | case1 span line hsplit =>
    rw [rows_of_splitLine_eq_none hsplit, List.filterMap_cons, ← map_said_lineOf? span.start]
    cases lineOf? span.start line <;> rfl
  | case2 span line rest hsplit ih =>
    rw [rows_of_splitLine_eq_some hsplit, List.filterMap_cons, ← map_said_lineOf? span.start,
      List.map_append, ih]
    cases lineOf? span.start line <;> rfl

/-- The lines below the top of a text are what is heard of its rows. -/
theorem map_said_lines_skipHeader (span : Span) :
    (lines (skipHeader span)).map Line.said = heard (rows span.bytes) := by
  fun_induction skipHeader span with
  | case1 span line hsplit hover =>
    have hend : span.bytes.drop line.length = [] := by
      rw [eq_of_splitLine_eq_none hsplit, List.drop_length]
    rw [Span.drop, hend, lines_nil, rows_of_splitLine_eq_none hsplit,
      heard_cons_of_passedOver hover]
    rfl
  | case2 span line hsplit hheard =>
    rw [map_said_lines, rows_of_splitLine_eq_none hsplit, heard_cons hheard]
  | case3 span line rest hsplit hover ih =>
    rw [ih, rows_of_splitLine_eq_some hsplit, heard_cons_of_passedOver hover]
  | case4 span line rest hsplit hheard =>
    rw [map_said_lines, rows_of_splitLine_eq_some hsplit, heard_cons hheard]

/-! ## Texts of lines -/

/-- The row of a line: its content behind as many spaces as it is indented. -/
def rowOf (l : Nat × List UInt8) : List UInt8 := List.replicate l.1 0x20 ++ l.2

theorem said?_rowOf {l : Nat × List UInt8} (h : IsContent l.2) : said? (rowOf l) = some l := by
  rw [rowOf, said?_append isBlank_of_mem_spaces h.takeWhile_isBlank, h.dropReturn, h.silent,
    List.length_replicate]
  rfl

section Lines

variable {l : Nat × List UInt8} {ls : List (Nat × List UInt8)}

theorem rows_linesText (h : ∀ l ∈ ls, IsContent l.2) :
    rows (linesText ls) = ls.map rowOf ++ [[]] := by
  induction ls with
  | nil => rfl
  | cons l ls ih =>
    obtain ⟨hl, hls⟩ := List.forall_mem_cons.1 h
    have hrow : newline ∉ rowOf l := by
      rw [rowOf, List.mem_append, not_or]
      exact ⟨newline_notMem_spaces, hl.no_newline⟩
    have htext : linesText (l :: ls) = rowOf l ++ newline :: linesText ls := by
      simp [linesText, lineText, rowOf, newline]
    rw [htext, rows_append_of_notMem hrow, ih hls]
    rfl

theorem filterMap_said?_linesText (h : ∀ l ∈ ls, IsContent l.2) :
    (rows (linesText ls)).filterMap said? = ls := by
  have hsaid : (ls.map rowOf).filterMap said? = ls := by
    induction ls with
    | nil => rfl
    | cons l ls ih =>
      obtain ⟨hl, hls⟩ := List.forall_mem_cons.1 h
      rw [List.map_cons, List.filterMap_cons_some (said?_rowOf hl), ih hls]
  rw [rows_linesText h, List.filterMap_append, hsaid]
  exact List.append_nil ls

/-- All lines of a text are heard if the first is not passed over. -/
theorem heard_linesText (h : ∀ l' ∈ l :: ls, IsContent l'.2)
    (hheard : ¬ isPassedOver (rowOf l) = true) : heard (rows (linesText (l :: ls))) = l :: ls := by
  have hsaid := filterMap_said?_linesText h
  rw [rows_linesText h, List.map_cons, List.cons_append] at hsaid ⊢
  rwa [heard_cons hheard]

/-- A first line that is passed over is not heard. -/
theorem heard_linesText_subset (h : ∀ l' ∈ l :: ls, IsContent l'.2)
    (hover : isPassedOver (rowOf l) = true) : heard (rows (linesText (l :: ls))) ⊆ ls := by
  have hls := (List.forall_mem_cons.1 h).2
  have hbelow := filterMap_said?_linesText hls
  rw [rows_linesText hls] at hbelow
  rw [rows_linesText h, List.map_cons, List.cons_append, heard_cons_of_passedOver hover]
  calc heard (ls.map rowOf ++ [[]])
    _ ⊆ (ls.map rowOf ++ [[]]).filterMap said? :=
      List.filterMap_subset said? (List.dropWhile_suffix _).subset
    _ = ls := hbelow

end Lines

end SamplingProfile.Text
