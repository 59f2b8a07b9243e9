-- The layout of a text says nothing but what is nested in what. Returns in front of newlines, lines
-- of blanks and comments, and how deep lines are indented as long as the same ones are deeper, may
-- all be changed. Totals are read and not kept, so they may be changed too.
import Mathlib.Order.Monotone.Basic
import SamplingProfile.Proofs.Text.Nesting
import SamplingProfile.Proofs.Text.Tokens

namespace SamplingProfile.Text

/-! ## Returns -/

/-- The text with a return in front of every newline. -/
def withReturns (text : List UInt8) : List UInt8 :=
  text.flatMap fun b => if b = newline then [0x0d, newline] else [b]

theorem forall₂_rows_withReturns {text : List UInt8} (h : 0x0d ∉ text) :
    List.Forall₂ (fun row row' => 0x0d ∉ row ∧ (row' = row ∨ row' = row ++ [0x0d]))
      (rows text) (rows (withReturns text)) := by
  induction text with
  | nil => exact .cons ⟨List.not_mem_nil, .inl rfl⟩ .nil
  | cons b text ih =>
    rw [List.mem_cons, not_or] at h
    have hrest := ih h.2
    rw [withReturns, List.flatMap_cons, ← withReturns, rows_cons]
    by_cases hb : b = newline
    · rw [if_pos hb, if_pos hb]
      simp only [List.cons_append, List.nil_append, rows_cons]
      exact .cons ⟨List.not_mem_nil, .inr rfl⟩ hrest
    · rw [if_neg hb, if_neg hb, List.singleton_append, rows_cons, if_neg hb]
      generalize rows text = above, rows (withReturns text) = above' at hrest ⊢
      cases hrest with
      | nil => exact .nil
      | cons hfirst hmore =>
        obtain ⟨hreturn, rfl | rfl⟩ := hfirst
        · exact .cons ⟨by simp [h.1, hreturn], .inl rfl⟩ hmore
        · exact .cons ⟨by simp [h.1, hreturn], .inr rfl⟩ hmore

theorem RowsSaySame.of_eq {row row' : List UInt8} (hover : isPassedOver row = isPassedOver row')
    (hsaid : said? row = said? row') : RowsSaySame Eq row row' := by
  refine ⟨hover, ?_⟩
  rw [hsaid]
  cases said? row' with
  | none => exact .none
  | some l => exact .some (.of_indent rfl l.2)

/-! ## Indents -/

/-- The row indented by as many spaces as `f` says for its indent. -/
def reindentRow (f : Nat → Nat) (row : List UInt8) : List UInt8 :=
  List.replicate (f (row.takeWhile isBlank).length) 0x20 ++ row.dropWhile isBlank

/-- The text with each row indented as `f` says. -/
def reindent (f : Nat → Nat) (text : List UInt8) : List UInt8 :=
  [newline].intercalate ((rows text).map (reindentRow f))

theorem rows_reindent (f : Nat → Nat) (text : List UInt8) :
    rows (reindent f text) = (rows text).map (reindentRow f) := by
  refine List.splitOn_intercalate newline ?_ ?_
  · intro row' hrow'
    obtain ⟨row, hrow, rfl⟩ := List.mem_map.1 hrow'
    rw [reindentRow, List.mem_append, not_or]
    exact ⟨newline_notMem_spaces, fun hback =>
      newline_notMem_of_mem_rows hrow ((List.dropWhile_suffix isBlank).subset hback)⟩
  · exact mt List.map_eq_nil_iff.1 (List.splitOn_ne_nil newline text)

theorem keepsDepth_of_strictMono {f : Nat → Nat} (hf : StrictMono f) (hzero : f 0 = 0) :
    KeepsDepth fun m n => n = f m := by
  refine ⟨hzero.symm, ?_⟩
  rintro m n m' n' rfl rfl
  exact hf.lt_iff_lt.symm

theorem RowsSaySame.reindentRow (f : Nat → Nat) (row : List UInt8) :
    RowsSaySame (fun m n => n = f m) row (reindentRow f row) := by
  obtain ⟨blanks, back, rfl, hblanks, hback⟩ := exists_blanks row
  rw [Text.reindentRow, takeWhile_append_eq_left hblanks hback,
    dropWhile_append_eq_right hblanks hback]
  refine ⟨?_, ?_⟩
  · rw [isPassedOver_append hblanks, isPassedOver_append isBlank_of_mem_spaces]
  · rw [said?_append hblanks hback, said?_append isBlank_of_mem_spaces hback,
      List.length_replicate]
    split
    · exact .none
    · refine .some (.of_indent ?_ _)
      rfl

/-! ## Totals -/

/-- Two rows that differ at most in a total: in that between the last two colons of a row that is
not indented, or in that behind the last colon of a row that is indented and says a callee. -/
inductive SameButTotal : List UInt8 → List UInt8 → Prop
  | same (row : List UInt8) : SameButTotal row row
  | function {name total total' entries : List UInt8} {n n' : Nat}
    (hname : name.takeWhile isBlank = []) (htotal : IsNumber total n)
    (htotal' : IsNumber total' n') (hentries : 0x3a ∉ entries) :
    SameButTotal (name ++ 0x3a :: (total ++ 0x3a :: entries))
      (name ++ 0x3a :: (total' ++ 0x3a :: entries))
  | callee {blanks front total total' tail : List UInt8} {n n' : Nat} {site : Callsite}
    (hblanks : IsBlanks blanks)
    (hline : readBodyLine (.ofBytes (front ++ 0x3a :: total)) = .ok (.callee site))
    (htotal : IsNumber total n) (htotal' : IsNumber total' n')
    (htail : tail = [] ∨ tail = [0x0d]) :
    SameButTotal (blanks ++ (front ++ 0x3a :: (total ++ tail)))
      (blanks ++ (front ++ 0x3a :: (total' ++ tail)))

/-- What a line says of a function does not hang on its total. -/
theorem exists_readFunctionLine_iff {name total entries : List UInt8} {n : Nat}
    (htotal : IsNumber total n) (hentries : 0x3a ∉ entries) {text : String} {entryCount : Nat} :
    (∃ read, readFunctionLine (.ofBytes (name ++ 0x3a :: (total ++ 0x3a :: entries)))
        = .ok (text, read, entryCount)) ↔
      name = encodeText text ∧ IsNumber entries entryCount := by
  constructor
  · rintro ⟨read, hread⟩
    obtain ⟨front, entries', hbytes, ⟨digits, rfl, hdigits⟩, hcount⟩ :=
      readFunctionLine_eq_ok_iff.1 hread
    have hwhole : (name ++ 0x3a :: total) ++ 0x3a :: entries
        = (encodeText text ++ 0x3a :: digits) ++ 0x3a :: entries' := by
      rw [List.append_assoc]
      exact hbytes
    obtain ⟨hfront, rfl⟩ := eq_of_append_colon hwhole hentries hcount.colon_notMem
    exact ⟨(eq_of_append_colon hfront htotal.colon_notMem hdigits.colon_notMem).1, hcount⟩
  · rintro ⟨rfl, hcount⟩
    refine ⟨n, readFunctionLine_eq_ok_iff.2 ⟨_, entries, ?_, ⟨total, rfl, htotal⟩, hcount⟩⟩
    simp [Span.ofBytes]

/-- A line that says a callee says it with any other total. -/
theorem readBodyLine_total {front total total' : List UInt8} {n n' : Nat} {site : Callsite}
    (h : readBodyLine (.ofBytes (front ++ 0x3a :: total)) = .ok (.callee site))
    (htotal : IsNumber total n) (htotal' : IsNumber total' n') :
    readBodyLine (.ofBytes (front ++ 0x3a :: total')) = .ok (.callee site) := by
  obtain ⟨behind, _, hline, hcount, digits, rfl, hdigits⟩ := readBodyLine_eq_callee_iff.1 h
  obtain ⟨text, blanks, hlocation, hblanks, hbytes⟩ := hline.front
  have hwhole : front ++ 0x3a :: total
      = (text ++ 0x3a :: (blanks ++ encodeText site.callee)) ++ 0x3a :: digits := by
    rw [List.append_assoc, List.cons_append, List.append_assoc]
    exact hbytes
  obtain ⟨rfl, -⟩ := eq_of_append_colon hwhole htotal.colon_notMem hdigits.colon_notMem
  have hunblank : (encodeText site.callee ++ 0x3a :: total').takeWhile isBlank = [] :=
    takeWhile_append_eq_nil (takeWhile_eq_nil_of_append hline.unblank) rfl
  rw [readBodyLine_eq_callee_iff]
  refine ⟨_, n', ⟨⟨text, blanks, hlocation, hblanks, ?_⟩, hunblank⟩, ?_, total', rfl, htotal'⟩
  · simp [Span.ofBytes]
  · exact leadingCount?_append_colon_iff.2 (leadingCount?_append_colon_iff.1 hcount)

theorem dropReturn_append_colon (front back : List UInt8) :
    dropReturn (front ++ 0x3a :: back) = front ++ 0x3a :: dropReturn back := by
  rw [dropReturn_append_of_ne_nil front (List.cons_ne_nil _ _), dropReturn_cons (by decide)]

section Colon

variable {front : List UInt8} (back back' : List UInt8)

/-- What stands behind a colon does not make a row one to be passed over. -/
theorem isPassedOver_append_colon :
    isPassedOver (front ++ 0x3a :: back) = isPassedOver (front ++ 0x3a :: back') := by
  have hcolon : isSpace 0x3a = false := by decide
  unfold isPassedOver
  rw [List.dropWhile_append, List.dropWhile_append]
  cases front.dropWhile isSpace <;> simp [isSilent, hcolon]

variable {back back'}

/-- Rows that are the same up to a colon say the same if they do behind it too. -/
theorem RowsSaySame.of_colon {blanks : List UInt8} (hblanks : ∀ b ∈ blanks, isBlank b = true)
    (hfront : front.takeWhile isBlank = [])
    (h : SaysSame Eq (blanks.length, front ++ 0x3a :: dropReturn back)
      (blanks.length, front ++ 0x3a :: dropReturn back')) :
    RowsSaySame Eq (blanks ++ (front ++ 0x3a :: back)) (blanks ++ (front ++ 0x3a :: back')) := by
  have hunblank : ∀ behind, (front ++ 0x3a :: behind).takeWhile isBlank = [] :=
    fun behind => takeWhile_append_eq_nil hfront rfl
  have hsilent : isSilent (front ++ 0x3a :: dropReturn back)
      = isSilent (front ++ 0x3a :: dropReturn back') := by
    cases front <;> rfl
  refine ⟨?_, ?_⟩
  · rw [isPassedOver_append hblanks, isPassedOver_append hblanks]
    exact isPassedOver_append_colon back back'
  · rw [said?_append hblanks (hunblank back), said?_append hblanks (hunblank back'),
      dropReturn_append_colon, dropReturn_append_colon, hsilent]
    split
    · exact .none
    · exact .some h

end Colon

theorem SameButTotal.rowsSaySame {row row' : List UInt8} (h : SameButTotal row row') :
    RowsSaySame Eq row row' := by
  cases h with
  | same => exact .of_eq rfl rfl
  | @function name total total' entries _ _ hname htotal htotal' hentries =>
    have hcolon : 0x3a ∉ dropReturn entries := fun hmem =>
      hentries ((isPrefix_dropReturn entries).subset hmem)
    refine .of_colon (List.forall_mem_nil _) hname ?_
    rw [dropReturn_append_colon, dropReturn_append_colon]
    refine ⟨rfl, fun _ text entryCount => ?_, fun hne => absurd rfl hne⟩
    exact (exists_readFunctionLine_iff htotal hcolon).trans
      (exists_readFunctionLine_iff htotal' hcolon).symm
  | @callee blanks front total total' tail _ _ site hblanks hline htotal htotal' htail =>
    have hdrop : ∀ {digits : List UInt8} {n : Nat}, IsNumber digits n →
        dropReturn (digits ++ tail) = digits := by
      intro digits n hdigits
      have hreturn : 0x0d ∉ digits := fun hmem => nomatch hdigits.all_digits _ hmem
      rcases htail with rfl | rfl
      · rw [List.append_nil, dropReturn_of_notMem hreturn]
      · exact dropReturn_concat digits
    obtain ⟨behind, _, hbody, -⟩ := readBodyLine_eq_callee_iff.1 hline
    refine .of_colon hblanks.2 (takeWhile_eq_nil_of_append hbody.takeWhile_isBlank) ?_
    rw [hdrop htotal, hdrop htotal']
    have hindent : blanks.length ≠ 0 := mt List.eq_nil_of_length_eq_zero hblanks.1
    refine ⟨rfl, fun hzero => absurd hzero hindent, fun _ said => ?_⟩
    rw [hline, readBodyLine_total hline htotal htotal']

/-! ## Texts laid out another way -/

/-- The same lines laid out another way, or with other totals. -/
inductive Relaid : List UInt8 → List UInt8 → Prop
  | returns {text : List UInt8} (h : 0x0d ∉ text) : Relaid text (withReturns text)
  | idle {front blanks comment back : List UInt8} (hfront : EndsLine front)
    (hblanks : ∀ b ∈ blanks, isBlank b = true) (hcomment : isSilent comment = true)
    (hline : newline ∉ comment) :
    Relaid (front ++ back) (front ++ (blanks ++ comment ++ newline :: back))
  | indents {f : Nat → Nat} (hf : StrictMono f) (hzero : f 0 = 0) (text : List UInt8) :
    Relaid text (reindent f text)
  | totals {text text' : List UInt8} (h : List.Forall₂ SameButTotal (rows text) (rows text')) :
    Relaid text text'

/-- A text that is laid out another way is read as the same store, and it is refused if the other
is. -/
theorem layout_says_nothing {text text' : List UInt8} (h : Relaid text text') (s : Store) :
    Text.read text' = .ok s ↔ Text.read text = .ok s := by
  cases h with
  | returns hreturn =>
    refine read_of_rows keepsDepth_eq ((forall₂_rows_withReturns hreturn).imp ?_) s
    rintro row row' ⟨hrow, rfl | rfl⟩
    · exact .of_eq rfl rfl
    · exact .of_eq (isPassedOver_concat row).symm (said?_concat hrow).symm
  | @idle front blanks comment back hfront hblanks hcomment hline =>
    obtain ⟨above, -, hrows⟩ := hfront.exists_rows
    have hnewline : newline ∉ blanks ++ comment := by
      rw [List.mem_append, not_or]
      exact ⟨fun hmem => (nomatch hblanks _ hmem), hline⟩
    have hnone := said?_of_isSilent hblanks hcomment
    refine read_iff_of_heard ?_ s
    rw [hrows, hrows, rows_append_of_notMem hnewline,
      heard_insert (isPassedOver_of_said?_eq_none hnone) (.inl hnone)]
  | @indents f hf hzero =>
    refine read_of_rows (keepsDepth_of_strictMono hf hzero) ?_ s
    rw [rows_reindent, List.forall₂_map_right_iff]
    exact List.forall₂_same.2 fun row _ => .reindentRow f row
  | totals hrows => exact read_of_rows keepsDepth_eq (hrows.imp fun _ _ h => h.rowsSaySame) s

/-- A function with a location and a callee, in which tabs stand in front of a location. -/
def nestedText : List UInt8 := encodeText "f:9:1\n 1: 5 g:2\n 2: h:3\n\t\t1: 4\n"

/-- One store, however the text of it is laid out, and whatever the totals are. -/
theorem layouts_of_nestedText :
    ∃ s, Text.read nestedText = .ok s ∧
      Text.read (encodeText "f:9:1\r\n 1: 5 g:2\r\n 2: h:3\r\n\t\t1: 4\r\n") = .ok s ∧
      Text.read (encodeText "f:9:1\n\t #:\n 1: 5 g:2\n 2: h:3\n\t\t1: 4\n") = .ok s ∧
      Text.read (encodeText "f:9:1\n   1: 5 g:2\n   2: h:3\n      1: 4\n") = .ok s ∧
      Text.read (encodeText "f:0:1\n 1: 5 g:2\n 2: h:18446744073709551615\n\t\t1: 4\n")
        = .ok s := by
  obtain ⟨s, hs⟩ := exists_of_isOk (x := Text.read nestedText) (by decide +kernel)
  refine ⟨s, hs, (layout_says_nothing ?_ s).2 hs, (layout_says_nothing ?_ s).2 hs,
    (layout_says_nothing ?_ s).2 hs, (layout_says_nothing ?_ s).2 hs⟩
  · have htext : encodeText "f:9:1\r\n 1: 5 g:2\r\n 2: h:3\r\n\t\t1: 4\r\n"
        = withReturns nestedText := by decide +kernel
    rw [htext]
    exact .returns (by decide +kernel)
  · have htext : nestedText
        = encodeText "f:9:1\n" ++ encodeText " 1: 5 g:2\n 2: h:3\n\t\t1: 4\n" := by decide +kernel
    have htext' : encodeText "f:9:1\n\t #:\n 1: 5 g:2\n 2: h:3\n\t\t1: 4\n"
        = encodeText "f:9:1\n" ++ ([0x09, 0x20] ++ encodeText "#:"
          ++ newline :: encodeText " 1: 5 g:2\n 2: h:3\n\t\t1: 4\n") := by decide +kernel
    rw [htext, htext']
    exact .idle (.inr ⟨encodeText "f:9:1", by decide +kernel⟩) (List.all_eq_true.1 rfl)
      (by decide +kernel) (by decide +kernel)
  · have htext : encodeText "f:9:1\n   1: 5 g:2\n   2: h:3\n      1: 4\n"
        = reindent (3 * ·) nestedText := by decide +kernel
    rw [htext]
    exact .indents (fun m n h => by omega) rfl nestedText
  · have hrows : rows nestedText
        = [encodeText "f" ++ 0x3a :: (encodeText "9" ++ 0x3a :: encodeText "1"),
          encodeText " 1: 5 g:2", [0x20] ++ (encodeText "2: h" ++ 0x3a :: (encodeText "3" ++ [])),
          encodeText "\t\t1: 4", []] := by decide +kernel
    have hrows' : rows (encodeText "f:0:1\n 1: 5 g:2\n 2: h:18446744073709551615\n\t\t1: 4\n")
        = [encodeText "f" ++ 0x3a :: (encodeText "0" ++ 0x3a :: encodeText "1"),
          encodeText " 1: 5 g:2",
          [0x20] ++ (encodeText "2: h" ++ 0x3a :: (encodeText "18446744073709551615" ++ [])),
          encodeText "\t\t1: 4", []] := by decide +kernel
    have hnine : IsNumber (encodeText "9") 9 := by decide +kernel
    have hzero : IsNumber (encodeText "0") 0 := by decide +kernel
    have hthree : IsNumber (encodeText "3") 3 := by decide +kernel
    have hmost : IsNumber (encodeText "18446744073709551615") 18446744073709551615 := by
      decide +kernel
    have hline : readBodyLine (.ofBytes (encodeText "2: h" ++ 0x3a :: encodeText "3"))
        = .ok (.callee ⟨.ofLine 2 0, "h"⟩) := by decide +kernel
    refine .totals ?_
    rw [hrows, hrows']
    exact .cons (.function (by decide +kernel) hnine hzero (by decide +kernel)) (.cons (.same _)
      (.cons (.callee (by decide) hline hthree hmost (.inl rfl)) (.cons (.same _)
        (.cons (.same _) .nil))))

end SamplingProfile.Text
