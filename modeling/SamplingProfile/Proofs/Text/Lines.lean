-- Texts of lines, and the bytes up to a newline. A line is told by its indent and by what stands
-- behind it; where in the text it stands plays no part in what it says.
import SamplingProfile.Text.Write

namespace SamplingProfile.Text

/-- The indent of a line and the bytes behind it. -/
def Line.said (l : Line) : Nat × List UInt8 := (l.indent, l.content.bytes)

theorem Line.indent_of_said {l : Line} {indent : Nat} {content : List UInt8}
    (h : l.said = (indent, content)) : l.indent = indent := congrArg Prod.fst h

theorem Line.content_of_said {l : Line} {indent : Nat} {content : List UInt8}
    (h : l.said = (indent, content)) : ∃ start, l.content = ⟨start, content⟩ := by
  obtain ⟨own, start, bytes⟩ := l
  cases h
  exact ⟨start, rfl⟩

/-- Contents that stand in a line of their own as they are: no newline ends them early, no blank
or hash is in front, and no carriage return at the end. -/
structure IsContent (content : List UInt8) : Prop where
  no_newline : newline ∉ content
  front : ∃ b rest, content = b :: rest ∧ isBlank b = false ∧ b ≠ 0x23
  back : content.getLast? ≠ some 0x0d

/-- A text of lines, each given by its indent and its content. -/
def linesText (ls : List (Nat × List UInt8)) : List UInt8 := ls.flatMap fun l => lineText l.1 l.2

/-! ## Up to a newline -/

theorem newline_notMem_of_splitLine {bytes line : List UInt8} {rest? : Option (List UInt8)}
    (h : splitLine bytes = (line, rest?)) : newline ∉ line := by
  cases h
  intro hmem
  simpa using List.all_eq_true.1 List.all_takeWhile _ hmem

theorem eq_of_splitLine_eq_none {bytes line : List UInt8}
    (h : splitLine bytes = (line, none)) : bytes = line := by
  simp only [splitLine, Prod.mk.injEq] at h
  obtain ⟨rfl, hrest⟩ := h
  have hwhole := List.takeWhile_append_dropWhile (p := fun b : UInt8 => decide (b ≠ newline))
    (l := bytes)
  cases hdrop : bytes.dropWhile (· ≠ newline) with
  | nil =>
    rw [hdrop, List.append_nil] at hwhole
    exact hwhole.symm
  | cons b rest =>
    rw [hdrop] at hrest
    cases hrest

theorem eq_of_splitLine_eq_some {bytes line rest : List UInt8}
    (h : splitLine bytes = (line, some rest)) : bytes = line ++ newline :: rest := by
  simp only [splitLine, Prod.mk.injEq] at h
  obtain ⟨rfl, hrest⟩ := h
  have hwhole := List.takeWhile_append_dropWhile (p := fun b : UInt8 => decide (b ≠ newline))
    (l := bytes)
  cases hdrop : bytes.dropWhile (· ≠ newline) with
  | nil =>
    rw [hdrop] at hrest
    cases hrest
  | cons b behind =>
    have hend := List.head?_dropWhile_not (fun b : UInt8 => decide (b ≠ newline)) bytes
    rw [hdrop] at hrest hwhole hend
    cases hrest
    obtain rfl : b = newline := by simpa using hend
    exact hwhole.symm

/-! ## Blanks and contents -/

theorem isBlank_of_isSpace {b : UInt8} (h : isSpace b = false) : isBlank b = false := by
  simp only [isSpace, isBlank, decide_eq_false_iff_not, not_or] at h ⊢
  exact ⟨h.1, h.2.1⟩

theorem isBlank_of_mem_spaces {n : Nat} :
    ∀ b ∈ List.replicate n (0x20 : UInt8), isBlank b = true := by
  intro b hb
  rw [List.eq_of_mem_replicate hb]
  rfl

theorem newline_notMem_spaces {n : Nat} : newline ∉ List.replicate n (0x20 : UInt8) := fun hmem =>
  nomatch isBlank_of_mem_spaces newline hmem

theorem IsContent.silent {content : List UInt8} (h : IsContent content) :
    isSilent content = false := by
  obtain ⟨b, rest, rfl, -, hhash⟩ := h.front
  simpa [isSilent] using hhash

theorem IsContent.dropReturn {content : List UInt8} (h : IsContent content) :
    dropReturn content = content := if_neg h.back

theorem IsContent.takeWhile_isBlank {content : List UInt8} (h : IsContent content) :
    content.takeWhile isBlank = [] := by
  obtain ⟨b, rest, rfl, hblank, -⟩ := h.front
  rw [List.takeWhile_cons, hblank]
  rfl

theorem lines_nil (start : Nat) : lines ⟨start, []⟩ = [] := by
  unfold lines
  rfl

end SamplingProfile.Text
