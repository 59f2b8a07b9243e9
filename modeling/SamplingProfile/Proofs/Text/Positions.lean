-- Where the errors of a text profile are met: in the line that is not as it should be, and so in
-- the text. Only the first line of all can be refused because no function is there yet.
import SamplingProfile.Proofs.Reading.Positions
import SamplingProfile.Proofs.Text.Lines
import SamplingProfile.Proofs.Text.Reading

namespace SamplingProfile

/-- The other span is a part of the span. -/
def Span.Contains (s inner : Span) : Prop := s.start ≤ inner.start ∧ inner.stop ≤ s.stop

namespace Span

variable {s middle inner : Span}

theorem contains_self (s : Span) : s.Contains s := ⟨Nat.le_refl _, Nat.le_refl _⟩

theorem Contains.trans (h : s.Contains middle) (h' : middle.Contains inner) : s.Contains inner :=
  ⟨Nat.le_trans h.1 h'.1, Nat.le_trans h'.2 h.2⟩

/-- What is left of a span is a part of it. -/
theorem contains_of_stop_eq (h : s.start ≤ inner.start ∧ inner.stop = s.stop) : s.Contains inner :=
  ⟨h.1, Nat.le_of_eq h.2⟩

end Span

namespace Text

open Reader

/-! ## Errors in a span -/

/-- A problem of a single line, whatever is above it. -/
def OfLine (p : Problem) : Prop := p ≠ .expectedFunction

instance (p : Problem) : Decidable (OfLine p) := inferInstanceAs (Decidable (_ ≠ _))

/-- What stops does so in the span, and for a problem of a single line. -/
def StopsIn {α : Type} (span : Span) (result : Except ParseError α) : Prop :=
  ∀ e, result = .error e → OfLine e.problem ∧ e.Between span.start span.stop

section StopsIn

variable {α β : Type} {span inner : Span} {result : Except ParseError α}

theorem stopsIn_ok (a : α) : StopsIn span (.ok a) := fun _ h => nomatch h

theorem stopsIn_error {p : Problem} (hp : OfLine p) {offset : Nat} (hfirst : span.start ≤ offset)
    (hlast : offset ≤ span.stop) :
    StopsIn span (.error { problem := p, offset } : Except ParseError α) := by
  intro e h
  cases h
  exact ⟨hp, ParseError.between_of_offset hfirst hlast⟩

theorem StopsIn.mono (h : StopsIn inner result) (hspan : span.Contains inner) :
    StopsIn span result :=
  fun e he => ⟨(h e he).1, (h e he).2.mono hspan.1 hspan.2⟩

theorem StopsIn.bind {f : α → Except ParseError β} (h : StopsIn span result)
    (hf : ∀ a, result = .ok a → StopsIn span (f a)) : StopsIn span (result >>= f) := by
  intro e he
  cases result with
  | error _ =>
    cases he
    exact h e rfl
  | ok a => exact hf a rfl e he

theorem stopsIn_mapM {f : α → Except ParseError β} {xs : List α}
    (h : ∀ x ∈ xs, StopsIn span (f x)) : StopsIn span (xs.mapM f) := by
  induction xs with
  | nil => exact stopsIn_ok []
  | cons x xs ih =>
    rw [List.forall_mem_cons] at h
    rw [List.mapM_cons]
    exact h.1.bind fun y _ => (ih h.2).bind fun ys _ => stopsIn_ok (y :: ys)

theorem stopsIn_of_located {r : Reader α} (h : r.Located OfLine span.start) :
    StopsIn span (r span) := by
  intro e he
  have hspan := h span (Nat.le_refl _)
  rw [he] at hspan
  exact hspan

theorem contains_of_located {r : Reader α} (h : r.Located OfLine span.start) {a : α}
    {rest : Span} (hr : r span = .ok (a, rest)) : span.Contains rest := by
  have hspan := h span (Nat.le_refl _)
  rw [hr] at hspan
  exact Span.contains_of_stop_eq hspan

end StopsIn

/-! ## Tokens -/

section Tokens

variable {first : Nat}

/-- A reader that goes on behind some bytes that are there. -/
theorem locatedAt_drop {α : Type} {problems : Problem → Prop} {span : Span} {n : Nat}
    (h : n ≤ span.bytes.length) (a : α) : LocatedAt problems first span (.ok (a, span.drop n)) :=
  ⟨Nat.le_add_right .., Span.stop_drop h⟩

theorem locatedAt_failAt {α : Type} {p : Problem} (hp : OfLine p) {span : Span}
    (hfirst : first ≤ span.start) :
    LocatedAt OfLine first span
      (.error { problem := p, offset := span.start } : Except ParseError (α × Span)) :=
  ⟨hp, ParseError.between_of_offset hfirst span.start_le_stop⟩

theorem located_readDecimal : readDecimal.Located OfLine first := by
  intro span hfirst
  have hle : (span.bytes.takeWhile Decimal.isDigit).length ≤ span.bytes.length :=
    (List.takeWhile_sublist _).length_le
  rw [readDecimal, bind_of_ok (run_get span)]
  dsimp only
  split
  · exact locatedAt_failAt (by decide) hfirst
  · split
    · exact locatedAt_drop hle _
    · exact locatedAt_failAt (by decide) hfirst

theorem located_readEnd : readEnd.Located OfLine first := by
  refine located_get_bind fun span => ?_
  split
  · exact located_fail (by decide)
  · exact located_pure ()

theorem located_readBlanks : readBlanks.Located OfLine first := by
  intro span hfirst
  have hle : (span.bytes.takeWhile isBlank).length ≤ span.bytes.length :=
    (List.takeWhile_sublist _).length_le
  rw [readBlanks, bind_of_ok (run_get span)]
  cases hn : (span.bytes.takeWhile isBlank).length with
  | zero => exact locatedAt_failAt (by decide) hfirst
  | succ n => exact locatedAt_drop (hn ▸ hle) _

theorem located_readByte (b : UInt8) {p : Problem} (hp : OfLine p) :
    (readByte b p).Located OfLine first := by
  intro span hfirst
  rw [readByte, bind_of_ok (run_get span)]
  split
  · rename_i hhead
    obtain ⟨tail, htail⟩ := List.head?_eq_some_iff.1 hhead
    refine locatedAt_drop ?_ _
    rw [htail]
    exact Nat.le_add_left ..
  · exact locatedAt_failAt hp hfirst

theorem located_readHalf : readHalf.Located OfLine first := by
  refine located_get_bind fun span => located_readDecimal.bind fun n => ?_
  split
  · exact (located_failAt (by decide) rfl).bind fun _ => located_pure _
  · exact located_pure _

theorem located_optional {α : Type} {r : Reader α} (hr : r.Located OfLine first) :
    (Reader.optional r).Located OfLine first := by
  intro span hfirst
  have hspan := hr span hfirst
  unfold Reader.optional
  cases hrun : r span with
  | ok p =>
    rw [hrun] at hspan
    exact hspan
  | error e =>
    rw [hrun] at hspan
    dsimp only
    split
    · exact hspan
    · exact located_pure none span hfirst

theorem located_readLocation : readLocation.Located OfLine first := by
  have hdot : Located OfLine first (do
      readByte 0x2e .expectedColon
      readHalf) := (located_readByte 0x2e (by decide)).bind fun _ => located_readHalf
  exact located_readHalf.bind fun _ => (located_optional hdot).bind fun _ =>
    (located_readByte 0x3a (by decide)).bind fun _ => located_pure _

theorem located_readNumber : readNumber.Located OfLine first :=
  located_readDecimal.bind fun _ => located_readEnd.bind fun _ => located_pure _

theorem located_seqLeft {α β : Type} {r : Reader α} {r' : Reader β}
    (hr : r.Located OfLine first) (hr' : r'.Located OfLine first) :
    (r <* r').Located OfLine first := by
  rw [seqLeft_eq_bind]
  exact hr.bind fun _ => hr'.bind fun _ => located_pure _

end Tokens

/-! ## Lines -/

section Lines

variable {span front back word : Span}

/-- Both halves of a span that is parted at a colon. -/
theorem contains_of_splitLastColon (h : splitLastColon span = some (front, back)) :
    span.Contains front ∧ span.Contains back := by
  have hlength := congrArg List.length (splitLastColon_eq_some h)
  rw [List.length_append, List.length_cons] at hlength
  unfold splitLastColon at h
  split at h
  · cases h
  · cases h
    simp only [Span.Contains, Span.stop, Span.drop, List.length_reverse] at hlength ⊢
    omega

theorem stopsIn_readNameCount (span : Span) : StopsIn span (readNameCount span) := by
  unfold readNameCount
  cases hsplit : splitLastColon span with
  | none => exact stopsIn_error (by decide) (Nat.le_refl _) span.start_le_stop
  | some halves =>
    obtain ⟨name, count⟩ := halves
    dsimp only
    split
    · exact stopsIn_error (by decide) (Nat.le_refl _) span.start_le_stop
    · exact ((stopsIn_of_located located_readNumber).mono
        (contains_of_splitLastColon hsplit).2).bind fun _ _ => stopsIn_ok _

theorem stopsIn_readFunctionLine (span : Span) : StopsIn span (readFunctionLine span) := by
  unfold readFunctionLine
  cases hsplit : splitLastColon span with
  | none => exact stopsIn_error (by decide) (Nat.le_refl _) span.start_le_stop
  | some halves =>
    obtain ⟨front, entries⟩ := halves
    obtain ⟨hfront, hentries⟩ := contains_of_splitLastColon hsplit
    exact ((stopsIn_of_located located_readNumber).mono hentries).bind fun _ _ =>
      ((stopsIn_readNameCount front).mono hfront).bind fun _ _ => stopsIn_ok _

theorem contains_of_mem_words (h : word ∈ words span) : span.Contains word := by
  fun_induction words span with
  | case1 span hnil => cases h
  | case2 span b rest hdrop n found ih =>
    have hle : (b :: rest).length ≤ span.bytes.length :=
      hdrop ▸ (List.dropWhile_suffix isBlank).length_le
    have hfound : found.length ≤ (b :: rest).length := (List.takeWhile_sublist _).length_le
    rcases List.mem_cons.1 h with rfl | h
    · simp only [Span.Contains, Span.stop]
      omega
    · refine Span.Contains.trans ?_ (ih h)
      simp only [Span.Contains, Span.stop, List.length_drop]
      omega

theorem stopsIn_readTargets (span : Span) : StopsIn span (readTargets span) := by
  refine stopsIn_mapM fun word hword => ?_
  exact ((stopsIn_readNameCount word).mono (contains_of_mem_words hword)).bind
    fun _ _ => stopsIn_ok _

theorem stopsIn_readBodyLine (span : Span) : StopsIn span (readBodyLine span) := by
  have hlocation : (readLocation <* readBlanks).Located OfLine span.start :=
    located_seqLeft located_readLocation located_readBlanks
  refine (stopsIn_of_located hlocation).bind fun found hfound => ?_
  obtain ⟨location, rest⟩ := found
  have hrest := contains_of_located hlocation hfound
  dsimp only
  split
  · exact stopsIn_ok _
  · split
    · rename_i targets hcount
      have htargets := contains_of_located (located_seqLeft located_readDecimal located_readBlanks)
        hcount
      exact ((stopsIn_readTargets targets).mono (hrest.trans htargets)).bind
        fun _ _ => stopsIn_ok _
    · exact ((stopsIn_readNameCount rest).mono hrest).bind fun _ _ => stopsIn_ok _

end Lines

/-! ## The lines of a text -/

theorem contains_of_lineOf? {start : Nat} {line : List UInt8} {l : Line}
    (h : lineOf? start line = some l) : (⟨start, line⟩ : Span).Contains l.content := by
  have hreturn : (dropReturn line).length ≤ line.length := by
    unfold dropReturn
    split
    · exact (List.dropLast_sublist line).length_le
    · exact Nat.le_refl _
  have hsplit := congrArg List.length
    (List.takeWhile_append_dropWhile (p := isBlank) (l := dropReturn line))
  rw [List.length_append] at hsplit
  unfold lineOf? at h
  dsimp only at h
  split at h
  · cases h
  · cases h
    simp only [Span.Contains, Span.stop]
    omega

theorem contains_of_mem_lines {span : Span} {l : Line} (h : l ∈ lines span) :
    span.Contains l.content := by
  fun_induction lines span with
  | case1 span line hline =>
    rw [Option.mem_toList] at h
    have hcontent := contains_of_lineOf? h
    rwa [← eq_of_splitLine_eq_none hline] at hcontent
  | case2 span line rest hline ih =>
    have hlength := length_splitLine hline
    rw [List.mem_append, Option.mem_toList] at h
    rcases h with h | h
    · refine Span.Contains.trans ?_ (contains_of_lineOf? h)
      simp only [Span.Contains, Span.stop]
      omega
    · refine Span.Contains.trans ?_ (ih h)
      simp only [Span.Contains, Span.stop]
      omega

theorem contains_skipHeader (span : Span) : span.Contains (skipHeader span) := by
  fun_induction skipHeader span with
  | case1 span line hline hsilent =>
    have hwhole := congrArg List.length (eq_of_splitLine_eq_none hline)
    exact Span.contains_of_stop_eq ⟨Nat.le_add_right .., Span.stop_drop (Nat.le_of_eq hwhole.symm)⟩
  | case2 span line hline hsilent => exact span.contains_self
  | case3 span line rest hline hsilent ih =>
    have hlength := length_splitLine hline
    refine Span.Contains.trans ?_ ih
    simp only [Span.Contains, Span.stop]
    omega
  | case4 span line rest hline hsilent => exact span.contains_self

/-- What stops does so in one of the lines, and for a problem of that line. -/
def StopsAmong {α : Type} (ls : List Line) (result : Except ParseError α) : Prop :=
  ∀ e, result = .error e → ∃ l ∈ ls, OfLine e.problem ∧ e.Between l.content.start l.content.stop

section StopsAmong

variable {α β : Type} {ls : List Line} {line : Line} {result : Except ParseError α}

theorem StopsIn.among (h : StopsIn line.content result) (hline : line ∈ ls) :
    StopsAmong ls result := fun e he => ⟨line, hline, h e he⟩

theorem stopsAmong_failAtLine {p : Problem} (hp : OfLine p) (hline : line ∈ ls) :
    StopsAmong ls (failAtLine line p : Except ParseError α) :=
  (stopsIn_error hp (Nat.le_refl _) line.content.start_le_stop).among hline

theorem StopsAmong.mono {more : List Line} (h : StopsAmong ls result) (hsub : ls ⊆ more) :
    StopsAmong more result := by
  intro e he
  obtain ⟨l, hl, hstop⟩ := h e he
  exact ⟨l, hsub hl, hstop⟩

theorem StopsAmong.bind {f : α → Except ParseError β} (h : StopsAmong ls result)
    (hf : ∀ a, result = .ok a → StopsAmong ls (f a)) : StopsAmong ls (result >>= f) := by
  intro e he
  cases result with
  | error _ =>
    cases he
    exact h e rfl
  | ok a => exact hf a rfl e he

end StopsAmong

/-- A body is refused for one of its lines. -/
theorem stopsAmong_readItems (indent levels : Nat) (node : FunctionProfile) (ls : List Line) :
    StopsAmong ls (readItems indent levels node ls) := by
  -- the lines of a callee are taken from those behind, so on their number
  induction hn : ls.length using Nat.strongRecOn generalizing indent levels node ls with
  | _ n ih =>
    cases ls with
    | nil =>
      rw [readItems]
      intro e h
      cases h
    | cons line rest =>
      rw [List.length_cons] at hn
      have hline : line ∈ line :: rest := List.mem_cons_self
      have hdeeper := length_deeper_le indent rest
      have hbehind := length_behind_le indent rest
      rw [readItems]
      split
      · exact stopsAmong_failAtLine (by decide) hline
      · refine ((stopsIn_readBodyLine line.content).among hline).bind fun said _ => ?_
        cases said with
        | sample location count targets =>
          dsimp only
          split
          · exact stopsAmong_failAtLine (by decide) hline
          · exact (ih _ (by omega) _ _ _ rest rfl).mono (List.subset_cons_self _ _)
        | callee site =>
          cases levels with
          | zero => exact stopsAmong_failAtLine (by decide) hline
          | succ below =>
            dsimp only
            have hcallee := ih _ (by omega) (bodyIndent (deeper indent rest)) below
              (.ofName site.callee) (deeper indent rest) rfl
            refine (hcallee.mono ?_).bind fun callee _ => ?_
            · exact List.subset_cons_of_subset line (deeper_subset indent rest)
            · split
              · exact stopsAmong_failAtLine (by decide) hline
              · exact (ih _ (by omega) _ _ _ (behind indent rest) rfl).mono
                  (List.subset_cons_of_subset line (behind_subset indent rest))

/-- What follows a body is not indented deeper than what it belongs to. -/
theorem indent_le_of_behind_eq_cons {indent : Nat} {ls rest : List Line} {line : Line}
    (h : behind indent ls = line :: rest) : line.indent ≤ indent := by
  have hhead := List.head?_dropWhile_not (fun l : Line => decide (indent < l.indent)) ls
  unfold behind at h
  rw [h] at hhead
  simpa using hhead

/-- Functions are refused for one of their lines, or because the first line of all is indented. -/
theorem stopsAmong_readFunctions {s : Store} {ls : List Line} {e : ParseError}
    (h : readFunctions s ls = .error e) :
    (∃ l ∈ ls, OfLine e.problem ∧ e.Between l.content.start l.content.stop) ∨
      ∃ line rest, ls = line :: rest ∧ line.indent ≠ 0 ∧
        e = { problem := .expectedFunction, offset := line.content.start } := by
  induction hn : ls.length using Nat.strongRecOn generalizing s ls with
  | _ n ih =>
    cases ls with
    | nil =>
      rw [readFunctions] at h
      cases h
    | cons line rest =>
      rw [List.length_cons] at hn
      have hline : line ∈ line :: rest := List.mem_cons_self
      have hbehind := length_behind_le 0 rest
      rw [readFunctions] at h
      split at h
      · rename_i hindent
        cases h
        exact .inr ⟨line, rest, rfl, hindent, rfl⟩
      · -- all that is read of this function stops among its lines
        cases hfunction : readFunctionLine line.content with
        | error e' =>
          rw [hfunction] at h
          cases h
          exact .inl ((stopsIn_readFunctionLine line.content).among hline e hfunction)
        | ok said =>
          obtain ⟨name, total, entryCount⟩ := said
          rw [hfunction] at h
          have hbody := stopsAmong_readItems (bodyIndent (deeper 0 rest)) maxInlineDepth
            { FunctionProfile.ofName name with entryCount := UInt64.ofNat entryCount }
            (deeper 0 rest)
          cases hf : readBody maxInlineDepth
              { FunctionProfile.ofName name with entryCount := UInt64.ofNat entryCount }
              (deeper 0 rest) with
          | error e' =>
            simp only [bind, Except.bind, hf] at h
            cases h
            exact .inl (hbody.mono (List.subset_cons_of_subset line (deeper_subset 0 rest)) e hf)
          | ok f =>
            simp only [bind, Except.bind, hf] at h
            split at h
            · exact .inl (stopsAmong_failAtLine (by decide) hline e h)
            · rcases ih _ (by omega) h rfl with ⟨l, hl, hstop⟩ | ⟨next, more, hnext, hindent, -⟩
              · exact .inl ⟨l, List.mem_cons_of_mem line (behind_subset 0 rest hl), hstop⟩
              · exact absurd (Nat.le_zero.1 (indent_le_of_behind_eq_cons hnext)) hindent

/-- A text is refused for what is met in its bytes. -/
theorem between_of_read {bytes : List UInt8} {e : ParseError} (h : Text.read bytes = .error e) :
    e.Between 0 bytes.length := by
  have hwhole : (Span.ofBytes bytes).stop = bytes.length := Nat.zero_add _
  have hlines : ∀ l ∈ lines (skipHeader (.ofBytes bytes)), l.content.stop ≤ bytes.length := by
    intro l hl
    have hcontains := (contains_skipHeader (.ofBytes bytes)).trans (contains_of_mem_lines hl)
    exact hwhole ▸ hcontains.2
  rcases stopsAmong_readFunctions h with ⟨l, hl, -, hstop⟩ | ⟨line, rest, hcons, -, rfl⟩
  · exact hstop.mono (Nat.zero_le _) (hlines l hl)
  · have hline := hlines line (by rw [hcons]; exact List.mem_cons_self)
    exact ParseError.between_of_offset (Nat.zero_le _)
      (Nat.le_trans line.content.start_le_stop hline)

end Text

end SamplingProfile
