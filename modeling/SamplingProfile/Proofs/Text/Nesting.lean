-- Lines that nest alike are read alike. Of two indents it matters only which is the deeper one, and
-- of the bytes of a line only what is read from them. So two texts whose rows agree in both are
-- read as one store, or neither is read.
import SamplingProfile.Proofs.Text.BodyLines
import SamplingProfile.Proofs.Text.Reading
import SamplingProfile.Proofs.Text.Rows

namespace SamplingProfile.Text

/-! ## Indents that go together -/

/-- Indents of two texts that go together: of two in one text the same one is deeper as in the
other, and what is not indented in one is not indented in the other. -/
structure KeepsDepth (R : Nat → Nat → Prop) : Prop where
  zero : R 0 0
  lt_iff : ∀ {m n m' n' : Nat}, R m n → R m' n' → (m < m' ↔ n < n')

namespace KeepsDepth

variable {R : Nat → Nat → Prop} {m n m' n' : Nat}

theorem symm (h : KeepsDepth R) : KeepsDepth (flip R) :=
  ⟨h.zero, fun hmn hmn' => (h.lt_iff hmn hmn').symm⟩

theorem eq_iff (h : KeepsDepth R) (hmn : R m n) (hmn' : R m' n') : m = m' ↔ n = n' := by
  have hless := h.lt_iff hmn hmn'
  have hmore := h.lt_iff hmn' hmn
  omega

theorem eq_zero_iff (h : KeepsDepth R) (hmn : R m n) : m = 0 ↔ n = 0 := h.eq_iff hmn h.zero

end KeepsDepth

/-! ## Lines that say the same -/

theorem readFunctionLine_ofBytes {span : Span} {said : String × Nat × Nat} :
    readFunctionLine span = .ok said ↔ readFunctionLine (.ofBytes span.bytes) = .ok said := by
  obtain ⟨name, total, entryCount⟩ := said
  rw [readFunctionLine_eq_ok_iff, readFunctionLine_eq_ok_iff]
  rfl

theorem readBodyLine_ofBytes {span : Span} {said : BodyLine} :
    readBodyLine span = .ok said ↔ readBodyLine (.ofBytes span.bytes) = .ok said := by
  cases said with
  | sample location count targets =>
    rw [readBodyLine_eq_sample_iff, readBodyLine_eq_sample_iff]
    rfl
  | callee site =>
    rw [readBodyLine_eq_callee_iff, readBodyLine_eq_callee_iff]
    rfl

/-- Two lines, each given by its indent and its content, that say the same: one function that was
entered as often, or if they are indented one location or one callee. Totals may differ. -/
structure SaysSame (R : Nat → Nat → Prop) (l l' : Nat × List UInt8) : Prop where
  indent : R l.1 l'.1
  function : l.1 = 0 → ∀ name entryCount,
    (∃ total, readFunctionLine (.ofBytes l.2) = .ok (name, total, entryCount)) ↔
      ∃ total, readFunctionLine (.ofBytes l'.2) = .ok (name, total, entryCount)
  body : l.1 ≠ 0 → ∀ said,
    readBodyLine (.ofBytes l.2) = .ok said ↔ readBodyLine (.ofBytes l'.2) = .ok said

section Same

variable {R : Nat → Nat → Prop}

theorem SaysSame.of_indent {m n : Nat} (h : R m n) (content : List UInt8) :
    SaysSame R (m, content) (n, content) :=
  ⟨h, fun _ _ _ => Iff.rfl, fun _ _ => Iff.rfl⟩

theorem SaysSame.symm (hR : KeepsDepth R) {l l' : Nat × List UInt8} (h : SaysSame R l l') :
    SaysSame (flip R) l' l where
  indent := h.indent
  function hzero _ _ := (h.function ((hR.eq_zero_iff h.indent).2 hzero) _ _).symm
  body hne said := (h.body (mt (hR.eq_zero_iff h.indent).1 hne) said).symm

/-- Two rows that are passed over alike at the top, and of which neither says anything or both say
the same. -/
structure RowsSaySame (R : Nat → Nat → Prop) (row row' : List UInt8) : Prop where
  passedOver : isPassedOver row = isPassedOver row'
  said : Option.Rel (SaysSame R) (said? row) (said? row')

/-- Lines in two texts that say the same one by one. -/
def LinesSaySame (R : Nat → Nat → Prop) : List Line → List Line → Prop :=
  List.Forall₂ fun l l' => SaysSame R l.said l'.said

theorem forall₂_takeWhile_dropWhile {α β : Type} {S : α → β → Prop} {p : α → Bool} {q : β → Bool}
    (hpq : ∀ x y, S x y → p x = q y) {xs : List α} {ys : List β} (h : List.Forall₂ S xs ys) :
    List.Forall₂ S (xs.takeWhile p) (ys.takeWhile q) ∧
      List.Forall₂ S (xs.dropWhile p) (ys.dropWhile q) := by
  induction h with
  | nil => exact ⟨.nil, .nil⟩
  | @cons x y xs ys hxy hrest ih =>
    rw [List.takeWhile_cons, List.takeWhile_cons, List.dropWhile_cons, List.dropWhile_cons,
      hpq x y hxy]
    cases q y with
    | true => exact ⟨.cons hxy ih.1, ih.2⟩
    | false => exact ⟨.nil, .cons hxy hrest⟩

variable (hR : KeepsDepth R) {m n : Nat} {ls ls' : List Line}
include hR

/-- What belongs to a line above, and what follows it, say the same too. -/
theorem LinesSaySame.split (h : LinesSaySame R ls ls') (hmn : R m n) :
    LinesSaySame R (deeper m ls) (deeper n ls') ∧ LinesSaySame R (behind m ls) (behind n ls') := by
  refine forall₂_takeWhile_dropWhile (fun l l' hl => ?_) h
  exact decide_eq_decide.2 (hR.lt_iff hmn hl.indent)

theorem LinesSaySame.bodyIndent (h : LinesSaySame R ls ls') :
    R (bodyIndent ls) (bodyIndent ls') := by
  cases h with
  | nil => exact hR.zero
  | cons hl _ => exact hl.indent

/-! ## Trees and stores -/

/-- Lines that say the same make the same of a node. -/
theorem Builds.of_same {levels : Nat} {node f : FunctionProfile} (h : Builds m levels node ls f)
    (hmn : R m n) (hsame : LinesSaySame R ls ls') (hls : ∀ l ∈ ls, l.indent ≠ 0) :
    Builds n levels node ls' f := by
  induction h generalizing n ls' with
  | nil =>
    cases hsame
    exact .nil
  | sample hindent hline hnew _ ih =>
    obtain ⟨hfirst, hrest⟩ := List.forall_mem_cons.1 hls
    cases hsame with
    | cons hl hmore =>
      subst hindent
      have hsaid := (hl.body hfirst _).1 (readBodyLine_ofBytes.1 hline)
      exact .sample ((hR.eq_iff hl.indent hmn).1 rfl) (readBodyLine_ofBytes.2 hsaid) hnew
        (ih hmn hmore hrest)
  | @callee _ _ _ _ _ _ rest _ hindent hline _ hnew _ ihCallee ih =>
    obtain ⟨hfirst, hrest⟩ := List.forall_mem_cons.1 hls
    cases hsame with
    | cons hl hmore =>
      subst hindent
      obtain ⟨hinner, hbehind⟩ := LinesSaySame.split hR hmore hmn
      have hsaid := (hl.body hfirst _).1 (readBodyLine_ofBytes.1 hline)
      exact .callee ((hR.eq_iff hl.indent hmn).1 rfl) (readBodyLine_ofBytes.2 hsaid)
        (ihCallee (hinner.bodyIndent hR) hinner fun l hl => hrest l (deeper_subset _ rest hl)) hnew
        (ih hmn hbehind fun l hl => hrest l (behind_subset _ rest hl))

/-- Lines that say the same make the same of a store. -/
theorem BuildsStore.of_same {s s' : Store} (h : BuildsStore s ls s')
    (hsame : LinesSaySame R ls ls') : BuildsStore s ls' s' := by
  induction h generalizing ls' with
  | nil =>
    cases hsame
    exact .nil
  | function hindent hline hbody hnew _ ih =>
    cases hsame with
    | cons hl hmore =>
      obtain ⟨hinner, hbehind⟩ := LinesSaySame.split hR hmore hR.zero
      obtain ⟨total, hsaid⟩ :=
        (hl.function hindent _ _).1 ⟨_, readFunctionLine_ofBytes.1 hline⟩
      have hsame := hbody.of_same hR (hinner.bodyIndent hR) hinner fun l hl =>
        Nat.ne_of_gt (lt_indent_of_mem_deeper hl)
      exact .function ((hR.eq_zero_iff hl.indent).1 hindent) (readFunctionLine_ofBytes.2 hsaid)
        hsame hnew (ih hbehind)

/-- Lines that say the same make the same store, or neither make one. -/
theorem LinesSaySame.readFunctions_iff (h : LinesSaySame R ls ls') (s : Store) :
    readFunctions ∅ ls' = .ok s ↔ readFunctions ∅ ls = .ok s := by
  have hflip : LinesSaySame (flip R) ls' ls := List.Forall₂.flip (h.imp fun l l' hl => hl.symm hR)
  rw [readFunctions_eq_ok_iff, readFunctions_eq_ok_iff]
  exact ⟨fun hread => hread.of_same hR.symm hflip, fun hread => hread.of_same hR h⟩

/-- Texts whose rows say the same one by one are read as the same store, or both are refused. -/
theorem read_of_rows {text text' : List UInt8}
    (h : List.Forall₂ (RowsSaySame R) (rows text) (rows text')) (s : Store) :
    Text.read text' = .ok s ↔ Text.read text = .ok s := by
  have hbelow := (forall₂_takeWhile_dropWhile (fun _ _ hrow => hrow.passedOver) h).2
  have hheard : List.Forall₂ (SaysSame R) (heard (rows text)) (heard (rows text')) :=
    List.rel_filterMap (fun _ _ hrow => hrow.said) hbelow
  have htext := map_said_lines_skipHeader (.ofBytes text)
  have htext' := map_said_lines_skipHeader (.ofBytes text')
  rw [Span.ofBytes] at htext htext'
  rw [← htext, ← htext', List.forall₂_map_left_iff, List.forall₂_map_right_iff] at hheard
  exact LinesSaySame.readFunctions_iff hR hheard s

end Same

theorem keepsDepth_eq : KeepsDepth Eq := by
  refine ⟨rfl, ?_⟩
  rintro m n m' n' rfl rfl
  exact Iff.rfl

/-- Only what lines say counts, and not where they stand. -/
theorem readFunctions_iff_of_said {ls ls' : List Line} (h : ls'.map Line.said = ls.map Line.said)
    (s : Store) : readFunctions ∅ ls' = .ok s ↔ readFunctions ∅ ls = .ok s := by
  have hsame : List.Forall₂ (SaysSame Eq) (ls.map Line.said) (ls'.map Line.said) := by
    rw [h]
    exact List.forall₂_same.2 fun l _ => .of_indent rfl l.2
  rw [List.forall₂_map_left_iff, List.forall₂_map_right_iff] at hsame
  exact LinesSaySame.readFunctions_iff keepsDepth_eq hsame s

theorem read_iff_of_heard {text text' : List UInt8} (h : heard (rows text') = heard (rows text))
    (s : Store) : Text.read text' = .ok s ↔ Text.read text = .ok s := by
  refine readFunctions_iff_of_said ?_ s
  rw [map_said_lines_skipHeader, map_said_lines_skipHeader]
  exact h

end SamplingProfile.Text
