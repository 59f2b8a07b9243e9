-- How far a body reaches. A body may be read by going from place to place in the list of all lines,
-- with the place to go on from handed back by the walk through a callee. That comes to what is read
-- of the lines that are indented deeper, cut out before: a callee leaves off where its caller has
-- to go on, and the caller where the function behind it begins.
import SamplingProfile.Proofs.Text.Positions

namespace SamplingProfile.Text

/-! ## Walking over lines -/

/-- Reads lines into a node, from a place on and up to the first that is not indented deeper than
`parent`. The place of that line comes with the node. All lines must be indented by `indent?`, or as
the first of them if it is not known yet. Nothing comes of it without fuel. -/
def walkBody (ls : List Line) : (fuel depth parent : Nat) → (indent? : Option Nat) → (place : Nat) →
    FunctionProfile → Option (Except ParseError (Nat × FunctionProfile))
  | 0, _, _, _, _, _ => none
  | fuel + 1, depth, parent, indent?, place, node =>
    match ls[place]? with
    | none => some (.ok (place, node))
    | some line =>
      let indent := indent?.getD line.indent
      if line.indent ≤ parent then some (.ok (place, node))
      else if line.indent ≠ indent then some (failAtLine line .inconsistentIndent)
      else
        match readBodyLine line.content with
        | .error e => some (.error e)
        | .ok (.sample location count targets) =>
          if node.samples.contains location then some (failAtLine line .duplicateLocation)
          else walkBody ls fuel depth parent (some indent) (place + 1)
            (addSamples node location count targets)
        | .ok (.callee site) =>
          if maxInlineDepth ≤ depth then some (failAtLine line .inlinedTooDeep)
          else
            match walkBody ls fuel (depth + 1) indent none (place + 1) (.ofName site.callee) with
            | none => none
            | some (.error e) => some (.error e)
            | some (.ok (next, callee)) =>
              if (node.callee? site).isSome then some (failAtLine line .duplicateCallsite)
              else walkBody ls fuel depth parent (some indent) next (addCallee node site callee)

/-- Reads functions into a store, from a place on and up to the last line. -/
def walkFunctions (ls : List Line) : (fuel place : Nat) → Store → Option (Except ParseError Store)
  | 0, _, _ => none
  | fuel + 1, place, store =>
    match ls[place]? with
    | none => some (.ok store)
    | some line =>
      if line.indent ≠ 0 then some (failAtLine line .expectedFunction)
      else
        match readFunctionLine line.content with
        | .error e => some (.error e)
        | .ok (name, _, entryCount) =>
          match walkBody ls fuel 0 0 none (place + 1)
              { FunctionProfile.ofName name with entryCount := UInt64.ofNat entryCount } with
          | none => none
          | some (.error e) => some (.error e)
          | some (.ok (next, f)) =>
            if store.contains f.name then some (failAtLine line .duplicateFunction)
            else walkFunctions ls fuel next (store.insert f)

/-! ## Bodies within bodies -/

theorem deeper_cons (indent : Nat) (line : Line) (rest : List Line) :
    deeper indent (line :: rest)
      = if indent < line.indent then line :: deeper indent rest else [] := by
  simp [deeper, List.takeWhile_cons]

theorem behind_cons (indent : Nat) (line : Line) (rest : List Line) :
    behind indent (line :: rest) = if indent < line.indent then behind indent rest
      else line :: rest := by
  simp [behind, List.dropWhile_cons]

/-- The lines of a callee are the same in the body of its caller and in all that follows it, and so
is what the caller has behind them. -/
theorem deeper_behind_deeper {outer inner : Nat} (h : outer ≤ inner) (ls : List Line) :
    deeper inner (deeper outer ls) = deeper inner ls ∧
      behind inner (deeper outer ls) = deeper outer (behind inner ls) := by
  induction ls with
  | nil => exact ⟨rfl, rfl⟩
  | cons line rest ih =>
    rw [deeper_cons outer, deeper_cons inner, behind_cons inner]
    by_cases hinner : inner < line.indent
    · have houter : outer < line.indent := Nat.lt_of_le_of_lt h hinner
      rw [if_pos houter, if_pos hinner, if_pos hinner, deeper_cons, behind_cons, if_pos hinner,
        if_pos hinner, ih.1, ih.2]
      exact ⟨rfl, rfl⟩
    · rw [if_neg hinner, if_neg hinner, deeper_cons outer]
      by_cases houter : outer < line.indent
      · rw [if_pos houter, deeper_cons, behind_cons, if_neg hinner, if_neg hinner]
        exact ⟨rfl, rfl⟩
      · rw [if_neg houter]
        exact ⟨rfl, rfl⟩

/-- The body of a caller is as long as that of a callee in it and all that it has behind that. -/
theorem length_deeper_behind {outer inner : Nat} (h : outer ≤ inner) (ls : List Line) :
    (deeper inner ls).length + (deeper outer (behind inner ls)).length
      = (deeper outer ls).length := by
  obtain ⟨hdeeper, hbehind⟩ := deeper_behind_deeper h ls
  rw [← List.length_append, ← hdeeper, ← hbehind, deeper_append_behind]

theorem drop_length_deeper (indent : Nat) (ls : List Line) :
    ls.drop (deeper indent ls).length = behind indent ls := by
  have h : (deeper indent ls ++ behind indent ls).drop (deeper indent ls).length
      = behind indent ls := List.drop_left
  rwa [deeper_append_behind] at h

/-- Behind a body that begins at a place stands what comes behind its lines. -/
theorem drop_add_length_deeper {ls rest : List Line} {place : Nat} (h : ls.drop place = rest)
    (indent : Nat) : ls.drop (place + (deeper indent rest).length) = behind indent rest := by
  rw [← List.drop_drop, h, drop_length_deeper]

/-! ## One line of a body -/

section OneLine

variable {indent levels : Nat} {node : FunctionProfile} {line : Line} {rest : List Line}

theorem readItems_of_ne (h : line.indent ≠ indent) :
    readItems indent levels node (line :: rest) = failAtLine line .inconsistentIndent := by
  rw [readItems, if_pos h]

theorem readItems_of_error (h : line.indent = indent) {e : ParseError}
    (hsaid : readBodyLine line.content = .error e) :
    readItems indent levels node (line :: rest) = .error e := by
  rw [readItems, if_neg (not_not_intro h), hsaid]
  rfl

theorem readItems_of_sample (h : line.indent = indent) {location : Location} {count : Count}
    {targets : List (String × Count)}
    (hsaid : readBodyLine line.content = .ok (.sample location count targets)) :
    readItems indent levels node (line :: rest)
      = if node.samples.contains location then failAtLine line .duplicateLocation
        else readItems indent levels (addSamples node location count targets) rest := by
  rw [readItems, if_neg (not_not_intro h), hsaid]
  rfl

theorem readItems_zero_of_callee (h : line.indent = indent) {site : Callsite}
    (hsaid : readBodyLine line.content = .ok (.callee site)) :
    readItems indent 0 node (line :: rest) = failAtLine line .inlinedTooDeep := by
  rw [readItems, if_neg (not_not_intro h), hsaid]
  rfl

/-- In the body of its caller a callee has the lines that it has of all lines. -/
theorem readItems_of_callee {parent : Nat} (hparent : parent ≤ indent) (h : line.indent = indent)
    {site : Callsite} (hsaid : readBodyLine line.content = .ok (.callee site)) :
    readItems indent (levels + 1) node (line :: deeper parent rest)
      = readItems (bodyIndent (deeper indent rest)) levels (.ofName site.callee)
          (deeper indent rest) >>= fun callee =>
        if (node.callee? site).isSome then failAtLine line .duplicateCallsite
        else readItems indent (levels + 1) (addCallee node site callee)
          (deeper parent (behind indent rest)) := by
  obtain ⟨hdeeper, hbehind⟩ := deeper_behind_deeper hparent rest
  rw [readItems, if_neg (not_not_intro h), hsaid]
  simp only [bind, Except.bind, hdeeper, hbehind]
  rfl

end OneLine

/-! ## The walks come to what is read -/

section Walks

variable {ls rest : List Line} {line : Line} {fuel depth parent place : Nat} {indent? : Option Nat}
  {node : FunctionProfile}

theorem getElem?_of_drop_eq_cons (h : ls.drop place = line :: rest) :
    ls[place]? = some line ∧ ls.drop (place + 1) = rest := by
  constructor
  · rw [← Nat.add_zero place, ← List.getElem?_drop, h]
    rfl
  · rw [← List.tail_drop, h]
    rfl

theorem getElem?_of_drop_eq_nil (h : ls.drop place = []) : ls[place]? = none :=
  List.getElem?_eq_none (List.drop_eq_nil_iff.1 h)

/-- With the fuel a walk from any place that has fewer lines behind it reads those that are indented
deeper, and ends behind the last of them. -/
def WalksBodies (ls : List Line) (fuel : Nat) : Prop :=
  ∀ (depth parent : Nat) (indent? : Option Nat) (node : FunctionProfile) {place : Nat}
    {rest : List Line}, ls.drop place = rest → rest.length < fuel →
      walkBody ls fuel depth parent indent? place node
        = some ((readItems (indent?.getD (bodyIndent (deeper parent rest))) (maxInlineDepth - depth)
            node (deeper parent rest)).map fun f => (place + (deeper parent rest).length, f))

/-- The line of a location is passed, and the walk goes on behind it. -/
theorem WalksBodies.sample {location : Location} {count : Count} {targets : List (String × Count)}
    (h : WalksBodies ls fuel) (hline : ls[place]? = some line) (hmore : ls.drop (place + 1) = rest)
    (hfuel : rest.length < fuel) (hparent : parent < line.indent)
    (hindent : indent?.getD line.indent = line.indent)
    (hsaid : readBodyLine line.content = .ok (.sample location count targets)) :
    walkBody ls (fuel + 1) depth parent indent? place node
      = some ((readItems line.indent (maxInlineDepth - depth) node (line :: deeper parent rest)).map
          fun f => (place + 1 + (deeper parent rest).length, f)) := by
  rw [walkBody, hline, readItems_of_sample rfl hsaid]
  simp only [hindent, hsaid, if_neg (Nat.not_le_of_lt hparent), if_neg (not_not_intro rfl)]
  by_cases hold : node.samples.contains location = true
  · rw [if_pos hold, if_pos hold]
    rfl
  · rw [if_neg hold, if_neg hold]
    exact h depth parent (some line.indent) _ hmore hfuel

/-- The line of a callee is passed, with the lines of the callee, which leave the place of what the
caller has behind them. -/
theorem WalksBodies.callee {site : Callsite} (h : WalksBodies ls fuel)
    (hline : ls[place]? = some line) (hmore : ls.drop (place + 1) = rest)
    (hfuel : rest.length < fuel) (hparent : parent < line.indent)
    (hindent : indent?.getD line.indent = line.indent)
    (hsaid : readBodyLine line.content = .ok (.callee site)) :
    walkBody ls (fuel + 1) depth parent indent? place node
      = some ((readItems line.indent (maxInlineDepth - depth) node (line :: deeper parent rest)).map
          fun f => (place + 1 + (deeper parent rest).length, f)) := by
  rw [walkBody, hline]
  simp only [hindent, hsaid, if_neg (Nat.not_le_of_lt hparent), if_neg (not_not_intro rfl)]
  by_cases hdepth : maxInlineDepth ≤ depth
  · rw [if_pos hdepth, Nat.sub_eq_zero_of_le hdepth, readItems_zero_of_callee rfl hsaid]
    rfl
  · have hlevels : maxInlineDepth - depth = maxInlineDepth - (depth + 1) + 1 := by omega
    have hcallee := h (depth + 1) line.indent none (.ofName site.callee) hmore hfuel
    rw [if_neg hdepth, hcallee, hlevels, readItems_of_callee (Nat.le_of_lt hparent) rfl hsaid,
      Option.getD_none]
    cases readItems (bodyIndent (deeper line.indent rest)) (maxInlineDepth - (depth + 1))
        (.ofName site.callee) (deeper line.indent rest) with
    | error e => rfl
    | ok callee =>
      simp only [Except.map, bind, Except.bind]
      by_cases hold : (node.callee? site).isSome = true
      · rw [if_pos hold, if_pos hold]
        rfl
      · have hless := length_behind_le line.indent rest
        have hwalk := h depth parent (some line.indent) (addCallee node site callee)
          (drop_add_length_deeper hmore line.indent) (by omega)
        rw [if_neg hold, if_neg hold, hwalk, hlevels, Nat.add_assoc (place + 1),
          length_deeper_behind (Nat.le_of_lt hparent)]
        rfl

/-- A walk that has as much fuel as there are lines reads the lines that are indented deeper, and
ends behind the last of them. -/
theorem walksBodies (ls : List Line) (fuel : Nat) : WalksBodies ls fuel := by
  induction fuel with
  | zero =>
    intro _ _ _ _ _ _ _ hfuel
    cases hfuel
  | succ fuel ih =>
    intro depth parent indent? node place rest hrest hfuel
    cases rest with
    | nil =>
      rw [walkBody, getElem?_of_drop_eq_nil hrest]
      exact congrArg (fun result => some (Except.map _ result)) (readItems_nil ..).symm
    | cons line rest =>
      obtain ⟨hline, hmore⟩ := getElem?_of_drop_eq_cons hrest
      rw [List.length_cons] at hfuel
      rw [deeper_cons]
      by_cases hparent : line.indent ≤ parent
      · rw [walkBody, hline, if_neg (Nat.not_lt_of_le hparent), readItems_nil]
        simp only [if_pos hparent]
        rfl
      · have hdeeper : parent < line.indent := Nat.lt_of_not_le hparent
        have hfirst : bodyIndent (line :: deeper parent rest) = line.indent := rfl
        have hlength : place + (line :: deeper parent rest).length
            = place + 1 + (deeper parent rest).length := by
          rw [List.length_cons]
          omega
        rw [if_pos hdeeper, hfirst, hlength]
        by_cases hsame : line.indent = indent?.getD line.indent
        · rw [← hsame]
          cases hsaid : readBodyLine line.content with
          | error e =>
            rw [readItems_of_error rfl hsaid, walkBody, hline]
            simp only [← hsame, hsaid, if_neg hparent, if_neg (not_not_intro rfl)]
            rfl
          | ok said =>
            cases said with
            | sample location count targets =>
              exact ih.sample hline hmore (by omega) hdeeper hsame.symm hsaid
            | callee site =>
              exact ih.callee hline hmore (by omega) hdeeper hsame.symm hsaid
        · rw [readItems_of_ne hsame, walkBody, hline]
          simp only [if_neg hparent, if_pos hsame]
          rfl

/-- A walk over functions that has as much fuel as there are lines reads them all. -/
theorem walkFunctions_eq {store : Store} (hrest : ls.drop place = rest)
    (hfuel : rest.length < fuel) :
    walkFunctions ls fuel place store = some (readFunctions store rest) := by
  induction fuel generalizing place store rest with
  | zero => cases hfuel
  | succ fuel ih =>
    cases rest with
    | nil =>
      rw [walkFunctions, getElem?_of_drop_eq_nil hrest]
      exact congrArg some (readFunctions_nil store).symm
    | cons line rest =>
      obtain ⟨hline, hmore⟩ := getElem?_of_drop_eq_cons hrest
      rw [List.length_cons] at hfuel
      rw [walkFunctions, hline, readFunctions]
      dsimp only
      by_cases hindent : line.indent ≠ 0
      · rw [if_pos hindent, if_pos hindent]
      · rw [if_neg hindent, if_neg hindent]
        cases hsaid : readFunctionLine line.content with
        | error e => rfl
        | ok said =>
          obtain ⟨name, total, entryCount⟩ := said
          generalize hnode : ({ FunctionProfile.ofName name with
            entryCount := UInt64.ofNat entryCount } : FunctionProfile) = node
          have hbody : walkBody ls fuel 0 0 none (place + 1) node
              = some ((readBody maxInlineDepth node (deeper 0 rest)).map fun f =>
                  (place + 1 + (deeper 0 rest).length, f)) :=
            walksBodies ls fuel 0 0 none node hmore (by omega)
          simp only [hbody, bind, Except.bind, hnode]
          cases readBody maxInlineDepth node (deeper 0 rest) with
          | error e => rfl
          | ok f =>
            simp only [Except.map]
            by_cases hold : store.contains f.name = true
            · rw [if_pos hold, if_pos hold]
            · have hless := length_behind_le 0 rest
              rw [if_neg hold, if_neg hold, ih (drop_add_length_deeper hmore 0) (by omega)]

end Walks

/-! ## How far a body reaches -/

/-- The line at `k` is in the body of a callee that a line at `i` or behind it names: it is indented
deeper than that line, and so is all between them. -/
def BelowCallee (ls : List Line) (i k : Nat) : Prop :=
  ∃ c line site, i ≤ c ∧ c < k ∧ ls[c]? = some line ∧
    readBodyLine line.content = .ok (.callee site) ∧
    ∀ m l, c < m → m ≤ k → ls[m]? = some l → line.indent < l.indent

/-- The lines from `i` on and before `j` are the body of a line that is indented by `parent`. All
are indented deeper, up to the end or to a line that is not. Those that are not in the body of a
callee are indented alike, and all others deeper than these. -/
structure IsBody (ls : List Line) (parent i j : Nat) : Prop where
  le : i ≤ j
  le_length : j ≤ ls.length
  deeper : ∀ k l, i ≤ k → k < j → ls[k]? = some l → parent < l.indent
  ends : j = ls.length ∨ ∃ l, ls[j]? = some l ∧ l.indent ≤ parent
  alike : ∃ indent, ∀ k l, i ≤ k → k < j → ls[k]? = some l →
    indent ≤ l.indent ∧ (l.indent = indent ↔ ¬BelowCallee ls i k)

/-- The same lines at other places are in the body of the same callee. -/
theorem BelowCallee.shift {ls more : List Line} {n k : Nat} (h : BelowCallee ls 0 k)
    (hsame : ∀ m ≤ k, more[n + m]? = ls[m]?) : BelowCallee more n (n + k) := by
  obtain ⟨c, line, site, -, hck, hline, hsaid, hbelow⟩ := h
  refine ⟨n + c, line, site, Nat.le_add_right .., by omega, ?_, hsaid, fun m l hcm hmk hl => ?_⟩
  · rw [hsame c (Nat.le_of_lt hck), hline]
  · have hnm : n ≤ m := Nat.le_trans (Nat.le_add_right n c) (Nat.le_of_lt hcm)
    obtain ⟨m, rfl⟩ := Nat.exists_eq_add_of_le hnm
    rw [hsame m (by omega)] at hl
    exact hbelow m l (by omega) (by omega) hl

theorem BelowCallee.mono {ls : List Line} {i n k : Nat} (h : BelowCallee ls n k) (hi : i ≤ n) :
    BelowCallee ls i k := by
  obtain ⟨c, line, site, hc, hrest⟩ := h
  exact ⟨c, line, site, Nat.le_trans hi hc, hrest⟩

namespace Builds

variable {indent levels : Nat} {node f : FunctionProfile} {ls : List Line}

/-- No line of a body is indented less than the first one. -/
theorem indent_le (h : Builds indent levels node ls f) : ∀ l ∈ ls, indent ≤ l.indent := by
  induction h with
  | nil => exact fun _ hl => nomatch hl
  | sample hindent _ _ _ ih => exact List.forall_mem_cons.2 ⟨Nat.le_of_eq hindent.symm, ih⟩
  | @callee indent _ _ _ _ _ rest _ hindent _ _ _ _ _ ih =>
    refine List.forall_mem_cons.2 ⟨Nat.le_of_eq hindent.symm, fun l hl => ?_⟩
    rw [← deeper_append_behind indent rest] at hl
    rcases List.mem_append.1 hl with hl | hl
    · exact Nat.le_of_lt (lt_indent_of_mem_deeper hl)
    · exact ih l hl

/-- A line that is not indented as the first one is in the body of a callee. -/
theorem belowCallee (h : Builds indent levels node ls f) :
    ∀ k l, ls[k]? = some l → l.indent ≠ indent → BelowCallee ls 0 k := by
  induction h with
  | nil => exact fun _ _ hl => nomatch hl
  | sample hindent _ _ _ ih =>
    intro k l hl hne
    cases k with
    | zero =>
      cases hl
      exact absurd hindent hne
    | succ k =>
      rw [Nat.add_comm k 1]
      refine BelowCallee.mono ((ih k l hl hne).shift fun m _ => ?_) (Nat.zero_le 1)
      rw [Nat.add_comm 1 m]
      rfl
  | @callee indent _ _ _ _ line rest site hindent hline _ _ _ _ ih =>
    intro k l hl hne
    cases k with
    | zero =>
      cases hl
      exact absurd hindent hne
    | succ k =>
      have hrest : ∀ m,
          (line :: rest)[m + 1]? = (deeper indent rest ++ behind indent rest)[m]? := by
        intro m
        rw [deeper_append_behind]
        rfl
      rcases Nat.lt_or_ge k (deeper indent rest).length with hlt | hge
      · -- the line is in the body of this callee
        refine ⟨0, line, site, Nat.le_refl 0, Nat.succ_pos k, rfl, hline, fun m l hm hmk hl => ?_⟩
        obtain ⟨m, rfl⟩ := Nat.exists_eq_succ_of_ne_zero (Nat.ne_of_gt hm)
        rw [hrest, List.getElem?_append_left (by omega)] at hl
        rw [hindent]
        exact lt_indent_of_mem_deeper (List.mem_of_getElem? hl)
      · obtain ⟨k, rfl⟩ := Nat.exists_eq_add_of_le hge
        rw [hrest, List.getElem?_append_right hge, Nat.add_sub_cancel_left] at hl
        have hplace : (deeper indent rest).length + k + 1
            = (deeper indent rest).length + 1 + k := by omega
        rw [hplace]
        refine BelowCallee.mono ((ih k l hl hne).shift fun m _ => ?_) (Nat.zero_le _)
        have hnext : (deeper indent rest).length + 1 + m
            = (deeper indent rest).length + m + 1 := by omega
        rw [hnext, hrest, List.getElem?_append_right (Nat.le_add_right ..), Nat.add_sub_cancel_left]

end Builds

theorem getElem?_deeper (parent : Nat) {ls : List Line} {i m : Nat}
    (h : m < (deeper parent (ls.drop i)).length) :
    ls[i + m]? = (deeper parent (ls.drop i))[m]? := by
  rw [← List.getElem?_append_left h, deeper_append_behind, List.getElem?_drop]

/-- The lines that are cut out for a body are one. -/
theorem isBody_deeper {ls : List Line} {parent i levels : Nat} {node f : FunctionProfile}
    (hi : i ≤ ls.length)
    (h : readItems (bodyIndent (deeper parent (ls.drop i))) levels node (deeper parent (ls.drop i))
      = .ok f) : IsBody ls parent i (i + (deeper parent (ls.drop i)).length) := by
  have hbuilds := readItems_eq_ok_iff.1 h
  have hlength := length_deeper_le parent (ls.drop i)
  rw [List.length_drop] at hlength
  have hinner : ∀ k l, i ≤ k → k < i + (deeper parent (ls.drop i)).length → ls[k]? = some l →
      ∃ m, k = i + m ∧ (deeper parent (ls.drop i))[m]? = some l := by
    intro k l hik hkj hl
    obtain ⟨m, rfl⟩ := Nat.exists_eq_add_of_le hik
    exact ⟨m, rfl, by rw [← getElem?_deeper parent (by omega), hl]⟩
  refine ⟨Nat.le_add_right .., by omega, fun k l hik hkj hl => ?_, ?_,
    bodyIndent (deeper parent (ls.drop i)), fun k l hik hkj hl => ?_⟩
  · obtain ⟨m, -, hm⟩ := hinner k l hik hkj hl
    exact lt_indent_of_mem_deeper (List.mem_of_getElem? hm)
  · have hdrop := drop_length_deeper parent (ls.drop i)
    rw [List.drop_drop] at hdrop
    cases hbehind : behind parent (ls.drop i) with
    | nil =>
      rw [hbehind, List.drop_eq_nil_iff] at hdrop
      exact .inl (by omega)
    | cons line rest =>
      rw [hbehind] at hdrop
      exact .inr ⟨line, (getElem?_of_drop_eq_cons hdrop).1, indent_le_of_behind_eq_cons hbehind⟩
  · obtain ⟨m, rfl, hm⟩ := hinner k l hik hkj hl
    refine ⟨hbuilds.indent_le l (List.mem_of_getElem? hm), fun heq hbelow => ?_, fun hnot => ?_⟩
    · -- a callee is indented no less than the first line
      obtain ⟨c, line, site, hic, hck, hline, -, hdeeper⟩ := hbelow
      obtain ⟨n, -, hn⟩ := hinner c line hic (by omega) hline
      have hle := hbuilds.indent_le line (List.mem_of_getElem? hn)
      have hlt := hdeeper (i + m) l hck (Nat.le_refl _) hl
      omega
    · by_contra hne
      refine hnot ((hbuilds.belowCallee m l hm hne).shift fun n hn => ?_)
      exact getElem?_deeper parent (by omega)

/-- A walk from any place comes to an end within as many steps as there are lines behind it, and
takes the body that is there: up to the end, or to the first line that is not indented deeper. So a
walk over functions comes to what is read of a text, and only the first line of all can be refused
because no function is there. -/
theorem body_is_walked_to_its_end :
    (∀ (ls : List Line) (i parent : Nat) (node : FunctionProfile) (depth : Nat), i ≤ ls.length →
      ∃ outcome,
        (∀ fuel, ls.length - i < fuel →
          walkBody ls fuel depth parent none i node = some outcome) ∧
        outcome.map Prod.snd = readBody (maxInlineDepth - depth) node (deeper parent (ls.drop i)) ∧
        ∀ j f, outcome = .ok (j, f) → IsBody ls parent i j) ∧
    ∀ bytes,
      (∀ fuel, (lines (skipHeader (.ofBytes bytes))).length < fuel →
        walkFunctions (lines (skipHeader (.ofBytes bytes))) fuel 0 ∅ = some (Text.read bytes)) ∧
      ∀ e, Text.read bytes = .error e → e.problem = .expectedFunction →
        ∃ line rest, lines (skipHeader (.ofBytes bytes)) = line :: rest ∧ line.indent ≠ 0 ∧
          e.offset = line.content.start := by
  refine ⟨fun ls i parent node depth hi => ?_, fun bytes => ⟨fun fuel hfuel => ?_, ?_⟩⟩
  · refine ⟨_, fun fuel hfuel => walksBodies ls fuel depth parent none node rfl ?_, ?_, ?_⟩
    · rwa [List.length_drop]
    · rw [Option.getD_none, readBody, bodyIndent]
      cases readItems _ (maxInlineDepth - depth) node (deeper parent (ls.drop i)) <;> rfl
    · intro j f h
      rw [Option.getD_none] at h
      cases hread : readItems (bodyIndent (deeper parent (ls.drop i))) (maxInlineDepth - depth) node
          (deeper parent (ls.drop i)) with
      | error e =>
        rw [hread] at h
        cases h
      | ok g =>
        rw [hread] at h
        cases h
        exact isBody_deeper hi hread
  · exact walkFunctions_eq rfl hfuel
  · intro e he hproblem
    rcases stopsAmong_readFunctions he with ⟨_, -, hline, -⟩ | ⟨line, rest, hcons, hindent, rfl⟩
    · exact absurd hproblem hline
    · exact ⟨line, rest, hcons, hindent, rfl⟩

/-- Two functions, of which the first has a callee between two locations. -/
def calleeBetween : List UInt8 :=
  encodeText "main:11:1\n 1: 5\n 2: g:5\n   1: 5\n 3: 1 h:2\nf:0:0\n"

/-- The body of the first function of `calleeBetween` ends where the second one begins, and that of
the callee one line before. A text that begins with the line of a location is refused there. -/
theorem calleeBetween_is_walked :
    IsBody (lines (.ofBytes calleeBetween)) 0 1 5 ∧ IsBody (lines (.ofBytes calleeBetween)) 1 3 4 ∧
    (∃ e, Text.read (encodeText " 1: 5\n") = .error e ∧ e.problem = .expectedFunction ∧
      ∃ line rest, lines (skipHeader (.ofBytes (encodeText " 1: 5\n"))) = line :: rest ∧
        line.indent ≠ 0 ∧ e.offset = line.content.start) := by
  have hlength : (lines (.ofBytes calleeBetween)).length = 6 := by decide +kernel
  have hwalks : ∀ i parent j, (walkBody (lines (.ofBytes calleeBetween)) 7 0 parent none i
        (.ofName "main")).map (·.map Prod.fst) = some (.ok j) → i ≤ 6 →
      IsBody (lines (.ofBytes calleeBetween)) parent i j := by
    intro i parent j hrun hi
    obtain ⟨outcome, hwalk, -, hbody⟩ := body_is_walked_to_its_end.1
      (lines (.ofBytes calleeBetween)) i parent (.ofName "main") 0 (by omega)
    rw [hwalk 7 (by omega)] at hrun
    cases outcome with
    | error e => cases hrun
    | ok found =>
      cases hrun
      exact hbody _ _ rfl
  have hread : Text.read (encodeText " 1: 5\n")
      = .error { problem := .expectedFunction, offset := 1 } := by decide +kernel
  refine ⟨hwalks 1 0 5 (by decide +kernel) (by decide),
    hwalks 3 1 4 (by decide +kernel) (by decide), _, hread, rfl,
    (body_is_walked_to_its_end.2 _).2 _ hread rfl⟩

end SamplingProfile.Text
