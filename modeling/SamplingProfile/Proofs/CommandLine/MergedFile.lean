-- What a merge leaves among the files of a folder. Until the last step nothing is changed but a
-- temporary file, which is removed when anything goes wrong; and what the last step leaves is read
-- as the inputs were joined.
import Mathlib.Data.List.Forall2
import SamplingProfile.CommandLine.Merge
import SamplingProfile.Proofs.Binary.RoundTrip
import SamplingProfile.Proofs.Reading.LegalProfiles

namespace SamplingProfile

/-! ## Files -/

namespace Folder

variable {d d' : Folder} {path : String} {output : Output}

theorem readProfile_eq_ok {p : Profile} (h : d.readProfile path = .ok p) :
    ∃ bytes, d.read path = .ok bytes ∧ Profile.ofBytes bytes = .ok p := by
  unfold readProfile at h
  cases hread : d.read path with
  | error e =>
    rw [hread] at h
    cases h
  | ok bytes =>
    rw [hread] at h
    dsimp only at h
    cases hbytes : Profile.ofBytes bytes with
    | error e =>
      rw [hbytes] at h
      cases h
    | ok q =>
      rw [hbytes] at h
      cases h
      exact ⟨bytes, rfl, hbytes⟩

theorem readProfile_of_read {bytes : List UInt8} {p : Profile} (h : d.read path = .ok bytes)
    (hp : Profile.ofBytes bytes = .ok p) : d.readProfile path = .ok p := by
  unfold readProfile
  rw [h]
  dsimp only
  rw [hp]
  rfl

/-- A profile is written if it is whole, and if its path has a folder to begin it in and a place
for it at the end. -/
theorem writeProfile_succeeds_iff :
    (∃ d', d.writeProfile path output = (d', .ok ())) ↔
      output.error? = none ∧ (∃ folder, d.workplace path = .ok folder) ∧
        ∃ place, d.destination path = .ok place := by
  constructor
  · rintro ⟨d', h⟩
    obtain ⟨place, hplace, hwhole, -⟩ := writeProfile_of_ok h
    refine ⟨hwhole, ?_, place, hplace⟩
    unfold writeProfile at h
    cases hw : d.workplace path with
    | error e =>
      rw [hw] at h
      cases h
    | ok folder => exact ⟨folder, rfl⟩
  · rintro ⟨hwhole, ⟨folder, hw⟩, place, hplace⟩
    -- the temporary file is in a folder, so it changes no path
    have hfolder : d.isFolder (d.unusedPlace folder).dropLast = true := by
      simpa [unusedPlace] using isFolder_workplace hw
    have hbegun := isFolder_put output.bytes hfolder
    have hdestination :=
      destination_of_isFolder (d := d) (e := d.put _ output.bytes) hbegun rfl hplace
    unfold writeProfile
    simp only [hw, hwhole, move, hdestination, get?_put, if_true]
    exact ⟨_, rfl⟩

/-- That an input of a merge gives a store, which has the weight of the input. -/
def Gives (d : Folder) (input : Count × String) (taken : Count × Store) : Prop :=
  taken.1 = input.1 ∧ ∃ p, d.readProfile input.2 = .ok p ∧ p.store = taken.2

/-- The stores of profiles are legal, and so is what they are merged to. -/
theorem legal_of_gives {inputs : List (Count × String)} {taken : List (Count × Store)}
    (h : List.Forall₂ d.Gives inputs taken) (mode : Mode) : (Store.mergeAll mode taken).Legal := by
  refine Store.Legal.mergeAll mode ?_
  induction h with
  | nil => simp
  | cons hgives _ ih =>
    intro input hinput
    rcases List.mem_cons.1 hinput with rfl | hinput
    · obtain ⟨-, p, hp, hstore⟩ := hgives
      obtain ⟨bytes, -, hbytes⟩ := readProfile_eq_ok hp
      rw [← hstore]
      exact Profile.legal_of_ofBytes hbytes
    · exact ih input hinput

end Folder

/-! ## Steps of a merge -/

namespace CommandLine

variable {ε α β : Type} {d d' : Folder} {o : MergeOptions} {deflate : List UInt8 → List UInt8}

/-- What comes behind a step is run in the folder that the step leaves, if it goes well. -/
theorem run_bind (x : ExceptT ε (StateM Folder) α) (f : α → ExceptT ε (StateM Folder) β)
    (d : Folder) :
    (x >>= f).run.run d
      = match x.run.run d with
        | (.ok a, d') => (f a).run.run d'
        | (.error e, d') => (.error e, d') := by
  rw [ExceptT.run_bind, StateT.run_bind]
  show (match x.run.run d with | (r, d') => _) = _
  rcases x.run.run d with ⟨_ | a, d'⟩ <;> rfl

/-- A step on the folder alone goes well. -/
theorem run_lift (x : StateM Folder α) (d : Folder) :
    (liftM x : ExceptT ε (StateM Folder) α).run.run d = (.ok (x.run d).1, (x.run d).2) := rfl

theorem run_readProfile (path : String) (d : Folder) :
    (readProfile folderAccess path).run.run d
      = ((d.readProfile path).mapError (.unreadable path), d) := by
  have hread : (liftM (folderAccess.read path) : ExceptT CommandError (StateM Folder) _).run.run d
      = (.ok (d.read path), d) := rfl
  unfold readProfile Folder.readProfile
  rw [run_bind, hread]
  dsimp only
  cases d.read path with
  | error e => rfl
  | ok bytes =>
    dsimp only
    cases Profile.ofBytes bytes <;> rfl

theorem run_write (path : String) (output : Output) (d : Folder) :
    (liftM (folderAccess.write path output) : ExceptT ε (StateM Folder) _).run.run d
      = (.ok (d.writeProfile path output).2, (d.writeProfile path output).1) := by
  rw [run_lift]
  unfold folderAccess
  simp only [StateT.run_bind, StateT.run_get, StateT.run_set, StateT.run_pure, pure_bind]
  generalize d.writeProfile path output = written
  rfl

/-- The inputs are read and joined in order, and the folder stays as it is. The store that comes
of them is that of the inputs that are given. -/
theorem run_mergeInputs (mode : Mode) (inputs : List (Count × String)) (s : Store) (d : Folder) :
    ∃ result, (mergeInputs folderAccess mode inputs s).run.run d = (result, d) ∧
      ∀ s', result = .ok s' ↔ ∃ taken, List.Forall₂ d.Gives inputs taken ∧
        s' = taken.foldl (fun s input => s.mergeWeighted mode input.1 input.2) s := by
  induction inputs generalizing s with
  | nil =>
    refine ⟨.ok s, rfl, fun s' => ?_⟩
    simp [eq_comm]
  | cons input inputs ih =>
    obtain ⟨weight, path⟩ := input
    rw [mergeInputs, run_bind, run_readProfile]
    cases hp : d.readProfile path with
    | error e =>
      refine ⟨.error (.unreadable path e), rfl, fun s' => ?_⟩
      constructor
      · intro h
        cases h
      · rintro ⟨_, hall, -⟩
        cases hall with
        | cons hgives _ =>
          obtain ⟨-, p, hread, -⟩ := hgives
          rw [hp] at hread
          cases hread
    | ok p =>
      obtain ⟨result, hrun, hresult⟩ := ih (s.mergeWeighted mode weight p.store)
      refine ⟨result, hrun, fun s' => ?_⟩
      rw [hresult]
      constructor
      · rintro ⟨taken, hall, hs⟩
        exact ⟨(weight, p.store) :: taken, .cons ⟨rfl, p, hp, rfl⟩ hall, hs⟩
      · rintro ⟨_, hall, hs⟩
        cases hall with
        | cons hgives hall =>
          obtain ⟨hweight, q, hread, hstore⟩ := hgives
          rw [hp] at hread
          cases hread
          rw [List.foldl_cons, hweight, ← hstore] at hs
          exact ⟨_, hall, hs⟩

/-- A merge with inputs reads them all, then makes the output and then writes it. -/
theorem run_merge (hinputs : o.inputs ≠ []) (d : Folder) :
    (o.run folderAccess deflate).run.run d
      = match (mergeInputs folderAccess o.mode o.inputs ∅).run.run d with
        | (.error e, d') => (.error e, d')
        | (.ok s, d') =>
          match o.write s deflate with
          | .error e => (.error e, d')
          | .ok output =>
            match d'.writeProfile o.output output with
            | (d'', .error e) => (.error (.unwritable e), d'')
            | (d'', .ok ()) => (.ok (), d'') := by
  unfold MergeOptions.run
  rw [if_neg hinputs]
  show (mergeInputs folderAccess o.mode o.inputs ∅ >>= _).run.run d = _
  rw [run_bind]
  rcases (mergeInputs folderAccess o.mode o.inputs ∅).run.run d with ⟨_ | s, d'⟩
  · rfl
  · have hmade : (ExceptT.mk (pure (o.write s deflate)) :
        ExceptT CommandError (StateM Folder) Output).run.run d' = (o.write s deflate, d') := rfl
    dsimp only
    rw [run_bind, hmade]
    cases o.write s deflate with
    | error e => rfl
    | ok output =>
      dsimp only
      rw [run_bind, run_write]
      rcases d'.writeProfile o.output output with ⟨d'', _ | _⟩ <;> rfl

theorem run_merge_of_noInputs (hinputs : o.inputs = []) (d : Folder) :
    (o.run folderAccess deflate).run.run d = (.error .noInputs, d) := by
  unfold MergeOptions.run
  rw [if_pos hinputs]
  rfl

/-- Whatever goes wrong, the folder is left as it was. -/
theorem run_merge_of_error {e : CommandError}
    (h : (o.run folderAccess deflate).run.run d = (.error e, d')) : d' = d := by
  by_cases hinputs : o.inputs = []
  · rw [run_merge_of_noInputs hinputs] at h
    cases h
    rfl
  · obtain ⟨result, hrun, -⟩ := run_mergeInputs o.mode o.inputs ∅ d
    rw [run_merge hinputs, hrun] at h
    cases result with
    | error e =>
      cases h
      rfl
    | ok s =>
      dsimp only at h
      cases hmade : o.write s deflate with
      | error e =>
        rw [hmade] at h
        cases h
        rfl
      | ok output =>
        rw [hmade] at h
        dsimp only at h
        rcases hwritten : d.writeProfile o.output output with ⟨d'', e | _⟩
        · rw [hwritten] at h
          cases h
          exact Folder.writeProfile_of_error hwritten
        · rw [hwritten] at h
          cases h

/-- A merge goes well if the inputs are given, and if what they are merged to can be made and
written. -/
theorem run_merge_eq_ok_iff :
    (o.run folderAccess deflate).run.run d = (.ok (), d') ↔
      o.inputs ≠ [] ∧ ∃ taken output, List.Forall₂ d.Gives o.inputs taken ∧
        o.write (Store.mergeAll o.mode taken) deflate = .ok output ∧
        d.writeProfile o.output output = (d', .ok ()) := by
  by_cases hinputs : o.inputs = []
  · rw [run_merge_of_noInputs hinputs]
    constructor
    · intro h
      cases h
    · exact fun h => absurd hinputs h.1
  · obtain ⟨result, hrun, hresult⟩ := run_mergeInputs o.mode o.inputs ∅ d
    rw [run_merge hinputs, hrun]
    constructor
    · intro h
      cases result with
      | error e => cases h
      | ok s =>
        obtain ⟨taken, htaken, hs⟩ := (hresult s).1 rfl
        dsimp only at h
        cases hmade : o.write s deflate with
        | error e =>
          rw [hmade] at h
          cases h
        | ok output =>
          rw [hmade] at h
          dsimp only at h
          rcases hwritten : d.writeProfile o.output output with ⟨d'', e | _⟩
          · rw [hwritten] at h
            cases h
          · rw [hwritten] at h
            cases h
            rw [hs] at hmade
            exact ⟨hinputs, taken, output, htaken, hmade, hwritten⟩
    · rintro ⟨-, taken, output, htaken, hmade, hwritten⟩
      have hs := (hresult _).2 ⟨taken, htaken, rfl⟩
      rw [Store.mergeAll] at hmade
      rw [hs]
      dsimp only
      rw [hmade]
      dsimp only
      rw [hwritten]

/-- What is written in the binary form has the version that was asked for. -/
theorem write_eq_ok_of_binary {s : Store} {output : Output} (htext : o.text = false)
    (h : o.write s deflate = .ok output) :
    ∃ version, Binary.Version.ofNumber? o.formatVersion = some version ∧
      output = Binary.Writer.write { version, compressNames := o.compressNames } s deflate := by
  unfold MergeOptions.write at h
  rw [htext, if_neg Bool.false_ne_true] at h
  cases hv : Binary.Version.ofNumber? o.formatVersion with
  | none =>
    rw [hv] at h
    cases h
  | some version =>
    rw [hv] at h
    cases h
    exact ⟨version, rfl, rfl⟩

/-- A merge that goes wrong leaves the folder as it was: no file is changed, and no other is there.
The inputs are those without a weight in order, each of which has the weight 1, and behind them
those with a weight. A merge goes well if there are inputs and all of them are given, if what they
are merged to can be written whole in the form that is asked for, and if the path of the output
leads to a place for a file. Then that file changes and no other. In the binary form it has the
version that was asked for, the inputs joined in order, and the summary of what they were joined
to. -/
theorem merge_is_whole_or_nothing (hd : Zlib.Lossless deflate) (o : MergeOptions) (d : Folder) :
    (∀ e d', (o.run folderAccess deflate).run.run d = (.error e, d') → d' = d) ∧
    ((∃ d', (o.run folderAccess deflate).run.run d = (.ok (), d')) ↔
      o.input.map (fun path => (1, path)) ++ o.weightedInput ≠ [] ∧ ∃ taken output,
        List.Forall₂ d.Gives (o.input.map (fun path => (1, path)) ++ o.weightedInput) taken ∧
        o.write (Store.mergeAll o.mode taken) deflate = .ok output ∧ output.error? = none ∧
        (∃ folder, d.workplace o.output = .ok folder) ∧
        ∃ place, d.destination o.output = .ok place) ∧
    ∀ d', (o.run folderAccess deflate).run.run d = (.ok (), d') →
      ∃ taken place bytes,
        List.Forall₂ d.Gives (o.input.map (fun path => (1, path)) ++ o.weightedInput) taken ∧
        d.destination o.output = .ok place ∧ d' = d.put place bytes ∧
        (o.text = false → ∃ version x,
          Binary.Version.ofNumber? o.formatVersion = some version ∧
          (Store.mergeAll o.mode taken).summary defaultCutoffs = .ok x ∧
          (bytes.length < UInt64.size →
            (o.compressNames = true →
              (NameList.payload (Binary.NameTable.ofStore version.layout
                (Store.mergeAll o.mode taken)).names).length < UInt64.size) →
            d'.readProfile o.output = .ok {
              format := .binary version, store := Store.mergeAll o.mode taken,
              summary? := some x })) := by
  rw [← MergeOptions.inputs]
  refine ⟨fun e d' h => run_merge_of_error h, ?_, fun d' h => ?_⟩
  · simp only [run_merge_eq_ok_iff, ← Folder.writeProfile_succeeds_iff]
    constructor
    · rintro ⟨d', hinputs, taken, output, htaken, hmade, hwritten⟩
      exact ⟨hinputs, taken, output, htaken, hmade, d', hwritten⟩
    · rintro ⟨hinputs, taken, output, htaken, hmade, d', hwritten⟩
      exact ⟨d', hinputs, taken, output, htaken, hmade, hwritten⟩
  · obtain ⟨-, taken, output, htaken, hmade, hwritten⟩ := run_merge_eq_ok_iff.1 h
    obtain ⟨place, hplace, hwhole, hfolder⟩ := Folder.writeProfile_of_ok hwritten
    refine ⟨taken, place, output.bytes, htaken, hplace, hfolder, fun htext => ?_⟩
    obtain ⟨version, hversion, houtput⟩ := write_eq_ok_of_binary htext hmade
    have hlegal := (Folder.legal_of_gives htaken o.mode).calleesNamed
    have hbytes : (Binary.Writer.write { version, compressNames := o.compressNames }
        (Store.mergeAll o.mode taken) deflate).toExcept = .ok output.bytes := by
      rw [← houtput]
      exact Output.toExcept_of_error? hwhole
    obtain ⟨summary?, -, hsummary, -⟩ := Binary.Writer.write_eq_ok hbytes
    obtain ⟨x, hx, -⟩ := hsummary
    refine ⟨version, x, hversion, hx, fun hlength hfit => ?_⟩
    obtain ⟨summary?, hsummary, hread⟩ :=
      Profile.ofBytes_written hd hbytes hlength hfit hlegal.apart
    obtain ⟨x', hx', rfl⟩ := hsummary
    rw [hx] at hx'
    cases hx'
    rw [hlegal.underOwnNames_eq] at hread
    exact Folder.readProfile_of_read (Folder.read_of_writeProfile hwritten) hread

/-- Two text profiles of one function. -/
def someFolder : Folder where
  files := .ofList [
    (["a"], encodeText "main:5:1\n 1: 5\n"),
    (["b"], encodeText "main:2:0\n 1: 2\n")]

/-- A merge into one of its own inputs. -/
def intoInput : MergeOptions := { input := ["a"], weightedInput := [(3, "b")], output := "a" }

/-- A merge with an input that is missing, behind one that is there. -/
def ofMissing : MergeOptions := { input := ["a", "c"], output := "a" }

/-- The one merge changes its input to a binary profile, and the other leaves it as it is. -/
theorem intoInput_is_merged :
    (∃ d' taken x, (intoInput.run folderAccess).run.run someFolder = (.ok (), d') ∧
      List.Forall₂ someFolder.Gives [(1, "a"), (3, "b")] taken ∧
      d'.files.get? ["b"] = someFolder.files.get? ["b"] ∧
      d'.readProfile "a" = .ok {
        format := .binary .compact, store := Store.mergeAll .sum taken, summary? := some x }) ∧
    (ofMissing.run folderAccess).run.run someFolder
      = (.error (.unreadable "c" (.file .notFound)), someFolder) := by
  have hrun : (intoInput.run folderAccess).run.run someFolder
      = (.ok (), ((intoInput.run folderAccess).run.run someFolder).2) :=
    Prod.ext (by decide +kernel) rfl
  have hlength : (((intoInput.run folderAccess).run.run someFolder).2.files.get? ["a"]).map
      List.length = some 125 := by decide +kernel
  have hmissing : (ofMissing.run folderAccess).run.run someFolder
      = (.error (.unreadable "c" (.file .notFound)),
          ((ofMissing.run folderAccess).run.run someFolder).2) :=
    Prod.ext (by decide +kernel) rfl
  have hplace : someFolder.destination "a" = .ok ["a"] := by decide +kernel
  obtain ⟨-, -, hmerged⟩ :=
    merge_is_whole_or_nothing Zlib.lossless_deflate intoInput someFolder
  obtain ⟨hkept, -⟩ := merge_is_whole_or_nothing Zlib.lossless_deflate ofMissing someFolder
  obtain ⟨taken, place, bytes, htaken, hdestination, hfolder, hbinary⟩ := hmerged _ hrun
  obtain ⟨version, x, hversion, -, hread⟩ := hbinary rfl
  cases hplace.symm.trans hdestination
  cases (show some Binary.Version.compact = _ from rfl).trans hversion
  rw [hfolder, Folder.get?_put, if_pos rfl, Option.map_some, Option.some.injEq] at hlength
  refine ⟨⟨_, taken, x, hrun, htaken, ?_, ?_⟩, hmissing.trans (by rw [hkept _ _ hmissing])⟩
  · rw [hfolder, Folder.get?_put, if_neg (by decide)]
  · exact hread (by rw [hlength]; decide) (fun h => nomatch h)

end CommandLine

end SamplingProfile
