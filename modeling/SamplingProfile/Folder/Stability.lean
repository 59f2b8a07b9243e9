-- What a new file changes in a tree. A file that gets the place a path gives it makes no
-- folder and takes none away, so every path that led somewhere still leads there, and the
-- path of the file leads to its bytes.
import SamplingProfile.Folder.Basic

namespace SamplingProfile.Folder

variable {d e : Folder}

/-! ## Folders -/

theorem isFolder_iff (d : Folder) (place : Place) :
    d.isFolder place = true ↔
      place <+: d.home ∨ ∃ q, (d.files.get? q).isSome ∧ place <+: q.dropLast := by
  have key : ∀ q, q ∈ d.files.keys ↔ (d.files.get? q).isSome = true := fun q => by
    rw [Option.isSome_iff_exists, SortedMap.keys, List.mem_map]
    exact ⟨fun ⟨⟨_, bytes⟩, h, rfl⟩ => ⟨bytes, (SortedMap.mem_entries_iff _ _ _).1 h⟩,
      fun ⟨bytes, h⟩ => ⟨(q, bytes), (SortedMap.mem_entries_iff _ _ _).2 h, rfl⟩⟩
  simp only [isFolder, List.any_cons, List.any_map, Bool.or_eq_true, List.isPrefixOf_iff_prefix,
    List.any_eq_true, Function.comp_apply, key]

/-- On the way to a folder there are folders only. -/
theorem isFolder_ancestor {q place : Place} (h : d.isFolder place = true) (hq : q <+: place) :
    d.isFolder q = true := by
  rw [isFolder_iff] at h ⊢
  exact h.imp hq.trans fun ⟨file, hf, hp⟩ => ⟨file, hf, hq.trans hp⟩

/-- A file in a folder changes no folder. -/
theorem isFolder_put {place : Place} (bytes : List UInt8) (h : d.isFolder place.dropLast = true)
    (q : Place) : (d.put place bytes).isFolder q = d.isFolder q := by
  rw [Bool.eq_iff_iff, isFolder_iff, isFolder_iff]
  constructor
  · rintro (hq | ⟨file, hf, hp⟩)
    · exact .inl hq
    · by_cases hfile : file = place
      · exact (isFolder_iff _ _).1 (isFolder_ancestor h (hfile ▸ hp))
      · exact .inr ⟨file, by simpa [get?_put, hfile] using hf, hp⟩
  · refine Or.imp id fun ⟨file, hf, hp⟩ => ⟨file, ?_, hp⟩
    rw [get?_put]
    split
    · rfl
    · exact hf

/-! ## Following a path -/

theorem isFolder_step {place r : Place} {name : String} (hd : d.isFolder place = true)
    (h : d.step place name = .ok r) : d.isFolder r = true := by
  unfold step at h
  split at h
  · cases h; exact hd
  · split at h
    · cases h; exact isFolder_ancestor hd (List.dropLast_prefix _)
    · split at h
      · cases h
      · split at h
        · next hf => cases h; exact hf
        · split at h <;> cases h

/-- Names lead from a folder to a folder. -/
theorem isFolder_walk {place r : Place} {names : List String} (hd : d.isFolder place = true)
    (h : d.walk place names = .ok r) : d.isFolder r = true := by
  induction names generalizing place with
  | nil => cases h; exact hd
  | cons name rest ih =>
    simp only [walk, List.foldlM_cons, bind, Except.bind] at h
    split at h
    · cases h
    · next hs => exact ih (isFolder_step hd hs) h

theorem isFolder_root (d : Folder) : d.isFolder [] = true :=
  (isFolder_iff _ _).2 (.inl List.nil_prefix)

theorem isFolder_home (d : Folder) : d.isFolder d.home = true :=
  (isFolder_iff _ _).2 (.inl List.prefix_rfl)

/-- A path starts at a folder. -/
theorem isFolder_start (d : Folder) (p : Path) :
    d.isFolder (if p.absolute then [] else d.home) = true := by
  split
  · exact isFolder_root d
  · exact isFolder_home d

/-- The place that a path leads to is in a folder. -/
theorem isFolder_target {p : Path} {place : Place} (h : d.target p = .ok (some place)) :
    d.isFolder place.dropLast = true := by
  unfold target at h
  split at h
  · cases h
  · simp only [bind, Except.bind] at h
    split at h
    · cases h
    · next hw =>
      have hr := isFolder_walk (isFolder_start d p) hw
      split at h
      · cases h
      · split at h
        · cases h
        · cases h
          simpa using hr

/-- Where the same folders stand, names lead to the same folder. -/
theorem walk_of_isFolder (hf : ∀ q, e.isFolder q = d.isFolder q) {place r : Place}
    {names : List String} (h : d.walk place names = .ok r) : e.walk place names = .ok r := by
  induction names generalizing place with
  | nil => exact h
  | cons name rest ih =>
    simp only [walk, List.foldlM_cons, bind, Except.bind] at h ⊢
    split at h
    · cases h
    · next s hs =>
      have : e.step place name = .ok s := by
        unfold step at hs ⊢
        rw [hf]
        split
        · simpa [*] using hs
        · split
          · simpa [*] using hs
          · split
            · simp [*] at hs
            · split
              · simpa [*] using hs
              · exfalso
                simp only [*, ↓reduceIte, Bool.false_eq_true] at hs
                split at hs <;> cases hs
      rw [this]
      exact ih h

/-- Where the same folders stand, a path leads to the same place. -/
theorem target_of_isFolder (hf : ∀ q, e.isFolder q = d.isFolder q) (hh : e.home = d.home)
    {p : Path} {t : Option Place} (h : d.target p = .ok t) : e.target p = .ok t := by
  unfold target at h ⊢
  split at h
  · exact h
  · simp only [bind, Except.bind] at h ⊢
    split at h
    · cases h
    · next hw =>
      rw [hh, walk_of_isFolder hf hw]
      exact h

/-! ## Writing -/

/-- What the path of a new file means. -/
theorem destination_eq_ok {path : String} {place : Place} (h : d.destination path = .ok place) :
    ∃ p, Path.ofText path = .ok p ∧ d.target p = .ok (some place) ∧ p.slashed = false ∧
      d.isFolder place = false := by
  unfold destination at h
  simp only [bind, Except.bind] at h
  split at h
  · cases h
  · next p hp =>
    split at h
    · cases h
    · next t ht =>
      split at h
      · cases h
      · split at h
        · cases h
        · next hs =>
          split at h
          · cases h
          · next hf =>
            cases h
            exact ⟨p, hp, ht, by simpa using hs, by simpa using hf⟩

/-- Where the same folders stand, a path gives a file the same place. -/
theorem destination_of_isFolder (hf : ∀ q, e.isFolder q = d.isFolder q) (hh : e.home = d.home)
    {path : String} {place : Place} (h : d.destination path = .ok place) :
    e.destination path = .ok place := by
  obtain ⟨p, hp, ht, hs, hd⟩ := destination_eq_ok h
  simp [destination, hp, target_of_isFolder hf hh ht, hs, hf, hd, bind, Except.bind, pure,
    Except.pure]

/-- The place of a new file is in a folder. -/
theorem isFolder_destination {path : String} {place : Place}
    (h : d.destination path = .ok place) : d.isFolder place.dropLast = true :=
  let ⟨_, _, ht, _⟩ := destination_eq_ok h
  isFolder_target ht

/-- A file that was written is read again. -/
theorem read_put_destination {path : String} {place : Place} (bytes : List UInt8)
    (h : d.destination path = .ok place) : (d.put place bytes).read path = .ok bytes := by
  have hf := isFolder_put bytes (isFolder_destination h)
  obtain ⟨p, hp, ht, hs, hd⟩ := destination_eq_ok h
  have ht' := target_of_isFolder hf rfl ht
  simp [read, hp, ht', hf, hd, get?_put, hs, bind, Except.bind, pure, Except.pure]

/-- A file is begun in a folder. -/
theorem isFolder_workplace {path : String} {folder : Place}
    (h : d.workplace path = .ok folder) : d.isFolder folder = true := by
  unfold workplace at h
  simp only [bind, Except.bind] at h
  split at h
  · cases h
  · exact isFolder_walk (isFolder_root d) h

end SamplingProfile.Folder
