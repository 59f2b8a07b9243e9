-- What is in the name table of a store, and where. Every name that a node has or calls is in it, at
-- every depth, and nothing else. The names come in the order of their bytes, and a table that was
-- written is read with every name at its place, so that no name is taken for another.
import SamplingProfile.Proofs.Binary.Parts
import SamplingProfile.Proofs.Binary.Room
import SamplingProfile.Proofs.Bytes.Utf8
import SamplingProfile.Proofs.Store.Bodies

namespace SamplingProfile

/-! ## The names of a store -/

/-- A node of the store has the name, or a directory or a file of the name, or calls what has it. -/
inductive Store.Mentions (s : Store) : String → Prop
  | name {function path node} (h : s.nodeAt? function path = some node) : Mentions s node.name
  | directory {function path node} (h : s.nodeAt? function path = some node) :
    Mentions s node.directory
  | file {function path node} (h : s.nodeAt? function path = some node) : Mentions s node.file
  | target {function path location called count}
    (h : s.countAt? (.target function path location called) = some count) : Mentions s called

theorem Forest.names_eq_flatMap (f : Forest) : f.names = f.bodies.flatMap Body.names := by
  induction f with
  | nil => rfl
  | cons site body inner rest ih ih' =>
    rw [names, bodies, List.flatMap_cons, List.flatMap_append, ih, ih']

theorem FunctionProfile.names_eq_flatMap (f : FunctionProfile) :
    f.names = f.bodies.flatMap Body.names := by
  rw [names, bodies, List.flatMap_cons, Forest.names_eq_flatMap]

/-- What a node calls is what its locations have counts of. -/
theorem Body.mem_names_iff {b : Body} {name : String} :
    name ∈ b.names ↔ name = b.name ∨ name = b.directory ∨ name = b.file ∨
      ∃ location tally count, b.samples.get? location = some tally ∧
        tally.targets.get? name = some count := by
  simp only [names, List.mem_cons, List.mem_flatMap, SortedMap.mem_values_iff,
    SortedMap.mem_keys_iff]
  refine or_congr_right (or_congr_right (or_congr_right ?_))
  constructor
  · rintro ⟨tally, ⟨location, htally⟩, count, hcount⟩
    exact ⟨location, tally, count, htally, hcount⟩
  · rintro ⟨location, tally, count, htally, hcount⟩
    exact ⟨tally, ⟨location, htally⟩, count, hcount⟩

namespace Store

variable {s : Store}

theorem countAt?_target_eq_some_iff {function called : String} {path : List Callsite}
    {location : Location} {count : Count} :
    s.countAt? (.target function path location called) = some count ↔
      ∃ node tally, s.nodeAt? function path = some node ∧
        node.samples.get? location = some tally ∧ tally.targets.get? called = some count := by
  simp only [countAt?, tallyAt?, Option.bind_eq_some_iff]
  constructor
  · rintro ⟨tally, ⟨node, hnode, htally⟩, hcount⟩
    exact ⟨node, tally, hnode, htally, hcount⟩
  · rintro ⟨node, tally, hnode, htally, hcount⟩
    exact ⟨tally, ⟨node, hnode, htally⟩, hcount⟩

/-- The names that are collected, tree by tree, are those that the nodes have and call. -/
theorem mentions_iff {name : String} :
    s.Mentions name ↔ name ∈ s.toList.flatMap FunctionProfile.names := by
  have hnames : FunctionProfile.names = fun f => f.bodies.flatMap Body.names :=
    funext FunctionProfile.names_eq_flatMap
  rw [hnames, ← List.flatMap_assoc, List.mem_flatMap]
  constructor
  · intro h
    cases h with
    | name h => exact ⟨_, toBody_mem_bodies h, Body.mem_names_iff.2 (.inl rfl)⟩
    | directory h => exact ⟨_, toBody_mem_bodies h, Body.mem_names_iff.2 (.inr (.inl rfl))⟩
    | file h => exact ⟨_, toBody_mem_bodies h, Body.mem_names_iff.2 (.inr (.inr (.inl rfl)))⟩
    | target h =>
      obtain ⟨node, tally, hnode, htally, hcount⟩ := countAt?_target_eq_some_iff.1 h
      exact ⟨_, toBody_mem_bodies hnode,
        Body.mem_names_iff.2 (.inr (.inr (.inr ⟨_, tally, _, htally, hcount⟩)))⟩
  · rintro ⟨b, hb, hname⟩
    obtain ⟨function, path, node, hnode, rfl⟩ := mem_bodies_iff.1 hb
    rcases Body.mem_names_iff.1 hname with rfl | rfl | rfl | ⟨location, tally, count, ht, hc⟩
    · exact .name hnode
    · exact .directory hnode
    · exact .file hnode
    · exact .target (countAt?_target_eq_some_iff.2 ⟨node, tally, hnode, ht, hc⟩)

end Store

namespace Binary

open Reader

/-! ## Places in the table -/

namespace NameTable

variable {table : NameTable} {name : String}

/-- The names come in the order of their bytes. -/
theorem increasing_names (table : NameTable) :
    table.names.Pairwise fun a b => encodeText a < encodeText b :=
  List.Pairwise.imp (fun h => encodeText_lt (compareOfLessAndEq_eq_lt.1 h))
    table.entries.increasing_keys

theorem mem_names_ofNames_iff {names : List String} :
    name ∈ (ofNames names).names ↔ name ∈ names := by
  constructor
  · intro h
    obtain ⟨value, hvalue⟩ := SortedMap.mem_keys_iff.1 h
    obtain ⟨found, hfound, heq⟩ := List.mem_map.1 (SortedMap.mem_of_get?_ofList hvalue)
    cases heq
    exact hfound
  · exact mem_names_ofNames

theorem index?_eq_some_iff {i : Nat} :
    table.index? name = some i ↔ table.names[i]? = some name := by
  constructor
  · intro h
    rw [← List.getElem?_toArray]
    exact (names_of_index? h).2
  · intro h
    obtain ⟨hi, hname⟩ := List.getElem?_eq_some_iff.1 h
    rw [index?, List.findIdx?_eq_some_iff_getElem]
    refine ⟨hi, beq_iff_eq.2 hname, fun j hj heq => ?_⟩
    have hsame : table.names[j] = table.names[i] := (beq_iff_eq.1 heq).trans hname.symm
    exact Nat.ne_of_lt hj (table.entries.nodup_keys.getElem_inj_iff.1 hsame)

theorem mem_names_ofStore_iff {l : Layout} (hl : l.names ≠ .inlined) {s : Store} :
    name ∈ (ofStore l s).names ↔ s.Mentions name := by
  rw [Store.mentions_iff, ofStore]
  cases hn : l.names with
  | inlined => exact absurd hn hl
  | table => exact mem_names_ofNames_iff
  | compressibleTable => exact mem_names_ofNames_iff

end NameTable

/-! ## The table in a profile -/

namespace Layout

/-- A layout has room for a number, which has 64 bits at most. -/
def Holds (l : Layout) (n : Nat) : Prop := n < UInt64.size ∧ l.HasRoom n

instance (l : Layout) (n : Nat) : Decidable (l.Holds n) :=
  inferInstanceAs (Decidable (_ ∧ (_ → _)))

/-- The sizes of a table have room: that of the table, and those of its names or of all of them
together, before and after they are compressed. -/
structure HoldsTable (l : Layout) (table : NameTable) (compress : Bool)
    (deflate : List UInt8 → List UInt8) : Prop where
  count : l.Holds table.names.length
  lengths : l.names = .table → ∀ name ∈ table.names, l.Holds (encodeText name).length
  plain : l.names = .compressibleTable → (NameList.payload table.names).length < UInt64.size
  packed : l.names = .compressibleTable → compress = true ∧ NameList.payload table.names ≠ [] →
    (deflate (NameList.payload table.names)).length < UInt64.size

variable {l : Layout} {table : NameTable} {compress : Bool} {deflate : List UInt8 → List UInt8}

theorem Holds.mono {m n : Nat} (h : l.Holds n) (hle : m ≤ n) : l.Holds m :=
  ⟨Nat.lt_of_le_of_lt hle h.1, fun hl => Nat.lt_of_le_of_lt hle (h.2 hl)⟩

theorem writeTable_eq (h : l.HoldsTable table compress deflate) :
    ∃ bytes, l.writeTable table compress deflate = ⟨bytes, none⟩ := by
  unfold writeTable
  cases hn : l.names with
  | inlined => exact ⟨[], rfl⟩
  | table =>
    have hnames := Output.fits_concat_map fun name (_ : name ∈ table.names) => l.fits_writeText name
    refine ⟨_, ((l.fits_writeSmall .nameCount _).append hnames).eq_bytes ⟨h.count.2, ?_⟩⟩
    exact fun name hname => (h.lengths hn name hname).2
  | compressibleTable => exact ⟨_, rfl⟩

theorem restores_readTable (hd : Zlib.Lossless deflate) (hl : l.names ≠ .inlined)
    (h : l.HoldsTable table compress deflate) :
    l.readTable.Restores (l.writeTable table compress deflate) table.names.toArray := by
  unfold readTable writeTable
  cases hn : l.names with
  | inlined => exact absurd hn hl
  | table =>
    apply (restores_readSmall l .nameCount h.count.1).bind
    rw [← bind_assoc]
    have htexts := restores_ensure_repeated (fun name _ => atLeast_writeText l name)
      fun name hname => (restores_readSmall l .nameLength (h.lengths hn name hname).1).bind
        (restores_text name)
    apply htexts.bind_pure
    rw [List.map_id']
  | compressibleTable =>
    exact (NameList.restores_write hd (h.plain hn) (h.packed hn)).bind_pure rfl

theorem restores_readName (hl : l.names ≠ .inlined) {name : String} {i : Nat}
    (hi : table.index? name = some i) (h : l.Holds table.names.length) :
    (l.readName table.names.toArray).Restores (l.writeName table name) name := by
  obtain ⟨hlt, hname⟩ := NameTable.names_of_index? hi
  rw [l.writeName_eq hl hi]
  unfold readName
  cases hn : l.names with
  | inlined => exact absurd hn hl
  | table | compressibleTable =>
    refine Restores.get_bind fun span => ?_
    apply (restores_readSmall l .nameIndex (h.mono (Nat.le_of_lt hlt)).1).bind_pure
    rw [hname]

end Layout

/-- The names that a store mentions have the numbers from 0 on in the order of their bytes, and all
other names have none. A table that was written is read, whatever follows it, with every name at the
place of its number, and every name that was written as its number is read as it was. -/
theorem names_have_their_places (l : Layout) (hl : l.names ≠ .inlined) (s : Store) :
    (NameTable.ofStore l s).names.Pairwise (fun a b => encodeText a < encodeText b) ∧
    (∀ name, name ∈ (NameTable.ofStore l s).names ↔ s.Mentions name) ∧
    (∀ name i, (NameTable.ofStore l s).index? name = some i ↔
      (NameTable.ofStore l s).names[i]? = some name) ∧
    ∀ compress deflate, Zlib.Lossless deflate →
      l.HoldsTable (NameTable.ofStore l s) compress deflate →
      ∃ bytes, ∃ read : NameArray,
        l.writeTable (NameTable.ofStore l s) compress deflate = ⟨bytes, none⟩ ∧
        (∀ start back, l.readTable ⟨start, bytes ++ back⟩
          = .ok (read, ⟨start + bytes.length, back⟩)) ∧
        (∀ i : Nat, read[i]? = (NameTable.ofStore l s).names[i]?) ∧
        ∀ name, s.Mentions name →
          ∃ i written, (NameTable.ofStore l s).index? name = some i ∧ read[i]? = some name ∧
            l.writeName (NameTable.ofStore l s) name = ⟨written, none⟩ ∧
            ∀ start back, l.readName read ⟨start, written ++ back⟩
              = .ok (name, ⟨start + written.length, back⟩) := by
  refine ⟨NameTable.increasing_names _, fun name => NameTable.mem_names_ofStore_iff hl,
    fun name i => NameTable.index?_eq_some_iff, fun compress deflate hd hfit => ?_⟩
  obtain ⟨bytes, hbytes⟩ := Layout.writeTable_eq hfit
  refine ⟨bytes, (NameTable.ofStore l s).names.toArray, hbytes,
    Layout.restores_readTable hd hl hfit bytes hbytes, fun i => List.getElem?_toArray, ?_⟩
  intro name hname
  obtain ⟨i, hi⟩ := NameTable.exists_index? ((NameTable.mem_names_ofStore_iff hl).2 hname)
  obtain ⟨hlt, hread⟩ := NameTable.names_of_index? hi
  have hwritten : l.writeName (NameTable.ofStore l s) name
      = ⟨(l.writeName (NameTable.ofStore l s) name).bytes, none⟩ := by
    rw [l.writeName_eq hl hi]
    exact (l.fits_writeSmall .nameIndex i).eq_bytes (hfit.count.mono (Nat.le_of_lt hlt)).2
  exact ⟨i, _, hi, hread, hwritten, Layout.restores_readName hl hi hfit.count _ hwritten⟩

/-- Two functions, of which one has a callee and one calls what has two bytes for one letter. -/
def sharingNames : Store := .ofList [
  { name := "helper", callees := .ofList [(⟨⟨131073⟩, "inlined"⟩, { name := "inlined" })] },
  { name := "main",
    samples := .ofList
      [(⟨262144⟩, { count := 9, targets := .ofList [("öffne", 1), ("main", 2)] })] }]

/-- The table of `sharingNames` in the newest version, compressed. -/
theorem sharingNames_have_their_places :
    (NameTable.ofStore Version.compact.layout sharingNames).names
      = ["", "helper", "inlined", "main", "öffne"] ∧
    ∃ bytes read, Version.compact.layout.writeTable
        (NameTable.ofStore Version.compact.layout sharingNames) true = ⟨bytes, none⟩ ∧
      Version.compact.layout.readTable ⟨0, bytes ++ [1]⟩ = .ok (read, ⟨bytes.length, [1]⟩) ∧
      ∃ (i : Nat) (written : List UInt8), read[i]? = some "öffne" ∧
        Version.compact.layout.writeName
            (NameTable.ofStore Version.compact.layout sharingNames) "öffne" = ⟨written, none⟩ ∧
        Version.compact.layout.readName read ⟨0, written ++ [1]⟩
          = .ok ("öffne", ⟨written.length, [1]⟩) := by
  have hnames : (NameTable.ofStore Version.compact.layout sharingNames).names
      = ["", "helper", "inlined", "main", "öffne"] := by decide +kernel
  have hfit : Version.compact.layout.HoldsTable
      (NameTable.ofStore Version.compact.layout sharingNames) true Zlib.deflate := by
    constructor <;> rw [hnames]
    · decide
    · exact fun h => nomatch h
    · exact fun _ => by decide +kernel
    · exact fun _ _ => by decide +kernel
  obtain ⟨-, hmem, -, htable⟩ :=
    names_have_their_places Version.compact.layout (by decide) sharingNames
  obtain ⟨bytes, read, hbytes, hread, -, hall⟩ :=
    htable true Zlib.deflate Zlib.lossless_deflate hfit
  have hmentions : sharingNames.Mentions "öffne" := (hmem "öffne").1 (by rw [hnames]; decide)
  obtain ⟨i, written, -, hi, hwritten, hname⟩ := hall "öffne" hmentions
  have h := hread 0 [1]
  have h' := hname 0 [1]
  rw [Nat.zero_add] at h h'
  exact ⟨hnames, bytes, read, hbytes, h, i, written, hi, hwritten, h'⟩

end Binary

end SamplingProfile
