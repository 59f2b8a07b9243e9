-- Lists of names come back as they were written, as they are or compressed. Which writer of zlib
-- streams compressed them plays no part, as long as it loses nothing.
import SamplingProfile.Proofs.Reading.Undoing
import SamplingProfile.Proofs.Zlib.Lossless

namespace SamplingProfile

open Reader

namespace NameList

/-! ## Payloads -/

theorem restores_name {s : String} (h : (encodeText s).length < UInt64.size) :
    name.Restores ⟨Leb128.encode (encodeText s).length ++ encodeText s, none⟩ s := by
  rw [← Output.append_ofBytes]
  exact (restores_leb128 h).bind (restores_text s)

theorem payload_cons (s : String) (list : List String) :
    payload (s :: list)
      = Leb128.encode (encodeText s).length ++ encodeText s ++ payload list := rfl

/-- Every name takes a byte or more. -/
theorem length_le_payload (list : List String) : list.length ≤ (payload list).length := by
  induction list with
  | nil => exact Nat.zero_le _
  | cons s list ih =>
    have := List.length_pos_iff.2 (Leb128.encode_ne_nil (encodeText s).length)
    rw [payload_cons, List.length_cons, List.length_append, List.length_append]
    omega

theorem names_payload {list : List String} (hlt : (payload list).length < UInt64.size)
    {room : Nat} (hroom : (payload list).length ≤ room) (start : Nat) :
    names room ⟨start, payload list⟩ = .ok (list, ⟨start + (payload list).length, []⟩) := by
  induction list generalizing room start with
  | nil => cases room <;> rfl
  | cons s list ih =>
    have hne := List.length_pos_iff.2 (Leb128.encode_ne_nil (encodeText s).length)
    rw [payload_cons] at hlt hroom ⊢
    have htext : (encodeText s).length < UInt64.size := by
      rw [List.length_append, List.length_append] at hlt
      omega
    generalize hfirst : Leb128.encode (encodeText s).length ++ encodeText s = first at hlt hroom ⊢
    have hpos : 0 < first.length := by
      rw [← hfirst, List.length_append]
      omega
    rw [List.length_append] at hlt hroom
    obtain ⟨room, rfl⟩ : ∃ r, room = r + 1 := ⟨room - 1, by omega⟩
    have hname := restores_name htext first (by rw [hfirst]) start (payload list)
    have hempty : (first ++ payload list).isEmpty = false := by
      rw [List.isEmpty_eq_false_iff]
      intro hnil
      rw [(List.append_eq_nil_iff.1 hnil).1] at hpos
      exact absurd hpos (by decide)
    rw [names, bind_of_ok (run_get _), hempty, if_neg Bool.false_ne_true, bind_of_ok hname,
      bind_of_ok (ih (by omega) (by omega) _), List.length_append, Nat.add_assoc]
    rfl

theorem payloadNames_payload {list : List String} (hlt : (payload list).length < UInt64.size)
    (start : Nat) : payloadNames ⟨start, payload list⟩ = .ok list := by
  rw [payloadNames, names_payload hlt (Nat.le_refl _)]

theorem compressedNames_deflate {deflate : List UInt8 → List UInt8} (hd : Zlib.Lossless deflate)
    {list : List String} (hlt : (payload list).length < UInt64.size) (start : Nat) :
    compressedNames ⟨start, deflate (payload list)⟩ (payload list).length = .ok list := by
  rw [compressedNames, hd.inflateWithin?]
  dsimp only
  rw [if_neg (not_not_intro rfl), Span.ofBytes, payloadNames_payload hlt]

/-! ## Lists -/

/-- What is read of a list behind its three numbers. -/
def readStored (count size compressed : Nat) : Reader (List String) := do
  let span ← get
  let length := if compressed = 0 then size else compressed
  ensure length
  let payload : Span := ⟨span.start, ← take length⟩
  let found ←
    if compressed = 0 then
      match payloadNames payload with
      | .ok found => pure found
      | .error e => throw (e.within .stringList payload.start)
    else
      match compressedNames payload size with
      | .ok found => pure found
      | .error e => throw e
  if found.length ≠ count then failAt span .listLengthMismatch
  return found

theorem read_eq :
    NameList.read = (do readStored (← leb128) (← leb128) (← leb128)) := rfl

/-- The three numbers of a list. -/
def numbers (count size compressed : Nat) : List UInt8 :=
  Leb128.encode count ++ Leb128.encode size ++ Leb128.encode compressed

theorem read_numbers {count size compressed : Nat} (hcount : count < UInt64.size)
    (hsize : size < UInt64.size) (hcompressed : compressed < UInt64.size) (start : Nat)
    (back : List UInt8) :
    NameList.read ⟨start, numbers count size compressed ++ back⟩
      = readStored count size compressed
          ⟨start + (numbers count size compressed).length, back⟩ := by
  unfold numbers
  rw [read_eq, List.append_assoc, List.append_assoc,
    bind_of_ok (restores_leb128 hcount _ rfl start _),
    bind_of_ok (restores_leb128 hsize _ rfl _ _),
    bind_of_ok (restores_leb128 hcompressed _ rfl _ back), List.length_append,
    List.length_append, Nat.add_assoc, Nat.add_assoc, Nat.add_assoc]

/-- The names that are stored, as they are or compressed. -/
def storedNames (size compressed : Nat) (stored : Span) : Except ParseError (List String) :=
  if compressed = 0 then
    (payloadNames stored).mapError fun e => e.within .stringList stored.start
  else compressedNames stored size

/-- The names that were found, if they are as many as they should be. -/
def counted (count : Nat) (span : Span) : Except ParseError (List String) → Reader (List String)
  | .error e => throw e
  | .ok found => if found.length = count then pure found else failAt span .listLengthMismatch

theorem readStored_eq (count size compressed : Nat) :
    readStored count size compressed = (do
      let span ← get
      let length := if compressed = 0 then size else compressed
      ensure length
      let bytes ← take length
      counted count span (storedNames size compressed ⟨span.start, bytes⟩)) := by
  have hcounted : ∀ (span : Span) (found : List String), (do
      let found ← pure found
      if found.length ≠ count then failAt span .listLengthMismatch
      return found : Reader (List String)) = counted count span (.ok found) := by
    intro span found
    rw [pure_bind, counted]
    by_cases hcount : found.length = count
    · rw [if_neg (not_not_intro hcount), if_pos hcount]
    · rw [if_pos hcount, if_neg hcount]
      rfl
  unfold readStored storedNames
  refine bind_congr fun span => bind_congr fun _ => bind_congr fun bytes => ?_
  by_cases hc : compressed = 0
  · rw [if_pos hc, if_pos hc]
    cases payloadNames ⟨span.start, bytes⟩ with
    | error e => rfl
    | ok found => exact hcounted span found
  · rw [if_neg hc, if_neg hc]
    cases compressedNames ⟨span.start, bytes⟩ size with
    | error e => rfl
    | ok found => exact hcounted span found

/-- As many bytes as the numbers say are looked through for names. -/
theorem readStored_append {count size compressed : Nat} {stored : List UInt8}
    (hlen : (if compressed = 0 then size else compressed) = stored.length) (start : Nat)
    (back : List UInt8) :
    readStored count size compressed ⟨start, stored ++ back⟩ =
      counted count ⟨start, stored ++ back⟩ (storedNames size compressed ⟨start, stored⟩)
        ⟨start + stored.length, back⟩ := by
  rw [readStored_eq, bind_of_ok (run_get _)]
  dsimp only
  rw [hlen, bind_of_ok (ensure_of_le (by simp)), bind_of_ok (take_append start stored back)]

theorem takesAt_numbers {list : List String} {size compressed : Nat} {stored : List UInt8}
    (hcount : list.length < UInt64.size) (hsize : size < UInt64.size)
    (hcompressed : compressed < UInt64.size)
    (hlen : (if compressed = 0 then size else compressed) = stored.length)
    (hnames : ∀ start, storedNames size compressed ⟨start, stored⟩ = .ok list) (start : Nat) :
    NameList.read.TakesAt start (numbers list.length size compressed ++ stored) list := by
  intro back
  rw [List.append_assoc, read_numbers hcount hsize hcompressed, readStored_append hlen, hnames,
    counted, if_pos rfl, List.length_append, ← Nat.add_assoc]
  rfl

/-- A list of names comes back, compressed or not, as long as its numbers fit in 64 bits. -/
theorem restores_write {deflate : List UInt8 → List UInt8} (hd : Zlib.Lossless deflate)
    {list : List String} {compress : Bool} (hplain : (payload list).length < UInt64.size)
    (hpacked : compress = true ∧ payload list ≠ [] →
      (deflate (payload list)).length < UInt64.size) :
    NameList.read.Restores ⟨NameList.write list compress deflate, none⟩ list := by
  have hlist : list.length < UInt64.size := Nat.lt_of_le_of_lt (length_le_payload list) hplain
  apply restores_of_takesAt
  intro start
  unfold NameList.write
  dsimp only
  by_cases hc : compress = true ∧ payload list ≠ []
  · rw [if_pos hc, ← List.append_assoc]
    have hne : (deflate (payload list)).length ≠ 0 := by
      intro hzero
      exact hd.ne_nil _ (List.length_eq_zero_iff.1 hzero)
    refine takesAt_numbers hlist hplain (hpacked hc) (if_neg hne) (fun start => ?_) start
    rw [storedNames, if_neg hne, compressedNames_deflate hd hplain]
  · rw [if_neg hc, ← List.append_assoc]
    refine takesAt_numbers hlist hplain (by decide) (if_pos rfl) (fun start => ?_) start
    rw [storedNames, if_pos rfl, payloadNames_payload hplain]
    rfl

/-- A list of names comes back, compressed or not. Before it is compressed its length is written
as well, so that has to fit in 64 bits. -/
theorem undoes_read {deflate : List UInt8 → List UInt8} (hd : Zlib.Lossless deflate)
    {list : List String} {compress : Bool}
    (hfit : compress = true → (payload list).length < UInt64.size) :
    NameList.read.Undoes ⟨NameList.write list compress deflate, none⟩ list := by
  intro bytes h hlt
  cases h
  have hwritten := hlt
  unfold NameList.write at hwritten
  dsimp only at hwritten
  by_cases hc : compress = true ∧ payload list ≠ []
  · rw [if_pos hc] at hwritten
    simp only [List.length_append] at hwritten
    exact restores_write hd (hfit hc.1) (fun _ => by omega) _ rfl
  · rw [if_neg hc] at hwritten
    simp only [List.length_append] at hwritten
    exact restores_write hd (by omega) (fun h => absurd h hc) _ rfl

/-! ## What is behind a list -/

/-- Whatever the names are and whatever follows them, a list that was written is read as it was, and
nothing is read behind it. -/
theorem written_list_comes_back {deflate : List UInt8 → List UInt8} (hd : Zlib.Lossless deflate)
    {list : List String} {compress : Bool} (hplain : (payload list).length < UInt64.size)
    (hpacked : compress = true ∧ payload list ≠ [] →
      (deflate (payload list)).length < UInt64.size) (start : Nat) (tail : List UInt8) :
    NameList.read ⟨start, NameList.write list compress deflate ++ tail⟩
      = .ok (list, ⟨start + (NameList.write list compress deflate).length, tail⟩) :=
  restores_write hd hplain hpacked _ rfl start tail

/-- Names of which one is empty and one stands twice. -/
def withEmptyName : List String := ["main", "", "main"]

theorem withEmptyName_comes_back :
    NameList.read ⟨0, NameList.write withEmptyName true ++ [0xaa]⟩
      = .ok (withEmptyName, ⟨25, [0xaa]⟩) ∧
    NameList.read ⟨0, NameList.write withEmptyName false ++ [0xaa]⟩
      = .ok (withEmptyName, ⟨14, [0xaa]⟩) := by
  have hplain : (payload withEmptyName).length < UInt64.size := by decide +kernel
  have hpacked : (Zlib.deflate (payload withEmptyName)).length < UInt64.size := by decide +kernel
  have htrue : (NameList.write withEmptyName true).length = 25 := by decide +kernel
  have hfalse : (NameList.write withEmptyName false).length = 14 := by decide +kernel
  constructor
  · rw [written_list_comes_back Zlib.lossless_deflate hplain (fun _ => hpacked), htrue]
  · rw [written_list_comes_back Zlib.lossless_deflate hplain (fun _ => hpacked), hfalse]

end NameList

end SamplingProfile
