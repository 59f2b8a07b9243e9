-- Readers that accept the bytes of a grammar and no others. A grammar is a type of items, with the
-- items that are allowed, the bytes that each of them takes, and what is read of it. Readers keep
-- to a grammar when they are put one behind the other, and the items are then pairs and lists.
import Mathlib.Data.List.Nodup
import SamplingProfile.Proofs.Reading.Delimited

namespace SamplingProfile.Reader

variable {α β ι κ : Type}

/-- The reader accepts the bytes of the allowed items, whatever follows them, and nothing else:
whatever it takes are the bytes of an allowed item. -/
structure Accepts (r : Reader α) (allowed : ι → Prop) (write : ι → List UInt8) (value : ι → α) :
    Prop where
  takes : ∀ x, allowed x → ∀ start, r.TakesAt start (write x) (value x)
  taken : ∀ span a rest, r span = .ok (a, rest) →
    ∃ x, allowed x ∧ value x = a ∧ span.bytes = write x ++ rest.bytes

variable {r : Reader α} {allowed : ι → Prop} {write : ι → List UInt8} {value : ι → α}

/-- The same bytes may be told by other items. -/
theorem Accepts.transfer (h : r.Accepts allowed write value) {allowed' : κ → Prop}
    {write' : κ → List UInt8} {value' : κ → α}
    (down : ∀ y, allowed' y → ∃ x, allowed x ∧ write x = write' y ∧ value x = value' y)
    (up : ∀ x, allowed x → ∃ y, allowed' y ∧ write' y = write x ∧ value' y = value x) :
    r.Accepts allowed' write' value' where
  takes y hy start := by
    rcases down y hy with ⟨x, hx, hwrite, hvalue⟩
    rw [← hwrite, ← hvalue]
    exact h.takes x hx start
  taken span a rest hr := by
    rcases h.taken span a rest hr with ⟨x, hx, rfl, hbytes⟩
    rcases up x hx with ⟨y, hy, hwrite, hvalue⟩
    exact ⟨y, hy, hvalue, by rw [hwrite, hbytes]⟩

/-! ## One reader behind the other -/

theorem accepts_pure {a : α} (hone : ∃ x, allowed x)
    (h : ∀ x, allowed x → write x = [] ∧ value x = a) :
    Accepts (pure a) allowed write value where
  takes x hx start := by
    rcases h x hx with ⟨hwrite, hvalue⟩
    rw [hwrite, hvalue]
    exact takesAt_pure start a
  taken span b rest hr := by
    rcases hone with ⟨x, hx⟩
    rcases h x hx with ⟨hwrite, hvalue⟩
    cases hr
    exact ⟨x, hx, hvalue, by simp [hwrite]⟩

/-- A reader that stops has no items. -/
theorem accepts_failAt (span : Span) (p : Problem) (h : ∀ x, ¬allowed x) :
    Accepts (failAt span p : Reader α) allowed write value where
  takes x hx := absurd hx (h x)
  taken _ _ _ hr := nomatch hr

/-- What is behind an item may depend on what was read of it. -/
theorem Accepts.bind {f : α → Reader β} {allowed' : ι → κ → Prop} {write' : ι → κ → List UInt8}
    {value' : ι → κ → β} (hr : r.Accepts allowed write value)
    (hf : ∀ x, allowed x → (f (value x)).Accepts (allowed' x) (write' x) (value' x)) :
    (r >>= f).Accepts (fun p : ι × κ => allowed p.1 ∧ allowed' p.1 p.2)
      (fun p => write p.1 ++ write' p.1 p.2) fun p => value' p.1 p.2 where
  takes p hp start := by
    rcases hp with ⟨hx, hy⟩
    exact (hr.takes p.1 hx start).bind ((hf p.1 hx).takes p.2 hy _)
  taken span b rest h := by
    obtain ⟨a, middle, ha, hb⟩ := bind_eq_ok.1 h
    obtain ⟨x, hx, rfl, hfront⟩ := hr.taken span a middle ha
    obtain ⟨y, hy, rfl, hback⟩ := (hf x hx).taken middle b rest hb
    exact ⟨(x, y), ⟨hx, hy⟩, rfl, by simp [hfront, hback]⟩

/-- What is made of an item, or whether it is refused, is asked behind it and takes no bytes. -/
theorem Accepts.check {f : α → Reader β} {kept : ι → Prop} {g : ι → β}
    (hr : r.Accepts allowed write value)
    (hf : ∀ x, (f (value x)).Accepts (fun _ : Unit => kept x) (fun _ => []) fun _ => g x) :
    (r >>= f).Accepts (fun x => allowed x ∧ kept x) write g := by
  refine (hr.bind fun x _ => hf x).transfer ?_ ?_
  · intro x h
    exact ⟨(x, ()), h, by simp, rfl⟩
  · rintro ⟨x, _⟩ h
    exact ⟨x, h, by simp, rfl⟩

/-- What was read is made into something else. -/
theorem Accepts.map (hr : r.Accepts allowed write value) (g : α → β) :
    (r >>= fun a => pure (g a)).Accepts allowed write fun x => g (value x) := by
  have hpure : ∀ x, Accepts (pure (g (value x))) (fun _ : Unit => True) (fun _ => [])
      fun _ => g (value x) := fun x => accepts_pure ⟨(), trivial⟩ fun _ _ => ⟨rfl, rfl⟩
  exact (hr.check hpure).transfer (fun x hx => ⟨x, ⟨hx, trivial⟩, rfl, rfl⟩)
    fun x hx => ⟨x, hx.1, rfl, rfl⟩

/-- A number in front of an item that the item itself tells. -/
theorem Accepts.counted {r : Reader Nat} {fits : Nat → Prop} {number : Nat → List UInt8}
    {f : Nat → Reader β} {count : ι → Nat} {value : ι → β}
    (hr : r.Accepts fits number fun n => n)
    (hf : ∀ n, (f n).Accepts (fun x => count x = n ∧ allowed x) write value) :
    (r >>= f).Accepts (fun x => fits (count x) ∧ allowed x)
      (fun x => number (count x) ++ write x) value := by
  refine (hr.bind fun n _ => hf n).transfer ?_ ?_
  · rintro x ⟨hfits, hx⟩
    exact ⟨(count x, x), ⟨hfits, rfl, hx⟩, rfl, rfl⟩
  · rintro ⟨n, x⟩ ⟨hfits, hcount, hx⟩
    dsimp only at hcount
    subst hcount
    exact ⟨x, ⟨hfits, hx⟩, rfl, rfl⟩

theorem accepts_get_bind {f : Span → Reader α}
    (h : ∀ span, (f span).Accepts allowed write value) :
    Accepts (get >>= f) allowed write value where
  takes x hx start back := by
    rw [bind_of_ok (run_get _)]
    exact (h _).takes x hx start back
  taken span a rest hr := by
    rw [bind_of_ok (run_get span)] at hr
    exact (h span).taken span a rest hr

theorem Accepts.within (hr : r.Accepts allowed write value) (part : Part) :
    (within part r).Accepts allowed write value where
  takes x hx start back := within_eq_ok.2 (hr.takes x hx start back)
  taken span a rest h := hr.taken span a rest (within_eq_ok.1 h)

/-- A check of what was read before takes no bytes. -/
theorem accepts_ite {c : Prop} [Decidable c] (a : α) (span : Span) (p : Problem) :
    Accepts (if c then pure a else failAt span p) (fun _ : Unit => c) (fun _ => []) fun _ => a := by
  by_cases h : c
  · rw [if_pos h]
    exact accepts_pure ⟨(), h⟩ fun _ _ => ⟨rfl, rfl⟩
  · rw [if_neg h]
    exact accepts_failAt span p fun _ => h

/-- Before what follows it may be asked whether to stop. -/
theorem Accepts.unless {c : Prop} [Decidable c] {f : Unit → Reader α}
    (h : (f ()).Accepts allowed write value) (span : Span) (p : Problem) :
    Accepts (if c then failAt span p >>= f else f ()) (fun x => ¬c ∧ allowed x) write value := by
  by_cases hc : c
  · rw [if_pos hc]
    exact accepts_failAt span p fun x hx => hx.1 hc
  · rw [if_neg hc]
    simpa [hc] using h

/-! ## Numbers and texts -/

theorem accepts_littleEndian (width : Nat) :
    (littleEndian width).Accepts (fun n => n < LittleEndian.values width)
      (LittleEndian.encode width) fun n => n where
  takes n hn start back := by
    rw [littleEndian_append, Nat.mod_eq_of_lt hn, LittleEndian.length_encode]
  taken span a rest h := by
    obtain ⟨span', middle, hget, h'⟩ := bind_eq_ok.1 h
    cases hget
    by_cases hholds : span.holds width
    · rw [if_pos hholds] at h'
      have hlen : (span.bytes.take width).length = width := by
        simp [Span.holds_iff.1 hholds]
      obtain ⟨bytes, rest', htake, hret⟩ := bind_eq_ok.1 h'
      cases htake
      cases hret
      have hlt := LittleEndian.decode_lt (span.bytes.take width)
      have hback := LittleEndian.encode_decode (span.bytes.take width)
      rw [hlen] at hlt hback
      refine ⟨_, hlt, rfl, ?_⟩
      rw [hback]
      exact (List.take_append_drop width span.bytes).symm
    · rw [if_neg hholds] at h'
      cases h'

theorem accepts_text (n : Nat) :
    (text n).Accepts (fun s => (encodeText s).length = n) encodeText fun s => s where
  takes s hs start back := by
    rw [← hs, text_append]
  taken span a rest h := by
    obtain ⟨span', middle, hget, h'⟩ := bind_eq_ok.1 h
    cases hget
    obtain ⟨_, middle, hensure, h''⟩ := bind_eq_ok.1 h'
    obtain ⟨hle, rfl⟩ := ensure_eq_ok.1 hensure
    obtain ⟨bytes, rest', htake, hmatch⟩ := bind_eq_ok.1 h''
    cases htake
    cases hdecode : decodeText? (middle.bytes.take n) with
    | none =>
      rw [hdecode] at hmatch
      cases hmatch
    | some s =>
      rw [hdecode] at hmatch
      cases hmatch
      have hbytes := encodeText_of_decodeText? hdecode
      refine ⟨_, ?_, rfl, ?_⟩
      · simp [hbytes, hle]
      · rw [hbytes]
        exact (List.take_append_drop n middle.bytes).symm

/-! ## Lists -/

/-- Some number of items, one behind the other. -/
theorem Accepts.repeated (hr : r.Accepts allowed write value) (n : Nat) :
    (repeated r n).Accepts (fun xs : List ι => xs.length = n ∧ ∀ x ∈ xs, allowed x)
      (fun xs => xs.flatMap write) fun xs => xs.map value := by
  induction n with
  | zero =>
    refine accepts_pure ⟨[], by simp⟩ ?_
    rintro xs ⟨hlen, -⟩
    simp [List.length_eq_zero_iff.1 hlen]
  | succ n ih =>
    unfold Reader.repeated
    refine Accepts.transfer (hr.bind fun x _ => ih.map _) ?_ ?_
    · rintro (_ | ⟨x, xs⟩) ⟨hlen, hall⟩
      · cases hlen
      · rcases List.forall_mem_cons.1 hall with ⟨hx, hxs⟩
        exact ⟨(x, xs), ⟨hx, by simpa using hlen, hxs⟩, rfl, rfl⟩
    · rintro ⟨x, xs⟩ ⟨hx, hlen, hxs⟩
      exact ⟨x :: xs, ⟨by simpa using hlen, List.forall_mem_cons.2 ⟨hx, hxs⟩⟩, rfl, rfl⟩

/-- Looking for a byte for each item before the first one changes nothing, if each item takes a
byte or more. -/
theorem Accepts.ensure_repeated (hr : r.Accepts allowed write value) (hc : r.Consuming) (n : Nat) :
    Accepts (do ensure n; Reader.repeated r n)
      (fun xs : List ι => xs.length = n ∧ ∀ x ∈ xs, allowed x)
      (fun xs => xs.flatMap write) fun xs => xs.map value where
  takes xs hxs start back := by
    have h := (hr.repeated n).takes xs hxs start back
    have hle := hc.le_of_repeated h
    rw [bind_of_ok (ensure_of_le (by omega)), h]
  taken span list rest h := by
    rcases bind_eq_ok.1 h with ⟨_, middle, hensure, hrepeated⟩
    rcases ensure_eq_ok.1 hensure with ⟨-, rfl⟩
    exact (hr.repeated n).taken middle list rest hrepeated

/-- Entries under different keys. -/
theorem Accepts.distinct [DecidableEq κ] {r : Reader (κ × β)} {value : ι → κ × β}
    (hr : r.Accepts allowed write value) (p : Problem) (n : Nat) (met : List κ) :
    (distinct p r n met).Accepts
      (fun xs : List ι => xs.length = n ∧ (∀ x ∈ xs, allowed x) ∧
        (xs.map fun x => (value x).1).Nodup ∧ ∀ x ∈ xs, (value x).1 ∉ met)
      (fun xs => xs.flatMap write) fun xs => xs.map value := by
  induction n generalizing met with
  | zero =>
    refine accepts_pure ⟨[], by simp⟩ ?_
    rintro xs ⟨hlen, -⟩
    simp [List.length_eq_zero_iff.1 hlen]
  | succ n ih =>
    refine accepts_get_bind fun span => ?_
    refine Accepts.transfer (hr.bind fun x _ => Accepts.unless ((ih _).map _) span p) ?_ ?_
    · rintro (_ | ⟨x, xs⟩) ⟨hlen, hall, hfresh⟩
      · cases hlen
      · rcases List.forall_mem_cons.1 hall with ⟨hx, hxs⟩
        rcases nodup_cons_iff.1 hfresh with ⟨hnew, hfresh⟩
        exact ⟨(x, xs), ⟨hx, hnew, by simpa using hlen, hxs, hfresh⟩, rfl, rfl⟩
    · rintro ⟨x, xs⟩ ⟨hx, hnew, hlen, hxs, hfresh⟩
      exact ⟨x :: xs, ⟨by simpa using hlen, List.forall_mem_cons.2 ⟨hx, hxs⟩,
        nodup_cons_iff.2 ⟨hnew, hfresh⟩⟩, rfl, rfl⟩

/-! ## Lists behind their length -/

section Counted

variable {number : Reader Nat} {fits : Nat → Prop} {bytes : Nat → List UInt8}
  (hn : number.Accepts fits bytes fun n => n)
include hn

theorem Accepts.counted_repeated (hr : r.Accepts allowed write value) (hc : r.Consuming)
    (g : List α → β) :
    Accepts (do
        let n ← number
        ensure n
        return g (← Reader.repeated r n))
      (fun xs : List ι => fits xs.length ∧ ∀ x ∈ xs, allowed x)
      (fun xs => bytes xs.length ++ xs.flatMap write) fun xs => g (xs.map value) := by
  refine hn.counted fun n => ?_
  rw [← bind_assoc]
  exact (hr.ensure_repeated hc n).map g

theorem Accepts.counted_distinct [DecidableEq κ] {r : Reader (κ × α)} {value : ι → κ × α}
    (hr : r.Accepts allowed write value) (p : Problem) (g : List (κ × α) → β) :
    Accepts (do
        let n ← number
        return g (← Reader.distinct p r n []))
      (fun xs : List ι => fits xs.length ∧ (∀ x ∈ xs, allowed x) ∧
        (xs.map fun x => (value x).1).Nodup)
      (fun xs => bytes xs.length ++ xs.flatMap write) fun xs => g (xs.map value) := by
  refine hn.counted fun n => ?_
  have h := (hr.distinct p n []).map g
  simpa using h

end Counted

end SamplingProfile.Reader
