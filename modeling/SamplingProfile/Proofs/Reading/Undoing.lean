-- Readers that undo writers. A reader gives back what was written, whatever follows, or it
-- refuses what was written for a known problem. Both are kept when readers and writers are put
-- one behind the other in the same order. Lengths are written in 64 bits, so this is said of
-- outputs whose own length fits in 64 bits; then the lengths of their parts fit as well. Where
-- the numbers that are written are known to fit, no limit of the output is needed.
import Mathlib.Algebra.Ring.Nat
import SamplingProfile.Writing.Output
import SamplingProfile.Proofs.Reading.Delimited

namespace SamplingProfile

namespace Output

/-- Two outputs behind each other are free of errors when both are. -/
theorem append_eq_bytes {a b : Output} {bytes : List UInt8} (h : a ++ b = ⟨bytes, none⟩) :
    ∃ front back, a = ⟨front, none⟩ ∧ b = ⟨back, none⟩ ∧ bytes = front ++ back := by
  obtain ⟨front, error?⟩ := a
  obtain ⟨back, error?'⟩ := b
  cases error? with
  | some e => cases h
  | none =>
    cases error?' with
    | some e => cases h
    | none =>
      cases h
      exact ⟨front, back, rfl, rfl, rfl⟩

/-- An output that is free of errors has `n` bytes or more. -/
def AtLeast (n : Nat) (o : Output) : Prop := ∀ bytes, o = ⟨bytes, none⟩ → n ≤ bytes.length

theorem AtLeast.append {a b : Output} {m n : Nat} (ha : a.AtLeast m) (hb : b.AtLeast n) :
    (a ++ b).AtLeast (m + n) := by
  intro bytes h
  obtain ⟨front, back, hfront, hback, rfl⟩ := append_eq_bytes h
  have := ha front hfront
  have := hb back hback
  rw [List.length_append]
  omega

theorem atLeast_zero (o : Output) : o.AtLeast 0 := fun _ _ => Nat.zero_le _

theorem AtLeast.append_left {a : Output} {n : Nat} (ha : a.AtLeast n) (b : Output) :
    (a ++ b).AtLeast n := ha.append (atLeast_zero b)

theorem AtLeast.append_right {b : Output} {n : Nat} (hb : b.AtLeast n) (a : Output) :
    (a ++ b).AtLeast n := by
  have h := (atLeast_zero a).append hb
  rwa [Nat.zero_add] at h

/-- One of several outputs behind each other gives its length to all of them. -/
theorem AtLeast.concat {o : Output} {n : Nat} (h : o.AtLeast n) {outputs : List Output}
    (ho : o ∈ outputs) : (Output.concat outputs).AtLeast n := by
  induction outputs with
  | nil => cases ho
  | cons first outputs ih =>
    rw [concat_cons]
    rcases List.mem_cons.1 ho with rfl | ho
    · exact h.append_left _
    · exact (ih ho).append_right _

theorem atLeast_concat {ι : Type} {write : ι → Output} {size : ι → Nat} {xs : List ι}
    (hw : ∀ x ∈ xs, (write x).AtLeast (size x)) :
    (concat (xs.map write)).AtLeast (xs.map size).sum := by
  induction xs with
  | nil => exact atLeast_zero _
  | cons x xs ih =>
    rw [List.map_cons, List.map_cons, concat_cons, List.sum_cons]
    exact (hw x List.mem_cons_self).append (ih fun y hy => hw y (List.mem_cons_of_mem x hy))

/-- Outputs of a byte or more each have at least as many bytes as there are outputs. -/
theorem atLeast_length_of_concat {ι : Type} {write : ι → Output} {xs : List ι}
    (hw : ∀ x ∈ xs, (write x).AtLeast 1) : (concat (xs.map write)).AtLeast xs.length := by
  have h := atLeast_concat hw
  rwa [List.map_const', List.sum_replicate_nat, Nat.mul_one] at h

theorem toExcept_eq_ok {o : Output} {bytes : List UInt8} (h : o.toExcept = .ok bytes) :
    o = ⟨bytes, none⟩ := by
  obtain ⟨written, error?⟩ := o
  cases error? with
  | some e => cases h
  | none =>
    cases h
    rfl

theorem toExcept_of_error? {o : Output} (h : o.error? = none) : o.toExcept = .ok o.bytes := by
  unfold toExcept
  rw [h]

end Output

namespace Reader

variable {α β κ ι : Type}

/-- From what was written the reader gives `a` back, whatever follows. -/
def Undoes (r : Reader α) (o : Output) (a : α) : Prop :=
  ∀ bytes, o = ⟨bytes, none⟩ → bytes.length < UInt64.size → ∀ start, r.TakesAt start bytes a

/-- What was written the reader refuses for a problem, whatever follows. -/
def Refuses (r : Reader α) (o : Output) (p : Problem) : Prop :=
  ∀ bytes, o = ⟨bytes, none⟩ → bytes.length < UInt64.size →
    ∀ start back, ∃ e, r ⟨start, bytes ++ back⟩ = .error e ∧ e.problem = p

/-! ## Without a limit -/

/-- From what was written, however long it is, the reader gives `a` back, whatever follows. -/
def Restores (r : Reader α) (o : Output) (a : α) : Prop :=
  ∀ bytes, o = ⟨bytes, none⟩ → ∀ start, r.TakesAt start bytes a

theorem Restores.undoes {r : Reader α} {o : Output} {a : α} (h : r.Restores o a) : r.Undoes o a :=
  fun bytes hb _ => h bytes hb

theorem restores_of_takesAt {r : Reader α} {written : List UInt8} {a : α}
    (h : ∀ start, r.TakesAt start written a) : r.Restores ⟨written, none⟩ a := by
  intro bytes hb start
  cases hb
  exact h start

theorem restores_pure (a : α) : Restores (pure a) .empty a :=
  restores_of_takesAt fun start => takesAt_pure start a

theorem Restores.bind {r : Reader α} {f : α → Reader β} {o o' : Output} {a : α} {b : β}
    (hr : r.Restores o a) (hf : (f a).Restores o' b) : (r >>= f).Restores (o ++ o') b := by
  intro bytes h start
  obtain ⟨front, back, hfront, hback, rfl⟩ := Output.append_eq_bytes h
  exact (hr front hfront start).bind (hf back hback (start + front.length))

theorem Restores.bind_pure {r : Reader α} {f : α → Reader β} {o : Output} {a : α} {b : β}
    (hr : r.Restores o a) (hf : f a = pure b) : (r >>= f).Restores o b := by
  have hlast : (f a).Restores .empty b := by
    rw [hf]
    exact restores_pure b
  have h := hr.bind hlast
  rwa [Output.append_empty] at h

theorem Restores.get_bind {f : Span → Reader α} {o : Output} {a : α}
    (hf : ∀ span, (f span).Restores o a) : (get >>= f).Restores o a := by
  intro bytes h start back
  rw [bind_of_ok (run_get _), hf _ bytes h start back]

theorem Restores.within {r : Reader α} {o : Output} {a : α} (part : Part) (hr : r.Restores o a) :
    (Reader.within part r).Restores o a :=
  fun bytes h start back => within_eq_ok.2 (hr bytes h start back)

theorem restores_littleEndian {width n : Nat} (h : n < LittleEndian.values width) :
    (littleEndian width).Restores ⟨LittleEndian.encode width n, none⟩ n := by
  refine restores_of_takesAt fun start back => ?_
  rw [littleEndian_append, Nat.mod_eq_of_lt h, LittleEndian.length_encode]

theorem restores_leb128 {n : Nat} (h : n < UInt64.size) :
    leb128.Restores ⟨Leb128.encode n, none⟩ n := by
  refine restores_of_takesAt fun start back => ?_
  rw [leb128_of_ok (Leb128.decode_encode h back), Span.drop, List.drop_left]

theorem restores_text (s : String) :
    (text (encodeText s).length).Restores ⟨encodeText s, none⟩ s :=
  restores_of_takesAt fun start back => text_append start s back

theorem restores_repeated {r : Reader α} {write : ι → Output} {value : ι → α} {xs : List ι}
    (hr : ∀ x ∈ xs, r.Restores (write x) (value x)) :
    (repeated r xs.length).Restores (.concat (xs.map write)) (xs.map value) := by
  induction xs with
  | nil => exact restores_pure []
  | cons x xs ih =>
    refine (hr x List.mem_cons_self).bind ?_
    exact (ih fun y hy => hr y (List.mem_cons_of_mem x hy)).bind_pure rfl

/-- The number of entries is there before them, for each of them has a byte or more. -/
theorem ensure_of_written {write : ι → Output} {xs : List ι}
    (hw : ∀ x ∈ xs, (write x).AtLeast 1) {bytes : List UInt8}
    (h : Output.concat (xs.map write) = ⟨bytes, none⟩) (start : Nat) (back : List UInt8) :
    ensure xs.length ⟨start, bytes ++ back⟩ = .ok ((), ⟨start, bytes ++ back⟩) := by
  have hle := Output.atLeast_length_of_concat hw bytes h
  apply ensure_of_le
  rw [List.length_append]
  omega

theorem restores_ensure_repeated {r : Reader α} {write : ι → Output} {value : ι → α} {xs : List ι}
    (hw : ∀ x ∈ xs, (write x).AtLeast 1) (hr : ∀ x ∈ xs, r.Restores (write x) (value x)) :
    (do ensure xs.length; repeated r xs.length : Reader (List α)).Restores
      (.concat (xs.map write)) (xs.map value) := by
  intro bytes h start back
  rw [bind_of_ok (ensure_of_written hw h start back)]
  exact restores_repeated hr bytes h start back

/-! ## One behind the other -/

theorem undoes_pure (a : α) : Undoes (pure a) .empty a := (restores_pure a).undoes

/-- What is read first may be a length, which fits in 64 bits because of what follows it. -/
theorem Undoes.bind_of_rest {r : Reader α} {f : α → Reader β} {o o' : Output} {a : α} {b : β}
    (hr : ∀ rest, o' = ⟨rest, none⟩ → rest.length < UInt64.size → r.Undoes o a)
    (hf : (f a).Undoes o' b) : (r >>= f).Undoes (o ++ o') b := by
  intro bytes h hlt start
  obtain ⟨front, back, hfront, hback, rfl⟩ := Output.append_eq_bytes h
  rw [List.length_append] at hlt
  have hr' := hr back hback (by omega) front hfront (by omega) start
  exact hr'.bind (hf back hback (by omega) (start + front.length))

theorem Undoes.bind {r : Reader α} {f : α → Reader β} {o o' : Output} {a : α} {b : β}
    (hr : r.Undoes o a) (hf : (f a).Undoes o' b) : (r >>= f).Undoes (o ++ o') b :=
  Undoes.bind_of_rest (fun _ _ _ => hr) hf

/-- The last reader of several, with nothing written for the value that is put together. -/
theorem Undoes.bind_pure {r : Reader α} {f : α → Reader β} {o : Output} {a : α} {b : β}
    (hr : r.Undoes o a) (hf : f a = pure b) : (r >>= f).Undoes o b := by
  have hlast : (f a).Undoes .empty b := by
    rw [hf]
    exact undoes_pure b
  have h := hr.bind hlast
  rwa [Output.append_empty] at h

theorem Refuses.bind_left {r : Reader α} {f : α → Reader β} {o : Output} {p : Problem}
    (hr : r.Refuses o p) (o' : Output) : (r >>= f).Refuses (o ++ o') p := by
  intro bytes h hlt start back
  obtain ⟨front, rest, hfront, -, rfl⟩ := Output.append_eq_bytes h
  rw [List.length_append] at hlt
  obtain ⟨e, he, hp⟩ := hr front hfront (by omega) start (rest ++ back)
  exact ⟨e, by rw [List.append_assoc]; exact error_bind he, hp⟩

theorem Refuses.bind_right_of_rest {r : Reader α} {f : α → Reader β} {o o' : Output} {a : α}
    {p : Problem} (hr : ∀ rest, o' = ⟨rest, none⟩ → rest.length < UInt64.size → r.Undoes o a)
    (hf : (f a).Refuses o' p) : (r >>= f).Refuses (o ++ o') p := by
  intro bytes h hlt start back
  obtain ⟨front, rest, hfront, hrest, rfl⟩ := Output.append_eq_bytes h
  rw [List.length_append] at hlt
  have hr' := hr rest hrest (by omega) front hfront (by omega) start
  obtain ⟨e, he, hp⟩ := hf rest hrest (by omega) (start + front.length) back
  exact ⟨e, by rw [List.append_assoc, bind_of_ok (hr' (rest ++ back)), he], hp⟩

/-- The last reader of several, with nothing written behind it. -/
theorem Refuses.bind_last {r : Reader α} {o : Output} {p : Problem} (hr : r.Refuses o p)
    (f : α → Reader β) : (r >>= f).Refuses o p := by
  have h : (r >>= f).Refuses (o ++ .empty) p := hr.bind_left .empty
  rwa [Output.append_empty] at h

theorem Refuses.bind_right {r : Reader α} {f : α → Reader β} {o o' : Output} {a : α}
    {p : Problem} (hr : r.Undoes o a) (hf : (f a).Refuses o' p) :
    (r >>= f).Refuses (o ++ o') p :=
  Refuses.bind_right_of_rest (fun _ _ _ => hr) hf

/-- Where a reader began it may remember. -/
theorem Undoes.get_bind {f : Span → Reader α} {o : Output} {a : α}
    (hf : ∀ span, (f span).Undoes o a) : (get >>= f).Undoes o a := by
  intro bytes h hlt start back
  rw [bind_of_ok (run_get _), hf _ bytes h hlt start back]

theorem Refuses.get_bind {f : Span → Reader α} {o : Output} {p : Problem}
    (hf : ∀ span, (f span).Refuses o p) : (get >>= f).Refuses o p := by
  intro bytes h hlt start back
  rw [bind_of_ok (run_get _)]
  exact hf _ bytes h hlt start back

theorem Undoes.within {r : Reader α} {o : Output} {a : α} (part : Part) (hr : r.Undoes o a) :
    (Reader.within part r).Undoes o a := by
  intro bytes h hlt start back
  rw [Reader.within, hr bytes h hlt start back]

theorem Refuses.within {r : Reader α} {o : Output} {p : Problem} (part : Part)
    (hr : r.Refuses o p) : (Reader.within part r).Refuses o p := by
  intro bytes h hlt start back
  obtain ⟨e, he, hp⟩ := hr bytes h hlt start back
  exact ⟨e.within part start, by rw [Reader.within, he], hp⟩

theorem refuses_failAt (span : Span) (p : Problem) (o : Output) :
    (failAt span p : Reader α).Refuses o p :=
  fun _ _ _ _ _ => ⟨_, rfl, rfl⟩

/-! ## Numbers and texts -/

theorem undoes_littleEndian {width n : Nat} (h : n < LittleEndian.values width) :
    (littleEndian width).Undoes ⟨LittleEndian.encode width n, none⟩ n :=
  (restores_littleEndian h).undoes

theorem undoes_text (s : String) :
    (text (encodeText s).length).Undoes ⟨encodeText s, none⟩ s := (restores_text s).undoes

/-! ## Repetitions -/

theorem undoes_repeated {r : Reader α} {write : ι → Output} {value : ι → α} {xs : List ι}
    (hr : ∀ x ∈ xs, r.Undoes (write x) (value x)) :
    (repeated r xs.length).Undoes (.concat (xs.map write)) (xs.map value) := by
  induction xs with
  | nil => exact undoes_pure []
  | cons x xs ih =>
    refine (hr x List.mem_cons_self).bind ?_
    exact (ih fun y hy => hr y (List.mem_cons_of_mem x hy)).bind_pure rfl

theorem undoes_ensure_repeated {r : Reader α} {write : ι → Output} {value : ι → α} {xs : List ι}
    (hw : ∀ x ∈ xs, (write x).AtLeast 1) (hr : ∀ x ∈ xs, r.Undoes (write x) (value x)) :
    (do ensure xs.length; repeated r xs.length : Reader (List α)).Undoes
      (.concat (xs.map write)) (xs.map value) := by
  intro bytes h hlt start back
  rw [bind_of_ok (ensure_of_written hw h start back)]
  exact undoes_repeated hr bytes h hlt start back

/-! ## Entries under different keys -/

section Distinct

variable [DecidableEq κ] {r : Reader (κ × β)} {p q : Problem}

theorem Undoes.distinct_cons {o o' : Output} {e : κ × β} {rest : List (κ × β)} {n : Nat}
    {met : List κ} (hr : r.Undoes o e) (he : e.1 ∉ met)
    (hrest : (distinct p r n (e.1 :: met)).Undoes o' rest) :
    (distinct p r (n + 1) met).Undoes (o ++ o') (e :: rest) := by
  refine Undoes.get_bind fun span => hr.bind ?_
  rw [if_neg he]
  exact hrest.bind_pure rfl

theorem Refuses.distinct_head {o : Output} (hr : r.Refuses o q) (n : Nat) (met : List κ)
    (o' : Output) : (distinct p r (n + 1) met).Refuses (o ++ o') q :=
  Refuses.get_bind fun _ => hr.bind_left o'

theorem Refuses.distinct_tail {o o' : Output} {e : κ × β} {n : Nat} {met : List κ}
    (hr : r.Undoes o e) (he : e.1 ∉ met) (hrest : (distinct p r n (e.1 :: met)).Refuses o' q) :
    (distinct p r (n + 1) met).Refuses (o ++ o') q := by
  refine Refuses.get_bind fun span => Refuses.bind_right hr ?_
  rw [if_neg he]
  exact hrest.bind_last fun rest => pure (e :: rest)

/-- A key that was met before is refused, whatever is written behind it. -/
theorem Undoes.refuses_distinct {o : Output} {e : κ × β} {met : List κ} (hr : r.Undoes o e)
    (he : e.1 ∈ met) (n : Nat) (o' : Output) :
    (distinct p r (n + 1) met).Refuses (o ++ o') p := by
  refine Refuses.get_bind fun span => Refuses.bind_right hr ?_
  rw [if_pos he]
  exact (refuses_failAt span p o').bind_last _

variable {write : ι → Output} {entry : ι → κ × β} {xs : List ι} {met : List κ}

theorem undoes_distinct (hr : ∀ x ∈ xs, r.Undoes (write x) (entry x))
    (hxs : (xs.map fun x => (entry x).1).Nodup) (hmet : ∀ x ∈ xs, (entry x).1 ∉ met) :
    (distinct p r xs.length met).Undoes (.concat (xs.map write)) (xs.map entry) := by
  induction xs generalizing met with
  | nil => exact undoes_pure []
  | cons x xs ih =>
    obtain ⟨hx, hnodup, hfresh⟩ := nodup_cons_iff.1 ⟨hxs, hmet⟩
    rw [List.forall_mem_cons] at hr
    exact hr.1.distinct_cons hx (ih hr.2 hnodup hfresh)

/-- One entry that is refused is enough, wherever it stands among entries under other keys. -/
theorem refuses_distinct (hr : ∀ x ∈ xs, r.Undoes (write x) (entry x) ∨ r.Refuses (write x) q)
    (hxs : (xs.map fun x => (entry x).1).Nodup) (hmet : ∀ x ∈ xs, (entry x).1 ∉ met)
    (hex : ∃ x ∈ xs, r.Refuses (write x) q) :
    (distinct p r xs.length met).Refuses (.concat (xs.map write)) q := by
  induction xs generalizing met with
  | nil =>
    obtain ⟨x, hx, -⟩ := hex
    cases hx
  | cons x xs ih =>
    by_cases hbad : r.Refuses (write x) q
    · exact hbad.distinct_head xs.length met _
    · have hgood : r.Undoes (write x) (entry x) :=
        (hr x List.mem_cons_self).resolve_right hbad
      have hrest : ∃ y ∈ xs, r.Refuses (write y) q := by
        obtain ⟨y, hy, hy'⟩ := hex
        rcases List.mem_cons.1 hy with rfl | hy
        · exact absurd hy' hbad
        · exact ⟨y, hy, hy'⟩
      obtain ⟨hx, hnodup, hfresh⟩ := nodup_cons_iff.1 ⟨hxs, hmet⟩
      exact Refuses.distinct_tail hgood hx
        (ih (fun y hy => hr y (List.mem_cons_of_mem x hy)) hnodup hfresh hrest)

end Distinct

end Reader

end SamplingProfile
