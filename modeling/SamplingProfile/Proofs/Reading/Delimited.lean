-- Readers that find the end of what they read by themselves. Such a reader takes the same
-- bytes whatever follows them, and on any fewer of them it runs out: it stops because the
-- bytes end, and for no other reason. Readers keep this when they are put one behind the other.
import SamplingProfile.NameList
import SamplingProfile.Proofs.Bytes.Leb128

namespace SamplingProfile

/-- Reading stopped because the bytes ended. -/
def ParseError.IsCutOff (e : ParseError) : Prop := e.problem.kind = "Eof"

namespace Reader

variable {α β κ : Type}

/-- At `start` the reader takes exactly the bytes `used` as `a`, whatever follows them. -/
def TakesAt (r : Reader α) (start : Nat) (used : List UInt8) (a : α) : Prop :=
  ∀ back, r ⟨start, used ++ back⟩ = .ok (a, ⟨start + used.length, back⟩)

/-- At `start` the reader runs out when some of the last bytes of `used` are missing. -/
def RunsOutAt (r : Reader α) (start : Nat) (used : List UInt8) : Prop :=
  ∀ front missing, used = front ++ missing → missing ≠ [] →
    ∃ e, r ⟨start, front⟩ = .error e ∧ e.IsCutOff

/-- What the reader takes says itself where it ends. -/
def Delimited (r : Reader α) : Prop :=
  ∀ span a rest, r span = .ok (a, rest) →
    ∃ used, span.bytes = used ++ rest.bytes ∧ r.TakesAt span.start used a ∧
      r.RunsOutAt span.start used

/-- The reader takes a byte or more. -/
def Consuming (r : Reader α) : Prop :=
  ∀ span a rest, r span = .ok (a, rest) → rest.bytes.length < span.bytes.length

/-! ## One reader behind the other -/

theorem error_bind {r : Reader α} {f : α → Reader β} {span : Span} {e : ParseError}
    (h : r span = .error e) : (r >>= f) span = .error e := by
  rw [run_bind, h]
  rfl

theorem TakesAt.rest_eq {r : Reader α} {start : Nat} {used : List UInt8} {a b : α}
    {bytes : List UInt8} {rest : Span} (h : r.TakesAt start used a)
    (hr : r ⟨start, used ++ bytes⟩ = .ok (b, rest)) : rest = ⟨start + used.length, bytes⟩ := by
  rw [h bytes] at hr
  simp only [Except.ok.injEq, Prod.mk.injEq] at hr
  exact hr.2.symm

theorem takesAt_pure (start : Nat) (a : α) : TakesAt (pure a) start [] a := fun _ => rfl

theorem TakesAt.bind {r : Reader α} {f : α → Reader β} {start : Nat} {u v : List UInt8} {a : α}
    {b : β} (hr : r.TakesAt start u a) (hf : (f a).TakesAt (start + u.length) v b) :
    (r >>= f).TakesAt start (u ++ v) b := by
  intro back
  rw [List.append_assoc, bind_of_ok (hr (v ++ back)), hf back, List.length_append,
    Nat.add_assoc]

theorem RunsOutAt.bind {r : Reader α} {f : α → Reader β} {start : Nat} {u v : List UInt8} {a : α}
    (hr : r.TakesAt start u a) (ho : r.RunsOutAt start u)
    (hf : (f a).RunsOutAt (start + u.length) v) : (r >>= f).RunsOutAt start (u ++ v) := by
  intro front missing hs hm
  rcases List.append_eq_append_iff.1 hs with ⟨inner, rfl, hv⟩ | ⟨inner, hu, rfl⟩
  · obtain ⟨e, he, hcut⟩ := hf inner missing hv hm
    exact ⟨e, by rw [bind_of_ok (hr inner), he], hcut⟩
  · by_cases hi : inner = []
    · subst hi
      rw [List.append_nil] at hu
      subst hu
      obtain ⟨e, he, hcut⟩ := hf [] v rfl hm
      have hnil := hr []
      rw [List.append_nil] at hnil
      exact ⟨e, by rw [bind_of_ok hnil, he], hcut⟩
    · obtain ⟨e, he, hcut⟩ := ho front inner hu hi
      exact ⟨e, error_bind he, hcut⟩

theorem delimited_pure (a : α) : Delimited (pure a) := by
  intro span b rest h
  simp only [run_pure, Except.ok.injEq, Prod.mk.injEq] at h
  obtain ⟨rfl, rfl⟩ := h
  refine ⟨[], rfl, takesAt_pure _ _, fun front missing hs hm => ?_⟩
  exact absurd (List.append_eq_nil_iff.1 hs.symm).2 hm

theorem Delimited.bind {r : Reader α} {f : α → Reader β} (hr : r.Delimited)
    (hf : ∀ a, (f a).Delimited) : (r >>= f).Delimited := by
  intro span b rest h
  obtain ⟨a, middle, ha, hb⟩ := bind_eq_ok.1 h
  obtain ⟨u, hu, htake, hout⟩ := hr span a middle ha
  obtain ⟨v, hv, htake', hout'⟩ := hf a middle b rest hb
  have hm : middle.start = span.start + u.length := by
    have hrun : r ⟨span.start, u ++ middle.bytes⟩ = .ok (a, middle) := by rw [← hu]; exact ha
    rw [htake.rest_eq hrun]
  rw [hm] at htake' hout'
  exact ⟨u ++ v, by rw [hu, hv, List.append_assoc], htake.bind htake', hout.bind htake hout'⟩

/-- A reader that never succeeds takes nothing. -/
theorem delimited_of_error {r : Reader α} (h : ∀ span, ∃ e, r span = .error e) :
    r.Delimited := by
  intro span a rest hr
  obtain ⟨e, he⟩ := h span
  rw [he] at hr
  cases hr

theorem delimited_failAt (span : Span) (p : Problem) : Delimited (failAt span p : Reader α) :=
  delimited_of_error fun _ => ⟨_, rfl⟩

theorem delimited_throw (e : ParseError) : Delimited (throw e : Reader α) :=
  delimited_of_error fun _ => ⟨e, rfl⟩

theorem delimited_fail (p : Problem) : Delimited (fail p : Reader α) :=
  delimited_of_error fun span => ⟨{ problem := p, offset := span.start }, rfl⟩

/-- A reader may remember where it began, and nothing else of the bytes that it had then. -/
theorem delimited_get_bind {f : Span → Reader α} (hf : ∀ span, (f span).Delimited)
    (hs : ∀ span span' : Span, span.start = span'.start → f span = f span') :
    Delimited (get >>= f) := by
  intro span a rest h
  rw [bind_of_ok (run_get span)] at h
  obtain ⟨used, hu, htake, hout⟩ := hf span span a rest h
  refine ⟨used, hu, fun back => ?_, fun front missing hsplit hm => ?_⟩
  · rw [bind_of_ok (run_get _), hs ⟨span.start, used ++ back⟩ span rfl, htake back]
  · obtain ⟨e, he, hcut⟩ := hout front missing hsplit hm
    exact ⟨e, by rw [bind_of_ok (run_get _), hs ⟨span.start, front⟩ span rfl, he], hcut⟩

/-- The name of a part stands in errors only. -/
theorem within_eq_ok {r : Reader α} {part : Part} {span : Span} {result : α × Span} :
    within part r span = .ok result ↔ r span = .ok result := by
  unfold within
  cases r span with
  | ok _ => rfl
  | error _ => simp

theorem delimited_within {r : Reader α} (part : Part) (hr : r.Delimited) :
    (within part r).Delimited := by
  intro span a rest h
  obtain ⟨used, hu, htake, hout⟩ := hr span a rest (within_eq_ok.1 h)
  refine ⟨used, hu, fun back => ?_, fun front missing hs hm => ?_⟩
  · exact within_eq_ok.2 (htake back)
  · obtain ⟨e, he, hcut⟩ := hout front missing hs hm
    exact ⟨e.within part span.start, by rw [Reader.within, he], hcut⟩

/-! ## Bytes and numbers -/

/-- Bytes that are looked for are left there. -/
theorem ensure_eq_ok {n : Nat} {span middle : Span} {u : Unit} :
    ensure n span = .ok (u, middle) ↔ n ≤ span.bytes.length ∧ middle = span := by
  rcases Nat.lt_or_ge span.bytes.length n with hlt | hge
  · simp [ensure_of_lt hlt, Nat.not_le_of_lt hlt]
  · simp [ensure_of_le hge, hge, eq_comm]

/-- Some number of bytes, all of them there. -/
theorem delimited_ensure_take (n : Nat) :
    Delimited (do ensure n; take n : Reader (List UInt8)) := by
  intro span a rest h
  obtain ⟨_, middle, he, ht⟩ := bind_eq_ok.1 h
  obtain ⟨hle, rfl⟩ := ensure_eq_ok.1 he
  simp only [take, Except.ok.injEq, Prod.mk.injEq] at ht
  obtain ⟨rfl, rfl⟩ := ht
  have hlen : (middle.bytes.take n).length = n := by
    rw [List.length_take]
    omega
  refine ⟨middle.bytes.take n, (List.take_append_drop n middle.bytes).symm, fun back => ?_,
    fun front missing hs hm => ?_⟩
  · have htake := take_append middle.start (middle.bytes.take n) back
    rw [hlen] at htake
    rw [bind_of_ok (ensure_of_le (by simp [hlen])), htake, hlen]
  · have hlt : front.length < n := by
      have := congrArg List.length hs
      have := List.length_pos_iff.2 hm
      rw [List.length_append] at *
      omega
    exact ⟨_, error_bind (ensure_of_lt hlt), rfl⟩

theorem delimited_littleEndian (width : Nat) : Delimited (littleEndian width) := by
  intro span a rest h
  have hle : width ≤ span.bytes.length := by
    rcases Nat.lt_or_ge span.bytes.length width with hlt | hge
    · rw [littleEndian, bind_of_ok (run_get _),
        if_neg fun hn => Nat.not_le_of_lt hlt (Span.holds_iff.1 hn)] at h
      cases h
    · exact hge
  have hlen : (span.bytes.take width).length = width := by
    rw [List.length_take]
    omega
  have hall : ∀ back, littleEndian width ⟨span.start, span.bytes.take width ++ back⟩
      = .ok (LittleEndian.decode (span.bytes.take width), ⟨span.start + width, back⟩) := by
    intro back
    have htake := take_append span.start (span.bytes.take width) back
    rw [hlen] at htake
    rw [littleEndian, bind_of_ok (run_get _), if_pos (Span.holds_iff.2 (by simp [hlen]))]
    exact bind_of_ok htake
  have hspan := hall (span.bytes.drop width)
  rw [List.take_append_drop, h] at hspan
  cases hspan
  refine ⟨span.bytes.take width, (List.take_append_drop width span.bytes).symm,
    fun back => by rw [hall back, hlen], fun front missing hs hm => ?_⟩
  have hlt : front.length < width := by
    have := congrArg List.length hs
    have := List.length_pos_iff.2 hm
    rw [List.length_append] at *
    omega
  refine ⟨{ problem := .missingBytes, offset := span.start }, ?_, rfl⟩
  rw [littleEndian, bind_of_ok (run_get _),
    if_neg fun hn => Nat.not_le_of_lt hlt (Span.holds_iff.1 hn)]
  rfl

theorem leb128_of_ok {start n used : Nat} {bytes : List UInt8}
    (h : Leb128.decode bytes = .ok (n, used)) :
    leb128 ⟨start, bytes⟩ = .ok (n, Span.drop used ⟨start, bytes⟩) := by
  rw [leb128, h]

theorem delimited_leb128 : Delimited leb128 := by
  intro span n rest h
  cases hd : Leb128.decode span.bytes with
  | error fault =>
    rw [leb128, hd] at h
    cases fault <;> cases h
  | ok r =>
    obtain ⟨m, used⟩ := r
    rw [leb128, hd] at h
    cases h
    obtain ⟨taken, back, hb, rfl, -, hall, hcut⟩ := Leb128.decode_eq_ok hd
    refine ⟨taken, by simp [Span.drop, hb], fun back' => ?_, fun front missing hs hm => ?_⟩
    · rw [leb128_of_ok (hall back')]
      simp [Span.drop]
    · refine ⟨{ problem := .truncatedNumber, offset := span.start }, ?_, rfl⟩
      rw [leb128, hcut front missing hs hm]
      rfl

/-! ## Texts -/

theorem delimited_text (n : Nat) : Delimited (text n) := by
  refine delimited_get_bind (fun span => ?_) fun span span' h => ?_
  · rw [← bind_assoc]
    refine (delimited_ensure_take n).bind fun bytes => ?_
    split
    · exact delimited_pure _
    · exact delimited_failAt _ _
  · unfold failAt
    rw [h]

/-! ## Repetitions -/

theorem delimited_repeated {r : Reader α} (hr : r.Delimited) (n : Nat) :
    (repeated r n).Delimited := by
  induction n with
  | zero => exact delimited_pure []
  | succ n ih => exact hr.bind fun a => ih.bind fun rest => delimited_pure (a :: rest)

/-- That keys are different, and none of them was met, may be asked of one key after the other. -/
theorem nodup_cons_iff {ι : Type} {key : ι → κ} {x : ι} {xs : List ι} {met : List κ} :
    (((x :: xs).map key).Nodup ∧ ∀ y ∈ x :: xs, key y ∉ met) ↔
      key x ∉ met ∧ (xs.map key).Nodup ∧ ∀ y ∈ xs, key y ∉ key x :: met := by
  rw [List.map_cons, List.nodup_cons, List.forall_mem_cons]
  constructor
  · rintro ⟨⟨hnew, hnodup⟩, hx, hxs⟩
    refine ⟨hx, hnodup, fun y hy hin => ?_⟩
    rcases List.mem_cons.1 hin with heq | hin
    · exact hnew (heq ▸ List.mem_map_of_mem hy)
    · exact hxs y hy hin
  · rintro ⟨hx, hnodup, hxs⟩
    refine ⟨⟨fun hin => ?_, hnodup⟩, hx, fun y hy hin => hxs y hy (List.mem_cons_of_mem _ hin)⟩
    obtain ⟨y, hy, heq⟩ := List.mem_map.1 hin
    exact hxs y hy (heq ▸ List.mem_cons_self)

theorem delimited_distinct [DecidableEq κ] {r : Reader (κ × β)} (hr : r.Delimited) (p : Problem)
    (n : Nat) (met : List κ) : (distinct p r n met).Delimited := by
  induction n generalizing met with
  | zero => exact delimited_pure []
  | succ n ih =>
    refine delimited_get_bind (fun span => hr.bind fun entry => ?_) fun span span' h => ?_
    · split
      · exact (delimited_failAt _ _).bind fun _ => (ih _).bind fun _ => delimited_pure _
      · exact (ih _).bind fun _ => delimited_pure _
    · unfold failAt
      rw [h]

/-- Entries of a byte or more each fill at least as many bytes as there are entries. -/
theorem Consuming.le_of_repeated {r : Reader α} (hr : r.Consuming) {n : Nat} {span rest : Span}
    {list : List α} (h : repeated r n span = .ok (list, rest)) :
    n + rest.bytes.length ≤ span.bytes.length := by
  induction n generalizing span list with
  | zero =>
    cases h
    omega
  | succ n ih =>
    obtain ⟨a, middle, ha, h'⟩ := bind_eq_ok.1 h
    obtain ⟨as, rest', has, hret⟩ := bind_eq_ok.1 h'
    cases hret
    have := hr _ _ _ ha
    have := ih has
    omega

/-- A number of entries is looked for in the bytes that are left before the first of them is
read. Entries of a byte or more each need these bytes anyway. -/
theorem delimited_ensure_repeated {r : Reader α} (hr : r.Delimited) (hc : r.Consuming) (n : Nat) :
    Delimited (do ensure n; repeated r n) := by
  intro span a rest h
  obtain ⟨_, middle, he, hrep⟩ := bind_eq_ok.1 h
  obtain ⟨-, rfl⟩ := ensure_eq_ok.1 he
  obtain ⟨used, hu, htake, hout⟩ := delimited_repeated hr n middle a rest hrep
  have hn : n ≤ used.length := by
    have := hc.le_of_repeated hrep
    have := congrArg List.length hu
    rw [List.length_append] at this
    omega
  refine ⟨used, hu, fun back => ?_, fun front missing hs hm => ?_⟩
  · rw [bind_of_ok (ensure_of_le _), htake back]
    rw [List.length_append]
    omega
  · rcases Nat.lt_or_ge front.length n with hlt | hge
    · exact ⟨_, error_bind (ensure_of_lt hlt), rfl⟩
    · rw [bind_of_ok (ensure_of_le hge)]
      exact hout front missing hs hm

/-! ## Readers that take a byte or more -/

/-- A delimited reader never adds to the bytes. -/
theorem Delimited.length_le {r : Reader α} (hr : r.Delimited) {span rest : Span} {a : α}
    (h : r span = .ok (a, rest)) : rest.bytes.length ≤ span.bytes.length := by
  obtain ⟨used, hu, -, -⟩ := hr span a rest h
  rw [hu, List.length_append]
  omega

theorem Consuming.bind {r : Reader α} {f : α → Reader β} (hr : r.Consuming)
    (hf : ∀ a, (f a).Delimited) : (r >>= f).Consuming := by
  intro span b rest h
  obtain ⟨a, middle, ha, hb⟩ := bind_eq_ok.1 h
  have := hr _ _ _ ha
  have := (hf a).length_le hb
  omega

theorem consuming_leb128 : Consuming leb128 := by
  intro span n rest h
  cases hd : Leb128.decode span.bytes with
  | error fault =>
    rw [leb128, hd] at h
    cases fault <;> cases h
  | ok r =>
    obtain ⟨m, used⟩ := r
    rw [leb128, hd] at h
    cases h
    obtain ⟨taken, back, hb, rfl, hne, -, -⟩ := Leb128.decode_eq_ok hd
    have := List.length_pos_iff.2 hne
    simp only [Span.drop, List.length_drop, hb, List.length_append]
    omega

theorem consuming_littleEndian {width : Nat} (hw : 0 < width) : Consuming (littleEndian width) := by
  intro span n rest h
  obtain ⟨span', middle, hg, h'⟩ := bind_eq_ok.1 h
  cases hg
  split at h'
  · rename_i hh
    have hle := Span.holds_iff.1 hh
    obtain ⟨bytes, rest', ht, hret⟩ := bind_eq_ok.1 h'
    cases ht
    cases hret
    simp only [Span.drop, List.length_drop]
    omega
  · cases h'

end Reader

end SamplingProfile
