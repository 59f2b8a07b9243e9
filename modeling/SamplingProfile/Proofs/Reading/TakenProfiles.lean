-- Profiles that are taken into one store, one after the other, with bytes among them that are no
-- profile. What a name is bound to in the end is one function as one of the profiles has it, or the
-- function that was there from the start.
import Mathlib.Data.List.Induction
import SamplingProfile.Intake
import SamplingProfile.Proofs.Store.Entries

namespace SamplingProfile.Intake

/-- The intake after the inputs were taken in turn, be they profiles or not. -/
def takeAll (i : Intake) (inputs : List (List UInt8)) : Intake :=
  inputs.foldl (fun i bytes => (i.take bytes).1) i

/-- The profiles among the inputs. -/
def profiles (inputs : List (List UInt8)) : List Profile :=
  inputs.filterMap fun bytes => (Profile.ofBytes bytes).toOption

/-- Which of two functions a name is bound to, the old one or the new one. -/
def choose (replace : Bool) (old? new? : Option FunctionProfile) : Option FunctionProfile :=
  if replace then new?.or old? else old?.or new?

/-- The function that a name is bound to after profiles were taken, where `initial?` was bound to it
before. If functions are replaced it is that of the last profile that has one, and otherwise what
was there first stays. -/
def bound? (replace : Bool) (initial? : Option FunctionProfile) (ps : List Profile)
    (name : String) : Option FunctionProfile :=
  choose replace initial? <|
    if replace then ps.reverse.findSome? fun p => p.store.get? name
    else ps.findSome? fun p => p.store.get? name

variable (i : Intake) (inputs : List (List UInt8)) (bytes : List UInt8) (name : String)

theorem takeAll_concat :
    i.takeAll (inputs ++ [bytes]) = ((i.takeAll inputs).take bytes).1 := by
  unfold takeAll
  rw [List.foldl_append, List.foldl_cons, List.foldl_nil]

theorem profiles_concat :
    profiles (inputs ++ [bytes]) = profiles inputs ++ (Profile.ofBytes bytes).toOption.toList := by
  unfold profiles
  rw [List.filterMap_append]
  cases h : Profile.ofBytes bytes <;> simp [h, Except.toOption]

theorem bound?_concat (replace : Bool) (initial? : Option FunctionProfile) (ps : List Profile)
    (p : Profile) : bound? replace initial? (ps ++ [p]) name
      = choose replace (bound? replace initial? ps name) (p.store.get? name) := by
  cases replace with
  | true => cases h : p.store.get? name <;> simp [bound?, choose, h]
  | false => simp [bound?, choose, List.findSome?_append, Option.or_assoc]

/-! ## One profile -/

/-- One function is taken under its own name, and nothing else changes. -/
theorem get?_takeFunction (replace : Bool) (s : Store) (f : FunctionProfile) :
    (takeFunction replace s f).get? name =
      if name = f.name then choose replace (s.get? name) (some f) else s.get? name := by
  have hcontains : s.contains f.name = (s.get? f.name).isSome := rfl
  unfold takeFunction choose
  rw [hcontains]
  by_cases hname : name = f.name
  · subst hname
    cases replace with
    | true => simp [Store.get?_insert]
    | false => cases hget : s.get? f.name <;> simp [Store.get?_insert, hget]
  · rw [if_neg hname]
    split
    · rfl
    · rw [Store.get?_insert, if_neg hname]

/-- The functions of a profile are under different names, so no two of them meet. -/
theorem get?_takeFunctions (replace : Bool) (s : Store) (p : Profile) :
    (p.store.toList.foldl (takeFunction replace) s).get? name
      = choose replace (s.get? name) (p.store.get? name) := by
  have hput : ∀ (s : Store) (f : FunctionProfile) (name : String),
      (takeFunction replace s f).get? name =
        if name = f.name then choose replace (s.get? name) (some f) else s.get? name :=
    fun s f name => get?_takeFunction name replace s f
  cases hget : p.store.get? name with
  | some f =>
    obtain rfl := Store.name_of_get? hget
    exact get_foldl_of_mem (fun old? f => choose replace old? (some f)) hput s p.store.nodup_toList
      (Store.mem_toList_iff.2 hget)
  | none =>
    have hnot : name ∉ p.store.toList.map (·.name) := by
      intro hmem
      obtain ⟨f, hf, rfl⟩ := List.mem_map.1 hmem
      rw [Store.mem_toList_iff.1 hf] at hget
      cases hget
    rw [get_foldl_of_notMem (fun old? f => choose replace old? (some f)) hput s hnot]
    cases replace <;> simp [choose]

/-! ## A run -/

@[simp] theorem replace_take : (i.take bytes).1.replace = i.replace := by
  unfold take
  cases Profile.ofBytes bytes <;> rfl

@[simp] theorem replace_takeAll : (i.takeAll inputs).replace = i.replace := by
  induction inputs using List.reverseRecOn with
  | nil => rfl
  | append_singleton inputs bytes ih => rw [takeAll_concat, replace_take, ih]

theorem get?_takeAll : (i.takeAll inputs).store.get? name
    = bound? i.replace (i.store.get? name) (profiles inputs) name := by
  induction inputs using List.reverseRecOn with
  | nil => cases h : i.replace <;> simp [bound?, choose, profiles, takeAll]
  | append_singleton inputs bytes ih =>
    rw [takeAll_concat, profiles_concat]
    unfold take
    cases Profile.ofBytes bytes with
    | error e => simpa [Except.toOption] using ih
    | ok p =>
      have hlast := bound?_concat name i.replace (i.store.get? name) (profiles inputs) p
      simp only [Except.toOption, Option.toList_some, hlast, ← ih, ← get?_takeFunctions,
        replace_takeAll]

/-- At any point of a run, bytes that are no profile give their error, leave the store as it was and
take away what the last profile said; a profile leaves what it says, whatever was there. And at any
point each name is bound to what `bound?` tells, and no other name is bound. -/
theorem run_of_takes (store : Store) (replace : Bool) (inputs : List (List UInt8)) :
    let i := (ofStore store replace).takeAll inputs
    (∀ bytes, match Profile.ofBytes bytes with
      | .error e => (i.take bytes).2 = .error e ∧ (i.take bytes).1.store = i.store ∧
          (i.take bytes).1.version? = none ∧ (i.take bytes).1.summary? = none
      | .ok p => (i.take bytes).2 = .ok () ∧
          (i.take bytes).1.version? = p.version? ∧ (i.take bytes).1.summary? = p.summary?) ∧
    ∀ name, i.store.get? name = bound? replace (store.get? name) (profiles inputs) name := by
  intro i
  refine ⟨fun bytes => ?_, get?_takeAll (ofStore store replace) inputs⟩
  unfold take
  cases Profile.ofBytes bytes <;> simp

end SamplingProfile.Intake
