-- Counts of a sampling profile: words of 64 bits that stay at the largest word
-- where a sum or a product would pass it, so a hot place never looks cold.

namespace SamplingProfile

/-- A number of samples, of calls or of instructions. -/
abbrev Count := UInt64

/-! ## Saturating arithmetic -/

/-- The largest count. -/
def Count.limit : Nat := UInt64.size - 1

/-- The count nearest to `n`: `n` itself, or the largest count when `n` passes it. -/
def Count.clamp (n : Nat) : Count := UInt64.ofNat (min n Count.limit)

/-- The sum of two counts, held at the largest count. -/
def Count.plus (a b : Count) : Count := Count.clamp (a.toNat + b.toNat)

/-- A count taken `weight` times, held at the largest count. -/
def Count.times (a weight : Count) : Count := Count.clamp (a.toNat * weight.toNat)

/-- The sum of a list of counts, from the first to the last. -/
def Count.total (counts : List Count) : Count := counts.foldl Count.plus 0

/-- The largest of a list of counts, `0` for the empty list. -/
def Count.largest (counts : List Count) : Count := counts.foldl max 0

/-- How a new count joins the one that is already stored. -/
inductive Mode
  /-- The two are added. -/
  | sum
  /-- The larger of the two stays. -/
  | max
deriving DecidableEq, Repr, Inhabited

/-- The stored count after a new one has joined it. -/
def Mode.combine : Mode → Count → Count → Count
  | .sum, stored, new => stored.plus new
  | .max, stored, new => Max.max stored new

/-! ## The same in exact numbers -/

theorem Count.toNat_le_limit (a : Count) : a.toNat ≤ Count.limit := by
  have := a.toNat_lt
  simp only [Count.limit, UInt64.size]
  omega

@[simp] theorem Count.toNat_clamp (n : Nat) : (Count.clamp n).toNat = min n Count.limit := by
  simp only [Count.clamp, Count.limit, UInt64.size, UInt64.toNat_ofNat']
  omega

theorem Count.clamp_toNat (a : Count) : Count.clamp a.toNat = a := by
  apply UInt64.toNat_inj.1
  have := a.toNat_le_limit
  simp only [Count.toNat_clamp]
  omega

theorem Count.toNat_plus (a b : Count) :
    (a.plus b).toNat = min (a.toNat + b.toNat) Count.limit := by
  simp [Count.plus]

theorem Count.toNat_times (a w : Count) :
    (a.times w).toNat = min (a.toNat * w.toNat) Count.limit := by
  simp [Count.times]

theorem Count.toNat_max (a b : Count) : (Max.max a b).toNat = Max.max a.toNat b.toNat := by
  show (if a ≤ b then b else a).toNat = _
  split <;> rename_i h <;> rw [UInt64.le_iff_toNat_le] at h <;> omega

/-- One sample taken once is that sample. -/
@[simp] theorem Count.times_one (a : Count) : a.times 1 = a := by
  simp [Count.times, Count.clamp_toNat]

end SamplingProfile
