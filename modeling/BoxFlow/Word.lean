/-!
# 64-bit words

The signed 64-bit integer that an unbounded one is reduced to.
-/

namespace BoxFlow

/-- The integer in `[-2 ^ 63, 2 ^ 63)` that is congruent to `n` modulo `2 ^ 64`. -/
def wrap64 (n : Int) : Int := n.bmod 0x10000000000000000

theorem wrap64_emod (n : Int) : wrap64 n % 0x10000000000000000 = n % 0x10000000000000000 := by
  rw [wrap64, Int.bmod_def]
  split <;> omega

theorem neg_le_wrap64 (n : Int) : -0x8000000000000000 ≤ wrap64 n := by
  have := @Int.le_bmod n 0x10000000000000000 (by decide)
  simp only [wrap64]
  omega

theorem wrap64_lt (n : Int) : wrap64 n < 0x8000000000000000 := by
  have := @Int.bmod_lt n 0x10000000000000000 (by decide)
  simp only [wrap64]
  omega

end BoxFlow
