import ChainIngest.Importer.Config
/-!
# Delays between retries

The factor of the delay stops at the largest number of 32 bits and the product at the
longest duration.  Neither shows: the ceiling is a duration itself, and where the largest
factor reaches it the delay is the exact product, up to the ceiling, for all attempts.
-/

namespace ChainIngest

namespace Duration

theorem nanos_scale (d : Duration) (factor : Nat) :
    (d.scale factor).nanos = min (d.nanos * factor) longest.nanos := rfl

theorem nanos_shorter (a b : Duration) : (a.shorter b).nanos = min a.nanos b.nanos := by
  unfold shorter
  split <;> omega

end Duration

namespace Importer.Config

/-! ## Factors -/

theorem growth_eq (doublings : Nat) : growth doublings = min (2 ^ doublings) maxFactor := by
  have hmax : maxFactor + 1 = 2 ^ 32 := rfl
  unfold growth
  split
  · next hlt =>
    have hpow : 2 ^ doublings < 2 ^ 32 := Nat.pow_lt_pow_right (by omega) hlt
    omega
  · next hge =>
    have hpow : 2 ^ 32 ≤ 2 ^ doublings := Nat.pow_le_pow_right (by omega) (by omega)
    omega

theorem growth_le (doublings : Nat) : growth doublings ≤ maxFactor := by
  rw [growth_eq]
  exact Nat.min_le_right ..

theorem growth_mono {few many : Nat} (h : few ≤ many) : growth few ≤ growth many := by
  have hpow : 2 ^ few ≤ 2 ^ many := Nat.pow_le_pow_right (by omega) h
  rw [growth_eq, growth_eq]
  omega

/-! ## Delays -/

section Delays

variable (c : Config)

theorem nanos_backoff (attempt : Nat) : (c.backoff attempt).nanos =
    min (c.retryDelay.scale (growth (attempt - 1))).nanos c.maxRetryDelay.nanos :=
  Duration.nanos_shorter ..

theorem backoff_le (attempt : Nat) : (c.backoff attempt).nanos ≤ c.maxRetryDelay.nanos := by
  rw [nanos_backoff]
  exact Nat.min_le_right ..

theorem backoff_mono {a b : Nat} (h : a ≤ b) : (c.backoff a).nanos ≤ (c.backoff b).nanos := by
  have hgrowth : growth (a - 1) ≤ growth (b - 1) := growth_mono (by omega)
  have hproduct := Nat.mul_le_mul_left c.retryDelay.nanos hgrowth
  rw [nanos_backoff, nanos_backoff, Duration.nanos_scale, Duration.nanos_scale]
  omega

variable {c}

/-- A ceiling that is a duration hides where durations end. -/
theorem backoff_eq (hceiling : c.maxRetryDelay.nanos ≤ Duration.longest.nanos) (attempt : Nat) :
    (c.backoff attempt).nanos =
      min c.maxRetryDelay.nanos (c.retryDelay.nanos * growth (attempt - 1)) := by
  rw [nanos_backoff, Duration.nanos_scale]
  omega

/-- A ceiling within the reach of the largest factor hides where factors end. -/
theorem backoff_of_reached (hceiling : c.maxRetryDelay.nanos ≤ Duration.longest.nanos)
    (hreached : c.maxRetryDelay.nanos ≤ c.retryDelay.nanos * maxFactor) (attempt : Nat) :
    (c.backoff attempt).nanos =
      min c.maxRetryDelay.nanos (c.retryDelay.nanos * 2 ^ (attempt - 1)) := by
  calc (c.backoff attempt).nanos
      = min c.maxRetryDelay.nanos (c.retryDelay.nanos * growth (attempt - 1)) :=
        backoff_eq hceiling attempt
    _ = min c.maxRetryDelay.nanos
          (min (c.retryDelay.nanos * 2 ^ (attempt - 1)) (c.retryDelay.nanos * maxFactor)) := by
        rw [growth_eq, Nat.mul_min_mul_left]
    _ = min c.maxRetryDelay.nanos (c.retryDelay.nanos * 2 ^ (attempt - 1)) := by
        omega

end Delays

/-- For a ceiling that is a duration, no step of the delay leaves its width, and the delay grows
with the attempts up to the ceiling.  If the largest factor reaches the ceiling, the delay is the
first one doubled for each attempt after the first, or the ceiling if that is shorter. -/
theorem backoff_exact {c : Config} (hceiling : c.maxRetryDelay.nanos ≤ Duration.longest.nanos) :
    (∀ attempt, growth (attempt - 1) < 2 ^ 32 ∧
      (c.retryDelay.scale (growth (attempt - 1))).nanos ≤ Duration.longest.nanos ∧
      (c.backoff attempt).nanos ≤ c.maxRetryDelay.nanos) ∧
    (∀ a b, a ≤ b → (c.backoff a).nanos ≤ (c.backoff b).nanos) ∧
    (c.maxRetryDelay.nanos ≤ c.retryDelay.nanos * (2 ^ 32 - 1) → ∀ doublings,
      (c.backoff (doublings + 1)).nanos =
        min c.maxRetryDelay.nanos (c.retryDelay.nanos * 2 ^ doublings)) := by
  refine ⟨fun attempt => ⟨?_, ?_, backoff_le c attempt⟩, fun _ _ => backoff_mono c,
    fun hreached doublings => backoff_of_reached hceiling hreached (doublings + 1)⟩
  · exact Nat.lt_succ_of_le (growth_le (attempt - 1))
  · rw [Duration.nanos_scale]
    exact Nat.min_le_right ..

/-- One nanosecond, and a ceiling that the largest factor just reaches. -/
def nanoDelays : Config :=
  { Config.standard with retryDelay := ⟨1⟩, maxRetryDelay := ⟨2 ^ 32 - 1⟩ }

theorem backoff_exact_nano :
    nanoDelays.maxRetryDelay.nanos ≤ Duration.longest.nanos ∧
      nanoDelays.maxRetryDelay.nanos ≤ nanoDelays.retryDelay.nanos * (2 ^ 32 - 1) ∧
      (nanoDelays.backoff 32).nanos = 2 ^ 31 ∧ (nanoDelays.backoff 33).nanos = 2 ^ 32 - 1 ∧
      (nanoDelays.backoff 33).nanos ≤ (nanoDelays.backoff (2 ^ 32 - 1)).nanos ∧
      (nanoDelays.backoff (2 ^ 32 - 1)).nanos ≤ 2 ^ 32 - 1 := by
  have hceiling : nanoDelays.maxRetryDelay.nanos ≤ Duration.longest.nanos := by decide
  obtain ⟨hbounds, hmono, hexact⟩ := backoff_exact hceiling
  refine ⟨hceiling, by decide, ?_, ?_, hmono _ _ (by decide), (hbounds _).2.2⟩
  · exact (hexact (by decide) 31).trans (by decide)
  · exact (hexact (by decide) 32).trans (by decide)

end Importer.Config

end ChainIngest
