import ChainIngest.Rpc.Block
/-!
# Times of blocks

The time of a block is served as sixty-four bits without a sign and read in two's
complement before the calendar is asked.  The calendar ends far below 2 ^ 63, but it
begins below zero: numbers close to 2 ^ 64 turn into times before 1970 that it knows.
All others are kept, or the block is refused.
-/

namespace ChainIngest.Rpc.ServedBlock

open Calendar (firstSecond lastSecond)

variable {b : ServedBlock} {ommers : List Ommer} {t : Nat}

/-! ## Reading with a sign -/

theorem signedSeconds_of_lt (h : t < 2 ^ 63) : signedSeconds t = t := by
  rw [signedSeconds, BitVec.toInt_eq_toNat_cond, BitVec.toNat_ofNat, Nat.mod_eq_of_lt (by omega),
    if_pos (by omega)]

theorem signedSeconds_of_le (hlow : 2 ^ 63 ≤ t) (hhigh : t < 2 ^ 64) :
    signedSeconds t = t - 2 ^ 64 := by
  rw [signedSeconds, BitVec.toInt_eq_toNat_cond, BitVec.toNat_ofNat, Nat.mod_eq_of_lt hhigh,
    if_neg (by omega)]
  rfl

theorem covers_iff {seconds : Int} :
    Calendar.covers seconds = true ↔ firstSecond ≤ seconds ∧ seconds ≤ lastSecond := by
  simp [Calendar.covers]

theorem firstSecond_gt : -2 ^ 63 < firstSecond := by decide

theorem lastSecond_lt : lastSecond < 2 ^ 63 := by decide

/-! The calendar is as wide as it says. -/

example : Calendar.timestampText firstSecond = "-262143-01-01T00:00:00Z" ∧
    Calendar.timestampText lastSecond = "+262142-12-31T23:59:59Z" := by decide +kernel

/-! ## Completing a block -/

theorem withOmmers_of_covers (h : Calendar.covers (signedSeconds b.timestamp) = true)
    (ommers : List Ommer) :
    ∃ block, b.withOmmers ommers = .ok block ∧ block.timestamp = signedSeconds b.timestamp := by
  rw [withOmmers]
  exact ⟨_, if_pos h, rfl⟩

theorem withOmmers_of_not_covers (h : ¬ Calendar.covers (signedSeconds b.timestamp) = true) :
    b.withOmmers ommers = .error
      (.invalidResponse s!"block {b.number} has an out-of-range timestamp {b.timestamp}") := by
  rw [withOmmers]
  exact if_neg h

theorem withOmmers_of_le (h : b.timestamp ≤ lastSecond) :
    ∃ block, b.withOmmers ommers = .ok block ∧ block.timestamp = b.timestamp := by
  have hlast := lastSecond_lt
  have hsigned : signedSeconds b.timestamp = b.timestamp := signedSeconds_of_lt (by omega)
  have hcovers : Calendar.covers (signedSeconds b.timestamp) = true := by
    rw [covers_iff, hsigned]
    have hfirst : firstSecond ≤ 0 := by decide
    exact ⟨by omega, h⟩
  obtain ⟨block, hblock, htime⟩ := withOmmers_of_covers hcovers ommers
  exact ⟨block, hblock, htime.trans hsigned⟩

/-- Beyond its end the calendar knows a time only if it knows what it reads as with a sign. -/
theorem withOmmers_of_lt (hlow : lastSecond < b.timestamp)
    (hhigh : b.timestamp < 2 ^ 64 + firstSecond) :
    b.withOmmers ommers = .error
      (.invalidResponse s!"block {b.number} has an out-of-range timestamp {b.timestamp}") := by
  have hfirst : firstSecond ≤ 0 := by decide
  refine withOmmers_of_not_covers fun hcovers => ?_
  rw [covers_iff] at hcovers
  rcases Nat.lt_or_ge b.timestamp (2 ^ 63) with hsmall | hlarge
  · rw [signedSeconds_of_lt hsmall] at hcovers
    omega
  · rw [signedSeconds_of_le hlarge (by omega)] at hcovers
    omega

/-- Close to 2 ^ 64 times are moved below zero. -/
theorem withOmmers_of_ge (hlow : 2 ^ 64 + firstSecond ≤ b.timestamp) (hhigh : b.timestamp < 2 ^ 64)
    (ommers : List Ommer) :
    ∃ block, b.withOmmers ommers = .ok block ∧ block.timestamp = b.timestamp - 2 ^ 64 := by
  have hfirst := firstSecond_gt
  have hsigned : signedSeconds b.timestamp = b.timestamp - 2 ^ 64 :=
    signedSeconds_of_le (by omega) hhigh
  have hcovers : Calendar.covers (signedSeconds b.timestamp) = true := by
    rw [covers_iff, hsigned]
    have hlast : 0 ≤ lastSecond := by decide
    omega
  obtain ⟨block, hblock, htime⟩ := withOmmers_of_covers hcovers ommers
  exact ⟨block, hblock, htime.trans hsigned⟩

def KeptOrRefused (b : ServedBlock) (ommers : List Ommer) : Prop :=
  (∃ text, b.withOmmers ommers = .error (.invalidResponse text)) ∨
    ∃ block, b.withOmmers ommers = .ok block ∧ block.timestamp = b.timestamp

/-- Where the time of a block lies decides what becomes of it.  Up to the end of the calendar it is
kept.  From there on the block is refused with a message that names the time, unless this is so
close to 2 ^ 64 that the calendar knows what it reads as with a sign: then the block gets that time,
which is before 1970. -/
theorem keptOrRefused_iff (h : b.timestamp < 2 ^ 64) (ommers : List Ommer) :
    (b.KeptOrRefused ommers ↔ b.timestamp < 2 ^ 64 + firstSecond) ∧
    (b.timestamp ≤ lastSecond →
      ∃ block, b.withOmmers ommers = .ok block ∧ block.timestamp = b.timestamp) ∧
    (lastSecond < b.timestamp → b.timestamp < 2 ^ 64 + firstSecond →
      b.withOmmers ommers = .error
        (.invalidResponse s!"block {b.number} has an out-of-range timestamp {b.timestamp}")) ∧
    (2 ^ 64 + firstSecond ≤ b.timestamp →
      ∃ block, b.withOmmers ommers = .ok block ∧ block.timestamp = b.timestamp - 2 ^ 64 ∧
        block.timestamp < 0) := by
  have hmoved : 2 ^ 64 + firstSecond ≤ b.timestamp →
      ∃ block, b.withOmmers ommers = .ok block ∧ block.timestamp = b.timestamp - 2 ^ 64 ∧
        block.timestamp < 0 := by
    intro hlow
    obtain ⟨block, hblock, htime⟩ := withOmmers_of_ge hlow h ommers
    exact ⟨block, hblock, htime, by omega⟩
  refine ⟨⟨fun hfair => Int.not_le.mp fun hlow => ?_, fun hhigh => ?_⟩, withOmmers_of_le,
    withOmmers_of_lt, hmoved⟩
  · obtain ⟨block, hblock, _, hnegative⟩ := hmoved hlow
    rcases hfair with ⟨text, hrefused⟩ | ⟨kept, hkept, htime⟩
    · rw [hblock] at hrefused
      cases hrefused
    · obtain rfl := Except.ok.inj (hblock.symm.trans hkept)
      omega
  · rcases Int.lt_or_le lastSecond b.timestamp with hlast | hlast
    · exact .inl ⟨_, withOmmers_of_lt hlast hhigh⟩
    · exact .inr (withOmmers_of_le hlast)

def timed (t : Nat) : ServedBlock := { (default : ServedBlock) with number := 16, timestamp := t }

theorem keptOrRefused_iff_bounds :
    (timed (2 ^ 64 - 8334601228801)).KeptOrRefused [] ∧
      ¬ (timed (2 ^ 64 - 8334601228800)).KeptOrRefused [] ∧
      (∃ block, (timed 8210266876799).withOmmers [] = .ok block ∧
        block.timestamp = 8210266876799) ∧
      (timed 8210266876800).withOmmers [] =
        .error (.invalidResponse "block 16 has an out-of-range timestamp 8210266876800") := by
  refine ⟨?_, ?_, ?_, ?_⟩
  · exact (keptOrRefused_iff (b := timed (2 ^ 64 - 8334601228801)) (by decide) []).1.mpr (by decide)
  · exact mt (keptOrRefused_iff (b := timed (2 ^ 64 - 8334601228800)) (by decide) []).1.mp
      (by decide)
  · exact (keptOrRefused_iff (b := timed 8210266876799) (by decide) []).2.1 (by decide)
  · exact (keptOrRefused_iff (b := timed 8210266876800) (by decide) []).2.2.1 (by decide)
      (by decide)

/-- The greatest number of sixty-four bits is taken for the last second of 1969. -/
theorem not_keptOrRefused : ¬ ∀ (b : ServedBlock) (ommers : List Ommer), b.timestamp < 2 ^ 64 →
    b.KeptOrRefused ommers := by
  intro hall
  have hmoved : ∃ block, (timed (2 ^ 64 - 1)).withOmmers [] = .ok block ∧ block.timestamp = -1 :=
    withOmmers_of_covers (by decide) []
  obtain ⟨block, hblock, htime⟩ := hmoved
  rcases hall (timed (2 ^ 64 - 1)) [] (by decide) with ⟨text, hrefused⟩ | ⟨kept, hkept, htime'⟩
  · rw [hblock] at hrefused
    cases hrefused
  · obtain rfl := Except.ok.inj (hblock.symm.trans hkept)
    rw [htime] at htime'
    exact absurd htime' (by decide)

end ChainIngest.Rpc.ServedBlock
