import GrapheneLtp.Core.CheckedInt
import GrapheneLtp.Core.Qsort
import GrapheneLtp.Core.Traced

/-!
# do_timer_test

The samples are sorted downwards, then two scans look for outliners at one end
and for early wake-ups at the other.  Each scan reads an element before it looks
whether the index is one of the array, so what it reads is recorded.
-/

namespace GrapheneLtp.TimerTest

open CheckedInt Qsort Traced

/-- The value of a type of 32 bits without sign. -/
def u32 (value : ℤ) : ℤ := value % 2 ^ 32

/-- The comparison for a sort downwards.  The difference is one of 64 bits, the result
an int. -/
def cmp (a b : ℤ) : Option ℤ := (inLong (b - a)).map toInt

/-- The globals that the test depends on. -/
structure Setup where
  monotonicResolution : ℤ
  timerslack : ℤ
  virtEnv : Bool
  printFrequencyPlot : Bool
  fileName : Bool

/-- The messages, in the terms of their arguments. -/
inductive Report where
  /-- TINFO "%s sleeping for %llius %u iterations, threshold %.2fus" -/
  | sleeping (usec nsamples threshold keepSamples : ℤ)
  /-- TINFO "sampling function failed, exiting" -/
  | samplingFailed
  /-- TINFO "Found %i outliners in [%lli,%lli] range" -/
  | outliners (count first last : ℤ)
  /-- TFAIL "%s woken up early %u times range: [%lli,%lli]" -/
  | wokenEarly (count largest smallest : ℤ)
  /-- TINFO "min %llius, max %llius, median %llius, trunc mean %.2fus (discarded %u)" -/
  | summary (min max median truncMean keepSamples discard : ℤ)
  /-- TINFO "Virtualisation detected, skipping oversleep checks" -/
  | virtualised
  /-- TFAIL "%s slept for too long" -/
  | sleptTooLong
  | frequencyPlot
  /-- TPASS "Measured times are within thresholds" -/
  | passed
  deriving DecidableEq, Repr

def computeThreshold (setup : Setup) (requested_us nsamples : ℤ) : ℤ :=
  let slack_per_scall := u32 (min 100000 (requested_us.tdiv 1000))
  let slack_per_scall := max slack_per_scall setup.timerslack
  u32 (u32 (u32 (u32 (400 + u32 (2 * setup.monotonicResolution)) + slack_per_scall) * nsamples)
    + 3000 / nsamples)

def computeDiscard (nsamples : ℕ) : ℕ := if nsamples = 1 then 0 else max 1 (nsamples / 20)

/-- A read of `samples[index]`. -/
def read (element : ℤ → ℤ) (index : ℤ) : Traced ℤ ℤ := past index (some (element index))

/-- The result of an operation of type `long long`. -/
def checked (value : ℤ) : Traced ℤ ℤ := ⟨[], inLong value⟩

/-- Reads of all samples, by a loop whose counter has no sign. -/
def readAll (nsamples : ℕ) : Traced ℤ Unit := ⟨(List.range nsamples).map Int.ofNat, some ()⟩

/-- The samples are written only where a file was named. -/
def writeToFile (setup : Setup) (nsamples : ℕ) : Traced ℤ Unit :=
  if setup.fileName then readAll nsamples else pure ()

/-- The scan for outliners, with the count of the indices that are left. -/
def outlinerLoop (element : ℤ → ℤ) (limit clock : ℤ) : ℕ → ℤ → Traced ℤ ℤ
  | 0, i => do
    -- Past the last sample the value does not matter, but it is read.
    let _ ← read element i
    pure i
  | left + 1, i => do
    let value ← read element i
    if value > limit then do
      let again ← read element i
      if again ≤ clock then pure i else outlinerLoop element limit clock left (i + 1)
    else pure i

/-- The scan for early wake-ups downwards, with the index one higher. -/
def earlyLoop (element : ℤ → ℤ) (usec : ℤ) : ℕ → Traced ℤ ℤ
  | 0 => do
    let _ ← read element (-1)
    pure (-1)
  | i + 1 => do
    let value ← read element i
    if value < usec then earlyLoop element usec i else pure i

/-- The sum of the samples that are left from an index on. -/
def sumLoop (element : ℤ → ℤ) : ℕ → ℤ → ℤ → Traced ℤ ℤ
  | 0, _, truncMean => pure truncMean
  | left + 1, i, truncMean => do
    let value ← read element i
    let sum ← checked (truncMean + value)
    sumLoop element left (i + 1) sum

/-- The two ends and all samples are read; the drawing is left out. -/
def frequencyPlot (element : ℤ → ℤ) (nsamples : ℕ) : Traced ℤ (List Report) := do
  let _ ← read element 0
  let _ ← read element (nsamples - 1)
  readAll nsamples
  pure [.frequencyPlot]

def plotWhen (print : Bool) (element : ℤ → ℤ) (nsamples : ℕ) : Traced ℤ (List Report) :=
  if print then frequencyPlot element nsamples else pure []

def reportOutliners (element : ℤ → ℤ) (limit clock : ℤ) (nsamples : ℕ) :
    Traced ℤ (List Report) := do
  let i ← outlinerLoop element limit clock nsamples 0
  if i > 0 then do
    let first ← read element 0
    let last ← read element (i - 1)
    pure [.outliners i first last]
  else pure []

def reportEarly (element : ℤ → ℤ) (usec : ℤ) (nsamples : ℕ) : Traced ℤ (List Report) := do
  let i ← earlyLoop element usec nsamples
  if i < nsamples - 1 then do
    let largest ← read element (i + 1)
    let smallest ← read element (nsamples - 1)
    pure [.wokenEarly (nsamples - 1 - i) largest smallest]
  else pure []

def reportOversleep (setup : Setup) (element : ℤ → ℤ) (nsamples : ℕ)
    (truncMean keepSamples usec threshold : ℤ) : Traced ℤ (List Report) :=
  if setup.virtEnv then pure [.virtualised]
  else do
    let product ← checked (keepSamples * usec)
    let bound ← checked (product + threshold)
    if truncMean > bound then do
      let plot ← plotWhen (!setup.printFrequencyPlot) element nsamples
      pure (.sleptTooLong :: plot)
    else pure []

/-- The part after the sort. -/
def judge (setup : Setup) (element : ℤ → ℤ) (usec : ℤ) (nsamples : ℕ) :
    Traced ℤ (List Report) := do
  let discard := computeDiscard nsamples
  let keepSamples := u32 (nsamples - discard)
  let threshold := computeThreshold setup usec keepSamples
  writeToFile setup nsamples
  let limit ← checked (10 * usec)
  let outliners ← reportOutliners element limit (u32 (3 * setup.monotonicResolution)) nsamples
  let early ← reportEarly element usec nsamples
  let median ← read element (nsamples / 2)
  let truncMean ← sumLoop element (nsamples - discard) discard 0
  let smallest ← read element (nsamples - 1)
  let largest ← read element 0
  let oversleep ← reportOversleep setup element nsamples truncMean keepSamples usec threshold
  let plot ← plotWhen setup.printFrequencyPlot element nsamples
  let failed := early ≠ [] ∨ .sleptTooLong ∈ oversleep
  pure (outliners ++ early ++
    [.summary smallest largest median truncMean keepSamples discard] ++ oversleep ++ plot ++
    if failed then [] else [.passed])

/-- The elements of the array after the sort, and what lies around them. -/
def elements (sorted : List ℤ) (outside : ℤ → ℤ) (index : ℤ) : ℤ :=
  if 0 ≤ index then sorted.getD index.toNat (outside index) else outside index

/-- The samples that the loop with an int for its counter takes. -/
def takeSamples (sample : ℕ → Option ℤ) (nsamples : ℕ) : Option (List ℤ) :=
  (List.range (toInt nsamples).toNat).mapM sample

/-- The message before the first sample is taken. -/
def opening (setup : Setup) (usec : ℤ) (nsamples : ℕ) : Report :=
  let keepSamples := u32 (nsamples - computeDiscard nsamples)
  .sleeping usec nsamples (computeThreshold setup usec keepSamples) keepSamples

/-- The test of the samples that were taken.  Elements that were never set are not
sorted. -/
def testSamples (setup : Setup) (qsort : (ℤ → ℤ → Option ℤ) → List ℤ → Option (List ℤ))
    (outside : ℤ → ℤ) (usec : ℤ) (nsamples : ℕ) : Option (List ℤ) → Traced ℤ (List Report)
  | none => pure [opening setup usec nsamples, .samplingFailed]
  | some samples => do
    let sorted ← ⟨[], if samples.length = nsamples then qsort cmp samples else none⟩
    let reports ← judge setup (elements sorted outside) usec nsamples
    pure (opening setup usec nsamples :: reports)

/-- The test, with the samples that `sample` measures. -/
def doTimerTest (setup : Setup) (qsort : (ℤ → ℤ → Option ℤ) → List ℤ → Option (List ℤ))
    (outside : ℤ → ℤ) (sample : ℕ → Option ℤ) (usec : ℤ) (nsamples : ℕ) :
    Traced ℤ (List Report) :=
  testSamples setup qsort outside usec nsamples (takeSamples sample nsamples)

/-! ## What is read -/

section Reads

variable {element : ℤ → ℤ} {limit clock usec : ℤ} {nsamples : ℕ} {Safe : ℤ → Prop}

theorem forall_events_read {index : ℤ} :
    (∀ event ∈ (read element index).events, Safe event) ↔ Safe index := by
  simp [read, past]

@[simp]
theorem result_read {index : ℤ} : (read element index).result = some (element index) := rfl

theorem forall_events_checked {value : ℤ} : ∀ event ∈ (checked value).events, Safe event := by
  simp [checked]

theorem forall_events_pure {α : Type} {value : α} :
    ∀ event ∈ (pure value : Traced ℤ α).events, Safe event := by
  simp [pure]

@[simp]
theorem result_checked {value : ℤ} : (checked value).result = inLong value := rfl

/-- An index of one of the samples. -/
def InRange (nsamples : ℕ) (index : ℤ) : Prop := 0 ≤ index ∧ index < nsamples

/-- The scan stops before the end exactly at a sample that is no outliner. -/
theorem outlinerLoop_inRange {left : ℕ} {i : ℤ} (hi : 0 ≤ i) (hleft : i + left = nsamples) :
    (∀ event ∈ (outlinerLoop element limit clock left i).events, InRange nsamples event) ↔
      ∃ index : ℤ, i ≤ index ∧ index < nsamples ∧
        (element index ≤ limit ∨ element index ≤ clock) := by
  induction left generalizing i with
  | zero =>
      rw [outlinerLoop, forall_events_bind, forall_events_read]
      constructor
      · rintro ⟨⟨-, hlt⟩, -⟩
        exact absurd hlt (by omega)
      · rintro ⟨index, hge, hlt, -⟩
        exact absurd hlt (by omega)
  | succ left ih =>
      have hrange : InRange nsamples i := ⟨hi, by omega⟩
      rw [outlinerLoop, forall_events_bind, forall_events_read]
      simp only [result_read, Option.some_inj, forall_eq', hrange, true_and]
      by_cases hlimit : element i > limit
      · rw [if_pos hlimit, forall_events_bind, forall_events_read]
        simp only [result_read, Option.some_inj, forall_eq', hrange, true_and]
        by_cases hclock : element i ≤ clock
        · rw [if_pos hclock]
          exact iff_of_true forall_events_pure ⟨i, le_rfl, hrange.2, .inr hclock⟩
        · rw [if_neg hclock, ih (by omega) (by omega)]
          constructor
          · rintro ⟨index, hge, hlt, hsmall⟩
            exact ⟨index, by omega, hlt, hsmall⟩
          · rintro ⟨index, hge, hlt, hsmall⟩
            obtain rfl | hne := eq_or_ne index i
            · exact absurd hsmall (by omega)
            · exact ⟨index, by omega, hlt, hsmall⟩
      · rw [if_neg hlimit]
        exact iff_of_true forall_events_pure ⟨i, le_rfl, hrange.2, .inl (not_lt.mp hlimit)⟩

theorem exists_outlinerLoop (left : ℕ) (i : ℤ) : ∃ found,
    (outlinerLoop element limit clock left i).result = some found ∧
      i ≤ found ∧ found ≤ i + left := by
  induction left generalizing i with
  | zero => exact ⟨i, rfl, le_rfl, by omega⟩
  | succ left ih =>
      rw [outlinerLoop, result_bind, result_read, Option.bind_some]
      split
      · rw [result_bind, result_read, Option.bind_some]
        split
        · exact ⟨i, rfl, le_rfl, by omega⟩
        · obtain ⟨found, hfound, hlow, hhigh⟩ := ih (i + 1)
          exact ⟨found, hfound, by omega, by omega⟩
      · exact ⟨i, rfl, le_rfl, by omega⟩

/-- The scan stops before the start exactly at a sample that is not early. -/
theorem earlyLoop_inRange {i : ℕ} (hi : i ≤ nsamples) :
    (∀ event ∈ (earlyLoop element usec i).events, InRange nsamples event) ↔
      ∃ index : ℤ, 0 ≤ index ∧ index < i ∧ usec ≤ element index := by
  induction i with
  | zero =>
      rw [earlyLoop, forall_events_bind, forall_events_read]
      constructor
      · rintro ⟨⟨hge, -⟩, -⟩
        exact absurd hge (by omega)
      · rintro ⟨index, hge, hlt, -⟩
        exact absurd hlt (by omega)
  | succ i ih =>
      have hrange : InRange nsamples i := ⟨by omega, by omega⟩
      rw [earlyLoop, forall_events_bind, forall_events_read]
      simp only [result_read, Option.some_inj, forall_eq', hrange, true_and]
      by_cases hearly : element i < usec
      · rw [if_pos hearly, ih (by omega)]
        constructor
        · rintro ⟨index, hge, hlt, hlate⟩
          exact ⟨index, hge, by omega, hlate⟩
        · rintro ⟨index, hge, hlt, hlate⟩
          obtain rfl | hne := eq_or_ne index i
          · exact absurd hlate (by omega)
          · exact ⟨index, hge, by omega, hlate⟩
      · rw [if_neg hearly]
        exact iff_of_true forall_events_pure ⟨i, by omega, by omega, not_lt.mp hearly⟩

/-- Where the scan for early wake-ups stops. -/
theorem exists_earlyLoop (i : ℕ) : ∃ found,
    (earlyLoop element usec i).result = some found ∧ -1 ≤ found ∧ found < i ∧
      (∀ index : ℤ, found < index → index < i → element index < usec) ∧
      (0 ≤ found → usec ≤ element found) := by
  induction i with
  | zero => exact ⟨-1, rfl, le_rfl, by omega, fun index _ _ => by omega, fun h => by omega⟩
  | succ i ih =>
      rw [earlyLoop, result_bind, result_read, Option.bind_some]
      split
      · rename_i hearly
        obtain ⟨found, hfound, hlow, hhigh, hbelow, hlate⟩ := ih
        refine ⟨found, hfound, hlow, by omega, fun index hgt hlt => ?_, hlate⟩
        obtain rfl | hne := eq_or_ne index i
        · exact hearly
        · exact hbelow index hgt (by omega)
      · rename_i hlate
        exact ⟨i, rfl, by omega, by omega, fun index _ _ => by omega, fun _ => not_lt.mp hlate⟩

theorem sumLoop_inRange {left : ℕ} {i truncMean : ℤ} (hi : 0 ≤ i) (hleft : i + left ≤ nsamples) :
    ∀ event ∈ (sumLoop element left i truncMean).events, InRange nsamples event := by
  induction left generalizing i truncMean with
  | zero => exact forall_events_pure
  | succ left ih =>
      rw [sumLoop, forall_events_bind, forall_events_read]
      refine ⟨⟨hi, by omega⟩, fun value _ => ?_⟩
      rw [forall_events_bind]
      exact ⟨forall_events_checked, fun sum _ => ih (by omega) (by omega)⟩

theorem readAll_inRange : ∀ event ∈ (readAll nsamples).events, InRange nsamples event := by
  intro event hevent
  obtain ⟨index, hindex, rfl⟩ := List.mem_map.mp hevent
  exact ⟨Int.natCast_nonneg index, Int.ofNat_lt.mpr (List.mem_range.mp hindex)⟩

theorem plotWhen_inRange (hpos : 0 < nsamples) (print : Bool) :
    ∀ event ∈ (plotWhen print element nsamples).events, InRange nsamples event := by
  rw [plotWhen]
  split
  · simp only [frequencyPlot, forall_events_bind, forall_events_read]
    exact ⟨⟨le_rfl, by omega⟩, fun _ _ => ⟨⟨by omega, by omega⟩, fun _ _ =>
      ⟨readAll_inRange, fun _ _ => forall_events_pure⟩⟩⟩
  · exact forall_events_pure

theorem reportOutliners_inRange :
    (∀ event ∈ (reportOutliners element limit clock nsamples).events, InRange nsamples event) ↔
      ∃ index : ℤ, 0 ≤ index ∧ index < nsamples ∧
        (element index ≤ limit ∨ element index ≤ clock) := by
  rw [reportOutliners, forall_events_bind, outlinerLoop_inRange le_rfl (by omega)]
  refine and_iff_left fun i hresult => ?_
  obtain ⟨found, hfound, hlow, hhigh⟩ := @exists_outlinerLoop element limit clock nsamples 0
  obtain rfl := Option.some.inj (hfound.symm.trans hresult)
  split
  · simp only [forall_events_bind, forall_events_read]
    exact ⟨⟨le_rfl, by omega⟩, fun _ _ => ⟨⟨by omega, by omega⟩, fun _ _ => forall_events_pure⟩⟩
  · exact forall_events_pure

theorem reportEarly_inRange :
    (∀ event ∈ (reportEarly element usec nsamples).events, InRange nsamples event) ↔
      ∃ index : ℤ, 0 ≤ index ∧ index < nsamples ∧ usec ≤ element index := by
  rw [reportEarly, forall_events_bind, earlyLoop_inRange le_rfl]
  refine and_iff_left fun i hresult => ?_
  obtain ⟨found, hfound, hlow, hhigh, -⟩ := @exists_earlyLoop element usec nsamples
  obtain rfl := Option.some.inj (hfound.symm.trans hresult)
  split
  · simp only [forall_events_bind, forall_events_read]
    exact ⟨⟨by omega, by omega⟩, fun _ _ => ⟨⟨by omega, by omega⟩, fun _ _ => forall_events_pure⟩⟩
  · exact forall_events_pure

theorem reportOversleep_inRange (setup : Setup) {truncMean keepSamples threshold : ℤ}
    (hpos : 0 < nsamples) : ∀ event ∈ (reportOversleep setup element nsamples truncMean
      keepSamples usec threshold).events, InRange nsamples event := by
  rw [reportOversleep]
  split
  · exact forall_events_pure
  · simp only [forall_events_bind]
    refine ⟨forall_events_checked, fun _ _ => ⟨forall_events_checked, fun _ _ => ?_⟩⟩
    split
    · rw [forall_events_bind]
      exact ⟨plotWhen_inRange hpos _, fun _ _ => forall_events_pure⟩
    · exact forall_events_pure

theorem writeToFile_inRange (setup : Setup) :
    ∀ event ∈ (writeToFile setup nsamples).events, InRange nsamples event := by
  rw [writeToFile]
  split
  · exact readAll_inRange
  · exact forall_events_pure

theorem result_writeToFile (setup : Setup) : (writeToFile setup nsamples).result = some () := by
  rw [writeToFile]
  split <;> rfl

theorem exists_reportOutliners : ∃ reports,
    (reportOutliners element limit clock nsamples).result = some reports ∧
      ∀ report ∈ reports, ∃ count first last, report = .outliners count first last := by
  obtain ⟨found, hfound, -⟩ := @exists_outlinerLoop element limit clock nsamples 0
  rw [reportOutliners, result_bind, hfound, Option.bind_some]
  split
  · exact ⟨_, rfl, fun report hreport => ⟨_, _, _, List.mem_singleton.mp hreport⟩⟩
  · exact ⟨[], rfl, fun report hreport => by cases hreport⟩

theorem exists_reportEarly : ∃ reports,
    (reportEarly element usec nsamples).result = some reports := by
  obtain ⟨found, hfound, -⟩ := @exists_earlyLoop element usec nsamples
  rw [reportEarly, result_bind, hfound, Option.bind_some]
  split
  · exact ⟨_, rfl⟩
  · exact ⟨_, rfl⟩

/-- The reads stay in the array if and only if both scans meet a sample that stops
them. -/
theorem judge_inRange (setup : Setup) (hpos : 0 < nsamples) (hten : FitsLong (10 * usec)) :
    (∀ event ∈ (judge setup element usec nsamples).events, InRange nsamples event) ↔
      (∃ index : ℤ, 0 ≤ index ∧ index < nsamples ∧ (element index ≤ 10 * usec ∨
        element index ≤ u32 (3 * setup.monotonicResolution))) ∧
      ∃ index : ℤ, 0 ≤ index ∧ index < nsamples ∧ usec ≤ element index := by
  have hdiscard : computeDiscard nsamples ≤ nsamples := by
    rw [computeDiscard]
    split <;> omega
  rw [judge, forall_events_bind, and_iff_right (writeToFile_inRange setup),
    result_writeToFile]
  simp only [forall_const]
  rw [forall_events_bind, and_iff_right forall_events_checked, result_checked,
    inLong_of_fits hten]
  obtain ⟨outliners, houtliners, -⟩ := @exists_reportOutliners element (10 * usec)
    (u32 (3 * setup.monotonicResolution)) nsamples
  obtain ⟨early, hearly⟩ := @exists_reportEarly element usec nsamples
  simp only [Option.some_inj, forall_eq']
  rw [forall_events_bind, reportOutliners_inRange, houtliners]
  simp only [Option.some_inj, forall_eq']
  rw [forall_events_bind, reportEarly_inRange]
  refine and_congr_right fun _ => and_iff_left fun _ _ => ?_
  -- All that is read after the scans is in the array.
  simp only [forall_events_bind, forall_events_read]
  refine ⟨⟨by omega, by omega⟩, fun _ _ => ⟨sumLoop_inRange (by omega) (by omega), fun _ _ =>
    ⟨⟨by omega, by omega⟩, fun _ _ => ⟨⟨le_rfl, by omega⟩, fun _ _ =>
      ⟨reportOversleep_inRange setup hpos, fun _ _ =>
        ⟨plotWhen_inRange hpos _, fun _ _ => forall_events_pure⟩⟩⟩⟩⟩⟩

end Reads

theorem elements_of_lt {sorted : List ℤ} {outside : ℤ → ℤ} {index : ℕ}
    (hindex : index < sorted.length) : elements sorted outside index = sorted[index] := by
  rw [elements, if_pos (Int.natCast_nonneg index), Int.toNat_natCast,
    List.getD_eq_getElem?_getD, List.getElem?_eq_getElem hindex, Option.getD_some]

theorem exists_elements_iff {sorted samples : List ℤ} {outside : ℤ → ℤ} {nsamples : ℕ}
    {Holds : ℤ → Prop} (hperm : sorted.Perm samples) (hlength : samples.length = nsamples) :
    (∃ index : ℤ, 0 ≤ index ∧ index < nsamples ∧ Holds (elements sorted outside index)) ↔
      ∃ sample ∈ samples, Holds sample := by
  have hsorted := hperm.length_eq.trans hlength
  constructor
  · rintro ⟨index, hge, hlt, hholds⟩
    lift index to ℕ using hge
    rw [elements_of_lt (by omega)] at hholds
    exact ⟨_, hperm.mem_iff.mp (List.getElem_mem _), hholds⟩
  · rintro ⟨sample, hsample, hholds⟩
    obtain ⟨index, hindex, rfl⟩ := List.mem_iff_getElem.mp (hperm.mem_iff.mpr hsample)
    exact ⟨index, by omega, by omega, by rwa [elements_of_lt hindex]⟩

/-- On values that are less than 2^31 apart the comparison is the order downwards. -/
theorem cmp_of_close {a b : ℤ} (hclose : |a - b| < 2 ^ 31) : cmp a b = some (b - a) := by
  rw [abs_lt] at hclose
  rw [cmp, inLong_of_fits ⟨by omega, by omega⟩, Option.map_some,
    toInt_of_fits ⟨by omega, by omega⟩]

theorem totalOn_cmp {values : List ℤ}
    (hclose : ∀ a ∈ values, ∀ b ∈ values, |a - b| < 2 ^ 31) : TotalOn cmp values := by
  refine @totalOn_of_sign _ _ _ (fun value => -value) fun a ha b hb => ?_
  exact ⟨b - a, cmp_of_close (hclose a ha b hb), by rw [neg_sub_neg]⟩

theorem toInt_nonneg_iff {value : ℤ} : 0 ≤ toInt value ↔ value % 2 ^ 32 < 2 ^ 31 := by
  rw [toInt, Int.bmod_def]
  split <;> omega

/-- The comparison looks at the values modulo 2^32 only.  It is an order if and only if they
lie in one half of the circle, and all differences are defined. -/
theorem totalOn_cmp_iff {values : List ℤ} : TotalOn cmp values ↔
    (∀ a ∈ values, ∀ b ∈ values, FitsLong (b - a)) ∧
      ∃ base, ∀ value ∈ values, (value - base) % 2 ^ 32 < 2 ^ 31 := by
  have hcmp {a b : ℤ} (hfits : FitsLong (b - a)) : cmp a b = some (toInt (b - a)) := by
    rw [cmp, inLong_of_fits hfits, Option.map_some]
  constructor
  · intro htotal
    have hfits : ∀ a ∈ values, ∀ b ∈ values, FitsLong (b - a) := by
      intro a ha b hb
      by_contra hnot
      have hdefined := htotal.defined a ha b hb
      rw [cmp, inLong, inType_of_not_fits hnot] at hdefined
      cases hdefined
    refine ⟨hfits, ?_⟩
    obtain rfl | hne := eq_or_ne values []
    · exact ⟨0, fun value hvalue => absurd hvalue List.not_mem_nil⟩
    · -- All values are above the one that may stand last.
      obtain ⟨base, hbase, hlast⟩ := htotal.exists_last hne
      refine ⟨base, fun value hvalue => toInt_nonneg_iff.mp ?_⟩
      obtain ⟨result, hresult, hbefore⟩ := hlast value hvalue
      have hturned := htotal.turned value hvalue base hbase result _ hbefore
        (hcmp (hfits base hbase value hvalue))
      rw [← Int.sign_nonneg_iff]
      have hsign := Int.sign_nonpos_iff.mpr hresult
      omega
  · rintro ⟨hfits, base, hhalf⟩
    refine @totalOn_of_sign _ _ _ (fun value => -((value - base) % 2 ^ 32)) fun a ha b hb => ?_
    refine ⟨_, hcmp (hfits a ha b hb), congrArg Int.sign ?_⟩
    have hlow := hhalf a ha
    have hhigh := hhalf b hb
    rw [toInt, Int.bmod_def]
    split <;> omega

theorem silent_bind {α β : Type} (value : α) (next : α → Traced ℤ β) :
    (⟨[], some value⟩ : Traced ℤ α) >>= next = next value := by
  simp only [bind, List.nil_append]

/-- What the test does once it has its samples. -/
theorem doTimerTest_eq {setup : Setup}
    {qsort : (ℤ → ℤ → Option ℤ) → List ℤ → Option (List ℤ)} {outside : ℤ → ℤ}
    {sample : ℕ → Option ℤ} {usec : ℤ} {nsamples : ℕ} {samples sorted : List ℤ}
    (htaken : takeSamples sample nsamples = some samples) (hcount : samples.length = nsamples)
    (hqsort : qsort cmp samples = some sorted) :
    doTimerTest setup qsort outside sample usec nsamples = (do
      let reports ← judge setup (elements sorted outside) usec nsamples
      pure (opening setup usec nsamples :: reports)) := by
  have hsorted : (if samples.length = nsamples then qsort cmp samples else none) = some sorted :=
    (if_pos hcount).trans hqsort
  rw [doTimerTest, htaken, testSamples, hsorted, silent_bind]

/-- The limit for outliners is defined and every element that is read is one of the array if
and only if the tenfold sleep time does not overflow, some sample is no outliner and some
sample is not early.  The comparison is a total preorder on values if and only if no
difference overflows and all of them lie in one half of the residues. -/
theorem doTimerTest_reads_iff {setup : Setup}
    {qsort : (ℤ → ℤ → Option ℤ) → List ℤ → Option (List ℤ)} {outside : ℤ → ℤ}
    {sample : ℕ → Option ℤ} {usec : ℤ} {nsamples : ℕ} {samples sorted : List ℤ}
    (hpos : 0 < nsamples) (htaken : takeSamples sample nsamples = some samples)
    (hcount : samples.length = nsamples) (hqsort : qsort cmp samples = some sorted)
    (hperm : sorted.Perm samples) :
    ((FitsLong (10 * usec) ∧
        ∀ index ∈ (doTimerTest setup qsort outside sample usec nsamples).events,
          0 ≤ index ∧ index < nsamples) ↔
      FitsLong (10 * usec) ∧
        (∃ time ∈ samples, time ≤ 10 * usec ∨ time ≤ u32 (3 * setup.monotonicResolution)) ∧
        ∃ time ∈ samples, usec ≤ time) ∧
      ∀ values : List ℤ, TotalOn cmp values ↔
        (∀ a ∈ values, ∀ b ∈ values, FitsLong (b - a)) ∧
          ∃ base, ∀ value ∈ values, (value - base) % 2 ^ 32 < 2 ^ 31 := by
  refine ⟨and_congr_right fun hten => ?_, fun values => totalOn_cmp_iff⟩
  rw [← @exists_elements_iff _ _ outside _ _ hperm hcount,
    ← @exists_elements_iff _ _ outside _ _ hperm hcount, ← judge_inRange setup hpos hten,
    doTimerTest_eq htaken hcount hqsort, forall_events_bind]
  exact and_iff_left fun _ _ => forall_events_pure

theorem doTimerTest_reads_iff_two :
    (FitsLong (10 * 5) ∧
      ∀ index ∈ (doTimerTest ⟨1, 50, false, false, true⟩ (fun _ => some) (fun _ => 0)
        (fun _ => some 7) 5 2).events, 0 ≤ index ∧ index < ((2 : ℕ) : ℤ)) ∧
      TotalOn cmp [7, -3] := by
  have hreads := @doTimerTest_reads_iff ⟨1, 50, false, false, true⟩ (fun _ => some) (fun _ => 0)
    (fun _ => some 7) 5 2 [7, 7] [7, 7] (by decide) (by decide) rfl rfl (.refl _)
  exact ⟨hreads.1.mpr (by decide),
    (hreads.2 [7, -3]).mpr ⟨by decide, -3, by decide⟩⟩

/-- One early sample makes the test read before the array, and one outliner beyond it.
Two samples that are 2^31 apart compare as smaller than each other. -/
theorem doTimerTest_reads_outside :
    -1 ∈ (doTimerTest ⟨1, 50, false, false, false⟩ (fun _ => some) (fun _ => 0)
        (fun _ => some 7) 10 1).events ∧
      1 ∈ (doTimerTest ⟨1, 50, false, false, false⟩ (fun _ => some) (fun _ => 0)
        (fun _ => some 100) 1 1).events ∧
      ¬TotalOn cmp [0, 2147483648] := by
  refine ⟨by decide +kernel, by decide +kernel, fun htotal => ?_⟩
  exact absurd (htotal.turned 0 (by decide) 2147483648 (by decide) (-2147483648) (-2147483648)
    (by decide) (by decide)) (by decide)

end GrapheneLtp.TimerTest
