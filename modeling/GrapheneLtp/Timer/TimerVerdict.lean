import GrapheneLtp.Timer.TimerTest

/-!
# The verdict of do_timer_test

The samples stand in descending order, so the early ones are a tail of the array
and the discarded ones a head.
-/

namespace GrapheneLtp.TimerTest

open CheckedInt Qsort Traced

/-- The samples from the largest to the smallest. -/
def descending (samples : List ℤ) : List ℤ := samples.insertionSort (· ≥ ·)

/-- The samples but the largest ones, of which `computeDiscard` says how many. -/
def kept (samples : List ℤ) : List ℤ := (descending samples).drop (computeDiscard samples.length)

/-- What a mean sleep is compared with, times the number of samples kept. -/
def allowed (setup : Setup) (usec : ℤ) (samples : List ℤ) : ℤ :=
  (kept samples).length * usec + computeThreshold setup usec (kept samples).length

/-- No operation of type `long long` overflows. -/
structure NoOverflow (setup : Setup) (usec : ℤ) (samples : List ℤ) : Prop where
  tenfold : FitsLong (10 * usec)
  sums : ∀ count, FitsLong ((kept samples).take count).sum
  product : FitsLong ((kept samples).length * usec)
  total : FitsLong (allowed setup usec samples)

section Order

variable {samples sorted : List ℤ} {outside : ℤ → ℤ} {usec : ℤ}

theorem length_descending (samples : List ℤ) : (descending samples).length = samples.length :=
  (samples.perm_insertionSort _).length_eq

theorem pairwise_descending (samples : List ℤ) : (descending samples).Pairwise (· ≥ ·) :=
  samples.pairwise_insertionSort _

theorem sorted_eq_descending (hclose : ∀ a ∈ samples, ∀ b ∈ samples, |a - b| < 2 ^ 31)
    (hperm : sorted.Perm samples) (hsorted : sorted.Pairwise (Before cmp)) :
    sorted = descending samples := by
  have hge : sorted.Pairwise (· ≥ ·) := by
    refine hsorted.imp_of_mem fun {a b} ha hb hbefore => ?_
    obtain ⟨result, hresult, hcmp⟩ := hbefore
    rw [cmp_of_close (hclose a (hperm.mem_iff.mp ha) b (hperm.mem_iff.mp hb))] at hcmp
    obtain rfl := Option.some.inj hcmp
    show b ≤ a
    omega
  exact (hperm.trans (samples.perm_insertionSort _).symm).eq_of_pairwise' hge
    (pairwise_descending samples)

/-- In descending order the samples below a bound are a tail. -/
theorem exists_early (samples : List ℤ) (outside : ℤ → ℤ) (usec : ℤ) : ∃ found : ℤ,
    (earlyLoop (elements (descending samples) outside) usec samples.length).result = some found ∧
      -1 ≤ found ∧ found < samples.length ∧
      (∀ time ∈ (descending samples).take (found + 1).toNat, usec ≤ time) ∧
      ∀ time ∈ (descending samples).drop (found + 1).toNat, time < usec := by
  obtain ⟨found, hresult, hlow, hhigh, hbelow, hlate⟩ :=
    @exists_earlyLoop (elements (descending samples) outside) usec samples.length
  have hlength := length_descending samples
  refine ⟨found, hresult, hlow, hhigh, fun time htime => ?_, fun time htime => ?_⟩
  · obtain ⟨index, hindex, rfl⟩ := List.mem_take_iff_getElem.mp htime
    have hnonneg : 0 ≤ found := by omega
    lift found to ℕ using hnonneg
    have hstop := hlate (by omega)
    rw [elements_of_lt (by omega)] at hstop
    rcases (show index ≤ found by omega).eq_or_lt with rfl | hlt
    · exact hstop
    · exact hstop.trans (List.pairwise_iff_getElem.mp (pairwise_descending samples) index found
        (by omega) (by omega) hlt)
  · obtain ⟨index, hindex, rfl⟩ := List.mem_drop_iff_getElem.mp htime
    have hearly := hbelow ((found + 1).toNat + index : ℕ) (by omega) (by omega)
    rwa [elements_of_lt (by omega)] at hearly

/-- The count of the early samples, and the ends of their range. -/
theorem early_range {found : ℤ} (hlow : -1 ≤ found) (hhigh : found < samples.length)
    (hlate : ∀ time ∈ (descending samples).take (found + 1).toNat, usec ≤ time)
    (hearly : ∀ time ∈ (descending samples).drop (found + 1).toNat, time < usec) :
    (samples.countP (· < usec) : ℤ) = samples.length - 1 - found ∧
      (found < samples.length - 1 →
        IsGreatest {time | time ∈ samples ∧ time < usec}
          (elements (descending samples) outside (found + 1)) ∧
        IsLeast {time | time ∈ samples ∧ time < usec}
          (elements (descending samples) outside (samples.length - 1))) := by
  have hlength := length_descending samples
  have hperm : (descending samples).Perm samples := samples.perm_insertionSort _
  have hsplit := List.take_append_drop (found + 1).toNat (descending samples)
  have hmem {time : ℤ} (hsample : time ∈ samples) (htime : time < usec) :
      time ∈ (descending samples).drop (found + 1).toNat := by
    rw [← hperm.mem_iff, ← hsplit, List.mem_append] at hsample
    exact hsample.resolve_left fun hhead => absurd (hlate time hhead) (by omega)
  constructor
  · rw [← hperm.countP_eq, ← hsplit, List.countP_append, List.countP_eq_zero.mpr, zero_add,
      List.countP_eq_length.mpr, List.length_drop, hlength]
    · omega
    · simpa using hearly
    · simpa using hlate
  · intro hsome
    obtain ⟨first, hfirst⟩ : ∃ first : ℕ, (first : ℤ) = found + 1 := ⟨(found + 1).toNat, by omega⟩
    have hindex : (found + 1).toNat = first := by omega
    have hlast : ((samples.length - 1 : ℕ) : ℤ) = samples.length - 1 := by omega
    rw [← hfirst, ← hlast, elements_of_lt (by omega), elements_of_lt (by omega)]
    rw [hindex] at hearly hmem
    have hin {index : ℕ} (hge : first ≤ index) (hlt : index < (descending samples).length) :
        (descending samples)[index] ∈ {time | time ∈ samples ∧ time < usec} := by
      refine ⟨hperm.mem_iff.mp (List.getElem_mem hlt), hearly _ ?_⟩
      exact List.mem_drop_iff_getElem.mpr ⟨index - first, by omega, by congr 1; omega⟩
    have horder := List.pairwise_iff_getElem.mp (pairwise_descending samples)
    refine ⟨⟨hin le_rfl (by omega), ?_⟩, ⟨hin (by omega) (by omega), ?_⟩⟩
    · rintro time ⟨hsample, htime⟩
      obtain ⟨index, hlt, rfl⟩ := List.mem_drop_iff_getElem.mp (hmem hsample htime)
      rcases Nat.eq_zero_or_pos index with rfl | hpos
      · exact le_rfl
      · exact horder first (first + index) (by omega) (by omega) (by omega)
    · rintro time ⟨hsample, htime⟩
      obtain ⟨index, hlt, rfl⟩ := List.mem_drop_iff_getElem.mp (hmem hsample htime)
      rcases (show first + index ≤ samples.length - 1 by omega).eq_or_lt with heq | hlt
      · simp only [heq, le_refl]
      · exact horder (first + index) (samples.length - 1) (by omega) (by omega) hlt

/-- The report of early wake-ups. -/
theorem result_reportEarly (samples : List ℤ) (outside : ℤ → ℤ) (usec : ℤ) : ∃ reports,
    (reportEarly (elements (descending samples) outside) usec samples.length).result =
        some reports ∧
      (∀ report ∈ reports, ∃ count largest smallest,
        report = .wokenEarly count largest smallest) ∧
      ∀ count largest smallest, .wokenEarly count largest smallest ∈ reports ↔
        1 ≤ count ∧ (samples.countP (· < usec) : ℤ) = count ∧
          IsGreatest {time | time ∈ samples ∧ time < usec} largest ∧
          IsLeast {time | time ∈ samples ∧ time < usec} smallest := by
  obtain ⟨found, hresult, hlow, hhigh, hlate, hearly⟩ := exists_early samples outside usec
  obtain ⟨hcount, hrange⟩ := @early_range samples outside usec found hlow hhigh hlate hearly
  rw [reportEarly, result_bind, hresult, Option.bind_some]
  by_cases hsome : found < samples.length - 1
  · obtain ⟨hgreatest, hleast⟩ := hrange hsome
    rw [if_pos hsome]
    refine ⟨_, rfl, fun report hreport => ⟨_, _, _, List.mem_singleton.mp hreport⟩,
      fun count largest smallest => ?_⟩
    rw [List.mem_singleton, Report.wokenEarly.injEq]
    constructor
    · rintro ⟨rfl, rfl, rfl⟩
      exact ⟨by omega, hcount, hgreatest, hleast⟩
    · rintro ⟨-, hsame, hlargest, hsmallest⟩
      exact ⟨by omega, hlargest.unique hgreatest, hsmallest.unique hleast⟩
  · rw [if_neg hsome]
    refine ⟨[], rfl, fun report hreport => absurd hreport List.not_mem_nil,
      fun count largest smallest => ?_⟩
    constructor
    · intro hreport
      cases hreport
    · rintro ⟨hpositive, hsame, -⟩
      omega

/-- The sum of what is left of the array. -/
theorem result_sumLoop {left : ℕ} {i : ℕ} {truncMean : ℤ} (hleft : i + left = sorted.length)
    (hfits : ∀ count, FitsLong (truncMean + ((sorted.drop i).take count).sum)) :
    (sumLoop (elements sorted outside) left i truncMean).result =
      some (truncMean + (sorted.drop i).sum) := by
  induction left generalizing i truncMean with
  | zero =>
      rw [List.drop_eq_nil_of_le (by omega), List.sum_nil, add_zero]
      rfl
  | succ left ih =>
      have hsplit := List.drop_eq_getElem_cons (show i < sorted.length by omega)
      rw [hsplit] at hfits
      have hfirst : FitsLong (truncMean + sorted[i]) := by
        simpa only [List.take_succ_cons, List.take_zero, List.sum_singleton] using hfits 1
      simp only [sumLoop, result_bind, result_read, Option.bind_some, result_checked,
        elements_of_lt (show i < sorted.length by omega), inLong_of_fits hfirst]
      have hrest := @ih (i + 1) (truncMean + sorted[i]) (by omega) fun count => by
        simpa only [List.take_succ_cons, List.sum_cons, add_assoc] using hfits (count + 1)
      rw [Nat.cast_add, Nat.cast_one] at hrest
      rw [hrest, hsplit, List.sum_cons, add_assoc]

end Order

/-! ## The reports of a test -/

section Reports

variable {setup : Setup} {element : ℤ → ℤ} {nsamples : ℕ}

theorem result_plotWhen (print : Bool) : ∃ reports,
    (plotWhen print element nsamples).result = some reports ∧
      ∀ report ∈ reports, report = .frequencyPlot := by
  rw [plotWhen]
  split
  · exact ⟨[.frequencyPlot], rfl, fun report hreport => List.mem_singleton.mp hreport⟩
  · exact ⟨[], rfl, fun report hreport => absurd hreport List.not_mem_nil⟩

/-- The report of an oversleep, which a virtual machine is spared. -/
theorem result_reportOversleep {truncMean keepSamples usec threshold : ℤ}
    (hproduct : FitsLong (keepSamples * usec))
    (htotal : FitsLong (keepSamples * usec + threshold)) :
    ∃ reports, (reportOversleep setup element nsamples truncMean keepSamples usec
        threshold).result = some reports ∧
      (∀ report ∈ reports, report = .virtualised ∨ report = .sleptTooLong ∨
        report = .frequencyPlot) ∧
      (.sleptTooLong ∈ reports ↔
        setup.virtEnv = false ∧ keepSamples * usec + threshold < truncMean) := by
  rw [reportOversleep]
  cases hvirt : setup.virtEnv with
  | true =>
      exact ⟨[.virtualised], rfl, fun report hreport => .inl (List.mem_singleton.mp hreport),
        by simp⟩
  | false =>
      simp only [Bool.false_eq_true, if_false, result_bind, result_checked,
        inLong_of_fits hproduct, inLong_of_fits htotal, Option.bind_some]
      by_cases hlong : truncMean > keepSamples * usec + threshold
      · obtain ⟨plot, hplot, hreports⟩ :=
          @result_plotWhen element nsamples (!setup.printFrequencyPlot)
        rw [if_pos hlong, result_bind, hplot]
        refine ⟨.sleptTooLong :: plot, rfl, fun report hreport => ?_, by simpa using hlong⟩
        rcases List.mem_cons.mp hreport with rfl | hreport
        · exact .inr (.inl rfl)
        · exact .inr (.inr (hreports report hreport))
      · rw [if_neg hlong]
        exact ⟨[], rfl, fun report hreport => absurd hreport List.not_mem_nil,
          by simpa using hlong⟩

end Reports

theorem length_of_mapM {α β : Type*} {f : α → Option β} {items : List α} {results : List β}
    (hresults : items.mapM f = some results) : results.length = items.length := by
  induction items generalizing results with
  | nil =>
      cases hresults
      rfl
  | cons item rest ih =>
      simp only [List.mapM_cons, Option.bind_eq_bind, Option.bind_eq_some_iff] at hresults
      obtain ⟨value, -, values, hvalues, hresults⟩ := hresults
      cases hresults
      rw [List.length_cons, ih hvalues, List.length_cons]

/-- As many samples as asked for are fewer than 2^31, as the loop counts them in an int. -/
theorem lt_of_takeSamples {sample : ℕ → Option ℤ} {nsamples : ℕ} {samples : List ℤ}
    (htaken : takeSamples sample nsamples = some samples) (hcount : samples.length = nsamples) :
    nsamples < 2 ^ 31 := by
  have hlength := length_of_mapM htaken
  rw [List.length_range, hcount] at hlength
  have hbound : toInt nsamples < 2 ^ 31 := Int.bmod_lt (by decide)
  omega

theorem length_kept (samples : List ℤ) :
    (kept samples).length = samples.length - computeDiscard samples.length := by
  rw [kept, List.length_drop, length_descending]

/-- Each kind of verdict comes from one part of the reports only. -/
theorem mem_reports {outliners early oversleep plot : List Report}
    {low high median mean keepSamples discard : ℤ}
    (houtliners : ∀ report ∈ outliners, ∃ count first last, report = .outliners count first last)
    (hearly : ∀ report ∈ early, ∃ count largest smallest,
      report = .wokenEarly count largest smallest)
    (hoversleep : ∀ report ∈ oversleep, report = .virtualised ∨ report = .sleptTooLong ∨
      report = .frequencyPlot)
    (hplot : ∀ report ∈ plot, report = .frequencyPlot) {reports : List Report}
    (hreports : reports = outliners ++ early ++
      [.summary low high median mean keepSamples discard] ++ oversleep ++ plot ++
      if early ≠ [] ∨ .sleptTooLong ∈ oversleep then [] else [.passed]) :
    (∀ count largest smallest, .wokenEarly count largest smallest ∈ reports ↔
        .wokenEarly count largest smallest ∈ early) ∧
      (.sleptTooLong ∈ reports ↔ .sleptTooLong ∈ oversleep) ∧
      (.passed ∈ reports ↔ early = [] ∧ .sleptTooLong ∉ oversleep) := by
  subst hreports
  simp only [List.mem_append, List.mem_singleton]
  refine ⟨fun count largest smallest => ?_, ?_, ?_⟩
  · grind
  · grind
  · grind

/-- What the part after the sort reports on samples in descending order. -/
theorem exists_judge {setup : Setup} {samples : List ℤ} {usec : ℤ} (outside : ℤ → ℤ)
    (hpos : 0 < samples.length) (hsmall : samples.length < 2 ^ 31)
    (hoverflow : NoOverflow setup usec samples) :
    ∃ reports, (judge setup (elements (descending samples) outside) usec samples.length).result =
        some reports ∧
      (∀ count largest smallest, .wokenEarly count largest smallest ∈ reports ↔
        1 ≤ count ∧ (samples.countP (· < usec) : ℤ) = count ∧
          IsGreatest {time | time ∈ samples ∧ time < usec} largest ∧
          IsLeast {time | time ∈ samples ∧ time < usec} smallest) ∧
      (.sleptTooLong ∈ reports ↔
        setup.virtEnv = false ∧ allowed setup usec samples < (kept samples).sum) ∧
      (.passed ∈ reports ↔ (∀ count largest smallest,
        .wokenEarly count largest smallest ∉ reports) ∧ .sleptTooLong ∉ reports) := by
  have hdiscard : computeDiscard samples.length ≤ samples.length := by
    rw [computeDiscard]
    split <;> omega
  have hkeep : u32 (samples.length - computeDiscard samples.length) = (kept samples).length := by
    rw [length_kept, u32, Int.emod_eq_of_lt (by omega) (by omega)]
    omega
  obtain ⟨outliners, houtliners, hkinds⟩ := @exists_reportOutliners
    (elements (descending samples) outside) (10 * usec) (u32 (3 * setup.monotonicResolution))
    samples.length
  obtain ⟨early, hearly, hwoken, hcounts⟩ := result_reportEarly samples outside usec
  have hsum : (sumLoop (elements (descending samples) outside) (samples.length -
      computeDiscard samples.length) (computeDiscard samples.length) 0).result =
      some (0 + (kept samples).sum) :=
    result_sumLoop (by rw [length_descending]; omega) (by simpa [kept] using hoverflow.sums)
  obtain ⟨oversleep, hoversleep, hslept, hlong⟩ := @result_reportOversleep setup
    (elements (descending samples) outside) samples.length (0 + (kept samples).sum) _ _ _
    hoverflow.product hoverflow.total
  obtain ⟨plot, hplot, hplots⟩ := @result_plotWhen (elements (descending samples) outside)
    samples.length setup.printFrequencyPlot
  simp only [judge, result_bind, result_writeToFile, Option.bind_some, result_checked,
    inLong_of_fits hoverflow.tenfold, houtliners, hearly, result_read, hsum, hkeep]
  rw [hoversleep, Option.bind_some, hplot, Option.bind_some]
  obtain ⟨hwokenIff, hsleptIff, hpassedIff⟩ := mem_reports hkinds hwoken hslept hplots rfl
  refine ⟨_, rfl, fun count largest smallest => ?_, ?_, ?_⟩
  · rw [hwokenIff, hcounts]
  · rw [hsleptIff, hlong, zero_add]
    rfl
  · rw [hpassedIff, hsleptIff]
    refine and_congr_left fun _ => ⟨?_, fun hnone => ?_⟩
    · rintro rfl count largest smallest hmem
      exact List.not_mem_nil ((hwokenIff _ _ _).mp hmem)
    · refine List.eq_nil_iff_forall_not_mem.mpr fun report hreport => ?_
      obtain ⟨count, largest, smallest, rfl⟩ := hwoken report hreport
      exact hnone count largest smallest ((hwokenIff _ _ _).mpr hreport)

/-- The verdict on samples that are close to each other. -/
theorem doTimerTest_verdict {setup : Setup}
    {qsort : (ℤ → ℤ → Option ℤ) → List ℤ → Option (List ℤ)} {outside : ℤ → ℤ}
    {sample : ℕ → Option ℤ} {usec : ℤ} {nsamples : ℕ} {samples : List ℤ} (hsorts : Sorts qsort)
    (hpos : 0 < nsamples) (htaken : takeSamples sample nsamples = some samples)
    (hcount : samples.length = nsamples)
    (hclose : ∀ a ∈ samples, ∀ b ∈ samples, |a - b| < 2 ^ 31)
    (hoverflow : NoOverflow setup usec samples) :
    ∃ reports, (doTimerTest setup qsort outside sample usec nsamples).result = some reports ∧
      (∀ count largest smallest, .wokenEarly count largest smallest ∈ reports ↔
        1 ≤ count ∧ (samples.countP (· < usec) : ℤ) = count ∧
          IsGreatest {time | time ∈ samples ∧ time < usec} largest ∧
          IsLeast {time | time ∈ samples ∧ time < usec} smallest) ∧
      (.sleptTooLong ∈ reports ↔
        setup.virtEnv = false ∧ allowed setup usec samples < (kept samples).sum) ∧
      (.passed ∈ reports ↔ (∀ count largest smallest,
        .wokenEarly count largest smallest ∉ reports) ∧ .sleptTooLong ∉ reports) := by
  obtain ⟨sorted, hqsort, hperm, hsorted⟩ := hsorts cmp samples (totalOn_cmp hclose)
  obtain rfl := sorted_eq_descending hclose hperm hsorted
  have hsmall := lt_of_takeSamples htaken hcount
  subst hcount
  obtain ⟨reports, hresult, hwoken, hslept, hpassed⟩ := exists_judge outside hpos hsmall hoverflow
  have hopening (report : Report) (hreport : ∀ usec nsamples threshold keepSamples,
      report ≠ .sleeping usec nsamples threshold keepSamples) :
      report ∈ opening setup usec samples.length :: reports ↔ report ∈ reports := by
    rw [List.mem_cons]
    exact or_iff_right (hreport _ _ _ _)
  refine ⟨opening setup usec samples.length :: reports, ?_, fun count largest smallest => ?_,
    ?_, ?_⟩
  · rw [doTimerTest_eq htaken rfl hqsort, result_bind, hresult]
    rfl
  · rw [hopening _ (by simp), hwoken]
  · rw [hopening _ (by simp), hslept]
  · simp only [hopening .passed (by simp), hopening .sleptTooLong (by simp), hpassed,
      fun count largest smallest => hopening (.wokenEarly count largest smallest) (by simp)]

theorem doTimerTest_verdict_early : ∃ qsort, Sorts qsort ∧ ∃ reports,
    (doTimerTest ⟨1, 50, false, false, false⟩ qsort (fun _ => 0)
      (fun i => some (if i = 0 then 7 else 3)) 5 2).result = some reports ∧
      .wokenEarly 1 3 3 ∈ reports ∧ .sleptTooLong ∉ reports := by
  obtain ⟨qsort, hsorts, -⟩ := exists_sorts_refusing (α := ℤ)
  have hoverflow : NoOverflow ⟨1, 50, false, false, false⟩ 5 [7, 3] := by
    refine ⟨by decide, fun count => ?_, by decide, by decide⟩
    rcases count with _ | count
    · decide
    · have hkept : (kept [7, 3]).take (count + 1) = [3] := by
        simp [kept, descending, computeDiscard]
      rw [hkept]
      decide
  obtain ⟨reports, hresult, hwoken, hslept, -⟩ := @doTimerTest_verdict
    ⟨1, 50, false, false, false⟩ qsort (fun _ => 0) (fun i => some (if i = 0 then 7 else 3)) 5 2
    [7, 3] hsorts (by decide) (by decide) rfl (by decide) hoverflow
  refine ⟨qsort, hsorts, reports, hresult, (hwoken 1 3 3).mpr ⟨by decide, by decide, ?_, ?_⟩, ?_⟩
  · exact ⟨by decide, by simp [upperBounds]⟩
  · exact ⟨by decide, by simp [lowerBounds]⟩
  · rw [hslept]
    decide

end GrapheneLtp.TimerTest
