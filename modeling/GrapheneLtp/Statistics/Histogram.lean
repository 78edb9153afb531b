import GrapheneLtp.Core.CheckedInt

/-!
# stats_hist

Three loops: one finds the range of the samples, one writes where each bucket
starts, one counts.  Their counters are ints, all else is a `long`.
-/

namespace GrapheneLtp.Histogram

open CheckedInt

/-- A record of a container.  Of a bucket, `x` is where it starts and `y` its count; of
a sample, `y` is its value. -/
structure Record where
  x : ℤ
  y : ℤ
  deriving DecidableEq, Repr

/-- The range of the samples from `i` on, with what was found before. -/
def rangeLoop (i min max : ℤ) : List Record → Option (ℤ × ℤ)
  | [] => some (min, max)
  | sample :: rest => do
    let max := if sample.y > max then sample.y else max
    let min := if sample.y < min then sample.y else min
    let next ← inInt (i + 1)
    rangeLoop next min max rest

/-- The starts of the buckets from `i` on. -/
def bucketLoop (min width i : ℤ) : List Record → Option (List Record)
  | [] => some []
  | bucket :: rest => do
    let distance ← inLong (i * width)
    let x ← inLong (min + distance)
    let next ← inInt (i + 1)
    let rest ← bucketLoop min width next rest
    return { bucket with x } :: rest

/-- One more sample in the bucket at `b`. -/
def tally : List Record → ℕ → Option (List Record)
  | [], _ => none
  | bucket :: rest, 0 => do
    let y ← inLong (bucket.y + 1)
    return { bucket with y } :: rest
  | bucket :: rest, b + 1 => do
    let rest ← tally rest b
    return bucket :: rest

/-- The same for an index of type `long`; there is no bucket below zero. -/
def tallyAt (hist : List Record) (b : ℤ) : Option (List Record) :=
  if 0 ≤ b then tally hist b.toNat else none

/-- The bucket of a sample at some distance from the minimum. -/
def bucketAt (distance width size : ℤ) : ℤ := min (distance.tdiv width) (size - 1)

/-- The counts after the samples from `i` on. -/
def fillLoop (min width i : ℤ) (hist : List Record) : List Record → Option (List Record)
  | [] => some hist
  | sample :: rest => do
    let distance ← inLong (sample.y - min)
    let b := bucketAt distance width hist.length
    let hist ← tallyAt hist b
    let next ← inInt (i + 1)
    fillLoop min width next hist rest

/-- The width of the buckets. -/
def bucketWidth (range size : ℤ) : ℤ := max (range.tdiv size) 1

/-- The return value and the histogram, from the records of both containers. -/
def statsHist (hist data : List Record) : Option (ℤ × List Record) :=
  match hist, data with
  | [], _ => some (-1, hist)
  | _ :: _, [] => some (-1, hist)
  | first :: buckets, sample :: _ => do
    let (min, max) ← rangeLoop 0 sample.y sample.y data
    let range ← inLong (max - min)
    let width := bucketWidth range hist.length
    let buckets ← bucketLoop min width 1 buckets
    let hist ← fillLoop min width 0 ({ first with x := min } :: buckets) data
    return (0, hist)

/-- What a histogram of the samples is.  The last bucket has no end. -/
structure IsHistogram (samples : List ℤ) (low : ℤ) (hist : List Record) : Prop where
  total : (hist.map (·.y)).sum = samples.length
  starts : hist.head?.map (·.x) = some low
  increasing : (hist.map (·.x)).Pairwise (· < ·)
  counts : ∀ index bucket, hist[index]? = some bucket →
    bucket.y = ((samples.countP fun sample =>
      bucket.x ≤ sample ∧ ∀ next ∈ hist[index + 1]?, sample < next.x : ℕ) : ℤ)

/-! ## The loops -/

section Loops

variable {i low high min width : ℤ} {hist data out : List Record}

/-- The counter of a loop that ran over a list stayed an int. -/
theorem length_lt_of_rangeLoop {found : ℤ × ℤ} (hne : data ≠ [])
    (hloop : rangeLoop i low high data = some found) : i + data.length < 2 ^ 31 := by
  induction data generalizing i low high with
  | nil => exact absurd rfl hne
  | cons sample rest ih =>
      simp only [rangeLoop, Option.bind_eq_bind, Option.bind_eq_some_iff,
        inInt_eq_some_iff] at hloop
      obtain ⟨_, ⟨hfits, rfl⟩, hloop⟩ := hloop
      rcases eq_or_ne rest [] with rfl | hrest
      · exact hfits.2
      · have hlength := ih hrest hloop
        rw [List.length_cons]
        push_cast
        omega

theorem exists_rangeLoop (hi : 0 ≤ i) (hlength : i + data.length < 2 ^ 31) :
    ∃ found, rangeLoop i low high data = some found := by
  induction data generalizing i low high with
  | nil => exact ⟨_, rfl⟩
  | cons sample rest ih =>
      rw [List.length_cons] at hlength
      push_cast at hlength
      have hnext : FitsInt (i + 1) := ⟨by omega, by omega⟩
      rw [rangeLoop, inInt, inType_of_fits hnext]
      exact ih (by omega) (by omega)

/-- What the first loop finds is the range of the samples and of the start values. -/
theorem rangeLoop_range {found : ℤ × ℤ} (hloop : rangeLoop i low high data = some found) :
    (found.1 = low ∨ found.1 ∈ data.map (·.y)) ∧ (found.2 = high ∨ found.2 ∈ data.map (·.y)) ∧
      found.1 ≤ low ∧ high ≤ found.2 ∧
      ∀ value ∈ data.map (·.y), found.1 ≤ value ∧ value ≤ found.2 := by
  induction data generalizing i low high with
  | nil =>
      cases hloop
      simp
  | cons sample rest ih =>
      simp only [rangeLoop, Option.bind_eq_bind, Option.bind_eq_some_iff] at hloop
      obtain ⟨_, -, hloop⟩ := hloop
      obtain ⟨hlow, hhigh, hbelow, habove, hrest⟩ := ih hloop
      simp only [List.map_cons, List.mem_cons, forall_eq_or_imp]
      refine ⟨?_, ?_, ?_, ?_, ⟨?_, ?_⟩, hrest⟩
      all_goals grind

/-- The second loop leaves the counts alone. -/
theorem bucketLoop_of_fits (hi : 0 ≤ i) (hlength : i + hist.length < 2 ^ 31)
    (hproduct : ∀ k : ℕ, k < hist.length → FitsLong ((i + k) * width))
    (hstart : ∀ k : ℕ, k < hist.length → FitsLong (min + (i + k) * width)) :
    bucketLoop min width i hist =
      some (hist.mapIdx fun k bucket => { bucket with x := min + (i + k) * width }) := by
  induction hist generalizing i with
  | nil => rfl
  | cons bucket rest ih =>
      simp only [List.length_cons, Nat.cast_add, Nat.cast_one] at hlength hproduct hstart
      have hnext : FitsInt (i + 1) := ⟨by omega, by omega⟩
      have hfirst := hproduct 0 (by omega)
      have hbegin := hstart 0 (by omega)
      simp only [Nat.cast_zero, add_zero] at hfirst hbegin
      have hshift (k : ℕ) : i + ((k + 1 : ℕ) : ℤ) = i + 1 + k := by
        push_cast
        ring
      have hrest := ih (i := i + 1) (by omega) (by omega)
        (fun k hk => hshift k ▸ hproduct (k + 1) (by omega))
        (fun k hk => hshift k ▸ hstart (k + 1) (by omega))
      simp only [bucketLoop, inLong_of_fits hfirst, inLong_of_fits hbegin, inInt,
        inType_of_fits hnext, Option.bind_eq_bind, Option.bind_some, hrest, List.mapIdx_cons,
        Nat.cast_zero, add_zero, hshift, Option.pure_def]

theorem fits_of_bucketLoop (hloop : bucketLoop min width i hist = some out) :
    (hist ≠ [] → i + hist.length < 2 ^ 31) ∧
      ∀ k : ℕ, k < hist.length → FitsLong (min + (i + k) * width) := by
  induction hist generalizing i out with
  | nil => exact ⟨fun hne => absurd rfl hne, fun k hk => absurd hk (Nat.not_lt_zero k)⟩
  | cons bucket rest ih =>
      simp only [bucketLoop, Option.bind_eq_bind, Option.bind_eq_some_iff, inInt_eq_some_iff,
        inLong, inType, Option.ite_none_right_eq_some, Option.some_inj] at hloop
      obtain ⟨_, ⟨-, rfl⟩, _, ⟨hstart, rfl⟩, _, ⟨hnext, rfl⟩, rest', hrest, -⟩ := hloop
      obtain ⟨hlength, hstarts⟩ := ih hrest
      refine ⟨fun _ => ?_, fun k hk => ?_⟩
      · rcases eq_or_ne rest [] with rfl | hne
        · exact hnext.2
        · have := hlength hne
          rw [List.length_cons]
          push_cast
          omega
      · cases k with
        | zero => simpa using hstart
        | succ k =>
            rw [List.length_cons] at hk
            have hshift : i + ((k + 1 : ℕ) : ℤ) = i + 1 + k := by
              push_cast
              ring
            exact hshift ▸ hstarts k (by omega)

theorem map_y_of_bucketLoop (hloop : bucketLoop min width i hist = some out) :
    out.map (·.y) = hist.map (·.y) := by
  induction hist generalizing i out with
  | nil =>
      cases hloop
      rfl
  | cons bucket rest ih =>
      simp only [bucketLoop, Option.bind_eq_bind, Option.bind_eq_some_iff] at hloop
      obtain ⟨_, -, _, -, _, -, rest', hrest, hout⟩ := hloop
      cases hout
      rw [List.map_cons, ih hrest, List.map_cons]

theorem tally_eq {b : ℕ} (hb : b < hist.length)
    (hcounts : ∀ bucket ∈ hist, FitsLong (bucket.y + 1)) :
    tally hist b = some (hist.mapIdx fun k bucket =>
      { bucket with y := bucket.y + if k = b then 1 else 0 }) := by
  induction hist generalizing b with
  | nil => exact absurd hb (Nat.not_lt_zero b)
  | cons bucket rest ih =>
      cases b with
      | zero =>
          have hrest : rest.mapIdx (fun _ bucket => bucket) = rest := by
            rw [List.mapIdx_eq_iff]
            simp
          simpa [tally, inLong_of_fits (hcounts bucket List.mem_cons_self)] using hrest.symm
      | succ b =>
          rw [tally, ih (Nat.lt_of_succ_lt_succ hb)
            fun other hother => hcounts other (List.mem_cons_of_mem _ hother)]
          simp

theorem sum_of_tally {b : ℕ} (htally : tally hist b = some out) :
    (out.map (·.y)).sum = (hist.map (·.y)).sum + 1 := by
  induction hist generalizing b out with
  | nil => cases htally
  | cons bucket rest ih =>
      cases b with
      | zero =>
          simp only [tally, Option.bind_eq_bind, Option.bind_eq_some_iff, inLong, inType,
            Option.ite_none_right_eq_some, Option.some_inj] at htally
          obtain ⟨_, ⟨-, rfl⟩, htally⟩ := htally
          cases htally
          simp only [List.map_cons, List.sum_cons]
          ring
      | succ b =>
          simp only [tally, Option.bind_eq_bind, Option.bind_eq_some_iff] at htally
          obtain ⟨rest', hrest, htally⟩ := htally
          cases htally
          simp only [List.map_cons, List.sum_cons, ih hrest]
          ring

/-- Every sample is counted once. -/
theorem sum_of_fillLoop (hloop : fillLoop min width i hist data = some out) :
    (out.map (·.y)).sum = (hist.map (·.y)).sum + data.length := by
  induction data generalizing i hist with
  | nil =>
      cases hloop
      simp
  | cons sample rest ih =>
      simp only [fillLoop, tallyAt, Option.bind_eq_bind, Option.bind_eq_some_iff,
        Option.ite_none_right_eq_some] at hloop
      obtain ⟨_, -, _, ⟨-, htally⟩, _, -, hloop⟩ := hloop
      rw [ih hloop, sum_of_tally htally, List.length_cons]
      push_cast
      ring

/-- The samples of one bucket. -/
def countAt (low width size : ℤ) (index : ℕ) (data : List Record) : ℕ :=
  data.countP fun sample => bucketAt (sample.y - low) width size = index

theorem bucketAt_mem {distance size : ℤ} (hdistance : 0 ≤ distance) (hwidth : 0 < width)
    (hsize : 0 < size) :
    0 ≤ bucketAt distance width size ∧ bucketAt distance width size < size := by
  have hquotient := Int.tdiv_nonneg hdistance hwidth.le
  rw [bucketAt]
  omega

theorem fillLoop_eq (hi : 0 ≤ i) (hlength : i + data.length < 2 ^ 31) (hwidth : 0 < width)
    (hne : hist ≠ []) (hdata : ∀ sample ∈ data, min ≤ sample.y ∧ FitsLong (sample.y - min))
    (hcounts : ∀ bucket ∈ hist, 0 ≤ bucket.y ∧ bucket.y + data.length < 2 ^ 63) :
    fillLoop min width i hist data = some (hist.mapIdx fun index bucket =>
      { bucket with y := bucket.y + countAt min width hist.length index data }) := by
  induction data generalizing i hist with
  | nil =>
      have hsame : hist.mapIdx (fun _ bucket => bucket) = hist := by
        rw [List.mapIdx_eq_iff]
        simp
      simpa [fillLoop, countAt] using hsame.symm
  | cons sample rest ih =>
      simp only [List.length_cons, Nat.cast_add, Nat.cast_one] at hlength hcounts
      obtain ⟨hmin, hdistance⟩ := hdata sample List.mem_cons_self
      have hsize : (0 : ℤ) < hist.length := by exact_mod_cast List.length_pos_of_ne_nil hne
      obtain ⟨hlow, hhigh⟩ := bucketAt_mem (sub_nonneg.mpr hmin) hwidth hsize
      have htally := @tally_eq hist
        (bucketAt (sample.y - min) width hist.length).toNat (by omega)
        fun bucket hbucket => ⟨by linarith [(hcounts bucket hbucket).1],
          by linarith [(hcounts bucket hbucket).2]⟩
      have hnext : FitsInt (i + 1) := ⟨by omega, by omega⟩
      simp only [fillLoop, tallyAt, inLong_of_fits hdistance, Option.bind_eq_bind, Option.bind_some,
        if_pos hlow, htally, inInt, inType_of_fits hnext]
      rw [ih (by omega) (by omega) (by simpa using hne)
        (fun other hother => hdata other (List.mem_cons_of_mem _ hother))]
      · rw [List.mapIdx_mapIdx, Option.some_inj]
        refine List.mapIdx_eq_mapIdx_iff.mpr fun index hindex => ?_
        simp only [Function.comp_apply, countAt, List.countP_cons, List.length_mapIdx,
          decide_eq_true_eq, Record.mk.injEq, true_and]
        grind
      · intro bucket hbucket
        obtain ⟨index, hindex, rfl⟩ := List.mem_mapIdx.mp hbucket
        have hold := hcounts _ (List.getElem_mem hindex)
        dsimp only
        split <;> omega

end Loops

/-! ## The histogram -/

section Result

variable {low high : ℤ} {hist data : List Record}

theorem bucketWidth_pos (range size : ℤ) : 0 < bucketWidth range size := by
  rw [bucketWidth]
  omega

/-- The whole histogram starts within the range of the samples, unless its buckets are
one wide. -/
theorem fits_start {size : ℤ} (hsize : 0 < size) (hrange : 0 ≤ high - low)
    (hdistance : FitsLong (high - low)) (hbound : size < 2 ^ 31) {index : ℤ} (hindex : 0 ≤ index)
    (hlast : index ≤ size - 1) : FitsLong (index * bucketWidth (high - low) size) := by
  have hstep : index * bucketWidth (high - low) size ≤
      (size - 1) * bucketWidth (high - low) size :=
    mul_le_mul_of_nonneg_right hlast (bucketWidth_pos _ _).le
  have hpositive := mul_nonneg hindex (bucketWidth_pos (high - low) size).le
  have htotal : (size - 1) * bucketWidth (high - low) size ≤ max (high - low) (size - 1) := by
    rw [bucketWidth, Int.tdiv_eq_ediv_of_nonneg hrange]
    rcases max_cases ((high - low) / size) 1 with ⟨heq, hge⟩ | ⟨heq, hlt⟩
    · rw [heq]
      have hdivided := Int.mul_ediv_self_le (x := high - low) hsize.ne'
      nlinarith [le_max_left (high - low) (size - 1)]
    · rw [heq, mul_one]
      exact le_max_right _ _
  have hhigh := hdistance.2
  exact ⟨by linarith, by omega⟩

theorem bucketAt_eq_iff {distance width size : ℤ} {index : ℕ} (hdistance : 0 ≤ distance)
    (hwidth : 0 < width) (hindex : (index : ℤ) < size) : bucketAt distance width size = index ↔
      index * width ≤ distance ∧ ((index : ℤ) + 1 < size → distance < (index + 1) * width) := by
  rw [bucketAt, Int.tdiv_eq_ediv_of_nonneg hdistance, ← Int.le_ediv_iff_mul_le hwidth,
    ← Int.ediv_lt_iff_lt_mul hwidth]
  omega

/-- The histogram with every count and start filled in. -/
def filled (low width : ℤ) (hist data : List Record) : List Record :=
  hist.mapIdx fun index _ =>
    ⟨low + index * width, countAt low width hist.length index data⟩

theorem getElem?_filled {width : ℤ} {index : ℕ} : (filled low width hist data)[index]? =
    if index < hist.length then
      some ⟨low + index * width, countAt low width hist.length index data⟩ else none := by
  rw [filled, List.getElem?_mapIdx]
  split
  · rename_i hindex
    rw [List.getElem?_eq_getElem hindex]
    rfl
  · rename_i hindex
    rw [List.getElem?_eq_none (not_lt.mp hindex)]
    rfl

theorem rangeLoop_extremes {sample : Record} {rest : List Record} {found : ℤ × ℤ}
    (hlow : IsLeast {value | value ∈ (sample :: rest).map (·.y)} low)
    (hhigh : IsGreatest {value | value ∈ (sample :: rest).map (·.y)} high)
    (hloop : rangeLoop 0 sample.y sample.y (sample :: rest) = some found) :
    found = (low, high) := by
  obtain ⟨hleast, hgreatest, -, -, hbounds⟩ := rangeLoop_range hloop
  have hfirst : sample.y ∈ (sample :: rest).map (·.y) := List.mem_cons_self
  have hmin : IsLeast {value | value ∈ (sample :: rest).map (·.y)} found.1 :=
    ⟨hleast.elim (fun heq => heq ▸ hfirst) id, fun value hvalue => (hbounds value hvalue).1⟩
  have hmax : IsGreatest {value | value ∈ (sample :: rest).map (·.y)} found.2 :=
    ⟨hgreatest.elim (fun heq => heq ▸ hfirst) id, fun value hvalue => (hbounds value hvalue).2⟩
  exact Prod.ext (hmin.unique hlow) (hmax.unique hhigh)

theorem sum_of_statsHist {out : List Record} (hzero : ∀ bucket ∈ hist, bucket.y = 0)
    (hresult : statsHist hist data = some (0, out)) : (out.map (·.y)).sum = data.length := by
  match hist, data, hresult with
  | first :: buckets, sample :: rest, hresult =>
      simp only [statsHist, Option.bind_eq_bind, Option.bind_eq_some_iff] at hresult
      obtain ⟨_, -, _, -, starts, hstarts, filled, hfill, hout⟩ := hresult
      cases hout
      have hnone : ((first :: buckets).map (·.y)).sum = 0 :=
        List.sum_eq_zero (by simpa using hzero)
      rw [sum_of_fillLoop hfill, List.map_cons, map_y_of_bucketLoop hstarts]
      rw [List.map_cons] at hnone
      rw [hnone, zero_add]

variable (hhist : hist ≠ []) (hdata : data ≠ [])
  (hlow : IsLeast {value | value ∈ data.map (·.y)} low)
  (hhigh : IsGreatest {value | value ∈ data.map (·.y)} high)

include hhist hdata hlow hhigh

/-- What the code has gone through when it returns. -/
theorem statsHist_cases {result : ℤ × List Record} (hlong : FitsLong low)
    (hresult : statsHist hist data = some result) :
    data.length < 2 ^ 31 ∧ hist.length < 2 ^ 31 ∧
      FitsLong (low + (hist.length - 1) * bucketWidth (high - low) hist.length) := by
  obtain ⟨first, buckets, rfl⟩ := List.exists_cons_of_ne_nil hhist
  obtain ⟨sample, rest, rfl⟩ := List.exists_cons_of_ne_nil hdata
  simp only [statsHist, Option.bind_eq_bind, Option.bind_eq_some_iff] at hresult
  obtain ⟨found, hloop, _, hdistance, starts, hstarts, -⟩ := hresult
  have hlength := length_lt_of_rangeLoop hdata hloop
  obtain rfl := rangeLoop_extremes hlow hhigh hloop
  simp only [inLong, inType, Option.ite_none_right_eq_some, Option.some_inj] at hdistance
  obtain ⟨-, rfl⟩ := hdistance
  obtain ⟨hcounter, hfits⟩ := fits_of_bucketLoop hstarts
  refine ⟨by omega, ?_, ?_⟩
  · rcases eq_or_ne buckets [] with rfl | hne
    · simp
    · have hbound := hcounter hne
      rw [List.length_cons]
      omega
  · cases hbuckets : buckets.length with
    | zero => simpa [hbuckets] using hlong
    | succ last =>
        have hlast := hfits last (by omega)
        rw [List.length_cons, hbuckets] at hlast ⊢
        push_cast at hlast ⊢
        rwa [add_sub_cancel_right, ← add_comm 1 (last : ℤ)] at *

theorem statsHist_eq (hzero : ∀ bucket ∈ hist, bucket.y = 0) (hlong : FitsLong low)
    (hrange : FitsLong (high - low))
    (hsamples : data.length < 2 ^ 31) (hsize : hist.length < 2 ^ 31)
    (hstart : FitsLong (low + (hist.length - 1) * bucketWidth (high - low) hist.length)) :
    statsHist hist data =
      some (0, filled low (bucketWidth (high - low) hist.length) hist data) := by
  obtain ⟨first, buckets, rfl⟩ := List.exists_cons_of_ne_nil hhist
  obtain ⟨sample, rest, rfl⟩ := List.exists_cons_of_ne_nil hdata
  obtain ⟨found, hloop⟩ := @exists_rangeLoop 0 sample.y sample.y (sample :: rest) le_rfl
    (by omega)
  obtain rfl := rangeLoop_extremes hlow hhigh hloop
  simp only [statsHist, hloop, Option.bind_eq_bind, Option.bind_some, inLong_of_fits hrange]
  have hsize' : ((first :: buckets).length : ℤ) = buckets.length + 1 := by simp
  have hwidth := bucketWidth_pos (high - low) (first :: buckets).length
  have hleast : low ≤ high := hhigh.2 hlow.1
  have hproduct (k : ℕ) (hk : k < buckets.length) : FitsLong
      ((1 + k) * bucketWidth (high - low) (first :: buckets).length) :=
    fits_start (by omega) (by omega) hrange (by omega) (by omega) (by omega)
  have hstarts (k : ℕ) (hk : k < buckets.length) : FitsLong
      (low + (1 + k) * bucketWidth (high - low) (first :: buckets).length) := by
    refine hlong.of_le hstart ⟨?_, ?_⟩
    · nlinarith
    · have hstep : (1 + (k : ℤ)) ≤ (first :: buckets).length - 1 := by omega
      linarith [mul_le_mul_of_nonneg_right hstep hwidth.le]
  generalize hw : bucketWidth (high - low) (first :: buckets).length = width at *
  rw [bucketLoop_of_fits (by omega) (by omega) hproduct hstarts, Option.bind_some,
    fillLoop_eq le_rfl (by omega) hwidth (List.cons_ne_nil _ _)]
  · simp only [Option.bind_some, filled, List.mapIdx_cons, List.mapIdx_mapIdx, List.length_cons,
      List.length_mapIdx, Option.pure_def, hzero first List.mem_cons_self, zero_add,
      Nat.cast_zero, zero_mul, add_zero]
    refine congrArg (fun tail => some (0, _ :: tail))
      (List.mapIdx_eq_mapIdx_iff.mpr fun k hk => ?_)
    simp only [Function.comp_apply, hzero _ (List.mem_cons_of_mem _ (List.getElem_mem hk)),
      zero_add, Nat.cast_add, Nat.cast_one, add_comm (k : ℤ) 1]
  · intro other hother
    have hvalue : other.y ∈ (sample :: rest).map (·.y) := List.mem_map_of_mem hother
    have hbelow := hlow.2 hvalue
    have habove := hhigh.2 hvalue
    exact ⟨hbelow, by have := hrange.2; omega, by have := hrange.2; omega⟩
  · intro bucket hbucket
    have hcount : bucket.y = 0 := by
      rcases List.mem_cons.mp hbucket with rfl | hbucket
      · exact hzero first List.mem_cons_self
      · obtain ⟨k, hk, rfl⟩ := List.mem_mapIdx.mp hbucket
        exact hzero buckets[k] (List.mem_cons_of_mem _ (List.getElem_mem hk))
    omega

omit hhist hdata hhigh in
theorem isHistogram_filled {width : ℤ} (hhist : hist ≠ []) (hwidth : 0 < width)
    (htotal : ((filled low width hist data).map (·.y)).sum = data.length) :
    IsHistogram (data.map (·.y)) low (filled low width hist data) := by
  have hmono {left right : ℕ} (hlt : left < right) :
      low + left * width < low + right * width :=
    add_lt_add_right (mul_lt_mul_of_pos_right (by exact_mod_cast hlt) hwidth) low
  refine ⟨?_, ?_, ?_, fun index bucket hbucket => ?_⟩
  · rw [htotal, List.length_map]
  · rw [List.head?_eq_getElem?, getElem?_filled, if_pos (List.length_pos_of_ne_nil hhist)]
    simp
  · rw [List.pairwise_map, List.pairwise_iff_getElem]
    intro left right hleft hright hlt
    simp only [filled, List.getElem_mapIdx]
    exact hmono hlt
  · rw [getElem?_filled, Option.ite_none_right_eq_some, Option.some_inj] at hbucket
    obtain ⟨hindex, rfl⟩ := hbucket
    rw [countAt, List.countP_map, Nat.cast_inj]
    refine List.countP_congr fun sample hsample => ?_
    have hbelow : low ≤ sample.y := hlow.2 (List.mem_map_of_mem hsample)
    simp only [decide_eq_true_eq, Function.comp_apply, getElem?_filled,
      bucketAt_eq_iff (sub_nonneg.mpr hbelow) hwidth (Nat.cast_lt.mpr hindex)]
    refine and_congr (by constructor <;> intro <;> linarith) ?_
    by_cases hnext : index + 1 < hist.length
    · have hcast : (index : ℤ) + 1 < hist.length := by exact_mod_cast hnext
      simp only [hnext, hcast, if_true, Option.mem_some_iff, forall_eq', forall_const,
        Nat.cast_add, Nat.cast_one]
      constructor <;> intro <;> linarith
    · have hcast : ¬(index : ℤ) + 1 < hist.length := by exact_mod_cast hnext
      simp [hnext, hcast]

/-- The histogram is right if and only if the counters and the start of the last bucket
do not overflow. -/
theorem statsHist_isHistogram_iff (hzero : ∀ bucket ∈ hist, bucket.y = 0)
    (hlong : ∀ value ∈ data.map (·.y), FitsLong value) (hrange : FitsLong (high - low)) :
    (∃ out, statsHist hist data = some (0, out) ∧ out.length = hist.length ∧
        IsHistogram (data.map (·.y)) low out) ↔
      data.length < 2 ^ 31 ∧ hist.length < 2 ^ 31 ∧
        FitsLong (low + (hist.length - 1) * bucketWidth (high - low) hist.length) := by
  constructor
  · rintro ⟨out, hresult, -⟩
    exact statsHist_cases hhist hdata hlow hhigh (hlong low hlow.1) hresult
  · rintro ⟨hsamples, hsize, hstart⟩
    have hresult := statsHist_eq hhist hdata hlow hhigh hzero (hlong low hlow.1) hrange hsamples
      hsize hstart
    refine ⟨_, hresult, List.length_mapIdx, isHistogram_filled hlow hhist (bucketWidth_pos _ _)
      (sum_of_statsHist hzero hresult)⟩

end Result

theorem statsHist_isHistogram_iff_three : ∃ out,
    statsHist [⟨0, 0⟩, ⟨0, 0⟩] [⟨0, 7⟩, ⟨1, 1⟩, ⟨2, 4⟩] = some (0, out) ∧ out.length = 2 ∧
      IsHistogram [7, 1, 4] 1 out :=
  (@statsHist_isHistogram_iff 1 7 [⟨0, 0⟩, ⟨0, 0⟩] [⟨0, 7⟩, ⟨1, 1⟩, ⟨2, 4⟩]
    (by decide) (by decide) ⟨by decide, by simp [lowerBounds]⟩ ⟨by decide, by simp [upperBounds]⟩
    (by decide) (by decide) (by decide)).mpr (by decide)

/-- The second bucket of a histogram of the largest `long` starts beyond all longs. -/
theorem statsHist_largest_overflows :
    statsHist [⟨0, 0⟩, ⟨0, 0⟩] [⟨0, 9223372036854775807⟩] = none := by
  decide

end GrapheneLtp.Histogram
