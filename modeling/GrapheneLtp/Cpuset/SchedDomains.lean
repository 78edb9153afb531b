import GrapheneLtp.Cpuset.Partition

/-!
# check_sched_domains

Every CPU of every domain is visited, until one is found whose scheduler domain
is not the right one.  A CPU of a larger domain that has no scheduler domain at
all is compared like the others, through a null pointer.
-/

namespace GrapheneLtp.Cpuset

variable {nbits : ℕ}

def bitmaskEqual (bmp1 bmp2 : Bitmask nbits) : Bool :=
  (List.range nbits).all fun i => bmp1.getLsbD i == bmp2.getLsbD i

def bitmaskWeight (bmp : Bitmask nbits) : ℕ := (List.range nbits).countP bmp.getLsbD

/-- The set bits from an index on. -/
def bitsFrom (bmp : Bitmask nbits) (i : ℕ) : List ℕ :=
  (List.range' i (nbits - i)).filter bmp.getLsbD

/-- The next set bit at or above an index. -/
def bitmaskNext (bmp : Bitmask nbits) (i : ℕ) : ℕ := (bitsFrom bmp i).head?.getD (max i nbits)

/-- What is reported. -/
inductive Failure (nbits : ℕ) where
  /-- "cpu%d's sched domain is not NULL(Domain: %s, CPU's Sched Domain: %s)." -/
  | notNull (cpu : ℕ) (domain schedDomain : Bitmask nbits)
  /-- "cpu%d's sched domain is wrong(Domain: %s, CPU's Sched Domain: %s)." -/
  | wrong (cpu : ℕ) (domain schedDomain : Bitmask nbits)
  /-- "cpu%d has redundant sched domain" -/
  | redundant (cpu : ℕ)
  deriving DecidableEq, Repr

/-- TPASS, TFAIL, or the use of a null pointer. -/
inductive Outcome (nbits : ℕ) where
  | passed
  | failed (failure : Failure nbits)
  | crashed
  deriving DecidableEq, Repr

/-- How the loop over the CPUs of a domain goes on. -/
inductive Visit (nbits : ℕ) where
  | next
  | done
  | stop (outcome : Outcome nbits)

section Check

variable (schedDomain : ℕ → Option (Bitmask nbits))

def visit (domain : Bitmask nbits) (cpu : ℕ) : Visit nbits :=
  if bitmaskWeight domain = 1 then
    match schedDomain cpu with
    | some other => .stop (.failed (.notNull cpu domain other))
    | none => .done
  else
    match schedDomain cpu with
    | some other =>
      if bitmaskEqual domain other then .next else .stop (.failed (.wrong cpu domain other))
    | none => .stop .crashed

theorem le_bitmaskNext (bmp : Bitmask nbits) (i : ℕ) : i ≤ bitmaskNext bmp i := by
  rw [bitmaskNext]
  cases hbits : bitsFrom bmp i with
  | nil => exact le_max_left _ _
  | cons first rest =>
      have hfirst : first ∈ bitsFrom bmp i := hbits ▸ List.mem_cons_self
      simp only [bitsFrom, List.mem_filter, List.mem_range'_1] at hfirst
      exact hfirst.1.1

/-- The loop over the CPUs of a domain; `none` when nothing was found. -/
def cpuLoop (domain : Bitmask nbits) (cpu : ℕ) : Option (Outcome nbits) :=
  if cpu < nbits then
    match visit schedDomain domain cpu with
    | .next => cpuLoop domain (bitmaskNext domain (cpu + 1))
    | .done => none
    | .stop outcome => some outcome
  else none
termination_by nbits - cpu
decreasing_by
  have hnext := le_bitmaskNext domain (cpu + 1)
  omega

/-- The last loop, over the CPUs that are in no domain. -/
def sweep (ncpus : ℕ) (alldomains : Bitmask nbits) : Outcome nbits :=
  match (List.range ncpus).find? fun i => !alldomains.getLsbD i && (schedDomain i).isSome with
  | some cpu => .failed (.redundant cpu)
  | none => .passed

def domainLoop (ncpus : ℕ) (alldomains : Bitmask nbits) : List (Bitmask nbits) → Outcome nbits
  | [] => sweep schedDomain ncpus alldomains
  | domain :: rest =>
    match cpuLoop schedDomain domain (bitmaskNext domain 0) with
    | some outcome => outcome
    | none => domainLoop ncpus (bitmaskOr alldomains domain) rest

/-- The check of the domains, with the scheduler domain of each CPU if it has one. -/
def checkSchedDomains (ncpus : ℕ) (domains : List (Bitmask nbits)) : Outcome nbits :=
  domainLoop schedDomain ncpus (BitVec.ofNat nbits 0) domains

/-- Every CPU has the scheduler domain that it should have. -/
structure Right (ncpus : ℕ) (domains : List (Bitmask nbits)) : Prop where
  same : ∀ domain ∈ domains, 2 ≤ bitmaskWeight domain →
    ∀ cpu, Has domain cpu → schedDomain cpu = some domain
  none : ∀ cpu < ncpus, (∀ domain ∈ domains, 2 ≤ bitmaskWeight domain → ¬Has domain cpu) →
    schedDomain cpu = none

/-- The CPUs in the order of their visits, with their domains. -/
def visits (domains : List (Bitmask nbits)) : List (Bitmask nbits × ℕ) :=
  domains.flatMap fun domain => (bitsFrom domain 0).map fun cpu => (domain, cpu)

/-- The scheduler domain of a visited CPU is not the right one. -/
def Bad (place : Bitmask nbits × ℕ) : Bool :=
  if bitmaskWeight place.1 = 1 then (schedDomain place.2).isSome
  else schedDomain place.2 ≠ some place.1

/-- What comes of a visit to a wrong scheduler domain. -/
def outcomeAt (place : Bitmask nbits × ℕ) : Outcome nbits :=
  match schedDomain place.2 with
  | none => .crashed
  | some other =>
    if bitmaskWeight place.1 = 1 then .failed (.notNull place.2 place.1 other)
    else .failed (.wrong place.2 place.1 other)

end Check

/-! ## The loops -/

section Loops

variable {schedDomain : ℕ → Option (Bitmask nbits)} {domain : Bitmask nbits}

theorem bitmaskEqual_iff {bmp1 bmp2 : Bitmask nbits} :
    bitmaskEqual bmp1 bmp2 = true ↔ bmp1 = bmp2 := by
  simp only [bitmaskEqual, List.all_eq_true, List.mem_range, beq_iff_eq]
  exact ⟨BitVec.eq_of_getLsbD_eq, fun heq i _ => heq ▸ rfl⟩

theorem mem_bitsFrom {bmp : Bitmask nbits} {i cpu : ℕ} :
    cpu ∈ bitsFrom bmp i ↔ i ≤ cpu ∧ Has bmp cpu := by
  simp only [bitsFrom, List.mem_filter, List.mem_range'_1, Has]
  refine ⟨fun h => ⟨h.1.1, h.2⟩, fun h => ⟨⟨h.1, ?_⟩, h.2⟩⟩
  have hlt := BitVec.lt_of_getLsbD h.2
  omega

theorem bitmaskWeight_eq (bmp : Bitmask nbits) : bitmaskWeight bmp = (bitsFrom bmp 0).length := by
  rw [bitmaskWeight, bitsFrom, List.countP_eq_length_filter, List.range_eq_range', Nat.sub_zero]

theorem bitsFrom_of_lt {bmp : Bitmask nbits} {i : ℕ} (hi : i < nbits) : bitsFrom bmp i =
    if bmp.getLsbD i then i :: bitsFrom bmp (i + 1) else bitsFrom bmp (i + 1) := by
  have hlength : nbits - i = (nbits - (i + 1)) + 1 := by omega
  rw [bitsFrom, hlength, List.range'_succ, List.filter_cons]
  rfl

/-- The first set bit, and the ones after it. -/
theorem bitsFrom_tail {bmp : Bitmask nbits} {i first : ℕ} {rest : List ℕ}
    (hbits : bitsFrom bmp i = first :: rest) : first < nbits ∧ bitsFrom bmp (first + 1) = rest := by
  induction hleft : nbits - i generalizing i with
  | zero =>
      rw [bitsFrom, hleft] at hbits
      cases hbits
  | succ left ih =>
      rw [bitsFrom_of_lt (by omega)] at hbits
      split at hbits
      · cases hbits
        exact ⟨by omega, rfl⟩
      · exact ih hbits (by omega)

/-- A visit stops exactly at a wrong scheduler domain. -/
theorem visit_eq (domain : Bitmask nbits) (cpu : ℕ) : visit schedDomain domain cpu =
    if Bad schedDomain (domain, cpu) = true then .stop (outcomeAt schedDomain (domain, cpu))
    else if bitmaskWeight domain = 1 then .done else .next := by
  simp only [visit, Bad, outcomeAt]
  by_cases hweight : bitmaskWeight domain = 1
  · cases schedDomain cpu <;> simp [hweight]
  · cases hsched : schedDomain cpu with
    | none => simp [hweight]
    | some other =>
        obtain rfl | hequal := eq_or_ne domain other
        · simp [hweight, bitmaskEqual_iff]
        · simp [hweight, Ne.symm hequal, mt bitmaskEqual_iff.mp hequal]

/-- The loop stops at the first wrong scheduler domain among the set bits. -/
theorem cpuLoop_eq (domain : Bitmask nbits) (i : ℕ) :
    cpuLoop schedDomain domain (bitmaskNext domain i) =
      (((bitsFrom domain i).map fun cpu => (domain, cpu)).find? (Bad schedDomain)).map
        (outcomeAt schedDomain) := by
  induction hbits : bitsFrom domain i generalizing i with
  | nil =>
      rw [cpuLoop, bitmaskNext, hbits, if_neg (by simp)]
      rfl
  | cons first rest ih =>
      obtain ⟨hfirst, htail⟩ := bitsFrom_tail hbits
      have hnext : bitmaskNext domain i = first := by rw [bitmaskNext, hbits]; rfl
      rw [hnext, cpuLoop, if_pos hfirst, visit_eq, List.map_cons, List.find?_cons]
      by_cases hbad : Bad schedDomain (domain, first) = true
      · simp [hbad]
      · by_cases hweight : bitmaskWeight domain = 1
        · -- The only CPU of its domain: there is nothing left to visit.
          have hrest : rest = [] := by
            rw [bitmaskWeight_eq, List.length_eq_one_iff] at hweight
            obtain ⟨only, honly⟩ := hweight
            have hsingle {cpu : ℕ} (hcpu : Has domain cpu) : cpu = only := by
              have hmem := mem_bitsFrom.mpr ⟨Nat.zero_le cpu, hcpu⟩
              rwa [honly, List.mem_singleton] at hmem
            have hhas : Has domain first := (mem_bitsFrom.mp (hbits ▸ List.mem_cons_self)).2
            refine List.eq_nil_iff_forall_not_mem.mpr fun second hsecond => ?_
            obtain ⟨hlater, hother⟩ := mem_bitsFrom.mp (htail ▸ hsecond)
            have hsame := (hsingle hhas).trans (hsingle hother).symm
            omega
          simp [hbad, hweight, hrest]
        · simp only [hbad, hweight, if_false]
          exact ih (first + 1) htail

theorem domainLoop_eq (ncpus : ℕ) (domains : List (Bitmask nbits)) (alldomains : Bitmask nbits) :
    domainLoop schedDomain ncpus alldomains domains =
      (((visits domains).find? (Bad schedDomain)).map (outcomeAt schedDomain)).getD
        (sweep schedDomain ncpus (domains.foldl bitmaskOr alldomains)) := by
  induction domains generalizing alldomains with
  | nil => rfl
  | cons domain rest ih =>
      have hvisits : visits (domain :: rest) =
          (bitsFrom domain 0).map (fun cpu => (domain, cpu)) ++ visits rest := rfl
      rw [domainLoop, cpuLoop_eq, hvisits, List.find?_append]
      cases ((bitsFrom domain 0).map fun cpu => (domain, cpu)).find? (Bad schedDomain) with
      | none => simp [ih]
      | some place => simp

theorem has_foldl {domains : List (Bitmask nbits)} {alldomains : Bitmask nbits} {cpu : ℕ} :
    Has (domains.foldl bitmaskOr alldomains) cpu ↔
      Has alldomains cpu ∨ ∃ domain ∈ domains, Has domain cpu := by
  induction domains generalizing alldomains with
  | nil => simp
  | cons domain rest ih => simp [ih, has_bitmaskOr, or_assoc]

theorem mem_visits {domains : List (Bitmask nbits)} {place : Bitmask nbits × ℕ} :
    place ∈ visits domains ↔ place.1 ∈ domains ∧ Has place.1 place.2 := by
  obtain ⟨domain, cpu⟩ := place
  simp only [visits, List.mem_flatMap, List.mem_map, mem_bitsFrom, Prod.mk.injEq]
  constructor
  · rintro ⟨other, hother, visited, ⟨-, hhas⟩, rfl, rfl⟩
    exact ⟨hother, hhas⟩
  · rintro ⟨hdomain, hhas⟩
    exact ⟨domain, hdomain, cpu, ⟨Nat.zero_le cpu, hhas⟩, rfl, rfl⟩

theorem sweep_cases (ncpus : ℕ) (alldomains : Bitmask nbits) :
    (sweep schedDomain ncpus alldomains = .passed ∧
        ∀ cpu < ncpus, ¬Has alldomains cpu → schedDomain cpu = none) ∨
      ∃ cpu < ncpus, sweep schedDomain ncpus alldomains = .failed (.redundant cpu) ∧
        ¬Has alldomains cpu ∧ schedDomain cpu ≠ none := by
  rw [sweep]
  cases hfind : (List.range ncpus).find? fun i =>
      !alldomains.getLsbD i && (schedDomain i).isSome with
  | none =>
      refine .inl ⟨rfl, fun cpu hcpu hout => ?_⟩
      have hnone := List.find?_eq_none.mp hfind cpu (List.mem_range.mpr hcpu)
      simpa [Bool.eq_false_iff.mpr hout] using hnone
  | some cpu =>
      have hcpu := List.mem_range.mp (List.mem_of_find?_eq_some hfind)
      have hfound := List.find?_some hfind
      simp only [Bool.and_eq_true, Bool.not_eq_true'] at hfound
      exact .inr ⟨cpu, hcpu, rfl, Bool.eq_false_iff.mp hfound.1,
        Option.isSome_iff_ne_none.mp hfound.2⟩

end Loops

section Verdict

variable {schedDomain : ℕ → Option (Bitmask nbits)} {ncpus : ℕ} {domains : List (Bitmask nbits)}

theorem not_bad_iff {place : Bitmask nbits × ℕ} : Bad schedDomain place = false ↔
    schedDomain place.2 = if bitmaskWeight place.1 = 1 then none else some place.1 := by
  rw [Bad]
  split <;> simp

theorem weight_pos {domain : Bitmask nbits} {cpu : ℕ} (hcpu : Has domain cpu) :
    0 < bitmaskWeight domain := by
  rw [bitmaskWeight_eq]
  exact List.length_pos_of_mem (mem_bitsFrom.mpr ⟨Nat.zero_le cpu, hcpu⟩)

/-- All is right when no visited CPU is wrong and no other CPU has a scheduler domain. -/
theorem right_iff (hbelow : ∀ domain ∈ domains, ∀ cpu, Has domain cpu → cpu < ncpus)
    (hdisjoint : domains.Pairwise fun a b => ∀ cpu, ¬(Has a cpu ∧ Has b cpu)) :
    Right schedDomain ncpus domains ↔
      (∀ place ∈ visits domains, Bad schedDomain place = false) ∧
        ∀ cpu < ncpus, (∀ domain ∈ domains, ¬Has domain cpu) → schedDomain cpu = none := by
  constructor
  · rintro ⟨hsame, hnone⟩
    refine ⟨fun place hplace => not_bad_iff.mpr ?_, fun cpu hcpu hout =>
      hnone cpu hcpu fun domain hdomain _ => hout domain hdomain⟩
    obtain ⟨hdomain, hhas⟩ := mem_visits.mp hplace
    split
    · rename_i hweight
      refine hnone _ (hbelow _ hdomain _ hhas) fun other hother hlarge hboth => ?_
      have hne : place.1 ≠ other := fun heq => by
        rw [heq] at hweight
        omega
      have hsymm : Std.Symm fun a b : Bitmask nbits => ∀ cpu, ¬(Has a cpu ∧ Has b cpu) :=
        ⟨fun a b hab cpu hba => hab cpu hba.symm⟩
      exact hdisjoint.forall hdomain hother hne place.2 ⟨hhas, hboth⟩
    · rename_i hweight
      have hpositive := weight_pos hhas
      exact hsame place.1 hdomain (by omega) place.2 hhas
  · rintro ⟨hgood, hout⟩
    refine ⟨fun domain hdomain hlarge cpu hcpu => ?_, fun cpu hcpu hnone => ?_⟩
    · have hplace := not_bad_iff.mp (hgood (domain, cpu) (mem_visits.mpr ⟨hdomain, hcpu⟩))
      rwa [if_neg (by dsimp only; omega)] at hplace
    · by_cases hin : ∃ domain ∈ domains, Has domain cpu
      · obtain ⟨domain, hdomain, hhas⟩ := hin
        have hplace := not_bad_iff.mp (hgood (domain, cpu) (mem_visits.mpr ⟨hdomain, hhas⟩))
        have hpositive := weight_pos hhas
        have hsmall : ¬2 ≤ bitmaskWeight domain := fun hlarge => hnone domain hdomain hlarge hhas
        rwa [if_pos (by dsimp only; omega)] at hplace
      · exact hout cpu hcpu fun domain hdomain hhas => hin ⟨domain, hdomain, hhas⟩

theorem outcomeAt_cases (schedDomain : ℕ → Option (Bitmask nbits)) (place : Bitmask nbits × ℕ) :
    (schedDomain place.2 = none ∧ outcomeAt schedDomain place = .crashed) ∨
      (schedDomain place.2 ≠ none ∧ ∃ failure, outcomeAt schedDomain place = .failed failure) := by
  cases hsched : schedDomain place.2 with
  | none => exact .inl ⟨rfl, by rw [outcomeAt, hsched]⟩
  | some other =>
      refine .inr ⟨Option.some_ne_none _, ?_⟩
      by_cases hweight : bitmaskWeight place.1 = 1
      · exact ⟨.notNull place.2 place.1 other, by simp [outcomeAt, hsched, hweight]⟩
      · exact ⟨.wrong place.2 place.1 other, by simp [outcomeAt, hsched, hweight]⟩

/-- The verdict is right, and no null pointer is used, if and only if the first visited
CPU with a wrong scheduler domain, if there is one, is not without any. -/
theorem checkSchedDomains_iff
    (hbelow : ∀ domain ∈ domains, ∀ cpu, Has domain cpu → cpu < ncpus)
    (hdisjoint : domains.Pairwise fun a b => ∀ cpu, ¬(Has a cpu ∧ Has b cpu)) :
    ((checkSchedDomains schedDomain ncpus domains = .passed ↔ Right schedDomain ncpus domains) ∧
        ((∃ failure, checkSchedDomains schedDomain ncpus domains = .failed failure) ↔
          ¬Right schedDomain ncpus domains) ∧
        checkSchedDomains schedDomain ncpus domains ≠ .crashed) ↔
      ∀ domain cpu, (visits domains).find? (Bad schedDomain) = some (domain, cpu) →
        schedDomain cpu ≠ none := by
  rw [right_iff hbelow hdisjoint, checkSchedDomains, domainLoop_eq]
  cases hfind : (visits domains).find? (Bad schedDomain) with
  | some place =>
      have hbad : ¬∀ place ∈ visits domains, Bad schedDomain place = false := fun hall => by
        have hgood := hall place (List.mem_of_find?_eq_some hfind)
        rw [List.find?_some hfind] at hgood
        cases hgood
      simp only [hbad, false_and, Option.map_some, Option.getD_some, Option.some_inj]
      rcases outcomeAt_cases schedDomain place with ⟨hnone, hcrash⟩ | ⟨hsome, failure, hfail⟩
      · rw [hcrash]
        exact iff_of_false (fun hright => hright.2.2 rfl) fun hall => hall _ _ rfl hnone
      · rw [hfail]
        refine iff_of_true ⟨by simp, by simp, by simp⟩ fun domain cpu heq => ?_
        rwa [heq] at hsome
  | none =>
      have hgood : ∀ place ∈ visits domains, Bad schedDomain place = false := fun place hplace =>
        Bool.eq_false_iff.mpr (List.find?_eq_none.mp hfind place hplace)
      have hcovered (cpu : ℕ) : ¬Has (domains.foldl bitmaskOr (BitVec.ofNat nbits 0)) cpu ↔
          ∀ domain ∈ domains, ¬Has domain cpu := by
        rw [has_foldl]
        simp [Has]
      refine iff_of_true ?_ fun domain cpu heq => by cases heq
      simp only [Option.map_none, Option.getD_none, and_iff_right hgood]
      rcases @sweep_cases _ schedDomain ncpus (domains.foldl bitmaskOr (BitVec.ofNat nbits 0)) with
        ⟨hpassed, hall⟩ | ⟨cpu, hcpu, hfailed, hout, hsome⟩
      · have hright : ∀ cpu < ncpus, (∀ domain ∈ domains, ¬Has domain cpu) →
            schedDomain cpu = none :=
          fun cpu hcpu hnone => hall cpu hcpu ((hcovered cpu).mpr hnone)
        rw [hpassed]
        simp only [reduceCtorEq, exists_false, ne_eq, not_false_eq_true, and_true, true_iff,
          false_iff, not_not, and_self]
        exact hright
      · have hwrong : ¬∀ cpu < ncpus, (∀ domain ∈ domains, ¬Has domain cpu) →
            schedDomain cpu = none :=
          fun hall => hsome (hall cpu hcpu ((hcovered cpu).mp hout))
        rw [hfailed]
        simp only [hwrong, reduceCtorEq, not_false_eq_true, iff_true, ne_eq, and_true, true_and]
        exact ⟨_, rfl⟩

end Verdict

theorem checkSchedDomains_iff_pair :
    checkSchedDomains (fun _ => some 3#2) 2 [3#2] = .passed ∧
      Right (fun _ => some 3#2) 2 [3#2] := by
  have hright := (@checkSchedDomains_iff 2 (fun _ => some 3#2) 2 [3#2]
    (fun domain _ cpu hcpu => BitVec.lt_of_getLsbD hcpu) (List.pairwise_singleton _ _)).mpr
    (fun domain cpu _ => Option.some_ne_none _)
  have hpassed : checkSchedDomains (fun _ => some 3#2) 2 [3#2] = .passed := by decide +kernel
  exact ⟨hpassed, hright.1.mp hpassed⟩

/-- The first CPU of a domain of two has no scheduler domain. -/
theorem checkSchedDomains_null_pointer :
    checkSchedDomains (fun _ => none) 2 [3#2] = .crashed ∧
      ¬Right (fun _ => none) 2 [3#2] := by
  refine ⟨by decide +kernel, fun hright => ?_⟩
  cases hright.same 3#2 List.mem_cons_self (by decide) 0 rfl

end GrapheneLtp.Cpuset
