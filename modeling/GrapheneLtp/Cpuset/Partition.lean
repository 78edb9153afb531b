import GrapheneLtp.Core.Components

/-!
# partition_domains

The cpusets with load balancing are merged in place: the double loop restarts
after every merge, and a flag marks a set that was taken in by another one.
-/

namespace GrapheneLtp.Cpuset

open Components

/-- A bit mask of a number of bits.  The bits beyond it read as zero. -/
abbrev Bitmask (nbits : ℕ) := BitVec nbits

variable {n nbits : ℕ}

def bitmaskIntersects (bmp1 bmp2 : Bitmask nbits) : Bool :=
  (List.range nbits).any fun i => bmp1.getLsbD i && bmp2.getLsbD i

def bitmaskOr (bmp1 bmp2 : Bitmask nbits) : Bitmask nbits := bmp1 ||| bmp2

/-- The cpusets that were found, and the flags of those that are no longer counted. -/
structure CpuSets (n nbits : ℕ) where
  cpus : Fin n → Bitmask nbits
  flg : Fin n → Bool

/-- The pair that the double loop stops at. -/
def nextPair (sets : CpuSets n nbits) : Option (Fin n × Fin n) :=
  (List.finRange n).findSome? fun i =>
    if sets.flg i then none
    else (List.finRange n).findSome? fun j =>
      if i < j ∧ sets.flg j = false ∧ bitmaskIntersects (sets.cpus i) (sets.cpus j) = true then
        some (i, j)
      else none

def merge (sets : CpuSets n nbits) (i j : Fin n) : CpuSets n nbits where
  cpus := Function.update sets.cpus i (bitmaskOr (sets.cpus i) (sets.cpus j))
  flg := Function.update sets.flg j true

/-- How many sets are not flagged. -/
def unflagged (sets : CpuSets n nbits) : ℕ := (Finset.univ.filter fun k => sets.flg k = false).card

theorem nextPair_eq_some {sets : CpuSets n nbits} {i j : Fin n}
    (hpair : nextPair sets = some (i, j)) : i < j ∧ sets.flg i = false ∧ sets.flg j = false ∧
      bitmaskIntersects (sets.cpus i) (sets.cpus j) = true := by
  obtain ⟨first, -, hfirst⟩ := List.exists_of_findSome?_eq_some hpair
  split at hfirst
  · cases hfirst
  · rename_i hflg
    obtain ⟨second, -, hsecond⟩ := List.exists_of_findSome?_eq_some hfirst
    rw [Option.ite_none_right_eq_some] at hsecond
    obtain ⟨⟨hlt, hother, hmeet⟩, heq⟩ := hsecond
    cases heq
    exact ⟨hlt, Bool.eq_false_iff.mpr hflg, hother, hmeet⟩

theorem unflagged_merge {sets : CpuSets n nbits} {i j : Fin n} (hj : sets.flg j = false) :
    unflagged (merge sets i j) + 1 = unflagged sets := by
  have herase : (Finset.univ.filter fun k => (merge sets i j).flg k = false) =
      (Finset.univ.filter fun k => sets.flg k = false).erase j := by
    ext k
    simp only [Finset.mem_filter, Finset.mem_erase, Finset.mem_univ, true_and]
    obtain rfl | hne := eq_or_ne k j
    · simp [merge]
    · simp [merge, hne]
  rw [unflagged, unflagged, herase, Finset.card_erase_add_one]
  simpa using hj

/-- The loop that starts again after each merge. -/
def mergeLoop (sets : CpuSets n nbits) (ndomains : ℤ) : CpuSets n nbits × ℤ :=
  match hpair : nextPair sets with
  | none => (sets, ndomains)
  | some (i, j) => mergeLoop (merge sets i j) (ndomains - 1)
termination_by unflagged sets
decreasing_by
  have hmerge := @unflagged_merge _ _ sets i j (nextPair_eq_some hpair).2.2.1
  omega

/-- The domains that are left, in the order of the sets. -/
def domains (sets : CpuSets n nbits) : List (Bitmask nbits) :=
  ((List.finRange n).filter fun k => !sets.flg k).map sets.cpus

/-- What is made of the cpusets that were found: `ndomains` and the domains. -/
def partitionDomains (cpusets : List (Bitmask nbits)) : ℤ × List (Bitmask nbits) :=
  let merged := mergeLoop ⟨cpusets.get, fun _ => false⟩ cpusets.length
  (merged.2, domains merged.1)

/-- A bit mask as a set of CPUs. -/
def Has (bmp : Bitmask nbits) (cpu : ℕ) : Prop := bmp.getLsbD cpu = true

/-- The domains are the components of the cpusets, and each cpuset is in one of them. -/
structure IsPartition (cpusets : List (Bitmask nbits)) (ndomains : ℤ)
    (domains : List (Bitmask nbits)) : Prop where
  ndomains_eq : ndomains = Nat.card (Component fun i => Has (cpusets.get i))
  length_eq : ndomains = domains.length
  domain_iff : ∀ domain, domain ∈ domains ↔
    ∃ component : Component fun i => Has (cpusets.get i),
      ∀ cpu, Has domain cpu ↔ component.union cpu
  disjoint : domains.Pairwise fun a b => ∀ cpu, ¬(Has a cpu ∧ Has b cpu)
  covered : ∀ cpu, (∃ cpus ∈ cpusets, Has cpus cpu) ↔ ∃ domain ∈ domains, Has domain cpu
  contained : ∀ cpus ∈ cpusets,
    ∃! domain, domain ∈ domains ∧ ∀ cpu, Has cpus cpu → Has domain cpu

theorem bitmaskIntersects_iff {bmp1 bmp2 : Bitmask nbits} :
    bitmaskIntersects bmp1 bmp2 = true ↔ ∃ cpu, Has bmp1 cpu ∧ Has bmp2 cpu := by
  simp only [bitmaskIntersects, List.any_eq_true, List.mem_range, Bool.and_eq_true, Has]
  constructor
  · rintro ⟨cpu, -, hboth⟩
    exact ⟨cpu, hboth⟩
  · rintro ⟨cpu, hboth⟩
    exact ⟨cpu, BitVec.lt_of_getLsbD hboth.1, hboth⟩

theorem has_bitmaskOr {bmp1 bmp2 : Bitmask nbits} (cpu : ℕ) :
    Has (bitmaskOr bmp1 bmp2) cpu ↔ Has bmp1 cpu ∨ Has bmp2 cpu := by
  simp [Has, bitmaskOr]

theorem eq_of_has {bmp1 bmp2 : Bitmask nbits} (hsame : ∀ cpu, Has bmp1 cpu ↔ Has bmp2 cpu) :
    bmp1 = bmp2 :=
  BitVec.eq_of_getLsbD_eq fun cpu _ => Bool.eq_iff_iff.mpr (hsame cpu)

/-- When the loop finds no pair, the sets that are left do not meet. -/
theorem disjoint_of_nextPair {sets : CpuSets n nbits} (hpair : nextPair sets = none) (i j : Fin n)
    (hi : sets.flg i = false) (hj : sets.flg j = false)
    (hmeet : Meet (fun k => Has (sets.cpus k)) i j) : i = j := by
  have hnone {first second : Fin n} (hlt : first < second) (hfirst : sets.flg first = false)
      (hsecond : sets.flg second = false) :
      bitmaskIntersects (sets.cpus first) (sets.cpus second) ≠ true := by
    have houter := List.findSome?_eq_none_iff.mp hpair first (List.mem_finRange first)
    rw [if_neg (by simpa using hfirst)] at houter
    have hinner := List.findSome?_eq_none_iff.mp houter second (List.mem_finRange second)
    intro hboth
    rw [if_pos ⟨hlt, hsecond, hboth⟩] at hinner
    cases hinner
  obtain ⟨cpu, hcpui, hcpuj⟩ := hmeet
  rcases lt_trichotomy i j with hlt | heq | hgt
  · exact absurd (bitmaskIntersects_iff.mpr ⟨cpu, hcpui, hcpuj⟩) (hnone hlt hi hj)
  · exact heq
  · exact absurd (bitmaskIntersects_iff.mpr ⟨cpu, hcpuj, hcpui⟩) (hnone hgt hj hi)

/-- A run of the loop merges within the components, counts the sets that are left, and
leaves no two that meet. -/
theorem mergeLoop_merging {family : Fin n → ℕ → Prop} (sets : CpuSets n nbits) (ndomains : ℤ)
    (hcount : ndomains = unflagged sets) {into : Fin n → Fin n}
    (hmerging : Merging family (fun k => Has (sets.cpus k)) (fun k => sets.flg k = false) into) :
    (mergeLoop sets ndomains).2 = unflagged (mergeLoop sets ndomains).1 ∧
      nextPair (mergeLoop sets ndomains).1 = none ∧
      ∃ into, Merging family (fun k => Has ((mergeLoop sets ndomains).1.cpus k))
        (fun k => (mergeLoop sets ndomains).1.flg k = false) into := by
  induction sets, ndomains using mergeLoop.induct generalizing into with
  | case1 sets ndomains hpair =>
      rw [mergeLoop]
      split
      · exact ⟨hcount, hpair, into, hmerging⟩
      · rename_i hsome
        rw [hpair] at hsome
        cases hsome
  | case2 sets ndomains i j hpair ih =>
      obtain ⟨hlt, hi, hj, hmeet⟩ := nextPair_eq_some hpair
      have hunflagged := @unflagged_merge _ _ sets i j hj
      have hstep : mergeLoop sets ndomains = mergeLoop (merge sets i j) (ndomains - 1) := by
        rw [mergeLoop]
        split
        · rename_i hnone
          rw [hpair] at hnone
          cases hnone
        · rename_i hsome
          rw [hpair] at hsome
          cases hsome
          rfl
      rw [hstep]
      refine ih (by omega) (hmerging.merge hi hj hlt.ne (bitmaskIntersects_iff.mp hmeet)
        (fun k => ?_) (fun cpu => ?_) fun k hne cpu => ?_)
      · obtain rfl | hne := eq_or_ne k j
        · simp [merge]
        · simp [merge, hne]
      · simp [merge, has_bitmaskOr]
      · simp [merge, hne]

theorem unflagged_eq_card (sets : CpuSets n nbits) :
    unflagged sets = Nat.card {k // sets.flg k = false} := by
  rw [Nat.card_eq_fintype_card, Fintype.card_subtype, unflagged]

theorem mem_domains {sets : CpuSets n nbits} {domain : Bitmask nbits} :
    domain ∈ domains sets ↔ ∃ k, sets.flg k = false ∧ sets.cpus k = domain := by
  simp [domains]

theorem length_domains (sets : CpuSets n nbits) : (domains sets).length = unflagged sets := by
  rw [domains, List.length_map, unflagged, ← List.toFinset_card_of_nodup]
  · congr 1
    ext k
    simp
  · exact (List.nodup_finRange n).filter _

/-- The domains are the components of the relation that two cpusets intersect. -/
theorem partitionDomains_isPartition {cpusets : List (Bitmask nbits)}
    (hne : ∀ cpus ∈ cpusets, ∃ cpu, Has cpus cpu) :
    IsPartition cpusets (partitionDomains cpusets).1 (partitionDomains cpusets).2 := by
  obtain ⟨hcount, hpair, into, hmerging⟩ := @mergeLoop_merging cpusets.length nbits
    (fun i => Has (cpusets.get i)) ⟨cpusets.get, fun _ => false⟩ cpusets.length
    (by simp [unflagged]) id (by simpa using Merging.initial _)
  simp only [partitionDomains]
  generalize mergeLoop ⟨cpusets.get, fun _ => false⟩ (cpusets.length : ℤ) = merged at *
  obtain ⟨sets, ndomains⟩ := merged
  have hdisjoint := disjoint_of_nextPair hpair
  have hinto (i : Fin cpusets.length) {cpu : ℕ} (hcpu : Has (cpusets.get i) cpu) :
      Has (sets.cpus (into i)) cpu :=
    (hmerging.current_iff _ (hmerging.active_into i) cpu).mpr ⟨i, rfl, hcpu⟩
  refine ⟨?_, ?_, fun domain => ?_, ?_, fun cpu => ?_, fun cpus hcpus => ?_⟩
  · rw [← hmerging.card_eq hdisjoint, ← unflagged_eq_card]
    exact hcount
  · rw [length_domains]
    exact hcount
  · rw [mem_domains]
    constructor
    · rintro ⟨k, hk, rfl⟩
      exact ⟨Quot.mk _ k, hmerging.current_iff_union hdisjoint hk⟩
    · rintro ⟨⟨i⟩, hdomain⟩
      refine ⟨into i, hmerging.active_into i, eq_of_has fun cpu => ?_⟩
      rw [hdomain, hmerging.current_iff_union hdisjoint (hmerging.active_into i), hmerging.same]
  · rw [domains, List.pairwise_map]
    refine ((List.nodup_finRange _).filter _).imp_of_mem fun {i j} hi hj hij cpu hboth => ?_
    simp only [List.mem_filter, List.mem_finRange, true_and, Bool.not_eq_true'] at hi hj
    exact hij (hdisjoint i j hi hj ⟨cpu, hboth⟩)
  · constructor
    · rintro ⟨cpus, hcpus, hcpu⟩
      obtain ⟨i, rfl⟩ := List.mem_iff_get.mp hcpus
      exact ⟨_, mem_domains.mpr ⟨into i, hmerging.active_into i, rfl⟩, hinto i hcpu⟩
    · rintro ⟨domain, hdomain, hcpu⟩
      obtain ⟨k, hk, rfl⟩ := mem_domains.mp hdomain
      obtain ⟨i, -, hi⟩ := (hmerging.current_iff k hk cpu).mp hcpu
      exact ⟨_, List.get_mem cpusets i, hi⟩
  · obtain ⟨i, rfl⟩ := List.mem_iff_get.mp hcpus
    refine ⟨sets.cpus (into i), ⟨mem_domains.mpr ⟨into i, hmerging.active_into i, rfl⟩,
      fun cpu => hinto i⟩, ?_⟩
    rintro domain ⟨hdomain, hsubset⟩
    obtain ⟨k, hk, rfl⟩ := mem_domains.mp hdomain
    obtain ⟨cpu, hcpu⟩ := hne _ hcpus
    rw [hdisjoint k (into i) hk (hmerging.active_into i) ⟨cpu, hsubset cpu hcpu, hinto i hcpu⟩]

theorem partitionDomains_isPartition_chain :
    partitionDomains [1#4, 4#4, 5#4, 8#4] = (2, [5#4, 8#4]) ∧
      IsPartition [1#4, 4#4, 5#4, 8#4] 2 [5#4, 8#4] := by
  have hresult : partitionDomains [1#4, 4#4, 5#4, 8#4] = (2, [5#4, 8#4]) := by decide +kernel
  have hne : ∀ cpus ∈ [1#4, 4#4, 5#4, 8#4], ∃ cpu, Has cpus cpu := by
    intro cpus hcpus
    simp only [List.mem_cons, List.not_mem_nil, or_false] at hcpus
    rcases hcpus with rfl | rfl | rfl | rfl
    exacts [⟨0, rfl⟩, ⟨2, rfl⟩, ⟨0, rfl⟩, ⟨3, rfl⟩]
  have hpartition := partitionDomains_isPartition hne
  rw [hresult] at hpartition
  exact ⟨hresult, hpartition⟩

end GrapheneLtp.Cpuset
