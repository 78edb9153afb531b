import Mathlib.Tactic

/-!
# Patterns in a buffer

`pattern.c`: a buffer is filled with a shifted pattern, and checked against it.
The first period is copied from the pattern in two parts.  Then the buffer is
copied behind itself, which doubles what is filled in each round; the check
compares in the same way.
-/

namespace GrapheneLtp.Pattern

variable {α : Type*}

section Memory

/-- The memory, byte by byte. -/
abbrev Memory (α : Type*) : Type _ := ℕ → α

/-- The bytes from an address on. -/
def load (mem : Memory α) (src n : ℕ) : List α := (List.range n).map fun i => mem (src + i)

/-- `memcpy` of these bytes. -/
def memcpy (mem : Memory α) (dst : ℕ) (bytes : List α) : Memory α := fun addr =>
  if dst ≤ addr then bytes[addr - dst]?.getD (mem addr) else mem addr

theorem getElem?_load (mem : Memory α) (src n i : ℕ) :
    (load mem src n)[i]? = if i < n then some (mem (src + i)) else none := by
  unfold load
  split_ifs with hi
  · simp [hi]
  · simp [Nat.le_of_not_lt hi]

theorem memcpy_inside (mem : Memory α) (dst : ℕ) {bytes : List α} {i : ℕ} {byte : α}
    (hbyte : bytes[i]? = some byte) : memcpy mem dst bytes (dst + i) = byte := by
  simp [memcpy, hbyte]

theorem memcpy_outside (mem : Memory α) {dst addr : ℕ} {bytes : List α}
    (haddr : addr < dst ∨ dst + bytes.length ≤ addr) :
    memcpy mem dst bytes addr = mem addr := by
  unfold memcpy
  split_ifs with hle
  · have hpast : bytes.length ≤ addr - dst := by omega
    rw [List.getElem?_eq_none hpast, Option.getD_none]
  · rfl

end Memory

section Model

/-- The last loop of `pattern_fill`.  There is no result while the loop is still
running. -/
def fillLoop (buf buflen : ℕ) : ℕ → Memory α → ℕ → ℕ → ℕ → Option (Memory α)
  | 0, mem, _, ncopied, _ => if ncopied < buflen then none else some mem
  | fuel + 1, mem, cp, ncopied, nleft =>
    if ncopied < buflen then
      let trans := if ncopied < nleft then ncopied else nleft
      fillLoop buf buflen fuel (memcpy mem cp (load mem buf trans)) (cp + trans)
        (ncopied + trans) (nleft - trans)
    else some mem

/-- `pattern_fill` with a pattern that is not empty. -/
def patternFill (mem : Memory α) (buf buflen : ℕ) (pat : List α) (patshift : ℕ) :
    Option (Memory α) :=
  let patshift := patshift % pat.length
  let trans := pat.length - patshift
  if buflen < trans then
    some (memcpy mem buf ((pat.drop patshift).take buflen))
  else
    let mem := memcpy mem buf ((pat.drop patshift).take trans)
    let nleft := buflen - trans
    let cp := buf + trans
    if 0 < patshift then
      if nleft < patshift then some (memcpy mem cp (pat.take nleft))
      else
        fillLoop buf buflen buflen (memcpy mem cp (pat.take patshift)) (cp + patshift)
          (cp + patshift - buf) (nleft - patshift)
    else fillLoop buf buflen buflen mem cp (cp - buf) nleft

variable [DecidableEq α]

/-- `memcmp(..) ? -1 : 0`. -/
def compare (left right : List α) : ℤ :=
  if left ≠ right then -1 else 0

/-- The last loop of `pattern_check`. -/
def checkLoop (mem : Memory α) (buf buflen : ℕ) : ℕ → ℕ → ℕ → ℕ → Option ℤ
  | 0, _, ncmp, _ => if ncmp < buflen then none else some 0
  | fuel + 1, cp, ncmp, nleft =>
    if ncmp < buflen then
      let nb := if ncmp < nleft then ncmp else nleft
      if load mem buf nb ≠ load mem cp nb then some (-1)
      else checkLoop mem buf buflen fuel (cp + nb) (ncmp + nb) (nleft - nb)
    else some 0

/-- `pattern_check` with a pattern that is not empty. -/
def patternCheck (mem : Memory α) (buf buflen : ℕ) (pat : List α) (patshift : ℕ) : Option ℤ :=
  let patshift := patshift % pat.length
  let nb := pat.length - patshift
  if buflen < nb then
    some (compare (load mem buf buflen) ((pat.drop patshift).take buflen))
  else if load mem buf nb ≠ (pat.drop patshift).take nb then some (-1)
  else
    let nleft := buflen - nb
    let cp := buf + nb
    if 0 < patshift then
      if nleft < patshift then
        some (compare (load mem cp nleft) (pat.take nleft))
      else if load mem cp patshift ≠ pat.take patshift then some (-1)
      else
        checkLoop mem buf buflen buflen (cp + patshift) (cp + patshift - buf) (nleft - patshift)
    else checkLoop mem buf buflen buflen cp (cp - buf) nleft

end Model

section Parts

variable {pat : List α} {patshift buf : ℕ} {mem : Memory α}

/-- The first `n` bytes of the buffer are those of the pattern. -/
def Matches (mem : Memory α) (buf n : ℕ) (pat : List α) (patshift : ℕ) : Prop :=
  ∀ i < n, pat[(i + patshift) % pat.length]? = some (mem (buf + i))

/-- These are the bytes that belong behind the first `n`. -/
def Follow (bytes : List α) (n : ℕ) (pat : List α) (patshift : ℕ) : Prop :=
  ∀ i < bytes.length, bytes[i]? = pat[(n + i + patshift) % pat.length]?

theorem follow_first (pat : List α) (patshift n : ℕ) :
    Follow ((pat.drop (patshift % pat.length)).take n) 0 pat patshift := by
  intro i hi
  have hi : i < n ∧ i < pat.length - patshift % pat.length := by simpa using hi
  have hindex : (0 + i + patshift) % pat.length = patshift % pat.length + i := by
    rw [Nat.zero_add, Nat.add_comm, ← Nat.mod_add_mod, Nat.mod_eq_of_lt (by omega)]
  rw [List.getElem?_take_of_lt hi.1, List.getElem?_drop, hindex]

theorem follow_second (pat : List α) (patshift n : ℕ) :
    Follow (pat.take n) (pat.length - patshift % pat.length) pat patshift := by
  intro i hi
  have hi : i < n ∧ i < pat.length := by simpa using hi
  have hshift : patshift % pat.length < pat.length := Nat.mod_lt _ (by omega)
  have hindex : (pat.length - patshift % pat.length + i + patshift) % pat.length = i := by
    rw [← Nat.add_mod_mod]
    have hsum : pat.length - patshift % pat.length + i + patshift % pat.length =
        pat.length + i := by omega
    rw [hsum, Nat.add_mod_left, Nat.mod_eq_of_lt hi.2]
  rw [List.getElem?_take_of_lt hi.1, hindex]

/-- Behind whole periods the buffer begins again. -/
theorem follow_again {n trans : ℕ} (hmatches : Matches mem buf n pat patshift)
    (hperiods : pat.length ∣ n) (htrans : trans ≤ n) :
    Follow (load mem buf trans) n pat patshift := by
  intro i hi
  have hi : i < trans := by simpa [load] using hi
  obtain ⟨periods, rfl⟩ := hperiods
  have hindex : (pat.length * periods + i + patshift) % pat.length =
      (i + patshift) % pat.length := by
    rw [Nat.add_assoc, Nat.mul_add_mod]
  rw [getElem?_load, if_pos hi, hindex, hmatches i (hi.trans_le htrans)]

end Parts

section Fill

variable {pat : List α} {patshift buf : ℕ} {mem : Memory α}

theorem Follow.getElem? {bytes : List α} {n : ℕ} (hfollow : Follow bytes n pat patshift)
    {i : ℕ} (hi : i < bytes.length) :
    pat[(n + i + patshift) % pat.length]? = some bytes[i] := by
  rw [← hfollow i hi, List.getElem?_eq_getElem hi]

/-- A copy behind the first bytes makes more of them right. -/
theorem Matches.memcpy {bytes : List α} {n : ℕ} (hmatches : Matches mem buf n pat patshift)
    (hfollow : Follow bytes n pat patshift) :
    Matches (memcpy mem (buf + n) bytes) buf (n + bytes.length) pat patshift := by
  intro i hi
  by_cases hold : i < n
  · rw [memcpy_outside mem (.inl (Nat.add_lt_add_left hold buf))]
    exact hmatches i hold
  · obtain ⟨offset, rfl⟩ := Nat.exists_eq_add_of_le (Nat.le_of_not_lt hold)
    have hoffset : offset < bytes.length := by omega
    rw [← Nat.add_assoc, memcpy_inside mem (buf + n) (List.getElem?_eq_getElem hoffset)]
    exact hfollow.getElem? hoffset

/-- What a part of `pattern_fill` leaves: the first bytes are right, and memory
outside of them is as it was. -/
structure Filled (mem after : Memory α) (buf n : ℕ) (pat : List α) (patshift : ℕ) :
    Prop where
  content : Matches after buf n pat patshift
  frame : ∀ addr, addr < buf ∨ buf + n ≤ addr → after addr = mem addr

theorem Filled.start (mem : Memory α) (buf : ℕ) (pat : List α) (patshift : ℕ) :
    Filled mem mem buf 0 pat patshift :=
  ⟨fun i hi => absurd hi (Nat.not_lt_zero i), fun _ _ => rfl⟩

theorem Filled.memcpy {after : Memory α} {bytes : List α} {n : ℕ}
    (hfilled : Filled mem after buf n pat patshift)
    (hfollow : Follow bytes n pat patshift) :
    Filled mem (memcpy after (buf + n) bytes) buf (n + bytes.length) pat patshift := by
  refine ⟨hfilled.content.memcpy hfollow, fun addr haddr => ?_⟩
  rw [memcpy_outside after (by omega)]
  exact hfilled.frame addr (by omega)

theorem length_load (mem : Memory α) (src n : ℕ) : (load mem src n).length = n := by
  simp [load]

/-- The loop fills the rest of the buffer. -/
theorem fillLoop_filled {buflen fuel n : ℕ} {after : Memory α}
    (hperiods : n < buflen → pat.length ∣ n ∧ 0 < n) (hn : n ≤ buflen)
    (hfuel : buflen ≤ fuel + n) (hfilled : Filled mem after buf n pat patshift) :
    ∃ last, fillLoop buf buflen fuel after (buf + n) n (buflen - n) = some last ∧
      Filled mem last buf buflen pat patshift := by
  induction fuel generalizing n after with
  | zero =>
    obtain rfl : n = buflen := by omega
    exact ⟨after, by simp [fillLoop], hfilled⟩
  | succ fuel ih =>
    rw [fillLoop]
    dsimp only
    split_ifs with hless hhalf
    · -- The whole filled part is copied, so there are whole periods again.
      obtain ⟨hdvd, hpos⟩ := hperiods hless
      have hnext := hfilled.memcpy (follow_again hfilled.content hdvd (le_refl n))
      rw [length_load] at hnext
      have hleft : buflen - n - n = buflen - (n + n) := by omega
      rw [hleft, Nat.add_assoc]
      exact ih (fun _ => ⟨Nat.dvd_add hdvd hdvd, by omega⟩) (by omega) (by omega) hnext
    · -- The copy ends with the buffer.
      obtain ⟨hdvd, hpos⟩ := hperiods hless
      have hnext := hfilled.memcpy (follow_again hfilled.content hdvd (Nat.le_of_not_lt hhalf))
      have hend : n + (buflen - n) = buflen := by omega
      rw [length_load, hend] at hnext
      rw [Nat.add_assoc, hend, Nat.sub_self, ← Nat.sub_self buflen]
      exact ih (fun habsurd => absurd habsurd (lt_irrefl buflen)) (le_refl _) (by omega) hnext
    · obtain rfl : n = buflen := by omega
      exact ⟨after, rfl, hfilled⟩

/-- `pattern_fill` returns, and has filled the buffer and nothing else. -/
theorem patternFill_filled (mem : Memory α) (buf buflen : ℕ) (hpat : pat ≠ []) (patshift : ℕ) :
    ∃ after, patternFill mem buf buflen pat patshift = some after ∧
      Filled mem after buf buflen pat patshift := by
  have hlength : 0 < pat.length := List.length_pos_of_ne_nil hpat
  have hshift : patshift % pat.length < pat.length := Nat.mod_lt _ hlength
  have hfirst (n : ℕ) (hn : n ≤ pat.length - patshift % pat.length) :
      Filled mem (memcpy mem buf ((pat.drop (patshift % pat.length)).take n)) buf n
        pat patshift := by
    have hfilled := (Filled.start mem buf pat patshift).memcpy (follow_first pat patshift n)
    have htake : ((pat.drop (patshift % pat.length)).take n).length = n := by
      simp [hn]
    rwa [htake, Nat.zero_add, Nat.add_zero] at hfilled
  have hsecond (n : ℕ) (hn : n ≤ patshift % pat.length) : Filled mem (memcpy
        (memcpy mem buf ((pat.drop (patshift % pat.length)).take
          (pat.length - patshift % pat.length)))
        (buf + (pat.length - patshift % pat.length)) (pat.take n)) buf
        (pat.length - patshift % pat.length + n) pat patshift := by
    have hfilled := (hfirst _ (le_refl _)).memcpy (follow_second pat patshift n)
    have htake : (pat.take n).length = n := by
      simp [hn.trans hshift.le]
    rwa [htake] at hfilled
  unfold patternFill
  dsimp only
  split_ifs with hshort hzero hmiddle
  · exact ⟨_, rfl, hfirst buflen hshort.le⟩
  · have hfilled := hsecond _ hmiddle.le
    have hend : pat.length - patshift % pat.length +
        (buflen - (pat.length - patshift % pat.length)) = buflen := by omega
    rw [hend] at hfilled
    exact ⟨_, rfl, hfilled⟩
  · have hfilled := hsecond _ (le_refl _)
    have hperiod : pat.length - patshift % pat.length + patshift % pat.length =
        pat.length := by omega
    have hleft : buflen - (pat.length - patshift % pat.length) - patshift % pat.length =
        buflen - pat.length := by omega
    rw [hperiod] at hfilled
    rw [Nat.add_assoc, hperiod, Nat.add_sub_cancel_left, hleft]
    exact fillLoop_filled (fun _ => ⟨dvd_refl _, hlength⟩) (by omega) (by omega) hfilled
  · have hfilled := hfirst _ (le_refl _)
    have hperiod : pat.length - patshift % pat.length = pat.length := by omega
    rw [hperiod] at hfilled ⊢
    rw [Nat.add_sub_cancel_left]
    exact fillLoop_filled (fun _ => ⟨dvd_refl _, hlength⟩) (by omega) (by omega) hfilled

end Fill

section Check

variable {pat : List α} {patshift buf : ℕ} {mem : Memory α}

/-- A comparison behind bytes that are right tells whether more of them are. -/
theorem Matches.load_iff {bytes : List α} {n : ℕ}
    (hmatches : Matches mem buf n pat patshift) (hfollow : Follow bytes n pat patshift) :
    load mem (buf + n) bytes.length = bytes ↔ Matches mem buf (n + bytes.length) pat patshift := by
  constructor
  · intro hload i hi
    by_cases hold : i < n
    · exact hmatches i hold
    · obtain ⟨offset, rfl⟩ := Nat.exists_eq_add_of_le (Nat.le_of_not_lt hold)
      have hoffset : offset < bytes.length := by omega
      have hbyte := getElem?_load mem (buf + n) bytes.length offset
      rw [hload, if_pos hoffset, hfollow offset hoffset] at hbyte
      rw [hbyte, Nat.add_assoc]
  · intro hall
    apply List.ext_getElem?
    intro i
    rw [getElem?_load]
    split_ifs with hi
    · rw [hfollow i hi, Nat.add_assoc, ← hall (n + i) (by omega)]
    · rw [List.getElem?_eq_none (Nat.le_of_not_lt hi)]

theorem Matches.mono {n shorter : ℕ} (hmatches : Matches mem buf n pat patshift)
    (hle : shorter ≤ n) : Matches mem buf shorter pat patshift :=
  fun i hi => hmatches i (hi.trans_le hle)

variable [DecidableEq α]

/-- The loop returns 0 exactly if the rest of the buffer is right too. -/
theorem checkLoop_eq_zero_iff {buflen fuel n : ℕ}
    (hperiods : n < buflen → pat.length ∣ n ∧ 0 < n) (hn : n ≤ buflen)
    (hfuel : buflen ≤ fuel + n) (hmatches : Matches mem buf n pat patshift) :
    ∃ ret, checkLoop mem buf buflen fuel (buf + n) n (buflen - n) = some ret ∧
      (ret = 0 ↔ Matches mem buf buflen pat patshift) := by
  induction fuel generalizing n with
  | zero =>
    obtain rfl : n = buflen := by omega
    exact ⟨0, by simp [checkLoop], iff_of_true rfl hmatches⟩
  | succ fuel ih =>
    have hpart (nb : ℕ) (hdvd : pat.length ∣ n) (hnb : nb ≤ n) :
        load mem (buf + n) nb = load mem buf nb ↔ Matches mem buf (n + nb) pat patshift := by
      have hiff := hmatches.load_iff (follow_again hmatches hdvd hnb)
      rwa [length_load] at hiff
    rw [checkLoop]
    dsimp only
    by_cases hless : n < buflen
    · obtain ⟨hdvd, hpos⟩ := hperiods hless
      rw [if_pos hless]
      by_cases hhalf : n < buflen - n
      · rw [if_pos hhalf]
        have hleft : buflen - n - n = buflen - (n + n) := by omega
        by_cases hequal : load mem (buf + n) n = load mem buf n
        · rw [if_neg (not_not_intro hequal.symm), hleft, Nat.add_assoc]
          exact ih (fun _ => ⟨Nat.dvd_add hdvd hdvd, by omega⟩) (by omega) (by omega)
            ((hpart n hdvd (le_refl n)).mp hequal)
        · rw [if_pos (Ne.symm hequal)]
          refine ⟨-1, rfl, iff_of_false (by decide) fun hall => hequal ?_⟩
          exact (hpart n hdvd (le_refl n)).mpr (hall.mono (by omega))
      · rw [if_neg hhalf]
        have hend : n + (buflen - n) = buflen := by omega
        have hiff := hpart (buflen - n) hdvd (Nat.le_of_not_lt hhalf)
        rw [hend] at hiff
        by_cases hequal : load mem (buf + n) (buflen - n) = load mem buf (buflen - n)
        · rw [if_neg (not_not_intro hequal.symm), Nat.add_assoc, hend, Nat.sub_self,
            ← Nat.sub_self buflen]
          exact ih (fun habsurd => absurd habsurd (lt_irrefl buflen)) (le_refl _)
            (by omega) (hiff.mp hequal)
        · rw [if_pos (Ne.symm hequal)]
          exact ⟨-1, rfl, iff_of_false (by decide) fun hall => hequal (hiff.mpr hall)⟩
    · obtain rfl : n = buflen := by omega
      rw [if_neg hless]
      exact ⟨0, rfl, iff_of_true rfl hmatches⟩

theorem compare_eq_zero_iff {left right : List α} : compare left right = 0 ↔ left = right := by
  unfold compare
  split_ifs with hne
  · exact iff_of_false (by decide) hne
  · exact iff_of_true rfl (not_not.mp hne)

/-- `pattern_check` returns, and returns 0 exactly if the buffer holds the
pattern. -/
theorem patternCheck_eq_zero_iff (mem : Memory α) (buf buflen : ℕ) (hpat : pat ≠ [])
    (patshift : ℕ) :
    ∃ ret, patternCheck mem buf buflen pat patshift = some ret ∧
      (ret = 0 ↔ Matches mem buf buflen pat patshift) := by
  have hlength : 0 < pat.length := List.length_pos_of_ne_nil hpat
  have hshift : patshift % pat.length < pat.length := Nat.mod_lt _ hlength
  have hfirst (n : ℕ) (hn : n ≤ pat.length - patshift % pat.length) :
      load mem buf n = (pat.drop (patshift % pat.length)).take n ↔
        Matches mem buf n pat patshift := by
    have hiff := (show Matches mem buf 0 pat patshift from
      fun i hi => absurd hi (Nat.not_lt_zero i)).load_iff (follow_first pat patshift n)
    have htake : ((pat.drop (patshift % pat.length)).take n).length = n := by
      simp [hn]
    rwa [htake, Nat.zero_add, Nat.add_zero] at hiff
  have hsecond (n : ℕ) (hn : n ≤ patshift % pat.length)
      (hmatches : Matches mem buf (pat.length - patshift % pat.length) pat patshift) :
      load mem (buf + (pat.length - patshift % pat.length)) n = pat.take n ↔
        Matches mem buf (pat.length - patshift % pat.length + n) pat patshift := by
    have hiff := hmatches.load_iff (follow_second pat patshift n)
    have htake : (pat.take n).length = n := by
      simp [hn.trans hshift.le]
    rwa [htake] at hiff
  unfold patternCheck
  dsimp only
  split_ifs with hshort hdiffers hzero hmiddle hsecondDiffers
  · exact ⟨_, rfl, compare_eq_zero_iff.trans (hfirst buflen hshort.le)⟩
  · refine ⟨-1, rfl, iff_of_false (by decide) fun hall => hdiffers ?_⟩
    exact (hfirst _ (le_refl _)).mpr (hall.mono (Nat.le_of_not_lt hshort))
  · have hmatches := (hfirst _ (le_refl _)).mp (not_not.mp hdiffers)
    have hiff := hsecond _ hmiddle.le hmatches
    have hend : pat.length - patshift % pat.length +
        (buflen - (pat.length - patshift % pat.length)) = buflen := by omega
    rw [hend] at hiff
    exact ⟨_, rfl, compare_eq_zero_iff.trans hiff⟩
  · have hmatches := (hfirst _ (le_refl _)).mp (not_not.mp hdiffers)
    refine ⟨-1, rfl, iff_of_false (by decide) fun hall => hsecondDiffers ?_⟩
    exact (hsecond _ (le_refl _) hmatches).mpr (hall.mono (by omega))
  · have hmatches := (hfirst _ (le_refl _)).mp (not_not.mp hdiffers)
    have hperiod := (hsecond _ (le_refl _) hmatches).mp (not_not.mp hsecondDiffers)
    have hsum : pat.length - patshift % pat.length + patshift % pat.length =
        pat.length := by omega
    have hleft : buflen - (pat.length - patshift % pat.length) - patshift % pat.length =
        buflen - pat.length := by omega
    rw [hsum] at hperiod
    rw [Nat.add_assoc, hsum, Nat.add_sub_cancel_left, hleft]
    exact checkLoop_eq_zero_iff (fun _ => ⟨dvd_refl _, hlength⟩) (by omega) (by omega) hperiod
  · have hmatches := (hfirst _ (le_refl _)).mp (not_not.mp hdiffers)
    have hsum : pat.length - patshift % pat.length = pat.length := by omega
    rw [hsum] at hmatches ⊢
    rw [Nat.add_sub_cancel_left]
    exact checkLoop_eq_zero_iff (fun _ => ⟨dvd_refl _, hlength⟩) (by omega) (by omega) hmatches

end Check

section Pattern

variable [DecidableEq α]

/-- Filling puts the shifted pattern into the buffer and touches nothing else,
and the check tells exactly whether it is there. -/
theorem pattern_fill_and_check (mem : Memory α) (buf buflen : ℕ) {pat : List α}
    (hpat : 0 < pat.length) (patshift : ℕ) :
    (∃ after, patternFill mem buf buflen pat patshift = some after ∧
      (∀ i < buflen, pat[(i + patshift) % pat.length]? = some (after (buf + i))) ∧
      ∀ addr, addr < buf ∨ buf + buflen ≤ addr → after addr = mem addr) ∧
    ∃ ret, patternCheck mem buf buflen pat patshift = some ret ∧ (ret = 0 ↔
        ∀ i < buflen, pat[(i + patshift) % pat.length]? = some (mem (buf + i))) := by
  have hne : pat ≠ [] := List.ne_nil_of_length_pos hpat
  obtain ⟨after, hafter, hfilled⟩ := patternFill_filled mem buf buflen hne patshift
  exact ⟨⟨after, hafter, hfilled.content, hfilled.frame⟩,
    patternCheck_eq_zero_iff mem buf buflen hne patshift⟩

/-- A buffer of eight bytes and a pattern of three, shifted by four. -/
theorem pattern_fill_and_check_eight :
    ∃ after, patternFill (fun _ => 'x') 5 8 ['a', 'b', 'c'] 4 = some after ∧
      after 5 = 'b' ∧ after 12 = 'c' ∧ after 13 = 'x' ∧
      ∃ ret, patternCheck after 5 8 ['a', 'b', 'c'] 4 = some ret ∧ ret = 0 := by
  obtain ⟨⟨after, hafter, hcontent, hframe⟩, -⟩ := pattern_fill_and_check (fun _ => 'x') 5 8
      (show 0 < ['a', 'b', 'c'].length by decide) 4
  obtain ⟨-, ret, hret, hiff⟩ := pattern_fill_and_check after 5 8
    (show 0 < ['a', 'b', 'c'].length by decide) 4
  exact ⟨after, hafter, (Option.some.inj (hcontent 0 (by decide))).symm,
    (Option.some.inj (hcontent 7 (by decide))).symm, hframe 13 (by decide),
    ret, hret, hiff.mpr hcontent⟩

end Pattern

end GrapheneLtp.Pattern
