import Mathlib.Tactic

/-!
# tst_path_has_mnt_flags_

The mount of a path is found by comparing texts: the first-listed one of the
longest mount points that the path starts with.  It is not always the mount that
contains the path.
-/

namespace GrapheneLtp.MountFlags

/-- An entry of the table of mounts. -/
structure Mount where
  fsname : List Char
  dir : List Char
  opts : List Char
  dir_absolute : dir.head? = some '/'
  deriving DecidableEq

/-- What the function finds around it.  A file that does not open is `none`. -/
structure Environment where
  tmpdir : List Char
  accessible : List Char → Bool
  mounts : Option (List Mount)
  hasmntopt : Mount → List Char → Bool

inductive Outcome where
  | returned (flagsMatched : ℕ)
  /-- TBROK with a message, and the return value -1 -/
  | broken (message : List Char)
  deriving DecidableEq, Repr

section Scan

variable (hasmntopt : Mount → List Char → Bool) (path : List Char) (flags : List (List Char))

/-- The duplicate record of the root file system is ignored. -/
def Mount.Listed (mnt : Mount) : Prop := mnt.fsname ≠ "rootfs".toList

instance (mnt : Mount) : Decidable mnt.Listed := inferInstanceAs (Decidable (_ ≠ _))

/-- The flags that are set on a mount. -/
def countFlags (mnt : Mount) : ℕ := flags.countP (hasmntopt mnt)

/-- The loop over the table. -/
def scan (prefixMax flagsMatched : ℕ) : List Mount → ℕ
  | [] => flagsMatched
  | mnt :: rest =>
    if ¬mnt.Listed then scan prefixMax flagsMatched rest
    else if mnt.dir <+: path ∧ mnt.dir.length > prefixMax then
      scan mnt.dir.length (countFlags hasmntopt flags mnt) rest
    else scan prefixMax flagsMatched rest

end Scan

def tstPathHasMntFlags (env : Environment) (path : Option (List Char))
    (flags : List (List Char)) : Outcome :=
  let path := path.getD env.tmpdir
  if ¬env.accessible path then
    .broken ("tst_path_has_mnt_flags: path ".toList ++ path ++ " doesn't exist".toList)
  else
    match env.mounts with
    | none => .broken "tst_path_has_mnt_flags: failed to open /proc/mounts".toList
    | some table => .returned (scan env.hasmntopt path flags 0 0 table)

/-- A mount point contains a path that equals it or goes on with a slash.  The root ends
with its slash. -/
def Contains (dir path : List Char) : Prop :=
  dir = path ∨ (if dir = ['/'] then [] else dir) ++ ['/'] <+: path

instance (dir path : List Char) : Decidable (Contains dir path) :=
  inferInstanceAs (Decidable (_ ∨ _))

/-- The last-listed mount among those with the longest mount point that contains the
path, at its place in the table. -/
structure IsMountOf (path : List Char) (before : List Mount) (mnt : Mount) (after : List Mount) :
    Prop where
  listed : mnt.Listed
  contains : Contains mnt.dir path
  longest : ∀ other ∈ before, other.Listed → Contains other.dir path →
    other.dir.length ≤ mnt.dir.length
  last : ∀ other ∈ after, other.Listed → Contains other.dir path →
    other.dir.length < mnt.dir.length

theorem Contains.textual {dir path : List Char} (hcontains : Contains dir path) : dir <+: path := by
  rcases hcontains with rfl | hslash
  · exact List.prefix_refl _
  · split at hslash
    · rename_i hroot
      rwa [hroot]
    · exact (List.prefix_append dir ['/']).trans hslash

theorem Mount.length_pos (mnt : Mount) : 0 < mnt.dir.length := by
  have habsolute := mnt.dir_absolute
  cases hdir : mnt.dir with
  | nil =>
      rw [hdir] at habsolute
      cases habsolute
  | cons first rest => exact Nat.succ_pos _

section Choice

variable {hasmntopt : Mount → List Char → Bool} {path : List Char} {flags : List (List Char)}

/-- A mount that the text of the path starts with. -/
def Candidate (path : List Char) (mnt : Mount) : Prop := mnt.Listed ∧ mnt.dir <+: path

instance (mnt : Mount) : Decidable (Candidate path mnt) := inferInstanceAs (Decidable (_ ∧ _))

/-- The mount that the loop has settled on, instead of its flags. -/
def choose (path : List Char) (best : Option Mount) : List Mount → Option Mount
  | [] => best
  | mnt :: rest =>
    if Candidate path mnt ∧ (best.elim 0 fun other => other.dir.length) < mnt.dir.length then
      choose path (some mnt) rest
    else choose path best rest

theorem scan_eq_choose (best : Option Mount) (table : List Mount) :
    scan hasmntopt path flags (best.elim 0 fun other => other.dir.length)
        (best.elim 0 (countFlags hasmntopt flags)) table =
      (choose path best table).elim 0 (countFlags hasmntopt flags) := by
  induction table generalizing best with
  | nil => rfl
  | cons mnt rest ih =>
      rw [scan, choose]
      by_cases hlisted : mnt.Listed
      · rw [if_neg (not_not_intro hlisted)]
        by_cases hlonger : mnt.dir <+: path ∧
            (best.elim 0 fun other => other.dir.length) < mnt.dir.length
        · rw [if_pos hlonger, if_pos ⟨⟨hlisted, hlonger.1⟩, hlonger.2⟩]
          exact ih (some mnt)
        · rw [if_neg hlonger, if_neg fun hchosen => hlonger ⟨hchosen.1.2, hchosen.2⟩]
          exact ih best
      · rw [if_pos hlisted, if_neg fun hchosen => hlisted hchosen.1.1]
        exact ih best

/-- What is chosen is what was best before, or the first-listed of the longest
candidates. -/
theorem choose_cases (best : Option Mount) (table : List Mount) :
    (choose path best table = best ∧ ∀ other ∈ table, Candidate path other →
        other.dir.length ≤ best.elim 0 fun mnt => mnt.dir.length) ∨
      ∃ before mnt after, table = before ++ mnt :: after ∧ Candidate path mnt ∧
        (∀ other ∈ before, Candidate path other → other.dir.length < mnt.dir.length) ∧
        (∀ other ∈ after, Candidate path other → other.dir.length ≤ mnt.dir.length) ∧
        (best.elim 0 fun other => other.dir.length) < mnt.dir.length ∧
        choose path best table = some mnt := by
  induction table generalizing best with
  | nil => exact .inl ⟨rfl, fun other hother => absurd hother List.not_mem_nil⟩
  | cons first rest ih =>
      rw [choose]
      by_cases hfirst : Candidate path first ∧
          (best.elim 0 fun other => other.dir.length) < first.dir.length
      · rw [if_pos hfirst]
        refine .inr ?_
        rcases ih (some first) with ⟨hchoose, hrest⟩ |
          ⟨before, mnt, after, rfl, hmnt, hbefore, hafter, hlonger, hchoose⟩
        · exact ⟨[], first, rest, rfl, hfirst.1, fun other hother => absurd hother List.not_mem_nil,
            hrest, hfirst.2, hchoose⟩
        · refine ⟨first :: before, mnt, after, rfl, hmnt, fun other hother hcandidate => ?_, hafter,
            hfirst.2.trans hlonger, hchoose⟩
          rcases List.mem_cons.mp hother with rfl | hother
          · exact hlonger
          · exact hbefore other hother hcandidate
      · rw [if_neg hfirst]
        have hshort (hcandidate : Candidate path first) :
            first.dir.length ≤ best.elim 0 fun other => other.dir.length :=
          not_lt.mp fun hlt => hfirst ⟨hcandidate, hlt⟩
        rcases ih best with ⟨hchoose, hrest⟩ |
          ⟨before, mnt, after, rfl, hmnt, hbefore, hafter, hlonger, hchoose⟩
        · refine .inl ⟨hchoose, fun other hother hcandidate => ?_⟩
          rcases List.mem_cons.mp hother with rfl | hother
          · exact hshort hcandidate
          · exact hrest other hother hcandidate
        · refine .inr ⟨first :: before, mnt, after, rfl, hmnt, fun other hother hcandidate => ?_,
            hafter, hlonger, hchoose⟩
          rcases List.mem_cons.mp hother with rfl | hother
          · exact (hshort hcandidate).trans_lt hlonger
          · exact hbefore other hother hcandidate

/-- The loop settles on a candidate if and only if no candidate has a longer mount point
and none listed before it has the same one. -/
theorem choose_eq_iff {table : List Mount} {right : Mount} (hright : right ∈ table)
    (hcandidate : Candidate path right) : choose path none table = some right ↔
      (∀ other ∈ table, Candidate path other → other.dir.length ≤ right.dir.length) ∧
        table.find? (fun other => other.Listed ∧ other.dir = right.dir) = some right := by
  rcases @choose_cases path none table with ⟨-, hnone⟩ |
    ⟨before, mnt, after, rfl, hmnt, hbefore, hafter, -, hchoose⟩
  · exact absurd (hnone right hright hcandidate) (not_le.mpr right.length_pos)
  · have hall : ∀ other ∈ before ++ mnt :: after, Candidate path other →
        other.dir.length ≤ mnt.dir.length := by
      intro other hother hcandidate
      rcases List.mem_append.mp hother with hother | hother
      · exact (hbefore other hother hcandidate).le
      · rcases List.mem_cons.mp hother with rfl | hother
        · exact le_rfl
        · exact hafter other hother hcandidate
    have hfind (hdir : mnt.dir = right.dir) : (before ++ mnt :: after).find?
        (fun other => other.Listed ∧ other.dir = right.dir) = some mnt := by
      rw [List.find?_append, List.find?_eq_none.mpr, Option.none_or, List.find?_cons_of_pos]
      · simpa using ⟨hmnt.1, hdir⟩
      · intro other hother
        simp only [decide_eq_true_eq, not_and]
        intro hlisted hsame
        have hlt := hbefore other hother ⟨hlisted, hsame ▸ hcandidate.2⟩
        rw [hsame, hdir] at hlt
        exact lt_irrefl _ hlt
    rw [hchoose, Option.some_inj]
    constructor
    · rintro rfl
      exact ⟨hall, hfind rfl⟩
    · rintro ⟨hlongest, hfirst⟩
      have hlength : mnt.dir.length = right.dir.length :=
        le_antisymm (hlongest mnt (by simp) hmnt) (hall right hright hcandidate)
      have hdir : mnt.dir = right.dir :=
        (List.prefix_of_prefix_length_le hmnt.2 hcandidate.2 hlength.le).eq_of_length hlength
      rw [hfind hdir, Option.some_inj] at hfirst
      exact hfirst

end Choice

/-- The flags are those of the mount that contains the path, whatever the options mean,
if and only if no mount point that the path starts with is longer, and none listed
before is the same. -/
theorem tstPathHasMntFlags_iff {tmpdir path : List Char} {accessible : List Char → Bool}
    {before after : List Mount} {mnt : Mount} (hexists : accessible path = true)
    (hmount : IsMountOf path before mnt after) :
    (∀ hasmntopt flags, tstPathHasMntFlags ⟨tmpdir, accessible, some (before ++ mnt :: after),
        hasmntopt⟩ (some path) flags = .returned (flags.countP (hasmntopt mnt))) ↔
      (∀ other ∈ before ++ mnt :: after, other.Listed → other.dir <+: path →
          other.dir.length ≤ mnt.dir.length) ∧
        (before ++ mnt :: after).find? (fun other => other.Listed ∧ other.dir = mnt.dir) =
          some mnt := by
  have hcandidate : Candidate path mnt := ⟨hmount.listed, hmount.contains.textual⟩
  have hiff := @choose_eq_iff path (before ++ mnt :: after) mnt (by simp) hcandidate
  simp only [Candidate, and_imp] at hiff
  rw [← hiff]
  have hreturned (hasmntopt : Mount → List Char → Bool) (flags : List (List Char)) :
      tstPathHasMntFlags ⟨tmpdir, accessible, some (before ++ mnt :: after), hasmntopt⟩ (some path)
        flags = .returned ((choose path none (before ++ mnt :: after)).elim 0
          (countFlags hasmntopt flags)) := by
    rw [← scan_eq_choose none]
    simp [tstPathHasMntFlags, hexists]
  simp only [hreturned, Outcome.returned.injEq]
  constructor
  · intro hcount
    -- A single flag that only the right mount has tells the two apart.
    have hflag := hcount (fun other _ => decide (other = mnt)) [[]]
    cases hchoose : choose path none (before ++ mnt :: after) with
    | none => simp [hchoose] at hflag
    | some other =>
        simp only [hchoose, Option.elim_some, countFlags, List.countP_singleton, decide_true,
          if_true] at hflag
        by_contra hne
        rw [if_neg (by simpa using fun heq => hne (congrArg some heq))] at hflag
        exact absurd hflag (by decide)
  · intro hchoose hasmntopt flags
    rw [hchoose]
    rfl

def rootMount : Mount := ⟨"sda".toList, "/".toList, "rw".toList, by decide⟩

def mntMount : Mount := ⟨"sdb".toList, "/mnt".toList, "ro".toList, by decide⟩

def stackedMount : Mount := ⟨"sdc".toList, "/mnt".toList, "rw".toList, by decide⟩

theorem tstPathHasMntFlags_iff_mnt : tstPathHasMntFlags ⟨[], fun _ => true,
    some [rootMount, mntMount], fun mnt flag => decide (mnt.opts = flag)⟩ (some "/mnt/x".toList)
      ["ro".toList] = .returned 1 :=
  (@tstPathHasMntFlags_iff [] "/mnt/x".toList (fun _ => true) [rootMount] [] mntMount rfl
    ⟨by decide, by decide, by decide, by decide⟩).mpr ⟨by decide, by decide⟩ _ _

/-- The path `/mnt2/x` is taken to be on `/mnt`, and of two mounts on `/mnt` the hidden one
is looked at. -/
theorem tstPathHasMntFlags_wrong_mount :
    IsMountOf "/mnt2/x".toList [] rootMount [mntMount] ∧
      tstPathHasMntFlags ⟨[], fun _ => true, some [rootMount, mntMount],
        fun mnt flag => decide (mnt.opts = flag)⟩ (some "/mnt2/x".toList) ["rw".toList] =
          .returned 0 ∧
      IsMountOf "/mnt/x".toList [mntMount] stackedMount [] ∧
      tstPathHasMntFlags ⟨[], fun _ => true, some [mntMount, stackedMount],
        fun mnt flag => decide (mnt.opts = flag)⟩ (some "/mnt/x".toList) ["rw".toList] =
          .returned 0 := by
  refine ⟨⟨by decide, by decide, by decide, by decide⟩, by decide,
    ⟨by decide, by decide, by decide, by decide⟩, by decide⟩

end GrapheneLtp.MountFlags
