import GrapheneLtp.Core.CString

/-!
# rmobj and purge_dir

A file system is what stands at each position, a position being the names on the
way there.  The kernel refuses to remove some objects.  A directory is read once,
when it is opened, and its entries are removed one after the other.
-/

namespace GrapheneLtp.Removal

open CString (pathMax)

abbrev Name := List Char

abbrev Position := List Name

inductive Node where
  | dir
  | symlink (target : List Char)
  /-- Any other object. -/
  | file
  deriving DecidableEq, Repr

abbrev FileSystem := Position → Option Node

/-- What does not change: the entries that `readdir` returns for a directory, and the
objects that the kernel refuses to remove. -/
structure Kernel where
  entries : Position → List Name
  refused : Position → Bool

/-- The calls that open directories or remove objects. -/
inductive Call where
  | opendir (position : Position)
  | unlink (position : Position)
  /-- The branch for a directory with further links -/
  | unlinkDirectory (position : Position)
  | remove (position : Position)
  deriving DecidableEq

def Call.position : Call → Position
  | .opendir position | .unlink position | .unlinkDirectory position | .remove position => position

/-- A return value, the file system then, and the calls that were made. -/
structure Result where
  ret : ℤ
  fs : FileSystem
  calls : List Call

def isDot (name : Name) : Bool := name = ['.'] || name = ['.', '.']

section Code

variable (kernel : Kernel)

def erase (fs : FileSystem) (position : Position) : FileSystem := Function.update fs position none

/-- `unlink`, which does not follow links and does not take directories. -/
def unlink (fs : FileSystem) (position : Position) : ℤ × FileSystem :=
  if fs position = none ∨ fs position = some .dir ∨ kernel.refused position = true then (-1, fs)
  else (0, erase fs position)

/-- The entries of a directory that are there. -/
def present (fs : FileSystem) (position : Position) : List Name :=
  (kernel.entries position).filter fun name => !isDot name && (fs (position ++ [name])).isSome

/-- `remove`, which takes a directory only when it is empty. -/
def remove (fs : FileSystem) (position : Position) : ℤ × FileSystem :=
  if fs position = some .dir then
    if present kernel fs position ≠ [] ∨ kernel.refused position = true then (-1, fs)
    else (0, erase fs position)
  else unlink kernel fs position

/-- The link count of a directory. -/
def nlink (fs : FileSystem) (position : Position) : ℕ :=
  2 + (present kernel fs position).countP fun name => fs (position ++ [name]) = some .dir

/-- The removal of an entry.  A path that is too long for its buffer is undefined. -/
def removeEntry (rmobj : FileSystem → List Char → Position → Option Result) (fs : FileSystem)
    (dirobj : List Char) (position : Position) : Option Result :=
  if dirobj.length < pathMax then rmobj fs dirobj position else none

/-- The loop over the entries of a directory. -/
def purgeLoop (rmobj : FileSystem → List Char → Position → Option Result) (path : List Char)
    (position : Position) (ret : ℤ) (fs : FileSystem) : List Name → Option Result
  | [] => some ⟨ret, fs, []⟩
  | name :: rest =>
    if isDot name then purgeLoop rmobj path position ret fs rest
    else do
      let removed ← removeEntry rmobj fs (path ++ '/' :: name) (position ++ [name])
      let others ←
        purgeLoop rmobj path position (if removed.ret ≠ 0 then -1 else ret) removed.fs rest
      return { others with calls := removed.calls ++ others.calls }

def purgeDir (rmobj : FileSystem → List Char → Position → Option Result) (fs : FileSystem)
    (path : List Char) (position : Position) : Option Result :=
  if path = ['/'] then some ⟨-1, fs, []⟩
  else if fs position = some .dir then do
    let purged ← purgeLoop rmobj path position 0 fs (kernel.entries position)
    return { purged with calls := .opendir position :: purged.calls }
  else some ⟨-1, fs, []⟩

/-- The removal of an object, with the levels of recursion that are left. -/
def rmobj : ℕ → FileSystem → List Char → Position → Option Result
  | 0, _, _, _ => none
  | depth + 1, fs, obj, position =>
    if fs position = some .dir then do
      let purged ← purgeDir kernel (rmobj depth) fs obj position
      if purged.ret = -1 then return { purged with ret := -1 }
      else if purged.fs position = none then return { purged with ret := -1 }
      else if 3 ≤ nlink kernel purged.fs position then
        let removed := unlink kernel purged.fs position
        return ⟨removed.1, removed.2, purged.calls ++ [.unlinkDirectory position]⟩
      else
        let removed := remove kernel purged.fs position
        return ⟨removed.1, removed.2, purged.calls ++ [.remove position]⟩
    else
      let removed := unlink kernel fs position
      some ⟨removed.1, removed.2, [.unlink position]⟩

end Code

/-- The objects of a subtree, as the entries of its directories say. -/
structure Tree (kernel : Kernel) (fs : FileSystem) (position : Position) : Prop where
  present : fs position ≠ none
  listed : ∀ place, position <+: place → ∀ name, fs (place ++ [name]) ≠ none ↔
    fs place = some .dir ∧ name ∈ kernel.entries place ∧ isDot name = false
  nodup : ∀ place, (kernel.entries place).Nodup
  named : ∀ place, [] ∉ kernel.entries place

/-- A tree of limited depth whose paths are shorter than `PATH_MAX`. -/
def Fits (kernel : Kernel) (fs : FileSystem) : ℕ → List Char → Position → Prop
  | 0, _, _ => False
  | depth + 1, obj, position => fs position = some .dir → ∀ name ∈ kernel.entries position,
      isDot name = false → (obj ++ '/' :: name).length < pathMax ∧
        Fits kernel fs depth (obj ++ '/' :: name) (position ++ [name])

/-- The path of an object below another one. -/
def pathOf (obj : List Char) : Position → List Char
  | [] => obj
  | name :: rest => pathOf (obj ++ '/' :: name) rest

/-- All paths of a tree are shorter than `PATH_MAX`. -/
def Short (fs : FileSystem) (obj : List Char) (position : Position) : Prop :=
  ∀ below, fs (position ++ below) ≠ none → (pathOf obj below).length < pathMax

/-- An object that is refused, or an ancestor of one. -/
def Kept (kernel : Kernel) (fs : FileSystem) (place : Position) : Prop :=
  ∃ below, place <+: below ∧ kernel.refused below = true ∧ fs below ≠ none

/-- All of a subtree is removed that can be, and nothing else. -/
structure Removed (kernel : Kernel) (fs : FileSystem) (position : Position) (result : Result) :
    Prop where
  ret : result.ret = if result.fs position = none then 0 else -1
  outside : ∀ place, ¬position <+: place → result.fs place = fs place
  kept : ∀ place, position <+: place → Kept kernel fs place → result.fs place = fs place
  gone : ∀ place, position <+: place → ¬Kept kernel fs place → result.fs place = none
  within : ∀ call ∈ result.calls, position <+: call.position
  links : ∀ call ∈ result.calls, ∀ place target, position <+: place →
    fs place = some (.symlink target) → place <+: call.position → call = .unlink place
  directories : ∀ call ∈ result.calls, ∀ place, call ≠ .unlinkDirectory place

section Trees

variable {kernel : Kernel} {fs after : FileSystem} {position place : Position}

/-- What stands in a tree stands in directories. -/
theorem Tree.dir_of_below (htree : Tree kernel fs position) (hplace : position <+: place)
    {below : Position} (hbelow : place <+: below) (hne : place ≠ below) (hthere : fs below ≠ none) :
    fs place = some .dir := by
  induction below using List.reverseRecOn with
  | nil => exact absurd (List.prefix_nil.mp hbelow) hne
  | append_singleton parent name ih =>
      have hparent : place <+: parent := by
        rcases List.prefix_concat_iff.mp hbelow with heq | hparent
        · exact absurd heq hne
        · exact hparent
      have hdir := ((htree.listed parent (hplace.trans hparent) name).mp hthere).1
      obtain rfl | hother := eq_or_ne place parent
      · exact hdir
      · exact ih hparent hother (by rw [hdir]; exact Option.some_ne_none _)

theorem Tree.child (htree : Tree kernel fs position) {name : Name}
    (hdir : fs position = some .dir) (hname : name ∈ kernel.entries position)
    (hdot : isDot name = false) : Tree kernel fs (position ++ [name]) where
  present := (htree.listed position (List.prefix_refl _) name).mpr ⟨hdir, hname, hdot⟩
  listed place hplace := htree.listed place ((List.prefix_append _ _).trans hplace)
  nodup := htree.nodup
  named := htree.named

/-- Something stands below a name only if the name is an entry of a directory. -/
theorem Tree.listed_of_below (htree : Tree kernel fs position) {name : Name}
    (hname : position ++ [name] <+: place) (hthere : fs place ≠ none) :
    fs position = some .dir ∧ name ∈ kernel.entries position ∧ isDot name = false := by
  refine (htree.listed position (List.prefix_refl _) name).mp ?_
  obtain heq | hne := eq_or_ne (position ++ [name]) place
  · rwa [heq]
  · rw [htree.dir_of_below (List.prefix_append _ _) hname hne hthere]
    exact Option.some_ne_none _

/-- A tree does not depend on what stands elsewhere. -/
theorem Tree.congr (htree : Tree kernel fs position)
    (hsame : ∀ place, position <+: place → after place = fs place) :
    Tree kernel after position where
  present := by rw [hsame position (List.prefix_refl _)]; exact htree.present
  listed place hplace name := by
    rw [hsame place hplace, hsame _ (hplace.trans (List.prefix_append _ _))]
    exact htree.listed place hplace name
  nodup := htree.nodup
  named := htree.named

theorem Fits.congr {depth : ℕ} {obj : List Char} (hfits : Fits kernel fs depth obj position)
    (hsame : ∀ place, position <+: place → after place = fs place) :
    Fits kernel after depth obj position := by
  induction depth generalizing obj position with
  | zero => exact hfits
  | succ depth ih =>
      intro hdir name hname hdot
      rw [hsame position (List.prefix_refl _)] at hdir
      obtain ⟨hlength, hbelow⟩ := hfits hdir name hname hdot
      exact ⟨hlength, ih hbelow fun place hplace =>
        hsame place ((List.prefix_append _ _).trans hplace)⟩

/-- A path grows with each level, so short paths leave room for few levels. -/
theorem Short.fits {depth : ℕ} {obj : List Char} (hshort : Short fs obj position)
    (htree : Tree kernel fs position) (hdepth : pathMax ≤ depth + obj.length) :
    Fits kernel fs depth obj position := by
  induction depth generalizing obj position with
  | zero =>
      have hlength := hshort [] (by rw [List.append_nil]; exact htree.present)
      rw [pathOf] at hlength
      omega
  | succ depth ih =>
      intro hdir name hname hdot
      have hchild := htree.child hdir hname hdot
      have hbelow : Short fs (obj ++ '/' :: name) (position ++ [name]) := fun below hthere =>
        hshort (name :: below) (by rwa [List.append_cons])
      refine ⟨hbelow [] (by rw [List.append_nil]; exact hchild.present), ih hbelow hchild ?_⟩
      rw [List.length_append, List.length_cons]
      omega

theorem Kept.congr (hsame : ∀ below, place <+: below → after below = fs below) :
    Kept kernel after place ↔ Kept kernel fs place := by
  refine exists_congr fun below => and_congr_right fun hbelow => ?_
  rw [hsame below hbelow]

/-- Below two names of one directory nothing is the same. -/
theorem name_eq_of_below {first second : Name} (hfirst : position ++ [first] <+: place)
    (hsecond : position ++ [second] <+: place) : first = second := by
  have hle := List.prefix_of_prefix_length_le hfirst hsecond (by simp)
  have heq := hle.eq_of_length (by simp)
  simpa using heq

theorem antisymm_below (hplace : position <+: place) (hposition : place <+: position) :
    position = place :=
  hplace.eq_of_length (le_antisymm hplace.length_le hposition.length_le)

/-- What is below a position is the position itself or below one of its names. -/
theorem below_cases (hplace : position <+: place) :
    place = position ∨ ∃ name, position ++ [name] <+: place := by
  obtain ⟨rest, rfl⟩ := hplace
  cases rest with
  | nil => exact .inl (List.append_nil _)
  | cons name rest => exact .inr ⟨name, ⟨rest, by simp⟩⟩

/-- An object stays exactly if it is refused or the ancestor of a refused one. -/
theorem Removed.ret_eq_zero_iff {result : Result} (htree : Tree kernel fs position)
    (hremoved : Removed kernel fs position result) :
    result.ret = 0 ↔ ¬Kept kernel fs position := by
  rw [hremoved.ret]
  by_cases hkept : Kept kernel fs position
  · rw [hremoved.kept position (List.prefix_refl _) hkept, if_neg htree.present]
    simp [hkept]
  · rw [hremoved.gone position (List.prefix_refl _) hkept, if_pos rfl]
    simp [hkept]

end Trees

/-! ## The loop over the entries -/

/-- The entries of a directory that the loop goes through are removed as far as they
can be. -/
structure Purged (kernel : Kernel) (fs : FileSystem) (position : Position) (names : List Name)
    (ret : ℤ) (result : Result) : Prop where
  failed : (∃ name ∈ names, isDot name = false ∧ Kept kernel fs (position ++ [name])) →
    result.ret = -1
  succeeded : (∀ name ∈ names, isDot name = false → ¬Kept kernel fs (position ++ [name])) →
    result.ret = ret
  outside : ∀ place, (∀ name ∈ names, isDot name = false → ¬position ++ [name] <+: place) →
    result.fs place = fs place
  kept : ∀ name ∈ names, isDot name = false → ∀ place, position ++ [name] <+: place →
    Kept kernel fs place → result.fs place = fs place
  gone : ∀ name ∈ names, isDot name = false → ∀ place, position ++ [name] <+: place →
    ¬Kept kernel fs place → result.fs place = none
  within : ∀ call ∈ result.calls, ∃ name ∈ names, position ++ [name] <+: call.position
  links : ∀ call ∈ result.calls, ∀ name place target, position ++ [name] <+: place →
    fs place = some (.symlink target) → place <+: call.position → call = .unlink place
  directories : ∀ call ∈ result.calls, ∀ place, call ≠ .unlinkDirectory place

section Loop

variable {kernel : Kernel} {fs : FileSystem} {position : Position} {name : Name} {rest : List Name}
  {ret : ℤ} {depth : ℕ}

theorem mem_rest_of_visible {other : Name} (hdot : isDot name = true)
    (hother : other ∈ name :: rest) (hvisible : isDot other = false) : other ∈ rest := by
  rcases List.mem_cons.mp hother with rfl | hother
  · rw [hdot] at hvisible
    cases hvisible
  · exact hother

theorem Purged.skip {result : Result} (hdot : isDot name = true)
    (hpurged : Purged kernel fs position rest ret result) :
    Purged kernel fs position (name :: rest) ret result where
  failed := by
    rintro ⟨other, hother, hvisible, hkept⟩
    exact hpurged.failed ⟨other, mem_rest_of_visible hdot hother hvisible, hvisible, hkept⟩
  succeeded hnone := hpurged.succeeded fun other hother =>
    hnone other (List.mem_cons_of_mem _ hother)
  outside place hplace := hpurged.outside place fun other hother =>
    hplace other (List.mem_cons_of_mem _ hother)
  kept other hother hvisible :=
    hpurged.kept other (mem_rest_of_visible hdot hother hvisible) hvisible
  gone other hother hvisible :=
    hpurged.gone other (mem_rest_of_visible hdot hother hvisible) hvisible
  within call hcall := by
    obtain ⟨other, hother, hbelow⟩ := hpurged.within call hcall
    exact ⟨other, List.mem_cons_of_mem _ hother, hbelow⟩
  links := hpurged.links
  directories := hpurged.directories

/-- The removal of one entry, and then of the others. -/
theorem Purged.cons {removed others : Result} (hdot : isDot name = false) (hfresh : name ∉ rest)
    (htree : Tree kernel fs (position ++ [name]))
    (hremoved : Removed kernel fs (position ++ [name]) removed)
    (hpurged : Purged kernel removed.fs position rest (if removed.ret ≠ 0 then -1 else ret)
      others) :
    Purged kernel fs position (name :: rest) ret
      { others with calls := removed.calls ++ others.calls } := by
  have hzero := hremoved.ret_eq_zero_iff htree
  -- Below the other names nothing has changed.
  have hapart {other : Name} (hother : other ∈ rest) {place : Position}
      (hplace : position ++ [other] <+: place) : ¬position ++ [name] <+: place := fun hbelow =>
    hfresh (name_eq_of_below hbelow hplace ▸ hother)
  have hsame {other : Name} (hother : other ∈ rest) {place : Position}
      (hplace : position ++ [other] <+: place) : removed.fs place = fs place :=
    hremoved.outside place (hapart hother hplace)
  have hkeptIff {other : Name} (hother : other ∈ rest) {place : Position}
      (hplace : position ++ [other] <+: place) :
      Kept kernel removed.fs place ↔ Kept kernel fs place :=
    Kept.congr fun below hbelow => hsame hother (hplace.trans hbelow)
  have hlater {place : Position} (hplace : position ++ [name] <+: place) :
      others.fs place = removed.fs place :=
    hpurged.outside place fun other hother _ hbelow => hapart hother hbelow hplace
  refine ⟨?_, fun hnone => ?_, fun place hplace => ?_,
    fun other hother hvisible place hplace hkept => ?_,
    fun other hother hvisible place hplace hkept => ?_, fun call hcall => ?_,
    fun call hcall other place target hplace hlink hbelow => ?_, fun call hcall place => ?_⟩
  · rintro ⟨other, hother, hvisible, hkept⟩
    rcases List.mem_cons.mp hother with rfl | hother
    · have hstart : (if removed.ret ≠ 0 then -1 else ret) = -1 :=
        if_pos fun hret => hzero.mp hret hkept
      by_cases hmore : ∃ more ∈ rest, isDot more = false ∧
          Kept kernel removed.fs (position ++ [more])
      · exact hpurged.failed hmore
      · rw [← hstart]
        exact hpurged.succeeded fun more hmem hdot hkept => hmore ⟨more, hmem, hdot, hkept⟩
    · exact hpurged.failed ⟨other, hother, hvisible,
        (hkeptIff hother (List.prefix_refl _)).mpr hkept⟩
  · have hstart : (if removed.ret ≠ 0 then -1 else ret) = ret :=
      if_neg (not_not_intro (hzero.mpr (hnone name List.mem_cons_self hdot)))
    rw [← hstart]
    exact hpurged.succeeded fun other hother hdot hkept =>
      hnone other (List.mem_cons_of_mem _ hother) hdot
        ((hkeptIff hother (List.prefix_refl _)).mp hkept)
  · exact (hpurged.outside place fun other hother => hplace other
      (List.mem_cons_of_mem _ hother)).trans
        (hremoved.outside place (hplace name List.mem_cons_self hdot))
  · rcases List.mem_cons.mp hother with rfl | hother
    · exact (hlater hplace).trans (hremoved.kept place hplace hkept)
    · exact (hpurged.kept other hother hvisible place hplace
        ((hkeptIff hother hplace).mpr hkept)).trans (hsame hother hplace)
  · rcases List.mem_cons.mp hother with rfl | hother
    · exact (hlater hplace).trans (hremoved.gone place hplace hkept)
    · exact hpurged.gone other hother hvisible place hplace
        (mt (hkeptIff hother hplace).mp hkept)
  · rcases List.mem_append.mp hcall with hcall | hcall
    · exact ⟨name, List.mem_cons_self, hremoved.within call hcall⟩
    · obtain ⟨other, hother, hbelow⟩ := hpurged.within call hcall
      exact ⟨other, List.mem_cons_of_mem _ hother, hbelow⟩
  · rcases List.mem_append.mp hcall with hcall | hcall
    · obtain rfl := name_eq_of_below (hplace.trans hbelow) (hremoved.within call hcall)
      exact hremoved.links call hcall place target hplace hlink hbelow
    · obtain ⟨later, hlater, hcalled⟩ := hpurged.within call hcall
      refine hpurged.links call hcall other place target hplace ?_ hbelow
      rw [hremoved.outside place fun hname => hapart hlater hcalled (hname.trans hbelow)]
      exact hlink
  · rcases List.mem_append.mp hcall with hcall | hcall
    · exact hremoved.directories call hcall place
    · exact hpurged.directories call hcall place

/-- The loop, for a removal that is right on the subtrees. -/
theorem exists_purgeLoop {rmobj : FileSystem → List Char → Position → Option Result}
    (hrmobj : ∀ fs obj position, obj ≠ ['/'] → Tree kernel fs position →
      Fits kernel fs depth obj position →
      ∃ result, rmobj fs obj position = some result ∧ Removed kernel fs position result)
    {path : List Char} {position : Position} {ret : ℤ} {fs : FileSystem} {names : List Name}
    (hnodup : names.Nodup) (hnamed : [] ∉ names)
    (htrees : ∀ name ∈ names, isDot name = false → Tree kernel fs (position ++ [name]) ∧
      (path ++ '/' :: name).length < pathMax ∧
      Fits kernel fs depth (path ++ '/' :: name) (position ++ [name])) :
    ∃ result, purgeLoop rmobj path position ret fs names = some result ∧
      Purged kernel fs position names ret result := by
  induction names generalizing ret fs with
  | nil =>
      refine ⟨⟨ret, fs, []⟩, rfl, ?_⟩
      constructor <;> simp
  | cons name rest ih =>
      obtain ⟨hfresh, hrest⟩ := List.nodup_cons.mp hnodup
      have hnamedRest : [] ∉ rest := fun hmem => hnamed (List.mem_cons_of_mem _ hmem)
      by_cases hdot : isDot name = true
      · obtain ⟨result, hresult, hpurged⟩ := @ih ret fs hrest hnamedRest
          fun other hother => htrees other (List.mem_cons_of_mem _ hother)
        exact ⟨result, by rw [purgeLoop, if_pos hdot, hresult], hpurged.skip hdot⟩
      · have hvisible := Bool.eq_false_iff.mpr hdot
        obtain ⟨htree, hlength, hfits⟩ := htrees name List.mem_cons_self hvisible
        have hroot : path ++ '/' :: name ≠ ['/'] := fun heq => by
          have hpos := List.length_pos_of_ne_nil fun hnil => hnamed (hnil ▸ List.mem_cons_self)
          have hsize := congrArg List.length heq
          simp only [List.length_append, List.length_cons, List.length_nil] at hsize
          omega
        obtain ⟨removed, hcall, hremoved⟩ := hrmobj fs _ _ hroot htree hfits
        obtain ⟨others, hothers, hpurged⟩ := @ih (if removed.ret ≠ 0 then -1 else ret) removed.fs
          hrest hnamedRest fun other hother hvisible => by
            obtain ⟨htree, hlength, hfits⟩ := htrees other (List.mem_cons_of_mem _ hother) hvisible
            have hsame (place : Position) (hplace : position ++ [other] <+: place) :
                removed.fs place = fs place :=
              hremoved.outside place fun hbelow =>
                hfresh (name_eq_of_below hbelow hplace ▸ hother)
            exact ⟨htree.congr hsame, hlength, hfits.congr hsame⟩
        refine ⟨_, ?_, hpurged.cons hvisible hfresh htree hremoved⟩
        rw [purgeLoop, if_neg hdot, removeEntry, if_pos hlength, hcall, Option.bind_eq_bind,
          Option.bind_some, hothers]
        rfl

end Loop

/-! ## One object -/

section Object

variable {kernel : Kernel} {fs : FileSystem} {position : Position}

/-- An object is kept for its own sake or for that of one of its entries. -/
theorem kept_iff (htree : Tree kernel fs position) : Kept kernel fs position ↔
    kernel.refused position = true ∨ ∃ name ∈ kernel.entries position, isDot name = false ∧
      fs position = some .dir ∧ Kept kernel fs (position ++ [name]) := by
  constructor
  · rintro ⟨below, hbelow, hrefused, hthere⟩
    rcases below_cases hbelow with rfl | ⟨name, hname⟩
    · exact .inl hrefused
    · obtain ⟨hdir, hlisted, hdot⟩ := htree.listed_of_below hname hthere
      exact .inr ⟨name, hlisted, hdot, hdir, below, hname, hrefused, hthere⟩
  · rintro (hrefused | ⟨name, -, -, -, below, hbelow, hrefused, hthere⟩)
    · exact ⟨position, List.prefix_refl _, hrefused, htree.present⟩
    · exact ⟨below, (List.prefix_append _ _).trans hbelow, hrefused, hthere⟩

/-- What is asked of a call below a position. -/
def Proper (fs : FileSystem) (position : Position) (call : Call) : Prop :=
  position <+: call.position ∧ (∀ place target, position <+: place →
    fs place = some (.symlink target) → place <+: call.position → call = .unlink place) ∧
  ∀ place, call ≠ .unlinkDirectory place

/-- The object itself goes last. -/
theorem removed_of_parts {after : FileSystem} {ret : ℤ} {calls : List Call}
    (htree : Tree kernel fs position)
    (houtside : ∀ place, ¬position <+: place → after place = fs place)
    (hbelow : ∀ place, position <+: place → place ≠ position →
      (Kept kernel fs place → after place = fs place) ∧
        (¬Kept kernel fs place → after place = none))
    (hkept : Kept kernel fs position → ret = -1 ∧ after position = fs position)
    (hgone : ¬Kept kernel fs position → ret = 0 ∧ after position = none)
    (hproper : ∀ call ∈ calls, Proper fs position call) :
    Removed kernel fs position ⟨ret, after, calls⟩ where
  ret := by
    by_cases hself : Kept kernel fs position
    · obtain ⟨hret, hsame⟩ := hkept hself
      exact hret.trans (if_neg fun hnone => htree.present (hsame.symm.trans hnone)).symm
    · obtain ⟨hret, hnone⟩ := hgone hself
      exact hret.trans (if_pos hnone).symm
  outside := houtside
  kept place hplace hself := by
    obtain rfl | hne := eq_or_ne place position
    · exact (hkept hself).2
    · exact (hbelow place hplace hne).1 hself
  gone place hplace hself := by
    obtain rfl | hne := eq_or_ne place position
    · exact (hgone hself).2
    · exact (hbelow place hplace hne).2 hself
  within call hcall := (hproper call hcall).1
  links call hcall := (hproper call hcall).2.1
  directories call hcall := (hproper call hcall).2.2

theorem erase_of_ne {place : Position} (hne : place ≠ position) :
    erase fs position place = fs place :=
  Function.update_of_ne hne _ _

theorem unlink_of_ne {place : Position} (hne : place ≠ position) :
    (unlink kernel fs position).2 place = fs place := by
  rw [unlink]
  split
  · rfl
  · exact erase_of_ne hne

/-- What is not a directory has nothing below it. -/
theorem removed_unlink (htree : Tree kernel fs position) (hdir : fs position ≠ some .dir) :
    Removed kernel fs position
      ⟨(unlink kernel fs position).1, (unlink kernel fs position).2, [.unlink position]⟩ := by
  have hkept : Kept kernel fs position ↔ kernel.refused position = true := by
    rw [kept_iff htree]
    simp [hdir]
  have hnone {place : Position} (hplace : position <+: place) (hne : place ≠ position) :
      fs place = none := by
    by_contra hthere
    exact hdir (htree.dir_of_below (List.prefix_refl _) hplace hne.symm hthere)
  refine removed_of_parts htree (fun place hplace => unlink_of_ne fun heq =>
    hplace (heq ▸ List.prefix_refl _)) (fun place hplace hne => ?_) (fun hself => ?_)
    (fun hself => ?_) fun call hcall => ?_
  · rw [unlink_of_ne hne]
    exact ⟨fun _ => rfl, fun _ => hnone hplace hne⟩
  · rw [unlink, if_pos (.inr (.inr (hkept.mp hself)))]
    exact ⟨rfl, rfl⟩
  · rw [unlink, if_neg (by simp [htree.present, hdir, mt hkept.mpr hself])]
    exact ⟨rfl, Function.update_self _ _ _⟩
  · rw [List.mem_singleton.mp hcall]
    refine ⟨List.prefix_refl _, fun other target hother _ hbelow => ?_,
      fun other heq => by cases heq⟩
    rw [antisymm_below hother hbelow]

section Directory

/-- A call on a directory itself. -/
theorem proper_self {call : Call} (hdir : fs position = some .dir)
    (hcall : call.position = position) (hkind : ∀ place, call ≠ .unlinkDirectory place) :
    Proper fs position call := by
  refine ⟨hcall ▸ List.prefix_refl _, fun place target hplace hlink hbelow => ?_, hkind⟩
  rw [← antisymm_below hplace (hcall ▸ hbelow), hdir] at hlink
  cases hlink

variable {purged : Result} (htree : Tree kernel fs position) (hdir : fs position = some .dir)
  (hpurged : Purged kernel fs position (kernel.entries position) 0 purged)

include hpurged

theorem purged_self : purged.fs position = fs position :=
  hpurged.outside position fun _ _ _ hbelow => by simpa using hbelow.length_le

theorem purged_outside {place : Position} (hplace : ¬position <+: place) :
    purged.fs place = fs place :=
  hpurged.outside place fun _ _ _ hbelow => hplace ((List.prefix_append _ _).trans hbelow)

include htree in
/-- Below the directory all is gone that is not kept. -/
theorem purged_below {place : Position} (hplace : position <+: place) (hne : place ≠ position) :
    (Kept kernel fs place → purged.fs place = fs place) ∧
      (¬Kept kernel fs place → purged.fs place = none) := by
  obtain ⟨name, hname⟩ := (below_cases hplace).resolve_left hne
  by_cases hlisted : name ∈ kernel.entries position ∧ isDot name = false
  · exact ⟨hpurged.kept name hlisted.1 hlisted.2 place hname,
      hpurged.gone name hlisted.1 hlisted.2 place hname⟩
  · -- Under a name that is not an entry there is nothing.
    have hsame : purged.fs place = fs place :=
      hpurged.outside place fun other hother hdot hbelow =>
        hlisted (name_eq_of_below hname hbelow ▸ ⟨hother, hdot⟩)
    have hnone : fs place = none := by
      by_contra hthere
      exact hlisted (htree.listed_of_below hname hthere).2
    exact ⟨fun _ => hsame, fun _ => hsame.trans hnone⟩

include hdir

theorem purged_proper {call : Call} (hcall : call ∈ .opendir position :: purged.calls) :
    Proper fs position call := by
  rcases List.mem_cons.mp hcall with rfl | hcall
  · exact proper_self hdir rfl fun place heq => by cases heq
  · obtain ⟨name, -, hname⟩ := hpurged.within call hcall
    refine ⟨(List.prefix_append _ _).trans hname, fun place target hplace hlink hbelow => ?_,
      hpurged.directories call hcall⟩
    rcases below_cases hplace with rfl | ⟨other, hother⟩
    · rw [hdir] at hlink
      cases hlink
    · exact hpurged.links call hcall other place target hother hlink hbelow

include htree

/-- An entry that is kept keeps the directory. -/
theorem removed_failed (hfailed : ∃ name ∈ kernel.entries position, isDot name = false ∧
      Kept kernel fs (position ++ [name])) :
    Removed kernel fs position ⟨-1, purged.fs, .opendir position :: purged.calls⟩ := by
  obtain ⟨name, hname, hdot, hkept⟩ := hfailed
  have hself : Kept kernel fs position :=
    (kept_iff htree).mpr (.inr ⟨name, hname, hdot, hdir, hkept⟩)
  exact removed_of_parts htree (fun place => purged_outside hpurged)
    (fun place => purged_below htree hpurged) (fun _ => ⟨rfl, purged_self hpurged⟩)
    (fun hnot => absurd hself hnot) fun call => purged_proper hdir hpurged

variable (hempty : ∀ name ∈ kernel.entries position, isDot name = false →
  ¬Kept kernel fs (position ++ [name]))

include hempty

omit htree hdir in
/-- Without entries that are kept, the directory is empty. -/
theorem present_purged : present kernel purged.fs position = [] := by
  rw [present, List.filter_eq_nil_iff]
  intro name hname
  by_cases hdot : isDot name = true
  · simp [hdot]
  · have hvisible := Bool.eq_false_iff.mpr hdot
    have hgone := hpurged.gone name hname hvisible _ (List.prefix_refl _)
      (hempty name hname hvisible)
    simp [hgone]

theorem removed_remove : Removed kernel fs position
    ⟨(remove kernel purged.fs position).1, (remove kernel purged.fs position).2,
      (.opendir position :: purged.calls) ++ [.remove position]⟩ := by
  have hself := purged_self hpurged
  have hpresent := present_purged hpurged hempty
  have hkept : Kept kernel fs position ↔ kernel.refused position = true := by
    rw [kept_iff htree, or_iff_left]
    rintro ⟨name, hname, hdot, -, hkept⟩
    exact hempty name hname hdot hkept
  have hother {place : Position} (hne : place ≠ position) :
      (remove kernel purged.fs position).2 place = purged.fs place := by
    rw [remove, if_pos (hself.trans hdir)]
    split
    · rfl
    · exact erase_of_ne hne
  have hproper (call : Call)
      (hcall : call ∈ (.opendir position :: purged.calls) ++ [.remove position]) :
      Proper fs position call := by
    rcases List.mem_append.mp hcall with hcall | hcall
    · exact purged_proper hdir hpurged hcall
    · rw [List.mem_singleton.mp hcall]
      exact proper_self hdir rfl fun place heq => by cases heq
  refine removed_of_parts htree (fun place hplace => ?_) (fun place hplace hne => ?_)
    (fun hrefused => ?_) (fun hfree => ?_) hproper
  · rw [hother fun heq => hplace (heq ▸ List.prefix_refl _)]
    exact purged_outside hpurged hplace
  · rw [hother hne]
    exact purged_below htree hpurged hplace hne
  · rw [remove, if_pos (hself.trans hdir), if_pos (.inr (hkept.mp hrefused))]
    exact ⟨rfl, hself⟩
  · rw [remove, if_pos (hself.trans hdir), if_neg (by simp [hpresent, mt hkept.mpr hfree])]
    exact ⟨rfl, Function.update_self _ _ _⟩

end Directory

end Object

/-- Enough levels of recursion remove what can be removed. -/
theorem exists_rmobj {kernel : Kernel} (depth : ℕ) : ∀ fs obj position, obj ≠ ['/'] →
    Tree kernel fs position → Fits kernel fs depth obj position →
    ∃ result, rmobj kernel depth fs obj position = some result ∧
      Removed kernel fs position result := by
  induction depth with
  | zero => exact fun fs obj position _ _ hfits => absurd hfits id
  | succ depth ih =>
      intro fs obj position hroot htree hfits
      by_cases hdir : fs position = some .dir
      · obtain ⟨purged, hloop, hpurged⟩ := @exists_purgeLoop kernel depth (rmobj kernel depth) ih
          obj position 0 fs (kernel.entries position) (htree.nodup position) (htree.named position)
          fun name hname hdot => ⟨htree.child hdir hname hdot, hfits hdir name hname hdot⟩
        have hpurge : purgeDir kernel (rmobj kernel depth) fs obj position =
            some { purged with calls := .opendir position :: purged.calls } := by
          rw [purgeDir, if_neg hroot, if_pos hdir, hloop]
          rfl
        rw [rmobj, if_pos hdir, hpurge, Option.bind_eq_bind, Option.bind_some]
        by_cases hfailed : ∃ name ∈ kernel.entries position, isDot name = false ∧
            Kept kernel fs (position ++ [name])
        · rw [if_pos (hpurged.failed hfailed)]
          exact ⟨_, rfl, removed_failed htree hdir hpurged hfailed⟩
        · have hempty : ∀ name ∈ kernel.entries position, isDot name = false →
              ¬Kept kernel fs (position ++ [name]) := fun name hname hdot hkept =>
            hfailed ⟨name, hname, hdot, hkept⟩
          have hthere : purged.fs position ≠ none := by
            rw [purged_self hpurged]
            exact htree.present
          have hlinks : ¬3 ≤ nlink kernel purged.fs position := by
            rw [nlink, present_purged hpurged hempty]
            simp
          rw [if_neg (by rw [hpurged.succeeded hempty]; decide), if_neg hthere, if_neg hlinks]
          exact ⟨_, rfl, removed_remove htree hdir hpurged hempty⟩
      · rw [rmobj, if_neg hdir]
        exact ⟨_, rfl, removed_unlink htree hdir⟩

/-- The removal of a tree: it succeeds exactly if nothing is left, only refused objects and
their ancestors are left, and nothing else is touched. -/
theorem rmobj_removes {kernel : Kernel} {depth : ℕ} {fs : FileSystem} {obj : List Char}
    {position : Position} (hroot : obj ≠ ['/']) (htree : Tree kernel fs position)
    (hshort : Short fs obj position) (hdepth : pathMax ≤ depth) :
    ∃ result, rmobj kernel depth fs obj position = some result ∧
      (result.ret = 0 ↔ ∀ place, position <+: place → result.fs place = none) ∧
      Removed kernel fs position result := by
  obtain ⟨result, hresult, hremoved⟩ := exists_rmobj depth fs obj position hroot htree
    (hshort.fits htree (hdepth.trans (Nat.le_add_right _ _)))
  refine ⟨result, hresult, ⟨fun hret place hplace => ?_, fun hgone => ?_⟩, hremoved⟩
  · refine hremoved.gone place hplace fun hkept => ?_
    obtain ⟨below, hbelow, hrefused, hthere⟩ := hkept
    exact (hremoved.ret_eq_zero_iff htree).mp hret
      ⟨below, hplace.trans hbelow, hrefused, hthere⟩
  · rw [hremoved.ret, if_pos (hgone position (List.prefix_refl _))]

/-- A directory with one symbolic link in it. -/
def linkKernel : Kernel where
  entries place := if place = [] then [['.'], ['.', '.'], ['l']] else []
  refused _ := false

def linkTree : FileSystem := fun place =>
  if place = [] then some .dir else if place = [['l']] then some (.symlink ['/']) else none

theorem tree_linkTree : Tree linkKernel linkTree [] where
  present := by decide
  listed place _ name := by
    obtain rfl | hne := eq_or_ne place []
    · simp only [linkTree, linkKernel, List.nil_append, List.cons_ne_nil, if_false, if_true,
        true_and, List.mem_cons, List.not_mem_nil, or_false, List.cons.injEq, and_true]
      constructor
      · intro hname
        split at hname
        · rename_i heq
          subst heq
          decide
        · exact absurd rfl hname
      · rintro ⟨rfl | rfl | rfl, hdot⟩
        · cases hdot
        · cases hdot
        · simp
    · have hlong : place ++ [name] ≠ [['l']] := fun heq =>
        hne (by simpa using congrArg List.dropLast heq)
      simp [linkTree, linkKernel, hne, hlong]
  nodup place := by
    rw [linkKernel]
    dsimp only
    split
    · decide
    · exact List.nodup_nil
  named place := by
    rw [linkKernel]
    dsimp only
    split
    · decide
    · exact List.not_mem_nil

theorem short_linkTree (obj : List Char) (hlength : obj.length + 2 < pathMax) :
    Short linkTree obj [] := by
  intro below hthere
  rw [List.nil_append, linkTree] at hthere
  split at hthere
  · rename_i hroot
    rw [hroot, pathOf]
    omega
  · split at hthere
    · rename_i hlink
      rw [hlink, pathOf, pathOf, List.length_append]
      exact hlength
    · exact absurd rfl hthere

theorem rmobj_removes_link : ∃ result,
    rmobj linkKernel pathMax linkTree "/tmp/x".toList [] = some result ∧ result.ret = 0 ∧
      result.fs [['l']] = none := by
  have hnone (place : Position) : ¬Kept linkKernel linkTree place := by
    rintro ⟨below, -, hrefused, -⟩
    cases hrefused
  obtain ⟨result, hresult, -, hremoved⟩ := @rmobj_removes linkKernel pathMax linkTree
    "/tmp/x".toList [] (by decide) tree_linkTree (short_linkTree _ (by decide)) le_rfl
  exact ⟨result, hresult, (hremoved.ret_eq_zero_iff tree_linkTree).mpr (hnone []),
    hremoved.gone _ List.nil_prefix (hnone _)⟩

/-- The root of the system is not removed, although nothing is refused. -/
theorem rmobj_root :
    Tree linkKernel linkTree [] ∧ Short linkTree ['/'] [] ∧
      (∀ place, linkKernel.refused place = false) ∧
      (rmobj linkKernel pathMax linkTree ['/'] []).map
          (fun result => (result.ret, result.fs [['l']])) =
        some (-1, some (.symlink ['/'])) :=
  ⟨tree_linkTree, short_linkTree _ (by decide), fun _ => rfl, by decide⟩

end GrapheneLtp.Removal
