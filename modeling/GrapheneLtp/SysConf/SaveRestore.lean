import GrapheneLtp.Core.CString
import GrapheneLtp.Core.LastWrite

/-!
# Saving and restoring the configuration of the system

`tst_sys_conf.c`: a save keeps the first line of a file in front of a list, and
may write a new value; the restore writes the whole list back from its front.  A
file that was saved several times is written several times, its first content
last.  Files are reached by paths, and several paths may lead to one file.
-/

namespace GrapheneLtp.SysConf

open CString LastWrite

section Model

/-- `TST_SR_TBROK_MISSING`, `TST_SR_SKIP_MISSING`, `TST_SR_TBROK_RO`,
`TST_SR_SKIP_RO` and `TST_SR_IGNORE_ERR`. -/
def tstSrTbrokMissing : BitVec 32 := 0x1
def tstSrSkipMissing : BitVec 32 := 0x2
def tstSrTbrokRo : BitVec 32 := 0x4
def tstSrSkipRo : BitVec 32 := 0x8
def tstSrIgnoreErr : BitVec 32 := 0x10

/-- A call of `tst_sys_conf_save`: the fields of `struct tst_path_val`, and what
the system answers.  `failed` is what the file holds if the write or the close
fails. -/
structure SaveCall where
  path : Option (List Char)
  val : Option (List Char)
  flags : BitVec 32
  found : Bool
  writable : Bool
  opensRead : Bool
  opensWrite : Bool
  failed : Option (List Char)

def SaveCall.hasFlag (call : SaveCall) (flag : BitVec 32) : Bool := call.flags &&& flag ≠ 0

/-- How a call ends: it returns, or the test breaks. -/
inductive Outcome
  | ret (value : ℤ)
  | tbrok
  | tconf
deriving DecidableEq, Repr

variable {File : Type*}

/-- The contents of the files, and `save_restore_data` with its paths and
values. -/
structure State (File : Type*) where
  files : File → List Char
  data : List (List Char × List Char)

/-- `tst_sys_conf_save_str`. -/
def tstSysConfSaveStr (path value : List Char) (state : State File) : State File :=
  { state with data := (path.take (pathMax - 1), (cString value).take (pathMax - 1)) :: state.data }

/-- `print_error`, and what is returned if it comes back. -/
def printError (infoOnly : Bool) (value : ℤ) : Outcome :=
  if infoOnly then .ret value else .tbrok

variable [DecidableEq File] (resolve : List Char → File)

/-- The end of `tst_sys_conf_save`: the new value is written. -/
def writeVal (call : SaveCall) (path val : List Char) (state : State File) : Outcome × State File :=
  if call.opensWrite = false then
    (printError (call.hasFlag tstSrIgnoreErr) 0, state)
  else
    let content := call.failed.getD val
    let state := { state with files := Function.update state.files (resolve path) content }
    (if call.failed.isSome then printError (call.hasFlag tstSrIgnoreErr) 0 else .ret 0, state)

/-- `tst_sys_conf_save`.  The system finds no path of `PATH_MAX` characters. -/
def tstSysConfSave (call : SaveCall) (state : State File) : Outcome × State File :=
  match call.path with
  | none => (.tbrok, state)
  | some path =>
    if (call.found && decide (path.length < pathMax)) = false then
      (if call.hasFlag tstSrSkipMissing then .ret 1
        else if call.hasFlag tstSrTbrokMissing then .tbrok else .tconf, state)
    else if call.writable = false then
      (if call.hasFlag tstSrSkipRo then .ret 1
        else if call.hasFlag tstSrTbrokRo then .tbrok else .tconf, state)
    else if call.opensRead = false then
      (printError (call.hasFlag tstSrIgnoreErr) 1, state)
    else
      match fgets pathMax (state.files (resolve path)) with
      | none => (if call.hasFlag tstSrIgnoreErr then .ret 1 else .tbrok, state)
      | some (line, _) =>
        let state := tstSysConfSaveStr path line state
        match call.val with
        | none => (.ret 0, state)
        | some val => writeVal resolve call path val state

/-- `FILE_PRINTF` of one entry, if its path can be opened. -/
def restoreEntry (opens : List Char → Bool) (files : File → List Char)
    (entry : List Char × List Char) : File → List Char :=
  if opens entry.1 then Function.update files (resolve entry.1) entry.2 else files

/-- `tst_sys_conf_restore`. -/
def tstSysConfRestore (opens : List Char → Bool) (state : State File) : State File :=
  { state with files := state.data.foldl (restoreEntry resolve opens) state.files }

/-- What happens between the start of a test and the restore. -/
inductive Op (File : Type*)
  | save (call : SaveCall)
  | write (file : File) (content : List Char)

/-- A run ends early if the test breaks. -/
def run : List (Op File) → State File → State File
  | [], state => state
  | .write file content :: rest, state =>
    run rest { state with files := Function.update state.files file content }
  | .save call :: rest, state =>
    match tstSysConfSave resolve call state with
    | (.ret _, after) => run rest after
    | (_, after) => after

end Model

section Saves

variable {File : Type*} [DecidableEq File] (resolve : List Char → File)

/-- The path that a call saves: it is found, writable and readable, and the file
is not empty. -/
def savedPath (call : SaveCall) (state : State File) : Option (List Char) :=
  call.path.filter fun path =>
    call.found && decide (path.length < pathMax) && call.writable && call.opensRead &&
      !(state.files (resolve path)).isEmpty

/-- The saves of a run in their order, each with the content of the file at that
time. -/
def saves : List (Op File) → State File → List (List Char × List Char)
  | [], _ => []
  | .write file content :: rest, state =>
    saves rest { state with files := Function.update state.files file content }
  | .save call :: rest, state =>
    ((savedPath resolve call state).map fun path =>
      (path, state.files (resolve path))).toList ++
      match tstSysConfSave resolve call state with
      | (.ret _, after) => saves rest after
      | _ => []

/-- One line that fits in the buffers. -/
structure SingleLine (content : List Char) : Prop where
  text : nul ∉ content
  line : '\n' ∉ content.dropLast
  short : content.length < pathMax

/-- What a save keeps of a content. -/
def kept (content : List Char) : List Char :=
  (cString (readLine (pathMax - 1) content).1).take (pathMax - 1)

theorem kept_of_singleLine {content : List Char} (hcontent : SingleLine content) :
    kept content = content := by
  have hfits : content.length ≤ pathMax - 1 := Nat.le_sub_one_of_lt hcontent.short
  rw [kept, readLine_take hcontent.line, List.take_of_length_le hfits,
    cString_of_not_mem hcontent.text, List.take_of_length_le hfits]

theorem writeVal_data (call : SaveCall) (path val : List Char) (state : State File) :
    (writeVal resolve call path val state).2.data = state.data := by
  unfold writeVal
  by_cases hopens : call.opensWrite = false
  · rw [if_pos hopens]
  · rw [if_neg hopens]

/-- A call adds the path it saves, with what is kept of the file, to the list. -/
theorem tstSysConfSave_data (call : SaveCall) (state : State File) :
    (tstSysConfSave resolve call state).2.data = ((savedPath resolve call state).map fun path =>
        (path, kept (state.files (resolve path)))).toList ++ state.data := by
  unfold tstSysConfSave savedPath
  cases hpath : call.path with
  | none => rfl
  | some path =>
    dsimp only
    rw [Option.filter_some]
    by_cases hfound : (call.found && decide (path.length < pathMax)) = false
    · simp [hfound]
    by_cases hwritable : call.writable = false
    · simp [hfound, hwritable]
    by_cases hopens : call.opensRead = false
    · simp [hfound, hwritable, hopens]
    rw [if_neg hfound, if_neg hwritable, if_neg hopens]
    rw [Bool.not_eq_false] at hfound hwritable hopens
    rw [hfound, hwritable, hopens]
    have hshort : path.take (pathMax - 1) = path := by
      rw [Bool.and_eq_true, decide_eq_true_eq] at hfound
      exact List.take_of_length_le (Nat.le_sub_one_of_lt hfound.2)
    by_cases hempty : state.files (resolve path) = []
    · simp [fgets, hempty]
    · have hnonempty : (true && true && true && !(state.files (resolve path)).isEmpty) = true := by
        simp [hempty]
      rw [if_pos hnonempty, fgets, if_neg hempty]
      have hsaved : (tstSysConfSaveStr path
          (readLine (pathMax - 1) (state.files (resolve path))).1 state).data =
          (path, kept (state.files (resolve path))) :: state.data := by
        rw [tstSysConfSaveStr, hshort]
        rfl
      cases hval : call.val with
      | none => exact hsaved
      | some val => exact (writeVal_data resolve call path val _).trans hsaved

/-- After a run the list holds its saves, the last one in front. -/
theorem run_data (ops : List (Op File)) (state : State File) : (run resolve ops state).data =
      ((saves resolve ops state).map fun save => (save.1, kept save.2)).reverse ++
        state.data := by
  induction ops generalizing state with
  | nil => rfl
  | cons op ops ih =>
    cases op with
    | write file content => exact ih _
    | save call =>
      have hdata := tstSysConfSave_data resolve call state
      have hone : (((savedPath resolve call state).map fun path =>
          (path, state.files (resolve path))).toList.map
            fun save => (save.1, kept save.2)).reverse =
          ((savedPath resolve call state).map fun path =>
            (path, kept (state.files (resolve path)))).toList := by
        cases savedPath resolve call state with
        | none => rfl
        | some path => rfl
      rw [run, saves]
      rcases hresult : tstSysConfSave resolve call state with ⟨outcome, after⟩
      rw [hresult] at hdata
      cases outcome with
      | ret value =>
        dsimp only
        rw [ih after, hdata, List.map_append, List.reverse_append, hone, List.append_assoc]
      | tbrok | tconf =>
        dsimp only
        rw [hdata, List.append_nil, hone]

end Saves

section Restore

variable {File : Type*} (resolve : List Char → File) (opens : List Char → Bool)

/-- The writes of a restore. -/
def restoreWrites (data : List (List Char × List Char)) : List (File × List Char) :=
  (data.filter fun entry => opens entry.1).map fun entry => (resolve entry.1, entry.2)

theorem restoreWrites_append (front back : List (List Char × List Char)) :
    restoreWrites resolve opens (front ++ back) =
      restoreWrites resolve opens front ++ restoreWrites resolve opens back := by
  simp [restoreWrites]

/-- A restore writes to files that the list leads to. -/
theorem exists_of_mem_restoreWrites {data : List (List Char × List Char)}
    {write : File × List Char} (hwrite : write ∈ restoreWrites resolve opens data) :
    ∃ entry ∈ data, resolve entry.1 = write.1 := by
  obtain ⟨entry, hentry, rfl⟩ := List.mem_map.mp hwrite
  exact ⟨entry, (List.mem_filter.mp hentry).1, rfl⟩

variable [DecidableEq File]

theorem tstSysConfRestore_files (state : State File) :
    (tstSysConfRestore resolve opens state).files =
      applyWrites (restoreWrites resolve opens state.data) state.files := by
  obtain ⟨files, data⟩ := state
  dsimp only [tstSysConfRestore]
  induction data generalizing files with
  | nil => rfl
  | cons entry data ih =>
    rw [List.foldl_cons, ih, restoreEntry, restoreWrites, restoreWrites]
    rw [List.filter_cons]
    by_cases hopens : opens entry.1 = true
    · rw [if_pos hopens, if_pos hopens]
      rfl
    · rw [if_neg hopens, if_neg hopens]

/-- The first save of a file is written back last. -/
theorem restore_first_save {ops : List (Op File)} {files : File → List Char}
    {front back : List (List Char × List Char)} {path content : List Char}
    (hsaves : saves resolve ops ⟨files, []⟩ = front ++ (path, content) :: back)
    (hfirst : ∀ earlier ∈ front, resolve earlier.1 ≠ resolve path)
    (hopens : opens path = true) :
    (tstSysConfRestore resolve opens (run resolve ops ⟨files, []⟩)).files
      (resolve path) = kept content := by
  have hdata := run_data resolve ops ⟨files, []⟩
  rw [hsaves, List.append_nil, List.map_append, List.map_cons, List.reverse_append,
    List.reverse_cons, List.append_assoc] at hdata
  rw [tstSysConfRestore_files, hdata, restoreWrites_append, restoreWrites_append]
  have hone : restoreWrites resolve opens [(path, kept content)] =
      [(resolve path, kept content)] := by
    simp [restoreWrites, hopens]
  rw [hone, List.singleton_append]
  refine applyWrites_append_cons (fun write hwrite heq => ?_) _ _ _
  obtain ⟨entry, hentry, hfile⟩ := exists_of_mem_restoreWrites resolve opens hwrite
  obtain ⟨save, hsave, rfl⟩ := List.mem_map.mp (List.mem_reverse.mp hentry)
  exact hfirst save hsave (hfile.trans heq)

/-- The restore gives every file that was saved as one line the content of its
first save, as far as the file can be opened, writes to no other file, and once
more does the same. -/
theorem tstSysConfRestore_restores (ops : List (Op File)) (files : File → List Char) :
    (∀ front path content back, saves resolve ops ⟨files, []⟩ = front ++ (path, content) :: back →
      (∀ earlier ∈ front, resolve earlier.1 ≠ resolve path) →
      SingleLine content → opens path = true →
        (tstSysConfRestore resolve opens (run resolve ops ⟨files, []⟩)).files
          (resolve path) = content) ∧
    (∀ file, (∀ save ∈ saves resolve ops ⟨files, []⟩, resolve save.1 ≠ file) →
      (tstSysConfRestore resolve opens (run resolve ops ⟨files, []⟩)).files file =
        (run resolve ops ⟨files, []⟩).files file) ∧
    tstSysConfRestore resolve opens
        (tstSysConfRestore resolve opens (run resolve ops ⟨files, []⟩)) =
      tstSysConfRestore resolve opens (run resolve ops ⟨files, []⟩) := by
  refine ⟨?_, ?_, ?_⟩
  · intro front path content back hsaves hfirst hline hopens
    rw [restore_first_save resolve opens hsaves hfirst hopens, kept_of_singleLine hline]
  · intro file hfile
    rw [tstSysConfRestore_files]
    refine applyWrites_of_not_mem (fun write hwrite heq => ?_) _
    obtain ⟨entry, hentry, hentryFile⟩ := exists_of_mem_restoreWrites resolve opens hwrite
    rw [run_data, List.append_nil, List.mem_reverse] at hentry
    obtain ⟨save, hsave, rfl⟩ := List.mem_map.mp hentry
    exact hfile save hsave (hentryFile.trans heq)
  · have hfiles := tstSysConfRestore_files resolve opens
      (tstSysConfRestore resolve opens (run resolve ops ⟨files, []⟩))
    have htwice : (tstSysConfRestore resolve opens
        (tstSysConfRestore resolve opens (run resolve ops ⟨files, []⟩))).files =
        (tstSysConfRestore resolve opens (run resolve ops ⟨files, []⟩)).files := by
      rw [hfiles, tstSysConfRestore_files]
      exact applyWrites_applyWrites _ _
    exact congrArg (fun files => State.mk files (run resolve ops ⟨_, []⟩).data) htwice

/-- A call that sets the only file. -/
def setting (val : String) : SaveCall :=
  ⟨some ['f'], some val.toList, 0, true, true, true, true, none⟩

/-- A file that is set twice, with another write in between. -/
theorem tstSysConfRestore_restores_setting : (tstSysConfRestore id (fun _ => true) (run id
      [.save (setting "1"), .write ['f'] ['x'], .save (setting "2")]
      ⟨fun _ => ['0', '\n'], []⟩)).files ['f'] = ['0', '\n'] :=
  (tstSysConfRestore_restores id (fun _ => true) _ _).1 [] ['f'] ['0', '\n']
    [(['f'], ['x'])] (by decide) (by simp) ⟨by decide, by decide, by decide⟩ rfl

/-- A line with a NUL in it is restored up to there, and a file that can no longer be opened
keeps its new value. -/
theorem tstSysConfRestore_changes :
    (tstSysConfRestore id (fun _ => true) (run id [.save (setting "1")]
      ⟨fun _ => ['a', nul, 'b', '\n'], []⟩)).files ['f'] = ['a'] ∧
    (tstSysConfRestore id (fun _ => false) (run id [.save (setting "1")]
      ⟨fun _ => ['0', '\n'], []⟩)).files ['f'] = ['1'] := by
  decide

end Restore

end GrapheneLtp.SysConf
