import GrapheneLtp.Core.Decimal

/-!
# Forking copies of a process

`forker` in `forker.c` makes copies of the calling process, all of them its children
(the default) or each the child of the one before (mode 1).  Every process goes on
with its own copy of the variables and returns from `forker` by itself.
-/

namespace GrapheneLtp.Forker

open Decimal

section Code

/-- `FORKER_MAX_PIDS`. -/
def forkerMaxPids : ℕ := 4098

/-- A process with its copies of `Forker_pids` and `Forker_npids`, and the places of
`Forker_pids` that it or its ancestors have written to. -/
structure Process where
  pid : ℕ+
  parent : ℕ
  forkerPids : ℕ → ℕ
  forkerNpids : ℕ
  written : List ℕ

/-- A write to `Forker_pids`. -/
def Process.store (process : Process) (index value : ℕ) : Process :=
  { process with
    forkerPids := Function.update process.forkerPids index value
    written := process.written ++ [index] }

/-- After a fork, both processes count it and note the new pid. -/
def Process.note (process : Process) (pid : ℕ+) : Process :=
  let forkerNpids := process.forkerNpids + 1
  let counted := { process with forkerNpids }
  if forkerNpids < forkerMaxPids then counted.store (forkerNpids - 1) pid else counted

/-- The new process. -/
def Process.child (process : Process) (pid : ℕ+) : Process :=
  { process with pid := pid, parent := process.pid }

/-- A process that has returned from `forker`, with what it returned and printed. -/
structure Returned where
  process : Process
  value : ℤ
  message : List Char

/-- The processes that come out of one: itself, and those forked from it or from its
descendants, in the order in which they were created. -/
structure Family where
  self : Returned
  others : List Returned

/-- The answers of the system: the pid of the new process or an errno for each fork,
and the texts of the errors. -/
structure System where
  fork : ℕ → Except ℕ ℕ+
  strerror : ℕ → List Char

variable (system : System) (mode : ℤ) (prefixText : Option (List Char))

/-- The message after a failed fork. -/
def errorText (errno : ℕ) : List Char :=
  match prefixText with
  | none => []
  | some name => name ++ ": forker.c,forker(): fork() failed, errno:".toList ++ decimal errno ++
      ' ' :: system.strerror errno ++ ['\n']

/-- What follows the loop. -/
def finish (cnt : ℕ) (self : Process) : Returned :=
  ⟨if self.forkerNpids < forkerMaxPids then self.store self.forkerNpids 0 else self,
    (cnt : ℤ) - 1, []⟩

/-- The loop, with the number of rounds that are left. -/
def forkLoop : ℕ → ℕ → Process → Family
  | 0, cnt, self => ⟨finish cnt self, []⟩
  | rounds + 1, cnt, self =>
    match system.fork cnt with
    | .error errno =>
      ⟨⟨self, if mode = 1 then 0 else (cnt : ℤ) - 1, errorText system prefixText errno⟩, []⟩
    | .ok pid =>
      if mode = 1 then
        -- The parent stops and the child goes on.
        let rest := forkLoop rounds (cnt + 1) ((self.child pid).note pid)
        ⟨⟨self.note pid, (cnt : ℤ) - 1, []⟩, rest.self :: rest.others⟩
      else
        -- The child stops and the parent goes on.
        let rest := forkLoop rounds (cnt + 1) (self.note pid)
        ⟨rest.self, ⟨(self.child pid).note pid, cnt, []⟩ :: rest.others⟩

/-- `forker`. -/
def forker (ncopies : ℕ) (self : Process) : Family :=
  forkLoop system mode prefixText (ncopies - 1) 1 (self.store 0 0)

/-- The process that calls `forker` for the first time. -/
def caller (pid : ℕ+) (parent : ℕ) : Process := ⟨pid, parent, fun _ => 0, 0, []⟩

end Code

section Meaning

/-- The pids of the forks that succeed, up to the first that fails. -/
def forked (system : System) : ℕ → ℕ → List ℕ+
  | 0, _ => []
  | rounds + 1, cnt =>
    match system.fork cnt with
    | .error _ => []
    | .ok pid => pid :: forked system rounds (cnt + 1)

/-- The table holds the first of these pids in order. -/
def Holds (process : Process) (pids : List ℕ+) : Prop :=
  ∀ i, ∀ hi : i < pids.length, i < forkerMaxPids → process.forkerPids i = pids[i]

/-- What is documented for the processes after `forker`, with the pids of the forks that
have succeeded. -/
structure Documented (system : System) (mode : ℤ) (ncopies : ℕ) (pid : ℕ+) (pids : List ℕ+)
    (family : Family) : Prop where
  complete : (∀ cnt, ∃ new, system.fork cnt = .ok new) → pids.length = ncopies - 1
  created : family.others.map (fun other => other.process.pid) = pids
  star : mode ≠ 1 → ∀ other ∈ family.others, other.process.parent = pid
  chain : mode = 1 → family.others.map (fun other => other.process.parent) =
    ((pid :: pids).take pids.length).map PNat.val
  total : mode ≠ 1 → family.self.value = pids.length
  newest : mode = 1 → ((family.self :: family.others).getLast (List.cons_ne_nil _ _)).value =
    pids.length
  first : mode = 1 → pids ≠ [] → family.self.value = 1
  known : Holds family.self.process (if mode = 1 then pids.take 1 else pids)
  others : ∀ i other, family.others[i]? = some other →
    Holds other.process (pids.take (if mode = 1 then i + 2 else i + 1))
  inRange : ∀ returned ∈ family.self :: family.others, ∀ index ∈ returned.process.written,
    index < forkerMaxPids

end Meaning

section Tables

variable {process : Process} {pids : List ℕ+}

/-- The state of a process that has seen these forks: all but the last place of the
table is used. -/
structure Knows (process : Process) (pids : List ℕ+) : Prop where
  npids : process.forkerNpids = pids.length
  entry : ∀ i, process.forkerPids i =
    if i + 1 < forkerMaxPids then (pids[i]?.map PNat.val).getD 0 else 0
  inRange : ∀ index ∈ process.written, index < forkerMaxPids

/-- The bookkeeping leaves the place in the tree alone. -/
@[simp]
theorem note_pid (process : Process) (pid : ℕ+) : (process.note pid).pid = process.pid := by
  simp only [Process.note]
  split_ifs <;> rfl

@[simp]
theorem note_parent (process : Process) (pid : ℕ+) :
    (process.note pid).parent = process.parent := by
  simp only [Process.note]
  split_ifs <;> rfl

@[simp]
theorem finish_pid (cnt : ℕ) (process : Process) :
    (finish cnt process).process.pid = process.pid := by
  simp only [finish]
  split_ifs <;> rfl

@[simp]
theorem finish_parent (cnt : ℕ) (process : Process) :
    (finish cnt process).process.parent = process.parent := by
  simp only [finish]
  split_ifs <;> rfl

@[simp]
theorem child_pid (process : Process) (pid : ℕ+) : (process.child pid).pid = pid := rfl

@[simp]
theorem child_parent (process : Process) (pid : ℕ+) :
    (process.child pid).parent = process.pid := rfl

theorem knows_caller (pid : ℕ+) (parent : ℕ) : Knows ((caller pid parent).store 0 0) [] where
  npids := rfl
  entry := by
    intro i
    rw [List.getElem?_nil]
    by_cases hi : i = 0
    · subst hi
      simp [Process.store]
    · simp [Process.store, caller]
  inRange := by
    intro index hindex
    obtain rfl : index = 0 := by simpa [Process.store, caller] using hindex
    decide

theorem Knows.child (hknows : Knows process pids) (pid : ℕ+) : Knows (process.child pid) pids :=
  ⟨hknows.npids, hknows.entry, hknows.inRange⟩

theorem Knows.note (hknows : Knows process pids) (pid : ℕ+) :
    Knows (process.note pid) (pids ++ [pid]) := by
  have hnpids := hknows.npids
  unfold Process.note
  simp only [hnpids]
  split_ifs with hroom
  · refine ⟨by simp [Process.store], ?_, ?_⟩
    · intro i
      simp only [Process.store, Nat.add_sub_cancel]
      by_cases hi : i = pids.length
      · subst hi
        rw [Function.update_self, if_pos hroom]
        simp
      · rw [Function.update_of_ne hi, hknows.entry i]
        have hsame : (pids ++ [pid])[i]? = pids[i]? := by
          rcases lt_or_gt_of_ne hi with hlt | hgt
          · rw [List.getElem?_append_left hlt]
          · rw [List.getElem?_eq_none (by simp; omega), List.getElem?_eq_none (by omega)]
        rw [hsame]
    · intro index hindex
      simp only [Process.store, List.mem_append, List.mem_singleton] at hindex
      rcases hindex with hold | rfl
      · exact hknows.inRange index hold
      · omega
  · refine ⟨by simp, ?_, hknows.inRange⟩
    intro i
    rw [hknows.entry i]
    split_ifs with hi
    · rw [List.getElem?_append_left (by omega)]
    · rfl

theorem Knows.finish (hknows : Knows process pids) (cnt : ℕ) :
    Knows (finish cnt process).process pids := by
  unfold Forker.finish
  have hnpids := hknows.npids
  dsimp only
  split_ifs with hroom
  · refine ⟨hnpids, ?_, ?_⟩
    · intro i
      by_cases hi : i = process.forkerNpids
      · subst hi
        simp [Process.store, hnpids]
      · simp only [Process.store, Function.update_of_ne hi]
        exact hknows.entry i
    · intro index hindex
      simp only [Process.store, List.mem_append, List.mem_singleton] at hindex
      rcases hindex with hold | rfl
      · exact hknows.inRange index hold
      · exact hroom
  · exact hknows

/-- The table holds all pids while there are fewer than its places. -/
theorem Knows.holds (hknows : Knows process pids) (hfew : pids.length < forkerMaxPids) :
    Holds process pids := by
  intro i hi _
  rw [hknows.entry i, if_pos (by omega), List.getElem?_eq_getElem hi]
  rfl

/-- The last place is never used. -/
theorem Knows.not_holds (hknows : Knows process pids) (hmany : forkerMaxPids ≤ pids.length) :
    ¬Holds process pids := by
  intro hholds
  have hpos : 0 < forkerMaxPids := by decide
  have hlast := hholds (forkerMaxPids - 1) (by omega) (by omega)
  rw [hknows.entry, if_neg (by omega)] at hlast
  exact absurd hlast.symm (PNat.ne_zero _)

end Tables

section Families

variable {system : System} {mode : ℤ} {prefixText : Option (List Char)}

/-- What has become of the processes that a fork loop leaves, when all are children of
the process that runs it. -/
structure Star (process : Process) (known new : List ℕ+) (family : Family) : Prop where
  created : family.others.map (fun other => other.process.pid) = new
  parents : ∀ other ∈ family.others, other.process.parent = process.pid
  value : family.self.value = (known ++ new).length
  own : Knows family.self.process (known ++ new)
  others : ∀ i other, family.others[i]? = some other →
    Knows other.process (known ++ new.take (i + 1))

theorem forkLoop_star (hmode : mode ≠ 1) {self : Process} {known : List ℕ+}
    (hknows : Knows self known) (rounds : ℕ) :
    Star self known (forked system rounds (known.length + 1))
      (forkLoop system mode prefixText rounds (known.length + 1) self) := by
  induction rounds generalizing self known with
  | zero =>
    refine ⟨rfl, ?_, ?_, ?_, ?_⟩
    · intro other hother
      cases hother
    · simp [forkLoop, finish, forked]
    · simpa [forked, forkLoop] using hknows.finish _
    · intro i other hother
      simp [forkLoop] at hother
  | succ rounds ih =>
    rw [forkLoop, forked]
    cases hfork : system.fork (known.length + 1) with
    | error errno =>
      refine ⟨rfl, ?_, ?_, ?_, ?_⟩
      · intro other hother
        cases hother
      · simp [hmode]
      · simpa using hknows
      · intro i other hother
        simp at hother
    | ok pid =>
      have hrest := @ih (self.note pid) (known ++ [pid]) (hknows.note pid)
      rw [List.length_append, List.length_singleton] at hrest
      simp only [if_neg hmode]
      have hsplit (new : List ℕ+) : known ++ [pid] ++ new = known ++ pid :: new := by simp
      refine ⟨?_, ?_, ?_, ?_, ?_⟩
      · rw [List.map_cons, hrest.created, note_pid, child_pid]
      · intro other hother
        rcases List.mem_cons.mp hother with rfl | hlater
        · rw [note_parent, child_parent]
        · rw [hrest.parents other hlater, note_pid]
      · rw [hrest.value, hsplit]
      · rw [← hsplit]
        exact hrest.own
      · intro i other hother
        cases i with
        | zero =>
          rw [List.getElem?_cons_zero, Option.some_inj] at hother
          subst hother
          exact (hknows.child pid).note pid
        | succ i =>
          rw [List.getElem?_cons_succ] at hother
          rw [List.take_succ_cons, ← hsplit]
          exact hrest.others i other hother

/-- The same when each process is the child of the one before.  The first one always
returns its number, and the last one the total unless a fork has failed. -/
structure Chain (process : Process) (known new : List ℕ+) (complete : Prop) (family : Family) :
    Prop where
  created : family.others.map (fun other => other.process.pid) = new
  parents : family.others.map (fun other => other.process.parent) =
    ((process.pid :: new).take new.length).map PNat.val
  place : family.self.process.pid = process.pid ∧ family.self.process.parent = process.parent
  value : new ≠ [] → family.self.value = known.length
  newest : complete → ((family.self :: family.others).getLast (List.cons_ne_nil _ _)).value =
    (known ++ new).length
  own : Knows family.self.process (known ++ new.take 1)
  others : ∀ i other, family.others[i]? = some other →
    Knows other.process (known ++ new.take (i + 2))

theorem forkLoop_chain {self : Process} {known : List ℕ+} (hknows : Knows self known)
    (rounds : ℕ) : Chain self known (forked system rounds (known.length + 1))
      ((forked system rounds (known.length + 1)).length = rounds)
      (forkLoop system 1 prefixText rounds (known.length + 1) self) := by
  induction rounds generalizing self known with
  | zero =>
    refine ⟨rfl, rfl, by simp [forkLoop], fun hne => absurd rfl hne, ?_, ?_, ?_⟩
    · intro _
      simp [forkLoop, finish, forked]
    · simpa [forked, forkLoop] using hknows.finish _
    · intro i other hother
      simp [forkLoop] at hother
  | succ rounds ih =>
    rw [forkLoop, forked]
    cases hfork : system.fork (known.length + 1) with
    | error errno =>
      refine ⟨rfl, rfl, ⟨rfl, rfl⟩, fun hne => absurd rfl hne, ?_, ?_, ?_⟩
      · intro hcomplete
        cases hcomplete
      · simpa using hknows
      · intro i other hother
        simp at hother
    | ok pid =>
      have hrest := @ih ((self.child pid).note pid) (known ++ [pid]) ((hknows.child pid).note pid)
      rw [List.length_append, List.length_singleton] at hrest
      have hsplit (new : List ℕ+) : known ++ [pid] ++ new = known ++ pid :: new := by simp
      simp only [if_true]
      refine ⟨?_, ?_, by simp, ?_, ?_, ?_, ?_⟩
      · rw [List.map_cons, hrest.created, hrest.place.1, note_pid, child_pid]
      · rw [List.map_cons, hrest.parents, hrest.place.2, note_parent, child_parent, note_pid,
          child_pid, List.length_cons, List.take_succ_cons, List.map_cons]
      · intro _
        simp
      · intro hcomplete
        rw [List.getLast_cons (List.cons_ne_nil _ _), hrest.newest (by simpa using hcomplete),
          hsplit]
      · rw [List.take_succ_cons, List.take_zero]
        exact hknows.note pid
      · intro i other hother
        rw [List.take_succ_cons, ← hsplit]
        cases i with
        | zero =>
          rw [List.getElem?_cons_zero, Option.some_inj] at hother
          subst hother
          exact hrest.own
        | succ i =>
          rw [List.getElem?_cons_succ] at hother
          exact hrest.others i other hother

end Families

section Main

variable (system : System) (mode : ℤ) (prefixText : Option (List Char)) (ncopies : ℕ) (pid : ℕ+)
  (parent : ℕ)

/-- In mode 1 a process that has forked returns before it could count the fork. -/
theorem forker_chain : Chain ((caller pid parent).store 0 0) [] (forked system (ncopies - 1) 1)
    ((forked system (ncopies - 1) 1).length = ncopies - 1)
    (forker system 1 prefixText ncopies (caller pid parent)) :=
  forkLoop_chain (knows_caller pid parent) (ncopies - 1)

theorem forker_star (hmode : mode ≠ 1) :
    Star ((caller pid parent).store 0 0) [] (forked system (ncopies - 1) 1)
      (forker system mode prefixText ncopies (caller pid parent)) :=
  forkLoop_star hmode (knows_caller pid parent) (ncopies - 1)

/-- Without a fork there is one process, which returns zero in both modes. -/
theorem forker_alone (hnone : forked system (ncopies - 1) 1 = []) :
    (forker system mode prefixText ncopies (caller pid parent)).others = [] ∧
      (forker system mode prefixText ncopies (caller pid parent)).self.value = 0 ∧
      Knows (forker system mode prefixText ncopies (caller pid parent)).self.process [] := by
  by_cases hmode : mode = 1
  · subst hmode
    have hchain := forker_chain system prefixText ncopies pid parent
    rw [hnone] at hchain
    refine ⟨List.map_eq_nil_iff.mp hchain.created, ?_, hchain.own⟩
    unfold forker
    cases hrounds : ncopies - 1 with
    | zero => rfl
    | succ rounds =>
      rw [hrounds, forked] at hnone
      rw [forkLoop]
      cases hfork : system.fork 1 with
      | error errno => rfl
      | ok pid =>
        rw [hfork] at hnone
        cases hnone
  · have hstar := forker_star system mode prefixText ncopies pid parent hmode
    rw [hnone] at hstar
    exact ⟨List.map_eq_nil_iff.mp hstar.created, hstar.value, hstar.own⟩

/-- If no fork fails, all rounds of the loop make a process. -/
theorem length_forked (hall : ∀ cnt, ∃ pid, system.fork cnt = .ok pid) (rounds cnt : ℕ) :
    (forked system rounds cnt).length = rounds := by
  induction rounds generalizing cnt with
  | zero => rfl
  | succ rounds ih =>
    obtain ⟨pid, hpid⟩ := hall cnt
    rw [forked, hpid, List.length_cons, ih]

theorem documented_of_alone (hnone : forked system (ncopies - 1) 1 = []) :
    Documented system mode ncopies pid (forked system (ncopies - 1) 1)
      (forker system mode prefixText ncopies (caller pid parent)) := by
  obtain ⟨hothers, hvalue, hknows⟩ := forker_alone system mode prefixText ncopies pid parent hnone
  have hcomplete (hall : ∀ cnt, ∃ new, system.fork cnt = .ok new) :=
    length_forked system hall (ncopies - 1) 1
  rw [hnone] at hcomplete ⊢
  refine ⟨hcomplete, ?_, ?_, ?_, ?_, ?_, ?_, ?_, ?_, ?_⟩
  · rw [hothers]
    rfl
  · intro _ other hother
    rw [hothers] at hother
    cases hother
  · intro _
    rw [hothers]
    rfl
  · intro _
    exact hvalue
  · intro _
    simp only [hothers, List.getLast_singleton]
    exact hvalue
  · intro _ hne
    exact absurd rfl hne
  · intro i hi
    simp at hi
  · intro i other hother
    rw [hothers] at hother
    cases hother
  · intro returned hreturned
    rw [hothers, List.mem_singleton] at hreturned
    rw [hreturned]
    exact hknows.inRange

theorem documented_of_star (hmode : mode ≠ 1)
    (hfew : (forked system (ncopies - 1) 1).length < forkerMaxPids) :
    Documented system mode ncopies pid (forked system (ncopies - 1) 1)
      (forker system mode prefixText ncopies (caller pid parent)) := by
  have hstar := forker_star system mode prefixText ncopies pid parent hmode
  refine ⟨fun hall => length_forked system hall _ _, hstar.created, fun _ => hstar.parents,
    fun hone => absurd hone hmode, fun _ => hstar.value, fun hone => absurd hone hmode,
    fun hone => absurd hone hmode, ?_, ?_, ?_⟩
  · rw [if_neg hmode]
    exact hstar.own.holds hfew
  · intro i other hother
    rw [if_neg hmode]
    refine (hstar.others i other hother).holds (lt_of_le_of_lt ?_ hfew)
    simp
  · intro returned hreturned
    rcases List.mem_cons.mp hreturned with rfl | hother
    · exact hstar.own.inRange
    · obtain ⟨i, hi⟩ := List.mem_iff_getElem?.mp hother
      exact (hstar.others i returned hi).inRange

/-- For every number of copies, all modes and every pattern of forks that succeed or
fail, the processes are as documented exactly if no fork succeeds or, in the default mode,
fewer of them than the table has places. -/
theorem forker_documented_iff :
    Documented system mode ncopies pid (forked system (ncopies - 1) 1)
      (forker system mode prefixText ncopies (caller pid parent)) ↔
      forked system (ncopies - 1) 1 = [] ∨
        mode ≠ 1 ∧ (forked system (ncopies - 1) 1).length < forkerMaxPids := by
  constructor
  · intro hdocumented
    by_cases hnone : forked system (ncopies - 1) 1 = []
    · exact .inl hnone
    · have hmode : mode ≠ 1 := by
        rintro rfl
        have hvalue := (forker_chain system prefixText ncopies pid parent).value hnone
        rw [hdocumented.first rfl hnone] at hvalue
        cases hvalue
      refine .inr ⟨hmode, ?_⟩
      by_contra hmany
      have hknown := hdocumented.known
      rw [if_neg hmode] at hknown
      exact (forker_star system mode prefixText ncopies pid parent hmode).own.not_holds
        (not_lt.mp hmany) hknown
  · rintro (hnone | ⟨hmode, hfew⟩)
    · exact documented_of_alone system mode prefixText ncopies pid parent hnone
    · exact documented_of_star system mode prefixText ncopies pid parent hmode hfew

/-- In mode 1 the original process returns 0 after its fork. -/
theorem forker_chain_zero : ¬Documented ⟨fun _ => .ok 8, fun _ => []⟩ 1 2 7 [8]
    (forker ⟨fun _ => .ok 8, fun _ => []⟩ 1 none 2 (caller 7 1)) := by
  intro hdocumented
  have hfirst := hdocumented.first rfl (List.cons_ne_nil _ _)
  revert hfirst
  decide

end Main

end GrapheneLtp.Forker
