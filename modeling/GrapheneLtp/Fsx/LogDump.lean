import GrapheneLtp.Core.CheckedInt
import GrapheneLtp.Core.Decimal
import GrapheneLtp.Core.Hexadecimal

/-!
# The operation log of fsx

`fsx-linux.c` keeps its last operations in a circular log and prints it when a
check fails.  The number of an operation is not stored: it is computed from the
position in the log and the number of all operations.
-/

namespace GrapheneLtp.FsxLog

open CheckedInt Decimal Hexadecimal

section Code

inductive Operation where
  | read
  | write
  | truncate
  | closeopen
  | mapread
  | mapwrite
  | skipped
  | other (code : ℤ)
  deriving DecidableEq, Repr

structure LogEntry where
  operation : Operation
  sec : ℕ
  usec : ℕ
  args : Fin 3 → BitVec 32
  deriving DecidableEq

/-- `LOGSIZE`. -/
def logsize : ℕ := 1000

structure Log where
  oplog : ℕ → LogEntry
  logptr : ℕ
  logcount : ℤ

/-- The global variables before the first operation. -/
def Log.initial : Log := ⟨fun _ => ⟨.other 0, 0, 0, fun _ => 0⟩, 0, 0⟩

/-- `log4`.  There is no result if the count of the operations overflows. -/
def log4 (log : Log) (entry : LogEntry) : Option Log := do
  let logcount ← inInt (log.logcount + 1)
  let logptr := log.logptr + 1
  some ⟨Function.update log.oplog log.logptr entry,
    if logsize ≤ logptr then 0 else logptr, logcount⟩

def hexArg (value : BitVec 32) : List Char := "0x".toList ++ hex value.toNat

/-- The bytes that a read or write has touched, and a mark if the bad offset is
among them. -/
def extent (badoff : BitVec 32) (name mark : String) (args : Fin 3 → BitVec 32) : List Char :=
  name.toList ++ hexArg (args 0) ++ " thru ".toList ++ hexArg (args 0 + args 1 - 1) ++
    " (".toList ++ hexArg (args 1) ++ " bytes)".toList ++
    if (args 0).sle badoff && badoff.slt (args 0 + args 1) then mark.toList else []

/-- What a write adds behind its extent. -/
def writeNote (badoff : BitVec 32) (args : Fin 3 → BitVec 32) : List Char :=
  (if (args 2).slt (args 0) then " HOLE".toList
    else if (args 2).slt (args 0 + args 1) then " EXTEND".toList else []) ++
    if ((args 0).sle badoff || (args 2).sle badoff) && badoff.slt (args 0 + args 1)
    then "\t***WWWW".toList else []

def truncateNote (badoff : BitVec 32) (args : Fin 3 → BitVec 32) : List Char :=
  let down := (args 0).slt (args 1)
  "TRUNCATE ".toList ++ (if down then "DOWN" else "UP").toList ++ "\tfrom ".toList ++
    hexArg (args 1) ++ " to ".toList ++ hexArg (args 0) ++
    if (args (if down then 0 else 1)).sle badoff && badoff.slt (args (if down then 1 else 0))
    then "\t******WWWW".toList else []

/-- The `switch` of `logdump`. -/
def describe (badoff : BitVec 32) (entry : LogEntry) : List Char :=
  match entry.operation with
  | .mapread => extent badoff "MAPREAD  " "\t***RRRR***" entry.args
  | .mapwrite => extent badoff "MAPWRITE " "\t******WWWW" entry.args
  | .read => extent badoff "READ     " "\t***RRRR***" entry.args
  | .write => extent badoff "WRITE    " "" entry.args ++ writeNote badoff entry.args
  | .truncate => truncateNote badoff entry.args
  | .closeopen => "CLOSE/OPEN".toList
  | .skipped => "SKIPPED (no operation)".toList
  | .other code =>
    "BOGUS LOG ENTRY (operation code = ".toList ++ signedDecimal code ++ ")!".toList

/-- One line of the dump. -/
def lineText (badoff : BitVec 32) (opnum : ℤ) (entry : LogEntry) : List Char :=
  signedDecimal opnum ++ ':' :: ' ' :: decimal entry.sec ++ '.' ::
    List.leftpad 6 '0' (decimal entry.usec) ++ ' ' :: describe badoff entry ++ ['\n']

def headerText (logcount : ℤ) : List Char :=
  "LOG DUMP (".toList ++ signedDecimal logcount ++ " total operations):\n".toList

/-- The loop of `logdump`, with what is left of `count`. -/
def dumpLoop (log : Log) : ℕ → ℕ → Option (List (ℤ × LogEntry))
  | 0, _ => some []
  | count + 1, i => do
    let opnum ← inInt (i + 1 + log.logcount / logsize * logsize)
    let lines ← dumpLoop log count (if i + 1 = logsize then 0 else i + 1)
    some ((opnum, log.oplog i) :: lines)

/-- The lines of the dump: the log from its start on, or once around from the
current position. -/
def dumpLines (log : Log) : Option (List (ℤ × LogEntry)) :=
  if log.logcount < logsize then dumpLoop log log.logcount.toNat 0
  else dumpLoop log logsize log.logptr

/-- `logdump`. -/
def logdump (badoff : BitVec 32) (log : Log) : Option (List Char) := do
  let lines ← dumpLines log
  some (headerText log.logcount ++ lines.flatMap fun line => lineText badoff line.1 line.2)

end Code

section Meaning

/-- The last operations, oldest first, with their numbers from 1 on. -/
def lastOperations (ops : List LogEntry) : List (LogEntry × ℕ) :=
  (ops.zipIdx 1).drop (ops.length - logsize)

/-- What should be printed after these operations. -/
def dumpOf (badoff : BitVec 32) (ops : List LogEntry) : List Char :=
  headerText ops.length ++
    (lastOperations ops).flatMap fun numbered => lineText badoff numbered.2 numbered.1

end Meaning

section Log

/-- The log after some operations: the last ones are in it, each at its number
modulo the size. -/
structure Holds (log : Log) (ops : List LogEntry) : Prop where
  logcount : log.logcount = ops.length
  logptr : log.logptr = ops.length % logsize
  entry : ∀ k, ∀ hk : k < ops.length, ops.length ≤ k + logsize →
    log.oplog (k % logsize) = ops[k]

theorem holds_initial : Holds Log.initial [] where
  logcount := rfl
  logptr := rfl
  entry := by
    intro k hk
    cases hk

theorem Holds.log4 {log next : Log} {ops : List LogEntry} {entry : LogEntry}
    (hlog : Holds log ops) (hnext : log4 log entry = some next) : Holds next (ops ++ [entry]) := by
  rw [FsxLog.log4, Option.bind_eq_bind, Option.bind_eq_some_iff] at hnext
  obtain ⟨logcount, hcount, hnext⟩ := hnext
  obtain rfl := Option.some.inj hnext
  obtain ⟨-, rfl⟩ := inInt_eq_some_iff.mp hcount
  have hptr := hlog.logptr
  refine ⟨by simp [hlog.logcount], ?_, ?_⟩
  · simp only [List.length_append, List.length_singleton, hptr]
    unfold logsize
    split_ifs <;> omega
  · intro k hk hlast
    rw [List.length_append, List.length_singleton] at hk hlast
    simp only [hptr]
    rcases Nat.lt_succ_iff_lt_or_eq.mp hk with hbefore | rfl
    · -- The slot of an older operation that is still held is another one.
      have hslot : k % logsize ≠ ops.length % logsize := by
        unfold logsize at hlast ⊢
        omega
      rw [Function.update_of_ne hslot, hlog.entry k hbefore (by omega),
        List.getElem_append_left hbefore]
    · rw [Function.update_self, List.getElem_concat_length rfl]

/-- Every log that operations leave holds the last of them. -/
theorem holds_of_logged {ops : List LogEntry} {log : Log}
    (hlogged : ops.foldlM log4 Log.initial = some log) : Holds log ops := by
  induction ops using List.reverseRecOn generalizing log with
  | nil =>
    obtain rfl := Option.some.inj hlogged
    exact holds_initial
  | append_singleton ops entry ih =>
    rw [List.foldlM_append, Option.bind_eq_bind, Option.bind_eq_some_iff] at hlogged
    obtain ⟨before, hbefore, hlast⟩ := hlogged
    rw [List.foldlM_cons, Option.bind_eq_bind, Option.bind_eq_some_iff] at hlast
    obtain ⟨after, hafter, hlast⟩ := hlast
    obtain rfl := Option.some.inj hlast
    exact (ih hbefore).log4 hafter

theorem exists_logged {ops : List LogEntry} (hops : ops.length < 2 ^ 31) :
    ∃ log, ops.foldlM log4 Log.initial = some log := by
  induction ops using List.reverseRecOn with
  | nil => exact ⟨_, rfl⟩
  | append_singleton ops entry ih =>
    rw [List.length_append, List.length_singleton] at hops
    obtain ⟨before, hbefore⟩ := ih (by omega)
    have hcount : inInt (before.logcount + 1) = some (before.logcount + 1) :=
      inInt_eq_some_iff.mpr ⟨by
        rw [(holds_of_logged hbefore).logcount]
        constructor <;> omega, rfl⟩
    obtain ⟨after, hafter⟩ : ∃ after, log4 before entry = some after := by
      rw [log4, hcount]
      exact ⟨_, rfl⟩
    refine ⟨after, ?_⟩
    rw [List.foldlM_append, hbefore, Option.bind_eq_bind, Option.bind_some, List.foldlM_cons,
      hafter]
    rfl

end Log

section Dump

variable {log : Log} {ops : List LogEntry}

/-- The number that is printed for operation `k` of `n`. -/
def label (n k : ℕ) : ℤ := (k % logsize : ℕ) + 1 + (n : ℤ) / logsize * logsize

/-- The lines from operation `first` on are those of the operations, with the
computed numbers. -/
theorem dumpLoop_eq (hlog : Holds log ops) {first count : ℕ}
    (hfirst : ops.length ≤ first + logsize) (hcount : first + count ≤ ops.length)
    (hlabels : ∀ k, FitsInt (label ops.length k)) :
    dumpLoop log count (first % logsize) =
      some (((ops.zipIdx).drop first).take count |>.map fun numbered =>
        (label ops.length numbered.2, numbered.1)) := by
  induction count generalizing first with
  | zero => rfl
  | succ count ih =>
    have hhere : first < ops.length := by omega
    have hnext : (if first % logsize + 1 = logsize then 0 else first % logsize + 1) =
        (first + 1) % logsize := by
      unfold logsize
      split_ifs <;> omega
    have hopnum : inInt ((first % logsize : ℕ) + 1 + log.logcount / logsize * logsize) =
        some (label ops.length first) := by
      rw [hlog.logcount]
      exact inInt_eq_some_iff.mpr ⟨hlabels first, rfl⟩
    have hline : (ops.zipIdx).drop first =
        (ops[first], first) :: (ops.zipIdx).drop (first + 1) := by
      rw [List.drop_eq_getElem_cons (by simpa using hhere)]
      simp
    rw [dumpLoop, hopnum, hnext, ih (by omega) (by omega), hline, hlog.entry first hhere hfirst]
    rfl

/-- The operations are printed in their order whatever their number: only the
labels can be wrong. -/
theorem dumpLines_eq (hlog : Holds log ops) (hlabels : ∀ k, FitsInt (label ops.length k)) :
    dumpLines log = some ((ops.zipIdx.drop (ops.length - logsize)).map fun numbered =>
        (label ops.length numbered.2, numbered.1)) := by
  have hcount := hlog.logcount
  unfold dumpLines
  split_ifs with hsmall
  · have hfew : ops.length < logsize := by omega
    have hstart := @dumpLoop_eq log ops hlog 0 ops.length (by omega) (by omega) hlabels
    rw [hcount, Int.toNat_natCast, Nat.sub_eq_zero_of_le hfew.le]
    rw [Nat.zero_mod] at hstart
    rw [hstart, List.take_of_length_le (by simp)]
  · have hmany : logsize ≤ ops.length := by omega
    have hstart := @dumpLoop_eq log ops hlog (ops.length - logsize) logsize (by omega) (by omega)
      hlabels
    have hptr : (ops.length - logsize) % logsize = log.logptr := by
      rw [hlog.logptr]
      unfold logsize at hmany ⊢
      omega
    rw [hptr] at hstart
    rw [hstart, List.take_of_length_le (by simp [hmany])]

/-- The first label of a full log is too large by the size of the log. -/
theorem exists_first_line (hlog : Holds log ops) (hfull : logsize ≤ ops.length)
    {badoff : BitVec 32} {text : List Char} (htext : logdump badoff log = some text) :
    ∃ rest, text = headerText ops.length ++ (signedDecimal (ops.length + 1) ++ ':' :: rest) := by
  have hcount := hlog.logcount
  rw [logdump, dumpLines, if_neg (by omega), Option.bind_eq_bind,
    Option.bind_eq_some_iff] at htext
  obtain ⟨lines, hlines, htext⟩ := htext
  have hsize : logsize = 999 + 1 := rfl
  rw [hsize, dumpLoop, Option.bind_eq_bind, Option.bind_eq_some_iff] at hlines
  obtain ⟨opnum, hopnum, hlines⟩ := hlines
  rw [Option.bind_eq_bind, Option.bind_eq_some_iff] at hlines
  obtain ⟨others, -, hlines⟩ := hlines
  obtain rfl := Option.some.inj hlines
  obtain rfl := Option.some.inj htext
  obtain ⟨-, rfl⟩ := inInt_eq_some_iff.mp hopnum
  have hlabel : (log.logptr : ℤ) + 1 + log.logcount / logsize * logsize = ops.length + 1 := by
    rw [hcount, hlog.logptr]
    unfold logsize
    omega
  rw [hlabel, hcount, List.flatMap_cons, lineText]
  simp only [List.append_assoc, List.cons_append]
  exact ⟨_, rfl⟩

theorem exists_first_expected (hfull : logsize ≤ ops.length) (badoff : BitVec 32) :
    ∃ rest, dumpOf badoff ops = headerText ops.length ++
      (signedDecimal ((ops.length - logsize : ℕ) + 1) ++ ':' :: rest) := by
  have hpos : 0 < logsize := by decide
  have hfirst : ops.length - logsize < (ops.zipIdx 1).length := by
    rw [List.length_zipIdx]
    omega
  rw [dumpOf, lastOperations, List.drop_eq_getElem_cons hfirst, List.flatMap_cons, lineText]
  simp only [List.append_assoc, List.cons_append, List.getElem_zipIdx, Nat.cast_add, Nat.cast_one,
    add_comm (1 : ℤ)]
  exact ⟨_, rfl⟩

theorem logdump_ne_of_full (hlog : Holds log ops) (hfull : logsize ≤ ops.length)
    (badoff : BitVec 32) : logdump badoff log ≠ some (dumpOf badoff ops) := by
  intro hdump
  obtain ⟨rest, hrest⟩ := exists_first_line hlog hfull hdump
  obtain ⟨other, hother⟩ := exists_first_expected hfull badoff
  rw [hother] at hrest
  have hlabel := congrArg atoi (List.append_cancel_left hrest)
  rw [atoi_signedDecimal _ _ (by decide), atoi_signedDecimal _ _ (by decide)] at hlabel
  have hpos : 0 < logsize := by decide
  omega

/-- After every sequence of operations the dump shows the last of them, oldest
first and with their numbers, exactly if the log has not gone around. -/
theorem logdump_iff (badoff : BitVec 32) (ops : List LogEntry) :
    (∃ log, ops.foldlM log4 Log.initial = some log ∧
      logdump badoff log = some (dumpOf badoff ops)) ↔ ops.length < logsize := by
  constructor
  · rintro ⟨log, hlogged, hdump⟩
    by_contra hfull
    exact logdump_ne_of_full (holds_of_logged hlogged) (not_lt.mp hfull) badoff hdump
  · intro hfew
    have hfit : ops.length < 2 ^ 31 := hfew.trans (by decide)
    obtain ⟨log, hlogged⟩ := exists_logged hfit
    have hlog := holds_of_logged hlogged
    have hlabel (k : ℕ) : label ops.length k = (k % logsize : ℕ) + 1 := by
      unfold label logsize at *
      omega
    have hlabels (k : ℕ) : FitsInt (label ops.length k) := by
      rw [hlabel, FitsInt]
      unfold logsize
      omega
    refine ⟨log, hlogged, ?_⟩
    rw [logdump, dumpLines_eq hlog hlabels, hlog.logcount, dumpOf, lastOperations,
      Nat.sub_eq_zero_of_le hfew.le, List.drop_zero, List.drop_zero, Option.bind_eq_bind,
      Option.bind_some, List.flatMap_map, List.zipIdx_succ, List.flatMap_map]
    congr 2
    apply List.flatMap_congr
    intro numbered hmem
    have hindex := List.snd_lt_of_mem_zipIdx hmem
    rw [hlabel, Nat.mod_eq_of_lt (by omega)]
    rfl

/-- Of a thousand operations the first one is printed as number 1001. -/
theorem logdump_thousand :
    ¬∃ log, (List.replicate 1000 (⟨.closeopen, 0, 0, fun _ => 0⟩ : LogEntry)).foldlM log4
        Log.initial = some log ∧
      logdump 0 log = some (dumpOf 0 (List.replicate 1000 ⟨.closeopen, 0, 0, fun _ => 0⟩)) := by
  rintro ⟨log, hlogged, hdump⟩
  refine logdump_ne_of_full (holds_of_logged hlogged) ?_ 0 hdump
  rw [List.length_replicate]
  exact le_rfl

end Dump

end GrapheneLtp.FsxLog
