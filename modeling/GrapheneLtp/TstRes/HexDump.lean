import GrapheneLtp.Core.Bytes
import GrapheneLtp.Core.CString
import GrapheneLtp.Core.Hexadecimal

/-!
# Hex dumps behind a message

A model of `tst_resm_hexd_` of `lib/tst_res.c`.  The bytes of a buffer are printed
into the array that holds the message of the user.  A short buffer goes behind the
message; otherwise the message is passed on first, and the array is filled again from
its start for every sixteen bytes.
-/

namespace GrapheneLtp.HexDump

open CString Bytes Hexadecimal

section Code

/-- Length of the array for a message. -/
def usermesg : ℕ := 2048

/-- Number of digits of a byte. -/
def symbNum : ℕ := 2

/-- The bytes of one message. -/
def sizeMax : ℕ := 16

/-- Why the function does not return: an assertion fails, or it writes outside the
array. -/
inductive Failure where
  | assertion
  | outside
deriving DecidableEq, Repr

/-- The text that `"%02x"` prints for a byte. -/
def twoDigits (byte : UInt8) : List Char := List.leftpad 2 '0' (hex byte.toNat)

/-- The array, the position of `pmesg` in it, and the messages that the result function
has been called with. -/
structure Dump where
  tmesg : List Char
  pmesg : ℕ
  messages : List (List Char)
deriving DecidableEq, Repr

/-- A write to the array. -/
def write (array : List Char) (position : ℕ) (text : List Char) : Except Failure (List Char) :=
  match overwrite array position text with
  | none => .error .outside
  | some written => .ok written

/-- `EXPAND_VAR_ARGS`, for the text that the format and its arguments give. -/
def expandVarArgs (array text : List Char) : Except Failure (List Char) := do
  let written ← write array 0 (text.take (usermesg - 1) ++ [nul])
  if (cString written).length > 0 then .ok written else .error .assertion

/-- The call of the result function with the format `"%s"`. -/
def Dump.resFunc (dump : Dump) : Dump :=
  { dump with messages := dump.messages ++ [cString dump.tmesg] }

/-- The blank before a byte that is not the first one. -/
def Dump.addBlank (dump : Dump) : Except Failure Dump :=
  if dump.pmesg ≠ 0 then do
    let tmesg ← write dump.tmesg dump.pmesg [' ']
    .ok { dump with tmesg := tmesg, pmesg := dump.pmesg + 1 }
  else .ok dump

/-- The digits of a byte with the NUL that `sprintf` puts behind them. -/
def Dump.addByte (dump : Dump) (byte : UInt8) : Except Failure Dump := do
  let tmesg ← write dump.tmesg dump.pmesg (twoDigits byte ++ [nul])
  .ok { dump with tmesg := tmesg, pmesg := dump.pmesg + symbNum }

/-- The loop over the bytes that are left, of which the first has the number `i`. -/
def dumpLoop (size : ℕ) : (i : ℕ) → List UInt8 → Dump → Except Failure Dump
  | _, [], dump => .ok dump
  | i, byte :: rest, dump => do
    let dump ← dump.addBlank
    let dump ← dump.addByte byte
    if (i + 1) % sizeMax = 0 ∨ i + 1 = size then
      dumpLoop size (i + 1) rest { dump.resFunc with pmesg := 0 }
    else dumpLoop size (i + 1) rest dump

/-- The function, with the array as it is before it is filled. -/
def tstResmHexd (array message : List Char) (buf : List UInt8) :
    Except Failure (List (List Char)) := do
  let tmesg ← expandVarArgs array message
  let offset := (cString tmesg).length
  let size := buf.length
  let dump : Dump := ⟨tmesg, 0, []⟩
  let dump ← dumpLoop size 0 buf
    (if size > sizeMax ∨ size = 0 ∨ offset + size * (symbNum + 1) ≥ usermesg then dump.resFunc
    else { dump with pmesg := offset })
  .ok dump.messages

end Code

section Text

/-- A byte behind a text, with a blank unless the text is empty. -/
def appendByte (text : List Char) (byte : UInt8) : List Char :=
  (if text = [] then [] else text ++ [' ']) ++ twoDigits byte

/-- Bytes behind a text. -/
def appendBytes (text : List Char) (bytes : List UInt8) : List Char := bytes.foldl appendByte text

theorem length_twoDigits (byte : UInt8) : (twoDigits byte).length = 2 := by
  have hall : ∀ value < 256, (List.leftpad 2 '0' (hex value)).length = 2 := by decide +kernel
  exact hall byte.toNat byte.toNat_lt

theorem nul_not_mem_twoDigits (byte : UInt8) : nul ∉ twoDigits byte := by
  have hall : ∀ value < 256, nul ∉ List.leftpad 2 '0' (hex value) := by decide +kernel
  exact hall byte.toNat byte.toNat_lt

theorem appendBytes_concat (text : List Char) (bytes : List UInt8) (byte : UInt8) :
    appendBytes text (bytes ++ [byte]) = appendByte (appendBytes text bytes) byte :=
  List.foldl_concat appendByte text byte bytes

theorem length_appendByte_le (text : List Char) (byte : UInt8) :
    (appendByte text byte).length ≤ text.length + 3 := by
  rw [appendByte, List.length_append, length_twoDigits]
  split_ifs with hempty
  · simp
  · simp

theorem length_appendBytes_le (text : List Char) (bytes : List UInt8) :
    (appendBytes text bytes).length ≤ text.length + 3 * bytes.length := by
  induction bytes using List.reverseRecOn with
  | nil => exact le_rfl
  | append_singleton bytes byte ih =>
    have hstep := length_appendByte_le (appendBytes text bytes) byte
    rw [appendBytes_concat, List.length_append, List.length_singleton]
    omega

theorem nul_not_mem_appendByte {text : List Char} (htext : nul ∉ text) (byte : UInt8) :
    nul ∉ appendByte text byte := by
  have hblank : nul ≠ ' ' := by decide
  rw [appendByte, List.mem_append, not_or]
  refine ⟨?_, nul_not_mem_twoDigits byte⟩
  split_ifs with hempty
  · exact List.not_mem_nil
  · simp [htext, hblank]

theorem nul_not_mem_appendBytes {text : List Char} (htext : nul ∉ text) (bytes : List UInt8) :
    nul ∉ appendBytes text bytes := by
  induction bytes using List.reverseRecOn with
  | nil => exact htext
  | append_singleton bytes byte ih =>
    rw [appendBytes_concat]
    exact nul_not_mem_appendByte ih byte

end Text

section Array

/-- The text before `pmesg`. -/
structure Holds (dump : Dump) (text : List Char) : Prop where
  length : dump.tmesg.length = usermesg
  pmesg : dump.pmesg = text.length
  text : text <+: dump.tmesg

variable {dump : Dump} {text : List Char}

/-- A write behind the text that is there. -/
theorem write_behind {array added : List Char} (htext : text <+: array)
    (hroom : text.length + added.length ≤ array.length) :
    ∃ rest, write array text.length added = .ok (text ++ added ++ rest) ∧
      (text ++ added ++ rest).length = array.length := by
  obtain ⟨old, rfl⟩ := htext
  rw [List.length_append] at hroom
  refine ⟨old.drop added.length, ?_, ?_⟩
  · rw [write, overwrite, if_pos (by rw [List.length_append]; omega)]
    simp
  · simp only [List.length_append, List.length_drop]
    omega

theorem Holds.addBlank (hholds : Holds dump text) (hroom : text.length + 1 ≤ usermesg) :
    ∃ after, dump.addBlank = .ok after ∧ after.messages = dump.messages ∧
      Holds after (if text = [] then [] else text ++ [' ']) := by
  by_cases hempty : text = []
  · refine ⟨dump, ?_, rfl, ?_⟩
    · rw [Dump.addBlank, if_neg (by rw [hholds.pmesg, hempty]; simp)]
    · rwa [if_pos hempty, ← hempty]
  · obtain ⟨rest, hwrite, hlength⟩ := write_behind hholds.text
      (show text.length + [' '].length ≤ dump.tmesg.length by rw [hholds.length]; exact hroom)
    refine ⟨⟨text ++ [' '] ++ rest, dump.pmesg + 1, dump.messages⟩, ?_, rfl, ?_⟩
    · rw [Dump.addBlank, if_pos (by rw [hholds.pmesg]; simpa using hempty), hholds.pmesg, hwrite]
      rfl
    · rw [if_neg hempty]
      exact ⟨hlength.trans hholds.length, by simp [hholds.pmesg], ⟨rest, rfl⟩⟩

/-- The string in the array ends behind the byte. -/
theorem Holds.addByte (hholds : Holds dump text) (htext : nul ∉ text) (byte : UInt8)
    (hroom : text.length + 3 ≤ usermesg) :
    ∃ after, dump.addByte byte = .ok after ∧ after.messages = dump.messages ∧
      Holds after (text ++ twoDigits byte) ∧ cString after.tmesg = text ++ twoDigits byte := by
  have hfits : text.length + (twoDigits byte ++ [nul]).length ≤ dump.tmesg.length := by
    rw [hholds.length, List.length_append, length_twoDigits]
    exact hroom
  obtain ⟨rest, hwrite, hlength⟩ := write_behind hholds.text hfits
  refine ⟨⟨text ++ (twoDigits byte ++ [nul]) ++ rest, dump.pmesg + symbNum, dump.messages⟩,
    ?_, rfl, ⟨hlength.trans hholds.length, ?_, ?_⟩, ?_⟩
  · rw [Dump.addByte, hholds.pmesg, hwrite]
    rfl
  · simp [hholds.pmesg, length_twoDigits, symbNum]
  · exact ⟨nul :: rest, by simp⟩
  · have hnul : ∀ c ∈ text ++ twoDigits byte, (c != nul) = true := by
      intro c hc
      have hfree : nul ∉ text ++ twoDigits byte := by
        rw [List.mem_append, not_or]
        exact ⟨htext, nul_not_mem_twoDigits byte⟩
      simpa using ne_of_mem_of_not_mem hc hfree
    have hstop := @takeWhile_append_stop _ _ rest nul hnul (show (nul != nul) = false by decide)
    simpa [cString] using hstop

/-- One byte: the text grows by it, and the string in the array is the text. -/
theorem Holds.step (hholds : Holds dump text) (htext : nul ∉ text) (byte : UInt8)
    (hroom : text.length + 4 ≤ usermesg) :
    ∃ blank after, dump.addBlank = .ok blank ∧ blank.addByte byte = .ok after ∧
      after.messages = dump.messages ∧ Holds after (appendByte text byte) ∧
        cString after.tmesg = appendByte text byte := by
  obtain ⟨blank, hblank, hsame, hbehind⟩ := hholds.addBlank (by omega)
  have hfree : nul ∉ if text = [] then [] else text ++ [' '] := by
    intro hmem
    apply nul_not_mem_appendByte htext byte
    exact List.mem_append_left _ hmem
  obtain ⟨after, hafter, hmessages, hgrown, hstring⟩ := hbehind.addByte hfree byte (by
    split_ifs <;> simp <;> omega)
  exact ⟨blank, after, hblank, hafter, hmessages.trans hsame, hgrown, hstring⟩

end Array

section Loop

/-- The messages for groups of bytes, of which the first goes behind a text. -/
def groupMessages (head : List Char) : List (List UInt8) → List (List Char)
  | [] => []
  | group :: groups => appendBytes head group :: groups.map (appendBytes [])

/-- Groups as they are printed: all of them have sixteen bytes, but for the last one,
which may have fewer. -/
inductive Grouped : List (List UInt8) → Prop where
  | nil : Grouped []
  | last {group : List UInt8} (hne : group ≠ []) (hle : group.length ≤ sizeMax) : Grouped [group]
  | full {group : List UInt8} {groups : List (List UInt8)} (hfull : group.length = sizeMax)
    (hgroups : Grouped groups) : Grouped (group :: groups)

theorem Grouped.bounds {groups : List (List UInt8)} (hgrouped : Grouped groups) :
    ∀ group ∈ groups, group ≠ [] ∧ group.length ≤ sizeMax := by
  induction hgrouped with
  | nil =>
    intro group hgroup
    cases hgroup
  | last hne hle =>
    intro group hgroup
    rw [List.mem_singleton.mp hgroup]
    exact ⟨hne, hle⟩
  | full hfull _ ih =>
    intro group hgroup
    rcases List.mem_cons.mp hgroup with rfl | hlater
    · exact ⟨List.ne_nil_of_length_eq_add_one hfull, hfull.le⟩
    · exact ih group hlater

/-- Sixteen bytes or fewer are one group. -/
theorem Grouped.eq_singleton {groups : List (List UInt8)} (hgrouped : Grouped groups)
    (hne : groups.flatten ≠ []) (hle : groups.flatten.length ≤ sizeMax) :
    groups = [groups.flatten] := by
  cases hgrouped with
  | nil => exact absurd rfl hne
  | last => simp
  | @full group groups hfull hgroups =>
    have hrest : groups.flatten = [] := by
      rw [List.flatten_cons, List.length_append, hfull] at hle
      exact List.eq_nil_of_length_eq_zero (by omega)
    have hnone : groups = [] := by
      refine List.eq_nil_iff_forall_not_mem.mpr fun other hother => ?_
      exact (hgroups.bounds other hother).1 (List.flatten_eq_nil_iff.mp hrest other hother)
    simp [hnone]

section Counting

variable {i size : ℕ} {group : List UInt8} {byte : UInt8}

theorem succ_mod_sizeMax (hmod : i % sizeMax = group.length) :
    (i + 1) % sizeMax = (group.length + 1) % sizeMax := by
  rw [Nat.add_mod, hmod, Nat.mod_eq_of_lt (show 1 < sizeMax by decide)]

/-- A group that is passed on before the last byte is full. -/
theorem group_full (hmod : i % sizeMax = group.length) (hmore : i + 1 < size)
    (hflush : (i + 1) % sizeMax = 0 ∨ i + 1 = size) : (group ++ [byte]).length = sizeMax := by
  have hfew : group.length < sizeMax := hmod ▸ Nat.mod_lt i (by decide)
  have hzero := hflush.resolve_right hmore.ne
  rw [succ_mod_sizeMax hmod] at hzero
  have hdvd := Nat.le_of_dvd (by omega) (Nat.dvd_of_mod_eq_zero hzero)
  rw [List.length_append, List.length_singleton]
  omega

theorem group_open (hmod : i % sizeMax = group.length) (hopen : (i + 1) % sizeMax ≠ 0) :
    (i + 1) % sizeMax = (group ++ [byte]).length := by
  have hfew : group.length < sizeMax := hmod ▸ Nat.mod_lt i (by decide)
  rw [succ_mod_sizeMax hmod] at hopen ⊢
  rw [List.length_append, List.length_singleton]
  rcases Nat.lt_or_ge (group.length + 1) sizeMax with hlt | hge
  · exact Nat.mod_eq_of_lt hlt
  · exact absurd (by rw [show group.length + 1 = sizeMax by omega, Nat.mod_self]) hopen

end Counting

/-- The loop in the middle of a group, by induction on the bytes that are left: the
text behind `head` is the group so far. -/
theorem dumpLoop_groups {size : ℕ} (rest : List UInt8) :
    ∀ {i : ℕ} {dump : Dump} {head : List Char} {group : List UInt8},
      Holds dump (appendBytes head group) → nul ∉ head → i + rest.length = size →
      i % sizeMax = group.length → (rest = [] → group = []) →
      head.length + 3 * min size sizeMax < usermesg →
      ∃ groups after, dumpLoop size i rest dump = .ok after ∧
        after.messages = dump.messages ++ groupMessages head groups ∧
        groups.flatten = group ++ rest ∧ Grouped groups := by
  induction rest with
  | nil =>
    intro i dump head group hholds _ _ _ hend _
    exact ⟨[], dump, rfl, by simp [groupMessages], by simp [hend rfl], .nil⟩
  | cons byte rest ih =>
    intro i dump head group hholds hhead hsize hmod _ hroom
    rw [List.length_cons] at hsize
    have hfew : group.length < sizeMax := hmod ▸ Nat.mod_lt i (by decide)
    have hinside : group.length + 1 ≤ min size sizeMax := by
      have hle := Nat.mod_le i sizeMax
      omega
    have hlength := length_appendBytes_le head group
    obtain ⟨blank, next, hblank, hnext, hmessages, hgrown, hstring⟩ :=
      hholds.step (nul_not_mem_appendBytes hhead group) byte (by omega)
    rw [← appendBytes_concat] at hgrown hstring
    simp only [dumpLoop, hblank, hnext, bind, Except.bind]
    by_cases hflush : (i + 1) % sizeMax = 0 ∨ i + 1 = size
    · rw [if_pos hflush]
      -- the string is passed on, and the next group starts at the start of the array
      have hstart : Holds { next.resFunc with pmesg := 0 } (appendBytes [] []) :=
        ⟨hgrown.length, rfl, List.nil_prefix⟩
      have hsame : next.messages ++ [cString next.tmesg] =
          dump.messages ++ [appendBytes head (group ++ [byte])] := by
        rw [hmessages, hstring]
      by_cases hlast : rest = []
      · subst hlast
        refine ⟨[group ++ [byte]], _, rfl, hsame, by simp, .last (by simp) ?_⟩
        simpa using hfew
      · have hpos := List.length_pos_iff.mpr hlast
        have hmore : i + 1 < size := by omega
        have hfull : (group ++ [byte]).length = sizeMax := group_full hmod hmore hflush
        have hmodulus : (i + 1) % sizeMax = ([] : List UInt8).length :=
          hflush.resolve_right hmore.ne
        obtain ⟨groups, after, hloop, hafter, hflat, hgrouped⟩ := ih hstart List.not_mem_nil
          (show i + 1 + rest.length = size by omega) hmodulus (fun _ => rfl) (by
            have hsmall : min size sizeMax ≤ sizeMax := min_le_right _ _
            have hbound : 3 * sizeMax < usermesg := by decide
            rw [List.length_nil]
            omega)
        refine ⟨(group ++ [byte]) :: groups, after, hloop, ?_, ?_, .full hfull hgrouped⟩
        · rw [hafter, Dump.resFunc, hsame, List.append_assoc]
          cases groups <;> rfl
        · simp [hflat]
    · rw [if_neg hflush]
      obtain ⟨hopen, hmore⟩ := not_or.mp hflush
      have hmodulus : (i + 1) % sizeMax = (group ++ [byte]).length := group_open hmod hopen
      obtain ⟨groups, after, hloop, hafter, hflat, hgrouped⟩ := ih hgrown hhead
        (show i + 1 + rest.length = size by omega) hmodulus (by
          rintro rfl
          exact absurd (by simpa using hsize) hmore) hroom
      refine ⟨groups, after, hloop, ?_, ?_, hgrouped⟩
      · rw [hafter, hmessages]
      · rw [hflat, List.append_assoc, List.singleton_append]

end Loop

section Main

variable {array message : List Char}

/-- The message is in the array when it has been expanded. -/
theorem expandVarArgs_message (harray : array.length = usermesg) (hnul : nul ∉ message)
    (hne : message ≠ []) (hlength : message.length < usermesg) :
    ∃ rest, expandVarArgs array message = .ok (message ++ nul :: rest) ∧
      (message ++ nul :: rest).length = usermesg ∧ cString (message ++ nul :: rest) = message := by
  have htake : message.take (usermesg - 1) = message := List.take_of_length_le (by omega)
  obtain ⟨rest, hwrite, hsame⟩ := @write_behind [] array (message ++ [nul]) List.nil_prefix
    (by simp; omega)
  have hstring : cString (message ++ nul :: rest) = message := by
    refine takeWhile_append_stop (fun c hc => ?_) (by decide)
    simpa using ne_of_mem_of_not_mem hc hnul
  have harranged : [] ++ (message ++ [nul]) ++ rest = message ++ nul :: rest := by simp
  rw [harranged, List.length_nil] at hwrite
  rw [harranged, harray] at hsame
  refine ⟨rest, ?_, hsame, hstring⟩
  simp only [expandVarArgs, htake, hwrite, bind, Except.bind, hstring]
  rw [if_pos (List.length_pos_iff.mpr hne)]

/-- The writes stay in the array, and the messages are the message of the user and
behind it all the bytes in groups of at most sixteen: each group in a message of its
own, or a single group behind the message. -/
theorem tstResmHexd_messages (array message : List Char) (buf : List UInt8)
    (harray : array.length = usermesg) (hnul : nul ∉ message) (hshort : 1 ≤ message.length)
    (hlong : message.length ≤ 2047) :
    ∃ groups : List (List UInt8), groups.flatten = buf ∧
      (∀ group ∈ groups, group ≠ [] ∧ group.length ≤ 16) ∧
      (tstResmHexd array message buf = .ok (message :: groups.map (appendBytes [])) ∨
        ∃ group, groups = [group] ∧
          tstResmHexd array message buf = .ok [appendBytes message group]) := by
  have hne : message ≠ [] := List.length_pos_iff.mp hshort
  obtain ⟨rest, hexpand, hlength, hstring⟩ :=
    expandVarArgs_message harray hnul hne (show message.length < 2048 by omega)
  by_cases hfirst : buf.length > sizeMax ∨ buf.length = 0 ∨
      message.length + buf.length * (symbNum + 1) ≥ usermesg
  · obtain ⟨groups, after, hloop, hafter, hflat, hgrouped⟩ := @dumpLoop_groups buf.length buf 0
      (Dump.resFunc ⟨message ++ nul :: rest, 0, []⟩) [] []
      ⟨hlength, rfl, List.nil_prefix⟩ List.not_mem_nil (Nat.zero_add _) rfl (fun _ => rfl) (by
        have hsmall : min buf.length sizeMax ≤ 16 := min_le_right _ _
        have hbound : 3 * 16 < usermesg := by decide
        rw [List.length_nil]
        omega)
    refine ⟨groups, by simpa using hflat, hgrouped.bounds, .inl ?_⟩
    simp only [tstResmHexd, hexpand, bind, Except.bind, hstring, if_pos hfirst, hloop]
    rw [hafter, Dump.resFunc, hstring]
    cases groups <;> rfl
  · obtain ⟨hfew, hsome, hroom⟩ : buf.length ≤ sizeMax ∧ buf.length ≠ 0 ∧
        message.length + buf.length * 3 < usermesg := by
      simpa [not_or, symbNum] using hfirst
    obtain ⟨groups, after, hloop, hafter, hflat, hgrouped⟩ := @dumpLoop_groups buf.length buf 0
      ⟨message ++ nul :: rest, message.length, []⟩ message []
      ⟨hlength, rfl, ⟨nul :: rest, rfl⟩⟩ hnul (Nat.zero_add _) rfl (fun _ => rfl) (by
        rw [Nat.min_eq_left hfew]
        omega)
    have hflat : groups.flatten = buf := by simpa using hflat
    have hone := hgrouped.eq_singleton (by rwa [hflat, ne_eq, ← List.length_eq_zero_iff])
      (by rwa [hflat])
    rw [hflat] at hone
    refine ⟨groups, hflat, hgrouped.bounds, .inr ⟨buf, hone, ?_⟩⟩
    simp only [tstResmHexd, hexpand, bind, Except.bind, hstring, if_neg hfirst, hloop]
    rw [hafter, hone]
    rfl

/-- Two bytes behind a short message. -/
theorem tstResmHexd_messages_short : ∃ groups : List (List UInt8), groups.flatten = [1, 255] ∧
    (∀ group ∈ groups, group ≠ [] ∧ group.length ≤ 16) ∧
    (tstResmHexd (List.replicate 2048 nul) ['o', 'k'] [1, 255] =
        .ok (['o', 'k'] :: groups.map (appendBytes [])) ∨
      ∃ group, groups = [group] ∧
        tstResmHexd (List.replicate 2048 nul) ['o', 'k'] [1, 255] =
          .ok [appendBytes ['o', 'k'] group]) :=
  tstResmHexd_messages (List.replicate 2048 nul) ['o', 'k'] [1, 255]
    List.length_replicate (by decide) (by decide) (by decide)

end Main

end GrapheneLtp.HexDump
