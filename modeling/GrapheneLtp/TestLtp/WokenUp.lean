import Mathlib.Tactic
import GrapheneLtp.Core.PyMatching
import GrapheneLtp.TestLtp.Output

/-!
# Messages about early wake-ups

The timer tests report that a call was woken up early, with the number of times
and the range of the samples.  `woken_up_valid_check` takes the first two
numbers of such a message for the range, but the first one is the number of
times.
-/

namespace GrapheneLtp.WokenUp

open GrapheneLtp.PyText GrapheneLtp.TestLtp GrapheneLtp.Decimal

section Messages

/-- A message of `do_timer_test`: an `unsigned int` and two samples of type
`long long`, the larger one first. -/
structure WokenMessage where
  times : ℕ
  first : ℕ
  last : ℕ
  times_lt : times < 2 ^ 32
  first_lt : first < 2 ^ 63
  last_le : last ≤ first

def phrase : List Char := "woken up early ".toList

/-- The range of a message, `[%lli,%lli]`. -/
def WokenMessage.range (message : WokenMessage) : List Char :=
  '[' :: (decimal message.first ++ ',' :: (decimal message.last ++ [']']))

/-- `woken up early %u times range: [%lli,%lli]`. -/
def WokenMessage.text (message : WokenMessage) : List Char := phrase ++ (decimal message.times ++
    (" times range:".toList ++ ' ' :: message.range))

/-- The output of a test: messages about early wake-ups, each at the end of a
line, with what stands before them, and what stands behind the last one. -/
structure TestOutput where
  parts : List (List Char × WokenMessage)
  rest : List Char
  quiet_parts : ∀ part ∈ parts, ¬phrase <:+: part.1
  quiet_rest : ¬phrase <:+: rest

def renderParts : List (List Char × WokenMessage) → List Char → List Char
  | [], rest => rest
  | (before, message) :: parts, rest =>
    before ++ (message.text ++ '\n' :: renderParts parts rest)

def TestOutput.text (output : TestOutput) : List Char := renderParts output.parts output.rest

def TestOutput.messages (output : TestOutput) : List WokenMessage := output.parts.map Prod.snd

end Messages

section Matches

variable {py : Interpreter} {tail : List Char}

/-- The end of the expression: a range. -/
def rangeItems (py : Interpreter) : List Item :=
  literal " [".toList ++ (.plus (digitClass py) :: (literal ",".toList ++
    (.plus (digitClass py) :: (literal "]".toList ++ []))))

theorem wokenString_eq (py : Interpreter) :
    wokenString py = literal phrase ++ (.star anyChar :: rangeItems py) := by
  unfold wokenString rangeItems phrase
  generalize literal "woken up early ".toList = opening
  generalize literal " [".toList = bracket
  simp only [List.append_assoc, List.cons_append, List.append_nil]

theorem digitClass_decimal (value : ℕ) : ∀ c ∈ decimal value, digitClass py c = true :=
  fun _ hc => digitClass_of_isDigit (isDigit_of_mem_decimal hc)

theorem matchAt_range (hpy : py.Standard) (message : WokenMessage) :
    matchAt (rangeItems py) (' ' :: message.range ++ tail) = some tail := by
  have hclosed : matchAt (literal "]".toList ++ []) (']' :: tail) = some tail :=
    matchAt_literal "]".toList tail
  have hlast : matchAt (.plus (digitClass py) :: (literal "]".toList ++ []))
      (decimal message.last ++ ']' :: tail) = some tail :=
    matchAt_plus (digitClass_decimal _) (decimal_ne_nil _)
      (digitClass_eq_false hpy (by decide) (by decide)) hclosed
  have hfirst : matchAt (.plus (digitClass py) :: (literal ",".toList ++
      (.plus (digitClass py) :: (literal "]".toList ++ []))))
        (decimal message.first ++ ',' :: (decimal message.last ++ ']' :: tail)) = some tail := by
    apply matchAt_plus (digitClass_decimal _) (decimal_ne_nil _)
      (digitClass_eq_false hpy (by decide) (by decide))
    exact (matchAt_literal ",".toList _).trans hlast
  have htext : ' ' :: message.range ++ tail = " [".toList ++
      (decimal message.first ++ ',' :: (decimal message.last ++ ']' :: tail)) := by
    simp [WokenMessage.range]
  rw [htext, rangeItems, matchAt_literal, hfirst]

/-- A range starts with a blank. -/
theorem matchAt_rangeItems_none {c : Char} {more : List Char} (hc : c ≠ ' ') :
    matchAt (rangeItems py) (c :: more) = none := by
  by_contra hmatch
  have hstart := prefix_of_matchAt_literal hmatch
  exact hc (List.cons_prefix_cons.mp hstart).1.symm

theorem blank_not_mem_range (message : WokenMessage) : ' ' ∉ message.range := by
  have hdecimal (value : ℕ) : ' ' ∉ decimal value :=
    fun hmem => absurd (isDigit_of_mem_decimal hmem) (by decide)
  simp [WokenMessage.range, hdecimal]

theorem anyChar_decimal (value : ℕ) : ∀ c ∈ decimal value, anyChar c = true :=
  fun _ hc => bne_iff_ne.mpr (isDigit_ne (isDigit_of_mem_decimal hc) (by decide))

/-- A message is matched up to the end of its line: behind the blank before its
range there is no other one. -/
theorem matchAt_message (hpy : py.Standard) (message : WokenMessage) :
    matchAt (wokenString py) (message.text ++ '\n' :: tail) = some ('\n' :: tail) := by
  have hnone : greedy anyChar (matchAt (rangeItems py)) (message.range ++ '\n' :: tail) = none := by
    apply greedy_none (by decide) (matchAt_rangeItems_none (by decide))
    intro c hc more
    exact matchAt_rangeItems_none (ne_of_mem_of_not_mem hc (blank_not_mem_range message))
  have hrange : greedy anyChar (matchAt (rangeItems py))
      (' ' :: message.range ++ '\n' :: tail) = some ('\n' :: tail) := by
    rw [List.cons_append, greedy, if_pos (by decide), hnone, Option.none_or,
      ← List.cons_append, matchAt_range hpy]
  have hwords : ∀ c ∈ " times range:".toList, anyChar c = true :=
    List.all_eq_true.mp (by decide +kernel)
  have htext : message.text ++ '\n' :: tail = phrase ++
      (decimal message.times ++ (" times range:".toList ++
        (' ' :: message.range ++ '\n' :: tail))) := by
    simp only [WokenMessage.text, List.append_assoc]
  rw [htext, wokenString_eq, matchAt_literal, matchAt]
  exact greedy_append (anyChar_decimal _) (greedy_append hwords hrange)

theorem phrase_prefix_of_matchAt {text : List Char}
    (hmatch : matchAt (wokenString py) text ≠ none) : phrase <+: text := by
  rw [wokenString_eq] at hmatch
  exact prefix_of_matchAt_literal hmatch

/-- No end of the phrase is a beginning of it, so the phrase does not begin in
what stands before it. -/
theorem phrase_within_front {front more : List Char} (hne : front ≠ [])
    (hstart : phrase <+: front ++ (phrase ++ more)) : phrase <:+: front := by
  have hlength : phrase.length = 15 := by decide +kernel
  by_cases hlong : phrase.length ≤ front.length
  · have hfront : phrase <+: front :=
      List.prefix_of_prefix_length_le hstart (List.prefix_append _ _) hlong
    exact hfront.isInfix
  · have hbegin : front = phrase.take front.length := by
      have hshort : front <+: phrase :=
        List.prefix_of_prefix_length_le (List.prefix_append _ _) hstart (by omega)
      exact List.prefix_iff_eq_take.mp hshort
    have hend : phrase.drop front.length <+: phrase ++ more := by
      have hsplit : phrase = front ++ phrase.drop front.length := by
        rw [hbegin, List.length_take, Nat.min_eq_left (by omega), List.take_append_drop]
      rw [hsplit, List.append_assoc, List.prefix_append_right_inj] at hstart
      rwa [← List.append_assoc, ← hsplit] at hstart
    have hborder : phrase.drop front.length = phrase.take (phrase.drop front.length).length := by
      have htake := List.prefix_iff_eq_take.mp hend
      rwa [List.take_append_of_le_length (by rw [List.length_drop]; omega)] at htake
    have hpositive : 0 < front.length := List.length_pos_iff.mpr hne
    have hnone : ∀ k < 15, 0 < k → phrase.drop k ≠ phrase.take (phrase.drop k).length := by
      decide +kernel
    exact absurd hborder (hnone front.length (by omega) hpositive)

/-- The matches in an output are its messages. -/
theorem findall_render (hpy : py.Standard)
    {parts : List (List Char × WokenMessage)} {rest : List Char}
    (hparts : ∀ part ∈ parts, ¬phrase <:+: part.1)
    (hrest : ¬phrase <:+: rest) :
    findall (wokenString py) (renderParts parts rest) = parts.map fun part => part.2.text := by
  unfold findall
  induction parts with
  | nil =>
    have hquiet := @findallFrom_quiet (wokenString py) [] rest ?_
    · rw [List.append_nil] at hquiet
      exact hquiet
    · intro suffix _ hsuffix
      by_contra hmatch
      rw [List.append_nil] at hmatch
      exact hrest ((phrase_prefix_of_matchAt hmatch).isInfix.trans hsuffix.isInfix)
  | cons part parts ih =>
    obtain ⟨before, message⟩ := part
    have hbefore : ¬phrase <:+: before := hparts _ List.mem_cons_self
    have hlater := ih fun other hother =>
      hparts other (List.mem_cons_of_mem _ hother)
    have hnonempty : message.text ≠ [] := fun hnil =>
      decimal_ne_nil message.times (List.append_eq_nil_iff.mp (List.append_eq_nil_iff.mp hnil).2).1
    have hnewline := @findallFrom_quiet (wokenString py) (renderParts parts rest) ['\n'] ?_
    · rw [List.singleton_append] at hnewline
      rw [renderParts, findallFrom_quiet,
        findallFrom_match hnonempty (matchAt_message hpy message), hnewline,
        hlater]
      · rfl
      · intro suffix hne hsuffix
        by_contra hmatch
        have hstart := phrase_prefix_of_matchAt hmatch
        rw [WokenMessage.text, List.append_assoc] at hstart
        exact hbefore ((phrase_within_front hne hstart).trans hsuffix.isInfix)
    · intro suffix hne hsuffix
      by_contra hmatch
      have hstart := phrase_prefix_of_matchAt hmatch
      obtain rfl : suffix = ['\n'] := by
        rcases List.suffix_cons_iff.mp hsuffix with hall | hnil
        · exact hall
        · exact absurd (List.suffix_nil.mp hnil) hne
      exact absurd (List.cons_prefix_cons.mp hstart).1 (by decide)

end Matches

section Check

variable {py : Interpreter}

theorem digitClass_eq_false_of_all (hpy : py.Standard) {text : List Char}
    (htext : text.all (fun c => c.toNat < 128 && !c.isDigit) = true) :
    ∀ c ∈ text, digitClass py c = false := by
  intro c hc
  have hplain := List.all_eq_true.mp htext c hc
  simp only [Bool.and_eq_true, decide_eq_true_eq, Bool.not_eq_true'] at hplain
  exact digitClass_eq_false hpy hplain.1 hplain.2

/-- The numbers of a message. -/
theorem findall_numbers (hpy : py.Standard) (message : WokenMessage) :
    findall [.plus (digitClass py)] message.text = [decimal message.times, decimal message.first,
        decimal message.last] := by
  have hphrase : ∀ c ∈ phrase, digitClass py c = false :=
    digitClass_eq_false_of_all hpy (by decide +kernel)
  have hwords : ∀ c ∈ " times range: [".toList, digitClass py c = false :=
    digitClass_eq_false_of_all hpy (by decide +kernel)
  have hcomma : ∀ c ∈ [','], digitClass py c = false := digitClass_eq_false_of_all hpy (by decide)
  have hclosing : ∀ c ∈ [']'], digitClass py c = false := digitClass_eq_false_of_all hpy (by decide)
  have htext : message.text = phrase ++ (decimal message.times ++
      (" times range: [".toList ++ (decimal message.first ++ ([','] ++
        (decimal message.last ++ ([']'] ++ [])))))) := by
    have hblank : " times range: [".toList =
        " times range:".toList ++ " [".toList := by decide +kernel
    rw [WokenMessage.text, WokenMessage.range, hblank, List.append_assoc]
    rfl
  have hrun {text tail : List Char} (value : ℕ)
      (htext : ∀ c ∈ text, digitClass py c = false) (hne : text ≠ []) :
      findallFrom [.plus (digitClass py)] (decimal value ++ (text ++ tail)) 0 = decimal value ::
          findallFrom [.plus (digitClass py)] tail 0 := by
    obtain ⟨stop, text, rfl⟩ := List.exists_cons_of_ne_nil hne
    rw [List.cons_append, findallFrom_plus_run (digitClass_decimal value)
      (decimal_ne_nil value) (htext stop List.mem_cons_self),
      ← List.cons_append, findallFrom_plus_quiet htext]
  rw [findall, htext, findallFrom_plus_quiet hphrase, hrun message.times hwords (by decide +kernel),
    hrun message.first hcomma (by decide),
    hrun message.last hclosing (by decide)]
  rfl

theorem length_decimal_message {value : ℕ} (hvalue : value < 2 ^ 63) :
    (decimal value).length ≤ 640 := by
  have hlength : (decimal value).length ≤ 19 := length_decimal_le (by decide) (by omega)
  omega

/-- One message: the number of times and the first sample are compared. -/
theorem wokenEntry_message (hpy : py.Standard) (message : WokenMessage) :
    wokenEntry py message.text = .ok (some (message.times > 50000 && message.first > 50000)) := by
  have htimes := message.times_lt
  have hfirst := message.first_lt
  have hlast := message.last_le
  have hint {value : ℕ} (hvalue : value < 2 ^ 63) : int py (decimal value) = .ok value :=
    int_decimal hpy (length_decimal_message hvalue)
  rw [wokenEntry, findall_numbers hpy]
  simp only [List.cons_ne_nil, if_false, List.mapM_cons, List.mapM_nil,
    hint (show message.times < 2 ^ 63 by omega), hint hfirst,
    hint (show message.last < 2 ^ 63 by omega)]
  rfl

/-- A message that the check takes for a real problem. -/
def WokenMessage.refused (message : WokenMessage) : Bool :=
  message.times > 50000 && message.first > 50000

theorem wokenLoop_messages (hpy : py.Standard) (messages : List WokenMessage)
    (flagWokenIssue : Bool) :
    wokenLoop py (messages.map WokenMessage.text) flagWokenIssue =
      .ok (if messages.any WokenMessage.refused then some false
        else if messages = [] ∧ flagWokenIssue = false then none
        else some true) := by
  induction messages generalizing flagWokenIssue with
  | nil => cases flagWokenIssue <;> rfl
  | cons message messages ih =>
    rw [List.map_cons, wokenLoop, wokenEntry_message hpy, List.any_cons]
    cases hrefused : message.refused with
    | true =>
      rw [WokenMessage.refused] at hrefused
      simp [hrefused, bind, Except.bind, pure, Except.pure]
    | false =>
      rw [WokenMessage.refused] at hrefused
      simp [hrefused, bind, Except.bind, ih]

theorem wokenUpValidCheck_output (hpy : py.Standard) (output : TestOutput) :
    wokenUpValidCheck py (findall (wokenString py) output.text) =
      .ok (some (!output.messages.any WokenMessage.refused)) := by
  have hfound : findall (wokenString py) output.text = output.messages.map WokenMessage.text := by
    rw [TestOutput.text, findall_render hpy output.quiet_parts
      output.quiet_rest, TestOutput.messages, List.map_map]
    rfl
  rw [hfound, wokenUpValidCheck]
  by_cases hnil : output.messages = []
  · simp [hnil]
  · rw [if_pos (by simpa using hnil), wokenLoop_messages hpy]
    cases output.messages.any WokenMessage.refused <;> simp [hnil]

/-- The check is right about an output exactly if a message with both ends of
its range above the limit is there when one with the number of times and the
first end above it is. -/
theorem wokenUpValidCheck_right_iff (hpy : py.Standard) (output : TestOutput) :
    wokenUpValidCheck py (findall (wokenString py) output.text) =
        .ok (some (!output.messages.any fun message =>
          message.first > 50000 && message.last > 50000)) ↔
      ((∃ message ∈ output.messages, 50000 < message.times ∧ 50000 < message.first) ↔
        ∃ message ∈ output.messages, 50000 < message.first ∧ 50000 < message.last) := by
  rw [wokenUpValidCheck_output hpy, Except.ok.injEq, Option.some.injEq,
    Bool.not_inj_iff, Bool.eq_iff_iff, List.any_eq_true, List.any_eq_true]
  simp only [WokenMessage.refused, Bool.and_eq_true, decide_eq_true_eq, gt_iff_lt]

theorem asciiPython_standard : asciiPython.Standard where
  ascii c _ hc := if_neg (by simp [hc])
  limit limit hlimit := by
    obtain rfl : 4300 = limit := Option.some.inj hlimit
    decide

/-- An output with one message. -/
def singleOutput (message : WokenMessage) : TestOutput where
  parts := [([], message)]
  rest := []
  quiet_parts := List.forall_mem_singleton.mpr (show ¬phrase <:+: [] by decide +kernel)
  quiet_rest := by decide +kernel

theorem wokenUpValidCheck_right_often :
    wokenUpValidCheck asciiPython (findall (wokenString asciiPython)
        (singleOutput ⟨50001, 50002, 50001, by decide, by decide,
          by decide⟩).text) =
      .ok (some (!(singleOutput ⟨50001, 50002, 50001, by decide, by decide,
        by decide⟩).messages.any fun message =>
          message.first > 50000 && message.last > 50000)) :=
  (wokenUpValidCheck_right_iff asciiPython_standard _).mpr
    (by simp [singleOutput, TestOutput.messages])

/-- A single wake-up, far too early: the check accepts it. -/
theorem wokenUpValidCheck_wrong : wokenUpValidCheck asciiPython (findall (wokenString asciiPython)
        (singleOutput ⟨1, 60000, 60000, by decide, by decide,
          by decide⟩).text) = .ok (some true) ∧
      ∃ message ∈ (singleOutput ⟨1, 60000, 60000, by decide, by decide,
        by decide⟩).messages, 50000 < message.first ∧ 50000 < message.last := by
  constructor
  · rw [wokenUpValidCheck_output asciiPython_standard]
    rfl
  · simp [singleOutput, TestOutput.messages]

end Check

end GrapheneLtp.WokenUp
