import Mathlib.Tactic
import GrapheneLtp.Metadata.Parser

/-!
# Termination of the metadata parser

`parse_file` returns if and only if it gets past everything it comes to: the
end of each comment is found, no array is left, and no conversion finds the end
of the file.  Every other loop takes a token in each round and ends with the
file.
-/

namespace GrapheneLtp.Metaparse

open CString DataStorage ReadLoop Traced

section Includes

theorem scanWord_meets (size : ℕ) (stream : List Char) :
    (scanWord size stream).Meets Event.safe fun result =>
      result.2.length ≤ stream.length := by
  have hskipped : stream.dropWhile isSpace = [] ↔ ¬(stream.any fun c => !isSpace c) = true := by
    simp [List.dropWhile_eq_nil_iff]
  have hconversion : (past (.conversion stream)
      (if stream.dropWhile isSpace = [] then none else some ())).Meets
        Event.safe fun _ => True := by
    apply Meets.past
    · by_cases hempty : stream.dropWhile isSpace = []
      · simp [hempty, Event.safe, hskipped.mp hempty]
      · simp [hempty, Event.safe, not_not.mp (mt hskipped.mpr hempty)]
    · exact fun _ _ => trivial
  refine hconversion.bind fun _ _ => (access_meets _ _).bind fun _ _ => ?_
  exact .pure ((List.dropWhile_suffix _).length_le.trans (List.dropWhile_suffix _).length_le)

theorem openInclude_meets (files : Files) (stream : List Char) :
    (openInclude files stream).Meets Event.safe fun result =>
      result.2.length ≤ stream.length := by
  rw [openInclude]
  refine (scanWord_meets 256 stream).bind fun result hresult => ?_
  have hrest : (result.2.dropWhile isSpace).length ≤ stream.length :=
    (List.dropWhile_suffix _).length_le.trans hresult
  split
  split
  · exact .pure hrest
  · exact .pure hrest

end Includes

section Arrays

/-- A token that is there takes at least one character. -/
theorem meets_of_token {α : Type} {size : ℕ} {doc : Option (List DataNode)}
    {stream : List Char} {next : Reading → Traced Event α} {post : α → Prop}
    (hnone : ∀ reading, reading.token = none → reading.rest.length ≤ stream.length →
        (next reading).Meets Event.safe post)
    (hsome : ∀ reading token, reading.token = some token → reading.rest.length < stream.length →
        (next reading).Meets Event.safe post) :
    (nextToken2 size doc stream >>= next).Meets Event.safe post := by
  refine (nextToken2_meets size doc stream).bind fun reading hreading => ?_
  cases htoken : reading.token with
  | none => exact hnone reading htoken hreading.1
  | some token =>
    exact hsome reading token htoken (hreading.2 (by rw [htoken]; rfl))

theorem parseArrayLoop_meets {fuel : ℕ} (items : List DataNode)
    {stream : List Char} (hfuel : stream.length < fuel) :
    (parseArrayLoop fuel items stream).Meets Event.safe fun result =>
      result.2.2.length ≤ stream.length := by
  induction fuel generalizing items stream with
  | zero => cases hfuel
  | succ fuel ih =>
    rw [parseArrayLoop]
    apply meets_of_token
    · intro reading htoken hrest
      rw [htoken]
      exact .pure hrest
    · intro reading token htoken hrest
      have hnext (items : List DataNode) {rest : List Char}
          (hlength : rest.length ≤ reading.rest.length) :
          (parseArrayLoop fuel items rest).Meets Event.safe fun result =>
            result.2.2.length ≤ stream.length :=
        (ih items (by omega)).weaken fun _ hresult => by omega
      rw [htoken]
      dsimp only
      split_ifs
      · refine (ih [] (by omega)).bind fun ⟨_, ret, rest⟩ hresult => ?_
        exact .ite (hnext _ hresult) (hnext _ hresult)
      · exact .pure hrest.le
      · exact hnext _ le_rfl
      · exact hnext _ le_rfl
      · exact hnext _ le_rfl

theorem parseArray_meets (stream : List Char) : (parseArray stream).Meets Event.safe fun result =>
      result.2.2.length ≤ stream.length :=
  parseArrayLoop_meets [] (Nat.lt_succ_self _)

theorem arrayLenLoop_meets {fuel : ℕ} (cnt depth : ℤ) (prevComma : Bool)
    {stream : List Char} (hfuel : stream.length < fuel) :
    (arrayLenLoop fuel cnt depth prevComma stream).Meets Event.safe fun _ => True := by
  induction fuel generalizing cnt depth prevComma stream with
  | zero => cases hfuel
  | succ fuel ih =>
    rw [arrayLenLoop]
    apply meets_of_token
    · intro reading htoken _
      rw [htoken]
      exact .pure trivial
    · intro reading token htoken hrest
      rw [htoken]
      exact .ite (.pure trivial) (ih _ _ _ (by omega))

theorem parseGetArrayLen_meets (stream : List Char) :
    (parseGetArrayLen stream).Meets Event.safe fun _ => True := by
  refine (nextToken2_meets tokenBufSize none stream).bind fun reading _ => ?_
  exact .ite (arrayLenLoop_meets 0 0 false (Nat.lt_succ_self _)) (.pure trivial)

theorem lookForArraySizeLoop_meets (arrId : List Char) {fuel : ℕ}
    (prev : List Char) {stream : List Char} (hfuel : stream.length < fuel) :
    (lookForArraySizeLoop arrId fuel prev stream).Meets Event.safe fun _ => True := by
  induction fuel generalizing prev stream with
  | zero => cases hfuel
  | succ fuel ih =>
    rw [lookForArraySizeLoop]
    apply meets_of_token
    · intro reading htoken _
      rw [htoken]
      exact .pure trivial
    · intro reading token htoken hrest
      rw [htoken]
      dsimp only
      split_ifs
      · exact (parseGetArrayLen_meets _).bind fun _ _ => .pure trivial
      · exact ih _ (by omega)
      · exact ih _ (by omega)

theorem lookForArraySize_meets (arrId stream : List Char) :
    (lookForArraySize arrId stream).Meets Event.safe fun _ => True :=
  lookForArraySizeLoop_meets arrId [] (Nat.lt_succ_self _)

theorem includedSizeLoop_meets (files : Files) (arrId : List Char) {fuel : ℕ}
    (hash : Bool) {stream : List Char} (hfuel : stream.length < fuel) :
    (includedSizeLoop files arrId fuel hash stream).Meets Event.safe fun _ => True := by
  induction fuel generalizing hash stream with
  | zero => cases hfuel
  | succ fuel ih =>
    rw [includedSizeLoop]
    apply meets_of_token
    · intro reading htoken _
      rw [htoken]
      exact .pure trivial
    · intro reading token htoken hrest
      rw [htoken]
      dsimp only
      split_ifs
      · exact ih _ (by omega)
      · exact ih _ (by omega)
      · refine (openInclude_meets files _).bind fun ⟨inc, rest⟩ hresult => ?_
        cases inc with
        | none => exact ih _ (by omega)
        | some text =>
          refine (lookForArraySize_meets arrId text).bind fun res _ => ?_
          cases res with
          | none => exact ih _ (by omega)
          | some size => exact .pure trivial
      · exact ih _ (by omega)

theorem parseArraySize_meets (files : Files) (text stream : List Char) :
    (parseArraySize files text stream).Meets Event.safe fun result =>
      result.2.2.length ≤ stream.length := by
  refine (nextToken2_meets tokenBufSize none stream).bind
    fun bracket hbracket => .ite (.pure hbracket.1) ?_
  · refine (nextToken2_meets tokenBufSize none bracket.rest).bind fun name hname => ?_
    have hrest := hname.1.trans hbracket.1
    cases name.token with
    | none => exact .pure hrest
    | some arrId =>
      refine (lookForArraySize_meets arrId text).bind fun res _ => ?_
      cases res with
      | some size => exact .pure hrest
      | none =>
        exact (includedSizeLoop_meets files arrId false
          (Nat.lt_succ_self _)).bind fun _ _ => .pure hrest

end Arrays

section Macros

theorem macroGetString_length (size : ℕ) (buf stream : List Char) :
    (macroGetString size buf stream).2.length ≤ stream.length := by
  induction stream generalizing buf with
  | nil => exact le_rfl
  | cons c rest ih =>
    rw [macroGetString]
    split_ifs
    · exact Nat.le_succ _
    · exact (ih _).trans (Nat.le_succ _)
    · exact (ih _).trans (Nat.le_succ _)

theorem macroGetValLoop_meets (size : ℕ) (buf : List Char)
    (prev : Option Char) (stream : List Char) :
    (macroGetValLoop size buf prev stream).Meets Event.safe fun result =>
      result.2.length ≤ stream.length := by
  induction stream generalizing buf prev with
  | nil => exact .pure le_rfl
  | cons c rest ih =>
    have hnext (buf : List Char) (prev : Option Char) :
        (macroGetValLoop size buf prev rest).Meets Event.safe fun result =>
          result.2.length ≤ (c :: rest).length :=
      (ih buf prev).weaken fun _ hresult => hresult.trans (Nat.le_succ _)
    rw [macroGetValLoop]
    split_ifs
    · exact (access_meets _ _).bind fun _ _ => hnext _ _
    · exact .pure (Nat.le_succ _)
    · exact hnext _ _
    · exact hnext _ _

theorem macroGetVal_meets (size : ℕ) (stream : List Char) :
    (macroGetVal size stream).Meets Event.safe fun result =>
      result.2.length ≤ stream.length := by
  have hskipped : (stream.dropWhile isSpace).length ≤ stream.length :=
    (List.dropWhile_suffix isSpace).length_le
  have htext : (macroGetText size (stream.dropWhile isSpace)).Meets Event.safe
      fun result => result.2.length ≤ (stream.dropWhile isSpace).length := by
    refine .ite (.pure ?_) (macroGetValLoop_meets size [] none _)
    exact (macroGetString_length size [] _).trans (List.tail_sublist _).length_le
  exact htext.bind fun _ hresult => .pure (hresult.trans hskipped)

theorem parseMacro_meets (macros : Macros) (stream : List Char) :
    (parseMacro macros stream).Meets Event.safe fun result =>
      result.2.length ≤ stream.length := by
  refine (scanWord_meets 128 stream).bind fun ⟨name, after⟩ hafter => ?_
  have htail : after.tail.length ≤ stream.length := by
    rw [List.length_tail]
    exact (Nat.sub_le _ _).trans hafter
  refine .ite (.pure htail) ?_
  refine (macroGetVal_meets 256 after.tail).bind fun ⟨val, rest⟩ hrest => ?_
  exact .ite (.pure (hrest.trans htail)) (.pure (hrest.trans htail))

theorem includeMacrosLoop_meets {fuel : ℕ} (hash : Bool) (macros : Macros)
    {stream : List Char} (hfuel : stream.length < fuel) :
    (includeMacrosLoop fuel hash macros stream).Meets Event.safe fun _ => True := by
  induction fuel generalizing hash macros stream with
  | zero => cases hfuel
  | succ fuel ih =>
    rw [includeMacrosLoop]
    apply meets_of_token
    · intro reading htoken _
      rw [htoken]
      exact .pure trivial
    · intro reading token htoken hrest
      rw [htoken]
      dsimp only
      split_ifs
      · exact ih _ _ (by omega)
      · exact ih _ _ (by omega)
      · refine (parseMacro_meets macros _).bind fun ⟨after, rest⟩ hresult => ?_
        exact ih _ _ (hresult.trans_lt (by omega))
      · exact ih _ _ (by omega)

theorem parseIncludeMacros_meets (files : Files) (macros : Macros) (stream : List Char) :
    (parseIncludeMacros files macros stream).Meets Event.safe fun result =>
      result.2.length ≤ stream.length := by
  refine (openInclude_meets files stream).bind fun ⟨inc, rest⟩ hrest => ?_
  cases inc with
  | none => exact .pure hrest
  | some text =>
    exact (includeMacrosLoop_meets false macros (Nat.lt_succ_self _)).bind fun _ _ => .pure hrest

end Macros

section Structs

theorem parseValue_meets (files : Files) (macros : Macros) (text token stream : List Char) :
    (parseValue files macros text token stream).Meets Event.safe
      fun result => result.2.2.length ≤ stream.length := by
  rw [parseValue]
  split_ifs
  · exact (parseArray_meets stream).bind fun _ hresult => .pure hresult
  · exact parseArraySize_meets files text stream
  · exact .pure le_rfl

theorem parseTestStructLoop_meets (files : Files) (macros : Macros)
    (text : List Char) {fuel : ℕ} (state : StructState) (id : List Char)
    (doc : List DataNode) (node : List (List Char × DataNode))
    {stream : List Char} (hfuel : stream.length < fuel) :
    (parseTestStructLoop files macros text fuel state id doc node
      stream).Meets Event.safe fun result =>
        result.rest.length ≤ stream.length := by
  induction fuel generalizing state id doc node stream with
  | zero => cases hfuel
  | succ fuel ih =>
    rw [parseTestStructLoop]
    apply meets_of_token
    · intro reading htoken hrest
      rw [htoken]
      exact .pure hrest
    · intro reading token htoken hrest
      have hnext (state : StructState) (id : List Char)
          (doc : List DataNode) (node : List (List Char × DataNode))
          {rest : List Char} (hlength : rest.length ≤ reading.rest.length) :
          (parseTestStructLoop files macros text fuel state id doc node
            rest).Meets Event.safe fun result =>
              result.rest.length ≤ stream.length :=
        (ih state id doc node (by omega)).weaken fun _ hresult => by omega
      rw [htoken]
      refine .ite (.pure hrest.le) ?_
      cases state with
      | id => exact hnext _ _ _ _ le_rfl
      | equals => exact hnext _ _ _ _ le_rfl
      | cast => exact hnext _ _ _ _ le_rfl
      | comma => exact hnext _ _ _ _ le_rfl
      | value =>
        refine .ite (hnext _ _ _ _ le_rfl) ?_
        refine (parseValue_meets files macros text token _).bind
          fun ⟨failed, ret, rest⟩ hresult => ?_
        refine .ite (.pure (hresult.trans hrest.le)) ?_
        cases ret with
        | none => exact hnext _ _ _ _ hresult
        | some ret => exact hnext _ _ _ _ hresult

theorem parseTestStruct_meets (files : Files) (macros : Macros)
    (text : List Char) (doc : List DataNode)
    (node : List (List Char × DataNode)) (stream : List Char) :
    (parseTestStruct files macros text doc node stream).Meets Event.safe
      fun result => result.rest.length ≤ stream.length :=
  parseTestStructLoop_meets files macros text .id [] doc node (Nat.lt_succ_self _)

end Structs

section Files

theorem parseDirective_meets (files : Files) (current : FileState) (stream : List Char) :
    (parseDirective files current stream).Meets Event.safe fun result =>
      result.2.length ≤ stream.length := by
  refine (nextToken2_meets tokenBufSize _ stream).bind fun reading hreading => ?_
  refine .ite ?_ (.ite ?_ (.pure hreading.1))
  · exact (parseMacro_meets _ _).bind fun ⟨_, rest⟩ hrest =>
      .pure (hrest.trans hreading.1)
  · exact (parseIncludeMacros_meets files _ _).bind fun ⟨_, rest⟩ hrest =>
      .pure (hrest.trans hreading.1)

theorem parseFileLoop_meets (files : Files) (text : List Char) {fuel : ℕ}
    (current : FileState) {stream : List Char}
    (hfuel : stream.length < fuel) :
    (parseFileLoop files text fuel current stream).Meets Event.safe fun _ => True := by
  induction fuel generalizing current stream with
  | zero => cases hfuel
  | succ fuel ih =>
    rw [parseFileLoop]
    apply meets_of_token
    · intro reading htoken _
      rw [htoken]
      exact .pure trivial
    · intro reading token htoken hrest
      rw [htoken]
      refine .ite (.ite (ih _ (by omega)) ?_) (.ite ?_ (ih _ (by omega)))
      · refine (parseTestStruct_meets files _ text _ _ _).bind fun result hresult => ih _ (by omega)
      · exact (parseDirective_meets files _ _).bind
          fun ⟨after, rest⟩ hresult => ih _ (hresult.trans_lt (by omega))

theorem parseFile_meets (files : Files) (file : Option (List Char)) :
    (parseFile files file).Meets Event.safe fun _ => True := by
  cases file with
  | none => exact .pure trivial
  | some text =>
    exact (parseFileLoop_meets files text _ (Nat.lt_succ_self _)).bind fun _ _ => .pure trivial

/-- `parse_file` returns if and only if it gets past everything it comes to:
every one-line comment is followed by a newline, the end of every other comment
is where `multiline_comment` sees it, nothing is written outside an array, and
every `%s` conversion has something to convert. -/
theorem parseFile_returns_iff (files : Files) (file : Option (List Char)) :
    (∃ res, (parseFile files file).result = some res) ↔
      ∀ event ∈ (parseFile files file).events, event.safe = true := by
  rw [← (parseFile_meets files file).1, Option.isSome_iff_exists]

/-- A test with comments, a macro, a string that is not closed and a last line
without its newline. -/
theorem parseFile_returns_test : ∃ res, (parseFile ⟨fun _ _ => none, [], []⟩
      (some ("/*\\\n * doc */ // x\n#define N 3\nstatic struct tst_test " ++
        "test = \x7b .n = N, .s = \"a").toList)).result = some res :=
  (parseFile_returns_iff _ _).mpr (by decide +kernel)

/-- A file that ends inside a comment is read for ever. -/
theorem parseFile_hangs :
    (parseFile ⟨fun _ _ => none, [], []⟩ (some "int x; // end".toList)).result =
        none ∧
      (∀ result, ¬Exits (readBody onelineStep) ((), " end".toList) result) ∧
      (parseFile ⟨fun _ _ => none, [], []⟩ (some "int x; /* end".toList)).result =
        none ∧
      ∀ result, ¬Exits (readBody multilineStep)
        (⟨none, false, []⟩, "end".toList) result := by
  refine ⟨by decide +kernel, ?_, by decide +kernel, ?_⟩
  · intro result hexits
    rw [exits_iff_readLoop onelineStep_end] at hexits
    cases hexits
  · intro result hexits
    rw [exits_iff_readLoop multilineStep_end] at hexits
    cases hexits

end Files

end GrapheneLtp.Metaparse
