import Mathlib.Tactic
import GrapheneLtp.Core.CString
import GrapheneLtp.Core.ReadLoop
import GrapheneLtp.Core.Traced
import GrapheneLtp.Metadata.DataStorage

/-!
# Comments in the metadata parser

The functions of `metaparse.c` that skip comments and collect documentation
comments.  Their loops do not look for the end of the file.
-/

namespace GrapheneLtp.Metaparse

open CString DataStorage ReadLoop

/-- What the parser comes to on its way through the files: a comment, a cell of
an array that it writes to, or a `%s` conversion.  `stream` is the text after
it. -/
inductive Event
  | oneline (stream : List Char)
  | multiline (isDoc : Bool) (stream : List Char)
  | access (size : ℕ) (index : ℤ)
  | conversion (stream : List Char)
deriving DecidableEq, Repr

section Loops

/-- The loop of `oneline_comment`. -/
def onelineStep (_ : Unit) (c : Option Char) : Unit ⊕ Unit :=
  if c = some '\n' then .inr () else .inl ()

/-- `eat_asterisk_space`. -/
def eatAsteriskSpace (text : List Char) : List Char :=
  match text.dropWhile isSpace with
  | '*' :: rest => if rest.head?.any isSpace then rest.tail else rest
  | _ => text

/-- The variables of `multiline_comment`. -/
structure CommentState where
  doc : Option (List DataNode)
  state : Bool
  buf : List Char

/-- `sizeof(buf)`. -/
def commentBufSize : ℕ := 4096

/-- The `switch` of `multiline_comment`. -/
def switchState (current : CommentState) (c : Option Char) :
    CommentState ⊕ Option (List DataNode) :=
  if current.state = true ∧ c = some '/' then .inr current.doc
  else .inl { current with state := decide (c = some '*') }

/-- The loop of `multiline_comment`.  The end of the file is stored as the
character -1. -/
def multilineStep (current : CommentState) (c : Option Char) :
    CommentState ⊕ Option (List DataNode) :=
  match current.doc with
  | none => switchState current c
  | some lines =>
    if c = some '\n' then
      let line := DataNode.string (eatAsteriskSpace (cString current.buf))
      .inl { current with doc := some (arrayAdd lines line).1, buf := [] }
    else if commentBufSize ≤ current.buf.length + 1 then .inl current
    else switchState
      { current with buf := current.buf ++ [c.getD '\xff'] } c

theorem onelineStep_end (state : Unit) : ∃ after, onelineStep state none = .inl after := ⟨(), rfl⟩

theorem switchState_end (current : CommentState) : ∃ after, switchState current none = .inl after :=
  ⟨_, if_neg fun hslash => by cases hslash.2⟩

theorem multilineStep_end (current : CommentState) :
    ∃ after, multilineStep current none = .inl after := by
  unfold multilineStep
  split
  · exact switchState_end current
  · rw [if_neg (by simp)]
    split
    · exact ⟨_, rfl⟩
    · exact switchState_end _

end Loops

section Functions

/-- `oneline_comment`, with the stream it leaves. -/
def onelineComment (stream : List Char) : Traced Event (List Char) :=
  .past (.oneline stream) ((readLoop onelineStep () stream).map Prod.snd)

/-- `multiline_comment`, with the documentation and the stream it leaves. -/
def multilineComment (doc : Option (List DataNode)) (stream : List Char) :
    Traced Event (Option (List DataNode) × List Char) :=
  .past (.multiline doc.isSome stream) (readLoop multilineStep ⟨doc, false, []⟩ stream)

/-- `multiline_comment(f, NULL)` where there may be documentation. -/
def skipComment (doc : Option (List DataNode)) (stream : List Char) :
    Traced Event (Option (List DataNode) × List Char) := do
  let (_, rest) ← multilineComment none stream
  pure (doc, rest)

/-- `doc_prefix`. -/
def docPrefix : List Char := ['\\', '\n']

/-- The loop of `maybe_doc_comment` from a position of `doc_prefix` on. -/
def maybeDocCommentLoop (doc : Option (List DataNode)) :
    List Char → List Char → Traced Event (Option (List DataNode) × List Char)
  | [], stream => multilineComment doc stream
  | _ :: _, [] => skipComment doc []
  | expected :: left, c :: rest =>
    if c = expected then maybeDocCommentLoop doc left rest
    else if c = '*' then skipComment doc (c :: rest)
    else skipComment doc rest

/-- `maybe_doc_comment`. -/
def maybeDocComment (doc : Option (List DataNode)) (stream : List Char) :
    Traced Event (Option (List DataNode) × List Char) :=
  maybeDocCommentLoop doc docPrefix stream

/-- `maybe_comment`. -/
def maybeComment (doc : Option (List DataNode)) (stream : List Char) :
    Traced Event (Option (List DataNode) × List Char) :=
  match stream with
  | [] => pure (doc, [])
  | c :: rest =>
    if c = '/' then do
      let after ← onelineComment rest
      pure (doc, after)
    else if c = '*' then maybeDocComment doc rest
    else pure (doc, c :: rest)

end Functions

section Ends

/-- What `multiline_comment` sees of a documentation comment: no newlines, and
no character of a line from the 4096th on. -/
def docSeen : ℕ → List Char → List Char
  | _, [] => []
  | column, c :: rest =>
    if c = '\n' then docSeen 0 rest
    else if commentBufSize ≤ column + 1 then docSeen column rest
    else c :: docSeen (column + 1) rest

/-- What `multiline_comment` sees of a stream. -/
def seen (isDoc : Bool) (stream : List Char) : List Char :=
  if isDoc then docSeen 0 stream else stream

/-- The end of a comment is there. -/
def closes (text : List Char) : Bool :=
  decide (['*', '/'] <:+: text)

/-- The parser gets past a one-line comment if a newline follows, past other
comments if it sees their end, past a write inside the array, and past a
conversion if there is something to convert. -/
def Event.safe : Event → Bool
  | .oneline stream => decide ('\n' ∈ stream)
  | .multiline isDoc stream => closes (seen isDoc stream)
  | .access size index => decide (0 ≤ index ∧ index < size)
  | .conversion stream => stream.any fun c => !isSpace c

theorem closes_cons_of_ne {c : Char} (hc : c ≠ '*') (text : List Char) :
    closes (c :: text) = closes text := by
  simp [closes, List.infix_cons_iff, hc.symm]

theorem closes_star_cons {c : Char} (hc : c ≠ '/') (text : List Char) :
    closes ('*' :: c :: text) = closes (c :: text) := by
  simp [closes, List.infix_cons_iff, hc.symm]

theorem closes_end (text : List Char) : closes ('*' :: '/' :: text) = true := by
  simp [closes, List.infix_cons_iff]

/-- The end is looked for from an asterisk on if one was just read. -/
def pending (state : Bool) (text : List Char) : List Char :=
  if state then '*' :: text else text

theorem closes_pending_nil (state : Bool) : closes (pending state []) = false := by
  cases state <;> decide

theorem closes_pending_cons {state : Bool} {c : Char}
    (hend : ¬(state = true ∧ some c = some '/')) (text : List Char) :
    closes (pending state (c :: text)) = closes (pending (decide (some c = some '*')) text) := by
  have hread : closes (pending state (c :: text)) = closes (c :: text) := by
    cases state with
    | false => rfl
    | true =>
      apply closes_star_cons
      rintro rfl
      exact hend ⟨rfl, rfl⟩
  rw [hread]
  by_cases hstar : c = '*'
  · simp [hstar, pending]
  · simp [hstar, pending, closes_cons_of_ne hstar]

/-- What is left of the comment to be seen. -/
def CommentState.ahead (current : CommentState) (stream : List Char) : List Char :=
  pending current.state (if current.doc.isSome then docSeen current.buf.length stream else stream)

/-- A round that comes to the `switch` with a character. -/
theorem isSome_of_switchState {current stored : CommentState} {c : Char} {text rest : List Char}
    (hstep : multilineStep current (some c) = switchState stored (some c))
    (hloop : ∀ after : CommentState, after.doc = stored.doc →
      after.buf = stored.buf → (readLoop multilineStep after rest).isSome =
        closes (pending after.state text)) :
    (readLoop multilineStep current (c :: rest)).isSome =
      closes (pending stored.state (c :: text)) := by
  rw [readLoop, hstep]
  by_cases hend : stored.state = true ∧ some c = some '/'
  · rw [switchState, if_pos hend, hend.1]
    cases hend.2
    exact (closes_end text).symm
  · rw [switchState, if_neg hend, closes_pending_cons hend]
    exact hloop _ rfl rfl

theorem isSome_multiline (current : CommentState) (stream : List Char) :
    (readLoop multilineStep current stream).isSome = closes (current.ahead stream) := by
  induction stream generalizing current with
  | nil =>
    rw [CommentState.ahead, docSeen, ite_self]
    exact (closes_pending_nil current.state).symm
  | cons c rest ih =>
    rw [CommentState.ahead]
    cases hdoc : current.doc with
    | none =>
      have hstep : multilineStep current (some c) = switchState current (some c) := by
        rw [multilineStep, hdoc]
      apply isSome_of_switchState hstep
      intro after hafter _
      rw [ih, CommentState.ahead, hafter, hdoc]
      rfl
    | some lines =>
      rw [Option.isSome_some, if_pos rfl, docSeen]
      split_ifs with hnewline hfull
      · rw [readLoop, multilineStep, hdoc]
        simp only [hnewline, if_true]
        rw [ih]
        rfl
      · rw [readLoop, multilineStep, hdoc]
        simp only [Option.some.injEq, hnewline, hfull, if_true, if_false]
        rw [ih, CommentState.ahead, hdoc]
        rfl
      · have hstep : multilineStep current (some c) = switchState
            { current with buf := current.buf ++ [c] } (some c) := by
          simp [multilineStep, hdoc, hnewline, hfull]
        apply isSome_of_switchState hstep
        intro after hafter hbuf
        rw [ih, CommentState.ahead, hafter, hbuf]
        simp [hdoc]

theorem onelineComment_meets (stream : List Char) :
    (onelineComment stream).Meets Event.safe fun rest =>
      rest.length < stream.length := by
  apply Traced.Meets.past
  · rw [Option.isSome_map, Event.safe, decide_eq_true_iff]
    induction stream with
    | nil => simp [readLoop]
    | cons c rest ih =>
      rw [readLoop, onelineStep]
      by_cases hnewline : c = '\n'
      · simp [hnewline]
      · simpa [hnewline, Ne.symm hnewline] using ih
  · intro rest hrest
    obtain ⟨result, hresult, rfl⟩ := Option.map_eq_some_iff.mp hrest
    exact length_of_readLoop hresult

theorem multilineComment_meets (doc : Option (List DataNode)) (stream : List Char) :
    (multilineComment doc stream).Meets Event.safe fun result =>
      result.2.length < stream.length := by
  apply Traced.Meets.past
  · rw [isSome_multiline]
    rfl
  · rintro ⟨after, rest⟩ hresult
    exact length_of_readLoop hresult

theorem skipComment_meets (doc : Option (List DataNode)) (stream : List Char) :
    (skipComment doc stream).Meets Event.safe fun result =>
      result.2.length < stream.length :=
  (multilineComment_meets none stream).bind fun _ hshorter => .pure hshorter

theorem maybeDocComment_meets (doc : Option (List DataNode)) (stream : List Char) :
    (maybeDocComment doc stream).Meets Event.safe fun result =>
      result.2.length ≤ stream.length := by
  rw [maybeDocComment]
  generalize docPrefix = expected
  induction expected generalizing stream with
  | nil => exact (multilineComment_meets doc stream).weaken fun _ => Nat.le_of_lt
  | cons expected left ih =>
    cases stream with
    | nil => exact (skipComment_meets doc []).weaken fun _ => Nat.le_of_lt
    | cons c rest =>
      rw [maybeDocCommentLoop]
      split
      · exact (ih rest).weaken fun _ hlength => hlength.trans (Nat.le_succ _)
      split
      · exact (skipComment_meets doc _).weaken fun _ => Nat.le_of_lt
      · exact (skipComment_meets doc rest).weaken fun _ hlength =>
          hlength.le.trans (Nat.le_succ _)

/-- A slash that was read may open a comment. -/
theorem maybeComment_meets (doc : Option (List DataNode)) (stream : List Char) :
    (maybeComment doc stream).Meets Event.safe fun result =>
      result.2.length ≤ stream.length := by
  cases stream with
  | nil => exact .pure le_rfl
  | cons c rest =>
    rw [maybeComment]
    split
    · exact (onelineComment_meets rest).bind fun after hlength =>
        .pure (hlength.le.trans (Nat.le_succ _))
    split
    · exact (maybeDocComment_meets doc rest).weaken fun _ hlength =>
        hlength.trans (Nat.le_succ _)
    · exact .pure le_rfl

end Ends

end GrapheneLtp.Metaparse
