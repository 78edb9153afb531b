import Mathlib.Tactic
import GrapheneLtp.Metadata.Comments

/-!
# Tokens of the metadata parser

`next_token2` cuts the stream into tokens.  Characters of words are stored
without a look at the size of the buffer.
-/

namespace GrapheneLtp.Metaparse

open CString DataStorage

/-- The characters that are tokens of their own. -/
def isPunct (c : Char) : Bool := c ∈ ['\x7b', '\x7d', ';', '(', ')', '=', ',', '[', ']', '#']

/-- The characters of words. -/
def isWordChar (c : Char) : Bool := c.isAlphanum || c == '.' || c == '_' || c == '-'

/-- The characters that end a word. -/
def isBlank (c : Char) : Bool := c ∈ [' ', '\n', '\t']

/-- What `next_token2` returns, with the documentation and the stream it
leaves. -/
structure Reading where
  token : Option (List Char)
  doc : Option (List DataNode)
  rest : List Char

/-- A write to a cell of an array. -/
def access (size : ℕ) (index : ℤ) : Traced Event Unit := .past (.access size index)
    (if 0 ≤ index ∧ index < size then some () else none)

/-- `if (i < buf_len) buf[i++] = c`. -/
def storeChar (size : ℕ) (buf : List Char) (c : Char) : List Char :=
  if buf.length < size - 1 then buf ++ [c] else buf

/-- The code of `next_token2` from the label `exit` on. -/
def exitToken (size : ℕ) (buf : List Char) (inStr : Bool)
    (doc : Option (List DataNode)) (rest : List Char) :
    Traced Event Reading :=
  if buf = [] ∧ inStr = false then pure ⟨none, doc, rest⟩
  else do
    access size buf.length
    pure ⟨some (cString buf), doc, rest⟩

/-- The loop of `next_token2`.  Every round takes a character, so the length of
the stream is fuel enough. -/
def nextTokenLoop (size : ℕ) : ℕ → List Char → Bool → Option (List DataNode) → List Char →
      Traced Event Reading
  | 0, _, _, _, _ => ⟨[], none⟩
  | _ + 1, buf, inStr, doc, [] => exitToken size buf inStr doc []
  | fuel + 1, buf, inStr, doc, c :: rest =>
    if inStr then
      if c = '"' ∧ buf.getLast? ≠ some '\\' then
        exitToken size buf inStr doc rest
      else
        nextTokenLoop size fuel (storeChar size buf c) inStr doc rest
    else if isPunct c then
      if buf ≠ [] then exitToken size buf inStr doc (c :: rest)
      else exitToken size (storeChar size buf c) inStr doc rest
    else if isWordChar c then do
      access size buf.length
      nextTokenLoop size fuel (buf ++ [c]) inStr doc rest
    else if c = '/' then do
      let (after, left) ← maybeComment doc rest
      nextTokenLoop size fuel buf inStr after left
    else if c = '"' then nextTokenLoop size fuel buf true doc rest
    else if isBlank c then
      if buf ≠ [] then exitToken size buf inStr doc rest
      else nextTokenLoop size fuel buf inStr doc rest
    else nextTokenLoop size fuel buf inStr doc rest

/-- `next_token2` with a buffer of `size` characters. -/
def nextToken2 (size : ℕ) (doc : Option (List DataNode))
    (stream : List Char) : Traced Event Reading :=
  nextTokenLoop size (stream.length + 1) [] false doc stream

/-- The size of the buffer of `next_token`. -/
def tokenBufSize : ℕ := 4096

/-- `next_token`. -/
def nextToken (doc : Option (List DataNode)) (stream : List Char) : Traced Event Reading :=
  nextToken2 tokenBufSize doc stream

section Progress

theorem access_meets (size : ℕ) (index : ℤ) : (access size index).Meets Event.safe fun _ =>
      0 ≤ index ∧ index < size := by
  apply Traced.Meets.past
  · rw [Event.safe, decide_eq_true_iff]
    split <;> simp [*]
  · intro _ hresult
    by_contra hout
    rw [if_neg hout] at hresult
    cases hresult

/-- Leaving the loop leaves the stream. -/
theorem exitToken_meets (size : ℕ) (buf : List Char) (inStr : Bool)
    (doc : Option (List DataNode)) (rest : List Char) :
    (exitToken size buf inStr doc rest).Meets Event.safe fun reading =>
      reading.rest = rest ∧ (buf = [] → inStr = false → reading.token = none) := by
  rw [exitToken]
  split
  · exact .pure ⟨rfl, fun _ _ => rfl⟩
  · rename_i hempty
    refine (access_meets _ _).bind fun _ _ => .pure ⟨rfl, fun hbuf hstr => ?_⟩
    exact absurd ⟨hbuf, hstr⟩ hempty

/-- How far a token takes the parser, from inside the loop. -/
def Advances (buf : List Char) (inStr : Bool) (stream : List Char) (reading : Reading) : Prop :=
  reading.rest.length ≤ stream.length ∧ (buf = [] → inStr = false → reading.token.isSome = true →
      reading.rest.length < stream.length)

theorem advances_of_shorter {buf stream : List Char} {inStr : Bool}
    {reading : Reading} (hshorter : reading.rest.length < stream.length) :
    Advances buf inStr stream reading :=
  ⟨hshorter.le, fun _ _ _ => hshorter⟩

/-- Every round takes a character, and so a token takes one at least. -/
theorem nextTokenLoop_meets (size : ℕ) {fuel : ℕ} (buf : List Char)
    (inStr : Bool) (doc : Option (List DataNode)) {stream : List Char}
    (hfuel : stream.length < fuel) :
    (nextTokenLoop size fuel buf inStr doc stream).Meets Event.safe
      (Advances buf inStr stream) := by
  induction fuel generalizing buf inStr doc stream with
  | zero => cases hfuel
  | succ fuel ih =>
    cases stream with
    | nil =>
      refine (exitToken_meets size buf inStr doc []).weaken
        fun reading hexit => ⟨hexit.1 ▸ le_rfl, fun hbuf hstr hsome => ?_⟩
      rw [hexit.2 hbuf hstr] at hsome
      cases hsome
    | cons c rest =>
      rw [List.length_cons] at hfuel
      have hshorter {reading : Reading} (hreading : reading.rest.length ≤ rest.length) :
          Advances buf inStr (c :: rest) reading :=
        advances_of_shorter (Nat.lt_succ_of_le hreading)
      have hexit (stored : List Char) (inside : Bool) :
          (exitToken size stored inside doc rest).Meets Event.safe
            (Advances buf inStr (c :: rest)) :=
        (exitToken_meets size stored inside doc rest).weaken
          fun _ hexit => hshorter (hexit.1 ▸ le_rfl)
      have hnext (stored : List Char) (inside : Bool)
          (after : Option (List DataNode)) {left : List Char}
          (hleft : left.length ≤ rest.length) :
          (nextTokenLoop size fuel stored inside after left).Meets
            Event.safe (Advances buf inStr (c :: rest)) :=
        (ih stored inside after (by omega)).weaken
          fun _ hreading => hshorter (hreading.1.trans hleft)
      rw [nextTokenLoop]
      split_ifs with hstr hquote hpunct hbuf hword hslash hopening hblank hended
      · exact hexit buf inStr
      · exact hnext _ inStr doc le_rfl
      · -- the only exit that gives its character back
        exact (exitToken_meets size buf inStr doc (c :: rest)).weaken
          fun _ hreading => ⟨hreading.1 ▸ le_rfl, (absurd · hbuf)⟩
      · exact hexit _ inStr
      · exact (access_meets _ _).bind fun _ _ => hnext _ inStr doc le_rfl
      · exact (maybeComment_meets doc rest).bind fun result hresult =>
          hnext buf inStr result.1 hresult
      · exact hnext buf true doc le_rfl
      · exact hexit buf inStr
      · exact hnext buf inStr doc le_rfl
      · exact hnext buf inStr doc le_rfl

theorem nextToken2_meets (size : ℕ) (doc : Option (List DataNode)) (stream : List Char) :
    (nextToken2 size doc stream).Meets Event.safe fun reading =>
      reading.rest.length ≤ stream.length ∧ (reading.token.isSome = true →
          reading.rest.length < stream.length) :=
  (nextTokenLoop_meets size [] false doc (Nat.lt_succ_self _)).weaken
    fun _ hreading => ⟨hreading.1, hreading.2 rfl rfl⟩

end Progress

end GrapheneLtp.Metaparse
