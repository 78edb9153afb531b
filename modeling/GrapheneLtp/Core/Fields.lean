import Mathlib.Tactic
import GrapheneLtp.Core.Decimal

/-!
# Fields of a text

Taking a text apart at separators, as repeated calls of `strtok` do.
-/

namespace GrapheneLtp.Fields

/-- The tokens that `strtok` gives one after the other: the parts between the
separators that are not empty. -/
def strtok (isSeparator : Char → Bool) (text : List Char) : List (List Char) :=
  (text.splitOnP isSeparator).filter fun token => token != []

section Tokens

variable {isSeparator : Char → Bool}

theorem strtok_cons {token rest : List Char} {separator : Char}
    (hseparator : isSeparator separator = true) (hne : token ≠ [])
    (htoken : ∀ c ∈ token, isSeparator c = false) :
    strtok isSeparator (token ++ separator :: rest) = token :: strtok isSeparator rest := by
  rw [strtok, List.splitOnP_append_cons_of_forall_mem htoken separator hseparator,
    List.filter_cons, if_pos (bne_iff_ne.mpr hne)]
  rfl

end Tokens

end GrapheneLtp.Fields
