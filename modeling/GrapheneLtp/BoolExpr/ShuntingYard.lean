import GrapheneLtp.BoolExpr.Tokens

/-!
# The shunting yard of the boolean expression parser

`shunting_yard()` reorders the token array into reverse Polish notation with
an operator stack and checks every token against the previous one.  A token
it does not accept is marked by an error text in its `priv` pointer, which
`tst_bool_expr_err()` looks for to print its report.
-/

namespace GrapheneLtp.ShuntingYard

open GrapheneLtp.Tokens

/-! ## The algorithm -/

/-- An array of token pointers used as a stack, top first.  `peak` is the
largest number of entries it ever held. -/
structure TokStack where
  entries : List ℕ
  peak : ℕ
  deriving DecidableEq, Repr

namespace TokStack

def empty : TokStack := ⟨[], 0⟩

def push (stack : TokStack) (i : ℕ) : TokStack :=
  ⟨i :: stack.entries, max stack.peak (stack.entries.length + 1)⟩

end TokStack

structure Yard where
  opStack : TokStack
  out : TokStack
  prevOp : Option TstOp
  deriving DecidableEq, Repr

def Yard.initial : Yard := ⟨.empty, .empty, none⟩

/-- Non-zero when no variable, `(` or `!` may follow. -/
def checkOne : Option TstOp → Bool
  | some .and => false
  | some .or => false
  | some .not => false
  | none => false
  | some .lpar => false
  | _ => true

/-- Non-zero when `)`, `&`, `|` or the end may follow. -/
def checkTwo : Option TstOp → Bool
  | some .var => true
  | some .rpar => true
  | _ => false

variable (op : ℕ → TstOp)

/-- `while (stack_peek_op(op_stack) == TST_OP_NOT)` moves the operators
waiting for the operand just written. -/
def popNots : List ℕ → TokStack → List ℕ × TokStack
  | [], out => ([], out)
  | top :: rest, out =>
    if op top = .not then popNots rest (out.push top) else (top :: rest, out)

/-- Pop everything till `(`; `none` when the stack runs empty. -/
def popTillLpar : List ℕ → TokStack → Option (List ℕ) × TokStack
  | [], out => (none, out)
  | top :: rest, out =>
    if op top = .lpar then (some rest, out)
    else popTillLpar rest (out.push top)

/-- The binary operator on top of the stack, if any, is written out before
the next one is pushed, so binary operators never accumulate. -/
def popBinary : List ℕ → TokStack → List ℕ × TokStack
  | [], out => ([], out)
  | top :: rest, out =>
    match op top with
    | .and | .or => (rest, out.push top)
    | _ => (top :: rest, out)

/-- The body of the main loop for token `i`.  An error carries the text that
is stored in `priv` of this token. -/
def step (yard : Yard) (i : ℕ) : Except (String × Yard) Yard :=
  match op i with
  | .var =>
    if checkOne yard.prevOp then .error ("Expected operation", yard)
    else
      let (rest, out) := popNots op yard.opStack.entries (yard.out.push i)
      .ok ⟨{ yard.opStack with entries := rest }, out, some .var⟩
  | .lpar =>
    if checkOne yard.prevOp then .error ("Expected operation", yard)
    else .ok { yard with opStack := yard.opStack.push i, prevOp := some .lpar }
  | .rpar =>
    if !checkTwo yard.prevOp then .error ("Expected variable or )", yard)
    else match popTillLpar op yard.opStack.entries yard.out with
      | (none, out) =>
        .error ("Missing (",
          { yard with opStack := { yard.opStack with entries := [] }, out := out })
      | (some rest, out) =>
        let (rest, out) := popNots op rest out
        .ok ⟨{ yard.opStack with entries := rest }, out, some .rpar⟩
  | .not =>
    if checkOne yard.prevOp then .error ("Expected operation", yard)
    else .ok { yard with opStack := yard.opStack.push i, prevOp := some .not }
  | .and | .or =>
    if !checkTwo yard.prevOp then .error ("Expected variable or (", yard)
    else
      let (rest, out) := popBinary op yard.opStack.entries yard.out
      let opStack : TokStack := { yard.opStack with entries := rest }
      .ok ⟨opStack.push i, out, some (op i)⟩

/-- Pop the remaining operations; an opening parenthesis among them is
returned as the culprit. -/
def popRemaining : List ℕ → TokStack → Except ℕ Unit × TokStack
  | [], out => (.ok (), out)
  | top :: rest, out =>
    if op top = .lpar then (.error top, out)
    else popRemaining rest (out.push top)

/-- The token whose `priv` is set, its text, and whether the main loop set
it. -/
structure Rejection where
  index : ℕ
  text : String
  inLoop : Bool
  deriving DecidableEq, Repr

structure Outcome where
  result : Except Rejection (List ℕ)
  opPeak : ℕ
  outPeak : ℕ

def mainLoop (yard : Yard) : List ℕ → Except (Rejection × Yard) Yard
  | [] => .ok yard
  | i :: rest =>
    match step op yard i with
    | .error (text, yard) => .error (⟨i, text, true⟩, yard)
    | .ok yard => mainLoop yard rest

def finish (yard : Yard) (cnt : ℕ) : Outcome :=
  if !checkTwo (some (op (cnt - 1))) then
    ⟨.error ⟨cnt - 1, "Unfinished expression", false⟩, yard.opStack.peak,
      yard.out.peak⟩
  else match popRemaining op yard.opStack.entries yard.out with
    | (.error culprit, out) =>
      ⟨.error ⟨culprit, "Missing )", false⟩, yard.opStack.peak, out.peak⟩
    | (.ok (), out) => ⟨.ok out.entries.reverse, yard.opStack.peak, out.peak⟩

variable {op}

/-- The token a pointer into `buf` points to. -/
def tokAt (buf : List TstExprTok) (i : ℕ) : TstExprTok := buf.getD i default

def opAt (buf : List TstExprTok) (i : ℕ) : TstOp := (tokAt buf i).op

/-- `shunting_yard()` on the `cnt` tokens of `buf`.  The result is the list
of positions linked from `rpn`, or the marked token. -/
def shuntingYard (buf : List TstExprTok) : Outcome :=
  match mainLoop (opAt buf) .initial (List.range buf.length) with
  | .error (rejection, yard) =>
    ⟨.error rejection, yard.opStack.peak, yard.out.peak⟩
  | .ok yard => finish (opAt buf) yard buf.length

/-- The token array after a rejection. -/
def mark (buf : List TstExprTok) (rejection : Rejection) : List TstExprTok :=
  buf.modify rejection.index fun token =>
    { token with priv := some (.err rejection.text) }

/-! ## The parser -/

structure TstExpr where
  buf : List TstExprTok
  rpn : List ℕ
  deriving DecidableEq, Repr

/-- Entries of the linked list in order. -/
def TstExpr.rpnToks (expr : TstExpr) : List TstExprTok := expr.rpn.map (tokAt expr.buf)

/-- Position at which the scan of `tst_bool_expr_err()` stops. -/
def errIndex (buf : List TstExprTok) : ℕ := buf.findIdx fun token => token.priv.isSome

/-- The report of `tst_bool_expr_err()`: the expression from its first token
on, a caret under the marked token, and its error text. -/
def tstBoolExprErr (expr : List Char) (buf : List TstExprTok) : String :=
  let start := (tokAt buf 0).tok
  let culprit := tokAt buf (errIndex buf)
  let spaces := culprit.tok - start
  let err := match culprit.priv with
    | some (.err text) => text
    | _ => ""
  let pad := if err.length < spaces then spaces - err.length + 1 else 0
  String.ofList (expr.drop start) ++ "\n" ++
    String.ofList (List.replicate spaces ' ') ++ "^\n" ++
    String.ofList (List.replicate pad ' ') ++ err ++ "\n"

/-- How there is no parsed expression: a null result without or with a text on stderr, or a
filling pass that writes behind the array. -/
inductive ParseFailure where
  | null
  | rejected (report : String)
  | overrun
  deriving DecidableEq, Repr

/-- The array has as many entries as the counting pass has returned. -/
def tstBoolExprParse (expr : List Char) : Except ParseFailure TstExpr :=
  let tokCnt := (tokenize expr none).1
  if tokCnt = 0 then .error .null
  else
    let buf := tokens expr
    if tokCnt.toNat < buf.length then .error .overrun
    else match (shuntingYard buf).result with
      | .error rejection => .error (.rejected (tstBoolExprErr expr (mark buf rejection)))
      | .ok rpn => .ok ⟨buf, rpn⟩

end GrapheneLtp.ShuntingYard
