import GrapheneLtp.BoolExpr.Evaluation
import GrapheneLtp.Core.CString

/-!
# Checks of the kernel configuration

`tst_kconfig.c` parses a list of constraints over kernel config variables,
collects the variables, reads their values from the kernel config line by line,
and evaluates the constraints.  The messages it prints are left out, apart from
the ones that end the test.
-/

namespace GrapheneLtp.Kconfig

open GrapheneLtp.CString
open GrapheneLtp.Tokens
open GrapheneLtp.ShuntingYard
open GrapheneLtp.Evaluation

/-- The field `choice` of a variable; `unset` is the value zero. -/
inductive Choice where
  | unset
  | n
  | y
  | m
  | v
  deriving DecidableEq, Repr

structure TstKconfigVar where
  id : List Char
  idLen : ℕ
  choice : Choice
  val : Option (List Char)
  deriving DecidableEq, Repr

/-- Why a check does not return: the test ends with `tst_brk`, or the code
reads outside the objects it is given. -/
inductive Failure where
  | wild
  | brk (text : String)
  deriving DecidableEq, Repr

/-! ## Reading the kernel config -/

/-- The characters of a variable name. -/
def isSymbol (c : Char) : Bool := c.isUpper || c.isDigit || c == '_'

def configText : List Char := ['C', 'O', 'N', 'F', 'I', 'G', '_']

def isNotSetText : List Char := ['i', 's', ' ', 'n', 'o', 't', ' ', 's', 'e', 't']

/-- The loop that counts the characters of a value.  It looks for white space
only, and so leaves the array when there is none. -/
def scanValue (val : List Char) : Except Failure (List Char) :=
  if val.all fun c => !isSpace c then .error .wild
  else .ok (val.takeWhile fun c => !isSpace c)

section Line

variable (isNotSet : Bool) (var : List Char) (varLen : ℕ)

/-- The loop of `kconfig_parse_line` over the variables, with its return
value. -/
def assignVars : List TstKconfigVar → Except Failure (List TstKconfigVar × Bool)
  | [] => .ok ([], false)
  | entry :: vars =>
    if entry.idLen ≠ varLen ∨ entry.id.take varLen ≠ var.take varLen then do
      let (vars, ret) ← assignVars vars
      return (entry :: vars, ret)
    else if isNotSet then .ok ({ entry with choice := .n } :: vars, true)
    else
      let val := (var.drop varLen).dropWhile isSpace
      if val.head? ≠ some '=' then .ok (entry :: vars, false)
      else do
        let text ← scanValue (val.tail.dropWhile isSpace)
        if text = ['y'] then return ({ entry with choice := .y } :: vars, true)
        else if text = ['m'] then
          return ({ entry with choice := .m } :: vars, true)
        else
          let (vars, ret) ← assignVars vars
          return ({ entry with
            choice := .v
            val := some (cString text) } :: vars, ret)

end Line

def kconfigParseLine (line : List Char) (vars : List TstKconfigVar) :
    Except Failure (List TstKconfigVar × Bool) :=
  let line := line.dropWhile isSpace
  let isNotSet := line.head? == some '#'
  if isNotSet && (strstr isNotSetText line).isNone then .ok (vars, false)
  else match strstr configText line with
    | none => .ok (vars, false)
    | some var =>
      assignVars isNotSet var (var.takeWhile isSymbol).length vars

/-- The loop of `tst_kconfig_read` with the rest of the file and the array
`line`.  Every line that is read makes the rest shorter. -/
def readLoop (varsLen : ℕ) : (fuel : ℕ) → (stream line : List Char) →
    List TstKconfigVar → (varsFound : ℕ) → Except Failure (List TstKconfigVar)
  | 0, _, _, vars, _ => .ok vars
  | fuel + 1, stream, line, vars, varsFound =>
    match fgets 128 stream with
    | none => .ok vars
    | some (text, stream) => do
        let line := stored line text
        let (vars, found) ← kconfigParseLine line vars
        let varsFound := if found then varsFound + 1 else varsFound
        if varsFound = varsLen then return vars
        else readLoop varsLen fuel stream line vars varsFound

/-- `tst_kconfig_read`, given the text of the file if there is one, and the
content of the uninitialised array `line`. -/
def tstKconfigRead (config : Option (List Char)) (line : List Char)
    (vars : List TstKconfigVar) : Except Failure (List TstKconfigVar) :=
  match config with
  | none => .error (.brk "Cannot parse kernel .config")
  | some stream => readLoop vars.length (stream.length + 1) stream line vars 0

/-! ## Validation of the variables -/

/-- How the loop of `validate_var` over the name ends: inside the string but
behind the token, behind the name, or at a character that is not allowed. -/
inductive NameEnd where
  | token
  | name (i : ℕ)
  | unexpected (i : ℕ)
  deriving DecidableEq, Repr

def validateName (tokLen : ℕ) : (i : ℕ) → List Char → NameEnd
  | i, [] => .name i
  | i, c :: rest =>
    if i ≥ tokLen then .token
    else if isSymbol c then validateName tokLen (i + 1) rest
    else if c = '=' then .name (i + 1)
    else .unexpected i

/-- `validate_var` on a token of `expr`: the position and the text that
`print_err` gets when the variable is refused. -/
def validateVar (expr : List Char) (var : TstExprTok) : Except (ℕ × String) Unit :=
  let tok := expr.drop var.tok
  if var.tokLen < 7 ∨ tok.take 7 ≠ configText then
    .error (0, "Expected CONFIG_ prefix")
  else match validateName var.tokLen 7 (tok.drop 7) with
    | .unexpected i => .error (i, "Unexpected character in variable name")
    | .token => .ok ()
    | .name i =>
      let scan (p : Char → Bool) : ℕ :=
        i + 1 + (((tok.take var.tokLen).drop (i + 1)).takeWhile p).length
      if i ≥ var.tokLen then
        if tok[i - 1]? = some '=' then .error (i, "Missing value") else .ok ()
      else if tok[i]? = some '"' then
        let last := scan fun c => c != '"'
        if last < var.tokLen - 1 then .error (last, "Garbage after a string")
        else if tok[last]? ≠ some '"' then .error (last, "Untermianted string")
        else .ok ()
      else
        let last := scan Char.isAlphanum
        if last < var.tokLen then
          .error (last, "Invalid character in variable value")
        else .ok ()

/-- `validate_vars` is zero: no variable of the expressions is refused.  An
expression comes with the string that its tokens point into. -/
def validateVars (exprs : List (List Char × TstExpr)) : Bool :=
  exprs.all fun (kconfig, expr) => expr.rpnToks.all fun token =>
    token.op != .var || (validateVar kconfig token).isOk

/-! ## The table of variables -/

/-- The characters of a token before its first `=`. -/
def varId (kconfig : List Char) (token : TstExprTok) : List Char :=
  (token.text kconfig).takeWhile fun c => c != '='

/-- `find_var` among the variables that are already there. -/
def findVar (vars : List TstKconfigVar) (id : List Char) : Option ℕ :=
  vars.findIdx? fun entry => entry.id == id

/-- The body of the loops of `populate_vars`: the new table and the token with
its `priv` pointer. -/
def populateTok (kconfig : List Char) (vars : List TstKconfigVar)
    (token : TstExprTok) : Except Failure (List TstKconfigVar × TstExprTok) :=
  if token.op ≠ .var then .ok (vars, token)
  else
    let id := varId kconfig token
    if id.length + 1 ≥ 64 then .error (.brk "kconfig var id too long!")
    else match findVar vars id with
      | some i => .ok (vars, { token with priv := some (.var i) })
      | none => .ok (vars ++ [⟨id, id.length, .unset, none⟩],
          { token with priv := some (.var vars.length) })

/-- One expression, along its reverse Polish list. -/
def populateExpr (kconfig : List Char) : List ℕ → List TstKconfigVar →
    List TstExprTok → Except Failure (List TstKconfigVar × List TstExprTok)
  | [], vars, buf => .ok (vars, buf)
  | i :: rpn, vars, buf => do
      let (vars, token) ← populateTok kconfig vars (tokAt buf i)
      populateExpr kconfig rpn vars (buf.set i token)

def populateVars : List (List Char × TstExpr) → List TstKconfigVar →
    Except Failure (List TstKconfigVar × List (List Char × TstExpr))
  | [], vars => .ok (vars, [])
  | (kconfig, expr) :: exprs, vars => do
      let (vars, buf) ← populateExpr kconfig expr.rpn vars expr.buf
      let (vars, exprs) ← populateVars exprs vars
      return (vars, (kconfig, { expr with buf := buf }) :: exprs)

/-- The value of a variable of an expression, from its entry in the table. -/
def mapVar (var : TstKconfigVar) (text : List Char) : Bool :=
  if var.choice = .unset then false
  else match text.dropWhile fun c => c != '=' with
    | [] => var.choice = .y ∨ var.choice = .m
    | _ :: val =>
      let choice : Choice :=
        if val = ['m'].take val.length then .m
        else if val = ['y'].take val.length then .y
        else if val = ['n'].take val.length then .n
        else .v
      if choice ≠ .v then var.choice = choice
      else if var.choice ≠ .v then false
      else match var.val with
        | none => false
        | some text => text.length = val.length ∧ val = text.take val.length

/-- `map`, the callback of the evaluation. -/
def map (kconfig : List Char) (vars : List TstKconfigVar) (token : TstExprTok) : ℤ :=
  match token.priv with
  | some (.var i) =>
    match vars[i]? with
    | some var => boolInt (mapVar var (token.text kconfig))
    | none => 0
  | _ => 0

/-! ## The check -/

/-- What the check finds around it: whether `KCONFIG_SKIP_CHECK` is set, the
text of the kernel config, and what is in the arrays that it does not
initialise. -/
structure Surroundings where
  skipCheck : Bool
  config : Option (List Char)
  line : List Char
  stack : ℤ → ℤ

/-- `array_len` starts at the second entry of the array, which for an empty
list is not there. -/
def arrayLen (kconfigs : List (List Char)) : Except Failure ℕ :=
  if kconfigs = [] then .error .wild else .ok kconfigs.length

def parseAll : List (List Char) → Except Failure (List (List Char × TstExpr))
  | [] => .ok []
  | kconfig :: kconfigs =>
    match tstBoolExprParse kconfig with
    | .error .overrun => .error .wild
    | .error _ => .error (.brk "Invalid kconfig expression!")
    | .ok expr => do
        let exprs ← parseAll kconfigs
        return (kconfig, expr) :: exprs

def tstKconfigCheck (around : Surroundings) (kconfigs : List (List Char)) : Except Failure ℤ := do
  let _ ← arrayLen kconfigs
  if around.skipCheck then return 0
  let exprs ← parseAll kconfigs
  if !validateVars exprs then .error (.brk "Invalid kconfig variables!")
  let (vars, exprs) ← populateVars exprs []
  let vars ← tstKconfigRead around.config around.line vars
  return if exprs.all fun (kconfig, expr) =>
    tstBoolExprEval (map kconfig vars) around.stack expr = 1 then 0 else 1

end GrapheneLtp.Kconfig
