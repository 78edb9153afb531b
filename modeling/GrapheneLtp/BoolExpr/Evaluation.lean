import GrapheneLtp.BoolExpr.YardRejection

/-!
# Evaluation of parsed boolean expressions

`tst_bool_expr_eval()` walks the reverse Polish list with an array of
`MAX_STACK` integers and an index that starts at `-1`.  Its result is compared
with the value of the parse tree of the token list.
-/

namespace GrapheneLtp.Evaluation

open GrapheneLtp.OperatorGrammar
open GrapheneLtp.Tokens
open GrapheneLtp.ShuntingYard
open GrapheneLtp.YardSimulation
open GrapheneLtp.YardRejection

def maxStack : ℤ := 16

/-- The local array, as the memory around it would be addressed, and the index
of its top. -/
structure EvalState where
  stack : ℤ → ℤ
  pos : ℤ

/-- The two places that return `-1`; the first also prints
`Eval out of stack!`. -/
inductive EvalAbort where
  | outOfStack
  | undefinedVar
  deriving DecidableEq, Repr

variable (map : TstExprTok → ℤ)

def evalStep (state : EvalState) (token : TstExprTok) : Except EvalAbort EvalState :=
  let stack := state.stack
  let pos := state.pos
  match token.op with
  | .not =>
    .ok ⟨Function.update stack pos (if stack pos = 0 then 1 else 0), pos⟩
  | .or =>
    .ok ⟨Function.update stack (pos - 1)
      (if stack pos ≠ 0 ∨ stack (pos - 1) ≠ 0 then 1 else 0), pos - 1⟩
  | .and =>
    .ok ⟨Function.update stack (pos - 1)
      (if stack pos ≠ 0 ∧ stack (pos - 1) ≠ 0 then 1 else 0), pos - 1⟩
  | .var =>
    if pos + 1 ≥ maxStack then .error .outOfStack
    else if map token = -1 then .error .undefinedVar
    else .ok ⟨Function.update stack (pos + 1) (map token), pos + 1⟩
  | _ => .ok state

def evalLoop (state : EvalState) : List TstExprTok → Except EvalAbort EvalState
  | [] => .ok state
  | token :: rest =>
    match evalStep map state token with
    | .error abort => .error abort
    | .ok next => evalLoop next rest

/-- `junk` is the content of the uninitialised array. -/
def tstBoolExprEval (junk : ℤ → ℤ) (expr : TstExpr) : ℤ :=
  match evalLoop map ⟨junk, -1⟩ expr.rpnToks with
  | .error _ => -1
  | .ok state => state.stack 0

/-! ## Reference semantics -/

/-- Truth value of a parse tree. -/
def treeValue (env : TstExprTok → Bool) : OpTree TstExprTok → Bool
  | .operand token => env token
  | .unary _ arg => !treeValue env arg
  | .binary op left right =>
    if op.op = .and then treeValue env left && treeValue env right
    else treeValue env left || treeValue env right

/-- The operators of a derived tree are the ones the grammar puts there. -/
def TreeOps : OpTree TstExprTok → Prop
  | .operand token => token.op = .var
  | .unary op arg => op.op = .not ∧ TreeOps arg
  | .binary op left right =>
    (op.op = .and ∨ op.op = .or) ∧ TreeOps left ∧ TreeOps right

theorem opClass_eq_binary {op : TstOp} : opClass op = .binary ↔ op = .and ∨ op = .or := by
  cases op <;> simp [opClass]

theorem opClass_eq_operand {op : TstOp} : opClass op = .operand ↔ op = .var := by
  cases op <;> simp [opClass]

theorem treeOps_of_derives {sort : NonTerminal} {tokens : List TstExprTok}
    {tree : OpTree TstExprTok} (hderives : Derives tokClass sort tokens tree) :
    TreeOps tree := by
  induction hderives with
  | term hterm ih => exact ih
  | binary hleft hop hright ihl ihr =>
    exact ⟨opClass_eq_binary.mp hop, ihl, ihr⟩
  | operand htoken => exact opClass_eq_operand.mp htoken
  | unary hop harg ih => exact ⟨opClass_eq_unary.mp hop, ih⟩
  | group hopened hinner hclosed ih => exact ih

/-! ## Height of the stack -/

def effect (token : TstExprTok) : ℤ :=
  match token.op with
  | .var => 1
  | .and | .or => -1
  | _ => 0

/-- Number of values an operator reads. -/
def need (token : TstExprTok) : ℤ :=
  match token.op with
  | .not => 1
  | .and | .or => 2
  | _ => 0

def height (tokens : List TstExprTok) : ℤ := (tokens.map effect).sum

/-- Every operator of the list finds its arguments when the walk starts with
`start` values. -/
def Supplied (start : ℤ) : List TstExprTok → Prop
  | [] => True
  | token :: rest => need token ≤ start ∧ Supplied (start + effect token) rest

theorem supplied_append {start : ℤ} {first second : List TstExprTok} :
    Supplied start (first ++ second) ↔
      Supplied start first ∧ Supplied (start + height first) second := by
  induction first generalizing start with
  | nil => simp [Supplied, height]
  | cons token rest ih =>
    simp only [List.cons_append, Supplied, ih, height, List.map_cons,
      List.sum_cons, and_assoc, ← add_assoc]

theorem height_append (first second : List TstExprTok) :
    height (first ++ second) = height first + height second := by
  simp [height]

theorem height_rpn {tree : OpTree TstExprTok} (hops : TreeOps tree) : height tree.rpn = 1 := by
  induction tree with
  | operand token =>
    have hvar : token.op = .var := hops
    simp [OpTree.rpn, height, effect, hvar]
  | unary op arg ih =>
    rw [OpTree.rpn, height_append, ih hops.2]
    simp [height, effect, hops.1]
  | binary op left right ihl ihr =>
    rw [OpTree.rpn, height_append, height_append, ihl hops.2.1, ihr hops.2.2]
    rcases hops.1 with hop | hop <;> simp [height, effect, hop]

theorem supplied_rpn {tree : OpTree TstExprTok} (hops : TreeOps tree)
    {start : ℤ} (hstart : 0 ≤ start) : Supplied start tree.rpn := by
  induction tree generalizing start with
  | operand token =>
    have hvar : token.op = .var := hops
    simpa [OpTree.rpn, Supplied, need, hvar] using hstart
  | unary op arg ih =>
    rw [OpTree.rpn, supplied_append, height_rpn hops.2]
    refine ⟨ih hops.2 hstart, ?_, trivial⟩
    simp only [need, hops.1]
    omega
  | binary op left right ihl ihr =>
    rw [OpTree.rpn, supplied_append, supplied_append, height_append,
      height_rpn hops.2.1, height_rpn hops.2.2]
    refine ⟨⟨ihl hops.2.1 hstart, ihr hops.2.2 (by omega)⟩, ?_, trivial⟩
    rcases hops.1 with hop | hop <;> simp only [need, hop] <;> omega

theorem evalLoop_append (state : EvalState) (first second : List TstExprTok) :
    evalLoop map state (first ++ second) =
      match evalLoop map state first with
      | .error abort => .error abort
      | .ok next => evalLoop map next second := by
  induction first generalizing state with
  | nil => rfl
  | cons token rest ih =>
    simp only [List.cons_append, evalLoop]
    cases hstep : evalStep map state token with
    | error abort => rfl
    | ok next => exact ih next

/-- The walk depends on the operators and on the values of the variables. -/
theorem evalLoop_congr {map other : TstExprTok → ℤ} {tokens renamed : List TstExprTok}
    (hrenamed : List.Forall₂ (fun token again => token.op = again.op ∧
      (token.op = .var → map token = other again)) tokens renamed)
    (state : EvalState) :
    evalLoop map state tokens = evalLoop other state renamed := by
  induction hrenamed generalizing state with
  | nil => rfl
  | @cons token again tokens renamed hsame _ ih =>
    have hstep : evalStep map state token = evalStep other state again := by
      obtain ⟨hop, hvar⟩ := hsame
      cases hcase : token.op with
      | var =>
        simp only [evalStep, ← hop, hcase, hvar hcase]
      | not | and | or | lpar | rpar => simp only [evalStep, ← hop, hcase]
    simp only [evalLoop, hstep]
    cases evalStep other state again with
    | error abort => rfl
    | ok next => exact ih next

theorem evalStep_pos {state next : EvalState} {token : TstExprTok}
    (hstep : evalStep map state token = .ok next) :
    next.pos = state.pos + effect token := by
  cases hop : token.op with
  | var =>
    simp only [evalStep, hop] at hstep
    split at hstep
    · cases hstep
    · split at hstep
      · cases hstep
      · cases hstep
        simp [effect, hop]
  | not | and | or | lpar | rpar =>
    simp only [evalStep, hop, Except.ok.injEq] at hstep
    subst hstep
    simp [effect, hop, sub_eq_add_neg]

/-- The index moves with the height of the list walked so far. -/
theorem evalLoop_pos {state next : EvalState} {tokens : List TstExprTok}
    (hloop : evalLoop map state tokens = .ok next) :
    next.pos = state.pos + height tokens := by
  induction tokens generalizing state with
  | nil =>
    cases hloop
    simp [height]
  | cons token rest ih =>
    simp only [evalLoop] at hloop
    cases hstep : evalStep map state token with
    | error abort => simp [hstep] at hloop
    | ok middle =>
      rw [hstep] at hloop
      have hrest := ih hloop
      have hfirst := evalStep_pos map hstep
      simp only [height, List.map_cons, List.sum_cons] at hrest ⊢
      omega

/-! ## Value of the result -/

/-- The map as a truth assignment. -/
def truth (token : TstExprTok) : Bool := map token != 0

def boolInt (value : Bool) : ℤ := if value then 1 else 0

/-- A variable without a value, or more operands than the array holds above
the current top. -/
def Aborts (pos : ℤ) (tree : OpTree TstExprTok) : Prop :=
  (∃ token ∈ tree.operands, map token = -1) ∨ maxStack < pos + 1 + tree.depth

theorem aborts_binary {pos : ℤ} {op : TstExprTok} {left right : OpTree TstExprTok} :
    Aborts map pos (.binary op left right) ↔ Aborts map pos left ∨ Aborts map (pos + 1) right := by
  have hmax : maxStack < pos + 1 + ((max left.depth (1 + right.depth) : ℕ) : ℤ) ↔
      maxStack < pos + 1 + left.depth ∨ maxStack < pos + 1 + 1 + right.depth := by
    push_cast
    rw [← max_add_add_left, lt_max_iff]
    constructor <;> rintro (hlt | hlt) <;> [left; right; left; right] <;> omega
  simp only [Aborts, OpTree.operands, OpTree.depth, List.mem_append, hmax]
  constructor
  · rintro (⟨token, htoken | htoken, hmap⟩ | hdepth | hdepth)
    · exact .inl (.inl ⟨token, htoken, hmap⟩)
    · exact .inr (.inl ⟨token, htoken, hmap⟩)
    · exact .inl (.inr hdepth)
    · exact .inr (.inr hdepth)
  · rintro ((⟨token, htoken, hmap⟩ | hdepth) | (⟨token, htoken, hmap⟩ | hdepth))
    · exact .inl ⟨token, .inl htoken, hmap⟩
    · exact .inr (.inl hdepth)
    · exact .inl ⟨token, .inr htoken, hmap⟩
    · exact .inr (.inr hdepth)

/-- Walking the reverse Polish form of a tree either aborts or leaves its
value on top of an otherwise unchanged stack. -/
theorem evalLoop_rpn {tree : OpTree TstExprTok} (hops : TreeOps tree)
    (hmap : ∀ token, map token = -1 ∨ map token = 0 ∨ map token = 1)
    (state : EvalState) :
    (Aborts map state.pos tree → ∃ abort, evalLoop map state tree.rpn = .error abort) ∧
      (¬ Aborts map state.pos tree →
        ∃ stack, evalLoop map state tree.rpn = .ok ⟨stack, state.pos + 1⟩ ∧
          stack (state.pos + 1) = boolInt (treeValue (truth map) tree) ∧
          ∀ i ≤ state.pos, stack i = state.stack i) := by
  induction tree generalizing state with
  | operand token =>
    have hvar : token.op = .var := hops
    simp only [Aborts, OpTree.operands, OpTree.depth, List.mem_singleton,
      exists_eq_left, OpTree.rpn, evalLoop, evalStep, hvar, ge_iff_le,
      Nat.cast_one]
    by_cases hfull : maxStack ≤ state.pos + 1
    · have hover : maxStack < state.pos + 1 + 1 := by omega
      simp [hfull, hover]
    · have hroom : ¬ maxStack < state.pos + 1 + 1 := by omega
      by_cases hundef : map token = -1
      · simp [hfull, hundef]
      · refine ⟨by simp [hundef, hroom], fun _ => ?_⟩
        refine ⟨_, by simp [hfull, hundef]; rfl, ?_, ?_⟩
        · rcases hmap token with hval | hval | hval
          · exact absurd hval hundef
          · simp [treeValue, truth, boolInt, hval]
          · simp [treeValue, truth, boolInt, hval]
        · intro i hi
          exact Function.update_of_ne (by omega) _ _
  | unary op arg ih =>
    obtain ⟨hbad, hgood⟩ := ih hops.2 state
    refine ⟨fun habort => ?_, fun habort => ?_⟩
    · obtain ⟨abort, herror⟩ := hbad habort
      exact ⟨abort, by simp [OpTree.rpn, evalLoop_append, herror]⟩
    · obtain ⟨stack, hok, htop, hbelow⟩ := hgood habort
      refine ⟨Function.update stack (state.pos + 1)
        (boolInt (treeValue (truth map) (.unary op arg))), ?_,
        Function.update_self .., ?_⟩
      · simp only [OpTree.rpn, evalLoop_append, hok, evalLoop, evalStep, hops.1, htop]
        cases harg : treeValue (truth map) arg <;>
          simp [treeValue, boolInt, harg]
      · intro i hi
        rw [Function.update_of_ne (by omega)]
        exact hbelow i hi
  | binary op left right ihl ihr =>
    obtain ⟨hbadLeft, hgoodLeft⟩ := ihl hops.2.1 state
    rw [aborts_binary]
    by_cases hleft : Aborts map state.pos left
    · obtain ⟨abort, herror⟩ := hbadLeft hleft
      refine ⟨fun _ => ⟨abort, ?_⟩, fun hno => absurd (.inl hleft) hno⟩
      simp [OpTree.rpn, evalLoop_append, herror]
    · obtain ⟨middle, hokLeft, htopLeft, hbelowLeft⟩ := hgoodLeft hleft
      obtain ⟨hbadRight, hgoodRight⟩ := ihr hops.2.2 ⟨middle, state.pos + 1⟩
      by_cases hright : Aborts map (state.pos + 1) right
      · obtain ⟨abort, herror⟩ := hbadRight hright
        refine ⟨fun _ => ⟨abort, ?_⟩, fun hno => absurd (.inr hright) hno⟩
        simp [OpTree.rpn, evalLoop_append, hokLeft, herror]
      · obtain ⟨last, hokRight, htopRight, hbelowRight⟩ := hgoodRight hright
        refine ⟨fun hyes => absurd hyes (not_or.mpr ⟨hleft, hright⟩), fun _ => ?_⟩
        have hleftCell : last (state.pos + 1) = boolInt (treeValue (truth map) left) := by
          rw [hbelowRight _ le_rfl]
          exact htopLeft
        simp only [OpTree.rpn, List.append_assoc, evalLoop_append, hokLeft, hokRight]
        refine ⟨Function.update last (state.pos + 1) (boolInt
          (treeValue (truth map) (.binary op left right))), ?_,
          Function.update_self .., ?_⟩
        · have hpop : state.pos + 1 + 1 - 1 = state.pos + 1 := by omega
          rcases hops.1 with hop | hop <;>
            simp only [evalLoop, evalStep, hop, hpop] <;>
            simp only at htopRight <;>
            rw [htopRight, hleftCell] <;>
            cases hl : treeValue (truth map) left <;>
            cases hr : treeValue (truth map) right <;>
            simp [treeValue, boolInt, hop, hl, hr]
        · intro i hi
          rw [Function.update_of_ne (by omega), hbelowRight i (by simp; omega)]
          exact hbelowLeft i hi

/-- An accepted expression has a parse tree, and its list is the reverse Polish
form of the tree. -/
theorem parse_rpn {expr : List Char} {parsed : TstExpr}
    (hparse : tstBoolExprParse expr = .ok parsed) :
    ∃ tree, Derives tokClass .expr (tokens expr) tree ∧ parsed.rpnToks = tree.rpn := by
  simp only [tstBoolExprParse, tokenize_count] at hparse
  split_ifs at hparse with hcnt hroom
  · have hne : tokens expr ≠ [] := fun hnil => hcnt (by simp [hnil])
    rcases shuntingYard_cases hne with
      ⟨tree, rpn, hderives, hok, hrpn⟩ | ⟨rejection, herror, -⟩
    · simp only [hok, Except.ok.injEq] at hparse
      exact ⟨tree, hderives, by rw [← hparse]; exact hrpn⟩
    · simp [herror] at hparse

theorem parse_buf {expr : List Char} {parsed : TstExpr}
    (hparse : tstBoolExprParse expr = .ok parsed) :
    parsed.buf = tokens expr := by
  simp only [tstBoolExprParse] at hparse
  split_ifs at hparse
  split at hparse
  · cases hparse
  · simp only [Except.ok.injEq] at hparse
    rw [← hparse]

theorem aborts_start {tree : OpTree TstExprTok} : Aborts map (-1) tree ↔
      (∃ token ∈ tree.operands, map token = -1) ∨ 16 < tree.depth := by
  simp only [Aborts, maxStack]
  constructor <;> rintro (hundef | hdepth)
  · exact .inl hundef
  · exact .inr (by omega)
  · exact .inl hundef
  · exact .inr (by omega)

/-- The value of a list in reverse Polish form. -/
theorem tstBoolExprEval_rpn {expr : TstExpr} {tree : OpTree TstExprTok}
    (hops : TreeOps tree) (hrpn : expr.rpnToks = tree.rpn)
    (hmap : ∀ token, map token = -1 ∨ map token = 0 ∨ map token = 1)
    (junk : ℤ → ℤ) :
    (Aborts map (-1) tree → tstBoolExprEval map junk expr = -1) ∧
      (¬ Aborts map (-1) tree → tstBoolExprEval map junk expr =
        boolInt (treeValue (truth map) tree)) := by
  obtain ⟨hbad, hgood⟩ := evalLoop_rpn map hops hmap ⟨junk, -1⟩
  constructor
  · intro habort
    obtain ⟨abort, hloop⟩ := hbad habort
    rw [tstBoolExprEval, hrpn, hloop]
  · intro habort
    obtain ⟨stack, hloop, htop, -⟩ := hgood habort
    rw [tstBoolExprEval, hrpn, hloop]
    exact htop

/-- Evaluating an accepted expression gives the value of its unique parse
tree, or `-1` exactly when a variable is undefined or the operands need more
than `MAX_STACK` cells.  Operators always find their arguments, and one value
is left at the end. -/
theorem tstBoolExprEval_parse (expr : List Char) (parsed : TstExpr)
    (hparse : tstBoolExprParse expr = .ok parsed) :
    ∃ tree, Derives tokClass .expr (tokens expr) tree ∧
      (∀ other, Derives tokClass .expr (tokens expr) other → other = tree) ∧
      ∀ (map : TstExprTok → ℤ) (junk : ℤ → ℤ),
        (∀ token, map token = -1 ∨ map token = 0 ∨ map token = 1) →
        (tstBoolExprEval map junk parsed = -1 ↔
          (∃ token ∈ tree.operands, map token = -1) ∨ 16 < tree.depth) ∧
        (¬ ((∃ token ∈ tree.operands, map token = -1) ∨ 16 < tree.depth) →
          tstBoolExprEval map junk parsed = boolInt (treeValue (truth map) tree)) ∧
        (∀ before token after state, parsed.rpnToks = before ++ token :: after →
          evalLoop map ⟨junk, -1⟩ before = .ok state →
          (token.op = .not → 0 ≤ state.pos) ∧
          (token.op = .and ∨ token.op = .or → 0 ≤ state.pos - 1)) ∧
        (∀ state, evalLoop map ⟨junk, -1⟩ parsed.rpnToks = .ok state → state.pos = 0) := by
  obtain ⟨tree, hderives, htoks⟩ := parse_rpn hparse
  have hops := treeOps_of_derives hderives
  refine ⟨tree, hderives, fun other hother => derives_unique hother hderives,
    fun map junk hmap => ?_⟩
  obtain ⟨hbad, hvalue⟩ := tstBoolExprEval_rpn map hops htoks hmap junk
  refine ⟨?_, fun hno => hvalue ((aborts_start map).not.mpr hno), ?_, ?_⟩
  · rw [← aborts_start map]
    constructor
    · intro hminus
      by_contra habort
      rw [hvalue habort] at hminus
      cases hval : treeValue (truth map) tree <;> simp [boolInt, hval] at hminus
    · exact hbad
  · intro before token after state hsplit hloop
    have hsupplied := supplied_rpn hops le_rfl
    rw [← htoks, hsplit, supplied_append] at hsupplied
    have hneed := hsupplied.2.1
    have hpos := evalLoop_pos map hloop
    simp only at hpos
    refine ⟨fun hop => ?_, fun hop => ?_⟩
    · simp only [need, hop] at hneed
      omega
    · rcases hop with hop | hop <;> simp only [need, hop] at hneed <;> omega
  · intro state hloop
    have hpos := evalLoop_pos map hloop
    rw [htoks, height_rpn hops] at hpos
    simpa using hpos

/-- `(A | B) & !!C` with `A` and `C` set. -/
theorem tstBoolExprEval_parse_nested :
    ∃ parsed tree, tstBoolExprParse "(A | B) & !!C".toList = .ok parsed ∧
      Derives tokClass .expr (tokens "(A | B) & !!C".toList) tree ∧
      treeValue (truth fun token => if token.tok = 5 then 0 else 1) tree =
        true := by
  obtain ⟨parsed, hparse⟩ : ∃ parsed,
      tstBoolExprParse "(A | B) & !!C".toList = .ok parsed := ⟨_, rfl⟩
  obtain ⟨tree, hderives, -, hspec⟩ := tstBoolExprEval_parse _ parsed hparse
  refine ⟨parsed, tree, hparse, hderives, ?_⟩
  obtain ⟨hminus, hvalue, -⟩ := hspec (fun token => if token.tok = 5 then 0 else 1) (fun _ => 7)
    (by intro token; by_cases h : token.tok = 5 <;> simp [h])
  have hone : tstBoolExprEval (fun token => if token.tok = 5 then 0 else 1)
      (fun _ => 7) parsed = 1 := by
    cases hparse
    rfl
  have hvalue := hvalue (hminus.not.mp (by rw [hone]; decide))
  rw [hone] at hvalue
  cases htree : treeValue (truth fun token => if token.tok = 5 then 0 else 1) tree with
  | true => rfl
  | false => simp [boolInt, htree] at hvalue

end GrapheneLtp.Evaluation
