import GrapheneLtp.BoolExpr.ShuntingYard

/-!
# The shunting yard follows the reader of the grammar

After every token the two stacks of `shunting_yard()` hold the pending
operators and the finished operands of the context that the left-to-right
reader of `OperatorGrammar` has built.  The yard therefore fails at exactly
the token the reader refuses, and its output is the reverse Polish form of
the derived tree.
-/

namespace GrapheneLtp.YardSimulation

open GrapheneLtp.OperatorGrammar
open GrapheneLtp.Tokens
open GrapheneLtp.ShuntingYard

/-! ## Stack operations -/

/-- Push a run of entries, the first one first. -/
def pushAll (stack : TokStack) (is : List ℕ) : TokStack := is.foldl TokStack.push stack

@[simp]
theorem pushAll_nil (stack : TokStack) : pushAll stack [] = stack := rfl

@[simp]
theorem pushAll_cons (stack : TokStack) (i : ℕ) (is : List ℕ) :
    pushAll stack (i :: is) = pushAll (stack.push i) is := rfl

@[simp]
theorem entries_push (stack : TokStack) (i : ℕ) : (stack.push i).entries = i :: stack.entries := rfl

@[simp]
theorem entries_pushAll (stack : TokStack) (is : List ℕ) :
    (pushAll stack is).entries = is.reverse ++ stack.entries := by
  induction is generalizing stack with
  | nil => rfl
  | cons i is ih => simp [ih]

section Pops

variable {op : ℕ → TstOp}

theorem popNots_append {nots rest : List ℕ} (out : TokStack) (hnots : ∀ i ∈ nots, op i = .not)
    (hrest : ∀ top ∈ rest.head?, op top ≠ .not) :
    popNots op (nots ++ rest) out = (rest, pushAll out nots) := by
  induction nots generalizing out with
  | nil =>
    cases rest with
    | nil => rfl
    | cons top rest =>
      have htop : op top ≠ .not := hrest top rfl
      simp [popNots, htop]
  | cons i nots ih =>
    have hi : op i = .not := hnots i (by simp)
    simp only [List.cons_append, popNots, hi, if_true, pushAll_cons]
    exact ih _ fun other hother => hnots other (by simp [hother])

theorem popTillLpar_append {above rest : List ℕ} {lpar : ℕ} (out : TokStack)
    (habove : ∀ i ∈ above, op i ≠ .lpar) (hlpar : op lpar = .lpar) :
    popTillLpar op (above ++ lpar :: rest) out = (some rest, pushAll out above) := by
  induction above generalizing out with
  | nil => simp [popTillLpar, hlpar]
  | cons i above ih =>
    have hi : op i ≠ .lpar := habove i (by simp)
    simp only [List.cons_append, popTillLpar, hi, if_false, pushAll_cons]
    exact ih _ fun other hother => habove other (by simp [hother])

theorem popTillLpar_none {above : List ℕ} (out : TokStack) (habove : ∀ i ∈ above, op i ≠ .lpar) :
    popTillLpar op above out = (none, pushAll out above) := by
  induction above generalizing out with
  | nil => rfl
  | cons i above ih =>
    have hi : op i ≠ .lpar := habove i (by simp)
    simp only [popTillLpar, hi, if_false, pushAll_cons]
    exact ih _ fun other hother => habove other (by simp [hother])

theorem popRemaining_ok {above : List ℕ} (out : TokStack) (habove : ∀ i ∈ above, op i ≠ .lpar) :
    popRemaining op above out = (.ok (), pushAll out above) := by
  induction above generalizing out with
  | nil => rfl
  | cons i above ih =>
    have hi : op i ≠ .lpar := habove i (by simp)
    simp only [popRemaining, hi, if_false, pushAll_cons]
    exact ih _ fun other hother => habove other (by simp [hother])

theorem popRemaining_error {above : List ℕ} (out : TokStack) (habove : ∃ i ∈ above, op i = .lpar) :
    ∃ culprit ∈ above, (popRemaining op above out).1 = .error culprit := by
  induction above generalizing out with
  | nil => simp at habove
  | cons i above ih =>
    by_cases hi : op i = .lpar
    · exact ⟨i, by simp, by simp [popRemaining, hi]⟩
    · obtain ⟨lpar, hmem, hlpar⟩ := habove
      have hne : lpar ≠ i := fun heq => hi (heq ▸ hlpar)
      have hlater : lpar ∈ above := List.mem_of_ne_of_mem hne hmem
      obtain ⟨culprit, hculprit, herror⟩ := ih (out.push i) ⟨lpar, hlater, hlpar⟩
      refine ⟨culprit, by simp [hculprit], ?_⟩
      simpa [popRemaining, hi] using herror

end Pops

/-! ## Contexts as stacks -/

def opClass : TstOp → TokenClass
  | .not => .unary
  | .and => .binary
  | .or => .binary
  | .var => .operand
  | .lpar => .opening
  | .rpar => .closing

def tokClass (token : TstExprTok) : TokenClass := opClass token.op

theorem opClass_eq_unary {op : TstOp} : opClass op = .unary ↔ op = .not := by
  cases op <;> simp [opClass]

theorem opClass_eq_opening {op : TstOp} : opClass op = .opening ↔ op = .lpar := by
  cases op <;> simp [opClass]

/-- Operators of the enclosing levels, innermost first: every level is the
opening parenthesis on top of the operators waiting for it. -/
def levelOps (levels : List (Frame TstExprTok × TstExprTok)) : List TstExprTok :=
  levels.flatMap fun level =>
    level.2 :: level.1.unaries.reverse ++ (level.1.left.map Prod.snd).toList

def baseOps (frame : Frame TstExprTok)
    (levels : List (Frame TstExprTok × TstExprTok)) : List TstExprTok :=
  (frame.left.map Prod.snd).toList ++ levelOps levels

def frameOut (frame : Frame TstExprTok) : List TstExprTok :=
  (frame.left.map fun pending => pending.1.rpn).getD []

def levelOut (levels : List (Frame TstExprTok × TstExprTok)) : List TstExprTok :=
  levels.reverse.flatMap fun level => frameOut level.1

/-- The yard holds the pending operators of the context on the operator stack
and its finished operands in the output. -/
structure Represents (buf : List TstExprTok) (yard : Yard)
    (context : Context TstExprTok) : Prop where
  ops : yard.opStack.entries.map (tokAt buf) =
    context.frame.unaries.reverse ++ baseOps context.frame context.levels
  out : yard.out.entries.reverse.map (tokAt buf) =
    levelOut context.levels ++ frameOut context.frame ++
      (context.operand.map OpTree.rpn).getD []
  one : checkOne yard.prevOp = context.operand.isSome
  two : checkTwo yard.prevOp = context.operand.isSome

/-- Pending operators carry the operations their place in a frame asks for. -/
structure FrameOps (frame : Frame TstExprTok) : Prop where
  unaries : ∀ token ∈ frame.unaries, token.op = .not
  left : ∀ pending ∈ frame.left, opClass pending.2.op = .binary

theorem frameOps_of_spells {frame : Frame TstExprTok}
    {inner : List TstExprTok} (hframe : frame.Spells tokClass inner) :
    FrameOps frame := by
  cases hframe with
  | start hunaries =>
    exact ⟨fun token htoken => opClass_eq_unary.mp (hunaries token htoken),
      by simp⟩
  | pending hleft hop hunaries =>
    refine ⟨fun token htoken =>
      opClass_eq_unary.mp (hunaries token htoken), ?_⟩
    intro pending hpending
    obtain rfl := Option.some.inj hpending
    exact hop

theorem levelOps_of_spell {levels : List (Frame TstExprTok × TstExprTok)}
    {outer : List TstExprTok} (houter : LevelsSpell tokClass levels outer) :
    ∀ level ∈ levels, FrameOps level.1 ∧ level.2.op = .lpar := by
  induction houter with
  | nil => simp
  | cons houter hframe hopened ih =>
    intro level hlevel
    rcases List.mem_cons.mp hlevel with rfl | hlevel
    · exact ⟨frameOps_of_spells hframe, opClass_eq_opening.mp hopened⟩
    · exact ih level hlevel

/-- Below the pending negations comes a binary operator, an opening
parenthesis, or the bottom of the stack. -/
theorem head_baseOps {frame : Frame TstExprTok}
    {levels : List (Frame TstExprTok × TstExprTok)} (hframe : FrameOps frame)
    (hlevels : ∀ level ∈ levels, FrameOps level.1 ∧ level.2.op = .lpar) :
    ∀ top ∈ (baseOps frame levels).head?, top.op ≠ .not := by
  intro top htop hnot
  cases hleft : frame.left with
  | some pending =>
    have hbinary := hframe.left pending hleft
    simp only [baseOps, hleft, Option.map_some, Option.toList_some,
      List.cons_append, List.head?_cons, Option.mem_def,
      Option.some.injEq] at htop
    rw [htop, hnot] at hbinary
    simp [opClass] at hbinary
  | none =>
    cases levels with
    | nil => simp [baseOps, levelOps, hleft] at htop
    | cons level levels =>
      have hlpar := (hlevels level (by simp)).2
      simp only [baseOps, hleft, Option.map_none, Option.toList_none,
        List.nil_append, levelOps, List.flatMap_cons, List.cons_append,
        List.head?_cons, Option.mem_def, Option.some.injEq] at htop
      rw [htop, hnot] at hlpar
      exact absurd hlpar (by simp)

section Simulation

variable {buf : List TstExprTok}

theorem opAt_eq (i : ℕ) : opAt buf i = (tokAt buf i).op := rfl

/-- A finished operand: the waiting negations move to the output behind it. -/
theorem popNots_represents {frame : Frame TstExprTok}
    {levels : List (Frame TstExprTok × TstExprTok)} {entries : List ℕ}
    {out : TokStack} {done : List TstExprTok} {tree : OpTree TstExprTok}
    {prevOp : Option TstOp} {peak : ℕ} (hframe : FrameOps frame)
    (hlevels : ∀ level ∈ levels, FrameOps level.1 ∧ level.2.op = .lpar)
    (hentries : entries.map (tokAt buf) = frame.unaries.reverse ++ baseOps frame levels)
    (hout : out.entries.reverse.map (tokAt buf) =
      done ++ tree.rpn)
    (hdone : done = levelOut levels ++ frameOut frame)
    (hone : checkOne prevOp = true) (htwo : checkTwo prevOp = true) :
    Represents buf ⟨⟨(popNots (opAt buf) entries out).1, peak⟩,
        (popNots (opAt buf) entries out).2, prevOp⟩
      (Context.complete ⟨levels, frame, none⟩ tree) := by
  obtain ⟨nots, rest, rfl, hnots, hrest⟩ := List.map_eq_append_iff.mp hentries
  have hall : ∀ i ∈ nots, opAt buf i = .not := by
    intro i hi
    have hmem : tokAt buf i ∈ frame.unaries := by
      rw [← List.mem_reverse, ← hnots]
      exact List.mem_map_of_mem hi
    exact hframe.unaries _ hmem
  have hhead : ∀ top ∈ rest.head?, opAt buf top ≠ .not := by
    intro top htop
    apply head_baseOps hframe hlevels
    rw [← hrest, List.head?_map, htop]
    rfl
  rw [popNots_append out hall hhead]
  refine ⟨?_, ?_, hone, htwo⟩
  · simpa [Context.complete, baseOps] using hrest
  · simp only [Context.complete, entries_pushAll, List.reverse_append,
      List.reverse_reverse, List.map_append, Option.map_some, Option.getD_some,
      OpTree.rpn_wrap]
    rw [hout, hdone, hnots]
    simp [frameOut]

/-- A waiting context takes a variable, `!` or `(` and nothing else. -/
theorem step_waiting {yard : Yard} {frame : Frame TstExprTok}
    {levels : List (Frame TstExprTok × TstExprTok)}
    (hrep : Represents buf yard ⟨levels, frame, none⟩)
    (hframe : FrameOps frame)
    (hlevels : ∀ level ∈ levels, FrameOps level.1 ∧ level.2.op = .lpar)
    (i : ℕ) :
    match Context.advance tokClass ⟨levels, frame, none⟩ (tokAt buf i) with
    | some next => ∃ after, step (opAt buf) yard i = .ok after ∧ Represents buf after next
    | none => ∃ failure, step (opAt buf) yard i = .error failure := by
  have hone : checkOne yard.prevOp = false := hrep.one
  have htwo : checkTwo yard.prevOp = false := hrep.two
  have hops := hrep.ops
  have hout := hrep.out
  simp only [Option.map_none, Option.getD_none, List.append_nil] at hout
  cases hop : (tokAt buf i).op with
  | var =>
    simp only [Context.advance, tokClass, hop, opClass, step, opAt_eq, hone,
      Bool.false_eq_true, if_false]
    refine ⟨_, rfl, ?_⟩
    refine popNots_represents hframe hlevels hops ?_ rfl rfl rfl
    simp [hout, OpTree.rpn]
  | lpar =>
    simp only [Context.advance, tokClass, hop, opClass, step, opAt_eq, hone,
      Bool.false_eq_true, if_false]
    refine ⟨_, rfl, ?_, ?_, rfl, rfl⟩
    · simp [hops, baseOps, levelOps, Frame.empty]
    · simp [hout, levelOut, frameOut, Frame.empty]
  | not =>
    simp only [Context.advance, tokClass, hop, opClass, step, opAt_eq, hone,
      Bool.false_eq_true, if_false]
    refine ⟨_, rfl, ?_, ?_, rfl, rfl⟩
    · simp [hops, baseOps]
    · simp [hout, frameOut]
  | rpar => simp [Context.advance, tokClass, hop, opClass, step, opAt_eq, htwo]
  | and => simp [Context.advance, tokClass, hop, opClass, step, opAt_eq, htwo]
  | or => simp [Context.advance, tokClass, hop, opClass, step, opAt_eq, htwo]

/-- The operators of the current level, none of them a parenthesis. -/
theorem join_represents {frame : Frame TstExprTok} {above : List ℕ}
    {out : TokStack} {done : List TstExprTok} {tree : OpTree TstExprTok}
    (habove : above.map (tokAt buf) = (frame.left.map Prod.snd).toList)
    (hout : out.entries.reverse.map (tokAt buf) =
      done ++ frameOut frame ++ tree.rpn) :
    (pushAll out above).entries.reverse.map (tokAt buf) =
      done ++ (frame.join tree).rpn := by
  simp only [entries_pushAll, List.reverse_append,
    List.reverse_reverse, List.map_append, habove, hout]
  cases hleft : frame.left with
  | none => simp [frameOut, hleft, Frame.join]
  | some pending => simp [frameOut, hleft, Frame.join, OpTree.rpn]

/-- The operators of the current level are the entries above the enclosing
parenthesis. -/
theorem split_ops {frame : Frame TstExprTok}
    {levels : List (Frame TstExprTok × TstExprTok)} {entries : List ℕ}
    (hframe : FrameOps frame)
    (hentries : entries.map (tokAt buf) = baseOps frame levels) :
    ∃ above rest, entries = above ++ rest ∧
      above.map (tokAt buf) = (frame.left.map Prod.snd).toList ∧
      rest.map (tokAt buf) = levelOps levels ∧
      ∀ i ∈ above, opAt buf i = .and ∨ opAt buf i = .or := by
  obtain ⟨above, rest, hsplit, habove, hrest⟩ := List.map_eq_append_iff.mp hentries
  refine ⟨above, rest, hsplit, habove, hrest, ?_⟩
  intro i hi
  have hmem : tokAt buf i ∈ (frame.left.map Prod.snd).toList := habove ▸ List.mem_map_of_mem hi
  obtain ⟨pending, hpending, htok⟩ : ∃ pending ∈ frame.left,
      pending.2 = tokAt buf i := by simpa using hmem
  have hbinary := hframe.left pending hpending
  rw [htok, ← opAt_eq] at hbinary
  cases hop : opAt buf i <;> simp_all [opClass]

theorem popBinary_append {above rest : List ℕ} (out : TokStack)
    (habove : ∀ i ∈ above, opAt buf i = .and ∨ opAt buf i = .or)
    (hlen : above.length ≤ 1)
    (hrest : ∀ top ∈ rest.head?, opAt buf top = .lpar) :
    popBinary (opAt buf) (above ++ rest) out = (rest, pushAll out above) := by
  match above, habove, hlen with
  | [], _, _ =>
    cases rest with
    | nil => rfl
    | cons top rest => simp [popBinary, hrest top rfl]
  | [i], habove, _ =>
    rcases habove i (by simp) with hi | hi <;> simp [popBinary, hi]

/-- A context with a finished operand takes `)`, `&` or `|`; a closing
parenthesis needs an open level. -/
theorem step_finished {yard : Yard} {frame : Frame TstExprTok}
    {levels : List (Frame TstExprTok × TstExprTok)} {tree : OpTree TstExprTok}
    (hrep : Represents buf yard ⟨levels, frame, some tree⟩)
    (hframe : FrameOps frame) (hunaries : frame.unaries = [])
    (hlevels : ∀ level ∈ levels, FrameOps level.1 ∧ level.2.op = .lpar)
    (i : ℕ) :
    match Context.advance tokClass ⟨levels, frame, some tree⟩ (tokAt buf i) with
    | some next => ∃ after, step (opAt buf) yard i = .ok after ∧ Represents buf after next
    | none => ∃ failure, step (opAt buf) yard i = .error failure := by
  have hone : checkOne yard.prevOp = true := hrep.one
  have htwo : checkTwo yard.prevOp = true := hrep.two
  have hops := hrep.ops
  have hout := hrep.out
  simp only [hunaries, List.reverse_nil, List.nil_append] at hops
  simp only [Option.map_some, Option.getD_some] at hout
  obtain ⟨above, rest, hsplit, habove, hrest, hbinary⟩ := split_ops hframe hops
  have hjoin := join_represents habove hout
  have hnolpar : ∀ other ∈ above, opAt buf other ≠ .lpar := by
    intro other hother
    rcases hbinary other hother with hop | hop <;> simp [hop]
  cases hop : (tokAt buf i).op with
  | var => simp [Context.advance, tokClass, hop, opClass, step, opAt_eq, hone]
  | lpar => simp [Context.advance, tokClass, hop, opClass, step, opAt_eq, hone]
  | not => simp [Context.advance, tokClass, hop, opClass, step, opAt_eq, hone]
  | rpar =>
    simp only [Context.advance, tokClass, hop, opClass, step, opAt_eq, htwo,
      Bool.not_true, Bool.false_eq_true, if_false, hsplit]
    cases levels with
    | nil =>
      obtain rfl : rest = [] := by simpa [levelOps] using hrest
      rw [List.append_nil, popTillLpar_none _ hnolpar]
      exact ⟨_, rfl⟩
    | cons level levels =>
      obtain ⟨parent, opened⟩ := level
      obtain ⟨lpar, rest, rfl, hlpar, hrest⟩ := List.map_eq_cons_iff.mp hrest
      have hopened := (hlevels (parent, opened) (by simp)).2
      have hlparOp : opAt buf lpar = .lpar := by
        rw [opAt_eq, hlpar]
        exact hopened
      rw [popTillLpar_append _ hnolpar hlparOp]
      refine ⟨_, rfl, ?_⟩
      refine popNots_represents (hlevels (parent, opened) (by simp)).1
        (fun level hlevel => hlevels level (by simp [hlevel])) ?_ hjoin ?_
        rfl rfl
      · simpa [baseOps, levelOps, List.flatMap_def] using hrest
      · simp [levelOut]
  | and | or =>
    simp only [Context.advance, tokClass, hop, opClass, step, opAt_eq, htwo,
      Bool.not_true, Bool.false_eq_true, if_false, hsplit]
    have hlen : above.length ≤ 1 := by
      have hsame := congrArg List.length habove
      rw [List.length_map] at hsame
      rw [hsame]
      cases frame.left <;> simp
    have hhead : ∀ top ∈ rest.head?, opAt buf top = .lpar := by
      intro top htop
      have hmem : tokAt buf top ∈ (levelOps levels).head? := by
        rw [← hrest, List.head?_map, htop]
        rfl
      cases levels with
      | nil => simp [levelOps] at hmem
      | cons level levels =>
        have hlpar := (hlevels level (by simp)).2
        simp only [levelOps, List.flatMap_cons, List.cons_append,
          List.head?_cons, Option.mem_def, Option.some.injEq] at hmem
        rw [opAt_eq, ← hmem]
        exact hlpar
    rw [popBinary_append _ hbinary hlen hhead]
    refine ⟨_, rfl, ?_, ?_, rfl, rfl⟩
    · simp [hrest, baseOps]
    · simpa [frameOut] using hjoin

/-- One token: the yard follows the reader, and fails exactly where the
reader has no next context. -/
theorem step_simulates {yard : Yard} {context : Context TstExprTok}
    {consumed : List TstExprTok} (hrep : Represents buf yard context)
    (hspells : context.Spells tokClass consumed) (i : ℕ) :
    match context.advance tokClass (tokAt buf i) with
    | some next => ∃ after, step (opAt buf) yard i = .ok after ∧ Represents buf after next
    | none => ∃ failure, step (opAt buf) yard i = .error failure := by
  cases hspells with
  | waiting houter hframe =>
    exact step_waiting hrep (frameOps_of_spells hframe) (levelOps_of_spell houter) i
  | finished houter hframe hunaries hlast =>
    exact step_finished hrep (frameOps_of_spells hframe) hunaries (levelOps_of_spell houter) i

theorem represents_initial : Represents buf .initial (Context.initial : Context TstExprTok) :=
  ⟨rfl, rfl, rfl, rfl⟩

/-- What the main loop does on a run of tokens: it reads them all, or stops at
the first one the reader refuses. -/
theorem mainLoop_simulates {yard : Yard} {context : Context TstExprTok}
    {consumed : List TstExprTok} (hrep : Represents buf yard context)
    (hspells : context.Spells tokClass consumed) (is : List ℕ) :
    (∃ after next, mainLoop (opAt buf) yard is = .ok after ∧
        context.run tokClass (is.map (tokAt buf)) = some next ∧
        Represents buf after next) ∨
      (∃ before i rest next failure text, is = before ++ i :: rest ∧
        mainLoop (opAt buf) yard is = .error (⟨i, text, true⟩, failure) ∧
        context.run tokClass (before.map (tokAt buf)) = some next ∧
        next.advance tokClass (tokAt buf i) = none) := by
  induction is generalizing yard context consumed with
  | nil => exact .inl ⟨yard, context, rfl, rfl, hrep⟩
  | cons i is ih =>
    have hstep := step_simulates hrep hspells i
    cases hnext : context.advance tokClass (tokAt buf i) with
    | none =>
      rw [hnext] at hstep
      obtain ⟨⟨text, failure⟩, herror⟩ := hstep
      exact .inr ⟨[], i, is, context, failure, text, rfl,
        by simp [mainLoop, herror], rfl, hnext⟩
    | some next =>
      rw [hnext] at hstep
      obtain ⟨after, hok, hafter⟩ := hstep
      rcases ih hafter (hspells.advance hnext) with
        ⟨last, final, hloop, hrun, hlast⟩ |
        ⟨before, j, rest, final, failure, text, rfl, hloop, hrun, hstuck⟩
      · exact .inl ⟨last, final, by simp [mainLoop, hok, hloop],
          by simp [Context.run, hnext, hrun], hlast⟩
      · exact .inr ⟨i :: before, j, rest, final, failure, text, rfl,
          by simp [mainLoop, hok, hloop],
          by simp [Context.run, hnext, hrun], hstuck⟩

theorem map_tokAt_range (buf : List TstExprTok) :
    (List.range buf.length).map (tokAt buf) = buf := by
  apply List.ext_getElem
  · simp
  · intro i hi hi'
    simp [tokAt, List.getElem?_eq_getElem hi']

theorem step_prevOp {yard after : Yard} {i : ℕ} (hstep : step (opAt buf) yard i = .ok after) :
    after.prevOp = some (opAt buf i) := by
  unfold step at hstep
  split at hstep <;> rename_i hop <;> split at hstep <;>
    first
    | (cases hstep; simp [hop])
    | (split at hstep <;> cases hstep; simp [hop])
    | cases hstep

theorem mainLoop_prevOp {yard after : Yard} {is : List ℕ} {last : ℕ}
    (hloop : mainLoop (opAt buf) yard (is ++ [last]) = .ok after) :
    after.prevOp = some (opAt buf last) := by
  induction is generalizing yard with
  | nil =>
    simp only [List.nil_append, mainLoop] at hloop
    cases hstep : step (opAt buf) yard last with
    | error failure => simp [hstep] at hloop
    | ok next =>
      simp only [hstep, Except.ok.injEq] at hloop
      exact hloop ▸ step_prevOp hstep
  | cons i is ih =>
    simp only [List.cons_append, mainLoop] at hloop
    cases hstep : step (opAt buf) yard i with
    | error failure => simp [hstep] at hloop
    | ok next =>
      simp only [hstep] at hloop
      exact ih hloop

/-- After the main loop the tail of the function accepts exactly when the
reader's context is complete. -/
theorem finish_simulates {yard : Yard} {context : Context TstExprTok}
    {consumed : List TstExprTok} {cnt : ℕ}
    (hrep : Represents buf yard context)
    (hspells : context.Spells tokClass consumed)
    (hprev : yard.prevOp = some (opAt buf (cnt - 1))) :
    match context.finish with
    | some tree => ∃ rpn, (finish (opAt buf) yard cnt).result = .ok rpn ∧
        rpn.map (tokAt buf) = tree.rpn
    | none => ∃ rejection, (finish (opAt buf) yard cnt).result = .error rejection ∧
        rejection.inLoop = false ∧
        (rejection.index = cnt - 1 ∨ rejection.index ∈ yard.opStack.entries) := by
  have htwo := hrep.two
  rw [hprev] at htwo
  cases hspells with
  | waiting houter hframe =>
    simp only [Context.finish, finish]
    rw [htwo]
    exact ⟨_, rfl, rfl, .inl rfl⟩
  | @finished levels outer frame inner last tree houter hframe hunaries hlast =>
    have hops := hrep.ops
    have hout := hrep.out
    simp only [hunaries, List.reverse_nil, List.nil_append] at hops
    simp only [Option.map_some, Option.getD_some] at hout
    obtain ⟨above, rest, hsplit, habove, hrest, hbinary⟩ :=
      split_ops (frameOps_of_spells hframe) hops
    have hnolpar : ∀ other ∈ above, opAt buf other ≠ .lpar := by
      intro other hother
      rcases hbinary other hother with hop | hop <;> simp [hop]
    simp only [finish, htwo, Option.isSome_some, Bool.not_true,
      Bool.false_eq_true, if_false, hsplit]
    cases houter with
    | nil =>
      obtain rfl : rest = [] := by simpa [levelOps] using hrest
      rw [List.append_nil, popRemaining_ok _ hnolpar]
      refine ⟨_, rfl, ?_⟩
      simpa [levelOut] using join_represents habove hout
    | @cons levels outer parent above' opened houter hparent hopened =>
      simp only [Context.finish]
      obtain ⟨lpar, below, rfl, hlpar, -⟩ := List.map_eq_cons_iff.mp hrest
      have hlparOp : opAt buf lpar = .lpar := by
        rw [opAt_eq, hlpar]
        exact opClass_eq_opening.mp hopened
      have hopen : ∃ i ∈ above ++ lpar :: below, opAt buf i = .lpar := ⟨lpar, by simp, hlparOp⟩
      obtain ⟨culprit, hculprit, herror⟩ := popRemaining_error yard.out hopen
      cases hpop : popRemaining (opAt buf) (above ++ lpar :: below) yard.out with
      | mk verdict out =>
        rw [hpop] at herror
        simp only at herror
        subst herror
        exact ⟨_, rfl, rfl, .inr hculprit⟩

end Simulation

end GrapheneLtp.YardSimulation
