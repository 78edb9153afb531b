import Mathlib.Tactic

/-!
# Operator expressions with one left-associative precedence level

The grammar has prefix operators, binary operators of equal precedence that
associate to the left, and parentheses.  Tokens are an arbitrary type with a
classification.  A deterministic left-to-right reader keeps the part of the
derivation built so far as an explicit context; it is proved sound, complete
and fail-fast: it stops exactly at the first token after which no completion
exists.
-/

namespace GrapheneLtp.OperatorGrammar

inductive TokenClass where
  | operand
  | unary
  | binary
  | opening
  | closing
  deriving DecidableEq, Repr

inductive OpTree (α : Type*) where
  | operand (token : α)
  | unary (op : α) (arg : OpTree α)
  | binary (op : α) (left right : OpTree α)
  deriving DecidableEq, Repr

inductive NonTerminal where
  | expr
  | term
  deriving DecidableEq, Repr

variable {α : Type*} (cls : α → TokenClass)

/-- `E ::= T | E op T` and `T ::= operand | op T | ( E )`. -/
inductive Derives : NonTerminal → List α → OpTree α → Prop
  | term {tokens tree} (hterm : Derives .term tokens tree) :
      Derives .expr tokens tree
  | binary {lefts left op rights right} (hleft : Derives .expr lefts left)
      (hop : cls op = .binary) (hright : Derives .term rights right) :
      Derives .expr (lefts ++ op :: rights) (.binary op left right)
  | operand {token} (htoken : cls token = .operand) :
      Derives .term [token] (.operand token)
  | unary {op tokens arg} (hop : cls op = .unary)
      (harg : Derives .term tokens arg) :
      Derives .term (op :: tokens) (.unary op arg)
  | group {opened tokens tree closed} (hopened : cls opened = .opening)
      (hinner : Derives .expr tokens tree) (hclosed : cls closed = .closing) :
      Derives .term (opened :: tokens ++ [closed]) tree

def Derivable (tokens : List α) : Prop := ∃ tree, Derives cls .expr tokens tree

namespace OpTree

/-- Reverse Polish order: operands first, every operator after its
arguments. -/
def rpn : OpTree α → List α
  | .operand token => [token]
  | .unary op arg => arg.rpn ++ [op]
  | .binary op left right => left.rpn ++ right.rpn ++ [op]

def operands : OpTree α → List α
  | .operand token => [token]
  | .unary _ arg => arg.operands
  | .binary _ left right => left.operands ++ right.operands

/-- Number of stack cells needed to evaluate the reverse Polish form. -/
def depth : OpTree α → ℕ
  | .operand _ => 1
  | .unary _ arg => arg.depth
  | .binary _ left right => max left.depth (1 + right.depth)

/-- Apply pending prefix operators, the last one first. -/
def wrap (ops : List α) (tree : OpTree α) : OpTree α := ops.foldr OpTree.unary tree

@[simp]
theorem wrap_nil (tree : OpTree α) : wrap [] tree = tree := rfl

@[simp]
theorem wrap_append_singleton (ops : List α) (op : α) (tree : OpTree α) :
    wrap (ops ++ [op]) tree = wrap ops (.unary op tree) := by
  simp [wrap]

theorem rpn_wrap (ops : List α) (tree : OpTree α) :
    (wrap ops tree).rpn = tree.rpn ++ ops.reverse := by
  induction ops with
  | nil => simp
  | cons op ops ih =>
    change (wrap ops tree).rpn ++ [op] = _
    rw [ih, List.reverse_cons, List.append_assoc]

end OpTree

/-! ## Contexts -/

/-- One parenthesis level: the finished left argument with its operator, and
the prefix operators still waiting for their argument, oldest first. -/
structure Frame (α : Type*) where
  left : Option (OpTree α × α)
  unaries : List α

structure Context (α : Type*) where
  levels : List (Frame α × α)
  frame : Frame α
  operand : Option (OpTree α)

namespace Frame

def empty : Frame α := ⟨none, []⟩

/-- Close the pending binary operator with its right argument. -/
def join (frame : Frame α) (tree : OpTree α) : OpTree α :=
  match frame.left with
  | none => tree
  | some (left, op) => .binary op left tree

@[simp]
theorem join_empty (tree : OpTree α) : (empty : Frame α).join tree = tree := rfl

end Frame

namespace Context

def initial : Context α := ⟨[], Frame.empty, none⟩

/-- Put a finished term into the current level. -/
def complete (context : Context α) (tree : OpTree α) : Context α :=
  { context with
    frame := { context.frame with unaries := [] }
    operand := some (OpTree.wrap context.frame.unaries tree) }

/-- Read one token. -/
def advance (context : Context α) (token : α) : Option (Context α) :=
  match cls token, context.operand with
  | .operand, none => some (context.complete (.operand token))
  | .unary, none =>
    some { context with
      frame := { context.frame with
        unaries := context.frame.unaries ++ [token] } }
  | .opening, none =>
    some ⟨(context.frame, token) :: context.levels, Frame.empty, none⟩
  | .binary, some tree =>
    some { context with
      frame := ⟨some (context.frame.join tree, token), []⟩
      operand := none }
  | .closing, some tree =>
    match context.levels with
    | [] => none
    | (frame, _) :: levels =>
      some (complete ⟨levels, frame, none⟩ (context.frame.join tree))
  | _, _ => none

def run (context : Context α) : List α → Option (Context α)
  | [] => some context
  | token :: tokens => (context.advance cls token).bind fun next =>
    next.run tokens

def finish (context : Context α) : Option (OpTree α) :=
  match context.operand, context.levels with
  | some tree, [] => some (context.frame.join tree)
  | _, _ => none

theorem run_append (context : Context α) (first second : List α) :
    context.run cls (first ++ second) =
      (context.run cls first).bind fun next => next.run cls second := by
  induction first generalizing context with
  | nil => rfl
  | cons token tokens ih =>
    cases hstep : context.advance cls token with
    | none => simp [run, hstep]
    | some next => simp [run, hstep, ih]

end Context

/-! ## Completeness -/

variable {cls}

namespace Derives

/-- Reading a derivable token list from a context that waits for an operand.
A term is completed in place; an expression read at the start of a level
leaves a frame whose pending operator joins to the derived tree. -/
theorem run {sort : NonTerminal} {tokens : List α} {tree : OpTree α}
    (hderives : Derives cls sort tokens tree) :
    (sort = .term → ∀ context : Context α, context.operand = none →
        context.run cls tokens = some (context.complete tree)) ∧
      (∀ levels : List (Frame α × α), ∃ frame last,
        Context.run cls ⟨levels, Frame.empty, none⟩ tokens =
          some ⟨levels, frame, some last⟩ ∧ frame.join last = tree) := by
  have hlevel : ∀ {tokens : List α} {tree : OpTree α},
      (∀ context : Context α, context.operand = none →
        context.run cls tokens = some (context.complete tree)) →
      ∀ levels : List (Frame α × α), ∃ frame last,
        Context.run cls ⟨levels, Frame.empty, none⟩ tokens =
          some ⟨levels, frame, some last⟩ ∧ frame.join last = tree := by
    intro tokens tree hrun levels
    exact ⟨Frame.empty, tree, hrun _ rfl, rfl⟩
  induction hderives with
  | term hterm ih => exact ⟨by simp, ih.2⟩
  | @binary lefts left op rights right hleft hop hright ihl ihr =>
    refine ⟨by simp, fun levels => ?_⟩
    obtain ⟨frame, last, hrun, hjoin⟩ := ihl.2 levels
    refine ⟨⟨some (left, op), []⟩, right, ?_, rfl⟩
    rw [Context.run_append, hrun]
    change (Context.advance cls ⟨levels, frame, some last⟩ op).bind _ = _
    simp only [Context.advance, hop, hjoin, Option.bind_some]
    exact ihr.1 rfl _ rfl
  | @operand token htoken =>
    have hrun : ∀ context : Context α, context.operand = none → context.run cls [token] =
          some (context.complete (.operand token)) := by
      intro context hnone
      simp [Context.run, Context.advance, htoken, hnone]
    exact ⟨fun _ => hrun, hlevel hrun⟩
  | @unary op tokens arg hop harg ih =>
    have hrun : ∀ context : Context α, context.operand = none → context.run cls (op :: tokens) =
          some (context.complete (.unary op arg)) := by
      intro context hnone
      simp only [Context.run, Context.advance, hop, hnone, Option.bind_some]
      rw [ih.1 rfl _ rfl]
      simp [Context.complete]
    exact ⟨fun _ => hrun, hlevel hrun⟩
  | @group opened tokens tree closed hopened hinner hclosed ih =>
    have hrun : ∀ context : Context α, context.operand = none →
        context.run cls (opened :: tokens ++ [closed]) = some (context.complete tree) := by
      intro context hnone
      obtain ⟨frame, last, hinside, hjoin⟩ := ih.2 ((context.frame, opened) :: context.levels)
      rw [Context.run_append]
      simp only [Context.run, Context.advance, hopened, hnone,
        Option.bind_some, hinside, hclosed, hjoin]
      simp [Context.complete]
    exact ⟨fun _ => hrun, hlevel hrun⟩

end Derives

/-- Every derivation is found by the reader. -/
theorem run_of_derives {tokens : List α} {tree : OpTree α}
    (hderives : Derives cls .expr tokens tree) :
    ∃ context : Context α, Context.run cls .initial tokens = some context ∧
      context.finish = some tree := by
  obtain ⟨frame, last, hrun, hjoin⟩ := hderives.run.2 []
  exact ⟨⟨[], frame, some last⟩, hrun, by simp [Context.finish, hjoin]⟩

/-- The grammar is unambiguous. -/
theorem derives_unique {tokens : List α} {left right : OpTree α}
    (hleft : Derives cls .expr tokens left)
    (hright : Derives cls .expr tokens right) : left = right := by
  obtain ⟨first, hfirst, hfinish⟩ := run_of_derives hleft
  obtain ⟨second, hsecond, hfinish'⟩ := run_of_derives hright
  have hsame : first = second := by
    rw [hfirst] at hsecond
    exact Option.some.inj hsecond
  subst hsame
  rw [hfinish] at hfinish'
  exact Option.some.inj hfinish'

/-- A token the reader refuses cannot be continued to any expression. -/
theorem not_derivable_of_advance_none {tokens : List α} {token : α} {context : Context α}
    (hrun : Context.run cls .initial tokens = some context)
    (hstuck : context.advance cls token = none) (rest : List α) :
    ¬ Derivable cls (tokens ++ token :: rest) := by
  rintro ⟨tree, hderives⟩
  obtain ⟨final, hfinal, -⟩ := run_of_derives hderives
  rw [Context.run_append, hrun] at hfinal
  simp [Context.run, hstuck] at hfinal

/-! ## Soundness -/

variable (cls)

/-- The tokens a frame has consumed. -/
inductive Frame.Spells : Frame α → List α → Prop
  | start {unaries} (hunaries : ∀ op ∈ unaries, cls op = .unary) :
      Frame.Spells ⟨none, unaries⟩ unaries
  | pending {lefts left op unaries} (hleft : Derives cls .expr lefts left)
      (hop : cls op = .binary) (hunaries : ∀ op ∈ unaries, cls op = .unary) :
      Frame.Spells ⟨some (left, op), unaries⟩ (lefts ++ op :: unaries)

inductive LevelsSpell : List (Frame α × α) → List α → Prop
  | nil : LevelsSpell [] []
  | cons {levels outer frame inner opened} (houter : LevelsSpell levels outer)
      (hframe : frame.Spells cls inner) (hopened : cls opened = .opening) :
      LevelsSpell ((frame, opened) :: levels) (outer ++ inner ++ [opened])

/-- The tokens consumed by a context: the enclosing levels, the current
frame, and the finished term if there is one. -/
inductive Context.Spells : Context α → List α → Prop
  | waiting {levels outer frame inner} (houter : LevelsSpell cls levels outer)
      (hframe : frame.Spells cls inner) :
      Context.Spells ⟨levels, frame, none⟩ (outer ++ inner)
  | finished {levels outer frame inner last tree}
      (houter : LevelsSpell cls levels outer) (hframe : frame.Spells cls inner)
      (hunaries : frame.unaries = []) (hlast : Derives cls .term last tree) :
      Context.Spells ⟨levels, frame, some tree⟩ (outer ++ inner ++ last)

variable {cls}

theorem derives_wrap {ops tokens : List α} {tree : OpTree α} (hops : ∀ op ∈ ops, cls op = .unary)
    (hderives : Derives cls .term tokens tree) :
    Derives cls .term (ops ++ tokens) (OpTree.wrap ops tree) := by
  induction ops with
  | nil => exact hderives
  | cons op ops ih =>
    exact .unary (hops op (by simp)) (ih fun other hother => hops other (by simp [hother]))

namespace Frame.Spells

theorem derives_join {frame : Frame α} {inner last : List α} {tree : OpTree α}
    (hframe : frame.Spells cls inner) (hunaries : frame.unaries = [])
    (hlast : Derives cls .term last tree) :
    Derives cls .expr (inner ++ last) (frame.join tree) := by
  cases hframe with
  | start _ =>
    subst hunaries
    exact .term hlast
  | pending hleft hop _ =>
    subst hunaries
    simpa [Frame.join] using Derives.binary hleft hop hlast

/-- A finished term absorbs the prefix operators waiting for it. -/
theorem complete {levels : List (Frame α × α)} {frame : Frame α}
    {outer inner last : List α} {tree : OpTree α}
    (hframe : frame.Spells cls inner) (houter : LevelsSpell cls levels outer)
    (hlast : Derives cls .term last tree) :
    (Context.complete ⟨levels, frame, none⟩ tree).Spells cls (outer ++ inner ++ last) := by
  cases hframe with
  | start hunaries =>
    have hempty : Frame.Spells cls ⟨none, []⟩ [] := .start (by simp)
    have hspells := Context.Spells.finished houter hempty rfl (derives_wrap hunaries hlast)
    simpa [Context.complete] using hspells
  | @pending lefts left op unaries hleft hop hunaries =>
    have hpending : Frame.Spells cls ⟨some (left, op), []⟩ (lefts ++ [op]) :=
      .pending hleft hop (by simp)
    have hspells := Context.Spells.finished houter hpending rfl (derives_wrap hunaries hlast)
    simpa [Context.complete] using hspells

theorem snoc {frame : Frame α} {inner : List α} {op : α}
    (hframe : frame.Spells cls inner) (hop : cls op = .unary) :
    Frame.Spells cls { frame with unaries := frame.unaries ++ [op] } (inner ++ [op]) := by
  have hall : ∀ {ops : List α}, (∀ other ∈ ops, cls other = .unary) →
      ∀ other ∈ ops ++ [op], cls other = .unary := by
    intro ops hops other hother
    rcases List.mem_append.mp hother with hold | hnew
    · exact hops other hold
    · rw [List.mem_singleton.mp hnew]
      exact hop
  cases hframe with
  | start hunaries => exact .start (hall hunaries)
  | pending hleft hbinary hunaries =>
    simpa using Frame.Spells.pending hleft hbinary (hall hunaries)

end Frame.Spells

theorem frameSpells_empty : Frame.Spells cls (Frame.empty : Frame α) [] := .start (by simp)

theorem spells_initial : Context.Spells cls (Context.initial : Context α) [] :=
  .waiting .nil frameSpells_empty

/-- One step of the reader keeps the token account exact. -/
theorem Context.Spells.advance {context next : Context α} {tokens : List α}
    {token : α} (hspells : context.Spells cls tokens)
    (hstep : context.advance cls token = some next) :
    next.Spells cls (tokens ++ [token]) := by
  cases hspells with
  | @waiting levels outer frame inner houter hframe =>
    cases hclass : cls token with
    | operand =>
      simp only [Context.advance, hclass, Option.some.injEq] at hstep
      subst hstep
      exact hframe.complete houter (.operand hclass)
    | unary =>
      simp only [Context.advance, hclass, Option.some.injEq] at hstep
      subst hstep
      rw [List.append_assoc]
      exact .waiting houter (hframe.snoc hclass)
    | opening =>
      simp only [Context.advance, hclass, Option.some.injEq] at hstep
      subst hstep
      have hspells := Context.Spells.waiting
        (LevelsSpell.cons houter hframe hclass) frameSpells_empty
      simpa using hspells
    | binary => simp [Context.advance, hclass] at hstep
    | closing => simp [Context.advance, hclass] at hstep
  | @finished levels outer frame inner last tree houter hframe hunaries hlast =>
    have hjoin := hframe.derives_join hunaries hlast
    cases hclass : cls token with
    | operand => simp [Context.advance, hclass] at hstep
    | unary => simp [Context.advance, hclass] at hstep
    | opening => simp [Context.advance, hclass] at hstep
    | binary =>
      simp only [Context.advance, hclass, Option.some.injEq] at hstep
      subst hstep
      have hpending : Frame.Spells cls ⟨some (frame.join tree, token), []⟩
          (inner ++ last ++ [token]) :=
        .pending hjoin hclass (by simp)
      simpa using Context.Spells.waiting houter hpending
    | closing =>
      cases houter with
      | nil => simp [Context.advance, hclass] at hstep
      | @cons levels outer parent above opened houter hparent hopened =>
        simp only [Context.advance, hclass, Option.some.injEq] at hstep
        subst hstep
        have hgroup := Derives.group hopened hjoin hclass
        simpa using hparent.complete houter hgroup

theorem Context.Spells.run {context next : Context α} {tokens more : List α}
    (hspells : context.Spells cls tokens)
    (hrun : context.run cls more = some next) :
    next.Spells cls (tokens ++ more) := by
  induction more generalizing context tokens with
  | nil =>
    simp only [Context.run, Option.some.injEq] at hrun
    subst hrun
    simpa using hspells
  | cons token more ih =>
    simp only [Context.run, Option.bind_eq_some_iff] at hrun
    obtain ⟨middle, hstep, hrest⟩ := hrun
    simpa using ih (hspells.advance hstep) hrest

theorem derives_of_finish {context : Context α} {tokens : List α}
    {tree : OpTree α} (hspells : context.Spells cls tokens)
    (hfinish : context.finish = some tree) :
    Derives cls .expr tokens tree := by
  cases hspells with
  | waiting houter hframe => simp [Context.finish] at hfinish
  | finished houter hframe hunaries hlast =>
    cases houter with
    | nil =>
      simp only [Context.finish, Option.some.injEq] at hfinish
      subst hfinish
      simpa using hframe.derives_join hunaries hlast
    | cons houter hparent hopened => simp [Context.finish] at hfinish

/-! ## Viable prefixes -/

section Viable

variable {anOperand aClosing : α}

/-- Closing the open levels completes every context that has an operand. -/
theorem derivable_closings (hclosing : cls aClosing = .closing)
    {levels : List (Frame α × α)} {outer tokens : List α} {tree : OpTree α}
    (houter : LevelsSpell cls levels outer)
    (hinner : Derives cls .expr tokens tree) :
    Derivable cls (outer ++ tokens ++ List.replicate levels.length aClosing) := by
  induction houter generalizing tokens tree with
  | nil => exact ⟨tree, by simpa using hinner⟩
  | @cons levels outer frame inner opened houter hframe hopened ih =>
    have hgroup := Derives.group hopened hinner hclosing
    have hexpr : ∃ whole, Derives cls .expr (inner ++ (opened :: tokens ++ [aClosing])) whole := by
      cases hframe with
      | start hunaries => exact ⟨_, .term (derives_wrap hunaries hgroup)⟩
      | pending hleft hop hunaries =>
        have hbinary := Derives.binary hleft hop (derives_wrap hunaries hgroup)
        exact ⟨_, by simpa using hbinary⟩
    obtain ⟨whole, hwhole⟩ := hexpr
    simpa [List.replicate_succ] using ih hwhole

/-- Whatever the reader has accepted so far can be completed. -/
theorem Context.Spells.viable (hoperand : cls anOperand = .operand)
    (hclosing : cls aClosing = .closing) {context : Context α}
    {tokens : List α} (hspells : context.Spells cls tokens) :
    ∃ rest, Derivable cls (tokens ++ rest) := by
  have hfinished : ∀ {levels : List (Frame α × α)} {frame : Frame α}
      {tree : OpTree α} {tokens : List α},
      Context.Spells cls ⟨levels, frame, some tree⟩ tokens →
        ∃ rest, Derivable cls (tokens ++ rest) := by
    intro levels frame tree tokens hspells
    cases hspells with
    | finished houter hframe hunaries hlast =>
      have hclosed := derivable_closings hclosing houter (hframe.derives_join hunaries hlast)
      exact ⟨_, by simpa using hclosed⟩
  cases hspells with
  | @waiting levels outer frame inner houter hframe =>
    obtain ⟨rest, hrest⟩ := hfinished (hframe.complete houter (.operand hoperand))
    exact ⟨anOperand :: rest, by simpa using hrest⟩
  | finished houter hframe hunaries hlast =>
    exact hfinished (.finished houter hframe hunaries hlast)

end Viable

end GrapheneLtp.OperatorGrammar
