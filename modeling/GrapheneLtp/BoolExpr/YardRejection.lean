import GrapheneLtp.BoolExpr.YardSimulation

/-!
# Acceptance and rejection of token lists

The simulation of the reader decides which token arrays `shunting_yard()`
accepts and where it stops on the others.  Counting entries shows that the
two stacks fit the arrays of `cnt` pointers they live in.
-/

namespace GrapheneLtp.YardRejection

open GrapheneLtp.OperatorGrammar
open GrapheneLtp.Tokens
open GrapheneLtp.ShuntingYard
open GrapheneLtp.YardSimulation

/-! ## What the pops move -/

section Moves

variable (op : ℕ → TstOp)

theorem popNots_moves (entries : List ℕ) (out : TokStack) :
    ∃ moved, entries = moved ++ (popNots op entries out).1 ∧
      (popNots op entries out).2 = pushAll out moved := by
  induction entries generalizing out with
  | nil => exact ⟨[], rfl, rfl⟩
  | cons top rest ih =>
    by_cases htop : op top = .not
    · obtain ⟨moved, hsplit, hout⟩ := ih (out.push top)
      refine ⟨top :: moved, ?_, ?_⟩
      · simpa [popNots, htop] using hsplit
      · simpa [popNots, htop] using hout
    · exact ⟨[], by simp [popNots, htop], by simp [popNots, htop]⟩

theorem popBinary_moves (entries : List ℕ) (out : TokStack) :
    ∃ moved, entries = moved ++ (popBinary op entries out).1 ∧
      (popBinary op entries out).2 = pushAll out moved := by
  cases entries with
  | nil => exact ⟨[], rfl, rfl⟩
  | cons top rest =>
    cases htop : op top with
    | and | or => exact ⟨[top], by simp [popBinary, htop],
        by simp [popBinary, htop]⟩
    | _ => exact ⟨[], by simp [popBinary, htop], by simp [popBinary, htop]⟩

theorem popTillLpar_moves (entries : List ℕ) (out : TokStack) :
    ∃ moved, (popTillLpar op entries out).2 = pushAll out moved ∧ moved.length ≤ entries.length ∧
      ∀ rest ∈ (popTillLpar op entries out).1, ∃ lpar, entries = moved ++ lpar :: rest := by
  induction entries generalizing out with
  | nil => exact ⟨[], rfl, le_rfl, by simp [popTillLpar]⟩
  | cons top rest ih =>
    by_cases htop : op top = .lpar
    · exact ⟨[], by simp [popTillLpar, htop], by simp,
        by simp [popTillLpar, htop]⟩
    · obtain ⟨moved, hout, hlen, hrest⟩ := ih (out.push top)
      refine ⟨top :: moved, ?_, by simpa using hlen, ?_⟩
      · simpa [popTillLpar, htop] using hout
      · intro below hbelow
        simp only [popTillLpar, htop, if_false] at hbelow
        obtain ⟨lpar, hsplit⟩ := hrest below hbelow
        exact ⟨lpar, by rw [hsplit]; rfl⟩

theorem popRemaining_moves (entries : List ℕ) (out : TokStack) :
    ∃ moved, (popRemaining op entries out).2 = pushAll out moved ∧
      moved.length ≤ entries.length := by
  induction entries generalizing out with
  | nil => exact ⟨[], rfl, le_rfl⟩
  | cons top rest ih =>
    by_cases htop : op top = .lpar
    · exact ⟨[], by simp [popRemaining, htop], by simp⟩
    · obtain ⟨moved, hout, hlen⟩ := ih (out.push top)
      refine ⟨top :: moved, ?_, by simpa using hlen⟩
      simpa [popRemaining, htop] using hout

theorem peak_pushAll (stack : TokStack) (is : List ℕ) : (pushAll stack is).peak ≤
      max stack.peak (stack.entries.length + is.length) := by
  induction is generalizing stack with
  | nil => simp
  | cons i is ih =>
    refine (ih (stack.push i)).trans ?_
    simp only [TokStack.push, List.length_cons]
    omega

end Moves

/-! ## The arrays are large enough -/

/-- After `n` tokens both stacks together hold at most `n` entries, taken from
the tokens read, and neither ever held more. -/
structure Fits (cnt n : ℕ) (yard : Yard) : Prop where
  held : yard.opStack.entries.length + yard.out.entries.length ≤ n
  opPeak : yard.opStack.peak ≤ n
  outPeak : yard.out.peak ≤ n
  inside : ∀ i ∈ yard.opStack.entries, i < cnt

theorem fits_initial (cnt : ℕ) : Fits cnt 0 .initial :=
  ⟨by simp [Yard.initial, TokStack.empty], le_rfl, le_rfl,
    by simp [Yard.initial, TokStack.empty]⟩

/-- Moving the top entries of the operator stack to the output keeps the
total. -/
theorem Fits.move {cnt n : ℕ} {yard : Yard} (hfits : Fits cnt n yard)
    {moved rest : List ℕ} {prevOp : Option TstOp}
    (hsplit : yard.opStack.entries = moved ++ rest) :
    Fits cnt n ⟨{ yard.opStack with entries := rest }, pushAll yard.out moved, prevOp⟩ := by
  have hheld := hfits.held
  have hpeak := peak_pushAll yard.out moved
  have houtPeak := hfits.outPeak
  rw [hsplit, List.length_append] at hheld
  refine ⟨?_, hfits.opPeak, ?_, ?_⟩
  · simp only [entries_pushAll, List.length_append, List.length_reverse]
    omega
  · simp only
    omega
  · intro i hi
    exact hfits.inside i (by simp [hsplit, hi])

theorem Fits.drop {cnt n : ℕ} {yard : Yard} (hfits : Fits cnt n yard)
    {lpar : ℕ} {rest : List ℕ} (hsplit : yard.opStack.entries = lpar :: rest) :
    Fits cnt n { yard with opStack := { yard.opStack with entries := rest } } := by
  have hheld := hfits.held
  rw [hsplit, List.length_cons] at hheld
  refine ⟨?_, hfits.opPeak, hfits.outPeak, ?_⟩
  · simp only
    omega
  · intro i hi
    exact hfits.inside i (by simp [hsplit, hi])

theorem Fits.pushOp {cnt n : ℕ} {yard : Yard} (hfits : Fits cnt n yard)
    {i : ℕ} (hi : i < cnt) {prevOp : Option TstOp} :
    Fits cnt (n + 1)
      { yard with opStack := yard.opStack.push i, prevOp := prevOp } := by
  have hheld := hfits.held
  have hopPeak := hfits.opPeak
  have houtPeak := hfits.outPeak
  refine ⟨?_, ?_, ?_, ?_⟩
  · simp only [entries_push, List.length_cons]
    omega
  · simp only [TokStack.push]
    omega
  · simp only
    omega
  · intro other hother
    rcases List.mem_cons.mp hother with rfl | hother
    · exact hi
    · exact hfits.inside other hother

theorem Fits.pushOut {cnt n : ℕ} {yard : Yard} (hfits : Fits cnt n yard)
    (i : ℕ) : Fits cnt (n + 1) { yard with out := yard.out.push i } := by
  have hheld := hfits.held
  have hopPeak := hfits.opPeak
  have houtPeak := hfits.outPeak
  refine ⟨?_, ?_, ?_, hfits.inside⟩
  · simp only [entries_push, List.length_cons]
    omega
  · simp only
    omega
  · simp only [TokStack.push]
    omega

theorem Fits.mono {cnt n m : ℕ} {yard : Yard} (hfits : Fits cnt n yard)
    (hle : n ≤ m) : Fits cnt m yard :=
  ⟨hfits.held.trans hle, hfits.opPeak.trans hle, hfits.outPeak.trans hle, hfits.inside⟩

/-- The state a step leaves behind, also when it ends in an error. -/
def stateOf : Except (String × Yard) Yard → Yard
  | .ok yard => yard
  | .error (_, yard) => yard

section Counting

variable {cnt n : ℕ} {yard : Yard} (op : ℕ → TstOp)

theorem Fits.popNots (hfits : Fits cnt n yard) {prevOp : Option TstOp} : Fits cnt n
      ⟨⟨(popNots op yard.opStack.entries yard.out).1, yard.opStack.peak⟩,
        (popNots op yard.opStack.entries yard.out).2, prevOp⟩ := by
  obtain ⟨moved, hsplit, hout⟩ := popNots_moves op yard.opStack.entries yard.out
  rw [hout]
  exact hfits.move hsplit

theorem step_fits (hfits : Fits cnt n yard) {i : ℕ} (hi : i < cnt) :
    Fits cnt (n + 1) (stateOf (step op yard i)) := by
  have hlater := hfits.mono (Nat.le_succ n)
  cases hop : op i with
  | var =>
    simp only [step, hop]
    split
    · exact hlater
    · exact (hfits.pushOut i).popNots op
  | lpar | not =>
    simp only [step, hop]
    split
    · exact hlater
    · exact hfits.pushOp hi
  | rpar =>
    simp only [step, hop]
    split
    · exact hlater
    · obtain ⟨moved, hout, hlen, hrest⟩ := popTillLpar_moves op yard.opStack.entries yard.out
      cases hpop : popTillLpar op yard.opStack.entries yard.out with
      | mk verdict out =>
        rw [hpop] at hout hrest
        simp only at hout hrest
        subst hout
        cases verdict with
        | none =>
          have hheld := hfits.held
          have hpeak := peak_pushAll yard.out moved
          have houtPeak := hfits.outPeak
          have hopPeak := hfits.opPeak
          refine ⟨?_, ?_, ?_, by simp [stateOf]⟩
          · simp only [stateOf, entries_pushAll, List.length_append,
              List.length_reverse, List.length_nil]
            omega
          · simp only [stateOf]
            omega
          · simp only [stateOf]
            omega
        | some rest =>
          obtain ⟨lpar, hsplit⟩ := hrest rest rfl
          have hmoved : Fits cnt n ⟨{ yard.opStack with entries := lpar :: rest },
                pushAll yard.out moved, yard.prevOp⟩ :=
            hfits.move hsplit
          exact ((hmoved.drop rfl).popNots op).mono (Nat.le_succ n)
  | and | or =>
    simp only [step, hop]
    split
    · exact hlater
    · obtain ⟨moved, hsplit, hout⟩ := popBinary_moves op yard.opStack.entries yard.out
      rw [hout]
      have hmoved : Fits cnt n ⟨{ yard.opStack with
              entries := (popBinary op yard.opStack.entries yard.out).1 },
            pushAll yard.out moved, yard.prevOp⟩ := hfits.move hsplit
      exact hmoved.pushOp hi

theorem mainLoop_fits (hfits : Fits cnt n yard) {is : List ℕ} (his : ∀ i ∈ is, i < cnt) :
    match mainLoop op yard is with
    | .ok after => Fits cnt (n + is.length) after
    | .error (_, after) => Fits cnt (n + is.length) after := by
  induction is generalizing yard n with
  | nil => exact hfits
  | cons i is ih =>
    have hstep := step_fits op hfits (his i (by simp))
    simp only [mainLoop]
    cases hresult : step op yard i with
    | error failure =>
      rw [hresult] at hstep
      exact hstep.mono (by simp)
    | ok next =>
      rw [hresult] at hstep
      have hrest := ih hstep fun other hother => his other (by simp [hother])
      simp only [List.length_cons]
      rw [show n + (is.length + 1) = n + 1 + is.length by omega]
      exact hrest

theorem finish_fits (hfits : Fits cnt n yard) :
    (finish op yard cnt).opPeak ≤ n ∧ (finish op yard cnt).outPeak ≤ n := by
  obtain ⟨moved, hout, hlen⟩ := popRemaining_moves op yard.opStack.entries yard.out
  have hheld := hfits.held
  have hpeak := peak_pushAll yard.out moved
  have houtPeak := hfits.outPeak
  have hbound : (pushAll yard.out moved).peak ≤ n := by omega
  unfold finish
  split
  · exact ⟨hfits.opPeak, hfits.outPeak⟩
  · split <;> rename_i out hpop <;> rw [hpop] at hout <;>
      exact ⟨hfits.opPeak, (congrArg TokStack.peak hout).trans_le hbound⟩

end Counting

/-- Neither stack ever holds more than `cnt` entries. -/
theorem shuntingYard_peaks (buf : List TstExprTok) : (shuntingYard buf).opPeak ≤ buf.length ∧
      (shuntingYard buf).outPeak ≤ buf.length := by
  have hinside : ∀ i ∈ List.range buf.length, i < buf.length := fun i hi => List.mem_range.mp hi
  have hloop := mainLoop_fits (opAt buf) (fits_initial buf.length) hinside
  rw [List.length_range, Nat.zero_add] at hloop
  unfold shuntingYard
  cases hresult : mainLoop (opAt buf) .initial (List.range buf.length) with
  | error failure =>
    rw [hresult] at hloop
    exact ⟨hloop.opPeak, hloop.outPeak⟩
  | ok yard =>
    rw [hresult] at hloop
    exact finish_fits (opAt buf) hloop

/-! ## Acceptance -/

theorem viable_of_spells {context : Context TstExprTok}
    {consumed : List TstExprTok} (hspells : context.Spells tokClass consumed) :
    ∃ rest, Derivable tokClass (consumed ++ rest) := by
  have hvar : tokClass ⟨.var, 0, 1, none⟩ = .operand := rfl
  have hrpar : tokClass ⟨.rpar, 0, 1, none⟩ = .closing := rfl
  exact hspells.viable hvar hrpar

/-- Every prefix of a token list that the reader has read is viable. -/
theorem viable_take {context : Context TstExprTok} {consumed : List TstExprTok}
    (hrun : Context.run tokClass .initial consumed = some context) (k : ℕ) :
    ∃ rest, Derivable tokClass (consumed.take k ++ rest) := by
  rw [← List.take_append_drop k consumed, Context.run_append] at hrun
  obtain ⟨middle, hmiddle, -⟩ := Option.bind_eq_some_iff.mp hrun
  have hspells := spells_initial.run hmiddle
  rw [List.nil_append] at hspells
  exact viable_of_spells hspells

/-- The two ends of `shunting_yard()`: the reverse Polish form of the derived
tree, or one marked token with the reason the list is not derivable. -/
theorem shuntingYard_cases {buf : List TstExprTok} (hne : buf ≠ []) :
    (∃ tree rpn, Derives tokClass .expr buf tree ∧ (shuntingYard buf).result = .ok rpn ∧
        rpn.map (tokAt buf) = tree.rpn) ∨
      (∃ rejection, (shuntingYard buf).result = .error rejection ∧
        ¬ Derivable tokClass buf ∧ rejection.index < buf.length ∧
        (rejection.inLoop = true → (∀ rest, ¬ Derivable tokClass
            (buf.take (rejection.index + 1) ++ rest)) ∧
          ∀ k ≤ rejection.index, ∃ rest, Derivable tokClass (buf.take k ++ rest))) := by
  have hmap := map_tokAt_range buf
  have hpos : 0 < buf.length := List.length_pos_iff.mpr hne
  have hinitial : Represents buf .initial .initial := represents_initial
  rcases mainLoop_simulates hinitial spells_initial (List.range buf.length) with
    ⟨yard, context, hloop, hrun, hrep⟩ |
    ⟨before, i, rest, context, failure, text, hrange, hloop, hrun, hstuck⟩
  · rw [hmap] at hrun
    have hspells := spells_initial.run hrun
    rw [List.nil_append] at hspells
    have hlast : List.range buf.length = List.range (buf.length - 1) ++ [buf.length - 1] := by
      rw [← List.range_succ, Nat.succ_eq_add_one, Nat.sub_add_cancel hpos]
    have hprev : yard.prevOp = some (opAt buf (buf.length - 1)) := mainLoop_prevOp (hlast ▸ hloop)
    have hfinish := finish_simulates hrep hspells hprev
    have hresult : (shuntingYard buf).result = (finish (opAt buf) yard buf.length).result := by
      simp [shuntingYard, hloop]
    cases htree : context.finish with
    | some tree =>
      rw [htree] at hfinish
      obtain ⟨rpn, hok, hrpn⟩ := hfinish
      exact .inl ⟨tree, rpn, derives_of_finish hspells htree, hresult.trans hok, hrpn⟩
    | none =>
      rw [htree] at hfinish
      obtain ⟨rejection, herror, hphase, hindex⟩ := hfinish
      refine .inr ⟨rejection, hresult.trans herror, ?_, ?_, ?_⟩
      · rintro ⟨tree, hderives⟩
        obtain ⟨final, hfinal, hdone⟩ := run_of_derives hderives
        rw [hrun] at hfinal
        obtain rfl := Option.some.inj hfinal
        rw [htree] at hdone
        exact absurd hdone (by simp)
      · have hinside : ∀ i ∈ List.range buf.length, i < buf.length :=
          fun i hi => List.mem_range.mp hi
        have hfits := mainLoop_fits (opAt buf) (fits_initial buf.length) hinside
        rw [hloop] at hfits
        rcases hindex with hindex | hindex
        · omega
        · exact hfits.inside _ hindex
      · simp [hphase]
  · have hindex : before = List.range i ∧ i < buf.length := by
      have hlen := congrArg List.length hrange
      simp only [List.length_range, List.length_append, List.length_cons] at hlen
      have hget : (List.range buf.length)[before.length]? = some i := by
        rw [hrange]
        simp
      rw [List.getElem?_range (by omega)] at hget
      have hi : before.length = i := Option.some.inj hget
      refine ⟨?_, by omega⟩
      have htake := congrArg (List.take before.length) hrange
      rw [List.take_left, List.take_range, hi, min_eq_left (by omega)] at htake
      exact htake.symm
    obtain ⟨rfl, hi⟩ := hindex
    have htake : (List.range i).map (tokAt buf) = buf.take i := by
      rw [← hmap, ← List.map_take, List.take_range, min_eq_left hi.le, hmap]
    have hnext : buf.take (i + 1) = buf.take i ++ [tokAt buf i] := by
      rw [List.take_succ_eq_append_getElem hi]
      simp [tokAt, List.getElem?_eq_getElem hi]
    rw [htake] at hrun
    have hdead : ∀ more, ¬ Derivable tokClass (buf.take (i + 1) ++ more) := by
      intro more
      rw [hnext, List.append_assoc]
      exact not_derivable_of_advance_none hrun hstuck more
    refine .inr ⟨⟨i, text, true⟩, by simp [shuntingYard, hloop], ?_, hi, ?_⟩
    · have := hdead (buf.drop (i + 1))
      rwa [List.take_append_drop] at this
    · refine fun _ => ⟨hdead, fun k hk => ?_⟩
      have := viable_take hrun k
      rwa [List.take_take, min_eq_left hk] at this

/-! ## The marked token -/

theorem mark_getElem {buf : List TstExprTok} {rejection : Rejection} {i : ℕ}
    (hi : i < (mark buf rejection).length) (hi' : i < buf.length) :
    (mark buf rejection)[i] =
      if rejection.index = i then
        { buf[i] with priv := some (.err rejection.text) }
      else buf[i] := by
  simp [mark, List.getElem_modify]

/-- Marking an unmarked array sets exactly one `priv`, where the scan of
`tst_bool_expr_err()` then stops. -/
theorem mark_spec {buf : List TstExprTok} {rejection : Rejection}
    (hfresh : ∀ token ∈ buf, token.priv = none)
    (hindex : rejection.index < buf.length) :
    (∀ i, (tokAt (mark buf rejection) i).priv.isSome = true ↔ i = rejection.index) ∧
      errIndex (mark buf rejection) = rejection.index := by
  have hlen : (mark buf rejection).length = buf.length := by simp [mark]
  have hpriv : ∀ i (hi : i < (mark buf rejection).length),
      (mark buf rejection)[i].priv.isSome = true ↔ i = rejection.index := by
    intro i hi
    have hi' : i < buf.length := hlen ▸ hi
    rw [mark_getElem hi hi']
    by_cases hsame : rejection.index = i
    · simp [hsame]
    · simp [hsame, Ne.symm hsame, hfresh _ (List.getElem_mem hi')]
  refine ⟨fun i => ?_, ?_⟩
  · by_cases hi : i < (mark buf rejection).length
    · simpa [tokAt, List.getElem?_eq_getElem hi] using hpriv i hi
    · have hout : ¬ i = rejection.index := by omega
      simp [tokAt, List.getElem?_eq_none (not_lt.mp hi), hout, default,
        instInhabitedTstExprTok.default]
  · have hat : rejection.index < (mark buf rejection).length := by omega
    refine (List.findIdx_eq hat).mpr ⟨(hpriv _ hat).mpr rfl, fun j hj => ?_⟩
    have hne : ¬ j = rejection.index := by omega
    have hnone := (hpriv j (hj.trans hat)).not.mpr hne
    simpa using hnone

/-- `shunting_yard()` on a fresh token array: it accepts exactly the derivable
lists; a rejection marks exactly one token inside the array, which is the
first dead end when the main loop marks it; and the stacks never outgrow the
array. -/
theorem shuntingYard_spec (buf : List TstExprTok) (hne : buf ≠ [])
    (hfresh : ∀ token ∈ buf, token.priv = none) :
    ((∃ rpn, (shuntingYard buf).result = .ok rpn) ↔ Derivable tokClass buf) ∧
      (∀ rejection, (shuntingYard buf).result = .error rejection → (∃! i, i < buf.length ∧
          (tokAt (mark buf rejection) i).priv.isSome = true) ∧
        errIndex (mark buf rejection) < buf.length ∧
        (rejection.inLoop = true → (tokAt (mark buf rejection) rejection.index).priv.isSome = true ∧
          (∀ rest, ¬ Derivable tokClass (buf.take (rejection.index + 1) ++ rest)) ∧
          ∀ k ≤ rejection.index, ∃ rest, Derivable tokClass (buf.take k ++ rest))) ∧
      (shuntingYard buf).opPeak ≤ buf.length ∧
      (shuntingYard buf).outPeak ≤ buf.length := by
  refine ⟨?_, ?_, shuntingYard_peaks buf⟩
  · rcases shuntingYard_cases hne with
      ⟨tree, rpn, hderives, hok, -⟩ | ⟨rejection, herror, hdead, -⟩
    · exact ⟨fun _ => ⟨tree, hderives⟩, fun _ => ⟨rpn, hok⟩⟩
    · constructor
      · rintro ⟨rpn, hok⟩
        rw [herror] at hok
        exact absurd hok (by simp)
      · exact fun hderivable => absurd hderivable hdead
  · intro rejection herror
    rcases shuntingYard_cases hne with
      ⟨tree, rpn, -, hok, -⟩ | ⟨other, hother, hdead, hindex, hloop⟩
    · rw [herror] at hok
      exact absurd hok (by simp)
    · rw [herror, Except.error.injEq] at hother
      subst hother
      obtain ⟨hmarked, hscan⟩ := mark_spec hfresh hindex
      refine ⟨⟨rejection.index, ⟨hindex, (hmarked _).mpr rfl⟩, ?_⟩,
        hscan ▸ hindex, fun hphase => ⟨(hmarked _).mpr rfl, hloop hphase⟩⟩
      rintro i ⟨-, hi⟩
      exact (hmarked i).mp hi

/-- `A & | B` is refused at its third token. -/
theorem shuntingYard_spec_operators :
    (shuntingYard (tokens "A & | B".toList)).result =
        .error ⟨2, "Expected variable or (", true⟩ ∧
      ∀ rest, ¬ Derivable tokClass
        ((tokens "A & | B".toList).take 3 ++ rest) := by
  have hresult : (shuntingYard (tokens "A & | B".toList)).result =
      .error ⟨2, "Expected variable or (", true⟩ := rfl
  have hspec := shuntingYard_spec (tokens "A & | B".toList)
    (by decide) (by decide)
  exact ⟨hresult, ((hspec.2.1 _ hresult).2.2 rfl).2.1⟩

end GrapheneLtp.YardRejection
