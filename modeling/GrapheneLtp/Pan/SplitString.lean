import GrapheneLtp.Core.CheckedInt
import GrapheneLtp.Core.Strtok

/-!
# Splitting a command line

`splitstr.c` copies a string and collects pointers to its tokens in an array that
grows by 20 places.  `splitstr_free` takes the first of these pointers for the
start of the copy.
-/

namespace GrapheneLtp.SplitString

open CheckedInt CString Strtok

section Code

/-- What the allocator answers, and what a new array holds. -/
structure Memory where
  strdup : Bool
  malloc : Bool
  realloc : ℤ → Bool
  content : ℕ → Option ℕ

/-- The copy of the string, and the array with the number of its places.  A
pointer into the copy is its offset. -/
structure Result where
  argString : List Char
  argArray : ℕ → Option ℕ
  maxToks : ℕ
  argcount : ℕ

inductive Outcome where
  | returned (result : Result)
  | null
  | exit (status : ℕ)

/-- The loop over the tokens and what follows it.  There is no outcome after a write
outside the array or an overflow. -/
def splitLoop (memory : Memory) (isSeparator : Char → Bool) :
    ℕ → Call → (ℕ → Option ℕ) → ℕ → ℕ → Option Outcome
  | 0, _, _, _, _ => none
  | fuel + 1, call, argArray, numToks, maxToks =>
    if numToks < maxToks then
      if call.token = none then
        some (.returned ⟨call.block,
          fun i => if numToks ≤ i ∧ i < maxToks then none else argArray i, maxToks, numToks⟩)
      else
        let argArray := Function.update argArray numToks call.token
        let next := strtok isSeparator call.block call.save
        if numToks + 1 = maxToks then do
          let more ← inInt (maxToks + 20)
          if memory.realloc more then
            splitLoop memory isSeparator fuel next
              (fun i => if i < maxToks then argArray i else memory.content i) (numToks + 1)
              more.toNat
          else some (.exit 1)
        else splitLoop memory isSeparator fuel next argArray (numToks + 1) maxToks
    else none

/-- The separators, which have a default. -/
def separators (separator : Option (List Char)) : List Char := separator.getD [' ', '\t']

/-- `splitstr`. -/
def splitstr (memory : Memory) (str separator : Option (List Char)) : Option Outcome :=
  match str with
  | none => some .null
  | some text =>
    if memory.strdup = false ∨ memory.malloc = false then some .null
    else
      let isSeparator (c : Char) : Bool := c ∈ separators separator
      splitLoop memory isSeparator (text.length + 1)
        (strtok isSeparator (text ++ [nul]) 0) memory.content 0 20

inductive Block where
  | argString
  | argArray
  deriving DecidableEq, Repr

/-- `splitstr_free`: the addresses that are given to `free`. -/
def splitstrFree (result : Result) : List (Block × ℕ) :=
  (match result.argArray 0 with
    | some offset => [(.argString, offset)]
    | none => []) ++ [(.argArray, 0)]

end Code

section Meaning

/-- The tokens of a string: the longest parts without a separator. -/
def tokensOf (separator : Option (List Char)) (text : List Char) : List (List Char) :=
  Fields.strtok (fun c => decide (c ∈ separators separator)) text

/-- The array holds the tokens and a NULL. -/
structure Splits (tokens : List (List Char)) (result : Result) : Prop where
  stored : ∀ i, ∀ hi : i < tokens.length,
    ∃ offset, result.argArray i = some offset ∧ Token result.argString offset tokens[i]
  ended : result.argArray tokens.length = none
  inside : tokens.length < result.maxToks
  argcount : result.argcount = tokens.length

/-- Both blocks are released, each once and at its start. -/
def Releases (result : Result) : Prop :=
  (splitstrFree result).Perm [(.argString, 0), (.argArray, 0)]

/-- The allocator never fails. -/
structure Memory.Succeeds (memory : Memory) : Prop where
  strdup : memory.strdup = true
  malloc : memory.malloc = true
  realloc : ∀ size, memory.realloc size = true

/-- The largest multiple of 20 in an `int`: with as many tokens `max_toks`
overflows. -/
def tooMany : ℕ := 2147483640

end Meaning

section Loop

variable {isSeparator : Char → Bool} {memory : Memory}

/-- The tokens from the one that a call has returned on. -/
inductive Pending (isSeparator : Char → Bool) (call : Call) : List (List Char) → Prop where
  | done (hnone : call.token = none) : Pending isSeparator call []
  | token {offset : ℕ} {token left : List Char} (hpointer : call.token = some offset)
    (hholds : Token call.block offset token) (hstop : offset + token.length ≤ call.save)
    (hrest : Rest call.block call.save left) :
    Pending isSeparator call (token :: Fields.strtok isSeparator left)

theorem pending_strtok {block text : List Char} {start : ℕ} (hrest : Rest block start text) :
    Pending isSeparator (strtok isSeparator block start) (Fields.strtok isSeparator text) := by
  cases htokens : Fields.strtok isSeparator text with
  | nil =>
    obtain ⟨save, -, hcall⟩ := strtok_none hrest htokens
    rw [hcall]
    exact .done rfl
  | cons token others =>
    obtain ⟨offset, hfound⟩ := strtok_found hrest htokens
    obtain ⟨left, hleft, rfl⟩ := hfound.rest
    exact .token hfound.pointer hfound.holds hfound.stop hleft

/-- The next call leaves the tokens before it as they are. -/
theorem token_next {block left name : List Char} {start offset : ℕ} (hrest : Rest block start left)
    (htoken : Token block offset name) (hstop : offset + name.length ≤ start) :
    Token (strtok isSeparator block start).block offset name ∧
      start ≤ (strtok isSeparator block start).save := by
  cases htokens : Fields.strtok isSeparator left with
  | nil =>
    obtain ⟨save, hsave, hcall⟩ := strtok_none hrest htokens
    rw [hcall]
    exact ⟨htoken, hsave⟩
  | cons token others =>
    obtain ⟨first, hfound⟩ := strtok_found hrest htokens
    have hfirst := hfound.offset_eq
    have hbehind := hfound.stop
    exact ⟨hfound.earlier htoken hstop, by omega⟩

/-- What the loop returns from a point on: the array before it is kept, the pending
tokens and a NULL follow. -/
structure Continues (call : Call) (tokens : List (List Char)) (argArray : ℕ → Option ℕ)
    (numToks : ℕ) (offsets : List ℕ) (result : Result) : Prop where
  argcount : result.argcount = numToks + tokens.length
  inside : numToks + tokens.length < result.maxToks
  before : ∀ i < numToks, result.argArray i = argArray i
  first : result.argArray numToks = call.token
  pointers : ∀ i ≤ tokens.length, result.argArray (numToks + i) = offsets[i]?
  holds : List.Forall₂ (Token result.argString) offsets tokens
  earlier : ∀ {offset : ℕ} {name : List Char}, Token call.block offset name →
    offset + name.length ≤ call.save → Token result.argString offset name

/-- One round of the loop with a token, with the array it goes on with. -/
theorem splitLoop_token {call : Call} {argArray : ℕ → Option ℕ} {numToks maxToks fuel : ℕ}
    (hmemory : memory.Succeeds) (hroom : numToks < maxToks) (htoken : call.token ≠ none)
    (hmore : numToks + 1 = maxToks → maxToks + 20 < 2 ^ 31) :
    ∃ (next : ℕ → Option ℕ) (size : ℕ),
      (∀ i ≤ numToks, next i = Function.update argArray numToks call.token i) ∧
      (size = if numToks + 1 = maxToks then maxToks + 20 else maxToks) ∧
      splitLoop memory isSeparator (fuel + 1) call argArray numToks maxToks =
        splitLoop memory isSeparator fuel (strtok isSeparator call.block call.save) next
          (numToks + 1) size := by
  by_cases hfull : numToks + 1 = maxToks
  · have hint : inInt ((maxToks : ℤ) + 20) = some ((maxToks : ℤ) + 20) := by
      have hfits := hmore hfull
      exact inInt_eq_some_iff.mpr ⟨⟨by omega, by omega⟩, rfl⟩
    refine ⟨fun i => if i < maxToks then Function.update argArray numToks call.token i
      else memory.content i, maxToks + 20, ?_, by rw [if_pos hfull], ?_⟩
    · intro i hi
      exact if_pos (by omega)
    · rw [splitLoop, if_pos hroom, if_neg htoken]
      simp only [if_pos hfull, hint, Option.bind_eq_bind, Option.bind_some, hmemory.realloc,
        if_true]
      rfl
  · refine ⟨Function.update argArray numToks call.token, maxToks, fun _ _ => rfl,
      by rw [if_neg hfull], ?_⟩
    rw [splitLoop, if_pos hroom, if_neg htoken]
    simp only [if_neg hfull]

theorem splitLoop_continues {call : Call} {tokens : List (List Char)} {argArray : ℕ → Option ℕ}
    {numToks maxToks fuel : ℕ} (hmemory : memory.Succeeds)
    (hpending : Pending isSeparator call tokens) (hroom : numToks < maxToks)
    (hdvd : 20 ∣ maxToks) (hfew : numToks + tokens.length < tooMany)
    (hfuel : tokens.length < fuel) :
    ∃ offsets result,
      splitLoop memory isSeparator fuel call argArray numToks maxToks = some (.returned result) ∧
      Continues call tokens argArray numToks offsets result := by
  induction tokens generalizing call argArray numToks maxToks fuel with
  | nil =>
    obtain ⟨fuel, rfl⟩ := Nat.exists_eq_succ_of_ne_zero hfuel.ne'
    cases hpending with
    | done hnone =>
      refine ⟨[], ⟨call.block, fun i => if numToks ≤ i ∧ i < maxToks then none else argArray i,
        maxToks, numToks⟩, ?_, ?_⟩
      · rw [splitLoop, if_pos hroom, if_pos hnone]
      · refine ⟨rfl, hroom, ?_, ?_, ?_, .nil, fun hother _ => hother⟩
        · intro i hi
          exact if_neg (by omega)
        · rw [hnone]
          exact if_pos ⟨le_rfl, hroom⟩
        · intro i hi
          obtain rfl := Nat.le_zero.mp hi
          exact if_pos ⟨le_rfl, hroom⟩
  | cons token tokens ih =>
    obtain ⟨fuel, rfl⟩ := Nat.exists_eq_succ_of_ne_zero (Nat.ne_of_gt (Nat.zero_lt_of_lt hfuel))
    rw [List.length_cons] at hfew hfuel
    generalize hall : token :: tokens = pending at hpending
    cases hpending with
    | done => cases hall
    | @token offset name left hpointer hholds hstop hrest =>
      obtain ⟨rfl, rfl⟩ := List.cons.inj hall
      have hsome : call.token ≠ none := by
        rw [hpointer]
        simp
      -- The array grows only while the tokens that are left still fit in an `int`.
      have hmore : numToks + 1 = maxToks → maxToks + 20 < 2 ^ 31 := by
        unfold tooMany at hfew
        omega
      obtain ⟨next, size, hnext, hsize, hstep⟩ := @splitLoop_token isSeparator memory call argArray
        numToks maxToks fuel hmemory hroom hsome hmore
      have hsize' : numToks + 1 < size ∧ 20 ∣ size := by
        rw [hsize]
        split_ifs <;> omega
      obtain ⟨offsets, result, hresult, hcontinues⟩ := @ih (strtok isSeparator call.block call.save)
        next (numToks + 1) size fuel (pending_strtok hrest) hsize'.1 hsize'.2 (by omega) (by omega)
      have hargcount := hcontinues.argcount
      have hinside := hcontinues.inside
      have hfirst : result.argArray numToks = call.token := by
        rw [hcontinues.before numToks (by omega), hnext numToks le_rfl, Function.update_self]
      refine ⟨offset :: offsets, result, hstep.trans hresult, ?_⟩
      refine ⟨?_, ?_, ?_, hfirst, ?_, ?_, ?_⟩
      · rw [hargcount, List.length_cons]
        omega
      · rw [List.length_cons]
        omega
      · intro i hi
        rw [hcontinues.before i (by omega), hnext i (by omega), Function.update_of_ne (by omega)]
      · intro i hi
        cases i with
        | zero =>
          rw [Nat.add_zero, hfirst, hpointer, List.getElem?_cons_zero]
        | succ i =>
          have hindex : numToks + (i + 1) = numToks + 1 + i := by omega
          rw [hindex, hcontinues.pointers i (by simpa using hi), List.getElem?_cons_succ]
      · obtain ⟨hkept, hsave⟩ := @token_next isSeparator _ _ _ _ _ hrest hholds hstop
        exact .cons (hcontinues.earlier hkept (by omega)) hcontinues.holds
      · intro other earlier hother hbefore
        obtain ⟨hkept, hsave⟩ := @token_next isSeparator _ _ _ _ _ hrest hother hbefore
        exact hcontinues.earlier hkept (by omega)

/-- With too many tokens the size of the array overflows. -/
theorem splitLoop_overflows {call : Call} {tokens : List (List Char)} {argArray : ℕ → Option ℕ}
    {numToks maxToks : ℕ} (hmemory : memory.Succeeds)
    (hpending : Pending isSeparator call tokens) (hroom : numToks < maxToks)
    (hdvd : 20 ∣ maxToks) (hmax : maxToks ≤ tooMany) (hmany : tooMany ≤ numToks + tokens.length)
    (fuel : ℕ) : splitLoop memory isSeparator fuel call argArray numToks maxToks = none := by
  induction tokens generalizing call argArray numToks maxToks fuel with
  | nil =>
    rw [List.length_nil] at hmany
    omega
  | cons token tokens ih =>
    cases fuel with
    | zero => rfl
    | succ fuel =>
      rw [List.length_cons] at hmany
      generalize hall : token :: tokens = pending at hpending
      cases hpending with
      | done => cases hall
      | @token offset name left hpointer hholds hstop hrest =>
        obtain ⟨rfl, rfl⟩ := List.cons.inj hall
        have hsome : call.token ≠ none := by
          rw [hpointer]
          simp
        by_cases hlast : numToks + 1 = tooMany
        · have hfull : numToks + 1 = maxToks := by omega
          have hint : inInt ((maxToks : ℤ) + 20) = none := by
            refine Option.eq_none_iff_forall_ne_some.mpr ?_
            intro more hsum
            obtain ⟨⟨-, hfits⟩, -⟩ := inInt_eq_some_iff.mp hsum
            unfold tooMany at hlast
            omega
          rw [splitLoop, if_pos hroom, if_neg hsome]
          simp only [if_pos hfull, hint, Option.bind_eq_bind, Option.bind_none]
        · have hmore : numToks + 1 = maxToks → maxToks + 20 < 2 ^ 31 := by
            unfold tooMany at hmax hlast
            omega
          obtain ⟨next, size, -, hsize, hstep⟩ := @splitLoop_token isSeparator memory call argArray
            numToks maxToks fuel hmemory hroom hsome hmore
          have hsize' : numToks + 1 < size ∧ 20 ∣ size ∧ size ≤ tooMany := by
            rw [hsize]
            unfold tooMany at hmax hlast ⊢
            split_ifs <;> omega
          rw [hstep]
          exact ih (pending_strtok hrest) hsize'.1 hsize'.2.1 hsize'.2.2 (by omega) fuel

end Loop

section Main

variable {memory : Memory} {separator : Option (List Char)} {text : List Char}

theorem rest_copy (htext : nul ∉ text) : Rest (text ++ [nul]) 0 text := ⟨⟨[], rfl, rfl⟩, htext⟩

theorem splitstr_eq (hmemory : memory.Succeeds) : splitstr memory (some text) separator =
    splitLoop memory (fun c => decide (c ∈ separators separator)) (text.length + 1)
      (strtok (fun c => decide (c ∈ separators separator)) (text ++ [nul]) 0) memory.content 0
      20 := by
  simp [splitstr, hmemory.strdup, hmemory.malloc]

/-- The result for tokens that can be counted. -/
theorem splitstr_splits (htext : nul ∉ text) (hmemory : memory.Succeeds)
    (hfew : (tokensOf separator text).length < tooMany) :
    ∃ result, splitstr memory (some text) separator = some (.returned result) ∧
      Splits (tokensOf separator text) result ∧ result.argArray 0 =
        (strtok (fun c => decide (c ∈ separators separator)) (text ++ [nul]) 0).token := by
  have hfuel := length_tokens_le (fun c => decide (c ∈ separators separator)) text
  obtain ⟨offsets, result, hresult, hcontinues⟩ := @splitLoop_continues _ memory _ _ memory.content
    0 20 (text.length + 1) hmemory (pending_strtok (rest_copy htext)) (by decide) (by decide)
    (by rw [Nat.zero_add]; exact hfew) (Nat.lt_succ_of_le hfuel)
  refine ⟨result, (splitstr_eq hmemory).trans hresult, ?_⟩
  have hlength := hcontinues.holds.length_eq
  have hpointers := hcontinues.pointers
  have hinside := hcontinues.inside
  have hargcount := hcontinues.argcount
  simp only [Nat.zero_add] at hpointers hinside hargcount
  refine ⟨⟨?_, ?_, hinside, hargcount⟩, hcontinues.first⟩
  · intro i hi
    have hi' : i < offsets.length := by
      rw [hlength]
      exact hi
    refine ⟨offsets[i], ?_, hcontinues.holds.get hi' hi⟩
    rw [hpointers i (Nat.le_of_lt hi), List.getElem?_eq_getElem hi']
  · unfold tokensOf
    rw [hpointers _ le_rfl, List.getElem?_eq_none hlength.le]

/-- A text has a token at its very start if its first character is no separator. -/
theorem token_zero_iff {isSeparator : Char → Bool} (htext : nul ∉ text) :
    (strtok isSeparator (text ++ [nul]) 0).token = some 0 ↔
      ∃ c ∈ text.head?, isSeparator c = false := by
  cases htokens : Fields.strtok isSeparator text with
  | nil =>
    obtain ⟨save, -, hcall⟩ := strtok_none (rest_copy htext) htokens
    rw [hcall]
    refine ⟨fun hzero => by simp at hzero, ?_⟩
    rintro ⟨c, hc, hfirst⟩
    rw [separators_of_tokens_nil htokens c (List.mem_of_mem_head? hc)] at hfirst
    cases hfirst
  | cons token others =>
    obtain ⟨offset, hfound⟩ := strtok_found (rest_copy htext) htokens
    rw [hfound.pointer, hfound.offset_eq, Nat.zero_add, Option.some_inj, List.length_eq_zero_iff]
    cases text with
    | nil => cases htokens
    | cons c rest =>
      rw [List.takeWhile_cons]
      cases hc : isSeparator c <;> simp [hc]

theorem releases_iff {result : Result} : Releases result ↔ result.argArray 0 = some 0 := by
  rw [Releases, splitstrFree]
  cases result.argArray 0 with
  | none =>
    refine ⟨fun hperm => ?_, fun hzero => by cases hzero⟩
    have hlength := hperm.length_eq
    simp at hlength
  | some offset =>
    constructor
    · intro hperm
      have hmem := hperm.mem_iff.mpr (List.mem_cons_self (a := (Block.argString, 0)))
      simp at hmem
      rw [hmem]
    · intro hzero
      rw [Option.some.inj hzero]
      exact List.Perm.refl _

/-- For every string and all separators the array holds the tokens and both blocks are
released exactly if the string begins with a token and the tokens can be counted. -/
theorem splitstr_iff (htext : nul ∉ text) (hmemory : memory.Succeeds) :
    (∃ result, splitstr memory (some text) separator = some (.returned result) ∧
      Splits (tokensOf separator text) result ∧ Releases result) ↔
      (∃ c ∈ text.head?, c ∉ separators separator) ∧
        (tokensOf separator text).length < tooMany := by
  have hzero := @token_zero_iff text (fun c => decide (c ∈ separators separator)) htext
  simp only [decide_eq_false_iff_not] at hzero
  by_cases hfew : (tokensOf separator text).length < tooMany
  · obtain ⟨result, hresult, hsplits, hfirst⟩ := splitstr_splits htext hmemory hfew
    rw [← hzero, ← hfirst, ← releases_iff]
    constructor
    · rintro ⟨other, hother, -, hreleases⟩
      rw [hresult, Option.some_inj] at hother
      obtain rfl := Outcome.returned.inj hother
      exact ⟨hreleases, hfew⟩
    · rintro ⟨hreleases, -⟩
      exact ⟨result, hresult, hsplits, hreleases⟩
  · refine ⟨?_, fun hboth => absurd hboth.2 hfew⟩
    rintro ⟨result, hresult, -⟩
    rw [splitstr_eq hmemory, splitLoop_overflows hmemory (pending_strtok (rest_copy htext))
      (by decide) (by decide) (by decide) (by rw [Nat.zero_add]; exact not_lt.mp hfew)] at hresult
    cases hresult

/-- An allocator that always answers. -/
def calm : Memory := ⟨true, true, fun _ => true, fun _ => none⟩

theorem calm_succeeds : calm.Succeeds := ⟨rfl, rfl, fun _ => rfl⟩

theorem splitstr_iff_words : ∃ result,
    splitstr calm (some "ls -l".toList) none = some (.returned result) ∧
      Splits (tokensOf none "ls -l".toList) result ∧ Releases result :=
  (splitstr_iff (by decide) calm_succeeds).mpr ⟨⟨'l', rfl, by decide⟩, by decide⟩

/-- With a blank in front, the pointer that is freed is not the start of the block. -/
theorem splitstr_blank_first : ¬∃ result,
    splitstr calm (some " ls".toList) none = some (.returned result) ∧
      Splits (tokensOf none " ls".toList) result ∧ Releases result := by
  obtain ⟨result, hresult, -, hfirst⟩ := @splitstr_splits calm none " ls".toList (by decide)
    calm_succeeds (by decide)
  rintro ⟨other, hother, -, hreleases⟩
  rw [hresult, Option.some_inj] at hother
  obtain rfl := Outcome.returned.inj hother
  rw [releases_iff, hfirst] at hreleases
  revert hreleases
  decide

end Main

end GrapheneLtp.SplitString
