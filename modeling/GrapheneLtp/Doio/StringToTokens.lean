import GrapheneLtp.Core.LastWrite
import GrapheneLtp.Core.Strtok

/-!
# Tokens in an array

`string_to_tokens` stores pointers to the tokens of a string in an array of the
caller.  The loop goes to the end of the array, and the NULL that ends the list is
then written behind it.
-/

namespace GrapheneLtp.StringToTokens

open CString Strtok LastWrite

section Code

/-- The return value, the pointers that are written to the array, and the string
after the calls of `strtok`.  A pointer into the string is its offset. -/
structure Outcome where
  ret : ℤ
  writes : List (ℕ × Option ℕ)
  block : List Char
  deriving DecidableEq, Repr

/-- The loop over `num_toks`, with the room that is left in the array. -/
def tokenLoop (isSeparator : Char → Bool) : ℕ → ℕ → List Char → ℕ → Outcome
  | 0, numToks, block, _ => ⟨numToks, [], block⟩
  | room + 1, numToks, block, save =>
    let call := strtok isSeparator block save
    if call.token = none then ⟨numToks, [(numToks, none)], call.block⟩
    else
      let rest := tokenLoop isSeparator room (numToks + 1) call.block call.save
      ⟨rest.ret, (numToks, call.token) :: rest.writes, rest.block⟩

/-- `string_to_tokens`.  `argArray` says whether there is an array. -/
def stringToTokens (argString : List Char) (argArray : Bool) (arraySize : ℤ)
    (separator : Option (List Char)) : Outcome :=
  let block := argString ++ [nul]
  match separator with
  | none => ⟨-1, [], block⟩
  | some separators =>
    if argArray = false ∨ arraySize ≤ 1 then ⟨-1, [], block⟩
    else
      let isSeparator (c : Char) : Bool := c ∈ separators
      let call := strtok isSeparator block 0
      if call.token = none then ⟨0, [(0, none)], call.block⟩
      else
        let loop := tokenLoop isSeparator (arraySize.toNat - 1) 1 call.block call.save
        ⟨loop.ret, (0, call.token) :: loop.writes ++
          (if loop.ret = arraySize then [(loop.ret.toNat, none)] else []), loop.block⟩

end Code

section Meaning

/-- What the function should do: write inside the array only, store the first
tokens and a NULL, and return how many tokens there are. -/
structure Stores (tokens : List (List Char)) (arraySize : ℕ) (array : ℕ → Option ℕ)
    (outcome : Outcome) : Prop where
  inside : ∀ write ∈ outcome.writes, write.1 < arraySize
  stored : ∀ i, ∀ hi : i < tokens.length, i < arraySize - 1 →
    ∃ offset, applyWrites outcome.writes array i = some offset ∧
      Token outcome.block offset tokens[i]
  ended : applyWrites outcome.writes array (min tokens.length (arraySize - 1)) = none
  ret : outcome.ret = tokens.length

end Meaning

section Loop

variable {isSeparator : Char → Bool} {block text : List Char} {start : ℕ}

/-- A loop with room for a NULL stores all tokens and the NULL. -/
theorem tokenLoop_fits {tokens : List (List Char)} {room numToks : ℕ}
    (hrest : Rest block start text) (htokens : Fields.strtok isSeparator text = tokens)
    (hroom : tokens.length < room) :
    ∃ offsets : List ℕ,
      (tokenLoop isSeparator room numToks block start).ret = (numToks + tokens.length : ℕ) ∧
      (tokenLoop isSeparator room numToks block start).writes =
        ((offsets.map some ++ [none]).zipIdx numToks).map Prod.swap ∧
      List.Forall₂ (Token (tokenLoop isSeparator room numToks block start).block) offsets tokens ∧
      ∀ {other : ℕ} {name : List Char}, Token block other name → other + name.length ≤ start →
        Token (tokenLoop isSeparator room numToks block start).block other name := by
  induction tokens generalizing room numToks block start text with
  | nil =>
    obtain ⟨room, rfl⟩ := Nat.exists_eq_succ_of_ne_zero hroom.ne'
    obtain ⟨save, -, hcall⟩ := strtok_none hrest htokens
    refine ⟨[], ?_⟩
    simp only [tokenLoop, hcall, if_true]
    exact ⟨rfl, rfl, .nil, fun hother _ => hother⟩
  | cons token tokens ih =>
    obtain ⟨room, rfl⟩ := Nat.exists_eq_succ_of_ne_zero (Nat.ne_of_gt (Nat.zero_lt_of_lt hroom))
    obtain ⟨offset, hfound⟩ := strtok_found hrest htokens
    obtain ⟨left, hleft, hothers⟩ := hfound.rest
    obtain ⟨offsets, hret, hwrites, hstored, hearlier⟩ := @ih _ left _ room (numToks + 1) hleft
      hothers (by simpa using hroom)
    refine ⟨offset :: offsets, ?_⟩
    have hsome : ¬(strtok isSeparator block start).token = none := by
      rw [hfound.pointer]
      simp
    simp only [tokenLoop, if_neg hsome]
    refine ⟨?_, ?_, .cons (hearlier hfound.holds hfound.stop) hstored, ?_⟩
    · rw [hret, List.length_cons]
      congr 1
      omega
    · rw [hwrites, hfound.pointer]
      rfl
    · intro other name hother hbefore
      have hoffset := hfound.offset_eq
      have hstop := hfound.stop
      exact hearlier (hfound.earlier hother hbefore) (by omega)

/-- A loop with at least as many tokens as places fills the array. -/
theorem tokenLoop_full {tokens : List (List Char)} {room numToks : ℕ}
    (hrest : Rest block start text) (htokens : Fields.strtok isSeparator text = tokens)
    (hroom : room ≤ tokens.length) :
    (tokenLoop isSeparator room numToks block start).ret = (numToks + room : ℕ) := by
  induction room generalizing tokens numToks block start text with
  | zero => rfl
  | succ room ih =>
    obtain ⟨token, tokens, rfl⟩ := List.exists_cons_of_length_pos (Nat.zero_lt_of_lt hroom)
    obtain ⟨offset, hfound⟩ := strtok_found hrest htokens
    obtain ⟨left, hleft, hothers⟩ := hfound.rest
    have hsome : ¬(strtok isSeparator block start).token = none := by
      rw [hfound.pointer]
      simp
    simp only [tokenLoop, if_neg hsome]
    rw [ih hleft hothers (by simpa using hroom)]
    congr 1
    omega

end Loop

section Main

variable {argString separators : List Char} {arraySize : ℕ}

theorem rest_start (hstring : nul ∉ argString) : Rest (argString ++ [nul]) 0 argString :=
  ⟨⟨[], rfl, rfl⟩, hstring⟩

/-- The tokens of the string. -/
def tokensOf (separators argString : List Char) : List (List Char) :=
  Fields.strtok (fun c => decide (c ∈ separators)) argString

/-- The body of the function after its checks. -/
theorem stringToTokens_eq (hsize : 2 ≤ arraySize) :
    stringToTokens argString true arraySize (some separators) =
      let isSeparator (c : Char) : Bool := c ∈ separators
      let call := strtok isSeparator (argString ++ [nul]) 0
      if call.token = none then ⟨0, [(0, none)], call.block⟩
      else
        let loop := tokenLoop isSeparator (arraySize - 1) 1 call.block call.save
        ⟨loop.ret, (0, call.token) :: loop.writes ++
          (if loop.ret = arraySize then [(loop.ret.toNat, none)] else []), loop.block⟩ := by
  have hchecks : ¬(true = false ∨ (arraySize : ℤ) ≤ 1) := by
    simp
    omega
  simp only [stringToTokens, if_neg hchecks, Int.toNat_natCast]

theorem stores_of_lt (hstring : nul ∉ argString) (hsize : 2 ≤ arraySize)
    (hfew : (tokensOf separators argString).length < arraySize) (array : ℕ → Option ℕ) :
    Stores (tokensOf separators argString) arraySize array
      (stringToTokens argString true arraySize (some separators)) := by
  rw [stringToTokens_eq hsize]
  cases htokens : tokensOf separators argString with
  | nil =>
    obtain ⟨save, -, hcall⟩ := strtok_none (rest_start hstring) htokens
    simp only [hcall, if_true]
    refine ⟨by simp; omega, ?_, ?_, rfl⟩
    · intro i hi
      exact absurd hi (Nat.not_lt_zero i)
    · simp [applyWrites]
  | cons token tokens =>
    rw [htokens, List.length_cons] at hfew
    obtain ⟨offset, hfound⟩ := strtok_found (rest_start hstring) htokens
    obtain ⟨left, hleft, hothers⟩ := hfound.rest
    obtain ⟨offsets, hret, hwrites, hstored, hearlier⟩ :=
      @tokenLoop_fits _ _ _ _ tokens (arraySize - 1) 1 hleft hothers (by omega)
    have hsome : ¬(strtok (fun c => decide (c ∈ separators)) (argString ++ [nul]) 0).token =
        none := by
      rw [hfound.pointer]
      simp
    have hlast : ¬((1 + tokens.length : ℕ) : ℤ) = arraySize := by omega
    simp only [if_neg hsome, hret, hlast, if_false, List.append_nil]
    have hall : (0, (strtok (fun c => decide (c ∈ separators)) (argString ++ [nul]) 0).token) ::
        ((offsets.map some ++ [none]).zipIdx 1).map Prod.swap =
        (((offset :: offsets).map some ++ [none]).zipIdx 0).map Prod.swap := by
      rw [hfound.pointer]
      rfl
    have hlength : offsets.length = tokens.length := hstored.length_eq
    have hstored' := List.Forall₂.cons (hearlier hfound.holds hfound.stop) hstored
    have hread (i : ℕ) (hi : i < ((offset :: offsets).map some ++ [none]).length) :=
      @applyWrites_zipIdx _ _ 0 i hi array
    rw [hwrites, hall]
    refine ⟨?_, ?_, ?_, ?_⟩
    · intro write hwrite
      obtain ⟨numbered, hnumbered, rfl⟩ := List.mem_map.mp hwrite
      have hindex := List.snd_lt_add_of_mem_zipIdx hnumbered
      simp at hindex ⊢
      omega
    · intro i hi _
      have hi' : i < (offset :: offsets).length := by simpa [hlength] using hi
      refine ⟨(offset :: offsets)[i], ?_, hstored'.get hi' hi⟩
      have hvalue := hread i (by simp at hi' ⊢; omega)
      rw [Nat.zero_add, List.getElem_append_left (by simpa using hi')] at hvalue
      rw [hvalue, List.getElem_map]
    · have hmin : min (token :: tokens).length (arraySize - 1) = (offset :: offsets).length := by
        simp [hlength]
        omega
      rw [hmin]
      have hvalue := hread (offset :: offsets).length (by simp)
      rw [Nat.zero_add, List.getElem_append_right (by simp)] at hvalue
      rw [hvalue]
      simp
    · change ((1 + tokens.length : ℕ) : ℤ) = _
      rw [List.length_cons, Nat.add_comm]

theorem not_stores_of_le (hstring : nul ∉ argString) (hsize : 2 ≤ arraySize)
    (hmany : arraySize ≤ (tokensOf separators argString).length) (array : ℕ → Option ℕ) :
    ¬Stores (tokensOf separators argString) arraySize array
      (stringToTokens argString true arraySize (some separators)) := by
  intro hstores
  have hinside := hstores.inside
  rw [stringToTokens_eq hsize] at hinside
  obtain ⟨token, tokens, htokens⟩ :=
    List.exists_cons_of_length_pos (show 0 < (tokensOf separators argString).length by omega)
  rw [htokens, List.length_cons] at hmany
  obtain ⟨offset, hfound⟩ := strtok_found (rest_start hstring) htokens
  obtain ⟨left, hleft, hothers⟩ := hfound.rest
  have hret := @tokenLoop_full _ _ _ _ tokens (arraySize - 1) 1 hleft hothers (by omega)
  have hsome : ¬(strtok (fun c => decide (c ∈ separators)) (argString ++ [nul]) 0).token =
      none := by
    rw [hfound.pointer]
    simp
  have hlast : ((1 + (arraySize - 1) : ℕ) : ℤ) = arraySize := by omega
  simp only [if_neg hsome, hret, hlast, if_true] at hinside
  have hbehind := hinside (arraySize, none) (by simp)
  exact absurd hbehind (lt_irrefl _)

/-- For every string, all separators and every array of two or more places, the
function does what it should exactly if the tokens and a NULL fit. -/
theorem stringToTokens_iff (hstring : nul ∉ argString) (hsize : 2 ≤ arraySize)
    (array : ℕ → Option ℕ) :
    Stores (tokensOf separators argString) arraySize array
      (stringToTokens argString true arraySize (some separators)) ↔
      (tokensOf separators argString).length < arraySize := by
  refine ⟨fun hstores => ?_, fun hfew => stores_of_lt hstring hsize hfew array⟩
  by_contra hmany
  exact not_stores_of_le hstring hsize (not_lt.mp hmany) array hstores

theorem stringToTokens_iff_two : Stores (tokensOf [':'] "a:b".toList) 3 (fun _ => none)
    (stringToTokens "a:b".toList true 3 (some [':'])) :=
  (stringToTokens_iff (by decide) (by decide) _).mpr (by decide)

/-- Two tokens in an array of two: the NULL is written behind the array. -/
theorem stringToTokens_overrun : ¬Stores (tokensOf [':'] "a:b".toList) 2 (fun _ => none)
    (stringToTokens "a:b".toList true 2 (some [':'])) :=
  not_stores_of_le (by decide) (by decide) (by decide) _

end Main

end GrapheneLtp.StringToTokens
