import GrapheneLtp.Kconfig.Constraints

/-!
# Filling the table of variables

A model of `populate_vars` of `lib/tst_kconfig.c` that keeps the array of the caller.
Each variable is first written into the next free entry, which is given up when an
earlier entry has its name.  `populateVars` of `Kconfig.Check` is the same function on
the entries that are in use.
-/

namespace GrapheneLtp.VariableTable

open GrapheneLtp.Tokens GrapheneLtp.ShuntingYard GrapheneLtp.Evaluation
open GrapheneLtp.Kconfig GrapheneLtp.KconfigConstraints

section Code

/-- Where a character stands among the first `len`. -/
def strnchr (s : List Char) (c : Char) (len : ℕ) : Option ℕ :=
  (s.take len).findIdx? fun d => d == c

def getLen (kconfig : List Char) (len : ℕ) : ℕ :=
  match strnchr kconfig '=' len with
  | none => len
  | some sep => sep

def getVarCnt (exprs : List (List Char × TstExpr)) : ℕ :=
  (exprs.map fun pair => pair.2.rpnToks.countP fun token => token.op == .var).sum

/-- The array of the caller, and how many of its entries are in use. -/
structure Slots where
  vars : List TstKconfigVar
  cnt : ℕ
  deriving DecidableEq, Repr

/-- The body of the loops.  A write behind the array is `wild`. -/
def storeTok (kconfig : List Char) (slots : Slots) (token : TstExprTok) :
    Except Failure (Slots × TstExprTok) :=
  if token.op ≠ .var then .ok (slots, token)
  else if slots.vars.length ≤ slots.cnt then .error .wild
  else
    let tok := kconfig.drop token.tok
    let idLen := getLen tok token.tokLen
    if idLen + 1 ≥ 64 then .error (.brk "kconfig var id too long!")
    else
      let id := tok.take idLen
      let vars := slots.vars.set slots.cnt ⟨id, idLen, .unset, none⟩
      match findVar (vars.take slots.cnt) id with
      | some i => .ok (⟨vars, slots.cnt⟩, { token with priv := some (.var i) })
      | none => .ok (⟨vars, slots.cnt + 1⟩, { token with priv := some (.var slots.cnt) })

/-- The inner loop, along the list of one expression. -/
def storeExpr (kconfig : List Char) : List ℕ → Slots → List TstExprTok →
    Except Failure (Slots × List TstExprTok)
  | [], slots, buf => .ok (slots, buf)
  | i :: rpn, slots, buf => do
      let (slots, token) ← storeTok kconfig slots (tokAt buf i)
      storeExpr kconfig rpn slots (buf.set i token)

/-- The outer loop. -/
def storeLoop : List (List Char × TstExpr) → Slots →
    Except Failure (Slots × List (List Char × TstExpr))
  | [], slots => .ok (slots, [])
  | (kconfig, expr) :: exprs, slots => do
      let (slots, buf) ← storeExpr kconfig expr.rpn slots expr.buf
      let (slots, exprs) ← storeLoop exprs slots
      return (slots, (kconfig, { expr with buf := buf }) :: exprs)

/-- `populate_vars`, with the array it is given.  The count is the value returned. -/
def storeVars (exprs : List (List Char × TstExpr)) (vars : List TstKconfigVar) :
    Except Failure (Slots × List (List Char × TstExpr)) :=
  storeLoop exprs ⟨vars, 0⟩

end Code

section Names

/-- The names of the variables among some tokens. -/
def tokNames (kconfig : List Char) (tokens : List TstExprTok) : List (List Char) :=
  (tokens.filter fun token => token.op == .var).map (varId kconfig)

/-- The names of the variables of some expressions, in the order of the lists. -/
def names (exprs : List (List Char × TstExpr)) : List (List Char) :=
  exprs.flatMap fun pair => tokNames pair.1 pair.2.rpnToks

theorem mem_tokNames {kconfig id : List Char} {tokens : List TstExprTok} :
    id ∈ tokNames kconfig tokens ↔
      ∃ token ∈ tokens, token.op = .var ∧ varId kconfig token = id := by
  simp [tokNames, and_assoc]

theorem mem_names {exprs : List (List Char × TstExpr)} {id : List Char} : id ∈ names exprs ↔
    ∃ pair ∈ exprs, ∃ token ∈ pair.2.rpnToks, token.op = .var ∧ varId pair.1 token = id := by
  simp [names, mem_tokNames]

theorem tokNames_cons (kconfig : List Char) (token : TstExprTok) (tokens : List TstExprTok) :
    tokNames kconfig (token :: tokens) = tokNames kconfig [token] ++ tokNames kconfig tokens := by
  simp only [tokNames, ← List.map_append, ← List.filter_append, List.singleton_append]

theorem length_names (exprs : List (List Char × TstExpr)) :
    (names exprs).length = getVarCnt exprs := by
  simp [names, getVarCnt, tokNames, List.length_flatMap, List.countP_eq_length_filter]

/-- A pointer that is set leaves the names as they are. -/
theorem tokNames_relinked {kconfig : List Char} {buf after : List TstExprTok}
    (hrelinked : Relinked buf after) (rpn : List ℕ) :
    tokNames kconfig (rpn.map (tokAt after)) = tokNames kconfig (rpn.map (tokAt buf)) := by
  induction rpn with
  | nil => rfl
  | cons i rpn ih =>
    obtain ⟨priv, hsame⟩ := hrelinked i
    have hhere : tokNames kconfig [tokAt after i] = tokNames kconfig [tokAt buf i] := by
      rw [hsame]
      simp only [tokNames, List.filter_cons, List.filter_nil]
      split <;> rfl
    rw [List.map_cons, List.map_cons, tokNames_cons, tokNames_cons kconfig (tokAt buf i), ih, hhere]

variable {kconfig : List Char} {token : TstExprTok}

/-- For a token inside its string, `get_len` is the length of the name. -/
theorem getLen_eq (hinside : token.tok + token.tokLen ≤ kconfig.length) :
    getLen (kconfig.drop token.tok) token.tokLen = (varId kconfig token).length := by
  have hlength : (token.text kconfig).length = token.tokLen := by
    rw [TstExprTok.text, List.length_take, List.length_drop]
    omega
  rw [getLen, strnchr, varId, ← TstExprTok.text]
  cases hfind : (token.text kconfig).findIdx? fun d => d == '=' with
  | none =>
    have hnone := List.findIdx?_eq_none_iff.mp hfind
    rw [List.takeWhile_eq_self_iff.mpr fun c hc => by simpa using hnone c hc, hlength]
  | some sep =>
    obtain ⟨hsep, hequals, hbefore⟩ := List.findIdx?_eq_some_iff_getElem.mp hfind
    have hsplit := List.take_append_drop sep (token.text kconfig)
    rw [List.drop_eq_getElem_cons hsep] at hsplit
    rw [← hsplit, List.takeWhile_append_of_pos, List.takeWhile_cons,
      if_neg (by simpa using hequals)]
    · simp [hsep.le]
    · intro c hc
      obtain ⟨j, hj, rfl⟩ := List.mem_take_iff_getElem.mp hc
      simpa using hbefore j (by omega)

theorem take_length_varId (kconfig : List Char) (token : TstExprTok) :
    (kconfig.drop token.tok).take (varId kconfig token).length = varId kconfig token :=
  (List.prefix_iff_eq_take.mp (( List.takeWhile_prefix _).trans ( List.take_prefix _ _))).symm

end Names

section Growth

/-- How a table grows by the names of some variables: by at most one entry for each,
with one of the names, and all the names are short. -/
structure Grown (vars after : List TstKconfigVar) (ids : List (List Char)) : Prop where
  length_le : after.length ≤ vars.length + ids.length
  short : ∀ id ∈ ids, id.length + 1 < 64
  source : ∀ entry ∈ after, entry ∈ vars ∨ entry.id ∈ ids

theorem Grown.refl (vars : List TstKconfigVar) : Grown vars vars [] :=
  ⟨le_rfl, by simp, fun _ hentry => .inl hentry⟩

theorem Grown.trans {vars middle after : List TstKconfigVar} {first second : List (List Char)}
    (hfirst : Grown vars middle first) (hsecond : Grown middle after second) :
    Grown vars after (first ++ second) := by
  refine ⟨?_, ?_, ?_⟩
  · have hmiddle := hfirst.length_le
    have hafter := hsecond.length_le
    rw [List.length_append]
    omega
  · intro id hid
    rcases List.mem_append.mp hid with hid | hid
    · exact hfirst.short id hid
    · exact hsecond.short id hid
  · intro entry hentry
    rcases hsecond.source entry hentry with hold | hnew
    · rcases hfirst.source entry hold with hold | hnew
      · exact .inl hold
      · exact .inr (List.mem_append_left _ hnew)
    · exact .inr (List.mem_append_right _ hnew)

variable {kconfig : List Char} {vars after : List TstKconfigVar}

theorem populateTok_grown {token later : TstExprTok}
    (htok : populateTok kconfig vars token = .ok (after, later)) :
    Grown vars after (tokNames kconfig [token]) ∧ ∃ priv, later = { token with priv := priv } := by
  rw [populateTok] at htok
  by_cases hvar : token.op = .var
  · have hnames : tokNames kconfig [token] = [varId kconfig token] := by simp [tokNames, hvar]
    rw [if_neg (not_not.mpr hvar)] at htok
    simp only at htok
    rw [hnames]
    split_ifs at htok with hlong
    have hshort : ∀ id ∈ [varId kconfig token], id.length + 1 < 64 := by
      intro id hid
      rw [List.mem_singleton.mp hid]
      exact Nat.lt_of_not_ge hlong
    split at htok
    · cases htok
      exact ⟨⟨by simp, hshort, fun _ hentry => .inl hentry⟩, _, rfl⟩
    · cases htok
      refine ⟨⟨by simp, hshort, fun entry hentry => ?_⟩, _, rfl⟩
      rcases List.mem_append.mp hentry with hold | hnew
      · exact .inl hold
      · rw [List.mem_singleton.mp hnew]
        exact .inr List.mem_cons_self
  · have hnames : tokNames kconfig [token] = [] := by simp [tokNames, hvar]
    rw [if_pos hvar] at htok
    cases htok
    exact ⟨hnames ▸ Grown.refl vars, token.priv, rfl⟩

/-- One expression, by induction along its list. -/
theorem populateExpr_grown {rpn : List ℕ} : ∀ {vars after : List TstKconfigVar}
    {buf later : List TstExprTok}, populateExpr kconfig rpn vars buf = .ok (after, later) →
      Grown vars after (tokNames kconfig (rpn.map (tokAt buf))) := by
  induction rpn with
  | nil =>
    intro vars after buf later hexpr
    cases hexpr
    exact Grown.refl vars
  | cons i rpn ih =>
    intro vars after buf later hexpr
    cases htok : populateTok kconfig vars (tokAt buf i) with
    | error failure => simp [populateExpr, htok, bind, Except.bind] at hexpr
    | ok result =>
      obtain ⟨middle, token⟩ := result
      simp only [populateExpr, htok, bind, Except.bind] at hexpr
      obtain ⟨hhere, priv, rfl⟩ := populateTok_grown htok
      have hrest := ih hexpr
      rw [tokNames_relinked (relinked_set buf i priv)] at hrest
      rw [List.map_cons, tokNames_cons]
      exact hhere.trans hrest

theorem populateVars_grown {exprs : List (List Char × TstExpr)} :
    ∀ {vars after : List TstKconfigVar} {later : List (List Char × TstExpr)},
      populateVars exprs vars = .ok (after, later) → Grown vars after (names exprs) := by
  induction exprs with
  | nil =>
    intro vars after later hvars
    cases hvars
    exact Grown.refl vars
  | cons pair exprs ih =>
    intro vars after later hvars
    obtain ⟨kconfig, expr⟩ := pair
    cases hexpr : populateExpr kconfig expr.rpn vars expr.buf with
    | error failure => simp [populateVars, hexpr, bind, Except.bind] at hvars
    | ok result =>
      obtain ⟨middle, buf⟩ := result
      cases hrest : populateVars exprs middle with
      | error failure => simp [populateVars, hexpr, hrest, bind, Except.bind] at hvars
      | ok result =>
        simp only [populateVars, hexpr, hrest, bind, Except.bind, pure, Except.pure,
          Except.ok.injEq, Prod.mk.injEq] at hvars
        obtain ⟨rfl, -⟩ := hvars
        exact (populateExpr_grown hexpr).trans (ih hrest)

end Growth

section Simulation

/-- The entries in use are those of a list. -/
def Represents (slots : Slots) (vars : List TstKconfigVar) : Prop :=
  vars <+: slots.vars ∧ slots.cnt = vars.length

/-- The outcome on the array is the outcome on the list of the entries in use. -/
def Simulates {β : Type} (size : ℕ) (onArray : Except Failure (Slots × β)) :
    Except Failure (List TstKconfigVar × β) → Prop
  | .error failure => onArray = .error failure
  | .ok (vars, out) => ∃ slots, onArray = .ok (slots, out) ∧ Represents slots vars ∧
      slots.vars.length = size

variable {kconfig : List Char} {slots : Slots} {vars : List TstKconfigVar}

theorem Represents.take_eq (hslots : Represents slots vars) : slots.vars.take slots.cnt = vars := by
  obtain ⟨rest, hvars⟩ := hslots.1
  rw [hslots.2, ← hvars, List.take_left]

/-- A step behind another one. -/
theorem Simulates.bind {β γ : Type} {size : ℕ} {first : Except Failure (Slots × β)}
    {onList : Except Failure (List TstKconfigVar × β)}
    {next : Slots × β → Except Failure (Slots × γ)}
    {later : List TstKconfigVar × β → Except Failure (List TstKconfigVar × γ)}
    (hfirst : Simulates size first onList)
    (hnext : ∀ slots vars out, onList = .ok (vars, out) → Represents slots vars →
      slots.vars.length = size → Simulates size (next (slots, out)) (later (vars, out))) :
    Simulates size (first >>= next) (onList >>= later) := by
  cases onList with
  | error failure =>
    rw [show first = .error failure from hfirst]
    rfl
  | ok result =>
    obtain ⟨vars, out⟩ := result
    obtain ⟨slots, rfl, hslots, hlength⟩ := hfirst
    exact hnext slots vars out rfl hslots hlength

/-- One token: the entry behind those in use is written, and it comes to be in use when
the list grows. -/
theorem storeTok_simulates (hslots : Represents slots vars) {token : TstExprTok}
    (hinside : token.op = .var → token.tok + token.tokLen ≤ kconfig.length)
    (hroom : vars.length + (tokNames kconfig [token]).length ≤ slots.vars.length) :
    Simulates slots.vars.length (storeTok kconfig slots token)
      (populateTok kconfig vars token) := by
  by_cases hvar : token.op = .var
  · have hfree : vars.length < slots.vars.length := by
      simpa [tokNames, hvar, Nat.succ_le_iff] using hroom
    rw [storeTok, populateTok, if_neg (not_not.mpr hvar), if_neg (not_not.mpr hvar),
      if_neg (by rw [hslots.2]; omega)]
    simp only [getLen_eq (hinside hvar), take_length_varId]
    by_cases hlong : (varId kconfig token).length + 1 ≥ 64
    · rw [if_pos hlong, if_pos hlong]
      rfl
    · rw [if_neg hlong, if_neg hlong]
      have htake : (slots.vars.set slots.cnt ⟨varId kconfig token, (varId kconfig token).length,
          .unset, none⟩).take slots.cnt = vars := by
        rw [List.take_set_of_le le_rfl, hslots.take_eq]
      rw [htake]
      cases hfind : findVar vars (varId kconfig token) with
      | some i =>
        -- the name was written behind the entries in use, where the next one overwrites it
        refine ⟨_, rfl, ⟨?_, hslots.2⟩, List.length_set⟩
        rw [← htake]
        exact List.take_prefix _ _
      | none =>
        refine ⟨_, by rw [hslots.2], ⟨?_, ?_⟩, List.length_set⟩
        · refine List.prefix_iff_eq_take.mpr ?_
          rw [List.length_append, List.length_singleton, ← hslots.2,
            List.take_succ_eq_append_getElem (by rw [List.length_set, hslots.2]; exact hfree),
            htake]
          simp
        · simp
  · rw [storeTok, populateTok, if_pos hvar, if_pos hvar]
    exact ⟨slots, rfl, hslots, rfl⟩

/-- One expression, by induction along its list: there is an entry left for every
variable still to come. -/
theorem storeExpr_simulates {rpn : List ℕ} : ∀ {slots : Slots} {vars : List TstKconfigVar}
    {buf : List TstExprTok}, Represents slots vars →
      (∀ i, (tokAt buf i).op = .var → (tokAt buf i).tok + (tokAt buf i).tokLen ≤ kconfig.length) →
      vars.length + (tokNames kconfig (rpn.map (tokAt buf))).length ≤ slots.vars.length →
      Simulates slots.vars.length (storeExpr kconfig rpn slots buf)
        (populateExpr kconfig rpn vars buf) := by
  induction rpn with
  | nil =>
    intro slots vars buf hslots _ _
    exact ⟨slots, rfl, hslots, rfl⟩
  | cons i rpn ih =>
    intro slots vars buf hslots hinside hroom
    rw [List.map_cons, tokNames_cons, List.length_append] at hroom
    have hhere := storeTok_simulates hslots (hinside i)
      (show vars.length + (tokNames kconfig [tokAt buf i]).length ≤ _ by omega)
    rw [storeExpr, populateExpr]
    refine hhere.bind fun next middle token htok hrepresents hlength => ?_
    obtain ⟨hgrown, priv, rfl⟩ := populateTok_grown htok
    have hset := relinked_set buf i priv
    rw [← hlength]
    refine ih hrepresents (fun j hvar => ?_) ?_
    · obtain ⟨later, hsame⟩ := hset j
      rw [hsame] at hvar ⊢
      exact hinside j hvar
    · have hmiddle := hgrown.length_le
      rw [tokNames_relinked hset, hlength]
      omega

/-- All the expressions, of which the tokens lie inside their strings. -/
theorem storeLoop_simulates {exprs : List (List Char × TstExpr)} :
    ∀ {slots : Slots} {vars : List TstKconfigVar}, Represents slots vars →
      (∀ pair ∈ exprs, ∀ i, (tokAt pair.2.buf i).op = .var →
        (tokAt pair.2.buf i).tok + (tokAt pair.2.buf i).tokLen ≤ pair.1.length) →
      vars.length + (names exprs).length ≤ slots.vars.length →
      Simulates slots.vars.length (storeLoop exprs slots) (populateVars exprs vars) := by
  induction exprs with
  | nil =>
    intro slots vars hslots _ _
    exact ⟨slots, rfl, hslots, rfl⟩
  | cons pair exprs ih =>
    obtain ⟨kconfig, expr⟩ := pair
    intro slots vars hslots hinside hroom
    rw [names, List.flatMap_cons, List.length_append] at hroom
    have hhere := @storeExpr_simulates kconfig expr.rpn slots vars expr.buf hslots
      (hinside _ List.mem_cons_self) ((Nat.add_le_add_left (Nat.le_add_right _ _) _).trans hroom)
    rw [storeLoop, populateVars]
    refine hhere.bind fun next middle buf hexpr hrepresents hlength => ?_
    have hgrown := (populateExpr_grown hexpr).length_le
    have hrest := ih hrepresents
      (fun other hother => hinside other (List.mem_cons_of_mem _ hother))
      (by
        rw [hlength]
        refine le_trans ?_ hroom
        rw [← Nat.add_assoc]
        exact Nat.add_le_add_right hgrown _)
    rw [hlength] at hrest
    exact hrest.bind fun final _ _ _ hfinal hsize => ⟨final, rfl, hfinal, hsize⟩

end Simulation

section Main

/-- The tokens of a parsed expression that are variables lie inside its string. -/
theorem var_inside {kconfig : List Char} {expr : TstExpr}
    (hparse : tstBoolExprParse kconfig = .ok expr) {i : ℕ} (hvar : (tokAt expr.buf i).op = .var) :
    (tokAt expr.buf i).tok + (tokAt expr.buf i).tokLen ≤ kconfig.length := by
  have hi := lt_length_of_var hvar
  have hmem : tokAt expr.buf i ∈ expr.buf := by
    rw [tokAt, List.getD_eq_getElem?_getD, List.getElem?_eq_getElem hi]
    exact List.getElem_mem hi
  rw [parse_buf hparse] at hmem ⊢
  exact tokens_inside kconfig _ hmem

/-- What is to hold when the table has been filled: the array has not been left, the
names of the entries in use are those of the variables, each once, nothing is known of
their values, and every variable points to the entry with its name. -/
structure Filled (exprs : List (List Char × TstExpr)) (vars : List TstKconfigVar)
    (slots : Slots) (after : List (List Char × TstExpr)) : Prop where
  length_eq : slots.vars.length = vars.length
  cnt_le : slots.cnt ≤ vars.length
  distinct : ((slots.vars.take slots.cnt).map TstKconfigVar.id).Nodup
  complete : ∀ id, id ∈ (slots.vars.take slots.cnt).map TstKconfigVar.id ↔ id ∈ names exprs
  unset : ∀ entry ∈ slots.vars.take slots.cnt, entry.choice = .unset ∧ entry.val = none
  linked : List.Forall₂ (Populated ((slots.vars.take slots.cnt).map TstKconfigVar.id)) exprs after

/-- The call returns, and the table is filled. -/
def Fills (exprs : List (List Char × TstExpr)) (vars : List TstKconfigVar) : Prop :=
  ∃ slots after, storeVars exprs vars = .ok (slots, after) ∧ Filled exprs vars slots after

variable {exprs : List (List Char × TstExpr)} {vars : List TstKconfigVar}

theorem storeVars_simulates (hparsed : ∀ pair ∈ exprs, tstBoolExprParse pair.1 = .ok pair.2)
    (hsize : vars.length = getVarCnt exprs) :
    Simulates vars.length (storeVars exprs vars) (populateVars exprs []) := by
  refine @storeLoop_simulates exprs ⟨vars, 0⟩ [] ⟨ List.nil_prefix, rfl⟩
    (fun pair hpair i hvar => var_inside (hparsed pair hpair) hvar) ?_
  rw [length_names, List.length_nil, Nat.zero_add, hsize]

/-- A name is in the table when its variables point there. -/
theorem mem_of_linked {ids : List (List Char)} {after : List (List Char × TstExpr)}
    (hlinked : List.Forall₂ (Populated ids) exprs after) {id : List Char} (hid : id ∈ names exprs) :
    id ∈ ids := by
  induction hlinked with
  | nil => cases hid
  | @cons pair later exprs after hpair _ ih =>
    rw [names, List.flatMap_cons, List.mem_append] at hid
    rcases hid with hhere | hrest
    · obtain ⟨token, htoken, hvar, rfl⟩ := mem_tokNames.mp hhere
      obtain ⟨i, hi, rfl⟩ := List.mem_map.mp htoken
      obtain ⟨-, -, hrelinked, hlinks⟩ := hpair
      obtain ⟨priv, hsame⟩ := hrelinked i
      have hlink := hlinks i hi
      rw [hsame] at hlink
      obtain ⟨k, -, hk⟩ := hlink hvar
      exact List.mem_of_getElem? hk
    · exact ih hrest

theorem fills_of_short (hparsed : ∀ pair ∈ exprs, tstBoolExprParse pair.1 = .ok pair.2)
    (hsize : vars.length = getVarCnt exprs) (hshort : ∀ id ∈ names exprs, id.length + 1 < 64) :
    Fills exprs vars := by
  obtain ⟨ids, after, hpopulate, -, hids, hlinked⟩ := @populateVars_linked [] exprs
    List.nodup_nil fun pair hpair token htoken hvar =>
      hshort _ (mem_names.mpr ⟨pair, hpair, token, htoken, hvar, rfl⟩)
  have hstart : populateVars exprs [] = .ok (fresh ids, after) := hpopulate
  have hsimulates := storeVars_simulates hparsed hsize
  rw [hstart] at hsimulates
  obtain ⟨slots, hstore, hrepresents, hlength⟩ := hsimulates
  have hnames : (fresh ids).map TstKconfigVar.id = ids := by
    rw [fresh, List.map_map]
    exact List.map_id ids
  refine ⟨slots, after, hstore, hlength, ?_, ?_, ?_, ?_, ?_⟩
  · rw [hrepresents.2, ← hlength]
    exact hrepresents.1.length_le
  · rwa [hrepresents.take_eq, hnames]
  · intro id
    rw [hrepresents.take_eq, hnames]
    constructor
    · intro hid
      have hentry : (⟨id, id.length, .unset, none⟩ : TstKconfigVar) ∈ fresh ids :=
        List.mem_map.mpr ⟨id, hid, rfl⟩
      rcases (populateVars_grown hstart).source _ hentry with hnone | hname
      · cases hnone
      · exact hname
    · intro hname
      exact mem_of_linked hlinked hname
  · intro entry hentry
    rw [hrepresents.take_eq] at hentry
    obtain ⟨id, -, rfl⟩ := List.mem_map.mp hentry
    exact ⟨rfl, rfl⟩
  · rwa [hrepresents.take_eq, hnames]

/-- For names that fit with their NUL, the table is filled unless a name has 63
characters, which leaves no byte of the buffer over. -/
theorem storeVars_fills_iff (hparsed : ∀ pair ∈ exprs, tstBoolExprParse pair.1 = .ok pair.2)
    (hsize : vars.length = getVarCnt exprs) (hfits : ∀ id ∈ names exprs, id.length + 1 ≤ 64) :
    Fills exprs vars ↔ ∀ id ∈ names exprs, id.length ≠ 63 := by
  constructor
  · rintro ⟨slots, after, hstore, -⟩ id hid
    have hsimulates := storeVars_simulates hparsed hsize
    cases hpopulate : populateVars exprs [] with
    | error failure =>
      rw [hpopulate] at hsimulates
      cases hstore.symm.trans hsimulates
    | ok result =>
      have hshort := (populateVars_grown hpopulate).short id hid
      omega
  · intro hother
    refine fills_of_short hparsed hsize fun id hid => ?_
    have hle := hfits id hid
    have hne := hother id hid
    omega

/-- A variable with a value and a second use of its name. -/
theorem storeVars_fills_twice : Fills
    [(['A', '=', 'y', '|', 'A'], ⟨[⟨.var, 0, 3, none⟩, ⟨.or, 3, 1, none⟩, ⟨.var, 4, 1, none⟩],
      [0, 2, 1]⟩)] [⟨['x'], 7, .m, none⟩, ⟨[], 0, .v, none⟩] :=
  (storeVars_fills_iff (by decide +kernel) (by decide +kernel) (by decide +kernel)).mpr
    (by decide +kernel)

/-- A name of 63 characters. -/
def longName : List Char := List.replicate 63 'A'

/-- The name fits the buffer of 64 bytes with its NUL, but the test is broken. -/
theorem storeVars_long : tstBoolExprParse longName = .ok ⟨[⟨.var, 0, 63, none⟩], [0]⟩ ∧
    (∀ id ∈ names [(longName, ⟨[⟨.var, 0, 63, none⟩], [0]⟩)], id.length + 1 ≤ 64) ∧
    storeVars [(longName, ⟨[⟨.var, 0, 63, none⟩], [0]⟩)] [⟨[], 0, .unset, none⟩] =
      .error (.brk "kconfig var id too long!") := by
  decide +kernel

end Main

end GrapheneLtp.VariableTable
