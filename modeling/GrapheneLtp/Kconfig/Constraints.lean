import GrapheneLtp.Kconfig.Scan

/-!
# Constraints on the kernel config

The meaning of a constraint over the settings of a kernel config, and the check
against it.  The variables of all constraints share one table without
duplicates; a variable of a constraint finds its entry through its `priv`
pointer.
-/

namespace GrapheneLtp.KconfigConstraints

open GrapheneLtp.OperatorGrammar GrapheneLtp.Tokens GrapheneLtp.ShuntingYard
open GrapheneLtp.YardSimulation GrapheneLtp.Evaluation
open GrapheneLtp.CString GrapheneLtp.Kconfig GrapheneLtp.KconfigScan

/-- Whether a variable of a constraint is true: without `=` it asks for `y` or
`m`, with `=` for exactly that setting. -/
def tested (lines : List ConfigLine) (text : List Char) : Bool :=
  match lookup lines (text.takeWhile fun c => c != '='), text.dropWhile fun c => c != '=' with
  | none, _ => false
  | some setting, [] => setting = .value ['y'] ∨ setting = .value ['m']
  | some setting, _ :: value =>
    setting = if value = ['n'] then .notSet else .value value

/-- A constraint holds in a kernel config, within the depth of the evaluation
stack. -/
def Holds (lines : List ConfigLine) (kconfig : List Char) : Prop :=
  ∃ tree, Derives tokClass .expr (tokens kconfig) tree ∧ tree.depth ≤ 16 ∧
    treeValue (fun token => tested lines (token.text kconfig)) tree = true

section Validation

theorem validateName_value {tokLen : ℕ} {name rest : List Char} {i : ℕ}
    (hname : '=' ∉ name) (hlen : i + name.length < tokLen) :
    validateName tokLen i (name ++ '=' :: rest) = .name (i + name.length + 1) ∨
      ∃ j, validateName tokLen i (name ++ '=' :: rest) = .unexpected j := by
  induction name generalizing i with
  | nil =>
    left
    simp only [List.length_nil, Nat.add_zero] at hlen
    simp [validateName, Nat.not_le.mpr hlen, isSymbol]
  | cons c name ih =>
    simp only [List.length_cons] at hlen
    have hc : c ≠ '=' := fun hequal => hname (hequal ▸ List.mem_cons_self)
    have hroom : ¬ i ≥ tokLen := by omega
    by_cases hsymbol : isSymbol c = true
    · have hrest := ih (fun hmem => hname (List.mem_cons_of_mem _ hmem))
        (show i + 1 + name.length < tokLen by omega)
      have hlength : i + (c :: name).length = i + 1 + name.length := by
        simp only [List.length_cons]
        omega
      rw [List.cons_append, validateName, if_neg hroom, if_pos hsymbol, hlength]
      exact hrest
    · right
      exact ⟨i, by
        rw [List.cons_append, validateName, if_neg hroom, if_neg hsymbol,
          if_neg hc]⟩

/-- A variable that is accepted has something behind its `=`. -/
theorem validateVar_value {kconfig : List Char} {token : TstExprTok}
    (hinside : token.tok + token.tokLen ≤ kconfig.length)
    (hvalid : validateVar kconfig token = .ok ()) {value : List Char}
    (hvalue : (token.text kconfig).dropWhile (fun c => c != '=') = '=' :: value) :
    value ≠ [] := by
  rintro rfl
  set tok := kconfig.drop token.tok with htok
  set name := (token.text kconfig).takeWhile fun c => c != '=' with hname
  have htext : tok.take token.tokLen = name ++ ['='] := by
    rw [hname, ← hvalue, List.takeWhile_append_dropWhile]
    rfl
  have hlength : token.tokLen = name.length + 1 := by
    have hcount := congrArg List.length htext
    rw [List.length_take, htok, List.length_drop] at hcount
    simp only [List.length_append, List.length_singleton] at hcount
    omega
  have hsplit : tok = name ++ '=' :: tok.drop token.tokLen := by
    conv_lhs => rw [← List.take_append_drop token.tokLen tok, htext]
    simp
  have hfree : '=' ∉ name := by
    intro hmem
    simpa using List.mem_takeWhile_imp hmem
  simp only [validateVar, ← htok] at hvalid
  split_ifs at hvalid with hstart
  obtain ⟨hlong, hconfig⟩ := not_or.mp hstart
  have hseven : 7 ≤ name.length := by
    by_contra hshort
    have hsame : name.length = 6 := by omega
    have hequals : (tok.take 7)[6]? = some '=' := by
      rw [List.getElem?_take_of_lt (by decide), hsplit]
      simp [← hsame]
    rw [not_not.mp hconfig] at hequals
    exact absurd hequals (by decide)
  have hdrop : tok.drop 7 = name.drop 7 ++ '=' :: tok.drop token.tokLen := by
    conv_lhs => rw [hsplit]
    rw [List.drop_append_of_le_length hseven]
  have hend := @validateName_value token.tokLen (name.drop 7) (tok.drop token.tokLen) 7
    (fun hmem => hfree (List.mem_of_mem_drop hmem))
    (by rw [List.length_drop]; omega)
  rw [← hdrop] at hend
  rcases hend with hend | ⟨j, hend⟩
  · have hposition : 7 + (name.drop 7).length + 1 = token.tokLen := by
      rw [List.length_drop]
      omega
    have hequals : tok[token.tokLen - 1]? = some '=' := by
      rw [hsplit, hlength]
      simp
    rw [hend, hposition] at hvalid
    simp [hequals] at hvalid
  · rw [hend] at hvalid
    cases hvalid

end Validation

section Table

/-- The entries of the table before the kernel config is read. -/
def fresh (ids : List (List Char)) : List TstKconfigVar :=
  ids.map fun id => ⟨id, id.length, .unset, none⟩

/-- A token of a variable points to the entry with its name. -/
def Linked (kconfig : List Char) (ids : List (List Char)) (token : TstExprTok) : Prop :=
  token.op = .var → ∃ k, token.priv = some (.var k) ∧ ids[k]? = some (varId kconfig token)

variable {kconfig : List Char} {ids : List (List Char)}

theorem Linked.mono {more : List (List Char)} {token : TstExprTok}
    (hlinked : Linked kconfig ids token) (hmore : ids <+: more) :
    Linked kconfig more token := by
  intro hvar
  obtain ⟨k, hpriv, hid⟩ := hlinked hvar
  refine ⟨k, hpriv, ?_⟩
  obtain ⟨tail, rfl⟩ := hmore
  rw [List.getElem?_append_left (List.getElem?_eq_some_iff.mp hid).1, hid]

theorem findVar_fresh (ids : List (List Char)) (id : List Char) :
    findVar (fresh ids) id = ids.findIdx? fun other => other == id := by
  rw [findVar, fresh, List.findIdx?_map]
  rfl

/-- One token: the table grows by the name if it is new, and the token is
linked. -/
theorem populateTok_linked (hids : ids.Nodup) {token : TstExprTok}
    (hfits : token.op = .var → (varId kconfig token).length + 1 < 64) :
    ∃ more priv, populateTok kconfig (fresh ids) token =
        .ok (fresh more, { token with priv := priv }) ∧
      ids <+: more ∧ more.Nodup ∧ Linked kconfig more { token with priv := priv } := by
  by_cases hvar : token.op = .var
  · have hroom : ¬ (varId kconfig token).length + 1 ≥ 64 := by
      have hlength := hfits hvar
      omega
    rw [populateTok, if_neg (not_not.mpr hvar)]
    simp only [hroom, if_false, findVar_fresh]
    cases hfind : ids.findIdx? fun other => other == varId kconfig token with
    | some k =>
      refine ⟨ids, some (.var k), rfl, List.prefix_rfl, hids, fun _ => ?_⟩
      obtain ⟨hk, hequal, -⟩ := List.findIdx?_eq_some_iff_getElem.mp hfind
      refine ⟨k, rfl, ?_⟩
      rw [List.getElem?_eq_getElem hk, beq_iff_eq.mp hequal]
      rfl
    | none =>
      have hnew : varId kconfig token ∉ ids := by
        intro hmem
        have hnone := List.findIdx?_eq_none_iff.mp hfind _ hmem
        simp at hnone
      refine ⟨ids ++ [varId kconfig token], some (.var (fresh ids).length),
        by simp [fresh], List.prefix_append _ _, ?_, fun _ => ?_⟩
      · exact List.nodup_append.mpr ⟨hids, by simp, by
          intro id hid other hother
          rw [List.mem_singleton.mp hother]
          exact ne_of_mem_of_not_mem hid hnew⟩
      · refine ⟨(fresh ids).length, rfl, ?_⟩
        rw [fresh, List.length_map, List.getElem?_concat_length]
        rfl
  · refine ⟨ids, token.priv, ?_, List.prefix_rfl, hids, fun hop => absurd hop hvar⟩
    rw [populateTok, if_pos hvar]

theorem tokAt_set (buf : List TstExprTok) (i j : ℕ) (token : TstExprTok) :
    tokAt (buf.set i token) j =
      if i = j ∧ i < buf.length then token else tokAt buf j := by
  simp only [tokAt, List.getD_eq_getElem?_getD, List.getElem?_set]
  by_cases hij : i = j
  · subst hij
    by_cases hlength : i < buf.length
    · simp [hlength]
    · simp [hlength]
  · simp [hij]

/-- The tokens of a buffer after some of their pointers have been set. -/
def Relinked (buf after : List TstExprTok) : Prop :=
  ∀ i, ∃ priv, tokAt after i = { tokAt buf i with priv := priv }

theorem relinked_set (buf : List TstExprTok) (i : ℕ) (priv : Option Priv) :
    Relinked buf (buf.set i { tokAt buf i with priv := priv }) := by
  intro j
  rw [tokAt_set]
  split_ifs with hij
  · exact ⟨priv, by rw [hij.1]⟩
  · exact ⟨(tokAt buf j).priv, rfl⟩

theorem Relinked.trans {buf middle after : List TstExprTok}
    (hfirst : Relinked buf middle) (hsecond : Relinked middle after) :
    Relinked buf after := by
  intro i
  obtain ⟨priv, hmiddle⟩ := hfirst i
  obtain ⟨later, hafter⟩ := hsecond i
  exact ⟨later, by rw [hafter, hmiddle]⟩

/-- A variable is a token of the buffer: past its end there is none. -/
theorem lt_length_of_var {buf : List TstExprTok} {i : ℕ}
    (hvar : (tokAt buf i).op = .var) : i < buf.length := by
  by_contra hout
  rw [tokAt, List.getD_eq_getElem?_getD, List.getElem?_eq_none (Nat.not_lt.mp hout)] at hvar
  exact absurd hvar (by decide)

/-- One expression, by induction on the list: the tokens already visited stay
linked while the table grows. -/
theorem populateExpr_linked {rpn : List ℕ} {buf : List TstExprTok} (hids : ids.Nodup)
    (hfits : ∀ i ∈ rpn, (tokAt buf i).op = .var → (varId kconfig (tokAt buf i)).length + 1 < 64) :
    ∃ more after, populateExpr kconfig rpn (fresh ids) buf = .ok (fresh more, after) ∧
      ids <+: more ∧ more.Nodup ∧ Relinked buf after ∧
        ∀ i, i ∈ rpn ∨ Linked kconfig ids (tokAt buf i) → Linked kconfig more (tokAt after i) := by
  induction rpn generalizing ids buf with
  | nil =>
    refine ⟨ids, buf, rfl, List.prefix_rfl, hids, fun i => ⟨_, rfl⟩, ?_⟩
    rintro i (hmem | hlinked)
    · cases hmem
    · exact hlinked
  | cons i rpn ih =>
    obtain ⟨grown, priv, htok, hgrown, hnodup, hlink⟩ :=
      populateTok_linked hids (hfits i List.mem_cons_self)
    have hset := relinked_set buf i priv
    obtain ⟨more, after, hrun, hmore, hfinal, hrelinked, hlinks⟩ :=
      @ih grown (buf.set i { tokAt buf i with priv := priv }) hnodup (by
        intro j hj hvar
        obtain ⟨later, hsame⟩ := hset j
        rw [hsame] at hvar ⊢
        exact hfits j (List.mem_cons_of_mem _ hj) hvar)
    have hhere (j : ℕ) (hj : j = i ∨ Linked kconfig ids (tokAt buf j)) : Linked kconfig grown
          (tokAt (buf.set i { tokAt buf i with priv := priv }) j) := by
      rw [tokAt_set]
      split_ifs with hij
      · exact hlink
      · rcases hj with rfl | hold
        · intro hvar
          exact absurd ⟨rfl, lt_length_of_var hvar⟩ hij
        · exact hold.mono hgrown
    refine ⟨more, after, ?_, hgrown.trans hmore, hfinal, hset.trans hrelinked, ?_⟩
    · simp only [populateExpr, htok, bind, Except.bind, hrun]
    · rintro j (hmem | hold)
      · rcases List.mem_cons.mp hmem with rfl | hrest
        · exact hlinks j (.inr (hhere j (.inl rfl)))
        · exact hlinks j (.inl hrest)
      · exact hlinks j (.inr (hhere j (.inr hold)))

/-- What becomes of an expression when the table is complete. -/
def Populated (ids : List (List Char)) (before after : List Char × TstExpr) :
    Prop :=
  after.1 = before.1 ∧ after.2.rpn = before.2.rpn ∧ Relinked before.2.buf after.2.buf ∧
      ∀ i ∈ before.2.rpn, Linked before.1 ids (tokAt after.2.buf i)

theorem populateVars_linked {exprs : List (List Char × TstExpr)} (hids : ids.Nodup)
    (hfits : ∀ pair ∈ exprs, ∀ token ∈ pair.2.rpnToks, token.op = .var →
      (varId pair.1 token).length + 1 < 64) :
    ∃ more after, populateVars exprs (fresh ids) = .ok (fresh more, after) ∧
      ids <+: more ∧ more.Nodup ∧ List.Forall₂ (Populated more) exprs after := by
  induction exprs generalizing ids with
  | nil => exact ⟨ids, [], rfl, List.prefix_rfl, hids, .nil⟩
  | cons pair exprs ih =>
    obtain ⟨kconfig, expr⟩ := pair
    obtain ⟨grown, buf, hexpr, hgrown, hnodup, hrelinked, hlinks⟩ :=
      @populateExpr_linked kconfig ids expr.rpn expr.buf hids
        (fun i hi => hfits _ List.mem_cons_self _ (List.mem_map.mpr ⟨i, hi, rfl⟩))
    obtain ⟨more, after, hrest, hmore, hfinal, hpopulated⟩ :=
      ih hnodup (fun other hother => hfits other (List.mem_cons_of_mem _ hother))
    refine ⟨more, (kconfig, { expr with buf := buf }) :: after, ?_,
      hgrown.trans hmore, hfinal, .cons ?_ hpopulated⟩
    · simp only [populateVars, hexpr, bind, Except.bind, hrest]
      rfl
    · exact ⟨rfl, rfl, hrelinked, fun i hi => (hlinks i (.inl hi)).mono hmore⟩

end Table

section Evaluation

variable {lines : List ConfigLine} {ids : List (List Char)} {kconfig : List Char}

/-- Comparing the first characters with a text of one character. -/
theorem eq_take_singleton {value : List Char} (hne : value ≠ []) (c : Char) :
    value = [c].take value.length ↔ value = [c] := by
  have hlength : 1 ≤ value.length := List.length_pos_iff.mpr hne
  rw [List.take_of_length_le (by simpa using hlength)]

/-- The entry of a variable decides its test. -/
theorem mapVar_settled {text : List Char}
    (hvalue : ∀ value, text.dropWhile (fun c => c != '=') = '=' :: value → value ≠ []) :
    mapVar (settled (text.takeWhile fun c => c != '=')
        (lookup lines (text.takeWhile fun c => c != '='))) text =
      tested lines text := by
  have hrest : text.dropWhile (fun c => c != '=') = [] ∨
      ∃ value, text.dropWhile (fun c => c != '=') = '=' :: value := by
    cases hdrop : text.dropWhile fun c => c != '=' with
    | nil => exact .inl rfl
    | cons c value =>
      have hhead := List.head?_dropWhile_not (fun c => c != '=') text
      rw [hdrop] at hhead
      exact .inr ⟨value, by simpa using hhead⟩
  simp only [mapVar, tested]
  generalize lookup lines (text.takeWhile fun c => c != '=') = setting
  generalize text.takeWhile (fun c => c != '=') = id
  rcases hrest with hrest | ⟨value, hrest⟩
  · rw [hrest]
    rcases setting with - | - | text
    · rfl
    · rfl
    · by_cases hy : text = ['y']
      · simp [settled, hy]
      by_cases hm : text = ['m']
      · simp [settled, hm]
      · simp [settled, hy, hm]
  · have hne := hvalue value hrest
    simp only [hrest, eq_take_singleton hne]
    rcases setting with - | - | text
    · rfl
    · by_cases hm : value = ['m']
      · simp [settled, hm]
      by_cases hy : value = ['y']
      · simp [settled, hy]
      by_cases hn : value = ['n']
      · simp [settled, hn]
      · simp [settled, hm, hy, hn]
    · have hsame : (text.length = value.length ∧
          value = text.take value.length) ↔ text = value := by
        constructor
        · rintro ⟨hlength, hequal⟩
          rw [hequal, ← hlength, List.take_length]
        · rintro rfl
          exact ⟨rfl, List.take_length.symm⟩
      by_cases hty : text = ['y']
      · subst hty
        by_cases hm : value = ['m']
        · simp [settled, hm]
        by_cases hy : value = ['y']
        · simp [settled, hy]
        by_cases hn : value = ['n']
        · simp [settled, hn]
        · simp [settled, hm, hy, hn, Ne.symm hy]
      by_cases htm : text = ['m']
      · subst htm
        by_cases hm : value = ['m']
        · simp [settled, hm]
        by_cases hy : value = ['y']
        · simp [settled, hy]
        by_cases hn : value = ['n']
        · simp [settled, hn]
        · simp [settled, hm, hy, hn, Ne.symm hm]
      by_cases hm : value = ['m']
      · simp [settled, hty, htm, hm]
      by_cases hy : value = ['y']
      · simp [settled, hty, htm, hy]
      by_cases hn : value = ['n']
      · simp [settled, hty, htm, hn]
      · simp [settled, hty, htm, hm, hy, hn, hsame]

theorem map_linked {token : TstExprTok} (hvar : token.op = .var)
    (hlinked : Linked kconfig ids token)
    (hvalue : ∀ value, (token.text kconfig).dropWhile (fun c => c != '=') =
      '=' :: value → value ≠ []) :
    Kconfig.map kconfig (table lines ids) token = boolInt (tested lines (token.text kconfig)) := by
  obtain ⟨k, hpriv, hid⟩ := hlinked hvar
  have hentry : (table lines ids)[k]? = some (settled (varId kconfig token)
      (lookup lines (varId kconfig token))) := by
    rw [table, List.getElem?_map, hid]
    rfl
  rw [Kconfig.map, hpriv]
  simp only [hentry]
  rw [varId, mapVar_settled hvalue]

/-- The value of a constraint, from the tree of its text. -/
theorem tstBoolExprEval_holds {expr after : TstExpr} (hparse : tstBoolExprParse kconfig = .ok expr)
    (hvalid : ∀ token ∈ expr.rpnToks, token.op = .var → validateVar kconfig token = .ok ())
    (hpopulated : Populated ids (kconfig, expr) (kconfig, after))
    (junk : ℤ → ℤ) :
    tstBoolExprEval (Kconfig.map kconfig (table lines ids)) junk after = 1 ↔
      Holds lines kconfig := by
  obtain ⟨tree, hderives, hrpn⟩ := parse_rpn hparse
  obtain ⟨-, hsame, hrelinked, hlinks⟩ := hpopulated
  have hinside := tokens_inside kconfig
  have hbuf : expr.buf = tokens kconfig := parse_buf hparse
  set env := fun token : TstExprTok => tested lines (token.text kconfig)
    with henv
  -- The tokens with their pointers are evaluated as the ones without.
  have hrenamed : List.Forall₂ (fun token again => token.op = again.op ∧
      (token.op = .var → Kconfig.map kconfig (table lines ids) token =
        boolInt (env again))) after.rpnToks expr.rpnToks := by
    rw [TstExpr.rpnToks, TstExpr.rpnToks, hsame, List.forall₂_map_left_iff,
      List.forall₂_map_right_iff, List.forall₂_same]
    intro i hi
    obtain ⟨priv, htoken⟩ := hrelinked i
    refine ⟨by rw [htoken], fun hvar => ?_⟩
    have hop : (tokAt expr.buf i).op = .var := by rwa [htoken] at hvar
    have hmem : tokAt expr.buf i ∈ tokens kconfig := by
      rw [← hbuf, tokAt, List.getD_eq_getElem?_getD,
        List.getElem?_eq_getElem (lt_length_of_var hop), Option.getD_some]
      exact List.getElem_mem _
    have hvalue (value : List Char) := @validateVar_value kconfig _
      (hinside _ hmem) (hvalid _ (List.mem_map.mpr ⟨i, hi, rfl⟩) hop) value
    have hmap := @map_linked lines ids kconfig _ hvar (hlinks i hi)
    rw [htoken] at hmap ⊢
    exact hmap hvalue
  have heval : tstBoolExprEval (Kconfig.map kconfig (table lines ids)) junk
      after = tstBoolExprEval (fun token => boolInt (env token)) junk expr := by
    rw [tstBoolExprEval, tstBoolExprEval, evalLoop_congr hrenamed]
  have htruth : truth (fun token => boolInt (env token)) = env := by
    funext token
    cases htested : env token <;> simp [truth, boolInt, htested]
  have hdefined (token : TstExprTok) : boolInt (env token) = 0 ∨ boolInt (env token) = 1 := by
    cases env token
    · exact .inl rfl
    · exact .inr rfl
  obtain ⟨hbad, hgood⟩ := tstBoolExprEval_rpn (fun token => boolInt (env token))
    (treeOps_of_derives hderives) hrpn (fun token => .inr (hdefined token)) junk
  have haborts : Aborts (fun token => boolInt (env token)) (-1) tree ↔ 16 < tree.depth := by
    rw [aborts_start]
    refine or_iff_right ?_
    rintro ⟨token, -, hminus⟩
    rcases hdefined token with hzero | hone
    · omega
    · omega
  rw [heval]
  constructor
  · intro hone
    have hshallow : ¬ 16 < tree.depth := by
      intro hdeep
      rw [hbad (haborts.mpr hdeep)] at hone
      omega
    rw [hgood (haborts.not.mpr hshallow), htruth] at hone
    refine ⟨tree, hderives, by omega, ?_⟩
    cases hvalue : treeValue env tree with
    | true => rfl
    | false => simp [hvalue, boolInt] at hone
  · rintro ⟨other, hother, hdepth, htrue⟩
    rw [derives_unique hother hderives] at hdepth htrue
    rw [hgood (haborts.not.mpr (by omega)), htruth, htrue]
    rfl

end Evaluation

section Check

theorem parseAll_ok {kconfigs : List (List Char)}
    {exprs : List (List Char × TstExpr)} (hparse : parseAll kconfigs = .ok exprs) :
    exprs.map Prod.fst = kconfigs ∧ ∀ pair ∈ exprs, tstBoolExprParse pair.1 = .ok pair.2 := by
  induction kconfigs generalizing exprs with
  | nil =>
    cases hparse
    exact ⟨rfl, by simp⟩
  | cons kconfig kconfigs ih =>
    rw [parseAll] at hparse
    cases hexpr : tstBoolExprParse kconfig with
    | error failure => cases failure <;> simp [hexpr] at hparse
    | ok expr =>
      cases hrest : parseAll kconfigs with
      | error failure => simp [hexpr, hrest, bind, Except.bind] at hparse
      | ok rest =>
        simp only [hexpr, hrest, bind, Except.bind, pure, Except.pure, Except.ok.injEq] at hparse
        subst hparse
        obtain ⟨hnames, hall⟩ := ih hrest
        refine ⟨by rw [List.map_cons, hnames], ?_⟩
        intro pair hpair
        rcases List.mem_cons.mp hpair with rfl | hmem
        · exact hexpr
        · exact hall pair hmem

theorem validateVars_ok {exprs : List (List Char × TstExpr)}
    (hvalid : validateVars exprs = true) {pair : List Char × TstExpr}
    (hpair : pair ∈ exprs) {token : TstExprTok}
    (htoken : token ∈ pair.2.rpnToks) (hvar : token.op = .var) :
    validateVar pair.1 token = .ok () := by
  have hexpr := List.all_eq_true.mp hvalid pair hpair
  have hok := List.all_eq_true.mp hexpr token htoken
  rw [hvar] at hok
  cases hresult : validateVar pair.1 token with
  | error report => simp [hresult, Except.isOk, Except.toBool] at hok
  | ok result => rfl

/-- The last loop of the check, over all the expressions. -/
theorem all_holds {lines : List ConfigLine} {ids : List (List Char)}
    {exprs after : List (List Char × TstExpr)} {junk : ℤ → ℤ}
    (hpopulated : List.Forall₂ (Populated ids) exprs after)
    (hexprs : ∀ pair ∈ exprs, tstBoolExprParse pair.1 = .ok pair.2 ∧
      ∀ token ∈ pair.2.rpnToks, token.op = .var → validateVar pair.1 token = .ok ()) :
    (after.all fun (kconfig, expr) => tstBoolExprEval
      (Kconfig.map kconfig (table lines ids)) junk expr = 1) = true ↔
        ∀ pair ∈ exprs, Holds lines pair.1 := by
  induction hpopulated with
  | nil => simp
  | @cons before later exprs after hpair _ ih =>
    obtain ⟨_, expr⟩ := before
    obtain ⟨kconfig, linked⟩ := later
    obtain ⟨rfl, hlinked⟩ := hpair
    obtain ⟨hparse, hvalid⟩ := hexprs _ List.mem_cons_self
    have hhead := @tstBoolExprEval_holds lines ids kconfig expr linked hparse
      hvalid ⟨rfl, hlinked⟩ junk
    have htail := ih fun pair hmem => hexprs pair (List.mem_cons_of_mem _ hmem)
    rw [List.all_cons, Bool.and_eq_true, htail, List.forall_mem_cons, ← hhead, decide_eq_true_iff]

/-- For every kernel config and all constraints over valid variables, the check
returns zero if and only if the config satisfies every constraint. -/
theorem tstKconfigCheck_holds (config : KernelConfig) {around : Surroundings}
    (hskip : around.skipCheck = false)
    (hconfig : around.config = some (render config.lines))
    {kconfigs : List (List Char)} (hne : kconfigs ≠ [])
    {exprs : List (List Char × TstExpr)}
    (hparse : parseAll kconfigs = .ok exprs)
    (hvalid : validateVars exprs = true)
    (hfits : ∀ pair ∈ exprs, ∀ token ∈ pair.2.rpnToks, token.op = .var →
      (varId pair.1 token).length + 1 < 64) :
    ∃ result, tstKconfigCheck around kconfigs = .ok result ∧
      (result = 0 ↔ ∀ kconfig ∈ kconfigs, Holds config.lines kconfig) := by
  obtain ⟨hnames, hexprs⟩ := parseAll_ok hparse
  obtain ⟨ids, after, hpopulate, -, hids, hpopulated⟩ :=
    @populateVars_linked [] exprs List.nodup_nil hfits
  have hread := tstKconfigRead_table config around.line hids
  have hcheck : tstKconfigCheck around kconfigs = .ok
      (if after.all fun (kconfig, expr) => tstBoolExprEval
        (Kconfig.map kconfig (table config.lines ids)) around.stack expr = 1
      then 0 else 1) := by
    have hlen : arrayLen kconfigs = .ok kconfigs.length := if_neg hne
    have hstart : populateVars exprs [] = .ok (fresh ids, after) := hpopulate
    have hread : tstKconfigRead around.config around.line (fresh ids) =
        .ok (table config.lines ids) := by
      rw [hconfig]
      exact hread
    simp only [tstKconfigCheck, hlen, hskip, hparse, hvalid, hstart, hread,
      bind, Except.bind, pure, Except.pure, Bool.not_true, Bool.false_eq_true,
      if_false]
  refine ⟨_, hcheck, ?_⟩
  have hevery := @all_holds config.lines ids exprs after around.stack hpopulated
    fun pair hpair => ⟨hexprs pair hpair,
      fun token htoken hvar => validateVars_ok hvalid hpair htoken hvar⟩
  rw [← hnames, List.forall_mem_map, ← hevery]
  split_ifs with hall
  · simp [hall]
  · simp [hall]

/-- Some surroundings, with no white space in the line buffer. -/
def around (skipCheck : Bool) (lines : List ConfigLine) : Surroundings :=
  { skipCheck := skipCheck
    config := some (render lines)
    line := List.replicate 128 'x'
    stack := fun _ => 7 }

def sampleConfig : KernelConfig where
  lines :=
    [.comment [] " Linux config".toList, .blank [], .set ['A'] ['y'],
      .notSet ['B'], .set "HZ".toList "1000".toList]
  wellFormed := by decide +kernel
  short := by decide +kernel
  distinct := by decide +kernel

theorem tstKconfigCheck_holds_sample : ∃ result, tstKconfigCheck (around false sampleConfig.lines)
        ["CONFIG_A & !CONFIG_B".toList, "CONFIG_HZ=1000 | CONFIG_D".toList] =
          .ok result ∧
      (result = 0 ↔ ∀ kconfig ∈
        ["CONFIG_A & !CONFIG_B".toList, "CONFIG_HZ=1000 | CONFIG_D".toList],
          Holds sampleConfig.lines kconfig) :=
  tstKconfigCheck_holds sampleConfig rfl rfl (by simp) rfl rfl (by decide +kernel)

theorem not_holds_single {lines : List ConfigLine} {kconfig : List Char}
    {token : TstExprTok} (htokens : tokens kconfig = [token])
    (hvar : token.op = .var)
    (hfalse : tested lines (token.text kconfig) = false) :
    ¬ Holds lines kconfig := by
  rintro ⟨tree, hderives, -, htrue⟩
  have hsingle : Derives tokClass .expr (tokens kconfig) (.operand token) := by
    rw [htokens]
    exact .term (.operand (opClass_eq_operand.mpr hvar))
  rw [derives_unique hderives hsingle, treeValue, hfalse] at htrue
  cases htrue

/-- The check returns zero without looking when it is told to skip; it takes a
comment about a symbol for a line that says the symbol is not set; and it reads
outside its arrays for a line without a value and for an empty list. -/
theorem tstKconfigCheck_differs :
    (tstKconfigCheck (around true []) ["CONFIG_A".toList] = .ok 0 ∧
        ¬ Holds [] "CONFIG_A".toList) ∧
      (tstKconfigCheck (around false
          [.comment [] " the default is not set for CONFIG_A".toList])
            ["CONFIG_A=n".toList] = .ok 0 ∧
        ¬ Holds [.comment [] " the default is not set for CONFIG_A".toList]
          "CONFIG_A=n".toList) ∧
      tstKconfigCheck (around false [.set ['A'] []]) ["CONFIG_A".toList] =
        .error .wild ∧
      tstKconfigCheck (around false []) [] = .error .wild := by
  refine ⟨⟨rfl, ?_⟩, ⟨rfl, ?_⟩, rfl, rfl⟩
  · exact @not_holds_single _ _ ⟨.var, 0, 8, none⟩ rfl rfl rfl
  · exact @not_holds_single _ _ ⟨.var, 0, 10, none⟩ rfl rfl rfl

end Check

end GrapheneLtp.KconfigConstraints
