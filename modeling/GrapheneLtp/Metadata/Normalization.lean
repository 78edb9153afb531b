import GrapheneLtp.Core.Implications
import GrapheneLtp.Core.Strtol
import GrapheneLtp.Metadata.Parser

/-!
# The passes over the parsed structure

What `main` of `metaparse.c` does to the hash of a file before it prints it: the
keys of `filter_out` are deleted, the types are normalized, and the flags that
other flags imply are added.  A deletion takes one element, and so a key that
stands twice in the source survives it.
-/

namespace GrapheneLtp.Metaparse

open DataStorage Implications Strtol SwapRemove

/-- The elements of a hash. -/
abbrev Elems : Type := List (List Char × DataNode)

section Passes

/-- `filter_out`. -/
def filterOut : List (List Char) :=
  ["bufs".toList, "cleanup".toList, "mntpoint".toList, "setup".toList,
    "tcnt".toList, "test".toList, "test_all".toList]

/-- `tst_test_typemap`. -/
def tstTestTypemap : List (List Char × DataType) :=
  [("test_variants".toList, .int)]

/-- `implies`. -/
def implies : List (List Char × List (List Char)) :=
  [("mount_device".toList,
      ["format_device".toList, "needs_device".toList, "needs_tmpdir".toList]),
    ("format_device".toList, ["needs_device".toList, "needs_tmpdir".toList]),
    ("all_filesystems".toList, ["needs_device".toList, "needs_tmpdir".toList]),
    ("needs_device".toList, ["needs_tmpdir".toList]),
    ("needs_checkpoints".toList, ["needs_tmpdir".toList]),
    ("resource_files".toList, ["needs_tmpdir".toList])]

/-- The number that `convert_str2int` reads, if it does not exit.  Of a text
without a number `strtol` reads nothing, and then the text has to be empty. -/
def str2int (strVal : List Char) : Option Int64 :=
  match strtoll (readNatural 10) strVal with
  | none => if strVal = [] then some 0 else none
  | some (val, exact, endptr) =>
    if exact = false ∨ endptr ≠ [] then none else some (Int64.ofInt val)

/-- How elements get into a hash. -/
abbrev Add : Type := Elems → List Char → DataNode → Elems

variable (add : Add)

/-- `convert_str2int`. -/
def convertStr2int (res : Elems) (id strVal : List Char) : Option Elems :=
  (str2int strVal).map fun val => add (hashDel res id) id (.int val)

/-- The body of the loop of `check_normalize_types`. -/
def normalizeType (res : Elems) (typemap : List Char × DataType) : Option Elems :=
  match hashGet res typemap.1 with
  | none => some res
  | some n =>
    if n.type = typemap.2 then some res
    else
      match n, typemap.2 with
      | .string val, .int => convertStr2int add res typemap.1 val
      | _, _ => none

/-- `check_normalize_types`. -/
def checkNormalizeTypes (res : Elems) : Option Elems :=
  tstTestTypemap.foldlM (normalizeType add) res

/-- The first loop of `main` over the parsed hash. -/
def filterUseless (res : Elems) : Elems := filterOut.foldl hashDel res

def present (res : Elems) (id : List Char) : Bool := (hashGet res id).isSome

/-- The last loop of `main` over the parsed hash. -/
def addFlags (res : Elems) : Elems :=
  addImplied present (fun res id => add res id (.string ['1'])) implies res

/-- The passes of `main`, with a way to add an element. -/
def normalizeWith (res : Elems) : Option Elems :=
  (checkNormalizeTypes add (filterUseless res)).map (addFlags add)

/-- The passes of `main`: a full hash drops what is added. -/
def normalize (res : Elems) : Option Elems :=
  normalizeWith (fun elems id payload => (hashAdd elems id payload).1) res

/-- A hash without a bound. -/
def append : Add := fun elems id payload => elems ++ [(id, payload)]

end Passes

section Specification

/-- The elements with this key. -/
def withKey (id : List Char) (elems : Elems) : Elems :=
  elems.filter fun elem => decide (elem.1 = id)

/-- The integer that a value of `test_variants` is turned into. -/
def toInt : DataNode → Option Int64
  | .int val => some val
  | .string val => str2int val
  | _ => none

/-- What the passes are for. -/
structure Normalized (elems out : Elems) : Prop where
  filtered : ∀ elem ∈ out, elem.1 ∉ filterOut
  closed : ∀ elem ∈ out, ∀ implied,
    Relation.TransGen (Implies implies) elem.1 implied →
      ∃ other ∈ out, other.1 = implied
  kept : (elems.filter fun elem =>
    decide (elem.1 ∉ filterOut ∧ elem.1 ≠ "test_variants".toList)).Subperm out
  integer : ∀ elem ∈ out, elem.1 = "test_variants".toList → elem.2.type = .int
  turned : ∀ elem ∈ elems, elem.1 = "test_variants".toList →
    ∃ val, toInt elem.2 = some val ∧ ("test_variants".toList, .int val) ∈ out

/-- No key of `filter_out` stands twice, and of the values of `test_variants`
all but the first one, in the order that the deletions leave, are integers. -/
structure Deletable (elems : Elems) : Prop where
  once : ∀ id ∈ filterOut, elems.countP (fun elem => decide (elem.1 = id)) ≤ 1
  first : ∀ elem ∈ (withKey "test_variants".toList (filterUseless elems)).tail,
    elem.2.type = .int

/-- The passes never find the hash full. -/
def Roomy (elems : Elems) : Prop :=
  ∀ out, normalizeWith append elems = some out → out.length ≤ maxElems

end Specification

section Elements

variable {elems : Elems} {id : List Char}

theorem mem_withKey {elem : List Char × DataNode} :
    elem ∈ withKey id elems ↔ elem ∈ elems ∧ elem.1 = id := by
  simp [withKey]

theorem hashGet_eq_head (elems : Elems) (id : List Char) :
    hashGet elems id = (withKey id elems).head?.map Prod.snd := by
  rw [hashGet, withKey, List.head?_filter]

theorem present_iff : present elems id = true ↔ ∃ elem ∈ elems, elem.1 = id := by
  simp [present, hashGet]

theorem mem_append {elem : List Char × DataNode} {payload : DataNode} :
    elem ∈ append elems id payload ↔ elem ∈ elems ∨ elem = (id, payload) := by
  simp [append]

theorem length_append (elems : Elems) (id : List Char) (payload : DataNode) :
    (append elems id payload).length = elems.length + 1 := by
  simp [append]

theorem hashAdd_eq_append {payload : DataNode}
    (hfits : (append elems id payload).length ≤ maxElems) :
    (hashAdd elems id payload).1 = append elems id payload := by
  rw [length_append] at hfits
  simp only [hashAdd, if_neg (Nat.ne_of_lt hfits), append]

/-- A deletion leaves the elements with other keys. -/
theorem mem_hashDel_of_ne {elem : List Char × DataNode} (hne : elem.1 ≠ id) :
    elem ∈ hashDel elems id ↔ elem ∈ elems := by
  have hperm : ((hashDel elems id).filter fun elem => decide (elem.1 ≠ id)).Perm
      (elems.filter fun elem => decide (elem.1 ≠ id)) :=
    filter_removeFirst fun elem helem =>
      decide_eq_false (of_decide_eq_true helem)
  simpa [hne] using hperm.mem_iff (a := elem)

/-- Of the elements with its key a deletion takes the first one. -/
theorem withKey_hashDel (elems : Elems) (id : List Char) :
    (withKey id (hashDel elems id)).Perm (withKey id elems).tail :=
  filter_removeFirst_self

end Elements

section Types

/-- Each entry of the table of types leaves the hash or converts an element. -/
theorem normalizeType_cases {add : Add} {res after : Elems} {typemap : List Char × DataType}
    (hafter : normalizeType add res typemap = some after) :
    (after = res ∧ ∀ n ∈ hashGet res typemap.1, n.type = typemap.2) ∨
      ∃ strVal val, typemap.2 = .int ∧ hashGet res typemap.1 = some (.string strVal) ∧
        str2int strVal = some val ∧ after = add (hashDel res typemap.1) typemap.1 (.int val) := by
  unfold normalizeType at hafter
  split at hafter
  · next hget => exact .inl ⟨(Option.some.inj hafter).symm, by simp [hget]⟩
  · next n hget =>
      split_ifs at hafter with htype
      · refine .inl ⟨(Option.some.inj hafter).symm, ?_⟩
        intro other hother
        rw [hget, Option.mem_some_iff] at hother
        exact hother ▸ htype
      · split at hafter
        · next strVal hint =>
            obtain ⟨val, hval, rfl⟩ := Option.map_eq_some_iff.mp hafter
            exact .inr ⟨strVal, val, hint, hget, hval, rfl⟩
        · cases hafter

theorem checkNormalizeTypes_eq (add : Add) (res : Elems) : checkNormalizeTypes add res =
      normalizeType add res ("test_variants".toList, .int) := by
  simp [checkNormalizeTypes, tstTestTypemap]

variable {res after : Elems}

/-- The pass over the types leaves the elements with other keys. -/
theorem mem_checkNormalizeTypes (hafter : checkNormalizeTypes append res = some after)
    {elem : List Char × DataNode} (hne : elem.1 ≠ "test_variants".toList) :
    elem ∈ after ↔ elem ∈ res := by
  rw [checkNormalizeTypes_eq] at hafter
  rcases normalizeType_cases hafter with ⟨rfl, -⟩ | ⟨strVal, val, -, -, -, rfl⟩
  · rfl
  · rw [mem_append, mem_hashDel_of_ne hne]
    refine or_iff_left ?_
    rintro rfl
    exact hne rfl

theorem subperm_checkNormalizeTypes (hafter : checkNormalizeTypes append res = some after)
    {keep : List Char × DataNode → Bool}
    (hkeep : ∀ elem, keep elem = true → elem.1 ≠ "test_variants".toList) :
    (res.filter keep).Subperm after := by
  rw [checkNormalizeTypes_eq] at hafter
  rcases normalizeType_cases hafter with ⟨rfl, -⟩ | ⟨strVal, val, -, -, -, rfl⟩
  · exact List.filter_sublist.subperm
  · have hperm : ((hashDel res "test_variants".toList).filter keep).Perm
        (res.filter keep) :=
      filter_removeFirst fun elem helem => decide_eq_false (hkeep elem helem)
    exact (hperm.symm.subperm.trans List.filter_sublist.subperm).trans
      (List.sublist_append_left _ _).subperm

/-- After the pass the values of `test_variants` are those of before, with the
first one turned into an integer. -/
theorem withKey_checkNormalizeTypes (hafter : checkNormalizeTypes append res = some after) :
    withKey "test_variants".toList res = [] ∧
        withKey "test_variants".toList after = [] ∨
      ∃ node val, toInt node = some val ∧
        withKey "test_variants".toList res =
          ("test_variants".toList, node) ::
            (withKey "test_variants".toList res).tail ∧
        (withKey "test_variants".toList after).Perm
          (("test_variants".toList, .int val) ::
            (withKey "test_variants".toList res).tail) := by
  rw [checkNormalizeTypes_eq] at hafter
  have hhead := hashGet_eq_head res "test_variants".toList
  rcases normalizeType_cases hafter with ⟨rfl, htype⟩ | ⟨strVal, val, -, hget, hval, rfl⟩
  · cases hkey : withKey "test_variants".toList after with
    | nil => exact .inl ⟨rfl, rfl⟩
    | cons first rest =>
      have hid : first.1 = "test_variants".toList :=
        (mem_withKey.mp (hkey ▸ List.mem_cons_self)).2
      rw [hkey] at hhead
      have hint : first.2.type = .int := htype first.2 (by rw [hhead]; rfl)
      obtain ⟨id, node⟩ := first
      dsimp only at hid hint
      subst hid
      cases node with
      | int val => exact .inr ⟨.int val, val, rfl, rfl, List.Perm.refl _⟩
      | array | hash | string => cases hint
  · cases hkey : withKey "test_variants".toList res with
    | nil => rw [hget, hkey] at hhead; cases hhead
    | cons first rest =>
      have hid : first.1 = "test_variants".toList :=
        (mem_withKey.mp (hkey ▸ List.mem_cons_self)).2
      obtain ⟨id, node⟩ := first
      rw [hget, hkey] at hhead
      obtain rfl : DataNode.string strVal = node := Option.some.inj hhead
      dsimp only at hid
      subst hid
      refine .inr ⟨.string strVal, val, hval, rfl, ?_⟩
      have hdel := withKey_hashDel res "test_variants".toList
      rw [hkey] at hdel
      have hsplit : withKey "test_variants".toList
          (append (hashDel res "test_variants".toList) "test_variants".toList (.int val)) =
          withKey "test_variants".toList (hashDel res "test_variants".toList) ++
            [("test_variants".toList, .int val)] := by
        simp [withKey, append]
      rw [hsplit]
      exact (List.perm_append_singleton _ _).trans (hdel.cons _)

/-- All values are integers afterwards if all but the first one were. -/
theorem integer_checkNormalizeTypes (hafter : checkNormalizeTypes append res = some after) :
    (∀ elem ∈ withKey "test_variants".toList after, elem.2.type = .int) ↔
      ∀ elem ∈ (withKey "test_variants".toList res).tail, elem.2.type = .int := by
  rcases withKey_checkNormalizeTypes hafter with
    ⟨hbefore, hnone⟩ | ⟨node, val, -, -, hperm⟩
  · rw [hbefore, hnone, List.tail_nil]
  · constructor
    · intro hall elem helem
      exact hall elem (hperm.mem_iff.mpr (List.mem_cons_of_mem _ helem))
    · intro htail elem helem
      rcases List.mem_cons.mp (hperm.mem_iff.mp helem) with rfl | hmem
      · rfl
      · exact htail elem hmem

theorem turned_checkNormalizeTypes (hafter : checkNormalizeTypes append res = some after)
    (htail : ∀ elem ∈ (withKey "test_variants".toList res).tail, elem.2.type = .int)
    {elem : List Char × DataNode} (helem : elem ∈ withKey "test_variants".toList res) :
    ∃ val, toInt elem.2 = some val ∧ ("test_variants".toList, .int val) ∈ after := by
  rcases withKey_checkNormalizeTypes hafter with
    ⟨hbefore, -⟩ | ⟨node, val, hval, hbefore, hperm⟩
  · rw [hbefore] at helem
    cases helem
  · rw [hbefore] at helem
    have hafter_mem : ∀ other ∈ ("test_variants".toList, DataNode.int val) ::
        (withKey "test_variants".toList res).tail, other ∈ after :=
      fun other hother => (mem_withKey.mp (hperm.mem_iff.mpr hother)).1
    rcases List.mem_cons.mp helem with rfl | hmem
    · exact ⟨val, hval, hafter_mem _ List.mem_cons_self⟩
    · have hid : elem.1 = "test_variants".toList :=
        (mem_withKey.mp (List.mem_of_mem_tail hmem)).2
      have hint := htail elem hmem
      obtain ⟨id, node⟩ := elem
      dsimp only at hid hint
      subst hid
      cases node with
      | int val => exact ⟨val, rfl, hafter_mem _ (List.mem_cons_of_mem _ hmem)⟩
      | array | hash | string => cases hint

end Types

section Flags

/-- The table is in order, so one pass over it is enough. -/
theorem implies_inOrder : InOrder implies := by decide

theorem present_append (res : Elems) (id other : List Char) :
    present (append res id (.string ['1'])) other = true ↔
      present res other = true ∨ other = id := by
  rw [present_iff, present_iff]
  simp only [mem_append, or_and_right, exists_or, exists_eq_left]
  exact or_congr_right eq_comm

/-- The pass over the flags appends elements with implied keys. -/
theorem addFlags_eq (res : Elems) : ∃ added : Elems, addFlags append res = res ++ added ∧
      ∀ elem ∈ added, ∃ row ∈ implies, elem.1 ∈ row.2 := by
  refine addImplied_induction (P := fun after => ∃ added : Elems, after = res ++ added ∧
      ∀ elem ∈ added, ∃ row ∈ implies, elem.1 ∈ row.2) ?_
    ⟨[], (List.append_nil res).symm, by simp⟩
  rintro after row hrow key hkey ⟨added, rfl, hadded⟩
  refine ⟨added ++ [(key, .string ['1'])], List.append_assoc res added _, ?_⟩
  intro elem helem
  rcases List.mem_append.mp helem with hold | hnew
  · exact hadded elem hold
  · rw [List.mem_singleton.mp hnew]
    exact ⟨row, hrow, hkey⟩

/-- No flag of the table is one of the keys that the other passes are about. -/
theorem implied_key {id : List Char} (himplied : ∃ row ∈ implies, id ∈ row.2) :
    id ∉ filterOut ∧ id ≠ "test_variants".toList := by
  have hall : ∀ row ∈ implies, ∀ id ∈ row.2,
      id ∉ filterOut ∧ id ≠ "test_variants".toList := by decide
  obtain ⟨row, hrow, hid⟩ := himplied
  exact hall row hrow id hid

theorem mem_addFlags {res : Elems} {elem : List Char × DataNode}
    (hkey : elem.1 ∈ filterOut ∨ elem.1 = "test_variants".toList) :
    elem ∈ addFlags append res ↔ elem ∈ res := by
  obtain ⟨added, heq, hadded⟩ := addFlags_eq res
  rw [heq, List.mem_append]
  refine or_iff_left fun hmem => ?_
  obtain ⟨hfilter, hvariants⟩ := implied_key (hadded elem hmem)
  exact hkey.elim hfilter hvariants

end Flags

section Bound

theorem length_addFlags_le (res : Elems) : res.length ≤ (addFlags append res).length := by
  obtain ⟨added, heq, -⟩ := addFlags_eq res
  rw [heq, List.length_append]
  exact Nat.le_add_right _ _

theorem normalizeType_eq_append {res : Elems} {typemap : List Char × DataType}
    (hroom : ∀ after, normalizeType append res typemap = some after → after.length ≤ maxElems) :
    normalizeType (fun elems id payload => (hashAdd elems id payload).1) res typemap =
      normalizeType append res typemap := by
  unfold normalizeType at hroom ⊢
  split
  · rfl
  · next n hget =>
      simp only [hget] at hroom
      split_ifs with htype
      · rfl
      · rw [if_neg htype] at hroom
        split
        · next strVal hint =>
            unfold convertStr2int at hroom ⊢
            cases hval : str2int strVal with
            | none => rfl
            | some val =>
              simp only [hval, hint] at hroom
              exact congrArg some (hashAdd_eq_append (hroom _ rfl))
        · rfl

/-- With room the hash is one without a bound. -/
theorem normalize_eq_append {elems : Elems} (hroom : Roomy elems) :
    normalize elems = normalizeWith append elems := by
  have htypes : checkNormalizeTypes
      (fun elems id payload => (hashAdd elems id payload).1) (filterUseless elems) =
      checkNormalizeTypes append (filterUseless elems) := by
    rw [checkNormalizeTypes_eq, checkNormalizeTypes_eq]
    refine normalizeType_eq_append fun after hafter => ?_
    rw [← checkNormalizeTypes_eq] at hafter
    exact (length_addFlags_le after).trans (hroom _ (by rw [normalizeWith, hafter]; rfl))
  unfold normalize normalizeWith
  rw [htypes]
  cases hafter : checkNormalizeTypes append (filterUseless elems) with
  | none => rfl
  | some after =>
    refine congrArg some (addImplied_eq_of_size_le List.length maxElems ?_ ?_ implies ?_)
    · intro store key
      rw [length_append]
      exact Nat.le_succ _
    · exact fun store key hfits => hashAdd_eq_append hfits
    · exact hroom _ (by rw [normalizeWith, hafter]; rfl)

end Bound

section Result

variable {elems out : Elems}

/-- A key of `filter_out` is gone if it stood once. -/
theorem filtered_iff {typed : Elems}
    (htyped : checkNormalizeTypes append (filterUseless elems) = some typed) :
    (∀ elem ∈ addFlags append typed, elem.1 ∉ filterOut) ↔
      ∀ id ∈ filterOut, elems.countP (fun elem => decide (elem.1 = id)) ≤ 1 := by
  have hnodup : filterOut.Nodup := by decide
  have hvariants : ∀ id ∈ filterOut, id ≠ "test_variants".toList := by decide
  have hmem : ∀ elem : List Char × DataNode, elem.1 ∈ filterOut →
      (elem ∈ addFlags append typed ↔ elem ∈ filterUseless elems) :=
    fun elem helem => (mem_addFlags (.inl helem)).trans
      (mem_checkNormalizeTypes htyped (hvariants elem.1 helem))
  constructor
  · intro hall id hid
    refine (not_mem_removeKeys_iff hnodup hid).mp fun elem helem heq => ?_
    have hfilter : elem.1 ∈ filterOut := heq ▸ hid
    exact hall elem ((hmem elem hfilter).mpr helem) hfilter
  · intro honce elem helem hfilter
    exact (not_mem_removeKeys_iff hnodup hfilter).mpr (honce elem.1 hfilter) elem
      ((hmem elem hfilter).mp helem) rfl

/-- The values of `test_variants` are integers if all but the first one were. -/
theorem integer_iff {typed : Elems}
    (htyped : checkNormalizeTypes append (filterUseless elems) = some typed) :
    (∀ elem ∈ addFlags append typed, elem.1 = "test_variants".toList →
        elem.2.type = .int) ↔
      ∀ elem ∈ (withKey "test_variants".toList (filterUseless elems)).tail,
        elem.2.type = .int := by
  rw [← integer_checkNormalizeTypes htyped]
  constructor
  · intro hall elem helem
    obtain ⟨hmem, hid⟩ := mem_withKey.mp helem
    exact hall elem ((mem_addFlags (.inr hid)).mpr hmem) hid
  · intro hall elem helem hid
    exact hall elem (mem_withKey.mpr ⟨(mem_addFlags (.inr hid)).mp helem, hid⟩)

theorem mem_filterUseless {elem : List Char × DataNode} (helem : elem ∈ elems)
    (hkey : elem.1 ∉ filterOut) : elem ∈ filterUseless elems := by
  have hperm : ((filterUseless elems).filter fun elem =>
      decide (elem.1 ∉ filterOut)).Perm
      (elems.filter fun elem => decide (elem.1 ∉ filterOut)) :=
    filter_removeKeys fun elem helem => of_decide_eq_true helem
  have hmem : elem ∈ elems.filter fun elem => decide (elem.1 ∉ filterOut) :=
    List.mem_filter.mpr ⟨helem, decide_eq_true hkey⟩
  exact (List.mem_filter.mp (hperm.mem_iff.mpr hmem)).1

theorem kept_addFlags {typed : Elems}
    (htyped : checkNormalizeTypes append (filterUseless elems) = some typed) :
    (elems.filter fun elem =>
      decide (elem.1 ∉ filterOut ∧ elem.1 ≠ "test_variants".toList)).Subperm
        (addFlags append typed) := by
  have hfilter : ((filterUseless elems).filter fun elem =>
      decide (elem.1 ∉ filterOut ∧ elem.1 ≠ "test_variants".toList)).Perm
      (elems.filter fun elem =>
        decide (elem.1 ∉ filterOut ∧ elem.1 ≠ "test_variants".toList)) :=
    filter_removeKeys fun elem helem => (of_decide_eq_true helem).1
  obtain ⟨added, heq, -⟩ := addFlags_eq typed
  rw [heq]
  exact (hfilter.symm.subperm.trans (subperm_checkNormalizeTypes htyped
    fun elem helem => (of_decide_eq_true helem).2)).trans (List.sublist_append_left _ _).subperm

theorem closed_addFlags (typed : Elems) {elem : List Char × DataNode}
    (helem : elem ∈ addFlags append typed) {implied : List Char}
    (himplied : Relation.TransGen (Implies implies) elem.1 implied) :
    ∃ other ∈ addFlags append typed, other.1 = implied :=
  present_iff.mp (has_of_transGen present_append implies_inOrder
    (present_iff.mpr ⟨elem, helem, rfl⟩) himplied)

/-- The passes of `main` do what they are for exactly on a hash in which one
deletion of each key is enough. -/
theorem normalize_normalized_iff (hroom : Roomy elems) (hout : normalize elems = some out) :
    Normalized elems out ↔ Deletable elems := by
  rw [normalize_eq_append hroom] at hout
  obtain ⟨typed, htyped, rfl⟩ := Option.map_eq_some_iff.mp hout
  constructor
  · intro hnormal
    exact ⟨(filtered_iff htyped).mp hnormal.filtered, (integer_iff htyped).mp hnormal.integer⟩
  · intro hdeletable
    refine ⟨(filtered_iff htyped).mpr hdeletable.once,
      fun elem helem implied => closed_addFlags typed helem,
      kept_addFlags htyped, (integer_iff htyped).mpr hdeletable.first, ?_⟩
    intro elem helem hid
    have hkey : elem.1 ∉ filterOut := by
      rw [hid]
      decide
    obtain ⟨val, hval, hmem⟩ := turned_checkNormalizeTypes htyped hdeletable.first
      (mem_withKey.mpr ⟨mem_filterUseless helem hkey, hid⟩)
    exact ⟨val, hval, (mem_addFlags (.inr rfl)).mpr hmem⟩

/-- A number, a key that is filtered out and a flag that implies others. -/
theorem normalize_normalized_mount :
    ∃ out, normalize [("test_variants".toList, .string ['2']),
        ("setup".toList, .string ['s']), ("mount_device".toList, .string ['1'])] =
          some out ∧
      Normalized [("test_variants".toList, .string ['2']),
        ("setup".toList, .string ['s']), ("mount_device".toList, .string ['1'])]
          out :=
  ⟨_, rfl, (normalize_normalized_iff (by rintro _ ⟨⟩; decide) rfl).mpr ⟨by decide, by rintro _ ⟨⟩⟩⟩

/-- A test that gives its `setup` twice. -/
def repeatedSetup : List Char :=
  "static struct tst_test test = \x7b .setup = a, .setup = b \x7d;".toList

/-- One of the two is still there after the passes. -/
theorem normalize_repeated_setup : ∃ elems out,
      (parseFile ⟨fun _ _ => none, [], []⟩ (some repeatedSetup)).result = some (some elems) ∧
        Roomy elems ∧ normalize elems = some out ∧ ¬Normalized elems out := by
  have hruns : ((parseFile ⟨fun _ _ => none, [], []⟩ (some repeatedSetup)).result.bind
      id).map (fun elems => ((normalize elems).map (List.map Prod.fst),
        (normalizeWith append elems).map List.length)) =
      some (some ["setup".toList], some 1) := by
    decide +kernel
  obtain ⟨elems, hparse, hpair⟩ := Option.map_eq_some_iff.mp hruns
  obtain ⟨hkeys, hlength⟩ := Prod.mk.inj hpair
  obtain ⟨out, hout, hkeys⟩ := Option.map_eq_some_iff.mp hkeys
  obtain ⟨res, hres, rfl⟩ := Option.bind_eq_some_iff.mp hparse
  refine ⟨elems, out, hres, ?_, hout, ?_⟩
  · intro after hafter
    rw [hafter] at hlength
    rw [Option.some.inj hlength]
    decide
  · intro hnormal
    have hmem : "setup".toList ∈ out.map Prod.fst := hkeys ▸ List.mem_cons_self
    obtain ⟨elem, helem, hid⟩ := List.mem_map.mp hmem
    exact hnormal.filtered elem helem (hid ▸ by decide)

end Result

end GrapheneLtp.Metaparse
