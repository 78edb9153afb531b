import GrapheneLtp.Core.CheckedInt

/-!
# The containers of libstats

A container is a block of records of sixteen bytes.  The size and the index are
longs, but an append goes through an int; a resize allocates records and zeroes
bytes.  What a new block holds beyond the old one is up to the allocator.
-/

namespace GrapheneLtp.StatsContainer

open CheckedInt

abbrev Record := Fin 16 → UInt8

/-- An allocated block, with its length in bytes. -/
structure Block where
  length : ℕ
  byte : ℕ → UInt8

/-- The record at an index of a block. -/
def Block.record (block : Block) (index : ℕ) : Record := fun offset =>
  block.byte (16 * index + offset)

def Block.store (block : Block) (index : ℕ) (rec : Record) : Block where
  length := block.length
  byte position :=
    if position / 16 = index then rec (Fin.ofNat 16 position) else block.byte position

def Block.cleared (block : Block) (start count : ℕ) : Block where
  length := block.length
  byte position :=
    if start ≤ position ∧ position < start + count then 0 else block.byte position

/-- A `memset` to zero; out of the block it is undefined. -/
def Block.clear (block : Block) (start count : ℕ) : Option Block :=
  if start + count ≤ block.length then some (block.cleared start count) else none

/-- A block of another length that starts as the old one does. -/
def Block.moved (block : Block) (count : ℕ) (garbage : ℕ → UInt8) : Block where
  length := count
  byte position := if position < block.length then block.byte position else garbage position

/-- Where the records of a container are.  A block that was freed is not to be used. -/
inductive Pointer where
  | null
  | freed
  | block (block : Block)

structure Container where
  size : ℤ
  index : ℤ
  records : Pointer

/-- A byte count of type `size_t`. -/
def byteCount (size : ℤ) : ℕ := (size * 16 % 2 ^ 64).toNat

/-- `calloc`, which fails by itself when the count of bytes is no `size_t`. -/
def calloc (size : ℤ) (ok : Bool) : Pointer :=
  if ok = true ∧ 0 ≤ size ∧ size * 16 < 2 ^ 64 then .block ⟨byteCount size, fun _ => 0⟩ else .null

def statsContainerInit (size : ℤ) (ok : Bool) : ℤ × Container :=
  match calloc size ok with
  | .block records => (0, ⟨size, -1, .block records⟩)
  | failed => (-1, ⟨size, -1, failed⟩)

/-- Undefined when the index overflows or the record is not in the block. -/
def statsContainerAppend (data : Container) (rec : Record) : Option (ℤ × Container) := do
  let index ← inLong (data.index + 1)
  let myindex := toInt index
  if data.size ≤ myindex then some (-1, data)
  else
    match data.records with
    | .block records =>
      if 0 ≤ myindex ∧ 16 * myindex + 16 ≤ records.length then
        some (myindex, { data with index, records := .block (records.store myindex.toNat rec) })
      else none
    | _ => none

/-- The block that `realloc` returns, `none` for NULL. -/
def realloc (records : Pointer) (count : ℕ) (ok : Bool) (garbage : ℕ → UInt8) :
    Option (Option Block) :=
  match records with
  | .freed => none
  | .null => some (if ok then some ⟨count, garbage⟩ else none)
  | .block old => some (if ok then some (old.moved count garbage) else none)

/-- A failed `realloc` leaves the old block alone, unless it was asked for no bytes. -/
def statsContainerResize (data : Container) (size : ℤ) (ok : Bool) (garbage : ℕ → UInt8) :
    Option (ℤ × Container) := do
  match ← realloc data.records (byteCount size) ok garbage with
  | none =>
    if byteCount size = 0 ∧ data.records matches .block _ then
      some (-1, { data with records := .freed })
    else some (-1, data)
  | some newrecords =>
    if data.size < size then
      if 0 ≤ data.size then do
        let cleared ← newrecords.clear (16 * data.size).toNat (size - data.size).toNat
        some (0, { data with size, records := .block cleared })
      else none
    else some (0, { data with size, records := .block newrecords })

/-- A call, with the answer of the allocator. -/
inductive Call where
  | init (size : ℤ) (ok : Bool)
  | append (rec : Record)
  | resize (size : ℤ) (ok : Bool) (garbage : ℕ → UInt8)

def perform (data : Container) : Call → Option (ℤ × Container)
  | .init size ok => some (statsContainerInit size ok)
  | .append rec => statsContainerAppend data rec
  | .resize size ok garbage => statsContainerResize data size ok garbage

/-- The record at an index of a container. -/
def Container.record (data : Container) (index : ℕ) : Record :=
  match data.records with
  | .block records => records.record index
  | _ => fun _ => 0

/-- What a call is meant to do. -/
def Right (data : Container) (ret : ℤ) (after : Container) : Call → Prop
  | .init size _ => ret = 0 ∧ after.size = size ∧ after.index = -1 ∧
      ∀ index : ℕ, index < size → after.record index = fun _ => 0
  | .append rec =>
    if data.index + 1 < data.size then
      ret = data.index + 1 ∧ after.index = data.index + 1 ∧ after.size = data.size ∧
        after.record (data.index + 1).toNat = rec ∧
        ∀ other : ℕ, other ≠ data.index + 1 → after.record other = data.record other
    else ret = -1 ∧ after = data
  | .resize size ok _ =>
    if ok then
      ret = 0 ∧ after.size = size ∧ after.index = data.index ∧
        ∀ index : ℕ, index < size →
          after.record index = if index < data.size then data.record index else fun _ => 0
    else ret = -1 ∧ after = data

/-- All calls do what they are meant to, and keep the index below the size. -/
def AllRight : Container → List Call → Prop
  | _, [] => True
  | data, call :: rest => ∃ ret after, perform data call = some (ret, after) ∧
      Right data ret after call ∧ after.index < after.size ∧ AllRight after rest

/-- A call for which the code works.  A successful resize keeps the index below the
size, and finds zeros beyond the bytes that it clears. -/
def Regular (data : Container) : Call → Prop
  | .init size ok => ok = true ∧ 0 ≤ size ∧ size < 2 ^ 60
  | .append _ => data.index + 1 < 2 ^ 31
  | .resize size true garbage => 0 ≤ size ∧ size < 2 ^ 60 ∧ data.index < size ∧
      ∀ position : ℕ, 15 * data.size + size ≤ position → position < 16 * size →
        garbage position = 0
  | .resize size false _ => byteCount size ≠ 0

def AllRegular : Container → List Call → Prop
  | _, [] => True
  | data, call :: rest => Regular data call ∧
      ∀ ret after, perform data call = some (ret, after) → AllRegular after rest

/-! ## One call -/

/-- A container whose block has room for its records. -/
structure Sound (data : Container) : Prop where
  index_ge : -1 ≤ data.index
  index_lt : data.index < data.size
  block : ∃ records, data.records = .block records ∧ (records.length : ℤ) = 16 * data.size

section Steps

variable {data : Container}

theorem byteCount_eq {size : ℤ} (hsize : 0 ≤ size) (hbound : size < 2 ^ 60) :
    (byteCount size : ℤ) = 16 * size := by
  rw [byteCount, Int.emod_eq_of_lt (by omega) (by omega)]
  omega

theorem init_right {size : ℤ} {ok : Bool} (hregular : Regular data (.init size ok)) :
    ∃ ret after, perform data (.init size ok) = some (ret, after) ∧
      Right data ret after (.init size ok) ∧ Sound after := by
  obtain ⟨rfl, hsize, hbound⟩ := hregular
  have hcalloc : calloc size true = .block ⟨byteCount size, fun _ => 0⟩ :=
    if_pos ⟨rfl, hsize, by omega⟩
  refine ⟨0, ⟨size, -1, .block ⟨byteCount size, fun _ => 0⟩⟩, ?_, ⟨rfl, rfl, rfl, fun _ _ => rfl⟩,
    le_rfl, ?_, _, rfl, byteCount_eq hsize hbound⟩
  · simp only [perform, statsContainerInit, hcalloc]
  · show -1 < size
    omega

theorem record_store (block : Block) (index : ℕ) (rec : Record) :
    (block.store index rec).record index = rec := by
  funext offset
  have hposition : (16 * index + (offset : ℕ)) / 16 = index := by omega
  have hoffset : Fin.ofNat 16 (16 * index + (offset : ℕ)) = offset := by
    apply Fin.ext
    rw [Fin.val_ofNat]
    omega
  simp only [Block.record, Block.store, hposition, if_true, hoffset]

theorem record_store_of_ne (block : Block) {index other : ℕ} (rec : Record) (hne : other ≠ index) :
    (block.store index rec).record other = block.record other := by
  funext offset
  have hposition : (16 * other + (offset : ℕ)) / 16 ≠ index := by omega
  simp only [Block.record, Block.store, hposition, if_false]

theorem append_right {rec : Record} (hsound : Sound data)
    (hregular : Regular data (.append rec)) :
    ∃ ret after, perform data (.append rec) = some (ret, after) ∧
      Right data ret after (.append rec) ∧ Sound after := by
  obtain ⟨hlow, hindex, records, hrecords, hlength⟩ := hsound
  have hsmall : data.index + 1 < 2 ^ 31 := hregular
  have hlong : FitsLong (data.index + 1) := ⟨by omega, by omega⟩
  have hint : toInt (data.index + 1) = data.index + 1 := toInt_of_fits ⟨by omega, hsmall⟩
  by_cases hfull : data.size ≤ data.index + 1
  · refine ⟨-1, data, ?_, ?_, hlow, hindex, records, hrecords, hlength⟩
    · simp [perform, statsContainerAppend, inLong_of_fits hlong, hint, hfull]
    · exact (if_neg (not_lt.mpr hfull)).mpr ⟨rfl, rfl⟩
  · have hroom : 0 ≤ data.index + 1 ∧ 16 * (data.index + 1) + 16 ≤ records.length := by omega
    refine ⟨data.index + 1, ⟨data.size, data.index + 1, .block
      (records.store (data.index + 1).toNat rec)⟩, ?_, ?_, ?_, not_le.mp hfull, _, rfl, hlength⟩
    · simp [perform, statsContainerAppend, inLong_of_fits hlong, hint, hfull, hrecords, hroom]
    · refine (if_pos (not_le.mp hfull)).mpr ⟨rfl, rfl, rfl, record_store _ _ _, fun other hne => ?_⟩
      simp only [Container.record, hrecords]
      exact record_store_of_ne _ _ (by omega)
    · show -1 ≤ data.index + 1
      omega

/-- What a successful resize makes of a block. -/
theorem resize_block {size : ℤ} {garbage : ℕ → UInt8} {records : Block}
    (hold : 0 ≤ data.size) (hrecords : data.records = .block records)
    (hlength : (records.length : ℤ) = 16 * data.size) (hsize : 0 ≤ size) (hbound : size < 2 ^ 60) :
    ∃ block : Block, statsContainerResize data size true garbage =
        some (0, ⟨size, data.index, .block block⟩) ∧ (block.length : ℤ) = 16 * size ∧
      ∀ position : ℕ, block.byte position =
        if position < 16 * data.size then records.byte position
        else if position < 15 * data.size + size then 0 else garbage position := by
  have hcount := byteCount_eq hsize hbound
  by_cases hgrow : data.size < size
  · have hroom : (16 * data.size).toNat + (size - data.size).toNat ≤ byteCount size := by omega
    refine ⟨(records.moved (byteCount size) garbage).cleared (16 * data.size).toNat
      (size - data.size).toNat, ?_, hcount, fun position => ?_⟩
    · have hclear : (records.moved (byteCount size) garbage).clear (16 * data.size).toNat
          (size - data.size).toNat = some _ := if_pos hroom
      simp [statsContainerResize, hrecords, realloc, hgrow, hold, hclear]
    · simp only [Block.cleared, Block.moved]
      grind
  · refine ⟨records.moved (byteCount size) garbage, ?_, hcount, fun position => ?_⟩
    · simp [statsContainerResize, hrecords, realloc, hgrow]
    · simp only [Block.moved]
      grind

theorem resize_right {size : ℤ} {ok : Bool} {garbage : ℕ → UInt8} (hsound : Sound data)
    (hregular : Regular data (.resize size ok garbage)) :
    ∃ ret after, perform data (.resize size ok garbage) = some (ret, after) ∧
      Right data ret after (.resize size ok garbage) ∧ Sound after := by
  obtain ⟨hlow, hindex, records, hrecords, hlength⟩ := hsound
  cases ok with
  | false =>
      have hcount : byteCount size ≠ 0 := hregular
      refine ⟨-1, data, ?_, ⟨rfl, rfl⟩, hlow, hindex, records, hrecords, hlength⟩
      simp [perform, statsContainerResize, hrecords, realloc, hcount]
  | true =>
      obtain ⟨hsize, hbound, hkept, hzeros⟩ := hregular
      obtain ⟨block, hresize, hblock, hbytes⟩ := resize_block (by omega) hrecords hlength hsize
        hbound
      refine ⟨0, _, hresize, ⟨rfl, rfl, rfl, fun index hlt => ?_⟩, hlow, hkept, block, rfl, hblock⟩
      funext offset
      have hoffset := offset.isLt
      show block.byte (16 * index + offset) = _
      rw [hbytes]
      by_cases hold : index < data.size
      · rw [if_pos hold, if_pos (by omega), Container.record, hrecords]
        rfl
      · rw [if_neg hold, if_neg (by omega)]
        split
        · rfl
        · exact hzeros _ (by omega) (by omega)

end Steps

theorem perform_right {data : Container} {call : Call} (hsound : Sound data)
    (hregular : Regular data call) :
    ∃ ret after, perform data call = some (ret, after) ∧ Right data ret after call ∧
      Sound after := by
  cases call with
  | init size ok => exact init_right hregular
  | append rec => exact append_right hsound hregular
  | resize size ok garbage => exact resize_right hsound hregular

theorem allRight_of_sound {data : Container} {calls : List Call} (hsound : Sound data)
    (hregular : AllRegular data calls) : AllRight data calls := by
  induction calls generalizing data with
  | nil => trivial
  | cons call rest ih =>
      obtain ⟨ret, after, hperform, hright, hafter⟩ := perform_right hsound hregular.1
      exact ⟨ret, after, hperform, hright, hafter.index_lt, ih hafter (hregular.2 _ _ hperform)⟩

/-- Every run of regular calls that starts with an initialization is as it should be. -/
theorem calls_allRight {start : Container} {size : ℤ} {ok : Bool} {calls : List Call}
    (hregular : AllRegular start (.init size ok :: calls)) :
    AllRight start (.init size ok :: calls) := by
  obtain ⟨ret, after, hperform, hright, hafter⟩ := init_right hregular.1
  exact ⟨ret, after, hperform, hright, hafter.index_lt,
    allRight_of_sound hafter (hregular.2 _ _ hperform)⟩

theorem calls_allRight_grow : AllRight ⟨0, 0, .null⟩
    [.init 1 true, .append fun _ => 1, .append fun _ => 2, .resize 2 true fun _ => 0,
      .append fun _ => 2] := by
  refine calls_allRight ⟨⟨rfl, by decide, by decide⟩, fun ret after hinit => ?_⟩
  cases hinit
  refine ⟨(by decide : (-1 : ℤ) + 1 < 2 ^ 31), fun ret after hfirst => ?_⟩
  cases hfirst
  refine ⟨(by decide : (0 : ℤ) + 1 < 2 ^ 31), fun ret after hfull => ?_⟩
  cases hfull
  refine ⟨⟨by decide, by decide, by decide, fun _ _ _ => rfl⟩, fun ret after hresize => ?_⟩
  cases hresize
  exact ⟨(by decide : (0 : ℤ) + 1 < 2 ^ 31), fun _ _ _ => trivial⟩

/-- Growing by a record clears one byte of it, and shrinking leaves the index where it
was. -/
theorem calls_not_allRight :
    ¬AllRight ⟨0, 0, .null⟩ [.init 1 true, .resize 2 true fun _ => 255] ∧
      ¬AllRight ⟨0, 0, .null⟩ [.init 2 true, .append fun _ => 1, .append fun _ => 2,
        .resize 1 true fun _ => 0] := by
  constructor
  · rintro ⟨_, _, hinit, -, -, _, _, hresize, hright, -⟩
    cases hinit
    cases hresize
    have hzero := hright.2.2.2 1 (by decide)
    exact absurd (congrFun hzero 1) (by decide)
  · rintro ⟨_, _, hinit, -, -, _, _, hfirst, -, -, _, _, hsecond, -, -, _, _, hresize, -, hindex, -⟩
    cases hinit
    cases hfirst
    cases hsecond
    cases hresize
    exact absurd hindex (by decide)

end GrapheneLtp.StatsContainer
