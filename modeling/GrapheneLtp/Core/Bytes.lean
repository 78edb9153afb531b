import Mathlib.Tactic

/-!
# Byte buffers

Little-endian numbers, bounded reads and writes in a byte buffer, and records
that are padded to a multiple of four bytes.  Records that begin with their own
length are found again by walking from one padded record to the next.
-/

namespace GrapheneLtp.Bytes

/-- The `width` low bytes of a number, least significant first. -/
def leBytes : ℕ → ℕ → List UInt8
  | 0, _ => []
  | width + 1, value => UInt8.ofNat value :: leBytes width (value / 256)

/-- The number that little-endian bytes stand for. -/
def leValue : List UInt8 → ℕ
  | [] => 0
  | byte :: bytes => byte.toNat + 256 * leValue bytes

@[simp]
theorem length_leBytes (width value : ℕ) : (leBytes width value).length = width := by
  induction width generalizing value with
  | zero => rfl
  | succ width ih => simp [leBytes, ih]

theorem leValue_leBytes (width value : ℕ) :
    leValue (leBytes width value) = value % 256 ^ width := by
  induction width generalizing value with
  | zero => simp [leBytes, leValue, Nat.mod_one]
  | succ width ih =>
    have hbyte : (UInt8.ofNat value).toNat = value % 256 := UInt8.toNat_ofNat'
    rw [leBytes, leValue, ih, hbyte, pow_succ', Nat.mod_mul]

theorem leValue_leBytes_of_lt {width value : ℕ} (hvalue : value < 256 ^ width) :
    leValue (leBytes width value) = value := by
  rw [leValue_leBytes, Nat.mod_eq_of_lt hvalue]

section Access

variable {α : Type*}

/-- `count` values at `offset`, if they are inside. -/
def slice (data : List α) (offset count : ℕ) : Option (List α) :=
  if offset + count ≤ data.length then some ((data.drop offset).take count)
  else none

/-- The buffer with `values` stored at `offset`, if they fit. -/
def overwrite (data : List α) (offset : ℕ) (values : List α) : Option (List α) :=
  if offset + values.length ≤ data.length then
    some (data.take offset ++ values ++ data.drop (offset + values.length))
  else none

theorem slice_append (before middle after : List α) :
    slice (before ++ middle ++ after) before.length middle.length = some middle := by
  rw [slice, if_pos (by simp)]
  simp

theorem overwrite_append (before old after values : List α) (hlength : old.length = values.length) :
    overwrite (before ++ old ++ after) before.length values = some (before ++ values ++ after) := by
  rw [overwrite, if_pos (by simp [hlength])]
  simp [← hlength]

/-- A write inside the buffer: the values are there, and what lies before them
is as it was. -/
theorem overwrite_inside {data values : List α} {offset : ℕ}
    (hfits : offset + values.length ≤ data.length) :
    ∃ written, overwrite data offset values = some written ∧ written.length = data.length ∧
      slice written offset values.length = some values ∧
      ∀ other count, other + count ≤ offset →
        slice written other count = slice data other count := by
  have htake : (data.take offset).length = offset := by
    rw [List.length_take]
    omega
  have hlength : (data.take offset ++ values ++
      data.drop (offset + values.length)).length = data.length := by
    simp only [List.length_append, List.length_take, List.length_drop]
    omega
  refine ⟨_, if_pos hfits, hlength, ?_, fun other count hbefore => ?_⟩
  · have hslice := slice_append (data.take offset) values (data.drop (offset + values.length))
    rwa [htake] at hslice
  · have hsame : ((data.take offset ++ values ++
        data.drop (offset + values.length)).drop other).take count =
          (data.drop other).take count := by
      rw [List.take_drop, List.take_drop, List.append_assoc,
        List.take_append_of_le_length (by omega), List.take_take,
        Nat.min_eq_left hbefore]
    rw [slice, slice, hlength, hsame]

end Access

/-- The next multiple of four. -/
def alignUp (length : ℕ) : ℕ := (length + 3) / 4 * 4

theorem le_alignUp (length : ℕ) : length ≤ alignUp length := by
  unfold alignUp
  omega

theorem alignUp_lt (length : ℕ) : alignUp length < length + 4 := by
  unfold alignUp
  omega

theorem dvd_alignUp (length : ℕ) : 4 ∣ alignUp length := Nat.dvd_mul_left 4 _

theorem alignUp_of_dvd {length : ℕ} (hdvd : 4 ∣ length) : alignUp length = length := by
  unfold alignUp
  omega

theorem alignUp_add {first second : ℕ} (hdvd : 4 ∣ first) :
    alignUp (first + second) = first + alignUp second := by
  unfold alignUp
  omega

theorem alignUp_mono {first second : ℕ} (hle : first ≤ second) :
    alignUp first ≤ alignUp second := by
  unfold alignUp
  omega

/-- The bytes with zeros up to the next multiple of four. -/
def padded (bytes : List UInt8) : List UInt8 :=
  bytes ++ List.replicate (alignUp bytes.length - bytes.length) 0

@[simp]
theorem length_padded (bytes : List UInt8) : (padded bytes).length = alignUp bytes.length := by
  have hle := le_alignUp bytes.length
  simp [padded]
  omega

@[simp]
theorem padded_nil : padded [] = [] := rfl

theorem padded_append {before : List UInt8} (hdvd : 4 ∣ before.length)
    (bytes : List UInt8) : padded (before ++ bytes) = before ++ padded bytes := by
  simp only [padded, List.length_append, alignUp_add hdvd, Nat.add_sub_add_left, List.append_assoc]

/-- A buffer of `size` bytes that begins with `content` and is zero behind. -/
def fill (size : ℕ) (content : List UInt8) : List UInt8 :=
  content ++ List.replicate (size - content.length) 0

theorem fill_nil (size : ℕ) : fill size [] = List.replicate size 0 := by
  simp [fill]

theorem length_fill {size : ℕ} {content : List UInt8}
    (hsize : content.length ≤ size) : (fill size content).length = size := by
  simp [fill]
  omega

theorem fill_append {size more : ℕ} {content : List UInt8} (hsize : content.length ≤ size) :
    fill size content ++ List.replicate more 0 = fill (size + more) content := by
  rw [fill, fill, List.append_assoc, List.replicate_append_replicate]
  congr 2
  omega

/-- A store inside the content. -/
theorem overwrite_fill {size : ℕ} (before old after values : List UInt8)
    (hlength : old.length = values.length) :
    overwrite (fill size (before ++ old ++ after)) before.length values =
      some (fill size (before ++ values ++ after)) := by
  have hsize : size - (before ++ old ++ after).length =
      size - (before ++ values ++ after).length := by
    simp [hlength]
  rw [fill, fill, hsize, List.append_assoc (before ++ old),
    overwrite_append _ _ _ _ hlength, List.append_assoc (before ++ values)]

/-- A store behind the content, on the next multiple of four. -/
theorem overwrite_fill_padded {size : ℕ} {content values : List UInt8}
    (hroom : alignUp content.length + values.length ≤ size) :
    overwrite (fill size content) (alignUp content.length) values =
      some (fill size (padded content ++ values)) := by
  have hpad := le_alignUp content.length
  have hsplit : fill size content = padded content ++ List.replicate values.length 0 ++
        List.replicate (size - (alignUp content.length + values.length)) 0 := by
    rw [fill, padded, List.append_assoc, List.append_assoc,
      List.replicate_append_replicate, List.replicate_append_replicate]
    congr 2
    omega
  have hstore := overwrite_append (padded content) (List.replicate values.length 0)
    (List.replicate (size - (alignUp content.length + values.length)) 0)
    values (by simp)
  rw [length_padded] at hstore
  rw [hsplit, hstore, fill, List.length_append, length_padded]

/-- Records one after the other, each but the last padded. -/
def joinPadded : List (List UInt8) → List UInt8
  | [] => []
  | [record] => record
  | record :: next :: records => padded record ++ joinPadded (next :: records)

theorem joinPadded_cons {records : List (List UInt8)} (hrecords : records ≠ [])
    (record : List UInt8) :
    joinPadded (record :: records) = padded record ++ joinPadded records := by
  cases records with
  | nil => exact absurd rfl hrecords
  | cons next records => rfl

theorem joinPadded_concat (records : List (List UInt8)) (record : List UInt8) :
    joinPadded (records ++ [record]) = padded (joinPadded records) ++ record := by
  induction records with
  | nil => rfl
  | cons first records ih =>
    rw [List.cons_append, joinPadded_cons (by simp), ih]
    by_cases hrecords : records = []
    · simp [hrecords, joinPadded]
    · rw [joinPadded_cons hrecords, padded_append (by simpa using dvd_alignUp _), List.append_assoc]

/-- An aligned beginning stays in front. -/
theorem joinPadded_append {before : List UInt8} (hdvd : 4 ∣ before.length)
    (record : List UInt8) (records : List (List UInt8)) :
    joinPadded ((before ++ record) :: records) = before ++ joinPadded (record :: records) := by
  by_cases hrecords : records = []
  · subst hrecords
    rfl
  · rw [joinPadded_cons hrecords, joinPadded_cons hrecords, padded_append hdvd, List.append_assoc]

/-- Joining from the left, one record at a time. -/
theorem joinPadded_merge (first second : List UInt8) (records : List (List UInt8)) :
    joinPadded (first :: second :: records) = joinPadded ((padded first ++ second) :: records) := by
  rw [joinPadded_cons (by simp), joinPadded_append (by simpa using dvd_alignUp _)]

/-- Joining what is joined already. -/
theorem joinPadded_joinPadded (records : List (List UInt8)) :
    ∀ first more, joinPadded (joinPadded (first :: records) :: more) =
      joinPadded (first :: (records ++ more)) := by
  induction records with
  | nil => exact fun first more => rfl
  | cons second records ih =>
    intro first more
    rw [joinPadded_merge, ih, List.cons_append, joinPadded_merge]

theorem drop_joinPadded (record : List UInt8) (records : List (List UInt8)) :
    (joinPadded (record :: records)).drop (alignUp record.length) = joinPadded records := by
  by_cases hrecords : records = []
  · subst hrecords
    exact List.drop_eq_nil_of_le (le_alignUp _)
  · rw [joinPadded_cons hrecords, List.drop_left' (length_padded record)]

theorem take_joinPadded (record : List UInt8) (records : List (List UInt8)) :
    (joinPadded (record :: records)).take record.length = record := by
  by_cases hrecords : records = []
  · subst hrecords
    exact List.take_length
  · rw [joinPadded_cons hrecords, padded, List.append_assoc, List.take_left' rfl]

theorem length_le_joinPadded {record : List UInt8}
    {records : List (List UInt8)} (hmem : record ∈ records) :
    record.length ≤ (joinPadded records).length := by
  induction records with
  | nil => simp at hmem
  | cons first records ih =>
    by_cases hrecords : records = []
    · subst hrecords
      rw [List.mem_singleton.mp hmem]
      rfl
    · rw [joinPadded_cons hrecords, List.length_append, length_padded]
      rcases List.mem_cons.mp hmem with rfl | hrest
      · exact (le_alignUp _).trans (Nat.le_add_right _ _)
      · exact (ih hrest).trans (Nat.le_add_left _ _)

theorem length_le_length_joinPadded {records : List (List UInt8)}
    (hrecords : ∀ record ∈ records, 0 < record.length) :
    records.length ≤ (joinPadded records).length := by
  induction records with
  | nil => exact le_rfl
  | cons first records ih =>
    have hfirst := hrecords first List.mem_cons_self
    by_cases hempty : records = []
    · subst hempty
      exact hfirst
    · have hrest := ih fun record hrecord =>
        hrecords record (List.mem_cons_of_mem _ hrecord)
      have hpad := le_alignUp first.length
      rw [joinPadded_cons hempty, List.length_append, length_padded, List.length_cons]
      omega

/-- A walk over padded records: at every record the header has to be there and
the length it gives has to cover the header and stay inside the rest. -/
def walk (header : ℕ) (length : List UInt8 → ℕ) : ℕ → List UInt8 → List (List UInt8)
  | 0, _ => []
  | fuel + 1, bytes =>
    if header ≤ bytes.length ∧ header ≤ length bytes ∧ length bytes ≤ bytes.length then
      bytes.take (length bytes) :: walk header length fuel (bytes.drop (alignUp (length bytes)))
    else []

/-- A record that begins with its own length. -/
def Framed (header : ℕ) (length : List UInt8 → ℕ) (record : List UInt8) :
    Prop :=
  header ≤ record.length ∧ ∀ rest, length (record ++ rest) = record.length

section Walks

variable {header : ℕ} {length : List UInt8 → ℕ}

theorem walk_framed {record : List UInt8} (hframed : Framed header length record)
    (fuel : ℕ) (rest : List UInt8) :
    walk header length (fuel + 1) (record ++ rest) = record :: walk header length fuel
        ((record ++ rest).drop (alignUp record.length)) := by
  obtain ⟨hheader, hlength⟩ := hframed
  rw [walk, hlength rest, if_pos]
  · simp
  · simp only [List.length_append]
    omega

theorem walk_joinPadded_fuel (hheader : 0 < header) {records : List (List UInt8)}
    (hframed : ∀ record ∈ records, Framed header length record) :
    ∀ fuel, records.length ≤ fuel → walk header length fuel (joinPadded records) = records := by
  have hempty (fuel : ℕ) : walk header length fuel [] = [] := by
    cases fuel with
    | zero => rfl
    | succ fuel => simp [walk, hheader.ne']
  induction records with
  | nil => exact fun fuel _ => hempty fuel
  | cons record records ih =>
    intro fuel hfuel
    obtain ⟨fuel, rfl⟩ := Nat.exists_eq_add_of_le' (Nat.one_le_of_lt hfuel)
    have hrecord := hframed record List.mem_cons_self
    by_cases hrecords : records = []
    · subst hrecords
      have hone := walk_framed hrecord fuel []
      rw [List.append_nil, List.drop_eq_nil_of_le (le_alignUp _), hempty] at hone
      exact hone
    · have hrest := ih (fun other hother =>
        hframed other (List.mem_cons_of_mem _ hother)) fuel (Nat.le_of_succ_le_succ hfuel)
      rw [joinPadded_cons hrecords, padded, List.append_assoc,
        walk_framed hrecord, ← List.append_assoc]
      change record :: walk header length fuel ((padded record ++ joinPadded records).drop _) = _
      rw [List.drop_left' (length_padded record), hrest]

/-- The walk finds all the records. -/
theorem walk_joinPadded (hheader : 0 < header) {records : List (List UInt8)}
    (hframed : ∀ record ∈ records, Framed header length record) :
    walk header length (joinPadded records).length (joinPadded records) =
      records := by
  apply walk_joinPadded_fuel hheader hframed
  apply length_le_length_joinPadded
  exact fun record hrecord => hheader.trans_le (hframed record hrecord).1

end Walks

end GrapheneLtp.Bytes
