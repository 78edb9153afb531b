import Mathlib.Tactic
import GrapheneLtp.Core.Decimal
import GrapheneLtp.Core.SwapRemove

/-!
# The data trees of the metadata parser

`data_storage.h`: trees of strings, integers, arrays and hashes, and their
output as JSON.
-/

namespace GrapheneLtp.DataStorage

open Decimal SwapRemove

/-- `struct data_node`. -/
inductive DataNode
  | array (items : List DataNode)
  | hash (elems : List (List Char × DataNode))
  | string (val : List Char)
  | int (val : Int64)

/-- `MAX_ELEMS`. -/
def maxElems : ℕ := 100

/-- `data_node_array_add` on the items of an array, with what it returns. -/
def arrayAdd (items : List DataNode) (payload : DataNode) : List DataNode × ℕ :=
  if items.length = maxElems then (items, 1) else (items ++ [payload], 0)

/-- `data_node_hash_add` on the elements of a hash, with what it returns. -/
def hashAdd (elems : List (List Char × DataNode)) (id : List Char)
    (payload : DataNode) : List (List Char × DataNode) × ℕ :=
  if elems.length = maxElems then (elems, 1)
  else (elems ++ [(id, payload)], 0)

/-- `data_node_hash_del` on the elements of a hash. -/
def hashDel (elems : List (List Char × DataNode)) (id : List Char) : List (List Char × DataNode) :=
  removeFirst (fun elem => decide (elem.1 = id)) elems

/-- `data_node_hash_get` on the elements of a hash. -/
def hashGet (elems : List (List Char × DataNode)) (id : List Char) : Option DataNode :=
  (elems.find? fun elem => decide (elem.1 = id)).map Prod.snd

/-- `enum data_type`. -/
inductive DataType
  | array
  | hash
  | string
  | int
deriving DecidableEq, Repr

/-- The `type` of a node. -/
def DataNode.type : DataNode → DataType
  | .array _ => .array
  | .hash _ => .hash
  | .string _ => .string
  | .int _ => .int

section Output

/-- The padding that `data_fprintf` writes. -/
def spaces (padd : UInt32) : List Char := List.replicate padd.toNat ' '

/-- One character of a string, as `data_fprintf_esc` writes it.  A character
is signed, and from 0x80 on it is below the blank too. -/
def escapeChar (c : Char) : List Char :=
  if c = '\\' then ['\\', '\\']
  else if c = '"' then ['\\', '"']
  else if c = '\t' then List.replicate 8 ' '
  else if 0x20 ≤ c.toNat ∧ c.toNat < 0x80 then [c]
  else []

/-- `data_fprintf_esc`. -/
def dataFprintfEsc (padd : UInt32) (str : List Char) : List Char :=
  spaces padd ++ '"' :: (str.flatMap escapeChar ++ ['"'])

/-- What follows an element: a comma unless it is the last one. -/
def separator (last : Bool) : List Char :=
  if last then ['\n'] else [',', '\n']

mutual

/-- `data_to_json_`. -/
def dataToJsonNode : DataNode → UInt32 → Bool → List Char
  | .int val, padd, doPadd =>
    spaces (if doPadd then padd else 0) ++ signedDecimal val.toInt
  | .string val, padd, doPadd =>
    dataFprintfEsc (if doPadd then padd else 0) val
  | .hash elems, padd, _ => dataToJsonElems elems padd
  | .array items, padd, doPadd =>
    spaces (if doPadd then padd else 0) ++ '[' :: '\n' ::
      (dataToJsonItems items (padd + 1) ++ (spaces padd ++ [']']))

/-- The loop over the elements of a hash. -/
def dataToJsonElems : List (List Char × DataNode) → UInt32 → List Char
  | [], _ => []
  | (id, node) :: rest, padd =>
    spaces padd ++ '"' :: (id ++ '"' :: ':' :: ' ' ::
      (dataToJsonNode node (padd + 1) false ++ (separator rest.isEmpty ++
        dataToJsonElems rest padd)))

/-- The loop over the items of an array. -/
def dataToJsonItems : List DataNode → UInt32 → List Char
  | [], _ => []
  | node :: rest, padd =>
    dataToJsonNode node padd true ++ (separator rest.isEmpty ++ dataToJsonItems rest padd)

end

/-- `data_to_json`. -/
def dataToJson (self : DataNode) (padd : UInt32) : List Char :=
  '\x7b' :: '\n' :: (dataToJsonNode self (padd + 1) true ++ (spaces padd ++ ['\x7d']))

end Output

end GrapheneLtp.DataStorage
