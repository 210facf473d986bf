import Graphize.Spec.Redis
import Graphize.Lib.IntLoop

/-!
# The MGET commands of a fetch info

How `do_service` splits the keys of a fetch info into batches, and how
`RedisClient::multi_fetch` lays out the command of one batch, in the machine's integers
and with the buffers that its `StringPiece`s point into. A result `none` is undefined
behaviour: a division by zero, a signed overflow, a place beyond a vector, or a read of
memory that has been given back. (Or the fuel of a loop ran out.)
-/

namespace Graphize

open IntLoop

/-! ## The split in `do_service` -/

/-- `int q = size / d; if (size % d != 0) ++q;`, which is how `batch_count` and `step` are made. -/
def divUp (size : ℕ) (d : ℤ) : Option ℤ :=
  if toSize d = 0 then none
  else if size % toSize d ≠ 0 then int (ofSize (size / toSize d) + 1)
  else some (ofSize (size / toSize d))

/-- `batch_count` and `step`. -/
def batchSplit (size : ℕ) (batchSize : ℤ) : Option (ℤ × ℤ) := do
  let batchCount ← divUp size batchSize
  let step ← divUp size batchCount
  return (batchCount, step)

/-- The values of `i` in `for (int i = 0; i < keys.size(); i += step)`. -/
def batchStarts (fuel size : ℕ) (step : ℤ) : Option (List ℤ) :=
  loop (fun i => toSize i < size) step (fun starts i => some (starts ++ [i])) fuel 0 []

/-- `i / step`, as the index given to `redis_result_item_vec.at`. -/
def itemPlace (i step : ℤ) : ℕ := toSize (i.tdiv step)

/-- `m_get_size`. -/
def mGetSize (size : ℕ) (i step : ℤ) : Option ℤ := do
  let stop ← int (i + step)
  return ofSize (subSize (min (toSize stop) size) (toSize i))

/-! ## The command in `multi_fetch` -/

/-- A `const char*` that is not null: a literal, or the buffer of a string. -/
inductive CharPtr
  | literal (text : Bytes)
  | buffer (a : ℕ)
  deriving DecidableEq, Repr

/-- `butil::StringPiece`. -/
structure StringPiece where
  ptr : Option CharPtr := none
  length : ℕ := 0
  deriving DecidableEq, Repr

/-- The buffers of strings, by address. One that has been given back holds nothing. -/
abbrev Buffers := List (Option Bytes)

/-- The bytes that a piece stands for. No byte is read for a piece of length 0. -/
def StringPiece.read (buffers : Buffers) (piece : StringPiece) : Option Bytes :=
  if piece.length = 0 then some []
  else
    match piece.ptr with
    | none => none
    | some (.literal text) => some (text.take piece.length)
    | some (.buffer a) => buffers[a]?.join.map fun bytes => bytes.take piece.length

/-- The memory and `parts` while `multi_fetch` fills it. -/
structure Filling where
  buffers : Buffers
  parts : List StringPiece
  deriving DecidableEq, Repr

/-- The body of the loop of `multi_fetch`. `const std::string k = data[i]` may share the
buffer of `data[i]`, as a reference-counted string does; else it has a buffer of its own,
which is given back when `k` goes out of scope at the end of the round. -/
def Filling.round (shares : ℕ → Bool) (data : List Bytes) (startIndex : ℤ) (f : Filling) (i : ℤ) :
    Option Filling := do
  let k ← data[toSize i]?
  let (address, buffers) :=
    if shares (toSize i) then (toSize i, f.buffers) else (f.buffers.length, f.buffers ++ [some k])
  let place ← int ((← int (i + 1)) - startIndex)
  if toSize place < f.parts.length then
    some {
      parts := f.parts.set (toSize place) ⟨some (.buffer address), k.length⟩
      buffers := if shares (toSize i) then buffers else buffers.set address none }
  else none

/-- `"MGET"`. -/
def mget : Bytes := ascii "MGET".toList

/-- `RedisClient::multi_fetch` up to `AddCommandByComponents`. The buffer of `data[i]` is at `i`. -/
def multiFetchParts (shares : ℕ → Bool) (fuel : ℕ) (data : List Bytes) (startIndex endIndex : ℤ) : Option Filling :=
  let size := (subSize (min (toSize endIndex) data.length) (toSize startIndex) + 1) % 2 ^ 64
  let parts := List.replicate size {}
  if 0 < size then
    loop (fun i => toSize i < data.length ∧ i < endIndex) 1 (Filling.round shares data startIndex) fuel startIndex
      ⟨data.map some, parts.set 0 ⟨some (.literal mget), mget.length⟩⟩
  else none

/-- What `AddCommandByComponents` reads. -/
def Filling.components (f : Filling) : Option (List Bytes) := f.parts.mapM (StringPiece.read f.buffers)

end Graphize
