import Graphize.Spec.Config
import Mathlib.Data.List.Infix
import Mathlib.Data.Int.Order.Basic

/-!
# Reading a `CLUSTER NODES` reply

`NodeInfo::ParseNodeString` and `ParseSlotString` of `redis_client.cpp`, and the library
functions on text that they and `init_channel_pool` call. The fields of `NodeInfo` that
nothing reads are left out.
-/

namespace Graphize

/-- Runs of a separator shortened to one. -/
def squeeze (c : Char) : Str → Str
  | x :: y :: s => if x = c ∧ y = c then squeeze c (y :: s) else x :: squeeze c (y :: s)
  | s => s

/-- `boost::split` at one character with `boost::token_compress_on`: a run of separators
ends one token, and there may be an empty token at either end. -/
def splitCompress (c : Char) (s : Str) : List Str := (squeeze c s).splitOn c

/-- What a `c_str()` is read as. -/
def cStr (s : Str) : Str := s.takeWhile fun c => c ≠ Char.ofNat 0

/-- `NULL != strstr(s.c_str(), text)`. -/
def strstr (s text : Str) : Bool := text <:+: cStr s

/-- `strtol` in base 10: a `long` of 64 bits that saturates. -/
def strtol (s : Str) : ℤ :=
  match s.dropWhile isSpace with
  | '-' :: s => max (-(Nat.ofDigitChars 10 (s.takeWhile Char.isDigit) 0 : ℤ)) (-2 ^ 63)
  | '+' :: s => min (Nat.ofDigitChars 10 (s.takeWhile Char.isDigit) 0 : ℤ) (2 ^ 63 - 1)
  | s => min (Nat.ofDigitChars 10 (s.takeWhile Char.isDigit) 0 : ℤ) (2 ^ 63 - 1)

/-- `atoi`, which is `strtol` converted to `int`. -/
def atoi (s : Str) : ℤ := (strtol s).bmod (2 ^ 32)

/-- `std::to_string` of an unsigned number. -/
def toDecimal (n : ℕ) : Str := Nat.toDigits 10 n

/-- `struct NodeInfo`. A `port` that is never set is `none`. -/
structure NodeInfo where
  strinfo : Str := []
  id : Str := []
  ip : Str := []
  port : Option UInt16 := none
  mSlots : List (UInt32 × UInt32) := []
  deriving DecidableEq

namespace NodeInfo

/-- `NodeInfo::CheckSlot`. -/
def checkSlot (node : NodeInfo) (slotIndex : UInt32) : Bool :=
  node.mSlots.any fun r => slotIndex ≥ r.1 ∧ slotIndex ≤ r.2

/-- `NodeInfo::ParseNodeString`. The host is what precedes the first colon. -/
def parseNodeString (node : NodeInfo) (nodeString : Str) : Bool × NodeInfo :=
  if ':' ∈ nodeString then
    let portStr := (nodeString.dropWhile fun c => c ≠ ':').drop 1
    (true, { node with port := some (UInt16.ofInt (atoi portStr))
                       ip := nodeString.takeWhile fun c => c ≠ ':' })
  else (false, node)

/-- `NodeInfo::ParseSlotString`. A slot above 16384 is logged and kept. -/
def parseSlotString (node : NodeInfo) (slotString : Str) : NodeInfo :=
  let slots :=
    if '-' ∈ slotString then
      let endSlotStr := (slotString.dropWhile fun c => c ≠ '-').drop 1
      (UInt32.ofInt (atoi (slotString.takeWhile fun c => c ≠ '-')), UInt32.ofInt (atoi endSlotStr))
    else (UInt32.ofInt (atoi slotString), UInt32.ofInt (atoi slotString))
  { node with mSlots := node.mSlots ++ [slots] }

/-- The body of the loop over the lines in `init_channel_pool`; `none` is `continue`. -/
def ofLine (line : Str) : Option NodeInfo :=
  let nodeinfo := splitCompress ' ' line
  match nodeinfo with
  | id :: addr :: flags :: _ :: _ :: _ :: _ :: link :: slots =>
    if strstr link "disconnected".toList then none
    else if !strstr flags "master".toList then none
    else
      let node : NodeInfo := { strinfo := line, id := id }
      some (slots.foldl parseSlotString (node.parseNodeString addr).2)
  -- fewer than eight fields
  | _ => none

end NodeInfo

/-- The lines of a reply. -/
def replyLines (data : Str) : List Str := splitCompress '\n' (trim data)

/-- The lines that `init_channel_pool` keeps in `valid_lines`. -/
def keptLines (data : Str) : List Str := (replyLines data).filter fun l => (NodeInfo.ofLine l).isSome

/-- `vNodes`. -/
def replyNodes (data : Str) : List NodeInfo := (replyLines data).filterMap NodeInfo.ofLine

/-- One round of `is_channel_pool_changed`: the fields 0, 1 and from 8 on. -/
def fieldsChanged (line₀ line₁ : Str) : Bool :=
  let fields₀ := splitCompress ' ' line₀
  let fields₁ := splitCompress ' ' line₁
  fields₀.length < 8 ∨ fields₁.length < 8 ∨ fields₀.length ≠ fields₁.length ∨
    fields₀[0]? ≠ fields₁[0]? ∨ fields₀[1]? ≠ fields₁[1]? ∨ fields₀.drop 8 ≠ fields₁.drop 8

/-- `RedisClient::is_channel_pool_changed`, on the `valid_lines` of the two pools. -/
def linesChanged (lines₀ lines₁ : List Str) : Bool :=
  lines₀.length ≠ lines₁.length ∨ (lines₀.zip lines₁).any fun l => fieldsChanged l.1 l.2

end Graphize
