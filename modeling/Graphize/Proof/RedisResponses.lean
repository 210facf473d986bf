import Graphize.Spec.RedisResponse
import Graphize.Proof.RedisRefusals

/-!
# What a reply leaves in its item

`check_suc_rpc_response` fills two vectors in parallel, a total and a code, and may
reset the response that it reads.

* `checkSucRpcResponse_eq`: the function of `Spec/Redis` is the one written statement
  by statement, without the pointer.
* `reply_filled_iff`: it leaves the item that the reply calls for exactly when the
  response is not one without replies.
-/

namespace Graphize

variable {rpc : RpcReply} {redisClientId : Str} {key : Bytes} {item : RedisResultItem}

/-! ## The loop over an array -/

/-- The loop neither reads nor sets the code. -/
theorem foldl_push_code (code : ItemCode) : ∀ (elements : List (Option Bytes)) (item : RedisResultItem),
    elements.foldl RedisResultItem.push { item with code := code } =
      { elements.foldl RedisResultItem.push item with code := code } := by
  intro elements
  induction elements with
  | nil => intro item; rfl
  | cons value elements ih =>
    intro item
    have hpush : RedisResultItem.push { item with code := code } value = { item.push value with code := code } := by
      cases value <;> rfl
    rw [List.foldl_cons, List.foldl_cons, hpush, ih]

/-- The loop adds up the lengths. -/
theorem foldl_push_total : ∀ (elements : List (Option Bytes)) (item : RedisResultItem),
    (elements.foldl RedisResultItem.push item).totalResultStrSize =
      item.totalResultStrSize + (elements.map valueLen).sum := by
  intro elements
  induction elements with
  | nil => intro item; simp
  | cons value elements ih =>
    intro item
    rw [List.foldl_cons, ih]
    cases value <;> simp [RedisResultItem.push, valueLen, Nat.add_assoc]

/-! ## The two functions -/

/-- **The function of `Spec/Redis` is the source's**, whatever becomes of the pointer. -/
theorem checkSucRpcResponse_eq (rpc : RpcReply) (redisClientId : Str) (key : Bytes) (item : RedisResultItem) :
    (ResponsePtr.checkSucRpcResponse rpc.response redisClientId key rpc.errorText item).map Prod.snd =
      checkSucRpcResponse rpc redisClientId key item := by
  unfold checkSucRpcResponse
  -- one case for each shape of the response; most compute on both sides
  rcases rpc.response with _ | (_ | ⟨_ | data | message | value | elements, rest⟩)
  · rfl
  · rfl
  · rfl
  · rfl
  · rfl
  · -- the message of a reply that is no error is empty
    have hrun : ResponsePtr.checkSucRpcResponse (some (.integer value :: rest)) redisClientId key rpc.errorText item =
        .ok (none, { item with
          errorMsg := ascii " reply is not a string or array; key:".toList ++ key ++
            errorTail redisClientId rpc.errorText ++ ascii " error_message: ".toList ++ []
          code := .otherError }) := rfl
    rw [hrun, List.append_nil]
    rfl
  · have hrun : ResponsePtr.checkSucRpcResponse (some (.array elements :: rest)) redisClientId key rpc.errorText item =
        .ok (some (.array elements :: rest), { elements.foldl RedisResultItem.push { item with code := .success } with
          resultGuard := true }) := rfl
    rw [hrun, foldl_push_code]
    rfl

/-! ## The item that a reply calls for -/

/-- A reply that is an answer: nil, a string or an array. -/
def RedisReply.Answers (reply : RedisReply) : Prop := reply.isNil ∨ reply.isString ∨ reply.isArray

/-- An item that no reply has been stored in. -/
structure RedisResultItem.Fresh (item : RedisResultItem) : Prop where
  strVec : item.resultStrVec = []
  lenVec : item.resultStrLenVec = []
  total : item.totalResultStrSize = 0
  guard : item.resultGuard = false

/-- The item that a reply calls for. A stored pointer that is not null points into the
response, which lives as long as `result_guard` holds it. -/
structure Filled (rpc : RpcReply) (item : RedisResultItem) : Prop where
  success : item.code = .success ↔ ∃ reply rest, rpc.response = some (reply :: rest) ∧ reply.Answers
  other : item.code ≠ .success → item.code = .otherError
  strVec : item.resultStrVec = rpc.values
  lenVec : item.resultStrLenVec = rpc.values.map valueLen
  total : item.totalResultStrSize = item.resultStrLenVec.sum
  guarded : ∀ data, some data ∈ item.resultStrVec → item.resultGuard = true

/-- `check_suc_rpc_response` returns, having used no null pointer, and leaves the item
that the reply calls for. -/
def ChecksResponse (rpc : RpcReply) (redisClientId : Str) (key : Bytes) (item : RedisResultItem) : Prop :=
  ∃ response item', ResponsePtr.checkSucRpcResponse rpc.response redisClientId key rpc.errorText item =
    .ok (response, item') ∧ Filled rpc item'

theorem checksResponse_of_item {item' : RedisResultItem}
    (hrun : checkSucRpcResponse rpc redisClientId key item = .ok item') (hfilled : Filled rpc item') :
    ChecksResponse rpc redisClientId key item := by
  rw [← checkSucRpcResponse_eq] at hrun
  cases hptr : ResponsePtr.checkSucRpcResponse rpc.response redisClientId key rpc.errorText item with
  | error fault =>
    rw [hptr] at hrun
    exact absurd hrun (by simp [Except.map])
  | ok res =>
    rw [hptr] at hrun
    obtain ⟨response, item''⟩ := res
    have heq : item'' = item' := by simpa [Except.map] using hrun
    exact ⟨response, item'', hptr, heq ▸ hfilled⟩

/-- A response whose first reply is no answer. -/
theorem not_answers {first : RedisReply} {rest : List RedisReply} (hfirst : ¬first.Answers) :
    ¬∃ reply rest', some (first :: rest) = some (reply :: rest') ∧ reply.Answers := by
  rintro ⟨reply, rest', heq, hreply⟩
  obtain ⟨rfl, -⟩ : first = reply ∧ rest = rest' := by simpa using heq
  exact hfirst hreply

/-- An item without values, for a reply that has none. -/
theorem filled_of_refused (hf : item.Fresh) (hvalues : rpc.values = [])
    (hreply : ¬∃ reply rest, rpc.response = some (reply :: rest) ∧ reply.Answers) (msg : Bytes) :
    Filled rpc { item with errorMsg := msg, code := .otherError } where
  success := iff_of_false (by simp) hreply
  other _ := rfl
  strVec := by rw [hvalues]; exact hf.strVec
  lenVec := by rw [hvalues]; exact hf.lenVec
  total := by
    show item.totalResultStrSize = item.resultStrLenVec.sum
    rw [hf.total, hf.lenVec]
    rfl
  guarded data hdata := by
    rw [show RedisResultItem.resultStrVec _ = item.resultStrVec from rfl, hf.strVec] at hdata
    exact absurd hdata List.not_mem_nil

/-- An item with the one value of a nil reply. -/
theorem filled_of_nil (hf : item.Fresh) (hvalues : rpc.values = [none])
    (hreply : ∃ reply rest, rpc.response = some (reply :: rest) ∧ reply.Answers) (msg : Bytes) :
    Filled rpc { item with
      errorMsg := msg
      code := .success
      resultStrVec := item.resultStrVec ++ [none]
      resultStrLenVec := item.resultStrLenVec ++ [0] } where
  success := iff_of_true rfl hreply
  other hcode := absurd rfl hcode
  strVec := by rw [hvalues, hf.strVec]; rfl
  lenVec := by rw [hvalues, hf.lenVec]; rfl
  total := by
    show item.totalResultStrSize = (item.resultStrLenVec ++ [0]).sum
    rw [hf.total, hf.lenVec]
    rfl
  guarded data hdata := by
    rw [show RedisResultItem.resultStrVec _ = item.resultStrVec ++ [none] from rfl, hf.strVec] at hdata
    simp at hdata

/-- An item into which the values of a reply have been pushed. -/
theorem filled_of_pushed (hf : item.Fresh)
    (hreply : ∃ reply rest, rpc.response = some (reply :: rest) ∧ reply.Answers) :
    Filled rpc { rpc.values.foldl RedisResultItem.push item with code := .success, resultGuard := true } := by
  obtain ⟨-, -, hstr, hlen⟩ := foldl_push rpc.values item
  have htotal := foldl_push_total rpc.values item
  rw [hf.strVec, List.nil_append] at hstr
  rw [hf.lenVec, List.nil_append] at hlen
  rw [hf.total, Nat.zero_add, ← hlen] at htotal
  exact
    { success := iff_of_true rfl hreply
      other := fun hcode => absurd rfl hcode
      strVec := hstr
      lenVec := hlen
      total := htotal
      guarded := fun _ _ => rfl }

/-- **`check_suc_rpc_response` fills a fresh item as its reply calls for exactly when the
response is not one without replies**: that one it resets and then asks for its size. -/
theorem reply_filled_iff (hr : rpc.failed = false) (hf : item.Fresh) :
    ChecksResponse rpc redisClientId key item ↔ rpc.response ≠ some [] := by
  constructor
  · rintro ⟨response, item', hrun, -⟩ hempty
    have hfault : ResponsePtr.checkSucRpcResponse (some []) redisClientId key rpc.errorText item =
        .error .nullDeref := rfl
    rw [hempty, hfault] at hrun
    exact absurd hrun (by simp)
  · intro hne
    obtain ⟨failed, errorText, response⟩ := rpc
    obtain rfl : failed = false := hr
    rcases response with _ | (_ | ⟨_ | data | message | value | elements, rest⟩)
    · exact checksResponse_of_item rfl (filled_of_refused hf rfl (by simp) _)
    · exact absurd rfl hne
    · -- nil: the response is reset, and nothing points into it
      have hreply : ∃ reply rest', some (RedisReply.nil :: rest) = some (reply :: rest') ∧ reply.Answers :=
        ⟨.nil, rest, rfl, .inl rfl⟩
      exact checksResponse_of_item rfl (filled_of_nil hf rfl hreply _)
    · exact checksResponse_of_item rfl (filled_of_pushed hf ⟨.str data, rest, rfl, .inr (.inl rfl)⟩)
    · exact checksResponse_of_item rfl (filled_of_refused hf rfl (not_answers (by nofun)) _)
    · exact checksResponse_of_item rfl (filled_of_refused hf rfl (not_answers (by nofun)) _)
    · exact checksResponse_of_item rfl (filled_of_pushed hf ⟨.array elements, rest, rfl, .inr (.inr rfl)⟩)

/-- An array with a string, a nil and an empty string. -/
def mixed : RpcReply := { response := some [.array [some [118], none, some []]] }

theorem reply_filled_mixed : mixed.failed = false ∧ RedisResultItem.Fresh {} ∧
    (ChecksResponse mixed [] [107] {} ↔ mixed.response ≠ some []) := by
  have hf : RedisResultItem.Fresh {} := ⟨rfl, rfl, rfl, rfl⟩
  exact ⟨rfl, hf, reply_filled_iff rfl hf⟩

example : (ResponsePtr.checkSucRpcResponse mixed.response [] [107] [] {}).map (fun res => res.2.resultStrLenVec) =
    .ok [1, 0, 0] := rfl

/-- A response without replies. -/
def unanswered : RpcReply := { response := some [] }

/-- The code asks the response for its size after it has reset it. -/
theorem reply_unfilled : ¬∀ (rpc : RpcReply) (redisClientId : Str) (key : Bytes) (item : RedisResultItem),
    rpc.failed = false → item.Fresh → ChecksResponse rpc redisClientId key item := by
  intro hall
  obtain ⟨response, item', hrun, -⟩ := hall unanswered [] [] {} rfl ⟨rfl, rfl, rfl, rfl⟩
  have hfault : ResponsePtr.checkSucRpcResponse unanswered.response [] [] unanswered.errorText {} =
      .error .nullDeref := rfl
  rw [hfault] at hrun
  exact absurd hrun (by simp)

end Graphize
