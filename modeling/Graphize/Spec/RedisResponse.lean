import Graphize.Spec.Redis

/-!
# `check_suc_rpc_response`, one dereference after the other

`checkSucRpcResponse` of `Spec/Redis` says what the function makes of each reply. Here
it is written statement by statement, with the `shared_ptr` that it resets on the way:
each `response->` asks whether the pointer is null.
-/

namespace Graphize

/-! ## `brpc::RedisReply` -/

/-- `is_nil`. -/
def RedisReply.isNil : RedisReply → Bool
  | .nil => true
  | _ => false

/-- `is_string`. -/
def RedisReply.isString : RedisReply → Bool
  | .str _ => true
  | _ => false

/-- `is_array`. -/
def RedisReply.isArray : RedisReply → Bool
  | .array _ => true
  | _ => false

/-- `data`, which is empty for a reply without text. -/
def RedisReply.data : RedisReply → Bytes
  | .str data => data
  | _ => []

/-- `error_message`, which is empty for a reply that is no error. -/
def RedisReply.errorMessage : RedisReply → Bytes
  | .error message => message
  | _ => []

/-- The elements of an array. -/
def RedisReply.elements : RedisReply → List (Option Bytes)
  | .array elements => elements
  | _ => []

/-! ## The pointer -/

/-- `std::shared_ptr<brpc::RedisResponse>`: null, or the replies of the response. -/
abbrev ResponsePtr := Option (List RedisReply)

namespace ResponsePtr

/-- `operator->`. -/
def deref : ResponsePtr → Except Fault (List RedisReply)
  | some replies => .ok replies
  | none => .error .nullDeref

/-- `response->reply_size()`. -/
def replySize (response : ResponsePtr) : Except Fault ℕ := do
  let replies ← response.deref
  return replies.length

/-- `response->reply(index)`. Past the end brpc answers nil. -/
def reply (response : ResponsePtr) (index : ℕ) : Except Fault RedisReply := do
  let replies ← response.deref
  return replies.getD index .nil

/-- `reset()`. -/
def reset : ResponsePtr := none

/-- `RedisService::check_suc_rpc_response`: what it leaves in `response`, which it takes
by reference, and in `redis_result_item`. -/
def checkSucRpcResponse (response : ResponsePtr) (redisClientId : Str) (key errorText : Bytes)
    (item : RedisResultItem) : Except Fault (ResponsePtr × RedisResultItem) := do
  if response = none then
    return (response, { item with
      errorMsg := ascii "response is nullptr or dynamic_pointer_cast failed, key:".toList ++ key ++
        errorTail redisClientId errorText
      code := .otherError })
  if (← response.replySize) ≤ 0 then
    let response := reset
    return (response, { item with
      errorMsg := ascii " reply_size: ".toList ++ ascii (toStr (← response.replySize)) ++
        ascii " key:".toList ++ key ++ ascii "redis_id: ".toList ++ ascii redisClientId ++
        ascii " error_msg: ".toList ++ errorText
      code := .otherError })
  if (← response.reply 0).isNil then
    let response := reset
    return (response, { item with
      errorMsg := ascii " reply is nil; key:".toList ++ key ++ errorTail redisClientId errorText
      code := .success
      resultStrVec := item.resultStrVec ++ [none]
      resultStrLenVec := item.resultStrLenVec ++ [0] })
  if !(← response.reply 0).isString && !(← response.reply 0).isArray then
    let errorMsg := ascii " reply is not a string or array; key:".toList ++ key ++
      errorTail redisClientId errorText ++ ascii " error_message: ".toList ++
      (← response.reply 0).errorMessage
    return (reset, { item with errorMsg := errorMsg, code := .otherError })
  let item := { item with code := .success }
  let item ←
    if (← response.reply 0).isString then
      pure (item.push (some (← response.reply 0).data))
    else
      pure ((← response.reply 0).elements.foldl RedisResultItem.push item)
  return (response, { item with resultGuard := response.isSome })

end ResponsePtr

end Graphize
