import Graphize.Spec.RedisRun

/-!
# Several requests at one node

The requests that a `RedisService` node serves at the same time work on the same fetch
infos and the same cache. A call of `do_service` starts with `make_up_fetch_info_vec`, in
one step; after it every operation of a thread is a step. A call of `do_service`, or a
callback, that nothing interrupts is a thread that is given its turns one after the other.
-/

namespace Graphize

structure RedisWorld where
  node : RedisNode
  requests : List Request

/-- What happens next: a request arrives, or thread `t` of request `r` runs. -/
inductive Turn (ρ : Type*)
  | doService (req : ρ) (backend : Backend)
  | thread (r t : ℕ)

/-- An exception that nobody catches and undefined behaviour end the process. -/
def RedisWorld.ended (w : RedisWorld) : Bool := w.requests.any fun q => q.crash.isSome

def RedisWorld.step {ρ : Type*} (env : RedisEnv ρ) (w : RedisWorld) (turn : Turn ρ) : Option RedisWorld :=
  if w.ended then none
  else
    match turn with
    | .doService req backend =>
      let s := w.node.doService env req backend
      some ⟨s.node, w.requests ++ [s.request]⟩
    | .thread r t =>
      match w.requests[r]? with
      | none => none
      | some q => (Serving.step env ⟨w.node, q⟩ t).map fun s => ⟨s.node, w.requests.set r s.request⟩

end Graphize
