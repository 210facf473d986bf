import Graphize.Spec.Node
import Graphize.Lib.Machine
import Mathlib.Data.List.Basic

/-!
# Connection pools

`ConnectPool` of `frame/client/redis/connect_pool.h`, and its users. `borrow` and
`release` hold the pool's mutex, so any use by any number of threads is one sequence
of calls; `Lending` keeps, beside the pool, who has which connection.
-/

namespace Graphize

universe u v

/-- `ConnectPool<Conn>`, a connection being known by its address. The builder is its
sequence of results, one a call: it throws, or returns a pointer that may be null. -/
structure ConnectPool (Conn : Type u) where
  buildConnection : ℕ → Except Str (Option Conn)
  /-- how often the builder has been called -/
  calls : ℕ := 0
  poolSize : UInt32 := 0
  maxSize : UInt32 := 0
  borrowSize : UInt32 := 0
  busy : UInt32 := 0
  connList : List Conn := []

namespace ConnectPool

variable {Conn : Type u}

/-- One round of the constructor's loop. The constructor is `noexcept`: a builder that
throws is `std::terminate`, which is `none`. -/
def buildOne (p : ConnectPool Conn) : Option (ConnectPool Conn) :=
  match p.buildConnection p.calls with
  | .error _ => none
  | .ok none => some { p with calls := p.calls + 1 }
  | .ok (some conn) => some { p with calls := p.calls + 1, connList := p.connList ++ [conn] }

/-- The members as the constructor's initialiser list sets them. -/
def initList (poolSize maxSize : Int32) (buildConnection : ℕ → Except Str (Option Conn)) :
    ConnectPool Conn where
  buildConnection := buildConnection
  poolSize := poolSize.toUInt32
  maxSize := maxSize.toUInt32

/-- `ConnectPool::ConnectPool(pool_size, max_size, build_connection)`. -/
def construct (poolSize maxSize : Int32) (buildConnection : ℕ → Except Str (Option Conn)) :
    Option (ConnectPool Conn) :=
  let p := initList poolSize maxSize buildConnection
  -- the `throw` about the two sizes leaves a `noexcept` constructor as well
  if p.poolSize > maxSize.toUInt32 then none
  else (List.range p.poolSize.toNat).foldlM (fun p _ => p.buildOne) p

/-- The bookkeeping of `borrow`, once it has its connection. -/
def countBorrow (p : ConnectPool Conn) : ConnectPool Conn :=
  if p.borrowSize + 1 > p.poolSize then
    { p with borrowSize := p.borrowSize + 1, busy := p.busy + 1 }
  else { p with borrowSize := p.borrowSize + 1, busy := 0 }

/-- `ConnectPool::borrow`: the connection with what it stores in `*borrow_size`, or the
builder's exception. -/
def borrow (p : ConnectPool Conn) : Except Str (Option Conn × Int32) × ConnectPool Conn :=
  match p.connList with
  | conn :: conns =>
    let p := { p with connList := conns }.countBorrow
    (.ok (some conn, p.borrowSize.toInt32), p)
  | [] =>
    match p.buildConnection p.calls with
    | .error e => (.error e, { p with calls := p.calls + 1 })
    | .ok conn =>
      let p := { p with calls := p.calls + 1 }.countBorrow
      (.ok (conn, p.borrowSize.toInt32), p)

/-- `ConnectPool::release`. -/
def release (p : ConnectPool Conn) : Option Conn → Bool × ConnectPool Conn
  | none => (false, p)
  | some conn =>
    -- a `_borrow_size` of 0 is only logged
    let p := { p with borrowSize := p.borrowSize - 1 }
    if p.connList.length ≥ p.maxSize.toNat then (false, p)
    else if p.connList.length < p.poolSize.toNat then
      (true, { p with connList := p.connList ++ [conn] })
    else if p.busy > 0 then (true, { p with connList := p.connList ++ [conn] })
    else (true, p)

end ConnectPool

/-- A pool with the connections its users hold. -/
structure Lending (User : Type v) (Conn : Type u) where
  pool : ConnectPool Conn
  lent : List (User × Conn) := []

/-- A call on the pool. -/
inductive PoolCall (User : Type v) (Conn : Type u)
  | borrow (user : User)
  | release (user : User) (conn : Conn)

namespace Lending

variable {User : Type v} {Conn : Type u} [DecidableEq User] [DecidableEq Conn]

/-- One call. A user can only return a connection that it holds; a null pointer and an
exception lend nothing. -/
def step (w : Lending User Conn) : PoolCall User Conn → Option (Lending User Conn)
  | .borrow user =>
    match w.pool.borrow with
    | (.ok (some conn, _), p) => some { pool := p, lent := (user, conn) :: w.lent }
    | (.ok (none, _), p) => some { w with pool := p }
    | (.error _, p) => some { w with pool := p }
  | .release user conn =>
    if (user, conn) ∈ w.lent then
      some { pool := (w.pool.release (some conn)).2, lent := w.lent.erase (user, conn) }
    else none

/-- The live connections: those in the pool and those lent. -/
def live (w : Lending User Conn) : List Conn := w.pool.connList ++ w.lent.map Prod.snd

end Lending

end Graphize
