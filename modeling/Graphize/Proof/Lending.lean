import Graphize.Spec.ConnectPool
import Mathlib.Data.List.Nodup
import Mathlib.Data.List.Perm.Basic
import Mathlib.Tactic.Common

/-!
# What a connection pool guarantees

* `Lending.Move`: everything a call can do, the one case analysis of `borrow` and
  `release` (`move_of_step`).
* `connectPool_live_iff`: along any sequence of calls the live connections stay within
  `max_size` exactly when no call builds a connection while `max_size` are lent.
  Nothing in `borrow` prevents that (`connectPool_burst`).
* `connectPool_exclusive`: with a builder of fresh connections no connection is lent
  twice, `_borrow_size` counts the lent ones, and neither of the pool's two sizes is
  violated by the idle list.
-/

namespace Graphize

universe u v

variable {User : Type v} {Conn : Type u}

/-! ## The constructor -/

namespace ConnectPool

/-- The pool after `n` rounds of the constructor's loop. -/
structure Filled (p₀ : ConnectPool Conn) (n : ℕ) (p : ConnectPool Conn) : Prop where
  same : p = { p₀ with calls := n, connList := p.connList }
  conns : ∀ conn ∈ p.connList, ∃ i < n, p₀.buildConnection i = .ok (some conn)
  length : p.connList.length ≤ n

theorem filled_buildOne {p₀ p p' : ConnectPool Conn} {n : ℕ} (hp : p₀.Filled n p)
    (h : p.buildOne = some p') :
    p₀.Filled (n + 1) p' ∧ (p'.connList = p.connList ∧ p₀.buildConnection n = .ok none ∨
      ∃ conn, p'.connList = p.connList ++ [conn] ∧ p₀.buildConnection n = .ok (some conn)) := by
  have hb : p.buildConnection p.calls = p₀.buildConnection n := by rw [hp.same]
  have hold : ∀ conn ∈ p.connList, ∃ i < n + 1, p₀.buildConnection i = .ok (some conn) := by
    intro conn hc
    obtain ⟨i, hi, he⟩ := hp.conns conn hc
    exact ⟨i, by omega, he⟩
  have hlen := hp.length
  unfold buildOne at h
  rw [hb] at h
  split at h
  · cases h
  · rename_i he
    simp only [Option.some.injEq] at h
    subst h
    refine ⟨⟨?_, hold, by show p.connList.length ≤ n + 1; omega⟩, .inl ⟨rfl, he⟩⟩
    rw [hp.same]
  · rename_i conn he
    simp only [Option.some.injEq] at h
    subst h
    refine ⟨⟨?_, ?_, ?_⟩, .inr ⟨conn, rfl, he⟩⟩
    · rw [hp.same]
    · intro c hc
      rcases List.mem_append.1 hc with hc | hc
      · exact hold c hc
      · rw [List.mem_singleton.1 hc]; exact ⟨n, by omega, he⟩
    · simp only [List.length_append, List.length_singleton]; omega

/-- The constructor's loop, with one more property kept by each round. -/
theorem filled_loop {p₀ : ConnectPool Conn} (h₀ : p₀.calls = 0 ∧ p₀.connList = [])
    (I : ℕ → ConnectPool Conn → Prop) (hI₀ : I 0 p₀)
    (hI : ∀ n p p', I n p → p₀.Filled n p → p.buildOne = some p' → I (n + 1) p') :
    ∀ n p, (List.range n).foldlM (fun p _ => p.buildOne) p₀ = some p → p₀.Filled n p ∧ I n p := by
  intro n
  induction n with
  | zero =>
    intro p h
    simp only [List.range_zero, List.foldlM_nil, Option.pure_def, Option.some.injEq] at h
    subst h
    refine ⟨⟨?_, by simp [h₀.2], by simp [h₀.2]⟩, hI₀⟩
    rw [← h₀.1]
  | succ n ih =>
    intro p h
    rw [List.range_succ, List.foldlM_append] at h
    simp only [List.foldlM_cons, List.foldlM_nil, Option.bind_eq_bind, Option.pure_def,
      Option.bind_eq_some_iff, Option.some.injEq, exists_eq_right] at h
    obtain ⟨q, hq, hqp⟩ := h
    obtain ⟨hf, hq'⟩ := ih q hq
    exact ⟨(filled_buildOne hf hqp).1, hI n q p hq' hf hqp⟩

end ConnectPool

/-! ## One call -/

namespace Lending

variable {w w' : Lending User Conn}

/-- Everything a call can do to the pool and its users. -/
inductive Move (w : Lending User Conn) : PoolCall User Conn → Lending User Conn → Prop
  /-- an idle connection is lent -/
  | lend (user : User) (conn : Conn) (conns : List Conn) (busy : UInt32)
      (idle : w.pool.connList = conn :: conns) :
      Move w (.borrow user)
        { pool := { w.pool with connList := conns, borrowSize := w.pool.borrowSize + 1, busy := busy }
          lent := (user, conn) :: w.lent }
  /-- a connection is built and lent -/
  | build (user : User) (conn : Conn) (busy : UInt32) (idle : w.pool.connList = [])
      (built : w.pool.buildConnection w.pool.calls = .ok (some conn)) :
      Move w (.borrow user)
        { pool := { w.pool with calls := w.pool.calls + 1, borrowSize := w.pool.borrowSize + 1, busy := busy }
          lent := (user, conn) :: w.lent }
  /-- the builder gives no connection -/
  | noConn (user : User) (size busy : UInt32) (idle : w.pool.connList = [])
      (built : ∀ conn, w.pool.buildConnection w.pool.calls ≠ .ok (some conn)) :
      Move w (.borrow user)
        { w with pool := { w.pool with calls := w.pool.calls + 1, borrowSize := size, busy := busy } }
  /-- a returned connection is dropped -/
  | drop (user : User) (conn : Conn) (held : (user, conn) ∈ w.lent)
      (full : w.pool.maxSize.toNat ≤ w.pool.connList.length ∨
        w.pool.poolSize.toNat ≤ w.pool.connList.length) (lent : List (User × Conn))
      (rest : w.lent.Perm ((user, conn) :: lent)) :
      Move w (.release user conn)
        { pool := { w.pool with borrowSize := w.pool.borrowSize - 1 }, lent := lent }
  /-- a returned connection is kept -/
  | keep (user : User) (conn : Conn) (held : (user, conn) ∈ w.lent)
      (room : w.pool.connList.length < w.pool.maxSize.toNat) (lent : List (User × Conn))
      (rest : w.lent.Perm ((user, conn) :: lent)) :
      Move w (.release user conn)
        { pool := { w.pool with borrowSize := w.pool.borrowSize - 1, connList := w.pool.connList ++ [conn] }
          lent := lent }

theorem countBorrow_eq (p : ConnectPool Conn) :
    ∃ busy, p.countBorrow = { p with borrowSize := p.borrowSize + 1, busy := busy } := by
  unfold ConnectPool.countBorrow
  split
  · exact ⟨_, rfl⟩
  · exact ⟨_, rfl⟩

/-- What no call changes. -/
theorem Move.same {call : PoolCall User Conn} (h : w.Move call w') :
    w'.pool.buildConnection = w.pool.buildConnection ∧ w'.pool.poolSize = w.pool.poolSize ∧
      w'.pool.maxSize = w.pool.maxSize := by
  cases h <;> exact ⟨rfl, rfl, rfl⟩

variable [DecidableEq User] [DecidableEq Conn]

/-- **Inversion**: a call is one of the moves. -/
theorem move_of_step {call : PoolCall User Conn} (h : w.step call = some w') : w.Move call w' := by
  cases call with
  | borrow user =>
    obtain ⟨⟨build, calls, poolSize, maxSize, borrowSize, busy, connList⟩, lent⟩ := w
    simp only [step, ConnectPool.borrow] at h
    cases connList with
    | cons conn conns =>
      obtain ⟨busy', he⟩ := countBorrow_eq ⟨build, calls, poolSize, maxSize, borrowSize, busy, conns⟩
      simp only [he, Option.some.injEq] at h
      rw [← h]
      exact .lend user conn conns busy' rfl
    | nil =>
      cases hb : build calls with
      | error e =>
        simp only [hb, Option.some.injEq] at h
        rw [← h]
        exact .noConn user borrowSize busy rfl (by simp [hb])
      | ok conn =>
        obtain ⟨busy', he⟩ := countBorrow_eq ⟨build, calls + 1, poolSize, maxSize, borrowSize, busy, []⟩
        simp only [hb] at h
        cases conn with
        | none =>
          simp only [Option.some.injEq] at h
          rw [← h, he]
          exact .noConn user _ busy' rfl (by simp [hb])
        | some conn =>
          simp only [Option.some.injEq] at h
          rw [← h, he]
          exact .build user conn busy' rfl hb
  | release user conn =>
    simp only [step] at h
    split at h
    · rename_i held
      have hperm := List.perm_cons_erase held
      simp only [Option.some.injEq, ConnectPool.release] at h
      subst h
      -- the four exits of `release`
      split
      · rename_i hmax
        exact .drop user conn held (.inl hmax) _ hperm
      · rename_i hmax
        split
        · exact .keep user conn held (by omega) _ hperm
        · rename_i hpool
          split
          · exact .keep user conn held (by omega) _ hperm
          · exact .drop user conn held (.inr (by omega)) _ hperm
    · cases h

end Lending

/-! ## The limit -/

namespace Lending

variable {w w' : Lending User Conn}

/-- The call does not build a connection while `max_size` are lent. -/
def Roomy (w : Lending User Conn) : PoolCall User Conn → Prop
  | .borrow _ => w.pool.connList = [] →
      (∃ conn, w.pool.buildConnection w.pool.calls = .ok (some conn)) →
      w.lent.length < w.pool.maxSize.toNat
  | .release _ _ => True

/-- Only a building borrow adds a live connection. -/
theorem Move.live_length {call : PoolCall User Conn} (h : w.Move call w') :
    w'.live.length ≤ w.live.length ∨
      (∃ user conn, call = .borrow user ∧ w.pool.connList = [] ∧
        w.pool.buildConnection w.pool.calls = .ok (some conn)) ∧
      w.live.length = w.lent.length ∧ w'.live.length = w.lent.length + 1 := by
  cases h with
  | lend user conn conns busy idle =>
    refine .inl ?_
    simp only [live, idle, List.length_append, List.length_map, List.length_cons]
    omega
  | build user conn busy idle built =>
    exact .inr ⟨⟨user, conn, rfl, idle, built⟩, by simp [live, idle], by simp [live, idle]⟩
  | noConn user size busy idle built => exact .inl (le_refl _)
  | drop user conn held full lent rest =>
    have := rest.length_eq
    refine .inl ?_
    simp only [live, List.length_append, List.length_map, List.length_cons] at this ⊢
    omega
  | keep user conn held room lent rest =>
    have := rest.length_eq
    refine .inl ?_
    simp only [live, List.length_append, List.length_map, List.length_cons, List.length_nil] at this ⊢
    omega

/-- A roomy call keeps the live connections within the limit. -/
theorem Move.live_le {call : PoolCall User Conn} (h : w.Move call w') (hr : w.Roomy call)
    (hw : w.live.length ≤ w.pool.maxSize.toNat) : w'.live.length ≤ w.pool.maxSize.toNat := by
  rcases h.live_length with hle | ⟨⟨user, conn, rfl, idle, built⟩, -, hlen⟩
  · omega
  · have := hr idle ⟨conn, built⟩
    omega

/-- A call that ends within the limit was roomy. -/
theorem Move.roomy {call : PoolCall User Conn} (h : w.Move call w')
    (hw : w'.live.length ≤ w.pool.maxSize.toNat) : w.Roomy call := by
  cases h with
  | lend user conn conns busy idle => intro h; rw [idle] at h; cases h
  | build user conn busy idle built =>
    intro _ _
    simp only [live, idle, List.nil_append, List.map_cons, List.length_cons, List.length_map] at hw
    omega
  | noConn user size busy idle built => rintro - ⟨conn, hc⟩; exact absurd hc (built conn)
  | drop user conn held full lent rest => trivial
  | keep user conn held room lent rest => trivial

end Lending

/-! ## Exclusive use -/

/-- The builder's results are connections, each built once. -/
structure FreshBuilder (build : ℕ → Except Str (Option Conn)) : Prop where
  conn : ∀ n, ∃ conn, build n = .ok (some conn)
  fresh : ∀ m n conn, build m = .ok (some conn) → build n = .ok (some conn) → m = n

namespace Lending

variable {w w' : Lending User Conn}

/-- What holds of a pool and its users after any calls. -/
structure Exclusive (w : Lending User Conn) : Prop where
  /-- a live connection is idle once or lent once -/
  nodup : w.live.Nodup
  /-- and was built -/
  built : ∀ conn ∈ w.live, ∃ i < w.pool.calls, w.pool.buildConnection i = .ok (some conn)
  borrowed : w.pool.borrowSize.toNat = w.lent.length
  idle_le : w.pool.connList.length ≤ w.pool.maxSize.toNat
  le_live : w.pool.poolSize.toNat ≤ w.live.length

theorem Exclusive.borrowed_add (hw : w.Exclusive) (hfew : w.lent.length < 2 ^ 32 - 1) :
    (w.pool.borrowSize + 1).toNat = w.lent.length + 1 := by
  rw [UInt32.toNat_add, hw.borrowed]
  show (w.lent.length + 1) % 2 ^ 32 = w.lent.length + 1
  omega

theorem Exclusive.borrowed_sub (hw : w.Exclusive) {x : User × Conn} {lent : List (User × Conn)}
    (rest : w.lent.Perm (x :: lent)) : (w.pool.borrowSize - 1).toNat = lent.length := by
  have hlen := rest.length_eq
  rw [List.length_cons] at hlen
  have h1 : (1 : UInt32) ≤ w.pool.borrowSize := by
    rw [UInt32.le_iff_toNat_le, hw.borrowed]
    show 1 ≤ w.lent.length
    omega
  rw [UInt32.toNat_sub_of_le _ _ h1, hw.borrowed]
  show w.lent.length - 1 = lent.length
  omega

/-- The live connections after a return: those kept, and the returned one. -/
theorem live_perm_of_rest {user : User} {conn : Conn} {lent : List (User × Conn)}
    (rest : w.lent.Perm ((user, conn) :: lent)) :
    w.live.Perm (conn :: (w.pool.connList ++ lent.map Prod.snd)) := by
  have h := (rest.map Prod.snd).append_left w.pool.connList
  exact h.trans List.perm_middle

/-- **Every call keeps the use exclusive.** -/
theorem Exclusive.move (hw : w.Exclusive) (hb : FreshBuilder w.pool.buildConnection)
    (hsizes : w.pool.poolSize.toNat ≤ w.pool.maxSize.toNat)
    (hfew : w.lent.length < 2 ^ 32 - 1) {call : PoolCall User Conn} (h : w.Move call w') :
    w'.Exclusive := by
  cases h with
  | lend user conn conns busy idle =>
    have hperm : w.live.Perm (conns ++ conn :: w.lent.map Prod.snd) := by
      rw [live, idle]
      exact List.perm_middle.symm
    refine ⟨hperm.nodup_iff.1 hw.nodup, fun c hc => hw.built c (hperm.mem_iff.2 hc),
      hw.borrowed_add hfew, ?_, ?_⟩
    · have := hw.idle_le
      rw [idle, List.length_cons] at this
      show conns.length ≤ w.pool.maxSize.toNat
      omega
    · have := hw.le_live
      rw [hperm.length_eq] at this
      exact this
  | build user conn busy idle built =>
    have hlive : w.live = w.lent.map Prod.snd := by rw [live, idle, List.nil_append]
    have hnew : conn ∉ w.live := by
      intro hc
      obtain ⟨i, hi, he⟩ := hw.built conn hc
      have := hb.fresh i w.pool.calls conn he built
      omega
    have hlive' : w.pool.connList ++ ((user, conn) :: w.lent).map Prod.snd = conn :: w.live := by
      rw [idle, hlive, List.nil_append, List.map_cons]
    refine ⟨?_, fun c hc => ?_, hw.borrowed_add hfew, hw.idle_le, ?_⟩
    · show (w.pool.connList ++ ((user, conn) :: w.lent).map Prod.snd).Nodup
      rw [hlive']
      exact List.nodup_cons.2 ⟨hnew, hw.nodup⟩
    · change c ∈ w.pool.connList ++ ((user, conn) :: w.lent).map Prod.snd at hc
      rw [hlive'] at hc
      rcases List.mem_cons.1 hc with rfl | hc
      · exact ⟨w.pool.calls, Nat.lt_succ_self _, built⟩
      · obtain ⟨i, hi, he⟩ := hw.built c hc
        exact ⟨i, Nat.lt_succ_of_lt hi, he⟩
    · show w.pool.poolSize.toNat ≤ (w.pool.connList ++ ((user, conn) :: w.lent).map Prod.snd).length
      rw [hlive', List.length_cons]
      have := hw.le_live
      omega
  | noConn user size busy idle built =>
    obtain ⟨conn, hc⟩ := hb.conn w.pool.calls
    exact absurd hc (built conn)
  | drop user conn held full lent rest =>
    have hperm := live_perm_of_rest rest
    have hnodup := hperm.nodup_iff.1 hw.nodup
    refine ⟨(List.nodup_cons.1 hnodup).2, fun c hc => ?_, hw.borrowed_sub rest, hw.idle_le, ?_⟩
    · exact hw.built c (hperm.mem_iff.2 (List.mem_cons_of_mem _ hc))
    · show w.pool.poolSize.toNat ≤ (w.pool.connList ++ lent.map Prod.snd).length
      rw [List.length_append]
      -- both exits leave `pool_size` idle connections
      omega
  | keep user conn held room lent rest =>
    have hperm : w.live.Perm (w.pool.connList ++ [conn] ++ lent.map Prod.snd) := by
      rw [List.append_assoc]
      exact (live_perm_of_rest rest).trans List.perm_middle.symm
    refine ⟨hperm.nodup_iff.1 hw.nodup, fun c hc => hw.built c (hperm.mem_iff.2 hc),
      hw.borrowed_sub rest, ?_, ?_⟩
    · show (w.pool.connList ++ [conn]).length ≤ w.pool.maxSize.toNat
      rw [List.length_append, List.length_singleton]
      omega
    · have := hw.le_live
      rw [hperm.length_eq] at this
      exact this

end Lending

/-! ## The two sizes -/

theorem toNat_toUInt32 {x : Int32} (hx : 0 ≤ x) : (x.toUInt32.toNat : ℤ) = x.toInt := by
  rw [Int32.toNat_toUInt32_of_le hx]
  have h : (0 : Int32).toInt ≤ x.toInt := Int32.le_iff_toInt_le.1 hx
  exact Int.toNat_of_nonneg h

/-- A pool as its constructor leaves it. -/
theorem construct_filled {poolSize maxSize : Int32} {build : ℕ → Except Str (Option Conn)}
    {p : ConnectPool Conn} (h : ConnectPool.construct poolSize maxSize build = some p)
    (I : ℕ → ConnectPool Conn → Prop) (hI₀ : I 0 (.initList poolSize maxSize build))
    (hI : ∀ n p p', I n p → (ConnectPool.initList poolSize maxSize build).Filled n p →
      p.buildOne = some p' → I (n + 1) p') :
    (ConnectPool.initList poolSize maxSize build).Filled poolSize.toUInt32.toNat p ∧
      I poolSize.toUInt32.toNat p := by
  unfold ConnectPool.construct at h
  simp only at h
  split at h
  · cases h
  · exact ConnectPool.filled_loop ⟨rfl, rfl⟩ I hI₀ hI _ _ h

section Claims

variable {poolSize maxSize : Int32} {build : ℕ → Except Str (Option Conn)} {p : ConnectPool Conn}

/-- A new pool is in exclusive use. -/
theorem exclusive_construct (h₀ : 0 ≤ poolSize) (hle : poolSize ≤ maxSize) (hb : FreshBuilder build)
    (hp : ConnectPool.construct poolSize maxSize build = some p) :
    Lending.Exclusive ({ pool := p } : Lending User Conn) := by
  have hsizes := UInt32.le_iff_toNat_le.1 (Int32.toUInt32_le h₀ hle)
  -- each round pushes a connection that no earlier round has pushed
  obtain ⟨hf, hnodup, hlen⟩ := construct_filled hp
    (fun n p => p.connList.Nodup ∧ p.connList.length = n) ⟨List.nodup_nil, rfl⟩ (by
      rintro n q q' ⟨hnodup, hlen⟩ hq hbuild
      rcases (ConnectPool.filled_buildOne hq hbuild).2 with ⟨-, he⟩ | ⟨conn, hconn, he⟩
      · obtain ⟨conn, hc⟩ := hb.conn n
        exact absurd (he.symm.trans hc) (by simp)
      · rw [hconn, List.length_append, hlen]
        refine ⟨List.nodup_append.2 ⟨hnodup, List.nodup_singleton _, ?_⟩, rfl⟩
        intro a ha b hb' hab
        rw [List.mem_singleton.1 hb'] at hab
        obtain ⟨i, hi, hi'⟩ := hq.conns a ha
        rw [hab] at hi'
        have := hb.fresh i n conn hi' he
        omega)
  have hlive : Lending.live ({ pool := p } : Lending User Conn) = p.connList := by
    simp [Lending.live]
  have hs : p.poolSize = poolSize.toUInt32 ∧ p.maxSize = maxSize.toUInt32 := by
    rw [hf.same]; exact ⟨rfl, rfl⟩
  refine ⟨by rw [hlive]; exact hnodup, ?_, by rw [hf.same]; rfl, ?_, ?_⟩
  · intro conn hc
    rw [hlive] at hc
    rw [hf.same]
    exact hf.conns conn hc
  · show p.connList.length ≤ p.maxSize.toNat
    rw [hs.2]
    omega
  · rw [hlive]
    show p.poolSize.toNat ≤ p.connList.length
    rw [hs.1]
    omega

/-- What holds of a pool made with these arguments, and of its users. -/
structure Lending.Managed (build : ℕ → Except Str (Option Conn)) (poolSize maxSize : Int32) (w : Lending User Conn) :
    Prop where
  built : w.pool.buildConnection = build
  poolSize_eq : w.pool.poolSize = poolSize.toUInt32
  maxSize_eq : w.pool.maxSize = maxSize.toUInt32
  exclusive : w.Exclusive

theorem managed_construct (h₀ : 0 ≤ poolSize) (hle : poolSize ≤ maxSize) (hb : FreshBuilder build)
    (hp : ConnectPool.construct poolSize maxSize build = some p) :
    ({ pool := p } : Lending User Conn).Managed build poolSize maxSize := by
  obtain ⟨hf, -⟩ := construct_filled hp (fun _ _ => True) trivial (fun _ _ _ _ _ _ => trivial)
  refine ⟨?_, ?_, ?_, exclusive_construct h₀ hle hb hp⟩
  · rw [hf.same]; rfl
  · rw [hf.same]; rfl
  · rw [hf.same]; rfl

variable [DecidableEq User] [DecidableEq Conn]

/-- **The limit**: along any sequence of calls on a new pool, the live connections never
exceed `max_size` exactly when no call builds a connection while `max_size` are lent. -/
theorem connectPool_live_iff (h₀ : 0 ≤ poolSize) (hle : poolSize ≤ maxSize)
    (hp : ConnectPool.construct poolSize maxSize build = some p) (calls : List (PoolCall User Conn)) :
    Machine.Always Lending.step (fun w => (w.live.length : ℤ) ≤ maxSize.toInt) { pool := p } calls ↔
      Machine.Along Lending.step Lending.Roomy { pool := p } calls := by
  have hmax : (maxSize.toUInt32.toNat : ℤ) = maxSize.toInt := toNat_toUInt32 (Int32.le_trans h₀ hle)
  have hsizes := UInt32.le_iff_toNat_le.1 (Int32.toUInt32_le h₀ hle)
  obtain ⟨hf, -⟩ := construct_filled hp (fun _ _ => True) trivial (fun _ _ _ _ _ _ => trivial)
  have hps : p.maxSize = maxSize.toUInt32 := by rw [hf.same]; rfl
  constructor
  · refine Machine.along_of_always (fun w => w.pool.maxSize = maxSize.toUInt32) ?_ ?_ calls _ hps
    · intro w call w' hw h
      rw [(Lending.move_of_step h).same.2.2, hw]
    · intro w call w' hw h hQ
      refine (Lending.move_of_step h).roomy ?_
      rw [hw]
      show w'.live.length ≤ maxSize.toUInt32.toNat
      omega
  · refine Machine.always_of_along (fun w => w.pool.maxSize = maxSize.toUInt32 ∧
      w.live.length ≤ w.pool.maxSize.toNat) ?_ ?_ calls _ ⟨hps, ?_⟩
    · rintro w ⟨hw, hlen⟩
      rw [hw] at hlen
      show (w.live.length : ℤ) ≤ maxSize.toInt
      omega
    · rintro w call w' ⟨hw, hlen⟩ hr h
      have hm := Lending.move_of_step h
      rw [hm.same.2.2]
      exact ⟨hw, hm.live_le hr hlen⟩
    · have := hf.length
      rw [hps]
      simp only [Lending.live, List.map_nil, List.append_nil]
      omega

/-- A builder whose connections are `0, 1, 2, …`. -/
def countingBuilder (n : ℕ) : Except Str (Option ℕ) := .ok (some n)

/-- A new pool of one connection, at most two. -/
def pairPool : ConnectPool ℕ :=
  { buildConnection := countingBuilder, calls := 1, poolSize := 1, maxSize := 2, connList := [0] }

/-- Two users borrow, and one of them returns its connection. -/
theorem connectPool_live_pair :
    Machine.Always Lending.step (fun w : Lending ℕ ℕ => (w.live.length : ℤ) ≤ (2 : Int32).toInt)
      { pool := pairPool } [.borrow 0, .borrow 1, .release 0 0] := by
  have hp : ConnectPool.construct 1 2 countingBuilder = some pairPool := rfl
  refine (connectPool_live_iff (by decide) (by decide) hp _).2 ?_
  rintro w ⟨⟩
  refine ⟨fun _ _ => by decide, ?_⟩
  rintro w ⟨⟩
  refine ⟨fun _ _ => by decide, ?_⟩
  rintro w ⟨⟩
  exact ⟨trivial, trivial⟩

/-- **The limit is not kept**: nothing stops the second of two users of a pool with
`max_size` 1. -/
theorem connectPool_burst :
    ∃ (p : ConnectPool ℕ) (w : Lending ℕ ℕ), ConnectPool.construct 0 1 countingBuilder = some p ∧
      Machine.run Lending.step { pool := p } [.borrow 0, .borrow 1] = some w ∧
      ¬ (w.live.length : ℤ) ≤ (1 : Int32).toInt :=
  ⟨_, _, rfl, rfl, by decide⟩

/-- Every call with few connections lent keeps it. -/
theorem Lending.Managed.step (h₀ : 0 ≤ poolSize) (hle : poolSize ≤ maxSize) (hb : FreshBuilder build)
    {w w' : Lending User Conn} (hw : w.Managed build poolSize maxSize) (hfew : w.lent.length < 2 ^ 32 - 1)
    {call : PoolCall User Conn} (h : w.step call = some w') : w'.Managed build poolSize maxSize := by
  have hm := Lending.move_of_step h
  obtain ⟨h1, h2, h3⟩ := hm.same
  refine ⟨h1.trans hw.built, h2.trans hw.poolSize_eq, h3.trans hw.maxSize_eq, hw.exclusive.move ?_ ?_ hfew hm⟩
  · rw [hw.built]; exact hb
  · rw [hw.poolSize_eq, hw.maxSize_eq]
    exact UInt32.le_iff_toNat_le.1 (Int32.toUInt32_le h₀ hle)

theorem managed_of_run (h₀ : 0 ≤ poolSize) (hle : poolSize ≤ maxSize) (hb : FreshBuilder build)
    (hp : ConnectPool.construct poolSize maxSize build = some p) {calls : List (PoolCall User Conn)} {w : Lending User Conn}
    (hrun : Machine.run Lending.step { pool := p } calls = some w)
    (hfew : Machine.Always Lending.step (fun w => w.lent.length < 2 ^ 32 - 1) { pool := p } calls) :
    w.Managed build poolSize maxSize :=
  Machine.run_along (Lending.Managed build poolSize maxSize) (fun _ _ _ hw hfew h => hw.step h₀ hle hb hfew h) calls _ w
    (managed_construct h₀ hle hb hp) hfew.along hrun

/-- **Exclusive use**: with a builder of fresh connections and fewer than `2 ^ 32 - 1`
connections lent at a time, after any calls the idle and the lent connections are all
different, `_borrow_size` is the number of the lent ones, at most `max_size` are idle and
at least `pool_size` are live. -/
theorem connectPool_exclusive (h₀ : 0 ≤ poolSize) (hle : poolSize ≤ maxSize)
    (hb : FreshBuilder build) (hp : ConnectPool.construct poolSize maxSize build = some p)
    {calls : List (PoolCall User Conn)} {w : Lending User Conn}
    (hrun : Machine.run Lending.step { pool := p } calls = some w)
    (hfew : Machine.Always Lending.step (fun w => w.lent.length < 2 ^ 32 - 1) { pool := p } calls) :
    (w.pool.connList ++ w.lent.map Prod.snd).Nodup ∧
      w.pool.borrowSize.toNat = w.lent.length ∧
      (w.pool.connList.length : ℤ) ≤ maxSize.toInt ∧
      poolSize.toInt ≤ (w.lent.length + w.pool.connList.length : ℕ) := by
  have hmax : (maxSize.toUInt32.toNat : ℤ) = maxSize.toInt := toNat_toUInt32 (Int32.le_trans h₀ hle)
  have hpool : (poolSize.toUInt32.toNat : ℤ) = poolSize.toInt := toNat_toUInt32 h₀
  obtain ⟨-, hps, hms, hw⟩ := managed_of_run h₀ hle hb hp hrun hfew
  have hidle := hw.idle_le
  have hlive := hw.le_live
  rw [hms] at hidle
  simp only [hps, Lending.live, List.length_append, List.length_map] at hlive
  exact ⟨hw.nodup, hw.borrowed, by omega, by omega⟩

theorem countingBuilder_fresh : FreshBuilder countingBuilder where
  conn n := ⟨n, rfl⟩
  fresh m n conn hm hn := by
    simp only [countingBuilder, Except.ok.injEq, Option.some.injEq] at hm hn
    rw [hm, hn]

/-- The two users again: one connection is back, the other still lent. -/
theorem connectPool_exclusive_pair :
    ∃ w : Lending ℕ ℕ,
      Machine.run Lending.step { pool := pairPool } [.borrow 0, .borrow 1, .release 0 0] = some w ∧
      (w.pool.connList ++ w.lent.map Prod.snd).Nodup ∧ w.pool.borrowSize.toNat = w.lent.length := by
  have hp : ConnectPool.construct 1 2 countingBuilder = some pairPool := rfl
  refine ⟨_, rfl, ?_⟩
  have h := connectPool_exclusive (by decide) (by decide) countingBuilder_fresh hp
    (rfl : Machine.run Lending.step ({ pool := pairPool } : Lending ℕ ℕ)
      [.borrow 0, .borrow 1, .release 0 0] = some _) (by
      refine ⟨by decide, ?_⟩
      rintro w ⟨⟩
      refine ⟨by decide, ?_⟩
      rintro w ⟨⟩
      refine ⟨by decide, ?_⟩
      rintro w ⟨⟩
      show (1 : ℕ) < 2 ^ 32 - 1
      decide)
  exact ⟨h.1, h.2.1⟩

end Claims

end Graphize
