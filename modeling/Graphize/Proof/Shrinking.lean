import Graphize.Proof.Lending

/-!
# How a pool shrinks

`_busy` is raised by a borrow that exceeds `pool_size` and reset only by one that does not.
Once no more than `pool_size` connections are lent at a time, the first borrow resets it
for good.

* `calm_borrow`, `calm_release`: the two calls while few connections are lent.
* `shrinks_back`: nothing is built, the pool only shrinks, and not below `pool_size`; and
  pairs of a borrow and a return bring it there.
-/

namespace Graphize

universe u v

variable {User : Type v} {Conn : Type u}

namespace Lending

variable [DecidableEq User] [DecidableEq Conn] {w w' : Lending User Conn}

/-- A borrow with room to spare takes an idle connection and resets `_busy`. -/
theorem calm_borrow (hw : w.Exclusive) (hroom : w.lent.length + 1 ≤ w.pool.poolSize.toNat)
    (hfew : w.lent.length < 2 ^ 32 - 1) (user : User) :
    ∃ conn conns, w.pool.connList = conn :: conns ∧ w.step (.borrow user) =
      some { pool := { w.pool with connList := conns, borrowSize := w.pool.borrowSize + 1, busy := 0 }
             lent := (user, conn) :: w.lent } := by
  have hlive := hw.le_live
  rw [live, List.length_append, List.length_map] at hlive
  obtain ⟨conn, conns, hidle⟩ := List.exists_cons_of_length_pos (show 0 < w.pool.connList.length by omega)
  have hnot : ¬w.pool.borrowSize + 1 > w.pool.poolSize := by
    rw [gt_iff_lt, UInt32.lt_iff_toNat_lt, hw.borrowed_add hfew]
    omega
  refine ⟨conn, conns, hidle, ?_⟩
  unfold step ConnectPool.borrow
  simp only [hidle]
  unfold ConnectPool.countBorrow
  simp only [if_neg hnot]

/-- A return while `_busy` is reset drops the connection if `pool_size` are idle. -/
theorem calm_release {user : User} {conn : Conn} (hbusy : w.pool.busy = 0)
    (hidle : w.pool.poolSize.toNat ≤ w.pool.connList.length) (held : (user, conn) ∈ w.lent) :
    w.step (.release user conn) =
      some { pool := { w.pool with borrowSize := w.pool.borrowSize - 1 }, lent := w.lent.erase (user, conn) } := by
  unfold step ConnectPool.release
  simp only [if_pos held, hbusy]
  split
  · rfl
  · rw [if_neg (by omega), if_neg (by decide)]

/-- A return builds nothing and leaves `_busy` as it is. -/
theorem release_same {user : User} {conn : Conn} (h : w.step (.release user conn) = some w') :
    w'.pool.calls = w.pool.calls ∧ w'.pool.busy = w.pool.busy := by
  unfold step ConnectPool.release at h
  simp only at h
  split at h
  · rw [Option.some.injEq] at h
    subst h
    split
    · exact ⟨rfl, rfl⟩
    · split
      · exact ⟨rfl, rfl⟩
      · split
        · exact ⟨rfl, rfl⟩
        · exact ⟨rfl, rfl⟩
  · exact absurd h (by simp)

/-- One user borrows a connection and returns it. -/
def pair (w : Lending User Conn) (user : User) : Option (Lending User Conn) :=
  (w.step (.borrow user)).bind fun w =>
    match w.lent with
    | (user, conn) :: _ => w.step (.release user conn)
    | [] => none

end Lending

section Shrink

variable {poolSize maxSize : Int32} {build : ℕ → Except Str (Option Conn)} {p : ConnectPool Conn}

/-- No more than `pool_size` connections are lent. -/
def Lending.Calm (poolSize : Int32) (w : Lending User Conn) : Prop := (w.lent.length : ℤ) ≤ poolSize.toInt

theorem Lending.Managed.poolSize_toNat (h₀ : 0 ≤ poolSize) {w : Lending User Conn} (hw : w.Managed build poolSize maxSize) :
    (w.pool.poolSize.toNat : ℤ) = poolSize.toInt := by
  rw [hw.poolSize_eq]
  exact toNat_toUInt32 h₀

/-- Calm use is far from the end of the counter. -/
theorem Lending.Calm.few {w : Lending User Conn} (h : w.Calm poolSize) : w.lent.length < 2 ^ 32 - 1 := by
  have hlt : poolSize.toInt < 2 ^ 31 := Int32.toInt_lt poolSize
  unfold Lending.Calm at h
  omega

variable [DecidableEq User] [DecidableEq Conn]

/-- **One call of a calm use**: nothing is built, no connection is added, and a borrow
resets `_busy`. -/
theorem Lending.Managed.calm_step (h₀ : 0 ≤ poolSize) (hle : poolSize ≤ maxSize) (hb : FreshBuilder build)
    {w w' : Lending User Conn} (hw : w.Managed build poolSize maxSize) (hcalm : w.Calm poolSize) (hcalm' : w'.Calm poolSize)
    {call : PoolCall User Conn} (h : w.step call = some w') :
    w'.Managed build poolSize maxSize ∧ w'.pool.calls = w.pool.calls ∧ w'.live.length ≤ w.live.length ∧
      (w.pool.busy = 0 ∨ (∃ user, call = .borrow user) → w'.pool.busy = 0) := by
  refine ⟨hw.step h₀ hle hb hcalm.few h, ?_⟩
  have hmove := move_of_step h
  have hsize := hw.poolSize_toNat h₀
  -- a borrow leaves no more than `pool_size` lent, so one was to spare
  have hborrow : ∀ user, call = .borrow user → w'.lent.length = w.lent.length + 1 →
      w'.pool.calls = w.pool.calls ∧ w'.live.length ≤ w.live.length ∧ w'.pool.busy = 0 := by
    rintro user rfl hlen
    have hroom : w.lent.length + 1 ≤ w.pool.poolSize.toNat := by
      unfold Calm at hcalm'
      omega
    obtain ⟨conn, conns, hidle, hstep⟩ := calm_borrow hw.exclusive hroom hcalm.few user
    rw [h, Option.some.injEq] at hstep
    rw [hstep]
    refine ⟨rfl, ?_, rfl⟩
    simp only [live, hidle, List.length_append, List.length_map, List.length_cons]
    omega
  have hrelease : ∀ user conn, call = .release user conn → w'.live.length ≤ w.live.length →
      w'.pool.calls = w.pool.calls ∧ w'.live.length ≤ w.live.length ∧
        (w.pool.busy = 0 ∨ (∃ user, call = .borrow user) → w'.pool.busy = 0) := by
    rintro user conn rfl hlive
    obtain ⟨hcalls, hbusy⟩ := release_same h
    refine ⟨hcalls, hlive, ?_⟩
    rintro (hz | ⟨u, hu⟩)
    · rw [hbusy, hz]
    · exact absurd hu (by simp)
  cases hmove with
  | lend user conn conns busy idle =>
    obtain ⟨hcalls, hlive, hbusy⟩ := hborrow user rfl rfl
    exact ⟨hcalls, hlive, fun _ => hbusy⟩
  | build user conn busy idle built =>
    obtain ⟨hcalls, hlive, hbusy⟩ := hborrow user rfl rfl
    exact ⟨hcalls, hlive, fun _ => hbusy⟩
  | noConn user size busy idle built =>
    obtain ⟨conn, hc⟩ := hb.conn w.pool.calls
    rw [← hw.built] at hc
    exact absurd hc (built conn)
  | drop user conn held full lent rest =>
    have hlen := rest.length_eq
    refine hrelease user conn rfl ?_
    simp only [live, List.length_append, List.length_map, List.length_cons] at hlen ⊢
    omega
  | keep user conn held room lent rest =>
    have hlen := rest.length_eq
    refine hrelease user conn rfl ?_
    simp only [live, List.length_append, List.length_map, List.length_cons, List.length_nil] at hlen ⊢
    omega

/-- **A calm run** keeps the pool managed, and `_busy` reset from its first borrow on. -/
theorem Lending.Managed.calm_run (h₀ : 0 ≤ poolSize) (hle : poolSize ≤ maxSize) (hb : FreshBuilder build) :
    ∀ {calls : List (PoolCall User Conn)} {w w' : Lending User Conn}, w.Managed build poolSize maxSize →
      Machine.Always Lending.step (Lending.Calm poolSize) w calls → Machine.run Lending.step w calls = some w' →
      w'.Managed build poolSize maxSize ∧ (w.pool.busy = 0 ∨ (∃ user, .borrow user ∈ calls) → w'.pool.busy = 0) := by
  intro calls
  induction calls with
  | nil =>
    intro w w' hw _ hrun
    rw [Machine.run_nil, Option.some.injEq] at hrun
    rw [← hrun]
    refine ⟨hw, ?_⟩
    rintro (hz | ⟨u, hu⟩)
    · exact hz
    · exact absurd hu (by simp)
  | cons call calls ih =>
    intro w w' hw hcalm hrun
    obtain ⟨w₁, hstep, hrun⟩ := Machine.run_cons_iff.1 hrun
    have hcalm₁ := hcalm.2 w₁ hstep
    obtain ⟨hw₁, -, -, hbusy₁⟩ := hw.calm_step h₀ hle hb hcalm.1 hcalm₁.head hstep
    obtain ⟨hw', hbusy⟩ := ih hw₁ hcalm₁ hrun
    refine ⟨hw', ?_⟩
    rintro (hz | ⟨u, hu⟩)
    · exact hbusy (Or.inl (hbusy₁ (Or.inl hz)))
    · rcases List.mem_cons.1 hu with rfl | hu
      · exact hbusy (Or.inl (hbusy₁ (Or.inr ⟨u, rfl⟩)))
      · exact hbusy (Or.inr ⟨u, hu⟩)

/-- A pair in a pool with more than `pool_size` idle connections drops one. -/
theorem Lending.Managed.pair_drop (h₁ : 1 ≤ poolSize) (hle : poolSize ≤ maxSize) (hb : FreshBuilder build)
    {w : Lending User Conn} (hw : w.Managed build poolSize maxSize) (hlent : w.lent = [])
    (hmore : poolSize.toInt < w.pool.connList.length) (user : User) :
    ∃ w', w.pair user = some w' ∧ w'.Managed build poolSize maxSize ∧ w'.lent = [] ∧
      w'.pool.connList.length + 1 = w.pool.connList.length := by
  have h₀ : 0 ≤ poolSize := Int32.le_trans (by decide) h₁
  have hone : (1 : Int32).toInt ≤ poolSize.toInt := Int32.le_iff_toInt_le.1 h₁
  have hone' : (1 : Int32).toInt = 1 := rfl
  have hsize := hw.poolSize_toNat h₀
  have hfew : w.lent.length < 2 ^ 32 - 1 := by rw [hlent, List.length_nil]; decide
  obtain ⟨conn, conns, hidle, hborrow⟩ := calm_borrow hw.exclusive (by rw [hlent, List.length_nil]; omega) hfew user
  have hw₁ := hw.step h₀ hle hb hfew hborrow
  have hlen : w.pool.connList.length = conns.length + 1 := by rw [hidle, List.length_cons]
  have hrelease := calm_release (w := { pool := { w.pool with connList := conns, borrowSize := w.pool.borrowSize + 1, busy := 0 }
                                        lent := (user, conn) :: w.lent })
    rfl (show w.pool.poolSize.toNat ≤ conns.length by omega) List.mem_cons_self
  refine ⟨_, ?_, hw₁.step h₀ hle hb ?_ hrelease, ?_, hlen.symm⟩
  · unfold pair
    rw [hborrow]
    exact hrelease
  · show ((user, conn) :: w.lent).length < 2 ^ 32 - 1
    rw [hlent, List.length_singleton]
    decide
  · rw [hlent, List.erase_cons_head]

/-- **The pool shrinks back**: from any state that calls lead to, while no more than
`pool_size` connections are lent, nothing is built, the connections only become fewer, and
not fewer than `pool_size`; from the first borrow on a returned connection is dropped when
`pool_size` are idle. With nothing lent, pairs of a borrow and a return, as many as there
are connections too many, leave `pool_size`. -/
theorem shrinks_back (h₁ : 1 ≤ poolSize) (hle : poolSize ≤ maxSize) (hb : FreshBuilder build)
    (hp : ConnectPool.construct poolSize maxSize build = some p) {before : List (PoolCall User Conn)} {w : Lending User Conn}
    (hrun : Machine.run Lending.step { pool := p } before = some w)
    (hfew : Machine.Always Lending.step (fun w => w.lent.length < 2 ^ 32 - 1) { pool := p } before) :
    poolSize.toInt ≤ w.live.length ∧
    (∀ calls call w₁ w₂,
      Machine.Always Lending.step (fun w => (w.lent.length : ℤ) ≤ poolSize.toInt) w (calls ++ [call]) →
      Machine.run Lending.step w calls = some w₁ → w₁.step call = some w₂ →
      w₂.pool.calls = w₁.pool.calls ∧ w₂.live.length ≤ w₁.live.length ∧ poolSize.toInt ≤ w₂.live.length ∧
      ∀ user conn, call = .release user conn → (∃ u, .borrow u ∈ calls) → poolSize.toInt ≤ w₁.pool.connList.length →
        w₂.pool.connList = w₁.pool.connList) ∧
    (w.lent = [] → ∀ users : List User, (w.pool.connList.length : ℤ) = poolSize.toInt + users.length →
      ∃ w', Machine.run Lending.pair w users = some w' ∧ w'.lent = [] ∧ (w'.pool.connList.length : ℤ) = poolSize.toInt) := by
  have h₀ : 0 ≤ poolSize := Int32.le_trans (by decide) h₁
  have hw := managed_of_run h₀ hle hb hp hrun hfew
  have hlow : ∀ w : Lending User Conn, w.Managed build poolSize maxSize → poolSize.toInt ≤ w.live.length := by
    intro w hw
    have hsize := hw.poolSize_toNat h₀
    have hlive := hw.exclusive.le_live
    omega
  refine ⟨hlow w hw, ?_, ?_⟩
  · intro calls call w₁ w₂ hcalm hrun₁ hstep
    obtain ⟨hw₁, hbusy⟩ := hw.calm_run h₀ hle hb hcalm.before hrun₁
    have hcalm₁ := hcalm.after hrun₁
    obtain ⟨hw₂, hcalls, hlive, -⟩ := hw₁.calm_step h₀ hle hb hcalm₁.head (hcalm₁.2 w₂ hstep).head hstep
    refine ⟨hcalls, hlive, hlow w₂ hw₂, ?_⟩
    rintro user conn rfl hborrow hidle
    have hsize := hw₁.poolSize_toNat h₀
    -- a return by a user who holds nothing is not a step
    have held : (user, conn) ∈ w₁.lent := by
      by_contra hnot
      unfold Lending.step at hstep
      simp only [if_neg hnot] at hstep
      exact absurd hstep (by simp)
    rw [Lending.calm_release (hbusy (Or.inr hborrow)) (by omega) held, Option.some.injEq] at hstep
    rw [← hstep]
  · intro hlent users
    -- the pairs form a run of their own: its induction starts from any managed state
    clear hrun
    induction users generalizing w with
    | nil =>
      intro hlen
      exact ⟨w, rfl, hlent, by simpa using hlen⟩
    | cons user users ih =>
      intro hlen
      rw [List.length_cons] at hlen
      obtain ⟨w₁, hpair, hw₁, hlent₁, hone⟩ := hw.pair_drop h₁ hle hb hlent (by omega) user
      obtain ⟨w', hrun', h⟩ := ih hw₁ hlent₁ (by omega)
      exact ⟨w', Machine.run_cons_iff.2 ⟨w₁, hpair, hrun'⟩, h⟩

/-- After two users have borrowed at once, one more pair leaves the one connection that the
pool is meant to have. -/
theorem shrinks_back_pair : ∃ w w' : Lending ℕ ℕ,
    Machine.run Lending.step { pool := pairPool } [.borrow 0, .borrow 1, .release 0 0, .release 1 1] = some w ∧
      w.pool.connList = [0, 1] ∧ Machine.run Lending.pair w [0] = some w' ∧ (w'.pool.connList.length : ℤ) = 1 := by
  have hp : ConnectPool.construct 1 2 countingBuilder = some pairPool := rfl
  have hrun : Machine.run Lending.step ({ pool := pairPool } : Lending ℕ ℕ) [.borrow 0, .borrow 1, .release 0 0, .release 1 1] =
      some _ := rfl
  have hfew : Machine.Always Lending.step (fun w : Lending ℕ ℕ => w.lent.length < 2 ^ 32 - 1) { pool := pairPool }
      [.borrow 0, .borrow 1, .release 0 0, .release 1 1] := by
    refine ⟨by decide, ?_⟩
    rintro w ⟨⟩
    refine ⟨by decide, ?_⟩
    rintro w ⟨⟩
    refine ⟨by decide, ?_⟩
    rintro w ⟨⟩
    refine ⟨by decide, ?_⟩
    rintro w ⟨⟩
    show (0 : ℕ) < 2 ^ 32 - 1
    decide
  obtain ⟨-, -, hpairs⟩ := shrinks_back (by decide) (by decide) countingBuilder_fresh hp hrun hfew
  obtain ⟨w', hpair, -, hlen⟩ := hpairs rfl [0] rfl
  exact ⟨_, w', hrun, rfl, hpair, hlen⟩

end Shrink

end Graphize
