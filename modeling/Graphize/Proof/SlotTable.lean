import Graphize.Spec.RedisClient

/-!
# What `InitSlotNodeMap` writes

* `run_body`: the loop over one range of slots writes the range and ends, unless the
  range ends at `2^32 - 1`.
* `fillNode_spec`: all ranges of one node.
* `initSlotNodeMap_spec`: each slot is left with the last node that claims it, and
  otherwise with what the vector held before.
* `multiFetchHost_eq`: a batch of keys of one slot goes to the node of each of them.
-/

namespace Graphize

open Table

/-- A slot lies in one of the ranges. -/
def covers (ranges : List (UInt32 × UInt32)) (k : ℕ) : Bool := ranges.any fun r => r.1.toNat ≤ k ∧ k ≤ r.2.toNat

theorem covers_cons (r : UInt32 × UInt32) (ranges : List (UInt32 × UInt32)) (k : ℕ) :
    covers (r :: ranges) k = (decide (r.1.toNat ≤ k ∧ k ≤ r.2.toNat) || covers ranges k) := rfl

theorem NodeInfo.checkSlot_eq (node : NodeInfo) (s : UInt32) : node.checkSlot s = covers node.mSlots s.toNat := by
  unfold NodeInfo.checkSlot covers
  simp only [ge_iff_le, UInt32.le_iff_toNat_le]

/-- **One range**, of `n` slots from `s`. -/
theorem run_body (i : ℕ) (e : UInt32) (he : e.toNat + 1 < 2 ^ 32) : ∀ (n : ℕ) (s : UInt32) (vec : List ℤ) (fuel : ℕ),
    e.toNat + 1 - s.toNat = n → n < fuel →
    (While.run (SlotFill.body i e) fuel ⟨s, vec⟩).map SlotFill.vec = some (fill (-1) (i : ℤ) vec s.toNat n) := by
  intro n
  induction n with
  | zero =>
    intro s vec fuel hn hf
    obtain ⟨fuel, rfl⟩ : ∃ m, fuel = m + 1 := ⟨fuel - 1, by omega⟩
    have hs : ¬s ≤ e := by rw [UInt32.le_iff_toNat_le]; omega
    unfold While.run SlotFill.body
    rw [if_neg hs]
    rfl
  | succ n ih =>
    intro s vec fuel hn hf
    obtain ⟨fuel, rfl⟩ : ∃ m, fuel = m + 1 := ⟨fuel - 1, by omega⟩
    have hs : s ≤ e := by rw [UInt32.le_iff_toNat_le]; omega
    have hnext : (s + 1).toNat = s.toNat + 1 := by
      rw [UInt32.toNat_add]
      have h1 : (1 : UInt32).toNat = 1 := rfl
      rw [h1]
      exact Nat.mod_eq_of_lt (by omega)
    have hbody : SlotFill.body i e ⟨s, vec⟩ = some ⟨s + 1, put (-1) (i : ℤ) vec s.toNat⟩ := by
      unfold SlotFill.body SlotFill.room put
      rw [if_pos hs, hnext]
      by_cases hlt : s.toNat < vec.length
      · rw [if_pos hlt, if_pos hlt]
      · rw [if_neg hlt, if_neg hlt]
    unfold While.run
    rw [hbody]
    simp only
    rw [ih (s + 1) _ fuel (by omega) (by omega), hnext]
    rfl

/-- Every range ends below `N`. -/
def Below (N : ℕ) (ranges : List (UInt32 × UInt32)) : Prop := ∀ r ∈ ranges, r.2.toNat < N

/-- The length of a table after writing to the ranges. -/
def grown (ranges : List (UInt32 × UInt32)) (n : ℕ) : ℕ :=
  ranges.foldl (fun n r => if r.1 ≤ r.2 then max n (r.2.toNat + 1) else n) n

/-- **All ranges of a node.** -/
theorem fillNode_spec {N fuel : ℕ} (hN : N < 2 ^ 32) (hf : N < fuel) (i : ℕ) :
    ∀ (ranges : List (UInt32 × UInt32)) (vec : List ℤ), Below N ranges →
      ∃ vec', fillNode fuel vec i ranges = some vec' ∧ vec'.length = grown ranges vec.length ∧
        ∀ k, get (-1) vec' k = if covers ranges k then (i : ℤ) else get (-1) vec k := by
  intro ranges
  induction ranges with
  | nil => intro vec _; exact ⟨vec, rfl, rfl, fun k => rfl⟩
  | cons r ranges ih =>
    intro vec hb
    obtain ⟨hr, hb'⟩ := List.forall_mem_cons.1 hb
    have hrun := run_body i r.2 (by omega) (r.2.toNat + 1 - r.1.toNat) r.1 vec fuel rfl (by omega)
    obtain ⟨vec', hvec', hlen, hget⟩ := ih (fill (-1) (i : ℤ) vec r.1.toNat (r.2.toNat + 1 - r.1.toNat)) hb'
    refine ⟨vec', ?_, ?_, fun k => ?_⟩
    · unfold fillNode at hvec' ⊢
      rw [List.foldlM_cons, hrun]
      exact hvec'
    · rw [hlen, length_fill]
      unfold grown
      rw [List.foldl_cons]
      congr 1
      by_cases hle : r.1 ≤ r.2
      · rw [if_pos hle, if_neg (by rw [UInt32.le_iff_toNat_le] at hle; omega)]
        rw [UInt32.le_iff_toNat_le] at hle
        omega
      · rw [if_neg hle, if_pos (by rw [UInt32.le_iff_toNat_le] at hle; omega)]
    · have hcov : covers (r :: ranges) k = (decide (r.1.toNat ≤ k ∧ k ≤ r.2.toNat) || covers ranges k) := rfl
      rw [hget, get_fill, hcov]
      cases hc : covers ranges k with
      | true => rw [if_pos rfl, if_pos (by rw [Bool.or_true])]
      | false =>
        rw [if_neg (by simp), Bool.or_false]
        by_cases hk : r.1.toNat ≤ k ∧ k ≤ r.2.toNat
        · rw [if_pos (by omega), if_pos (by simpa using hk)]
        · rw [if_neg (by omega), if_neg (by simpa using hk)]

/-- **`InitSlotNodeMap`**: each slot holds the last node that claims it, or what it held in
the table brought to 16384 entries. -/
theorem initSlotNodeMap_spec {N fuel : ℕ} (hN : N < 2 ^ 32) (hf : N < fuel) {nodes : List NodeInfo}
    (hb : ∀ node ∈ nodes, Below N node.mSlots) (vec : List ℤ) :
    ∃ vec', initSlotNodeMap fuel vec nodes = some vec' ∧
      vec'.length = nodes.foldl (fun n node => grown node.mSlots n) 16384 ∧
      ∀ k, get (-1) vec' k = lastIdx (fun node => covers node.mSlots k) (get (-1) (resize 16384 (-1) vec) k) 0 nodes := by
  have key : ∀ (nodes : List NodeInfo) (n : ℕ) (vec : List ℤ), (∀ node ∈ nodes, Below N node.mSlots) →
      ∃ vec', (nodes.zipIdx n).foldlM (fun vec e => fillNode fuel vec e.2 e.1.mSlots) vec = some vec' ∧
        vec'.length = nodes.foldl (fun n node => grown node.mSlots n) vec.length ∧
        ∀ k, get (-1) vec' k = lastIdx (fun node => covers node.mSlots k) (get (-1) vec k) n nodes := by
    intro nodes
    induction nodes with
    | nil => intro n vec _; exact ⟨vec, rfl, rfl, fun k => rfl⟩
    | cons node nodes ih =>
      intro n vec hb
      obtain ⟨hnode, hb'⟩ := List.forall_mem_cons.1 hb
      obtain ⟨vec₁, h1, hlen1, hget1⟩ := fillNode_spec hN hf n node.mSlots vec hnode
      obtain ⟨vec₂, h2, hlen2, hget2⟩ := ih (n + 1) vec₁ hb'
      refine ⟨vec₂, ?_, ?_, fun k => ?_⟩
      · rw [List.zipIdx_cons, List.foldlM_cons]
        simp only [h1]
        exact h2
      · rw [hlen2, hlen1]
        rfl
      · rw [hget2, hget1]
        rfl
  obtain ⟨vec', h, hlen, hget⟩ := key nodes 0 (resize 16384 (-1) vec) hb
  rw [length_resize] at hlen
  exact ⟨vec', h, hlen, hget⟩

/-! ## Routing -/

section Routing

universe u

variable {Conn : Type u}

/-- The node of a key, by the entry of its slot. -/
theorem getKeyNodeIndex_get (pool : ChannelPool Conn) (key : Bytes) :
    pool.getKeyNodeIndex key = if get (-1) pool.slotIpportIndexVec (getKeySlot key).toNat = -1 then 0
      else (get (-1) pool.slotIpportIndexVec (getKeySlot key).toNat).toNat := by
  unfold ChannelPool.getKeyNodeIndex Table.get
  cases pool.slotIpportIndexVec[(getKeySlot key).toNat]? with
  | none => rfl
  | some target => rfl

/-- The keys of a batch, with the first. -/
theorem head_multiFetchKeys {data : List Bytes} {s e : ℕ} {key : Bytes}
    (hmem : key ∈ RedisClient.multiFetchKeys data s e) :
    ∃ first, data[s]? = some first ∧ first ∈ RedisClient.multiFetchKeys data s e := by
  unfold RedisClient.multiFetchKeys at *
  obtain ⟨first, rest, hrange⟩ := List.exists_cons_of_ne_nil (List.ne_nil_of_mem hmem)
  have h0 : ((data.take e).drop s)[0]? = some first := by rw [hrange]; rfl
  rw [List.getElem?_drop, Nat.add_zero, List.getElem?_take] at h0
  split at h0
  · exact ⟨first, h0, by rw [hrange]; exact List.mem_cons_self⟩
  · exact absurd h0 (by simp)

/-- The node of a key depends on its slot. -/
theorem getKeyNodeIndex_congr (pool : ChannelPool Conn) {key key' : Bytes} (h : getKeySlot key = getKeySlot key') :
    pool.getKeyNodeIndex key = pool.getKeyNodeIndex key' := by
  unfold ChannelPool.getKeyNodeIndex
  rw [h]

/-- A batch of one slot goes where its first key goes. -/
theorem multiFetchHost_eq {c : RedisClient Conn} {key : Bytes} {data : List Bytes} {s e : ℕ}
    (hmem : key ∈ RedisClient.multiFetchKeys data s e)
    (hslot : ∀ k ∈ RedisClient.multiFetchKeys data s e, getKeySlot k = getKeySlot key) :
    c.multiFetchHost data s = c.fetchHost key := by
  obtain ⟨first, hget, hfirst⟩ := head_multiFetchKeys hmem
  unfold RedisClient.multiFetchHost RedisClient.fetchHost
  rw [hget]
  simp only
  rw [getKeyNodeIndex_congr _ (hslot first hfirst)]

end Routing

end Graphize
