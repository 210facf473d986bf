import Graphize.Proof.SlotRanges
import Mathlib.Order.Bounds.Basic

/-!
# The table and `CheckSlot`

`InitSlotNodeMap` writes what `NodeInfo::CheckSlot` answers into a table, range after
range. Seen from `CheckSlot` the ranges are gone: a slot has its claimants, and the last
of them owns it.

* `grownAll_greatest`: how far the table grows.
* `slotTable_agrees`: the table is the one that `CheckSlot` calls for.
* `Agrees.eq`: there is no other such table.
-/

namespace Graphize

open Table

/-- `s` is claimed by a node. -/
def Claimed (nodes : List NodeInfo) (s : UInt32) : Prop := ∃ node ∈ nodes, node.checkSlot s = true

/-- The places of the nodes that claim `s`. -/
def claimants (nodes : List NodeInfo) (s : UInt32) : Set ℕ :=
  {i | ∃ node, nodes[i]? = some node ∧ node.checkSlot s = true}

/-- `vec` is the table of the slots as `CheckSlot` sees them: the last claimant of each, -1
for nobody, and no entry beyond the usual ones and the claimed. -/
structure Agrees (nodes : List NodeInfo) (vec : List ℤ) : Prop where
  owned : ∀ (s : UInt32) i, IsGreatest (claimants nodes s) i → vec[s.toNat]? = some (i : ℤ)
  free : ∀ s : UInt32, ¬Claimed nodes s → s.toNat < vec.length → vec[s.toNat]? = some (-1)
  length : IsGreatest ({16384} ∪ {n | ∃ s : UInt32, Claimed nodes s ∧ n = s.toNat + 1}) vec.length

variable {nodes : List NodeInfo} {vec vec' : List ℤ}

/-! ## The claims on a slot -/

theorem covers_iff {ranges : List (UInt32 × UInt32)} {k : ℕ} :
    covers ranges k = true ↔ ∃ r ∈ ranges, r.1.toNat ≤ k ∧ k ≤ r.2.toNat := by
  unfold covers
  rw [List.any_eq_true]
  simp only [decide_eq_true_eq]

theorem claimed_iff {s : UInt32} :
    Claimed nodes s ↔ ∃ node ∈ nodes, ∃ r ∈ node.mSlots, r.1.toNat ≤ s.toNat ∧ s.toNat ≤ r.2.toNat := by
  unfold Claimed
  simp only [NodeInfo.checkSlot_eq, covers_iff]

/-- A range that is not reversed claims its end. -/
theorem claimed_end {node : NodeInfo} {r : UInt32 × UInt32} (hn : node ∈ nodes) (hr : r ∈ node.mSlots)
    (hle : r.1 ≤ r.2) : Claimed nodes r.2 :=
  claimed_iff.2 ⟨node, hn, r, hr, UInt32.le_iff_toNat_le.1 hle, le_rfl⟩

/-! ## The length -/

/-- The length after one node is the old one, or is due to one of its ranges. -/
theorem grown_cases : ∀ (ranges : List (UInt32 × UInt32)) (n : ℕ), grown ranges n = n ∨
    ∃ r ∈ ranges, r.1 ≤ r.2 ∧ grown ranges n = r.2.toNat + 1 := by
  intro ranges
  induction ranges with
  | nil => intro n; exact Or.inl rfl
  | cons r ranges ih =>
    intro n
    rw [grown_cons]
    rcases ih (if r.1 ≤ r.2 then max n (r.2.toNat + 1) else n) with h | ⟨r', hr', hle, h⟩
    · rw [h]
      by_cases hle : r.1 ≤ r.2
      · rw [if_pos hle]
        rcases max_choice n (r.2.toNat + 1) with hmax | hmax
        · exact Or.inl hmax
        · exact Or.inr ⟨r, List.mem_cons_self, hle, hmax⟩
      · rw [if_neg hle]
        exact Or.inl rfl
    · exact Or.inr ⟨r', List.mem_cons_of_mem r hr', hle, h⟩

theorem grownAll_cases : ∀ (nodes : List NodeInfo) (n : ℕ),
    nodes.foldl (fun n node => grown node.mSlots n) n = n ∨ ∃ node ∈ nodes, ∃ r ∈ node.mSlots,
      r.1 ≤ r.2 ∧ nodes.foldl (fun n node => grown node.mSlots n) n = r.2.toNat + 1 := by
  intro nodes
  induction nodes with
  | nil => intro n; exact Or.inl rfl
  | cons node nodes ih =>
    intro n
    rw [List.foldl_cons]
    rcases ih (grown node.mSlots n) with h | ⟨node', hnode', r, hr, hle, h⟩
    · rw [h]
      rcases grown_cases node.mSlots n with h' | ⟨r, hr, hle, h'⟩
      · exact Or.inl h'
      · exact Or.inr ⟨node, List.mem_cons_self, r, hr, hle, h'⟩
    · exact Or.inr ⟨node', List.mem_cons_of_mem node hnode', r, hr, hle, h⟩

/-- **How far the table grows.** -/
theorem grownAll_greatest (nodes : List NodeInfo) (n : ℕ) :
    IsGreatest ({n} ∪ {m | ∃ s : UInt32, Claimed nodes s ∧ m = s.toNat + 1})
      (nodes.foldl (fun n node => grown node.mSlots n) n) := by
  constructor
  · rcases grownAll_cases nodes n with h | ⟨node, hn, r, hr, hle, h⟩
    · exact Or.inl h
    · exact Or.inr ⟨r.2, claimed_end hn hr hle, h⟩
  · rintro m (rfl | ⟨s, hs, rfl⟩)
    · exact le_grownAll nodes m
    · -- the range that claims `s` is not reversed, and the table goes on to its end
      obtain ⟨node, hn, r, hr, h1, h2⟩ := claimed_iff.1 hs
      have hlt := lt_grownAll n hn hr (UInt32.le_iff_toNat_le.2 (h1.trans h2))
      omega

/-! ## The table -/

theorem getElem?_of_get {k : ℕ} (hk : k < vec.length) : vec[k]? = some (get (-1) vec k) := by
  unfold Table.get
  rw [List.getElem?_eq_getElem hk, Option.getD_some]

/-- **`InitSlotNodeMap` agrees with `CheckSlot`** on an empty table, for all nodes of which
no range ends at `2^32 - 1`. -/
theorem slotTable_agrees {fuel : ℕ} (hf : 2 ^ 32 ≤ fuel) (hends : Bounded nodes) :
    ∃ vec, initSlotNodeMap fuel [] nodes = some vec ∧ Agrees nodes vec := by
  obtain ⟨vec, hvec, hlen, hget⟩ := initSlotNodeMap_spec (by decide) (Nat.lt_of_succ_le hf) hends []
  have hgreatest := grownAll_greatest nodes 16384
  rw [← hlen] at hgreatest
  refine ⟨vec, hvec, ?_, ?_, hgreatest⟩
  · intro s i hi
    obtain ⟨⟨node, hnode, hs⟩, hmax⟩ := hi
    have hlt : s.toNat + 1 ≤ vec.length := hgreatest.2 (Or.inr ⟨s, ⟨node, List.mem_of_getElem? hnode, hs⟩, rfl⟩)
    -- no node after the greatest claimant claims the slot
    have hlast : ∀ (j : ℕ) (node' : NodeInfo), i < j → nodes[j]? = some node' → covers node'.mSlots s.toNat = false := by
      intro j node' hj hnode'
      by_contra hcov
      rw [← NodeInfo.checkSlot_eq, Bool.not_eq_false] at hcov
      have := hmax ⟨node', hnode', hcov⟩
      omega
    rw [NodeInfo.checkSlot_eq] at hs
    rw [getElem?_of_get hlt, hget, lastIdx_of_last hnode hs hlast, Nat.zero_add]
  · intro s hs hlt
    have hnone : ∀ node ∈ nodes, covers node.mSlots s.toNat = false := by
      intro node hn
      rw [← NodeInfo.checkSlot_eq, ← Bool.not_eq_true]
      exact fun hclaim => hs ⟨node, hn, hclaim⟩
    rw [getElem?_of_get hlt, hget, lastIdx_of_none hnone, get_fresh]

/-- Two masters that overlap from 90 to 100, the second with a reversed range and one
beyond the usual slots. -/
def overlapping : List NodeInfo :=
  [{ mSlots := [(0, 100)] }, { mSlots := [(90, 120), (50, 10), (20000, 20001)] }]

theorem slotTable_agrees_overlapping : 2 ^ 32 ≤ 2 ^ 32 ∧ Bounded overlapping ∧
    ∃ vec, initSlotNodeMap (2 ^ 32) [] overlapping = some vec ∧ Agrees overlapping vec := by
  have hall : (overlapping.all fun node => node.mSlots.all fun r => r.2.toNat < 20002) = true := by decide
  have hends : Bounded overlapping := by
    intro node hn r hr
    have hlt := List.all_eq_true.1 (List.all_eq_true.1 hall node hn) r hr
    rw [decide_eq_true_eq] at hlt
    omega
  exact ⟨le_rfl, hends, slotTable_agrees le_rfl hends⟩

/-! ## There is no other -/

/-- A claimed slot has a last claimant. -/
theorem exists_greatest (nodes : List NodeInfo) (s : UInt32) :
    ¬Claimed nodes s ∨ ∃ i, IsGreatest (claimants nodes s) i := by
  rcases exists_last (fun node : NodeInfo => node.checkSlot s) nodes with hno | ⟨i, node, hi, hs, hlast⟩
  · refine Or.inl ?_
    rintro ⟨node, hn, hs⟩
    exact absurd (hno node hn) (by simp [hs])
  · refine Or.inr ⟨i, ⟨node, hi, hs⟩, ?_⟩
    rintro j ⟨node', hj, hs'⟩
    by_contra hij
    exact absurd (hlast j node' (by omega) hj) (by simp [hs'])

/-- Every slot of the table has a 32-bit number. -/
theorem Agrees.length_le (h : Agrees nodes vec) : vec.length ≤ 2 ^ 32 := by
  rcases h.length.1 with hlen | ⟨s, -, hlen⟩
  · rw [Set.mem_singleton_iff.1 hlen]
    decide
  · rw [hlen]
    exact s.toNat_lt

/-- A place of the table is a slot, which is free or has an owner. -/
theorem Agrees.cases (h : Agrees nodes vec) {k : ℕ} (hk : k < vec.length) :
    (¬Claimed nodes (UInt32.ofNat k) ∧ vec[k]? = some (-1)) ∨
      ∃ i, IsGreatest (claimants nodes (UInt32.ofNat k)) i ∧ vec[k]? = some (i : ℤ) := by
  have hslot : (UInt32.ofNat k).toNat = k := UInt32.toNat_ofNat_of_lt' (lt_of_lt_of_le hk h.length_le)
  rcases exists_greatest nodes (UInt32.ofNat k) with hfree | ⟨i, hi⟩
  · have hentry := h.free _ hfree (by rwa [hslot])
    rw [hslot] at hentry
    exact Or.inl ⟨hfree, hentry⟩
  · have hentry := h.owned _ i hi
    rw [hslot] at hentry
    exact Or.inr ⟨i, hi, hentry⟩

/-- Each entry is -1 or the place of a node, which an `int` holds. -/
theorem Agrees.entry (h : Agrees nodes vec) {k : ℕ} {v : ℤ} (hv : vec[k]? = some v) :
    v = -1 ∨ ∃ i < nodes.length, v = (i : ℤ) := by
  rcases h.cases (List.getElem?_eq_some_iff.1 hv).1 with ⟨-, hentry⟩ | ⟨i, ⟨⟨node, hnode, -⟩, -⟩, hentry⟩
  · rw [hv, Option.some.injEq] at hentry
    exact Or.inl hentry
  · rw [hv, Option.some.injEq] at hentry
    exact Or.inr ⟨i, (List.getElem?_eq_some_iff.1 hnode).1, hentry⟩

theorem claimed_iff_nonempty {s : UInt32} : Claimed nodes s ↔ (claimants nodes s).Nonempty := by
  constructor
  · rintro ⟨node, hn, hs⟩
    obtain ⟨i, hi⟩ := List.getElem?_of_mem hn
    exact ⟨i, node, hi, hs⟩
  · rintro ⟨i, node, hi, hs⟩
    exact ⟨node, List.mem_of_getElem? hi, hs⟩

/-- **`CheckSlot` determines the table**: ranges that it cannot tell apart give one table. -/
theorem Agrees.eq {nodes' : List NodeInfo} (hsame : ∀ s, claimants nodes s = claimants nodes' s)
    (h : Agrees nodes vec) (h' : Agrees nodes' vec') : vec = vec' := by
  have hclaimed : ∀ s, Claimed nodes' s ↔ Claimed nodes s := by
    intro s
    rw [claimed_iff_nonempty, claimed_iff_nonempty, hsame]
  have hlen : vec.length = vec'.length := by
    have hgreatest := h'.length
    simp only [hclaimed] at hgreatest
    exact h.length.unique hgreatest
  refine List.ext_getElem? fun k => ?_
  by_cases hk : k < vec.length
  · have hk' : k < vec'.length := hlen ▸ hk
    rcases h.cases hk with ⟨hfree, hentry⟩ | ⟨i, hi, hentry⟩ <;>
      rcases h'.cases hk' with ⟨hfree', hentry'⟩ | ⟨i', hi', hentry'⟩
    · rw [hentry, hentry']
    · exact absurd ((hclaimed _).1 (claimed_iff_nonempty.2 ⟨i', hi'.1⟩)) hfree
    · exact absurd ((hclaimed _).2 (claimed_iff_nonempty.2 ⟨i, hi.1⟩)) hfree'
    · rw [← hsame] at hi'
      rw [hentry, hentry', hi.unique hi']
  · rw [List.getElem?_eq_none (Nat.not_lt.1 hk), List.getElem?_eq_none (hlen ▸ Nat.not_lt.1 hk)]

end Graphize
