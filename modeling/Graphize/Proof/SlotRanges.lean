import Graphize.Proof.Refreshes

/-!
# Slot tokens of any kind

The slot fields of a reply are read with `atoi`, so a range may be reversed, huge or end
at `2^32 - 1`.

* `bounded_of_ends`: the loops end only if no range ends at `2^32 - 1`.
* `initSlotNodeMap_eq`: what they leave whenever they end.
* `tableSound_iff`, `table_sound_iff`: the table is that of a cluster exactly when every
  token gives an empty range or one that ends below 16384.
-/

namespace Graphize

open Table

/-! ## Whether the loops end -/

/-- A range that ends at `2^32 - 1` is never through. -/
theorem run_body_max (i : ℕ) (fuel : ℕ) (w : SlotFill) : While.run (SlotFill.body i 0xFFFFFFFF) fuel w = none := by
  refine While.run_diverges (fun _ => True) (fun w _ => ?_) fuel w trivial
  have hle : w.start ≤ 0xFFFFFFFF := by
    rw [UInt32.le_iff_toNat_le]
    exact Nat.le_of_lt_succ w.start.toNat_lt
  unfold SlotFill.body
  rw [if_pos hle]
  exact ⟨_, rfl, trivial⟩

/-- No range ends at `2^32 - 1`. -/
def Bounded (nodes : List NodeInfo) : Prop := ∀ node ∈ nodes, Below (2 ^ 32 - 1) node.mSlots

theorem fillNode_mono {n m : ℕ} (hnm : n ≤ m) {i : ℕ} {ranges : List (UInt32 × UInt32)} {vec vec' : List ℤ}
    (h : fillNode n vec i ranges = some vec') : fillNode m vec i ranges = some vec' := by
  refine While.foldlM_mono (fun vec r vec' h => ?_) h
  obtain ⟨w, hw, rfl⟩ := Option.map_eq_some_iff.1 h
  rw [While.run_mono hnm hw]
  rfl

theorem initSlotNodeMap_mono {n m : ℕ} (hnm : n ≤ m) {nodes : List NodeInfo} {vec vec' : List ℤ}
    (h : initSlotNodeMap n vec nodes = some vec') : initSlotNodeMap m vec nodes = some vec' :=
  While.foldlM_mono (fun _ _ _ h => fillNode_mono hnm h) h

/-- **The loops end** only if no range ends at `2^32 - 1`. -/
theorem bounded_of_ends {fuel : ℕ} {nodes : List NodeInfo} {vec vec' : List ℤ}
    (h : initSlotNodeMap fuel vec nodes = some vec') : Bounded nodes := by
  intro node hn r hr
  obtain ⟨i, hi⟩ := List.getElem?_of_mem hn
  have hmem : (node, i) ∈ nodes.zipIdx := List.mk_mem_zipIdx_iff_getElem?.2 hi
  obtain ⟨v, v', hfill⟩ := While.foldlM_each h _ hmem
  obtain ⟨u, u', hrun⟩ := While.foldlM_each hfill r hr
  by_contra hlt
  have hmax : r.2 = 0xFFFFFFFF := by
    apply UInt32.toNat_inj.1
    have := r.2.toNat_lt
    have h0 : (0xFFFFFFFF : UInt32).toNat = 2 ^ 32 - 1 := rfl
    omega
  rw [hmax, run_body_max] at hrun
  exact absurd hrun (by simp)

/-- **What the loops leave**, whenever they end. -/
theorem initSlotNodeMap_eq {fuel : ℕ} {nodes : List NodeInfo} {vec vec' : List ℤ}
    (h : initSlotNodeMap fuel vec nodes = some vec') :
    vec'.length = nodes.foldl (fun n node => grown node.mSlots n) 16384 ∧
      ∀ k, get (-1) vec' k = lastIdx (fun node => covers node.mSlots k) (get (-1) (resize 16384 (-1) vec) k) 0 nodes := by
  have hmore : 2 ^ 32 - 1 < max fuel (2 ^ 32) := lt_of_lt_of_le (by decide) (le_max_right fuel (2 ^ 32))
  obtain ⟨v, hv, hlen, hget⟩ := initSlotNodeMap_spec (by decide) hmore (bounded_of_ends h) vec
  rw [initSlotNodeMap_mono (le_max_left fuel (2 ^ 32)) h, Option.some.injEq] at hv
  rw [hv]
  exact ⟨hlen, hget⟩

/-! ## The size of the table -/

theorem grown_cons (r : UInt32 × UInt32) (ranges : List (UInt32 × UInt32)) (n : ℕ) :
    grown (r :: ranges) n = grown ranges (if r.1 ≤ r.2 then max n (r.2.toNat + 1) else n) := rfl

theorem le_grown : ∀ (ranges : List (UInt32 × UInt32)) (n : ℕ), n ≤ grown ranges n := by
  intro ranges
  induction ranges with
  | nil => intro n; exact le_rfl
  | cons r ranges ih =>
    intro n
    rw [grown_cons]
    refine le_trans ?_ (ih _)
    split <;> omega

theorem lt_grown : ∀ {ranges : List (UInt32 × UInt32)} {r : UInt32 × UInt32} (n : ℕ), r ∈ ranges → r.1 ≤ r.2 →
    r.2.toNat < grown ranges n := by
  intro ranges
  induction ranges with
  | nil => intro r n h; exact absurd h (by simp)
  | cons r₀ ranges ih =>
    intro r n h hle
    rw [grown_cons]
    rcases List.mem_cons.1 h with rfl | h
    · refine lt_of_lt_of_le ?_ (le_grown ranges _)
      rw [if_pos hle]
      omega
    · exact ih _ h hle

/-- Every range is empty or ends below 16384. -/
def InTable (ranges : List (UInt32 × UInt32)) : Prop := ∀ r ∈ ranges, r.1 ≤ r.2 → r.2.toNat < 16384

theorem grown_inTable : ∀ {ranges : List (UInt32 × UInt32)}, InTable ranges → grown ranges 16384 = 16384 := by
  intro ranges
  induction ranges with
  | nil => intro _; rfl
  | cons r ranges ih =>
    intro h
    obtain ⟨hr, hrs⟩ := List.forall_mem_cons.1 h
    rw [grown_cons]
    by_cases hle : r.1 ≤ r.2
    · have hmax : max 16384 (r.2.toNat + 1) = 16384 := by
        have := hr hle
        omega
      rw [if_pos hle, hmax, ih hrs]
    · rw [if_neg hle, ih hrs]

theorem le_grownAll : ∀ (nodes : List NodeInfo) (n : ℕ), n ≤ nodes.foldl (fun n node => grown node.mSlots n) n := by
  intro nodes
  induction nodes with
  | nil => intro n; exact le_rfl
  | cons node nodes ih => intro n; exact le_trans (le_grown _ _) (ih _)

theorem lt_grownAll : ∀ {nodes : List NodeInfo} {node : NodeInfo} {r : UInt32 × UInt32} (n : ℕ), node ∈ nodes →
    r ∈ node.mSlots → r.1 ≤ r.2 → r.2.toNat < nodes.foldl (fun n node => grown node.mSlots n) n := by
  intro nodes
  induction nodes with
  | nil => intro node r n h; exact absurd h (by simp)
  | cons node₀ nodes ih =>
    intro node r n h hr hle
    rcases List.mem_cons.1 h with rfl | h
    · exact lt_of_lt_of_le (lt_grown n hr hle) (le_grownAll _ _)
    · exact ih _ h hr hle

theorem grownAll_inTable : ∀ {nodes : List NodeInfo}, (∀ node ∈ nodes, InTable node.mSlots) →
    nodes.foldl (fun n node => grown node.mSlots n) 16384 = 16384 := by
  intro nodes
  induction nodes with
  | nil => intro _; rfl
  | cons node nodes ih =>
    intro h
    obtain ⟨hnode, hnodes⟩ := List.forall_mem_cons.1 h
    rw [List.foldl_cons, grown_inTable hnode, ih hnodes]

/-- Ranges within the table do not end at `2^32 - 1`. -/
theorem bounded_of_inTable {nodes : List NodeInfo} (h : ∀ node ∈ nodes, InTable node.mSlots) : Bounded nodes := by
  intro node hn r hr
  by_contra hlt
  have hle : r.1 ≤ r.2 := by
    rw [UInt32.le_iff_toNat_le]
    have := r.1.toNat_lt
    omega
  have := h node hn r hr hle
  omega

/-! ## A sound table -/

/-- The ranges that `ParseSlotString` does not report as wrong. -/
def NodeInfo.unreported (node : NodeInfo) : NodeInfo :=
  { node with mSlots := node.mSlots.filter fun r => ¬(r.1 > 16384 ∨ r.2 > 16384) }

/-- The loop over one range of one node comes to the state `w`: the node is `i`, and the
range ends at `e`. -/
inductive AtSlot (fuel : ℕ) (nodes : List NodeInfo) (i : ℕ) (e : UInt32) : SlotFill → Prop
  | enter {before : List NodeInfo} {node : NodeInfo} {after : List NodeInfo} {done : List (UInt32 × UInt32)}
      {s : UInt32} {rest : List (UInt32 × UInt32)} {vec vec' : List ℤ} (hnodes : nodes = before ++ node :: after)
      (hi : i = before.length) (hranges : node.mSlots = done ++ (s, e) :: rest)
      (hbefore : initSlotNodeMap fuel [] before = some vec) (hdone : fillNode fuel vec i done = some vec') :
      AtSlot fuel nodes i e ⟨s, vec'⟩
  | round {w w' : SlotFill} (h : AtSlot fuel nodes i e w) (hw : SlotFill.body i e w = some w') : AtSlot fuel nodes i e w'

theorem AtSlot.mem {fuel : ℕ} {nodes : List NodeInfo} {i : ℕ} {e : UInt32} {w : SlotFill} (h : AtSlot fuel nodes i e w) :
    ∃ node ∈ nodes, ∃ r ∈ node.mSlots, r.2 = e := by
  induction h with
  | enter hnodes hi hranges hbefore hdone =>
    rename_i before node after done s rest vec vec'
    exact ⟨node, by rw [hnodes]; simp, (s, e), by rw [hranges]; simp, rfl⟩
  | round h hw ih => exact ih

/-- The loops end on a new table, which keeps its 16384 entries, each a node or -1; what is
reported is as if it were not there; and no write is beyond the vector. -/
structure TableSound (nodes : List NodeInfo) : Prop where
  ends : ∃ fuel₀ vec, (∀ fuel, fuel₀ ≤ fuel → initSlotNodeMap fuel [] nodes = some vec) ∧ vec.length = 16384 ∧
    (∀ v ∈ vec, v = -1 ∨ ∃ i < nodes.length, v = (i : ℕ)) ∧
    ∀ fuel, fuel₀ ≤ fuel → initSlotNodeMap fuel [] (nodes.map NodeInfo.unreported) = some vec
  writes : ∀ fuel i e w, AtSlot fuel nodes i e w → w.start ≤ e → w.start.toNat < w.room.length

theorem get_fresh (k : ℕ) : get (-1) (resize 16384 (-1) ([] : List ℤ)) k = -1 := by
  rw [get_resize]
  split <;> rfl

/-- What is reported is empty, in ranges within the table. -/
theorem covers_unreported {node : NodeInfo} (h : InTable node.mSlots) (k : ℕ) :
    covers node.unreported.mSlots k = covers node.mSlots k := by
  unfold NodeInfo.unreported covers
  rw [List.any_filter, Bool.eq_iff_iff, List.any_eq_true, List.any_eq_true]
  refine exists_congr fun r => and_congr_right fun hr => ?_
  rw [Bool.and_eq_true, decide_eq_true_eq, and_iff_right_iff_imp, decide_eq_true_eq]
  intro hk
  have hle : r.1 ≤ r.2 := by
    rw [UInt32.le_iff_toNat_le]
    omega
  have hin := h r hr hle
  rw [gt_iff_lt, gt_iff_lt, UInt32.lt_iff_toNat_lt, UInt32.lt_iff_toNat_lt]
  have h0 : (16384 : UInt32).toNat = 16384 := rfl
  omega

/-- **A sound table** comes exactly from ranges that are empty or end below 16384. -/
theorem tableSound_iff (nodes : List NodeInfo) : TableSound nodes ↔ ∀ node ∈ nodes, InTable node.mSlots := by
  constructor
  · rintro ⟨⟨fuel, vec, hvec, hlen, -, -⟩, -⟩ node hn r hr hle
    have hlen' := (initSlotNodeMap_eq (hvec fuel le_rfl)).1
    -- a range past the last slot has made the table longer
    have := lt_grownAll 16384 hn hr hle
    omega
  · intro h
    have hb := bounded_of_inTable h
    have hf : 2 ^ 32 - 1 < 2 ^ 32 := by decide
    have h' : ∀ node ∈ nodes.map NodeInfo.unreported, InTable node.mSlots := by
      intro node hn
      obtain ⟨node₀, hn₀, rfl⟩ := List.mem_map.1 hn
      intro r hr
      exact h node₀ hn₀ r (List.mem_filter.1 hr).1
    obtain ⟨vec, hvec, hlen, hget⟩ := initSlotNodeMap_spec (by decide) hf hb []
    obtain ⟨vec', hvec', hlen', hget'⟩ := initSlotNodeMap_spec (by decide) hf (bounded_of_inTable h') []
    rw [grownAll_inTable h] at hlen
    rw [grownAll_inTable h'] at hlen'
    -- leaving out the ranges from 16384 on changes no entry: here there are none
    have hsame : vec' = vec := by
      refine eq_of_get (d := -1) (hlen'.trans hlen.symm) fun k => ?_
      rw [hget, hget', lastIdx_map]
      exact lastIdx_congr _ _ fun node hn => covers_unreported (h node hn) k
    rw [hsame] at hvec'
    refine ⟨⟨2 ^ 32, vec, fun fuel hle => initSlotNodeMap_mono hle hvec, hlen, fun v hv => ?_,
      fun fuel hle => initSlotNodeMap_mono hle hvec'⟩, ?_⟩
    · obtain ⟨k, hk, rfl⟩ := List.getElem_of_mem hv
      have hval : get (-1) vec k = vec[k] := by
        unfold Table.get
        rw [List.getElem?_eq_getElem hk, Option.getD_some]
      rw [← hval, hget, get_fresh]
      exact lastIdx_range _ _ nodes
    · intro fuel i e w hw hle
      obtain ⟨node, hn, r, hr, rfl⟩ := hw.mem
      have hbound := hb node hn r hr
      rw [UInt32.le_iff_toNat_le] at hle
      -- the end is below 16384, so the counter does not wrap and the resize leaves room
      have hnext : (w.start + 1).toNat = w.start.toNat + 1 := by
        rw [UInt32.toNat_add]
        exact Nat.mod_eq_of_lt (by have h1 : (1 : UInt32).toNat = 1 := rfl; omega)
      unfold SlotFill.room
      by_cases hlt : w.start.toNat < w.vec.length
      · rw [if_pos hlt]
        exact hlt
      · rw [if_neg hlt, length_resize, hnext]
        exact Nat.lt_succ_self _

/-! ## Tokens -/

/-- The numbers of a slot token: those before and after the first dash, or the only one. -/
def tokenEnds (t : Str) : ℤ × ℤ :=
  if '-' ∈ t then (atoi (t.takeWhile fun c => c ≠ '-'), atoi ((t.dropWhile fun c => c ≠ '-').drop 1)) else (atoi t, atoi t)

/-- As unsigned numbers, a token's ends are reversed or its last slot is below 16384. -/
def TokenInTable (t : Str) : Prop := (tokenEnds t).2 % 2 ^ 32 < (tokenEnds t).1 % 2 ^ 32 ∨ (tokenEnds t).2 % 2 ^ 32 < 16384

instance : DecidablePred TokenInTable := fun t =>
  inferInstanceAs (Decidable ((tokenEnds t).2 % 2 ^ 32 < (tokenEnds t).1 % 2 ^ 32 ∨ (tokenEnds t).2 % 2 ^ 32 < 16384))

/-- **`ParseSlotString`** on any token. -/
theorem parseSlotString_ends (node : NodeInfo) (t : Str) : node.parseSlotString t =
    { node with mSlots := node.mSlots ++ [(UInt32.ofInt (tokenEnds t).1, UInt32.ofInt (tokenEnds t).2)] } := by
  unfold NodeInfo.parseSlotString tokenEnds
  by_cases h : '-' ∈ t
  · rw [if_pos h, if_pos h]
  · rw [if_neg h, if_neg h]

theorem mSlots_ends : ∀ ts : List Str, (ts.foldl NodeInfo.parseSlotString {}).mSlots =
    ts.map fun t => (UInt32.ofInt (tokenEnds t).1, UInt32.ofInt (tokenEnds t).2) := by
  intro ts
  induction ts with
  | nil => rfl
  | cons t ts ih =>
    obtain ⟨-, -, -, h⟩ := mSlots_foldl ts (NodeInfo.parseSlotString {} t)
    rw [List.foldl_cons, h, ih, parseSlotString_ends]
    rfl

theorem toNat_ofInt (z : ℤ) : ((UInt32.ofInt z).toNat : ℤ) = z % 2 ^ 32 := by
  have hpos : 0 ≤ z % 2 ^ 32 := Int.emod_nonneg z (by decide)
  have hlt : z % 2 ^ 32 < 2 ^ 32 := Int.emod_lt_of_pos z (by decide)
  unfold UInt32.ofInt
  rw [UInt32.toNat_ofNat']
  omega

theorem inTable_ends (ts : List Str) :
    InTable (ts.foldl NodeInfo.parseSlotString {}).mSlots ↔ ∀ t ∈ ts, TokenInTable t := by
  unfold InTable
  rw [mSlots_ends, List.forall_mem_map]
  refine forall₂_congr fun t _ => ?_
  have h1 := toNat_ofInt (tokenEnds t).1
  have h2 := toNat_ofInt (tokenEnds t).2
  unfold TokenInTable
  rw [UInt32.le_iff_toNat_le]
  simp only
  omega

/-- **When the table is sound**: every slot token of a kept line has its ends reversed or
ends below 16384. -/
theorem table_sound_iff (data : Str) : TableSound (replyNodes data) ↔
    ∀ line ∈ keptLines data, ∀ t ∈ (splitCompress ' ' line).drop 8, TokenInTable t := by
  rw [tableSound_iff, ← nodesOf_keptLines]
  unfold nodesOf
  constructor
  · intro h line hl
    obtain ⟨node, hnode⟩ := Option.isSome_iff_exists.1 (kept_keptLines data line hl)
    have hin := h node (List.mem_filterMap.2 ⟨line, hl, hnode⟩)
    rw [mSlots_ofLine hnode] at hin
    exact (inTable_ends _).1 hin
  · intro h node hn
    obtain ⟨line, hl, hnode⟩ := List.mem_filterMap.1 hn
    rw [mSlots_ofLine hnode]
    exact (inTable_ends _).2 (h line hl)

/-- A reversed range and the last slot. -/
theorem table_sound_last : TableSound (replyNodes (masterLine "0-8191 300-200 16383".toList)) := by
  rw [table_sound_iff]
  decide

/-- The token `16384`, which passes the check, is written behind the last slot. -/
theorem table_unsound : ¬∀ data, TableSound (replyNodes data) := by
  intro h
  have hnodes : (replyNodes (masterLine "16384".toList)).map NodeInfo.mSlots = [[(16384, 16384)]] := by decide
  have hall := (tableSound_iff _).1 (h (masterLine "16384".toList))
  obtain ⟨node, hn, hslots⟩ := List.mem_map.1 (hnodes ▸ List.mem_singleton_self _)
  have hin := hall node hn (16384, 16384) (by rw [hslots]; exact List.mem_singleton_self _) (by decide)
  exact absurd hin (by decide)

end Graphize
