import Graphize.Proof.ClusterText
import Graphize.Proof.FreshPool

/-!
# Slots that migrate

While a slot moves, redis prints a mark among the slot fields of the two nodes:
`[slot->-node]` where it leaves and `[slot-<-node]` where it arrives. `ParseSlotString`
takes the part before the first dash for a number, and reads slot 0.

* `ofLine_marked`: what a line with marks is read as.
* `marks_harmless_iff`: the marks leave the table as it is exactly when no kept line has
  one behind the last line that claims slot 0.
-/

namespace Graphize

open Table Tokens

/-- The mark of a slot that leaves for a node, or arrives from it. -/
structure MigrationMark where
  slot : Fin 16384
  importing : Bool
  nodeId : Str
  nodeId_spaceless : Spaceless nodeId

/-- A slot field: slots, or a mark. -/
inductive SlotField
  | slots (t : SlotToken)
  | mark (m : MigrationMark)

def MigrationMark.text (m : MigrationMark) : Str :=
  '[' :: (toDecimal m.slot ++ '-' :: ((if m.importing then '<' else '>') :: '-' :: (m.nodeId ++ [']'])))

namespace SlotField

def text : SlotField → Str
  | slots t => t.text
  | mark m => m.text

/-- The slots of a field that is no mark. -/
def token? : SlotField → Option SlotToken
  | slots t => some t
  | mark _ => none

/-- The pair that a field is read as. -/
def pair : SlotField → UInt32 × UInt32
  | slots t => t.pair
  | mark _ => (0, 0)

end SlotField

/-- A record, and its slot fields with any marks inserted. -/
structure MarkedRecord where
  record : NodeRecord
  slotFields : List SlotField
  agree : slotFields.filterMap SlotField.token? = record.slots

namespace MarkedRecord

def fields (m : MarkedRecord) : List Str := m.record.heading ++ m.slotFields.map SlotField.text

/-- The line of a record with its marks. -/
def render (m : MarkedRecord) : Str := [' '].intercalate m.fields

/-- The line has a mark. -/
def Marked (m : MarkedRecord) : Prop := ∃ mark, SlotField.mark mark ∈ m.slotFields

/-- What a kept line is read as. -/
def node (m : MarkedRecord) : NodeInfo :=
  { m.record.node with strinfo := m.render, mSlots := m.slotFields.map SlotField.pair }

end MarkedRecord

/-- The reply of a cluster in which slots migrate. -/
def renderMarked (records : List MarkedRecord) : Str := records.flatMap fun m => m.render ++ ['\n']

/-- The records that are kept. -/
def keptMarked (records : List MarkedRecord) : List MarkedRecord := records.filter fun m => m.record.Kept

/-- Every mark on a kept line is on the last line that claims slot 0, or before it. -/
def MarksBeforeSlotZero (records : List MarkedRecord) : Prop :=
  ∀ (i : ℕ) m, (keptMarked records)[i]? = some m → m.Marked →
    ∃ (j : ℕ) (m' : MarkedRecord), i ≤ j ∧ (keptMarked records)[j]? = some m' ∧ m'.record.Claims 0

/-! ## Reading the marks -/

theorem MigrationMark.spaceless (m : MigrationMark) : Spaceless m.text where
  ne_nil := List.cons_ne_nil _ _
  noSpace := by
    intro c hc
    unfold MigrationMark.text at hc
    simp only [List.mem_cons, List.mem_append, List.not_mem_nil, or_false] at hc
    rcases hc with rfl | hc | rfl | rfl | rfl | hc | rfl
    · decide
    · exact (spaceless_toDecimal m.slot).noSpace c hc
    · decide
    · cases m.importing <;> decide
    · decide
    · exact m.nodeId_spaceless.noSpace c hc
    · decide

theorem SlotField.spaceless (f : SlotField) : Spaceless f.text := by
  cases f with
  | slots t => exact t.spaceless
  | mark m => exact m.spaceless

/-- A text that does not begin like a number is read as 0. -/
theorem atoi_cons {c : Char} (s : Str) (hspace : isSpace c = false) (hdigit : c.isDigit = false) (hminus : c ≠ '-')
    (hplus : c ≠ '+') : atoi (c :: s) = 0 := by
  have hval : strtol (c :: s) = 0 := by
    unfold strtol
    rw [List.dropWhile_cons, if_neg (by rw [hspace]; simp)]
    split
    · rename_i s heq
      exact absurd (List.cons.inj heq).1 hminus
    · rename_i s heq
      exact absurd (List.cons.inj heq).1 hplus
    · rw [List.takeWhile_cons, if_neg (by rw [hdigit]; simp)]
      rfl
  unfold atoi
  rw [hval]
  rfl

/-- **A mark is read as slot 0.** -/
theorem parseSlotString_mark (m : MigrationMark) (node : NodeInfo) :
    node.parseSlotString m.text = { node with mSlots := node.mSlots ++ [(0, 0)] } := by
  have hdash : '-' ∉ '[' :: toDecimal m.slot := by
    intro h
    rcases List.mem_cons.1 h with h | h
    · exact absurd h (by decide)
    · exact absurd (isDigit_of_mem h) (by decide)
  have htext : m.text = ('[' :: toDecimal m.slot) ++ '-' :: ((if m.importing then '<' else '>') :: '-' :: (m.nodeId ++ [']'])) := rfl
  have harrow : atoi ((if m.importing then '<' else '>') :: '-' :: (m.nodeId ++ [']'])) = 0 := by
    cases m.importing with
    | true => exact atoi_cons _ (by decide) (by decide) (by decide) (by decide)
    | false => exact atoi_cons _ (by decide) (by decide) (by decide) (by decide)
  have hends : tokenEnds m.text = (0, 0) := by
    unfold tokenEnds
    rw [htext, if_pos (by simp), (takeWhile_until hdash).1, (takeWhile_until hdash).2, List.drop_succ_cons, List.drop_zero,
      harrow, atoi_cons _ (by decide) (by decide) (by decide) (by decide)]
  rw [parseSlotString_ends, hends]
  rfl

theorem parseSlotString_field (f : SlotField) (node : NodeInfo) :
    node.parseSlotString f.text = { node with mSlots := node.mSlots ++ [f.pair] } := by
  cases f with
  | slots t => exact parseSlotString_text t node
  | mark m => exact parseSlotString_mark m node

theorem parseSlots_fields : ∀ (fs : List SlotField) (node : NodeInfo),
    (fs.map SlotField.text).foldl NodeInfo.parseSlotString node =
      { node with mSlots := node.mSlots ++ fs.map SlotField.pair } := by
  intro fs
  induction fs with
  | nil => intro node; simp
  | cons f fs ih =>
    intro node
    rw [List.map_cons, List.foldl_cons, parseSlotString_field, ih]
    simp

/-- **A line with marks.** -/
theorem ofLine_marked (m : MarkedRecord) : NodeInfo.ofLine m.render = if m.record.Kept then some m.node else none := by
  unfold MarkedRecord.render MarkedRecord.fields
  rw [ofLine_slots m.record, parseSlots_fields]
  · rfl
  · intro t ht
    obtain ⟨f, -, rfl⟩ := List.mem_map.1 ht
    exact f.spaceless

theorem replyNodes_marked (records : List MarkedRecord) :
    replyNodes (renderMarked records) = (keptMarked records).map MarkedRecord.node := by
  by_cases hne : records = []
  · rw [hne]
    decide
  · have hfields : ∀ ts ∈ records.map MarkedRecord.fields, ts ≠ [] ∧ ∀ t ∈ ts, Spaceless t := by
      intro ts hts
      obtain ⟨m, -, rfl⟩ := List.mem_map.1 hts
      refine ⟨List.cons_ne_nil _ _, fun t ht => ?_⟩
      rcases List.mem_append.1 ht with ht | ht
      · exact m.record.spaceless_heading t ht
      · obtain ⟨f, -, rfl⟩ := List.mem_map.1 ht
        exact f.spaceless
    have hlines := replyLines_fields (by simpa using hne) hfields
    rw [List.flatMap_map, List.map_map] at hlines
    have hlines' : replyLines (renderMarked records) = records.map MarkedRecord.render := hlines
    unfold replyNodes keptMarked
    rw [hlines', List.filterMap_map, ← List.filterMap_eq_map, List.filterMap_filter]
    refine List.filterMap_congr fun m _ => ?_
    rw [Function.comp_apply, ofLine_marked]
    by_cases hk : m.record.Kept
    · rw [if_pos hk, if_pos (decide_eq_true hk)]
      rfl
    · rw [if_neg hk, if_neg (by simpa using hk)]

/-! ## The table -/

/-- A field is a mark. -/
def SlotField.isMark : SlotField → Bool
  | slots _ => false
  | mark _ => true

theorem MarkedRecord.marked_iff (m : MarkedRecord) : m.Marked ↔ m.slotFields.any SlotField.isMark = true := by
  rw [List.any_eq_true]
  constructor
  · rintro ⟨mark, h⟩
    exact ⟨_, h, rfl⟩
  · rintro ⟨f, hf, hmark⟩
    cases f with
    | slots t => exact absurd hmark (by simp [SlotField.isMark])
    | mark mark => exact ⟨mark, hf⟩

/-- The slots of fields, with slot 0 for the marks. -/
theorem covers_fields (k : ℕ) : ∀ fs : List SlotField, covers (fs.map SlotField.pair) k =
    (covers ((fs.filterMap SlotField.token?).map SlotToken.pair) k || (decide (k = 0) && fs.any SlotField.isMark)) := by
  intro fs
  induction fs with
  | nil => simp [covers]
  | cons f fs ih =>
    rw [List.map_cons, covers_cons, ih, List.any_cons]
    cases f with
    | slots t =>
      have hmark : (SlotField.slots t).isMark = false := rfl
      have hpair : (SlotField.slots t).pair = t.pair := rfl
      have htoken : (SlotField.slots t).token? = some t := rfl
      rw [List.filterMap_cons_some htoken, List.map_cons, covers_cons, hmark, hpair, Bool.false_or, Bool.or_assoc]
    | mark m =>
      have hmark : (SlotField.mark m).isMark = true := rfl
      have hzero : decide ((SlotField.mark m).pair.1.toNat ≤ k ∧ k ≤ (SlotField.mark m).pair.2.toNat) = decide (k = 0) := by
        rw [decide_eq_decide]
        have hpair : (SlotField.mark m).pair.1.toNat = 0 ∧ (SlotField.mark m).pair.2.toNat = 0 := ⟨rfl, rfl⟩
        omega
      rw [List.filterMap_cons_none rfl, hzero, hmark, Bool.true_or, Bool.and_true]
      cases decide (k = 0) <;> simp

theorem MarkedRecord.covers_node (m : MarkedRecord) (k : ℕ) : covers m.node.mSlots k =
    (covers m.record.node.mSlots k || (decide (k = 0) && m.slotFields.any SlotField.isMark)) := by
  have hfields := covers_fields k m.slotFields
  rw [m.agree] at hfields
  exact hfields

theorem keptRecords_marked (records : List MarkedRecord) :
    keptRecords (records.map MarkedRecord.record) = (keptMarked records).map MarkedRecord.record := by
  unfold keptRecords keptMarked
  rw [List.filter_map]
  rfl

section Table

variable {Conn : Type*} {env : RedisClientEnv Conn} {fuel : ℕ}

theorem inTable_of_below {ranges : List (UInt32 × UInt32)} (h : Below 16384 ranges) : InTable ranges := fun r hr _ => h r hr

theorem below_marked (m : MarkedRecord) : Below 16384 m.node.mSlots := by
  intro r hr
  obtain ⟨f, hf, rfl⟩ := List.mem_map.1 hr
  cases f with
  | slots t => exact below_pairs [t] _ (List.mem_singleton_self _)
  | mark mark => exact Nat.succ_pos _

/-- A pool built from slots within the table. -/
theorem FreshPool.length_table {unset : ℕ → UInt16} {nodes : List NodeInfo} {pool : ChannelPool Conn}
    (h : FreshPool fuel env unset nodes pool) (hb : ∀ node ∈ nodes, Below 16384 node.mSlots) :
    pool.slotIpportIndexVec.length = if nodes.length = 0 then 0 else 16384 := by
  rcases h.table with ⟨rfl, hnil⟩ | ⟨hne, hvec⟩
  · rw [hnil]
    rfl
  · rw [(initSlotNodeMap_eq hvec).1, if_neg fun h => hne (List.eq_nil_of_length_eq_zero h),
      grownAll_inTable fun node hn => inTable_of_below (hb node hn)]

/-- Slots within the table are built where pools can be. -/
theorem init_of_below (hf : 16384 < fuel) (hb : env.Builds) {data : Str} (unset : ℕ → UInt16)
    (h : ∀ node ∈ replyNodes data, Below 16384 node.mSlots) :
    ∃ c, RedisClient.initChannelPool fuel env {} 0 (.text data unset) = some (.ok c) := by
  obtain ⟨vec, hvec, -⟩ := initSlotNodeMap_spec (by decide) hf h []
  exact initChannelPool_ends hvec fun _ => hb

theorem replyNodes_unmarked (records : List MarkedRecord) :
    replyNodes (renderNodes (records.map MarkedRecord.record)) = (keptMarked records).map fun m => m.record.node := by
  rw [replyNodes_render, keptRecords_marked, List.map_map]
  rfl

theorem below_keptMarked (records : List MarkedRecord) :
    (∀ node ∈ (keptMarked records).map fun m => m.record.node, Below 16384 node.mSlots) ∧
      ∀ node ∈ (keptMarked records).map MarkedRecord.node, Below 16384 node.mSlots := by
  rw [List.forall_mem_map, List.forall_mem_map]
  exact ⟨fun m _ => m.record.wellFormed_node.below, fun m _ => below_marked m⟩

/-- The pools can be built, with the marks and without. -/
theorem marked_total (hf : 16384 < fuel) (hbuilds : env.Builds) (records : List MarkedRecord) (unset unset' : ℕ → UInt16) :
    ∃ c c',
      RedisClient.initChannelPool fuel env {} 0 (.text (renderNodes (records.map MarkedRecord.record)) unset) = some (.ok c) ∧
        RedisClient.initChannelPool fuel env {} 0 (.text (renderMarked records) unset') = some (.ok c') := by
  obtain ⟨hb, hb'⟩ := below_keptMarked records
  rw [← replyNodes_unmarked] at hb
  rw [← replyNodes_marked] at hb'
  obtain ⟨c, hc⟩ := init_of_below hf hbuilds unset hb
  obtain ⟨c', hc'⟩ := init_of_below hf hbuilds unset' hb'
  exact ⟨c, c', hc, hc'⟩

/-- **The two tables.** -/
theorem table_marked_iff {records : List MarkedRecord} {unset unset' : ℕ → UInt16} {c c' : RedisClient Conn}
    (hc : RedisClient.initChannelPool fuel env {} 0 (.text (renderNodes (records.map MarkedRecord.record)) unset) =
      some (.ok c))
    (hc' : RedisClient.initChannelPool fuel env {} 0 (.text (renderMarked records) unset') = some (.ok c')) :
    c'.getCurChannelPool.slotIpportIndexVec = c.getCurChannelPool.slotIpportIndexVec ↔ MarksBeforeSlotZero records := by
  obtain ⟨hb, hb'⟩ := below_keptMarked records
  have hfresh := freshPool_of_init hc
  have hfresh' := freshPool_of_init hc'
  rw [replyNodes_unmarked] at hfresh
  rw [replyNodes_marked] at hfresh'
  have hlen : c'.getCurChannelPool.slotIpportIndexVec.length = c.getCurChannelPool.slotIpportIndexVec.length := by
    rw [hfresh.length_table hb, hfresh'.length_table hb', List.length_map, List.length_map]
  have hget : ∀ k, get (-1) c.getCurChannelPool.slotIpportIndexVec k =
      lastIdx (fun m : MarkedRecord => covers m.record.node.mSlots k) (-1) 0 (keptMarked records) := fun k => by
    rw [hfresh.slots, lastIdx_map]
  have hget' : ∀ k, get (-1) c'.getCurChannelPool.slotIpportIndexVec k =
      lastIdx (fun m : MarkedRecord => covers m.record.node.mSlots k || (decide (k = 0) && m.slotFields.any SlotField.isMark))
        (-1) 0 (keptMarked records) := fun k => by
    rw [hfresh'.slots, lastIdx_map]
    exact lastIdx_congr _ _ fun m _ => m.covers_node k
  -- only the entry of slot 0 can differ
  have hzero : c'.getCurChannelPool.slotIpportIndexVec = c.getCurChannelPool.slotIpportIndexVec ↔
      get (-1) c'.getCurChannelPool.slotIpportIndexVec 0 = get (-1) c.getCurChannelPool.slotIpportIndexVec 0 := by
    refine ⟨fun heq => by rw [heq], fun h0 => eq_of_get (d := -1) hlen fun k => ?_⟩
    by_cases hk : k = 0
    · rw [hk]
      exact h0
    · rw [hget, hget']
      refine lastIdx_congr _ _ fun m _ => ?_
      rw [decide_eq_false hk, Bool.false_and, Bool.or_false]
  have hclaims : ∀ m : MarkedRecord, covers m.record.node.mSlots 0 = true ↔ m.record.Claims 0 := fun m =>
    covers_pairs m.record.slots 0
  rw [hzero, hget, hget', decide_eq_true (Eq.refl 0)]
  simp only [Bool.true_and]
  rw [lastIdx_or _ (by decide)]
  unfold MarksBeforeSlotZero
  simp only [hclaims, MarkedRecord.marked_iff]

/-- **When marks are harmless**: pools are built with and without them; and the tables are
the same exactly when no mark comes behind the last line that claims slot 0. -/
theorem marks_harmless_iff (records : List MarkedRecord) (unset unset' : ℕ → UInt16) :
    (16384 < fuel → env.Builds → ∃ c c',
      RedisClient.initChannelPool fuel env {} 0 (.text (renderNodes (records.map MarkedRecord.record)) unset) = some (.ok c) ∧
        RedisClient.initChannelPool fuel env {} 0 (.text (renderMarked records) unset') = some (.ok c')) ∧
    ∀ c c',
      RedisClient.initChannelPool fuel env {} 0 (.text (renderNodes (records.map MarkedRecord.record)) unset) = some (.ok c) →
      RedisClient.initChannelPool fuel env {} 0 (.text (renderMarked records) unset') = some (.ok c') →
        (c'.getCurChannelPool.slotIpportIndexVec = c.getCurChannelPool.slotIpportIndexVec ↔ MarksBeforeSlotZero records) :=
  ⟨fun hf hb => marked_total hf hb records unset unset', fun _ _ hc hc' => table_marked_iff hc hc'⟩

/-- The slots from `a` to `a + n`. -/
def slotsFrom (a n : ℕ) (h : a + n < 16384) : SlotToken :=
  .range ⟨a, lt_of_le_of_lt (Nat.le_add_right a n) h⟩ ⟨a + n, h⟩ (Nat.le_add_right a n)

theorem lowerHalf : 0 + 8191 < 16384 := by decide

theorem upperHalf : 8192 + 8191 < 16384 := by decide

theorem migrating_lt : 100 < 16384 := by decide

theorem spaceless_e7d1 : Spaceless "e7d1".toList := Spaceless.of_all (by decide) (by decide)

/-- Slot 100 moves from the first master to the second, which marks it. -/
def importing : List MarkedRecord :=
  [⟨nodeAt 1 [.master] [slotsFrom 0 8191 lowerHalf], [.slots (slotsFrom 0 8191 lowerHalf)], rfl⟩,
    ⟨nodeAt 2 [.master] [slotsFrom 8192 8191 upperHalf],
      [.slots (slotsFrom 8192 8191 upperHalf), .mark ⟨⟨100, migrating_lt⟩, true, "e7d1".toList, spaceless_e7d1⟩], rfl⟩]

/-- The first master, which has slot 0, marks it as leaving. -/
def migrating : List MarkedRecord :=
  [⟨nodeAt 1 [.master] [slotsFrom 0 8191 lowerHalf],
      [.slots (slotsFrom 0 8191 lowerHalf), .mark ⟨⟨100, migrating_lt⟩, false, "e7d1".toList, spaceless_e7d1⟩], rfl⟩,
    ⟨nodeAt 2 [.master] [slotsFrom 8192 8191 upperHalf], [.slots (slotsFrom 8192 8191 upperHalf)], rfl⟩]

/-- A mark on the line of slot 0. -/
theorem marks_harmless_migrating : ∃ c c' : RedisClient Unit,
    RedisClient.initChannelPool 16385 oneConnection {} 0
        (.text (renderNodes (migrating.map MarkedRecord.record)) fun _ => 0) = some (.ok c) ∧
      RedisClient.initChannelPool 16385 oneConnection {} 0 (.text (renderMarked migrating) fun _ => 0) = some (.ok c') ∧
      c'.getCurChannelPool.slotIpportIndexVec = c.getCurChannelPool.slotIpportIndexVec := by
  obtain ⟨hbuilt, hiff⟩ := @marks_harmless_iff Unit oneConnection 16385 migrating (fun _ => 0) fun _ => 0
  obtain ⟨c, c', hc, hc'⟩ := hbuilt (show 16384 < 16385 by decide) oneConnection_builds
  refine ⟨c, c', hc, hc', (hiff c c' hc hc').2 fun i m hi hmarked => ?_⟩
  have hkept : keptMarked migrating = migrating := rfl
  rw [hkept] at hi ⊢
  rcases i with _ | _ | i
  · exact ⟨0, _, le_rfl, rfl, slotsFrom 0 8191 lowerHalf, List.mem_cons_self, Nat.zero_le _, Nat.zero_le _⟩
  · obtain rfl := Option.some.inj hi
    obtain ⟨mark, hmark⟩ := hmarked
    cases List.mem_singleton.1 hmark
  · cases hi

/-- **A mark that takes slot 0** to the node that it is printed for. -/
theorem marks_harmful : ¬∀ (records : List MarkedRecord) (unset unset' : ℕ → UInt16) (c c' : RedisClient Unit),
    RedisClient.initChannelPool 16385 oneConnection {} 0 (.text (renderNodes (records.map MarkedRecord.record)) unset) =
        some (.ok c) →
      RedisClient.initChannelPool 16385 oneConnection {} 0 (.text (renderMarked records) unset') = some (.ok c') →
        c'.getCurChannelPool.slotIpportIndexVec = c.getCurChannelPool.slotIpportIndexVec := by
  intro h
  obtain ⟨c, c', hc, hc'⟩ := marked_total (show 16384 < 16385 by decide) oneConnection_builds importing (fun _ => 0) fun _ => 0
  have hkept : keptMarked importing = importing := rfl
  have hmarks := (table_marked_iff hc hc').1 (h importing (fun _ => 0) (fun _ => 0) c c' hc hc')
  obtain ⟨j, m, hj, hm, t, ht, hhas⟩ := hmarks 1 _ rfl ⟨_, List.mem_cons_of_mem _ List.mem_cons_self⟩
  rw [hkept] at hm
  -- the second line, the last, claims the slots from 8192
  have hlen := (List.getElem?_eq_some_iff.1 hm).1
  have hj1 : j = 1 := Nat.le_antisymm (Nat.le_of_lt_succ hlen) hj
  rw [hj1] at hm
  obtain rfl := Option.some.inj hm
  obtain rfl := List.mem_singleton.1 ht
  exact absurd hhas.1 (by decide)

end Table

end Graphize
