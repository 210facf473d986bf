import Graphize.Spec.RedisClient
import Graphize.Lib.Crc

/-!
# The slot of a key

Redis Cluster puts a key in the slot that the CRC16 (XMODEM) of its hash tag gives, or of
the whole key when it has none.

* `crc16_eq`: the loop over `crc16tab` is the division bit by bit.
* `getKeySlot_tagged`, `getKeySlot_untagged`: the two cases of `GetKeySlot`.
* `getKeySlot_spec`: `GetKeySlot` gives the slot of the specification.
-/

namespace Graphize

/-! ## CRC16 -/

/-- The bits of a message. -/
def messageBits (bytes : Bytes) : List Bool := bytes.flatMap fun b => Crc.byteBits b.toBitVec

/-- CRC16-XMODEM: the polynomial 0x1021, from 0. -/
def crcXmodem (bytes : Bytes) : BitVec 16 := Crc.crc 0x1021#16 (messageBits bytes)

theorem crc16tab_eq : crc16tab.map UInt16.toBitVec =
    (List.range 256).map fun i => Crc.crc 0x1021#16 (Crc.byteBits (BitVec.ofNat 8 i)) := by
  decide +kernel

/-- An entry of the table is the remainder of its index. -/
theorem crc16tab_getD (i : BitVec 8) : (crc16tab.getD i.toNat 0).toBitVec = Crc.crc 0x1021#16 (Crc.byteBits i) := by
  have h := congrArg (fun l => l[i.toNat]?) crc16tab_eq
  simp only [List.getElem?_map, List.getElem?_range i.isLt, Option.map_some, BitVec.ofNat_toNat, BitVec.setWidth_eq,
    Option.map_eq_some_iff] at h
  obtain ⟨v, hv, heq⟩ := h
  rw [List.getD_eq_getElem?_getD, hv]
  exact heq

theorem getLsbD_mask (i : ℕ) (hi : i < 32) : (255#32).getLsbD i = decide (i < 8) := by
  rw [BitVec.getLsbD_ofNat, decide_eq_true hi, Bool.true_and]
  exact Nat.testBit_two_pow_sub_one 8 i

/-- The index: the mask takes out the sign that the promotion extends. -/
theorem index_eq (crc : UInt16) (c : UInt8) :
    (((crc >>> 8).toUInt32 ^^^ c.toInt8.toInt32.toUInt32) &&& 0x00FF).toNat = (Crc.topByte crc.toBitVec ^^^ c.toBitVec).toNat := by
  have h : (((crc >>> 8).toUInt32 ^^^ c.toInt8.toInt32.toUInt32) &&& 0x00FF).toBitVec =
      (Crc.topByte crc.toBitVec ^^^ c.toBitVec).setWidth 32 := by
    refine BitVec.eq_of_getLsbD_eq fun i hi => ?_
    simp only [UInt32.toBitVec_and, UInt32.toBitVec_xor, UInt16.toBitVec_toUInt32, UInt32.toBitVec_ofNat,
      BitVec.getLsbD_and, BitVec.getLsbD_xor, BitVec.getLsbD_setWidth, Crc.topByte]
    by_cases h8 : i < 8
    · rw [getLsbD_mask i hi, Int32.toBitVec_toUInt32, Int8.toBitVec_toInt32, BitVec.getLsbD_signExtend, if_pos h8,
        decide_eq_true h8, decide_eq_true hi]
      simp
    · rw [getLsbD_mask i hi, BitVec.getLsbD_of_ge c.toBitVec i (by omega), decide_eq_false h8]
      simp
  have hlt := (Crc.topByte crc.toBitVec ^^^ c.toBitVec).isLt
  have hnat := congrArg BitVec.toNat h
  rwa [BitVec.toNat_setWidth, Nat.mod_eq_of_lt (by omega)] at hnat

/-- **One byte.** -/
theorem crc16Round_toBitVec (crc : UInt16) (c : UInt8) :
    (crc16Round crc c).toBitVec = (Crc.byteBits c.toBitVec).foldl (Crc.feed 0x1021#16) crc.toBitVec := by
  have hnarrow : ∀ x y : UInt16, ((x.toUInt32 <<< 8) ^^^ y.toUInt32).toUInt16.toBitVec = x.toBitVec <<< 8 ^^^ y.toBitVec := by
    intro x y
    simp
  unfold crc16Round
  simp only
  rw [hnarrow, index_eq, crc16tab_getD, Crc.feed_byte (by decide)]

/-- **The table-driven loop** is the division bit by bit of the characters that it reads. -/
theorem crc16_eq (t rest : Bytes) (ht : t.length < 2 ^ 31) :
    (crc16 (t ++ rest) (Int32.ofNat t.length)).toBitVec = crcXmodem t := by
  have hloop : ∀ (bytes : Bytes) (crc : UInt16), (bytes.foldl crc16Round crc).toBitVec =
      (messageBits bytes).foldl (Crc.feed 0x1021#16) crc.toBitVec := by
    intro bytes
    induction bytes with
    | nil => intro crc; rfl
    | cons b bytes ih =>
      intro crc
      unfold messageBits at ih ⊢
      rw [List.foldl_cons, ih, crc16Round_toBitVec, List.flatMap_cons, List.foldl_append]
  unfold crc16
  rw [Int32.toNatClampNeg_ofNat_of_lt ht, List.take_left]
  exact hloop t 0

/-! ## Hash tags -/

/-- `t` is the hash tag of a key: not empty, between the first brace that opens and the
first after it that closes. -/
structure HashTag (key t : Bytes) : Prop where
  nonempty : t ≠ []
  split : ∃ pre post, key = pre ++ '{'.toUInt8 :: (t ++ '}'.toUInt8 :: post) ∧ '{'.toUInt8 ∉ pre ∧ '}'.toUInt8 ∉ t

/-- The slot that Redis Cluster gives to the bytes hashed. -/
def clusterSlot (t : Bytes) : ℕ := (crcXmodem t).toNat % 16384

/-- The slot kept of the CRC. -/
theorem crc16_slot (t rest : Bytes) (ht : t.length < 2 ^ 31) :
    (crc16 (t ++ rest) (Int32.ofNat t.length) &&& 0x3FFF).toUInt32.toNat = clusterSlot t := by
  have h := congrArg BitVec.toNat (crc16_eq t rest ht)
  have hmask : (0x3FFF : UInt16).toNat = 2 ^ 14 - 1 := rfl
  unfold clusterSlot
  rw [UInt16.toNat_toUInt32, UInt16.toNat_and, hmask, Nat.and_two_pow_sub_one_eq_mod, ← h]
  rfl

theorem crc16_slot_self (t : Bytes) (ht : t.length < 2 ^ 31) :
    (crc16 t (Int32.ofNat t.length) &&& 0x3FFF).toUInt32.toNat = clusterSlot t := by
  have h := crc16_slot t [] ht
  rwa [List.append_nil] at h

/-- A scan stops at the first character it looks for. -/
theorem findIdx_split {a : UInt8} {pre rest : Bytes} (h : a ∉ pre) :
    (pre ++ a :: rest).findIdx (fun c => c = a) = pre.length := by
  rw [List.findIdx_append, List.findIdx_eq_length_of_false fun c hc => decide_eq_false fun he : c = a => h (he ▸ hc),
    if_neg (lt_irrefl _), List.findIdx_cons]
  simp

/-- A scan that finds nothing runs to the end. -/
theorem findIdx_absent {a : UInt8} {bytes : Bytes} (h : a ∉ bytes) : bytes.findIdx (fun c => c = a) = bytes.length :=
  List.findIdx_eq_length_of_false fun c hc => decide_eq_false fun he : c = a => h (he ▸ hc)

/-- The scan of a key with a brace that opens. -/
theorem getKeySlot_open {pre rest : Bytes} (hpre : '{'.toUInt8 ∉ pre) :
    getKeySlot (pre ++ '{'.toUInt8 :: rest) =
      let e := rest.findIdx fun c => c = '}'.toUInt8
      if e = rest.length ∨ e = 0 then
        (crc16 (pre ++ '{'.toUInt8 :: rest) (Int32.ofNat (pre ++ '{'.toUInt8 :: rest).length) &&& 0x3FFF).toUInt32
      else (crc16 rest (Int32.ofNat e) &&& 0x3FFF).toUInt32 := by
  have hdrop : (pre ++ '{'.toUInt8 :: rest).drop (pre.length + 1) = rest := by
    rw [List.drop_append]
    simp
  have hlen : (pre ++ '{'.toUInt8 :: rest).length = pre.length + 1 + rest.length := by
    rw [List.length_append, List.length_cons]
    omega
  unfold getKeySlot
  simp only
  rw [findIdx_split hpre, if_neg (by omega), hdrop]
  have hcond : (pre.length + 1 + rest.findIdx (fun c => c = '}'.toUInt8) = (pre ++ '{'.toUInt8 :: rest).length ∨
      pre.length + 1 + rest.findIdx (fun c => c = '}'.toUInt8) = pre.length + 1) ↔
      (rest.findIdx (fun c => c = '}'.toUInt8) = rest.length ∨ rest.findIdx (fun c => c = '}'.toUInt8) = 0) := by
    omega
  rw [if_congr hcond rfl rfl]
  have hsub : pre.length + 1 + rest.findIdx (fun c => c = '}'.toUInt8) - pre.length - 1 =
      rest.findIdx (fun c => c = '}'.toUInt8) := by
    omega
  rw [hsub]

/-- **A key with a hash tag.** -/
theorem getKeySlot_tagged {key t : Bytes} (hlen : key.length < 2 ^ 31) (h : HashTag key t) :
    (getKeySlot key).toNat = clusterSlot t := by
  obtain ⟨hne, pre, post, rfl, hpre, ht⟩ := h
  rw [List.length_append, List.length_cons, List.length_append] at hlen
  have hpos : t.length ≠ 0 := fun h0 => hne (List.eq_nil_of_length_eq_zero h0)
  rw [getKeySlot_open hpre]
  simp only
  rw [findIdx_split ht, if_neg (by rw [List.length_append, List.length_cons]; omega)]
  exact crc16_slot t _ (by omega)

/-- **A key without one.** -/
theorem getKeySlot_untagged {key : Bytes} (hlen : key.length < 2 ^ 31) (h : ∀ t, ¬HashTag key t) :
    (getKeySlot key).toNat = clusterSlot key := by
  by_cases hopen : '{'.toUInt8 ∈ key
  · obtain ⟨pre, rest, rfl, hpre⟩ := List.eq_append_cons_of_mem hopen
    rw [getKeySlot_open hpre]
    simp only
    rw [if_pos]
    · exact crc16_slot_self _ hlen
    · by_cases hclose : '}'.toUInt8 ∈ rest
      · -- what is between the braces is empty
        obtain ⟨t, post, rfl, ht⟩ := List.eq_append_cons_of_mem hclose
        have hnil : t = [] := by
          by_contra hne
          exact h t ⟨hne, pre, post, rfl, hpre, ht⟩
        right
        rw [findIdx_split ht, hnil]
        rfl
      · exact Or.inl (findIdx_absent hclose)
  · unfold getKeySlot
    simp only
    rw [findIdx_absent hopen, if_pos rfl]
    exact crc16_slot_self key hlen

/-- **`GetKeySlot`** gives the slot of the specification: that of the hash tag, or of the
key without one. -/
theorem getKeySlot_spec (key : Bytes) (hlen : key.length < 2 ^ 31) :
    (∀ t, HashTag key t → (getKeySlot key).toNat = clusterSlot t) ∧
      ((∀ t, ¬HashTag key t) → (getKeySlot key).toNat = clusterSlot key) ∧
      (getKeySlot key).toNat < 16384 ∧
      (crc16 key (Int32.ofNat key.length)).toBitVec = crcXmodem key ∧
      ∀ key' t, key'.length < 2 ^ 31 → HashTag key t → HashTag key' t → getKeySlot key' = getKeySlot key := by
  refine ⟨fun t h => getKeySlot_tagged hlen h, getKeySlot_untagged hlen, ?_, ?_, fun key' t hlen' h h' => ?_⟩
  · have hslot : ∃ t, (getKeySlot key).toNat = clusterSlot t := by
      by_cases h : ∃ t, HashTag key t
      · obtain ⟨t, ht⟩ := h
        exact ⟨t, getKeySlot_tagged hlen ht⟩
      · exact ⟨key, getKeySlot_untagged hlen fun t ht => h ⟨t, ht⟩⟩
    obtain ⟨t, ht⟩ := hslot
    rw [ht]
    exact Nat.mod_lt _ (by decide)
  · have h := crc16_eq key [] hlen
    rwa [List.append_nil] at h
  · apply UInt32.toNat_inj.1
    rw [getKeySlot_tagged hlen h, getKeySlot_tagged hlen' h']

/-- Two keys with the tag 0xff, a byte that is negative as a `char`. -/
theorem getKeySlot_spec_shared :
    getKeySlot [123, 0xff, 125, 97] = getKeySlot [98, 123, 0xff, 125] ∧ (getKeySlot [123, 0xff, 125, 97]).toNat = clusterSlot [0xff] := by
  have h : HashTag [123, 0xff, 125, 97] [0xff] := ⟨by decide, [], [97], by decide, by decide, by decide⟩
  have h' : HashTag [98, 123, 0xff, 125] [0xff] := ⟨by decide, [98], [], by decide, by decide, by decide⟩
  obtain ⟨htag, -, -, -, hshare⟩ := getKeySlot_spec [98, 123, 0xff, 125] (by decide)
  exact ⟨hshare _ [0xff] (by decide) h' h, by rw [hshare _ [0xff] (by decide) h' h]; exact htag _ h'⟩

end Graphize
