import Graphize.Proof.Refreshes
import Graphize.Proof.Declared
import Graphize.Lib.Tokens

/-!
# `CLUSTER NODES` texts

Cluster node records, how redis prints them, and what `init_channel_pool` makes of the
text.

* `splitCompress_joined`, `atoi_toDecimal`: the two parsers on what they are meant for.
* `ofLine_render`: a line is kept exactly when its record is a connected master, and its
  host, port and slots are read back.
* `construct_routes`: a new client sends every key to the record that owns its slot.
-/

namespace Graphize

open Table Tokens

/-! ## Splitting -/

/-- A text that can stand between spaces. -/
structure Spaceless (s : Str) : Prop where
  ne_nil : s ≠ []
  noSpace : ∀ c ∈ s, isSpace c = false

theorem Spaceless.of_all {s : Str} (hs : s ≠ []) (h : (s.all fun c => !isSpace c) = true) : Spaceless s where
  ne_nil := hs
  noSpace := fun c hc => by simpa using List.all_eq_true.1 h c hc

theorem Spaceless.notMem {s : Str} (h : Spaceless s) {c : Char} (hc : isSpace c = true) : c ∉ s := by
  intro hm
  rw [h.noSpace c hm] at hc
  exact absurd hc (by simp)

theorem squeeze_append {c : Char} : ∀ {t s : Str}, c ∉ t → squeeze c (t ++ s) = t ++ squeeze c s := by
  intro t
  induction t with
  | nil => intro s _; rfl
  | cons x t ih =>
    intro s hc
    rw [List.mem_cons, not_or] at hc
    rw [List.cons_append, List.cons_append, ← ih hc.2]
    cases hts : t ++ s with
    | nil => rfl
    | cons y u =>
      conv_lhs => unfold squeeze
      rw [if_neg fun h => hc.1 h.1.symm]

/-- One separator stays. -/
theorem squeeze_cons {c : Char} {t s : Str} (ht : t ≠ []) (hc : c ∉ t) :
    squeeze c (c :: (t ++ s)) = c :: squeeze c (t ++ s) := by
  obtain ⟨x, t, rfl⟩ := List.exists_cons_of_ne_nil ht
  rw [List.mem_cons, not_or] at hc
  rw [List.cons_append]
  conv_lhs => unfold squeeze
  rw [if_neg fun h => hc.1 h.2.symm]

theorem squeeze_joined {c : Char} : ∀ {ts : List Str}, (∀ t ∈ ts, t ≠ [] ∧ c ∉ t) →
    squeeze c ([c].intercalate ts) = [c].intercalate ts := by
  intro ts
  induction ts with
  | nil => intro _; rfl
  | cons t ts ih =>
    intro h
    obtain ⟨⟨-, hc⟩, hts⟩ := List.forall_mem_cons.1 h
    cases ts with
    | nil =>
      rw [List.intercalate_singleton]
      have hnil : squeeze c [] = [] := rfl
      have hsq := squeeze_append (s := []) hc
      rwa [hnil, List.append_nil] at hsq
    | cons t' ts =>
      have htail := ih hts
      obtain ⟨⟨hne', hc'⟩, -⟩ := List.forall_mem_cons.1 hts
      obtain ⟨u, hu⟩ : ∃ u, [c].intercalate (t' :: ts) = t' ++ u := by
        cases ts with
        | nil => exact ⟨[], by simp⟩
        | cons t'' ts => exact ⟨_, by rw [List.intercalate_cons_cons, List.append_assoc]⟩
      rw [List.intercalate_cons_cons, List.append_assoc, List.singleton_append, squeeze_append hc]
      rw [hu] at htail ⊢
      rw [squeeze_cons hne' hc', htail]

/-- **Joined tokens are split into the tokens.** -/
theorem splitCompress_joined {c : Char} {ts : List Str} (hne : ts ≠ []) (h : ∀ t ∈ ts, t ≠ [] ∧ c ∉ t) :
    splitCompress c ([c].intercalate ts) = ts := by
  unfold splitCompress
  rw [squeeze_joined h, List.splitOn_intercalate c (fun t ht => (h t ht).2) hne]

/-! ## Numbers -/

theorem toDecimal_ne_nil (n : ℕ) : toDecimal n ≠ [] := Nat.toDigits_ne_nil

theorem isDigit_of_mem {n : ℕ} {c : Char} (h : c ∈ toDecimal n) : c.isDigit = true :=
  Nat.isDigit_of_mem_toDigits (by decide) (by decide) h

theorem isSpace_of_isDigit {c : Char} (h : c.isDigit = true) : isSpace c = false := by
  by_contra hs
  rw [Bool.not_eq_false] at hs
  unfold isSpace at hs
  simp only [decide_eq_true_eq] at hs
  rcases hs with rfl | rfl | rfl | rfl | rfl | rfl <;> exact absurd h (by decide)

theorem spaceless_toDecimal (n : ℕ) : Spaceless (toDecimal n) where
  ne_nil := toDecimal_ne_nil n
  noSpace := fun _ hc => isSpace_of_isDigit (isDigit_of_mem hc)

/-- **A decimal number is read back**, up to what follows its digits. -/
theorem atoi_toDecimal {n : ℕ} (hn : n < 2 ^ 31) {rest : Str} (hrest : ∀ c ∈ rest.head?, c.isDigit = false) :
    atoi (toDecimal n ++ rest) = n := by
  obtain ⟨d, ds, hd⟩ := List.exists_cons_of_ne_nil (toDecimal_ne_nil n)
  have hdig : d.isDigit = true := isDigit_of_mem (n := n) (by rw [hd]; exact List.mem_cons_self)
  have hdrop : (toDecimal n ++ rest).dropWhile isSpace = d :: (ds ++ rest) := by
    rw [hd, List.cons_append, List.dropWhile_cons, if_neg (by rw [isSpace_of_isDigit hdig]; simp)]
  have htake : (d :: (ds ++ rest)).takeWhile Char.isDigit = toDecimal n := by
    rw [← List.cons_append, ← hd, List.takeWhile_append_of_pos fun c hc => isDigit_of_mem hc]
    cases rest with
    | nil => simp
    | cons c rest =>
      rw [List.takeWhile_cons, if_neg (by rw [hrest c rfl]; simp), List.append_nil]
  have hval : strtol (toDecimal n ++ rest) = n := by
    unfold strtol
    rw [hdrop]
    split
    · rename_i s heq
      obtain ⟨rfl, -⟩ := List.cons.inj heq
      exact absurd hdig (by decide)
    · rename_i s heq
      obtain ⟨rfl, -⟩ := List.cons.inj heq
      exact absurd hdig (by decide)
    · rw [htake]
      unfold toDecimal
      rw [Nat.ofDigitChars_toDigits (by decide) (by decide)]
      omega
  unfold atoi
  rw [hval]
  have hlt : (n : ℤ) < 2 ^ 31 := by exact_mod_cast hn
  rw [Int.bmod_eq_of_le] <;> omega

theorem atoi_decimal {n : ℕ} (hn : n < 2 ^ 31) : atoi (toDecimal n) = n := by
  have h := atoi_toDecimal hn (show ∀ c ∈ ([] : Str).head?, c.isDigit = false by simp)
  rwa [List.append_nil] at h

/-! ## Records -/

/-- The flags of a node. `pfail` is printed `fail?`. -/
inductive NodeFlag
  | myself
  | master
  | slave
  | pfail
  | fail
  | handshake
  | noaddr
  | nofailover
  deriving DecidableEq, Repr

def NodeFlag.text : NodeFlag → Str
  | .myself => "myself".toList
  | .master => "master".toList
  | .slave => "slave".toList
  | .pfail => "fail?".toList
  | .fail => "fail".toList
  | .handshake => "handshake".toList
  | .noaddr => "noaddr".toList
  | .nofailover => "nofailover".toList

/-- A slot, or a range of slots. -/
inductive SlotToken
  | slot (a : Fin 16384)
  | range (a b : Fin 16384) (le : a ≤ b)

/-- A cluster node as `CLUSTER NODES` describes it. -/
structure NodeRecord where
  id : Str
  host : UInt8 × UInt8 × UInt8 × UInt8
  port : UInt16
  busPort : ℕ
  flags : List NodeFlag
  masterId : Str
  pingSent : ℕ
  pongRecv : ℕ
  configEpoch : ℕ
  connected : Bool
  slots : List SlotToken
  id_spaceless : Spaceless id
  masterId_spaceless : Spaceless masterId
  port_pos : 0 < port

namespace SlotToken

def text : SlotToken → Str
  | slot a => toDecimal a
  | range a b _ => toDecimal a ++ '-' :: toDecimal b

/-- The slots of a token. -/
def Has (t : SlotToken) (k : ℕ) : Prop :=
  match t with
  | slot a => k = a
  | range a b _ => a ≤ k ∧ k ≤ b

/-- The pair that a token is read as. -/
def pair : SlotToken → UInt32 × UInt32
  | slot a => (UInt32.ofNat a, UInt32.ofNat a)
  | range a b _ => (UInt32.ofNat a, UInt32.ofNat b)

end SlotToken

namespace NodeRecord

def hostText (r : NodeRecord) : Str :=
  ['.'].intercalate [toDecimal r.host.1.toNat, toDecimal r.host.2.1.toNat, toDecimal r.host.2.2.1.toNat,
    toDecimal r.host.2.2.2.toNat]

def address (r : NodeRecord) : Str := r.hostText ++ ':' :: (toDecimal r.port.toNat ++ '@' :: toDecimal r.busPort)

def flagsText (r : NodeRecord) : Str :=
  if r.flags = [] then "noflags".toList else [','].intercalate (r.flags.map NodeFlag.text)

def fields (r : NodeRecord) : List Str :=
  r.id :: r.address :: r.flagsText :: r.masterId :: toDecimal r.pingSent :: toDecimal r.pongRecv ::
    toDecimal r.configEpoch :: (if r.connected then "connected".toList else "disconnected".toList) ::
    r.slots.map SlotToken.text

/-- The fields before the slots. -/
def heading (r : NodeRecord) : List Str :=
  [r.id, r.address, r.flagsText, r.masterId, toDecimal r.pingSent, toDecimal r.pongRecv, toDecimal r.configEpoch,
    if r.connected then "connected".toList else "disconnected".toList]

theorem fields_eq (r : NodeRecord) : r.fields = r.heading ++ r.slots.map SlotToken.text := rfl

/-- The line of a record. -/
def render (r : NodeRecord) : Str := [' '].intercalate r.fields

/-- A connected master. -/
def Kept (r : NodeRecord) : Prop := NodeFlag.master ∈ r.flags ∧ r.connected = true

instance (r : NodeRecord) : Decidable r.Kept := inferInstanceAs (Decidable (_ ∧ _))

/-- The record claims the slot `k`. -/
def Claims (r : NodeRecord) (k : ℕ) : Prop := ∃ t ∈ r.slots, t.Has k

/-- The address of the server that the record describes. -/
def endpoint (r : NodeRecord) : Str := r.hostText ++ ':' :: toDecimal r.port.toNat

/-- What a kept record is read as. -/
def node (r : NodeRecord) : NodeInfo where
  strinfo := r.render
  id := r.id
  ip := r.hostText
  port := some r.port
  mSlots := r.slots.map SlotToken.pair

end NodeRecord

/-- The reply of a cluster: a line for each record. -/
def renderNodes (records : List NodeRecord) : Str := records.flatMap fun r => r.render ++ ['\n']

/-- The records that are kept. -/
def keptRecords (records : List NodeRecord) : List NodeRecord := records.filter fun r => r.Kept

/-! ## Reading one line -/

theorem NodeFlag.spaceless (f : NodeFlag) : Spaceless f.text := by
  cases f <;> exact Spaceless.of_all (by decide) (by decide)

theorem spaceless_append {s t : Str} (hs : Spaceless s) (ht : ∀ c ∈ t, isSpace c = false) : Spaceless (s ++ t) where
  ne_nil := fun h => hs.ne_nil (List.append_eq_nil_iff.1 h).1
  noSpace := by
    intro c hc
    rcases List.mem_append.1 hc with hc | hc
    · exact hs.noSpace c hc
    · exact ht c hc

/-- Tokens joined by something that is not a space. -/
theorem spaceless_joined {c : Char} (hc : isSpace c = false) : ∀ {ts : List Str}, ts ≠ [] → (∀ t ∈ ts, Spaceless t) →
    Spaceless ([c].intercalate ts) := by
  intro ts
  induction ts with
  | nil => intro h; exact absurd rfl h
  | cons t ts ih =>
    intro _ h
    obtain ⟨ht, hts⟩ := List.forall_mem_cons.1 h
    cases ts with
    | nil => rw [List.intercalate_singleton]; exact ht
    | cons t' ts =>
      rw [List.intercalate_cons_cons, List.append_assoc, List.singleton_append]
      refine spaceless_append ht fun x hx => ?_
      rcases List.mem_cons.1 hx with rfl | hx
      · exact hc
      · exact (ih (by simp) hts).noSpace x hx

theorem SlotToken.spaceless (t : SlotToken) : Spaceless t.text := by
  cases t with
  | slot a => exact spaceless_toDecimal a
  | range a b _ =>
    refine spaceless_append (spaceless_toDecimal a) fun c hc => ?_
    rcases List.mem_cons.1 hc with rfl | hc
    · decide
    · exact (spaceless_toDecimal b).noSpace c hc

theorem NodeRecord.spaceless_hostText (r : NodeRecord) : Spaceless r.hostText := by
  refine spaceless_joined (by decide) (by simp) fun t ht => ?_
  simp only [List.mem_cons, List.not_mem_nil, or_false] at ht
  rcases ht with rfl | rfl | rfl | rfl <;> exact spaceless_toDecimal _

theorem NodeRecord.spaceless_address (r : NodeRecord) : Spaceless r.address := by
  refine spaceless_append r.spaceless_hostText fun c hc => ?_
  rcases List.mem_cons.1 hc with rfl | hc
  · decide
  · rcases List.mem_append.1 hc with hc | hc
    · exact (spaceless_toDecimal _).noSpace c hc
    · rcases List.mem_cons.1 hc with rfl | hc
      · decide
      · exact (spaceless_toDecimal _).noSpace c hc

theorem NodeRecord.spaceless_flagsText (r : NodeRecord) : Spaceless r.flagsText := by
  unfold NodeRecord.flagsText
  by_cases hf : r.flags = []
  · rw [if_pos hf]
    exact Spaceless.of_all (by decide) (by decide)
  · rw [if_neg hf]
    refine spaceless_joined (by decide) (by simpa using hf) fun t ht => ?_
    obtain ⟨f, -, rfl⟩ := List.mem_map.1 ht
    exact f.spaceless

theorem NodeRecord.spaceless_heading (r : NodeRecord) : ∀ t ∈ r.heading, Spaceless t := by
  intro t ht
  unfold NodeRecord.heading at ht
  simp only [List.mem_cons, List.not_mem_nil, or_false] at ht
  rcases ht with rfl | rfl | rfl | rfl | rfl | rfl | rfl | rfl
  · exact r.id_spaceless
  · exact r.spaceless_address
  · exact r.spaceless_flagsText
  · exact r.masterId_spaceless
  · exact spaceless_toDecimal _
  · exact spaceless_toDecimal _
  · exact spaceless_toDecimal _
  · split <;> exact Spaceless.of_all (by decide) (by decide)

/-- Every field of a line stands between spaces. -/
theorem NodeRecord.spaceless_fields (r : NodeRecord) : ∀ t ∈ r.fields, Spaceless t := by
  intro t ht
  rw [r.fields_eq] at ht
  rcases List.mem_append.1 ht with ht | ht
  · exact r.spaceless_heading t ht
  · obtain ⟨s, -, rfl⟩ := List.mem_map.1 ht
    exact s.spaceless

/-- A line of fields is split into them. -/
theorem split_line {ts : List Str} (hne : ts ≠ []) (h : ∀ t ∈ ts, Spaceless t) : splitCompress ' ' ([' '].intercalate ts) = ts :=
  splitCompress_joined hne fun t ht => ⟨(h t ht).ne_nil, (h t ht).notMem rfl⟩

/-- A text without a NUL is searched whole. -/
theorem cStr_eq {s : Str} (h : Char.ofNat 0 ∉ s) : cStr s = s := by
  unfold cStr
  rw [List.takeWhile_eq_self_iff]
  intro c hc
  simp only [decide_eq_true_eq]
  rintro rfl
  exact h hc

theorem notMem_joined {c z : Char} (hc : z ≠ c) : ∀ {ts : List Str}, (∀ t ∈ ts, z ∉ t) → z ∉ [c].intercalate ts := by
  intro ts
  induction ts with
  | nil => intro _; simp
  | cons t ts ih =>
    intro h
    obtain ⟨ht, hts⟩ := List.forall_mem_cons.1 h
    cases ts with
    | nil => rw [List.intercalate_singleton]; exact ht
    | cons t' ts =>
      rw [List.intercalate_cons_cons, List.append_assoc, List.singleton_append, List.mem_append, List.mem_cons]
      rintro (h | h | h)
      · exact ht h
      · exact hc h
      · exact ih hts h

/-- **The flags field contains `master`** exactly when the flag is set. -/
theorem strstr_master (r : NodeRecord) : strstr r.flagsText "master".toList = true ↔ NodeFlag.master ∈ r.flags := by
  unfold strstr NodeRecord.flagsText
  by_cases hf : r.flags = []
  · rw [if_pos hf, hf]
    decide
  · rw [if_neg hf, cStr_eq, decide_eq_true_eq]
    · constructor
      · intro h
        obtain ⟨t, ht, h⟩ := infix_joined (by decide) (by decide) _ h
        obtain ⟨f, hfm, rfl⟩ := List.mem_map.1 ht
        have hmaster : f = .master := by
          cases f with
          | master => rfl
          | _ => exact absurd h (by decide)
        rwa [← hmaster]
      · intro h
        exact infix_of_mem (List.mem_map_of_mem h)
    · refine notMem_joined (by decide) fun t ht => ?_
      obtain ⟨f, -, rfl⟩ := List.mem_map.1 ht
      cases f <;> decide

theorem takeWhile_until {c : Char} {s t : Str} (h : c ∉ s) :
    (s ++ c :: t).takeWhile (fun x => x ≠ c) = s ∧ (s ++ c :: t).dropWhile (fun x => x ≠ c) = c :: t := by
  have hs : ∀ x ∈ s, decide (x ≠ c) = true := by
    intro x hx
    rw [decide_eq_true_eq]
    rintro rfl
    exact h hx
  rw [List.takeWhile_append_of_pos hs, List.dropWhile_append_of_pos hs]
  simp

/-- **`ParseNodeString`** on `host:port@busport`. -/
theorem parseNodeString_address (r : NodeRecord) (node : NodeInfo) :
    (node.parseNodeString r.address).2 = { node with port := some r.port, ip := r.hostText } := by
  have hcolon : ':' ∉ r.hostText := by
    refine notMem_joined (by decide) fun t ht hm => ?_
    simp only [List.mem_cons, List.not_mem_nil, or_false] at ht
    rcases ht with rfl | rfl | rfl | rfl <;> exact absurd (isDigit_of_mem hm) (by decide)
  unfold NodeInfo.parseNodeString NodeRecord.address
  rw [if_pos (by simp), (takeWhile_until hcolon).1, (takeWhile_until hcolon).2]
  simp only [List.drop_succ_cons, List.drop_zero]
  rw [atoi_toDecimal (by have := r.port.toNat_lt; omega) (by rintro c ⟨⟩; decide)]
  have hport : UInt16.ofInt (r.port.toNat : ℤ) = r.port := by
    have hmod : ((r.port.toNat : ℤ) % 2 ^ 16).toNat = r.port.toNat := by
      have := r.port.toNat_lt
      omega
    unfold UInt16.ofInt
    rw [hmod, UInt16.ofNat_toNat]
  rw [hport]

/-- **`ParseSlotString`** on a slot or a range. -/
theorem parseSlotString_text (t : SlotToken) (node : NodeInfo) :
    node.parseSlotString t.text = { node with mSlots := node.mSlots ++ [t.pair] } := by
  have hnum : ∀ {a : ℕ}, a < 16384 → UInt32.ofInt (a : ℤ) = UInt32.ofNat a := by
    intro a ha
    have hmod : ((a : ℤ) % 2 ^ 32).toNat = a := by omega
    unfold UInt32.ofInt
    rw [hmod]
  have hdash : ∀ a : ℕ, '-' ∉ toDecimal a := fun a hm => absurd (isDigit_of_mem hm) (by decide)
  cases t with
  | slot a =>
    have htext : (SlotToken.slot a).text = toDecimal a := rfl
    have hval : atoi (toDecimal a) = (a : ℕ) := atoi_decimal (by omega)
    rw [htext]
    unfold NodeInfo.parseSlotString
    rw [if_neg (hdash a), hval, hnum a.isLt]
    rfl
  | range a b hab =>
    have htext : (SlotToken.range a b hab).text = toDecimal a ++ '-' :: toDecimal b := rfl
    have hval : atoi (toDecimal a) = (a : ℕ) := atoi_decimal (by omega)
    have hval' : atoi (toDecimal b) = (b : ℕ) := atoi_decimal (by omega)
    rw [htext]
    unfold NodeInfo.parseSlotString
    rw [if_pos (by simp), (takeWhile_until (hdash a)).1, (takeWhile_until (hdash a)).2]
    simp only [List.drop_succ_cons, List.drop_zero]
    rw [hval, hval', hnum a.isLt, hnum b.isLt]
    rfl

theorem parseSlots_text : ∀ (ts : List SlotToken) (node : NodeInfo),
    (ts.map SlotToken.text).foldl NodeInfo.parseSlotString node =
      { node with mSlots := node.mSlots ++ ts.map SlotToken.pair } := by
  intro ts
  induction ts with
  | nil => intro node; simp
  | cons t ts ih =>
    intro node
    rw [List.map_cons, List.foldl_cons, parseSlotString_text, ih]
    simp

/-- **Reading a line** of a record, whatever its slot fields. -/
theorem ofLine_slots (r : NodeRecord) {ts : List Str} (hts : ∀ t ∈ ts, Spaceless t) :
    NodeInfo.ofLine ([' '].intercalate (r.heading ++ ts)) =
      if r.Kept then some (ts.foldl NodeInfo.parseSlotString
        { r.node with strinfo := [' '].intercalate (r.heading ++ ts), mSlots := [] }) else none := by
  have hsplit : splitCompress ' ' ([' '].intercalate (r.heading ++ ts)) = r.heading ++ ts := by
    refine split_line (List.cons_ne_nil _ _) fun t ht => ?_
    rcases List.mem_append.1 ht with ht | ht
    · exact r.spaceless_heading t ht
    · exact hts t ht
  unfold NodeInfo.ofLine
  rw [hsplit]
  unfold NodeRecord.heading
  simp only [List.cons_append, List.nil_append]
  by_cases hc : r.connected = true
  · have hlink : strstr "connected".toList "disconnected".toList = false := by decide
    rw [if_pos hc, if_neg (by rw [hlink]; simp)]
    by_cases hm : NodeFlag.master ∈ r.flags
    · rw [if_neg (by rw [(strstr_master r).2 hm]; simp), if_pos (show r.Kept from ⟨hm, hc⟩), parseNodeString_address]
      rfl
    · have hstr : strstr r.flagsText "master".toList = false := by
        rw [← Bool.not_eq_true, strstr_master]
        exact hm
      rw [if_pos (by rw [hstr]; rfl), if_neg fun h : r.Kept => hm h.1]
  · have hlink : strstr "disconnected".toList "disconnected".toList = true := by decide
    rw [if_neg hc, if_pos hlink, if_neg fun h : r.Kept => hc h.2]

/-- **Reading a line back.** -/
theorem ofLine_render (r : NodeRecord) : NodeInfo.ofLine r.render = if r.Kept then some r.node else none := by
  unfold NodeRecord.render
  rw [r.fields_eq, ofLine_slots r, parseSlots_text]
  · rfl
  · intro t ht
    obtain ⟨s, -, rfl⟩ := List.mem_map.1 ht
    exact s.spaceless

/-! ## Reading the reply -/

/-- A text that does not begin or end with a space. -/
structure Edged (s : Str) : Prop where
  first : ∃ a t, s = a :: t ∧ isSpace a = false
  last : ∃ t b, s = t ++ [b] ∧ isSpace b = false

theorem Edged.trim {s : Str} (h : Edged s) : trim s = s := by
  obtain ⟨a, t, hs, ha⟩ := h.first
  obtain ⟨u, b, hs', hb⟩ := h.last
  have hleft : s.dropWhile isSpace = s := by
    rw [hs, List.dropWhile_cons, if_neg (by rw [ha]; simp)]
  have hright : s.reverse.dropWhile isSpace = s.reverse := by
    rw [hs', List.reverse_append, List.reverse_singleton, List.singleton_append, List.dropWhile_cons,
      if_neg (by rw [hb]; simp)]
  unfold Graphize.trim
  rw [hleft, hright, List.reverse_reverse]

theorem Spaceless.edged {s : Str} (h : Spaceless s) : Edged s where
  first := by
    obtain ⟨a, t, rfl⟩ := List.exists_cons_of_ne_nil h.ne_nil
    exact ⟨a, t, rfl, h.noSpace a List.mem_cons_self⟩
  last := ⟨s.dropLast, s.getLast h.ne_nil, (List.dropLast_append_getLast h.ne_nil).symm,
    h.noSpace _ (List.getLast_mem h.ne_nil)⟩

theorem edged_joined {c : Char} : ∀ {ts : List Str}, ts ≠ [] → (∀ t ∈ ts, Edged t) → Edged ([c].intercalate ts) := by
  intro ts
  induction ts with
  | nil => intro h; exact absurd rfl h
  | cons t ts ih =>
    intro _ h
    obtain ⟨ht, hts⟩ := List.forall_mem_cons.1 h
    cases ts with
    | nil => rw [List.intercalate_singleton]; exact ht
    | cons t' ts =>
      obtain ⟨a, u, hu, ha⟩ := ht.first
      obtain ⟨v, b, hv, hb⟩ := (ih (by simp) hts).last
      rw [List.intercalate_cons_cons]
      exact ⟨⟨a, u ++ [c] ++ [c].intercalate (t' :: ts), by rw [hu]; simp, ha⟩,
        ⟨t ++ [c] ++ v, b, by rw [hv]; simp, hb⟩⟩

/-- Lines, each with its end. -/
theorem flatMap_lines : ∀ {lines : List Str}, lines ≠ [] →
    (lines.flatMap fun l => l ++ ['\n']) = ['\n'].intercalate lines ++ ['\n'] := by
  intro lines
  induction lines with
  | nil => intro h; exact absurd rfl h
  | cons l lines ih =>
    intro _
    rw [List.flatMap_cons]
    cases lines with
    | nil => rw [List.intercalate_singleton]; exact List.append_nil _
    | cons l' lines => rw [ih (by simp), List.intercalate_cons_cons, List.append_assoc, List.append_assoc, List.append_assoc]

/-- **The lines of a reply**, made of fields. -/
theorem replyLines_fields {lines : List (List Str)} (hne : lines ≠ []) (h : ∀ ts ∈ lines, ts ≠ [] ∧ ∀ t ∈ ts, Spaceless t) :
    replyLines (lines.flatMap fun ts => [' '].intercalate ts ++ ['\n']) = lines.map fun ts => [' '].intercalate ts := by
  have hedged : ∀ l ∈ lines.map fun ts => [' '].intercalate ts, Edged l := by
    intro l hl
    obtain ⟨ts, hts, rfl⟩ := List.mem_map.1 hl
    exact edged_joined (h ts hts).1 fun t ht => ((h ts hts).2 t ht).edged
  have hlines : (lines.map fun ts => [' '].intercalate ts) ≠ [] := by simpa using hne
  have hflat := flatMap_lines hlines
  rw [List.flatMap_map] at hflat
  unfold replyLines
  rw [hflat, trim_concat (by decide), (edged_joined hlines hedged).trim]
  refine splitCompress_joined hlines fun l hl => ?_
  obtain ⟨a, u, hu, -⟩ := (hedged l hl).first
  refine ⟨by rw [hu]; simp, ?_⟩
  obtain ⟨ts, hts, rfl⟩ := List.mem_map.1 hl
  exact notMem_joined (by decide) fun t ht => ((h ts hts).2 t ht).notMem (by decide)

/-- The lines of a reply are the lines of the records. -/
theorem replyLines_render {records : List NodeRecord} (hne : records ≠ []) :
    replyLines (renderNodes records) = records.map NodeRecord.render := by
  have hfields : ∀ ts ∈ records.map NodeRecord.fields, ts ≠ [] ∧ ∀ t ∈ ts, Spaceless t := by
    intro ts hts
    obtain ⟨r, -, rfl⟩ := List.mem_map.1 hts
    exact ⟨List.cons_ne_nil _ _, r.spaceless_fields⟩
  have h := replyLines_fields (by simpa using hne) hfields
  rw [List.flatMap_map, List.map_map] at h
  exact h

/-- **The records that are kept**, as they are read. -/
theorem replyNodes_render (records : List NodeRecord) :
    replyNodes (renderNodes records) = (keptRecords records).map NodeRecord.node := by
  by_cases hne : records = []
  · rw [hne]
    decide
  · unfold replyNodes keptRecords
    rw [replyLines_render hne, List.filterMap_map, ← List.filterMap_eq_map, List.filterMap_filter]
    refine List.filterMap_congr fun r _ => ?_
    rw [Function.comp_apply, ofLine_render]
    by_cases hk : r.Kept
    · rw [if_pos hk, if_pos (decide_eq_true hk)]
      rfl
    · rw [if_neg hk, if_neg (by simpa using hk)]

theorem keptLines_render (records : List NodeRecord) :
    keptLines (renderNodes records) = (keptRecords records).map NodeRecord.render := by
  by_cases hne : records = []
  · rw [hne]
    decide
  · unfold keptLines keptRecords
    rw [replyLines_render hne, List.filter_map]
    congr 1
    refine List.filter_congr fun r _ => ?_
    rw [Function.comp_apply, ofLine_render]
    by_cases hk : r.Kept
    · rw [if_pos hk, decide_eq_true hk]
      rfl
    · rw [if_neg hk, decide_eq_false hk]
      rfl

/-! ## Routing -/

theorem covers_pairs (ts : List SlotToken) (k : ℕ) :
    covers (ts.map SlotToken.pair) k = true ↔ ∃ t ∈ ts, t.Has k := by
  have hnum : ∀ a : Fin 16384, (UInt32.ofNat a).toNat = a := by
    intro a
    have hlt : (a : ℕ) < 2 ^ 32 := by omega
    rw [UInt32.toNat_ofNat', Nat.mod_eq_of_lt hlt]
  have hone : ∀ t : SlotToken, (t.pair.1.toNat ≤ k ∧ k ≤ t.pair.2.toNat) ↔ t.Has k := by
    intro t
    cases t with
    | slot a =>
      have hpair : (SlotToken.slot a).pair = (UInt32.ofNat a, UInt32.ofNat a) := rfl
      have hhas : (SlotToken.slot a).Has k ↔ k = a := Iff.rfl
      rw [hpair, hnum, hhas]
      omega
    | range a b hab =>
      have hpair : (SlotToken.range a b hab).pair = (UInt32.ofNat a, UInt32.ofNat b) := rfl
      have hhas : (SlotToken.range a b hab).Has k ↔ a ≤ k ∧ k ≤ b := Iff.rfl
      rw [hpair, hnum, hnum, hhas]
  unfold covers
  rw [List.any_map, List.any_eq_true]
  simp only [Function.comp_apply, decide_eq_true_eq, hone]

theorem below_pairs (ts : List SlotToken) : Below 16384 (ts.map SlotToken.pair) := by
  intro p hp
  obtain ⟨t, -, rfl⟩ := List.mem_map.1 hp
  cases t with
  | slot a =>
    have hlt : (a : ℕ) < 2 ^ 32 := by omega
    have hpair : (SlotToken.slot a).pair.2.toNat = a := (UInt32.toNat_ofNat' (n := a)).trans (Nat.mod_eq_of_lt hlt)
    omega
  | range a b hab =>
    have hlt : (b : ℕ) < 2 ^ 32 := by omega
    have hpair : (SlotToken.range a b hab).pair.2.toNat = b := (UInt32.toNat_ofNat' (n := b)).trans (Nat.mod_eq_of_lt hlt)
    omega

theorem NodeRecord.wellFormed_node (r : NodeRecord) : r.node.WellFormed where
  addressed := ⟨r.port, rfl, Or.inl r.spaceless_hostText.ne_nil⟩
  below := below_pairs r.slots

theorem NodeRecord.ipPort_node (r : NodeRecord) : r.node.ipPort = r.endpoint := by
  have haddr : RedisClient.address (fun _ => 0) r.node 0 = (r.hostText, r.port) := by
    unfold RedisClient.address
    have hip : r.node.ip = r.hostText := rfl
    simp only
    rw [hip, if_neg fun h => r.spaceless_hostText.ne_nil h.1]
    rfl
  unfold NodeInfo.ipPort NodeRecord.endpoint
  rw [haddr]

section Routes

variable {Conn : Type*} {env : RedisClientEnv Conn} {fuel : ℕ}

/-- A new client has built its pool from the reply. -/
theorem construct_built (hf : 16384 < fuel) (hb : env.Builds) {data : Str}
    (hwf : ∀ node ∈ replyNodes data, node.WellFormed) (unset : ℕ → UInt16) :
    ∃ c, RedisClient.construct fuel env (.text data unset) = some (.ok c) ∧
      c.getCurChannelPool.validLines = keptLines data ∧ BuiltFor env (replyNodes data) [] c.getCurChannelPool := by
  obtain ⟨c, hc⟩ := initChannelPool_total hf hwf (fun _ => hb) ({} : RedisClient Conn) 0 unset
  refine ⟨c, by unfold RedisClient.construct; rw [hc], ?_⟩
  rcases initChannelPool_text hc with ⟨hsame, heq⟩ | ⟨-, ⟨e, he⟩ | ⟨pool, hbuild, heq⟩⟩
  · -- no kept line: nothing is built
    rw [Except.ok.injEq] at heq
    have hnone : replyNodes data = [] := replyNodes_of_unchanged hsame
    have hpool : c.getCurChannelPool = { validLines := keptLines data } := by rw [heq]; rfl
    rw [hpool, hnone]
    refine ⟨rfl, fun k => ?_, rfl, by simp⟩
    have hnil : lastIdx (fun node : NodeInfo => covers node.mSlots k) (Table.get (-1) (resize 16384 (-1) []) k) 0 [] =
        Table.get (-1) (resize 16384 (-1) []) k := rfl
    rw [hnil, get_resize]
    split <;> rfl
  · exact absurd he (by simp)
  · rw [Except.ok.injEq] at heq
    have hpool : c.getCurChannelPool = pool := by rw [heq]; rfl
    rw [hpool]
    exact ⟨build_validLines hbuild, build_spec hf hwf hbuild⟩

/-- The client sends the key, alone or in a batch of keys of its slot, to the record at
place `i` among those that are kept. -/
structure SendsTo (env : RedisClientEnv Conn) (c : RedisClient Conn) (key : Bytes) (i : ℕ) (r : NodeRecord) : Prop where
  index : c.getCurChannelPool.getKeyNodeIndex key = i
  host : ∃ hp, c.getCurChannelPool.mChannelList[i]? = some (some hp) ∧ hp.ipPort = r.endpoint ∧
    env.hostPool r.endpoint = some hp.pool ∧ c.fetchHost key = some hp ∧
    ∀ data startIndex endIndex, key ∈ RedisClient.multiFetchKeys data startIndex endIndex →
      (∀ k ∈ RedisClient.multiFetchKeys data startIndex endIndex, getKeySlot k = getKeySlot key) →
      c.multiFetchHost data startIndex = some hp

theorem getKeyNodeIndex_of_get {pool : ChannelPool Conn} {key : Bytes} {i : ℕ}
    (h : get (-1) pool.slotIpportIndexVec (getKeySlot key).toNat = i) : pool.getKeyNodeIndex key = i := by
  rw [getKeyNodeIndex_get, h, if_neg (by omega), Int.toNat_natCast]

/-- **Keys go to their owners**: from the text that describes the records, a new client
keeps the connected masters, and sends the keys of every slot that one of them claims to
the pool built for its address. -/
theorem construct_routes (hf : 16384 < fuel) (hb : env.Builds) (records : List NodeRecord)
    (hone : ∀ (k i j : ℕ) (r r' : NodeRecord), (keptRecords records)[i]? = some r → (keptRecords records)[j]? = some r' →
      r.Claims k → r'.Claims k → i = j) (unset : ℕ → UInt16) :
    ∃ c, RedisClient.construct fuel env (.text (renderNodes records) unset) = some (.ok c) ∧
      c.getCurChannelPool.validLines = (keptRecords records).map NodeRecord.render ∧
      ∀ (i : ℕ) (r : NodeRecord) (key : Bytes), (keptRecords records)[i]? = some r →
        r.Claims (getKeySlot key).toNat → SendsTo env c key i r := by
  have hwf : ∀ node ∈ replyNodes (renderNodes records), node.WellFormed := by
    intro node hn
    rw [replyNodes_render] at hn
    obtain ⟨r, -, rfl⟩ := List.mem_map.1 hn
    exact r.wellFormed_node
  obtain ⟨c, hc, hlines, hbuilt⟩ := construct_built hf hb hwf unset
  rw [keptLines_render] at hlines
  rw [replyNodes_render] at hbuilt
  refine ⟨c, hc, hlines, fun i r key hr hclaims => ?_⟩
  -- the record is the only one, so the last, that claims the slot
  have hslot : get (-1) c.getCurChannelPool.slotIpportIndexVec (getKeySlot key).toNat = i := by
    rw [hbuilt.slots, lastIdx_map, lastIdx_of_last hr ((covers_pairs _ _).2 hclaims), Nat.zero_add]
    intro j r' hij hr'
    by_contra hcov
    rw [Bool.not_eq_false] at hcov
    have hij' := hone _ i j r r' hr hr' hclaims ((covers_pairs _ _).1 hcov)
    omega
  have hindex := getKeyNodeIndex_of_get hslot
  have hentry : (c.getCurChannelPool.mChannelList.map (Option.map HostPool.ipPort))[i]? = some (some r.endpoint) := by
    rw [hbuilt.channels, List.getElem?_map, List.getElem?_map, hr, Option.map_some, Option.map_some, r.ipPort_node]
  rw [List.getElem?_map] at hentry
  obtain ⟨e, he, hsome⟩ := Option.map_eq_some_iff.1 hentry
  obtain ⟨hp, rfl, hip⟩ := Option.map_eq_some_iff.1 hsome
  have hfetch : c.fetchHost key = some hp := by
    unfold RedisClient.fetchHost ChannelPool.connectionHost
    simp only
    rw [hindex, he]
    rfl
  refine ⟨hindex, hp, he, hip, ?_, hfetch, fun data s e hmem hsame => ?_⟩
  · rw [← hip]
    exact hbuilt.pools hp (List.mem_of_getElem? he)
  · rw [multiFetchHost_eq hmem hsame, hfetch]

/-- A record at `10.0.0.d:7000`. -/
def nodeAt (d : UInt8) (flags : List NodeFlag) (slots : List SlotToken) : NodeRecord where
  id := "e7d1".toList
  host := (10, 0, 0, d)
  port := 7000
  busPort := 17000
  flags := flags
  masterId := "-".toList
  pingSent := 0
  pongRecv := 0
  configEpoch := 1
  connected := true
  slots := slots
  id_spaceless := Spaceless.of_all (by decide) (by decide)
  masterId_spaceless := Spaceless.of_all (by decide) (by decide)
  port_pos := by decide

/-- Two masters and a replica. -/
def threeNodes : List NodeRecord :=
  [nodeAt 1 [.master] [.range 0 8191 (by decide)], nodeAt 2 [.slave] [],
    nodeAt 3 [.myself, .master] [.range 8192 16382 (by decide), .slot 16383]]

/-- The key `a`, of slot 15495, goes to the second master. -/
theorem construct_routes_threeNodes : ∃ c,
    RedisClient.construct 16385 oneConnection (.text (renderNodes threeNodes) fun _ => 0) = some (.ok c) ∧
      c.getCurChannelPool.getKeyNodeIndex [97] = 1 := by
  have hkept : keptRecords threeNodes = [nodeAt 1 [.master] [.range 0 8191 (by decide)],
      nodeAt 3 [.myself, .master] [.range 8192 16382 (by decide), .slot 16383]] := rfl
  have hfirst : ∀ k, (nodeAt 1 [.master] [.range 0 8191 (by decide)]).Claims k → k ≤ 8191 := by
    rintro k ⟨t, ht, hk⟩
    obtain rfl := List.mem_singleton.1 ht
    exact hk.2
  have hthird : ∀ k, (nodeAt 3 [.myself, .master] [.range 8192 16382 (by decide), .slot 16383]).Claims k → 8192 ≤ k := by
    rintro k ⟨t, ht, hk⟩
    rcases List.mem_cons.1 ht with rfl | ht
    · exact hk.1
    · obtain rfl := List.mem_singleton.1 ht
      have hk' : k = 16383 := hk
      omega
  obtain ⟨c, hc, -, hroutes⟩ := construct_routes (show 16384 < 16385 by decide) oneConnection_builds
    threeNodes (by
    intro k i j r r' hr hr' hk hk'
    rw [hkept] at hr hr'
    match i, j with
    | 0, 0 => rfl
    | 1, 1 => rfl
    | 0, 1 =>
      obtain rfl := Option.some.inj hr
      obtain rfl := Option.some.inj hr'
      have := hfirst k hk
      have := hthird k hk'
      omega
    | 1, 0 =>
      obtain rfl := Option.some.inj hr
      obtain rfl := Option.some.inj hr'
      have := hfirst k hk'
      have := hthird k hk
      omega
    | n + 2, _ => exact absurd hr (by simp)
    | _, n + 2 => exact absurd hr' (by simp)) fun _ => 0
  have hslot : (getKeySlot [97]).toNat = 15495 := by decide
  refine ⟨c, hc, (hroutes 1 _ [97] (by rw [hkept]; rfl) ?_).index⟩
  rw [hslot]
  exact ⟨_, List.mem_cons_self, by decide, by decide⟩

end Routes

end Graphize
