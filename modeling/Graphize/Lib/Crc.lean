import Mathlib.Logic.Function.Iterate
import Mathlib.Data.List.Basic

/-!
# Cyclic redundancy checks

A CRC register of width `w` that divides by a polynomial of degree `w`, whose leading
coefficient is left out. Bits go in and out at the top (no reflection).

* `shift_xor`: one step of the division is linear.
* `foldl_feed`: feeding at most `w` bits is placing them on the register and dividing.
* `feed_byte`: a byte at a time. The top byte of the register is divided with the byte fed,
  and what that leaves depends on the exclusive or of the two alone: a table of 256
  entries holds it.
-/

namespace Crc

variable {w : ℕ}

/-- One step of the division: the top bit goes out, and the divisor is subtracted if it was set. -/
def shift (poly c : BitVec w) : BitVec w := if c.msb then (c <<< 1) ^^^ poly else c <<< 1

/-- One bit of the message. -/
def feed (poly c : BitVec w) (b : Bool) : BitVec w := if c.msb ^^ b then (c <<< 1) ^^^ poly else c <<< 1

/-- The CRC of a message, from an empty register. -/
def crc (poly : BitVec w) (bits : List Bool) : BitVec w := bits.foldl (feed poly) 0

/-- The bits of a byte, most significant first. -/
def byteBits (b : BitVec 8) : List Bool := (List.range 8).map b.getMsbD

/-- The first bits of a register, from the top. -/
def place : List Bool → BitVec w
  | [] => 0
  | b :: bs => (if b then BitVec.twoPow w (w - 1) else 0) ^^^ (place bs >>> 1)

/-- The top byte of a register. -/
def topByte (c : BitVec w) : BitVec 8 := (c >>> (w - 8)).setWidth 8

theorem length_byteBits (b : BitVec 8) : (byteBits b).length = 8 := by
  unfold byteBits
  rw [List.length_map, List.length_range]

/-! ## Linearity -/

theorem shift_xor (poly a b : BitVec w) : shift poly (a ^^^ b) = shift poly a ^^^ shift poly b := by
  unfold shift
  rw [BitVec.msb_xor, BitVec.shiftLeft_xor_distrib]
  cases a.msb with
  | false =>
    cases b.msb with
    | false => rfl
    | true => simp [BitVec.xor_assoc]
  | true =>
    cases b.msb with
    | false => simp only [Bool.xor_false, if_true, Bool.false_eq_true, if_false]; ac_rfl
    | true =>
      simp only [Bool.xor_self, Bool.false_eq_true, if_false, if_true]
      calc a <<< 1 ^^^ b <<< 1 = a <<< 1 ^^^ b <<< 1 ^^^ (poly ^^^ poly) := by rw [BitVec.xor_self, BitVec.xor_zero]
        _ = a <<< 1 ^^^ poly ^^^ (b <<< 1 ^^^ poly) := by ac_rfl

theorem iterate_shift_xor (poly : BitVec w) : ∀ (n : ℕ) (a b : BitVec w),
    (shift poly)^[n] (a ^^^ b) = (shift poly)^[n] a ^^^ (shift poly)^[n] b := by
  intro n
  induction n with
  | zero => intro a b; rfl
  | succ n ih =>
    intro a b
    rw [Function.iterate_succ_apply, Function.iterate_succ_apply, Function.iterate_succ_apply, shift_xor]
    exact ih _ _

/-- A register whose first bits are clear only moves. -/
theorem iterate_shift_clear (poly : BitVec w) : ∀ (n : ℕ) (c : BitVec w),
    (∀ i < n, c.getMsbD i = false) → (shift poly)^[n] c = c <<< n := by
  intro n
  induction n with
  | zero => intro c _; rw [BitVec.shiftLeft_zero]; rfl
  | succ n ih =>
    intro c hc
    have hmsb : c.msb = false := hc 0 (Nat.succ_pos n)
    have hshift : shift poly c = c <<< 1 := by
      unfold shift
      rw [hmsb]
      rfl
    rw [Function.iterate_succ_apply, hshift, ih, ← BitVec.shiftLeft_add, Nat.add_comm]
    intro i hi
    rw [BitVec.getMsbD_shiftLeft]
    exact hc (i + 1) (Nat.succ_lt_succ hi)

/-! ## Placing bits -/

theorem getMsbD_top (hw : 0 < w) (b : Bool) (i : ℕ) :
    (if b then BitVec.twoPow w (w - 1) else 0 : BitVec w).getMsbD i = (decide (i = 0) && b) := by
  cases b with
  | false => simp
  | true =>
    rw [if_pos rfl, BitVec.getMsbD_twoPow, Bool.and_true]
    rw [Bool.eq_iff_iff]
    simp only [Bool.and_eq_true, decide_eq_true_eq]
    omega

/-- **What is placed.** -/
theorem getMsbD_place : ∀ (bs : List Bool) (i : ℕ), i < w → (place bs : BitVec w).getMsbD i = bs.getD i false := by
  intro bs
  induction bs with
  | nil => intro i _; simp [place]
  | cons b bs ih =>
    intro i hi
    unfold place
    rw [BitVec.getMsbD_xor, getMsbD_top (by omega), BitVec.getMsbD_ushiftRight]
    cases i with
    | zero => simp
    | succ i =>
      rw [Nat.add_sub_cancel, ih i (by omega), List.getD_cons_succ]
      simp [hi]

theorem getD_byteBits (b : BitVec 8) (i : ℕ) : (byteBits b).getD i false = b.getMsbD i := by
  rw [List.getD_eq_getElem?_getD]
  by_cases hi : i < 8
  · unfold byteBits
    rw [List.getElem?_map, List.getElem?_range hi]
    rfl
  · rw [List.getElem?_eq_none (by rw [length_byteBits]; omega), BitVec.getMsbD_of_ge b i (by omega)]
    rfl

theorem place_byteBits (hw : 8 ≤ w) (b : BitVec 8) : (place (byteBits b) : BitVec w) = b.setWidth w <<< (w - 8) := by
  refine BitVec.eq_of_getMsbD_eq fun i hi => ?_
  have hidx : i + (w - 8) + 8 - w = i := by omega
  rw [getMsbD_place _ _ hi, getD_byteBits, BitVec.getMsbD_shiftLeft, BitVec.getMsbD_setWidth, hidx]
  simp

/-! ## Feeding -/

theorem feed_eq (hw : 0 < w) (poly c : BitVec w) (b : Bool) :
    feed poly c b = shift poly (c ^^^ if b then BitVec.twoPow w (w - 1) else 0) := by
  have hmsb : (c ^^^ if b then BitVec.twoPow w (w - 1) else 0).msb = (c.msb ^^ b) := by
    rw [BitVec.msb_xor]
    congr 1
    have h := getMsbD_top hw b 0
    rw [decide_eq_true (Eq.refl 0), Bool.true_and] at h
    exact h
  -- the bit placed on top goes out at once
  have hout : (c ^^^ if b then BitVec.twoPow w (w - 1) else 0) <<< 1 = c <<< 1 := by
    refine BitVec.eq_of_getMsbD_eq fun i _ => ?_
    rw [BitVec.getMsbD_shiftLeft, BitVec.getMsbD_shiftLeft, BitVec.getMsbD_xor, getMsbD_top hw]
    simp
  unfold feed shift
  rw [hmsb, hout]

theorem shift_ushiftRight (poly : BitVec w) {c : BitVec w} (hc : c.getMsbD (w - 1) = false) :
    shift poly (c >>> 1) = c := by
  have hmsb : (c >>> 1).msb = false := by
    have h : (c >>> 1).getMsbD 0 = false := by rw [BitVec.getMsbD_ushiftRight]; simp
    exact h
  unfold shift
  rw [hmsb, if_neg (by simp)]
  refine BitVec.eq_of_getMsbD_eq fun i hi => ?_
  rw [BitVec.getMsbD_shiftLeft, BitVec.getMsbD_ushiftRight]
  by_cases hlast : i + 1 < w
  · simp [hlast]
  · -- the last bit, which was lost, is clear
    have hi' : i = w - 1 := by omega
    rw [hi', hc]
    simp
    omega

/-- **Feeding bits** is placing them and dividing. -/
theorem foldl_feed (poly : BitVec w) : ∀ (bs : List Bool) (c : BitVec w), bs.length ≤ w →
    bs.foldl (feed poly) c = (shift poly)^[bs.length] (c ^^^ place bs) := by
  intro bs
  induction bs with
  | nil => intro c _; exact (BitVec.xor_zero).symm
  | cons b bs ih =>
    intro c hlen
    rw [List.length_cons] at hlen
    have hlast : (place bs : BitVec w).getMsbD (w - 1) = false := by
      rw [getMsbD_place _ _ (by omega), List.getD_eq_getElem?_getD, List.getElem?_eq_none (by omega)]
      rfl
    rw [List.foldl_cons, ih _ (by omega), List.length_cons, Function.iterate_succ_apply]
    congr 1
    have hplace : (place (b :: bs) : BitVec w) = (if b then BitVec.twoPow w (w - 1) else 0) ^^^ (place bs >>> 1) := rfl
    rw [hplace, ← BitVec.xor_assoc, shift_xor, shift_ushiftRight poly hlast, feed_eq (by omega)]

theorem getMsbD_topByte (hw : 8 ≤ w) (c : BitVec w) {i : ℕ} (hi : i < 8) : (topByte c).getMsbD i = c.getMsbD i := by
  have hidx : i + w - 8 - (w - 8) = i := by omega
  have hin : 8 ≤ i + w := by omega
  have hmoved : ¬i + w - 8 < w - 8 := by omega
  have hlt : i + w - 8 < w := by omega
  unfold topByte
  rw [BitVec.getMsbD_setWidth, BitVec.getMsbD_ushiftRight, hidx]
  simp [hin, hmoved, hlt]

/-- **A byte at a time.** -/
theorem feed_byte (hw : 8 ≤ w) (poly c : BitVec w) (b : BitVec 8) :
    (byteBits b).foldl (feed poly) c = (c <<< 8) ^^^ crc poly (byteBits (topByte c ^^^ b)) := by
  -- the top byte goes to the part that is divided
  have hsplit : c ^^^ place (byteBits b) = (c ^^^ place (byteBits (topByte c))) ^^^ place (byteBits (topByte c ^^^ b)) := by
    rw [place_byteBits hw, place_byteBits hw, place_byteBits hw, BitVec.setWidth_xor, BitVec.shiftLeft_xor_distrib]
    calc c ^^^ b.setWidth w <<< (w - 8)
        = c ^^^ ((topByte c).setWidth w <<< (w - 8) ^^^ (topByte c).setWidth w <<< (w - 8)) ^^^
            b.setWidth w <<< (w - 8) := by rw [BitVec.xor_self, BitVec.xor_zero]
      _ = _ := by ac_rfl
  have hclear : ∀ i < 8, (c ^^^ place (byteBits (topByte c))).getMsbD i = false := by
    intro i hi
    rw [BitVec.getMsbD_xor, getMsbD_place _ _ (by omega), getD_byteBits, getMsbD_topByte hw c hi, Bool.xor_self]
  have hmove : (c ^^^ place (byteBits (topByte c))) <<< 8 = c <<< 8 := by
    refine BitVec.eq_of_getMsbD_eq fun i hi => ?_
    rw [BitVec.getMsbD_shiftLeft, BitVec.getMsbD_shiftLeft, BitVec.getMsbD_xor]
    by_cases hi8 : i + 8 < w
    · rw [getMsbD_place _ _ hi8, getD_byteBits, BitVec.getMsbD_of_ge (topByte c) _ (by omega), Bool.xor_false]
    · rw [BitVec.getMsbD_of_ge c _ (by omega), BitVec.getMsbD_of_ge _ _ (by omega), Bool.xor_false]
  unfold crc
  rw [foldl_feed poly _ _ (by rw [length_byteBits]; exact hw), foldl_feed poly _ _ (by rw [length_byteBits]; exact hw),
    length_byteBits, length_byteBits, hsplit, iterate_shift_xor, iterate_shift_clear poly 8 _ hclear, hmove]
  congr 2
  exact BitVec.zero_xor.symm

end Crc
