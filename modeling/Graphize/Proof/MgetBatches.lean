import Graphize.Spec.MultiGet
import Graphize.Spec.RedisClient
import Graphize.Proof.Batching
import Graphize.Lib.Regroup

/-!
# The MGET commands ask for the keys

`do_service` rounds up twice to split the keys of a fetch info, and `multi_fetch` lays out
one command for each batch.

* `batchSplit_eq`, `batchStarts_eq`: in the machine's integers the split is that of
  `Spec/RedisRun`.
* `splits`: the numbers fit together.
* `asksFor_iff`: every part of a command is set, and the command that is read from them is
  MGET with the keys of the batch exactly when no part has lost its buffer.
* `split_consistent_iff`: the whole split.
-/

namespace Graphize

open IntLoop

/-! ## The numbers -/

/-- **Rounding up** does what it says while nothing overflows. -/
theorem divUp_eq {n d : ℕ} (hd : 0 < d) (hd' : d < 2 ^ 31) (hn : n < 2 ^ 31) :
    divUp n (d : ℤ) = some (batchCount n d : ℤ) := by
  have hle := batchCount_le_self (n := n) hd
  have hquot : n / d ≤ n := Nat.div_le_self n d
  unfold batchCount at hle
  unfold divUp batchCount
  rw [toSize_natCast (by omega), if_neg (by omega), ofSize_of_lt (by omega)]
  by_cases hmod : n % d ≠ 0
  · rw [if_pos hmod] at hle
    rw [if_pos hmod, if_pos hmod, ← Nat.cast_succ, int_natCast (by omega)]
  · rw [if_neg hmod, if_neg hmod]

/-- **The split**, in the machine's integers. -/
theorem batchSplit_eq {n b : ℕ} (hn : 0 < n) (hb : 0 < b) (hfit : n + b < 2 ^ 31) :
    batchSplit n (b : ℤ) = some ((batchCount n b : ℤ), (stepOf n (batchCount n b) : ℤ)) := by
  have hc := batchCount_pos hn hb
  have hle := batchCount_le_self (n := n) hb
  have hstep : divUp n (batchCount n b : ℤ) = some (stepOf n (batchCount n b) : ℤ) :=
    divUp_eq hc (by omega) (by omega)
  unfold batchSplit
  rw [divUp_eq hb (by omega) (by omega)]
  simp only [Option.bind_eq_bind, Option.bind_some, hstep]
  rfl

/-- The starts of the batches. -/
def starts (c step : ℕ) : List ℤ := (List.range c).map fun m => ((m * step : ℕ) : ℤ)

theorem starts_succ (c step : ℕ) : starts (c + 1) step = starts c step ++ [((c * step : ℕ) : ℤ)] := by
  unfold starts
  rw [List.range_succ, List.map_append]
  rfl

/-- The counter stays below `n + step`. -/
theorem rounds_mul_lt {n step : ℕ} (hn : 0 < n) (hs : 0 < step) : rounds n 0 step * step < n + step := by
  cases hr : rounds n 0 step with
  | zero => omega
  | succ c =>
    have hlast : c * step < n := (lt_rounds_iff hs).1 (by omega)
    rw [Nat.succ_mul]
    omega

/-- **The loop of `do_service`**, which makes the rounds that `rounds` counts. -/
theorem batchStarts_eq {n step fuel : ℕ} (hn : 0 < n) (hs : 0 < step) (hfit : n + step < 2 ^ 31) (hf : n < fuel) :
    batchStarts fuel n (step : ℤ) = some (starts (rounds n 0 step) step) := by
  have hend := rounds_mul_lt hn hs
  have hstop : n ≤ rounds n 0 step * step := Nat.not_lt.1 fun h => absurd ((lt_rounds_iff hs).2 h) (lt_irrefl _)
  have hrounds : rounds n 0 step ≤ n := batchCount_le_self hs
  have hloop : ∃ l, loop (fun i => toSize i < n) (step : ℤ) (fun l i => some (l ++ [i])) fuel ((0 : ℕ) : ℤ) [] = some l ∧
      l = starts (rounds n 0 step) step := by
    refine loop_total (fun k l => l = starts k step) (fun k hk => ?_) ?_ (fun k hk => ?_) (fun k hk l hl => ?_)
      (by omega) rfl
    · have := (lt_rounds_iff hs).1 hk
      rw [Nat.zero_add, toSize_natCast (by omega), decide_eq_true_eq]
      exact this
    · rw [Nat.zero_add, toSize_natCast (by omega), decide_eq_false_iff_not, Nat.not_lt]
      exact hstop
    · have := (lt_rounds_iff hs).1 hk
      omega
    · exact ⟨_, rfl, by rw [hl, starts_succ, Nat.zero_add]⟩
  obtain ⟨l, hl, rfl⟩ := hloop
  exact hl

/-! ## The split that is wanted -/

/-- The split of `n` keys into batches of at most `b`, as the completion counter and the
result items expect it. -/
structure Splits (n b : ℕ) (batchCount step : ℤ) (starts : List ℤ) : Prop where
  count_eq : batchCount = (n ⌈/⌉ b : ℕ)
  step_eq : step = (n ⌈/⌉ (n ⌈/⌉ b) : ℕ)
  rounds_eq : (starts.length : ℤ) = batchCount
  places : (starts.map fun i => itemPlace i step) = List.range (toSize batchCount)
  partition : ∀ k < n, ∃! i, i ∈ starts ∧ i ≤ k ∧ (k : ℤ) < min (i + step) n
  size : ∀ i ∈ starts, 0 ≤ i ∧ 0 < min (i + step) n - i ∧ min (i + step) n - i ≤ b
  getSize : ∀ i ∈ starts, mGetSize n i step = some (min (i + step) n - i)

section Starts

variable {n c step : ℕ}

theorem mem_starts {i : ℤ} : i ∈ starts c step ↔ ∃ m < c, i = ((m * step : ℕ) : ℤ) := by
  unfold starts
  simp only [List.mem_map, List.mem_range, eq_comm]

theorem length_starts (c step : ℕ) : (starts c step).length = c := by
  unfold starts
  rw [List.length_map, List.length_range]

theorem itemPlace_mul {m : ℕ} (hs : 0 < step) (hm : m * step < 2 ^ 63) :
    itemPlace ((m * step : ℕ) : ℤ) (step : ℤ) = m := by
  have hle : m ≤ m * step := Nat.le_mul_of_pos_right m hs
  unfold itemPlace
  rw [← Int.ofNat_tdiv, Nat.mul_div_cancel m hs, toSize_natCast (by omega)]

/-- **The places of the items**, one after the other. -/
theorem places_starts (hs : 0 < step) (hlt : ∀ m < c, m * step < 2 ^ 63) :
    ((starts c step).map fun i => itemPlace i step) = List.range c := by
  unfold starts
  rw [List.map_map]
  conv_rhs => rw [← List.map_id (List.range c)]
  exact List.map_congr_left fun m hm => itemPlace_mul hs (hlt m (List.mem_range.1 hm))

/-- **Each key is in one batch**: that of the multiple of `step` that is at most its place,
the next one being above it. -/
theorem existsUnique_start (hs : 0 < step) (hlt : ∀ m, m * step < n → m < c) {k : ℕ} (hk : k < n) :
    ∃! i, i ∈ starts c step ∧ i ≤ k ∧ (k : ℤ) < min (i + step) n := by
  have hdiv := Nat.div_add_mod k step
  have hmod := Nat.mod_lt k hs
  have hcomm : step * (k / step) = k / step * step := Nat.mul_comm _ _
  refine ⟨((k / step * step : ℕ) : ℤ), ⟨mem_starts.2 ⟨k / step, hlt _ (by omega), rfl⟩, by omega, by omega⟩, ?_⟩
  rintro i ⟨hi, h1, h2⟩
  obtain ⟨m, hm, rfl⟩ := mem_starts.1 hi
  have hquot : k / step = m := by
    rw [Nat.div_eq_iff hs]
    omega
  rw [hquot]

/-- **`m_get_size`** is the length of the batch from `i` on. -/
theorem mGetSize_natCast {i : ℕ} (hi : i < n) (hfit : n + step < 2 ^ 31) :
    mGetSize n (i : ℤ) (step : ℤ) = some (min ((i : ℤ) + step) n - i) := by
  unfold mGetSize
  rw [← Nat.cast_add, int_natCast (by omega)]
  simp only [Option.bind_eq_bind, Option.bind_some]
  rw [toSize_natCast (by omega), toSize_natCast (by omega), subSize_of_le (by omega) (by omega),
    ofSize_of_lt (by omega), Option.pure_def, Option.some.injEq]
  omega

end Starts

/-- **The arithmetic of the split.** -/
theorem splits {n b : ℕ} (hn : 0 < n) (hb : 0 < b) (hfit : n + b < 2 ^ 31) :
    Splits n b (batchCount n b : ℤ) (stepOf n (batchCount n b) : ℤ)
      (starts (batchCount n b) (stepOf n (batchCount n b))) := by
  have hc := batchCount_pos hn hb
  have hs : 0 < stepOf n (batchCount n b) := batchCount_pos hn hc
  have hle := stepOf_le hn hb
  have hcn := batchCount_le_self (n := n) hb
  have hlt : ∀ m, m < batchCount n b ↔ m * stepOf n (batchCount n b) < n := by
    intro m
    conv_lhs => rw [← rounds_zero hn hb]
    exact lt_rounds_iff hs
  refine ⟨?_, ?_, ?_, ?_, ?_, ?_, ?_⟩
  · rw [batchCount_eq n hb]
  · rw [stepOf_eq n hc, batchCount_eq n hb]
  · rw [length_starts]
  · rw [toSize_natCast (by omega)]
    refine places_starts hs fun m hm => ?_
    have := (hlt m).1 hm
    omega
  · exact fun k hk => existsUnique_start hs (fun m => (hlt m).2) hk
  · intro i hi
    obtain ⟨m, hm, rfl⟩ := mem_starts.1 hi
    have := (hlt m).1 hm
    omega
  · intro i hi
    obtain ⟨m, hm, rfl⟩ := mem_starts.1 hi
    exact mGetSize_natCast ((hlt m).1 hm) (by omega)

/-! ## The command -/

section Command

variable {shares : ℕ → Bool} {data : List Bytes}

/-- A piece set for the key at `x`: it points to the buffer of the key, or to a buffer
beyond those of the keys. -/
def PieceFor (shares : ℕ → Bool) (data : List Bytes) (x : ℕ) (piece : StringPiece) : Prop :=
  ∃ key a, data[x]? = some key ∧ piece = ⟨some (.buffer a), key.length⟩ ∧
    (shares x = true → a = x) ∧ (shares x = false → data.length ≤ a)

/-- The first piece. -/
def mgetPiece : StringPiece := ⟨some (.literal mget), mget.length⟩

/-- `parts` and the memory after `k` of the `n` rounds from `s` on. The copies made so far
have given their buffers back. -/
structure FilledTo (shares : ℕ → Bool) (data : List Bytes) (s n k : ℕ) (f : Filling) : Prop where
  buffers : ∃ copies, f.buffers = data.map some ++ List.replicate copies none
  parts : ∃ pieces, f.parts = mgetPiece :: (pieces ++ List.replicate (n - k) ({} : StringPiece)) ∧
    pieces.length = k ∧ ∀ j piece, pieces[j]? = some piece → PieceFor shares data (s + j) piece

/-- The next unset part is set. -/
theorem set_parts {pieces : List StringPiece} {n k : ℕ} (hlen : pieces.length = k) (hk : k < n) (piece : StringPiece) :
    (mgetPiece :: (pieces ++ List.replicate (n - k) ({} : StringPiece))).set (k + 1) piece =
      mgetPiece :: ((pieces ++ [piece]) ++ List.replicate (n - (k + 1)) ({} : StringPiece)) := by
  obtain ⟨m, hm⟩ : ∃ m, n - k = m + 1 := ⟨n - k - 1, by omega⟩
  rw [List.set_cons_succ, ← hlen, List.set_append_right _ _ le_rfl, Nat.sub_self, hlen, hm, List.replicate_succ,
    List.set_cons_zero, show n - (k + 1) = m by omega, List.append_assoc]
  rfl

theorem pieces_concat {pieces : List StringPiece} {s k : ℕ} {piece : StringPiece} (hlen : pieces.length = k)
    (hpieces : ∀ j piece, pieces[j]? = some piece → PieceFor shares data (s + j) piece)
    (hpiece : PieceFor shares data (s + k) piece) :
    ∀ j piece', (pieces ++ [piece])[j]? = some piece' → PieceFor shares data (s + j) piece' := by
  intro j piece' hj
  rcases Nat.lt_trichotomy j k with hlt | rfl | hgt
  · rw [List.getElem?_append_left (by omega)] at hj
    exact hpieces j piece' hj
  · rw [List.getElem?_append_right (by omega), hlen, Nat.sub_self] at hj
    obtain rfl : piece = piece' := by simpa using hj
    exact hpiece
  · rw [List.getElem?_eq_none (by rw [List.length_append, List.length_singleton]; omega)] at hj
    exact absurd hj (by simp)

/-- **One round** sets one part. -/
theorem round_filled {s n k : ℕ} {f : Filling} (hk : k < n) (hn : s + n ≤ data.length) (hfit : data.length < 2 ^ 31)
    (hf : FilledTo shares data s n k f) :
    ∃ f', f.round shares data s ((s + k : ℕ) : ℤ) = some f' ∧ FilledTo shares data s n (k + 1) f' := by
  obtain ⟨⟨copies, hbuffers⟩, pieces, hparts, hlen, hpieces⟩ := hf
  obtain ⟨key, hkey⟩ : ∃ key, data[s + k]? = some key := ⟨_, List.getElem?_eq_getElem (by omega)⟩
  have hi : toSize ((s + k : ℕ) : ℤ) = s + k := toSize_natCast (by omega)
  have hnext : int (((s + k : ℕ) : ℤ) + 1) = some ((s + k + 1 : ℕ) : ℤ) := by
    rw [← Nat.cast_succ]
    exact int_natCast (by omega)
  have hplace : int (((s + k + 1 : ℕ) : ℤ) - s) = some ((k + 1 : ℕ) : ℤ) := by
    have hdiff : ((s + k + 1 : ℕ) : ℤ) - s = ((k + 1 : ℕ) : ℤ) := by omega
    rw [hdiff, int_natCast (by omega)]
  have hindex : toSize ((k + 1 : ℕ) : ℤ) = k + 1 := toSize_natCast (by omega)
  have hlt : k + 1 < f.parts.length := by
    rw [hparts, List.length_cons, List.length_append, List.length_replicate]
    omega
  unfold Filling.round
  simp only [hi, hkey, Option.bind_eq_bind, Option.bind_some, hnext, hplace, hindex, if_pos hlt]
  cases hsh : shares (s + k) with
  | true =>
    -- `k` and `data[i]` have one buffer
    have hpiece : PieceFor shares data (s + k) ⟨some (.buffer (s + k)), key.length⟩ :=
      ⟨key, s + k, hkey, rfl, fun _ => rfl, fun h => absurd (hsh.symm.trans h) (by simp)⟩
    exact ⟨_, rfl, ⟨copies, hbuffers⟩, pieces ++ [_], by rw [hparts]; exact set_parts hlen hk _,
      by rw [List.length_append, List.length_singleton, hlen], pieces_concat hlen hpieces hpiece⟩
  | false =>
    -- the buffer of `k` is a new one, which the end of the round gives back
    have hlength : data.length ≤ f.buffers.length := by
      rw [hbuffers, List.length_append, List.length_map]
      omega
    have hpiece : PieceFor shares data (s + k) ⟨some (.buffer f.buffers.length), key.length⟩ :=
      ⟨key, f.buffers.length, hkey, rfl, fun h => absurd (hsh.symm.trans h) (by simp), fun _ => hlength⟩
    refine ⟨_, rfl, ⟨copies + 1, ?_⟩, pieces ++ [_], by rw [hparts]; exact set_parts hlen hk _,
      by rw [List.length_append, List.length_singleton, hlen], pieces_concat hlen hpieces hpiece⟩
    show (f.buffers ++ [some key]).set f.buffers.length none = _
    rw [List.set_append_right _ _ le_rfl, Nat.sub_self, List.set_cons_zero, hbuffers, List.append_assoc,
      List.replicate_succ']

/-- **The loop of `multi_fetch`** sets all parts. -/
theorem multiFetchParts_filled {s e fuel : ℕ} (hs : s < data.length) (hse : s < e) (he : e < 2 ^ 31)
    (hfit : data.length < 2 ^ 31) (hf : data.length < fuel) :
    ∃ f, multiFetchParts shares fuel data s e = some f ∧
      FilledTo shares data s (min e data.length - s) (min e data.length - s) f := by
  set n := min e data.length - s with hn
  have hsize : (subSize (min (toSize (e : ℤ)) data.length) (toSize (s : ℤ)) + 1) % 2 ^ 64 = n + 1 := by
    rw [toSize_natCast (by omega), toSize_natCast (by omega), subSize_of_le (by omega) (by omega)]
    exact Nat.mod_eq_of_lt (by omega)
  have hstart : FilledTo shares data s n 0
      ⟨data.map some, (List.replicate (n + 1) ({} : StringPiece)).set 0 mgetPiece⟩ :=
    ⟨⟨0, by simp⟩, [], by rw [List.replicate_succ]; rfl, rfl, by simp⟩
  have hcond : ∀ k, decide (toSize ((s + k * 1 : ℕ) : ℤ) < data.length ∧ ((s + k * 1 : ℕ) : ℤ) < e) = true ↔
      toSize ((s + k : ℕ) : ℤ) < data.length ∧ s + k < e := by
    intro k
    rw [decide_eq_true_eq, Nat.mul_one, Nat.cast_lt]
  have hloop : ∃ f, loop (fun i => toSize i < data.length ∧ i < e) ((1 : ℕ) : ℤ) (Filling.round shares data s) fuel
      (s : ℤ) ⟨data.map some, (List.replicate (n + 1) ({} : StringPiece)).set 0 mgetPiece⟩ = some f ∧
        FilledTo shares data s n n f := by
    refine loop_total (FilledTo shares data s n) (fun k hk => ?_) ?_ (fun k hk => by omega) (fun k hk f hf => ?_)
      (by omega) hstart
    · rw [hcond, toSize_natCast (by omega)]
      omega
    · rw [← Bool.not_eq_true, hcond, toSize_natCast (by omega)]
      omega
    · rw [Nat.mul_one]
      exact round_filled hk (by omega) hfit hf
  obtain ⟨f, hrun, hfilled⟩ := hloop
  refine ⟨f, ?_, hfilled⟩
  unfold multiFetchParts
  simp only [hsize, if_pos (Nat.succ_pos n)]
  exact hrun

/-! ## What is read -/

/-- A part is read as its key when the key is empty or the buffer is that of the key. -/
theorem read_piece {buffers : Buffers} {copies x : ℕ} {key : Bytes} {piece : StringPiece}
    (hbuffers : buffers = data.map some ++ List.replicate copies none) (hkey : data[x]? = some key)
    (hpiece : PieceFor shares data x piece) :
    piece.read buffers = some key ↔ shares x = true ∨ key = [] := by
  obtain ⟨key', a, hkey', rfl, hshared, hcopied⟩ := hpiece
  obtain rfl : key = key' := by rw [hkey, Option.some.injEq] at hkey'; exact hkey'
  have hx : x < data.length := (List.getElem?_eq_some_iff.1 hkey).1
  unfold StringPiece.read
  by_cases hempty : key = []
  · subst hempty
    simp
  · have hlength : key.length ≠ 0 := by rwa [Ne, List.length_eq_zero_iff]
    simp only [if_neg hlength, hempty, or_false]
    cases hsh : shares x with
    | true =>
      rw [hshared hsh, hbuffers, List.getElem?_append_left (by rwa [List.length_map]), List.getElem?_map, hkey]
      simp
    | false =>
      have ha := hcopied hsh
      rw [hbuffers, List.getElem?_append_right (by rwa [List.length_map]), List.getElem?_replicate]
      split <;> simp

theorem getElem?_multiFetchKeys {s e j : ℕ} (hj : s + j < e) :
    (RedisClient.multiFetchKeys data s e)[j]? = data[s + j]? := by
  unfold RedisClient.multiFetchKeys
  rw [List.getElem?_drop, List.getElem?_take_of_lt hj]

/-- The pieces are read as the keys of the batch when each of them is read as its own. -/
theorem read_pieces {buffers : Buffers} {copies s e : ℕ} {pieces : List StringPiece}
    (hbuffers : buffers = data.map some ++ List.replicate copies none) (hse : s < e) (hs : s < data.length)
    (hlen : pieces.length = min e data.length - s)
    (hpieces : ∀ j piece, pieces[j]? = some piece → PieceFor shares data (s + j) piece) :
    pieces.map (StringPiece.read buffers) = (RedisClient.multiFetchKeys data s e).map some ↔
      ∀ x key, s ≤ x → x < e → data[x]? = some key → shares x = true ∨ key = [] := by
  constructor
  · intro heq x key hsx hxe hkey
    obtain ⟨j, rfl⟩ : ∃ j, x = s + j := ⟨x - s, by omega⟩
    have hx : s + j < data.length := (List.getElem?_eq_some_iff.1 hkey).1
    obtain ⟨piece, hpiece⟩ : ∃ piece, pieces[j]? = some piece := ⟨_, List.getElem?_eq_getElem (by omega)⟩
    have hj := congrArg (fun l => l[j]?) heq
    simp only [List.getElem?_map, hpiece, getElem?_multiFetchKeys hxe, hkey, Option.map_some, Option.some.injEq] at hj
    exact (read_piece hbuffers hkey (hpieces j piece hpiece)).1 hj
  · intro hall
    refine List.ext_getElem? fun j => ?_
    rw [List.getElem?_map, List.getElem?_map]
    by_cases hj : j < pieces.length
    · obtain ⟨key, hkey⟩ : ∃ key, data[s + j]? = some key := ⟨_, List.getElem?_eq_getElem (by omega)⟩
      rw [List.getElem?_eq_getElem hj, getElem?_multiFetchKeys (by omega), hkey, Option.map_some, Option.map_some]
      exact congrArg some ((read_piece hbuffers hkey (hpieces j _ (List.getElem?_eq_getElem hj))).2
        (hall (s + j) key (by omega) (by omega) hkey))
    · have hkeys : (RedisClient.multiFetchKeys data s e).length = min e data.length - s := by
        unfold RedisClient.multiFetchKeys
        rw [List.length_drop, List.length_take]
      rw [List.getElem?_eq_none (Nat.not_lt.1 hj), List.getElem?_eq_none (by omega)]
      rfl

/-- The command of a batch: every part is set, and together they are read as MGET with the
keys of the batch. -/
def AsksFor (shares : ℕ → Bool) (fuel : ℕ) (data : List Bytes) (startIndex endIndex : ℤ) : Prop :=
  ∃ f, multiFetchParts shares fuel data startIndex endIndex = some f ∧ (∀ piece ∈ f.parts, piece.ptr ≠ none) ∧
    f.components = some (mget :: RedisClient.multiFetchKeys data startIndex.toNat endIndex.toNat)

/-- **The command asks for the keys of the batch** exactly when no part has lost its buffer. -/
theorem asksFor_iff {s e fuel : ℕ} (hs : s < data.length) (hse : s < e) (he : e < 2 ^ 31)
    (hfit : data.length < 2 ^ 31) (hf : data.length < fuel) :
    AsksFor shares fuel data s e ↔ ∀ x key, s ≤ x → x < e → data[x]? = some key → shares x = true ∨ key = [] := by
  obtain ⟨f, hrun, ⟨copies, hbuffers⟩, pieces, hparts, hlen, hpieces⟩ := multiFetchParts_filled hs hse he hfit hf
  rw [Nat.sub_self, List.replicate_zero, List.append_nil] at hparts
  have hset : ∀ piece ∈ f.parts, piece.ptr ≠ none := by
    rw [hparts, List.forall_mem_cons]
    refine ⟨by simp [mgetPiece], fun piece hmem => ?_⟩
    obtain ⟨j, hj⟩ := List.getElem?_of_mem hmem
    obtain ⟨key, a, -, rfl, -⟩ := hpieces j piece hj
    simp
  have hread : f.components = some (mget :: RedisClient.multiFetchKeys data s e) ↔
      ∀ x key, s ≤ x → x < e → data[x]? = some key → shares x = true ∨ key = [] := by
    have hfirst : mgetPiece.read f.buffers = some mget := rfl
    rw [← read_pieces hbuffers hse hs hlen hpieces]
    unfold Filling.components
    rw [hparts, Regroup.mapM_eq_some_iff, List.map_cons, List.map_cons, hfirst, List.cons.injEq]
    exact and_iff_right rfl
  rw [← hread]
  constructor
  · rintro ⟨f', hrun', -, hcomponents⟩
    rw [hrun, Option.some.injEq] at hrun'
    rw [hrun']
    exact hcomponents
  · exact fun hcomponents => ⟨f, hrun, hset, hcomponents⟩

end Command

/-! ## The whole split -/

/-- The split of `keys` into batches is consistent, and each batch is asked for. -/
def SplitConsistent (shares : ℕ → Bool) (fuel : ℕ) (keys : List Bytes) (b : ℕ) : Prop :=
  ∃ batchCount step starts, batchSplit keys.length b = some (batchCount, step) ∧
    batchStarts fuel keys.length step = some starts ∧ Splits keys.length b batchCount step starts ∧
      ∀ i ∈ starts, AsksFor shares fuel keys i (i + step)

/-- **The split of a fetch info** is consistent, and each batch asks for its keys, exactly
when every copy of a key that is not empty shares the buffer of the key. -/
theorem split_consistent_iff (shares : ℕ → Bool) {fuel : ℕ} {keys : List Bytes} {b : ℕ} (hn : 1 ≤ keys.length)
    (hb : 1 ≤ b) (hfit : keys.length + b < 2 ^ 31) (hf : keys.length < fuel) :
    SplitConsistent shares fuel keys b ↔ ∀ i key, keys[i]? = some key → shares i = true ∨ key = [] := by
  have hc := batchCount_pos hn hb
  have hs : 0 < stepOf keys.length (batchCount keys.length b) := batchCount_pos hn hc
  have hle := stepOf_le hn hb
  have hsplit := batchSplit_eq hn hb hfit
  have hstarts := batchStarts_eq hn hs (by omega) hf
  have hnumbers := splits hn hb hfit
  rw [rounds_zero hn hb] at hstarts
  set c := batchCount keys.length b
  set step := stepOf keys.length c
  -- the batch that starts at a multiple of `step`
  have hbatch : ∀ m, ((m * step : ℕ) : ℤ) ∈ starts c step → (AsksFor shares fuel keys ((m * step : ℕ) : ℤ)
      (((m * step : ℕ) : ℤ) + step) ↔ ∀ x key, m * step ≤ x → x < m * step + step → keys[x]? = some key →
        shares x = true ∨ key = []) := by
    intro m hm
    obtain ⟨-, hpos, -⟩ := hnumbers.size _ hm
    rw [← Nat.cast_add]
    exact asksFor_iff (by omega) (by omega) (by omega) (by omega) hf
  constructor
  · rintro ⟨batchCount', step', starts', hsplit', hstarts', -, hall⟩ x key hkey
    rw [hsplit, Option.some.injEq, Prod.mk.injEq] at hsplit'
    obtain ⟨rfl, rfl⟩ := hsplit'
    rw [hstarts, Option.some.injEq] at hstarts'
    subst hstarts'
    obtain ⟨i, ⟨hi, h1, h2⟩, -⟩ := hnumbers.partition x (List.getElem?_eq_some_iff.1 hkey).1
    obtain ⟨m, -, rfl⟩ := mem_starts.1 hi
    exact (hbatch m hi).1 (hall _ hi) x key (by omega) (by omega) hkey
  · intro hall
    refine ⟨_, _, _, hsplit, hstarts, hnumbers, fun i hi => ?_⟩
    obtain ⟨m, -, rfl⟩ := mem_starts.1 hi
    exact (hbatch m hi).2 fun x key _ _ hkey => hall x key hkey

theorem split_consistent_three : 1 ≤ 3 ∧ 1 ≤ 2 ∧ 3 + 2 < 2 ^ 31 ∧ 3 < 4 ∧
    SplitConsistent (fun _ => true) 4 [[97], [98], []] 2 :=
  ⟨by decide, by decide, by decide, by decide,
    (split_consistent_iff (fun _ => true) (by decide) (by decide) (by decide) (by decide)).2 fun _ _ _ => Or.inl rfl⟩

example : (multiFetchParts (fun _ => true) 4 [[97], [98], []] 1 3).bind Filling.components = some [mget, [98], []] := by
  decide

/-- One key, whose copy has a buffer of its own: the part that is left points into it after
it has been given back. -/
theorem split_dangling : ¬∀ (shares : ℕ → Bool) (fuel : ℕ) (keys : List Bytes) (b : ℕ), 1 ≤ keys.length → 1 ≤ b →
    keys.length + b < 2 ^ 31 → keys.length < fuel → SplitConsistent shares fuel keys b := by
  intro hall
  obtain ⟨batchCount, step, starts, hsplit, hstarts, -, hasks⟩ :=
    hall (fun _ => false) 2 [[97]] 2 (by decide) (by decide) (by decide) (by decide)
  have hnumbers : batchSplit 1 2 = some (1, 1) := by decide
  obtain ⟨rfl, rfl⟩ : 1 = batchCount ∧ 1 = step := by
    rw [← Prod.mk.injEq, ← Option.some.injEq, ← hnumbers]
    exact hsplit
  have hone : batchStarts 2 1 1 = some [0] := by decide
  obtain rfl : [0] = starts := by
    rw [← Option.some.injEq, ← hone]
    exact hstarts
  obtain ⟨f, hrun, -, hcomponents⟩ := hasks 0 List.mem_cons_self
  have hread : (multiFetchParts (fun _ => false) 2 [[97]] 0 1).bind Filling.components = none := by decide
  have hsome : (multiFetchParts (fun _ => false) 2 [[97]] 0 1).bind Filling.components = f.components := by
    rw [show multiFetchParts (fun _ => false) 2 [[97]] 0 1 = some f from hrun]
    rfl
  rw [hread, hcomponents] at hsome
  exact absurd hsome (by simp)

end Graphize
