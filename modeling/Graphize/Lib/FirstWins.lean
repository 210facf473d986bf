import Mathlib.Data.List.Basic

/-!
# Tables in which the first entry wins

Association lists that are only ever extended, as a map is by `insert`: an entry under a
name that is taken is dropped.

* `lookup_insertNew`, `lookup_insertAll`: what is found after one entry, after a list of them.
* `Grows`: what has been found stays found; a preorder, kept by both operations.
-/

namespace FirstWins

variable {κ ν : Type*} [BEq κ]

/-- `std::unordered_map::insert`. -/
def insertNew (m : List (κ × ν)) (k : κ) (v : ν) : List (κ × ν) :=
  if (m.lookup k).isSome then m else m ++ [(k, v)]

/-- The entries of a list, one after the other. -/
def insertAll (m : List (κ × ν)) (es : List (κ × ν)) : List (κ × ν) := es.foldl (fun m e => insertNew m e.1 e.2) m

/-- What `m` says, `m'` says too. -/
def Grows (m m' : List (κ × ν)) : Prop := ∀ k v, m.lookup k = some v → m'.lookup k = some v

variable {m m' m'' : List (κ × ν)}

theorem Grows.refl (m : List (κ × ν)) : Grows m m := fun _ _ h => h

theorem Grows.trans (h : Grows m m') (h' : Grows m' m'') : Grows m m'' := fun k v hv => h' k v (h k v hv)

variable [LawfulBEq κ]

theorem lookup_insertNew (m : List (κ × ν)) (k : κ) (v : ν) (x : κ) :
    (insertNew m k v).lookup x = (m.lookup x).or ([(k, v)].lookup x) := by
  unfold insertNew
  by_cases hs : (m.lookup k).isSome
  · rw [if_pos hs]
    cases hx : x == k with
    | true =>
      obtain ⟨w, hw⟩ := Option.isSome_iff_exists.1 hs
      rw [eq_of_beq hx, hw, Option.some_or]
    | false => rw [List.lookup_cons, hx, List.lookup_nil, Option.or_none]
  · rw [if_neg hs, List.lookup_append]

/-- The first of the old and the new entries is found. -/
theorem lookup_insertAll (m es : List (κ × ν)) (x : κ) :
    (insertAll m es).lookup x = (m.lookup x).or (es.lookup x) := by
  unfold insertAll
  induction es generalizing m with
  | nil => rw [List.foldl_nil, List.lookup_nil, Option.or_none]
  | cons e es ih =>
    have hcons : (e :: es).lookup x = ([e].lookup x).or (es.lookup x) := by
      rw [← List.lookup_append, List.singleton_append]
    rw [List.foldl_cons, ih, lookup_insertNew, Option.or_assoc, hcons]

theorem grows_insertNew (m : List (κ × ν)) (k : κ) (v : ν) : Grows m (insertNew m k v) := by
  intro x w hw
  rw [lookup_insertNew, hw, Option.some_or]

end FirstWins
