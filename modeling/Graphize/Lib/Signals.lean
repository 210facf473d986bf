import Mathlib.Data.Nat.Init
import Mathlib.Tactic.Common

/-!
# Threads that sleep until they are signalled

Counts for a monitor: items that somebody is to take, threads that are awake and about to
look for one, signals that are still to be sent, and threads that sleep. A thread falls
asleep only when there is no item; whoever brings an item sends a signal afterwards.

* `Covered`: while somebody sleeps, each item has a thread that is awake or a signal.
* `Move.covered`: every move keeps it, with spurious wake-ups and signals that nobody hears.
* `Covered.no_items`: so nothing is forgotten when everybody sleeps.
-/

namespace Signals

structure Room where
  items : ℕ
  awake : ℕ
  signals : ℕ
  asleep : ℕ

/-- **No signal is lost.** -/
def Room.Covered (r : Room) : Prop := 0 < r.asleep → r.items ≤ r.awake + r.signals

/-- What can happen to the counts. -/
inductive Room.Move (r r' : Room) : Prop
  /-- An item comes, and its signal is on the way. -/
  | bring (hi : r'.items = r.items + 1) (ha : r'.awake = r.awake) (hs : r'.signals = r.signals + 1)
      (hz : r'.asleep = r.asleep)
  | signal (hi : r'.items = r.items) (ha : r'.awake = r.awake + 1) (hs : r'.signals + 1 = r.signals)
      (hz : r'.asleep + 1 = r.asleep)
  /-- Nobody sleeps who could hear it. -/
  | unheard (hz : r'.asleep = 0)
  /-- A thread wakes up by itself, comes back from its work or is new. -/
  | join (hi : r'.items = r.items) (ha : r'.awake = r.awake + 1) (hs : r'.signals = r.signals)
      (hz : r'.asleep ≤ r.asleep)
  | take (hi : r'.items + 1 = r.items) (ha : r'.awake + 1 = r.awake) (hs : r'.signals = r.signals)
      (hz : r'.asleep = r.asleep)
  /-- A thread that finds nothing falls asleep or leaves. -/
  | idle (hi : r'.items = 0)
  | stay (h : r' = r)

/-- **Every move keeps the items covered.** -/
theorem Room.Move.covered {r r' : Room} (h : r.Move r') (hr : r.Covered) : r'.Covered := by
  intro hpos
  cases h with
  | bring hi ha hs hz =>
    have := hr (by omega)
    omega
  | signal hi ha hs hz =>
    have := hr (by omega)
    omega
  | unheard hz => omega
  | join hi ha hs hz =>
    have := hr (by omega)
    omega
  | take hi ha hs hz =>
    have := hr (by omega)
    omega
  | idle hi => omega
  | stay h =>
    rw [h] at hpos ⊢
    exact hr hpos

/-- Everybody sleeps, and no signal is on its way. -/
theorem Room.Covered.no_items {r : Room} (hr : r.Covered) (ha : r.awake = 0) (hs : r.signals = 0)
    (hz : 0 < r.asleep) : r.items = 0 := by
  have := hr hz
  omega

end Signals
