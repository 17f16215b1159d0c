import Fms.Lib.CString

/-!
# Walks over nested directories

A scan of nested directories copies names into buffers of a fixed size, does something for each item
it finds, and returns at once when a directory cannot be opened. A string that does not fit its
buffer has no result.

* `forDir`, `openDir`: the loop over a directory;
* `Walk`: what a scan comes across up to its return;
* **`Walk.runs_forDir`**: the loop runs the walks of the entries one after the other.
-/

namespace CString

variable {σ α β : Type}

/-- What `readdir` returns for an entry, and what `opendir` on it gives. -/
structure Dirent (α : Type) where
  name : CStr
  sub : Option α

/-- `while ((dp = readdir(dirp)) != NULL)`, where the body may return: `false`. -/
def forDir (body : α → σ → Option (σ × Bool)) : List α → σ → Option (σ × Bool)
  | [], st => some (st, true)
  | e :: es, st => (body e st).bind fun r => if r.2 then forDir body es r.1 else some (r.1, false)

/-- `opendir`, which is followed by the return if it fails, and the loop. -/
def openDir (body : α → σ → Option (σ × Bool)) (sub : Option (List α)) (st : σ) : Option (σ × Bool) :=
  match sub with
  | none => some (st, false)
  | some es => forDir body es st

/-- The strings that are copied, with the sizes of their buffers, the items that are found, and
whether the scan goes on. -/
structure Walk (β : Type) where
  strings : List (ℕ × CStr) := []
  items : List β := []
  ok : Bool := true

namespace Walk

/-- A string is copied before `w`. -/
def copy (size : ℕ) (s : CStr) (w : Walk β) : Walk β := { w with strings := (size, s) :: w.strings }

/-- One walk after the other. -/
def seq (w w' : Walk β) : Walk β :=
  if w.ok then ⟨w.strings ++ w'.strings, w.items ++ w'.items, w'.ok⟩ else w

/-- The walks of the entries of a directory. -/
def collect (f : α → Walk β) : List α → Walk β
  | [] => {}
  | e :: es => (f e).seq (collect f es)

/-- The walk of a directory, which may not be there. -/
def openWalk (f : α → Walk β) : Option (List α) → Walk β
  | none => ⟨[], [], false⟩
  | some es => collect f es

/-- Every string fits its buffer. -/
def Fits (w : Walk β) : Prop := ∀ s ∈ w.strings, s.2.length < s.1

instance (w : Walk β) : Decidable w.Fits :=
  inferInstanceAs (Decidable (∀ s ∈ w.strings, s.2.length < s.1))

/-- The scan `f` does `step` for each item of `w`, if all strings fit. -/
def Runs (step : σ → β → σ) (f : σ → Option (σ × Bool)) (w : Walk β) : Prop :=
  ∀ st, f st = if w.Fits then some (w.items.foldl step st, w.ok) else none

variable {step : σ → β → σ}

theorem runs_none (ok : Bool) : Runs step (fun st => some (st, ok)) ⟨[], [], ok⟩ := fun _ =>
  (if_pos fun _ h => absurd h List.not_mem_nil).symm

theorem runs_items (l : List β) : Runs step (fun st => some (l.foldl step st, true)) ⟨[], l, true⟩ :=
  fun _ => (if_pos fun _ h => absurd h List.not_mem_nil).symm

theorem fits_copy {size : ℕ} {s : CStr} {w : Walk β} :
    (w.copy size s).Fits ↔ s.length < size ∧ w.Fits := List.forall_mem_cons

theorem runs_copy {size : ℕ} {s : CStr} {f : CStr → σ → Option (σ × Bool)} {w : Walk β}
    (h : Runs step (f s) w) :
    Runs step (fun st => (store size s).bind fun s => f s st) (w.copy size s) := by
  intro st
  by_cases hs : s.length < size
  · simp only [store_fits hs, Option.bind_some, fits_copy, hs, true_and]
    exact h st
  · simp only [store_overflow hs, fits_copy, hs, false_and, if_false]
    rfl

theorem runs_seq {f g : σ → Option (σ × Bool)} {w w' : Walk β} (hf : Runs step f w)
    (hg : Runs step g w') :
    Runs step (fun st => (f st).bind fun r => if r.2 then g r.1 else some (r.1, false)) (w.seq w') := by
  intro st
  dsimp only
  rw [hf st]
  by_cases hok : w.ok
  · have hfits : (w.seq w').Fits ↔ w.Fits ∧ w'.Fits := by
      simp only [Fits, seq, if_pos hok, List.forall_mem_append]
    by_cases hw : w.Fits
    · rw [if_pos hw, Option.bind_some, if_pos hok, hg]
      refine if_congr ?_ ?_ rfl
      · rw [hfits, and_iff_right hw]
      · simp only [seq, if_pos hok, List.foldl_append]
    · rw [if_neg hw, if_neg fun h => hw (hfits.mp h).1]
      rfl
  · have hseq : w.seq w' = w := if_neg hok
    by_cases hw : w.Fits
    · simp [hseq, hw, hok]
    · simp [hseq, hw]

/-- **The loop over a directory.** -/
theorem runs_forDir {body : α → σ → Option (σ × Bool)} {w : α → Walk β}
    (h : ∀ e, Runs step (body e) (w e)) (es : List α) :
    Runs step (forDir body es) (collect w es) := by
  induction es with
  | nil => exact runs_none true
  | cons e es ih => exact runs_seq (h e) ih

theorem runs_openDir {body : α → σ → Option (σ × Bool)} {w : α → Walk β}
    (h : ∀ e, Runs step (body e) (w e)) (sub : Option (List α)) :
    Runs step (openDir body sub) (openWalk w sub) := by
  cases sub with
  | none => exact runs_none false
  | some es => exact runs_forDir h es

end Walk

end CString
