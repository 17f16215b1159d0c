import Fms.Topo.Tree

/-!
# The sockets of a chassis

lib/libtopo/dmi.c: `fmd_topo_walk_mem` collects the sockets of a chassis from the list of the
processors, in an array of 16 places that is searched one place past its filled part. A place outside
the array has no value: `none`.

* `collectSockets`: the loop over the processors;
* **`collectSockets_eq`**: what it collects, `counted` of the socket numbers, as long as these fit;
* **`collectSockets_exact_iff`**: when these are the sockets of the chassis.
-/

namespace Fms

/-! ## The loop over the processors -/

/-- `pcpu->cpu_chassis`, a field of 8 bits -/
def cpuChassis (pcpu : TopoCpu) : ℕ := pcpu.chassis % 256

/-- `pcpu->cpu_socket`, a field of 8 bits -/
def cpuSocket (pcpu : TopoCpu) : ℕ := pcpu.socket % 256

/-- `uint32_t socket[16] = {-1}`: only the first place holds -1. -/
def socketInit : List ℕ := 0xffffffff :: List.replicate 15 0

/-- The search through `n` places from `socket[soc]` on. -/
def socketSearch (socket : List ℕ) (s : ℕ) : (soc n : ℕ) → Option Bool
  | _, 0 => some false
  | soc, n + 1 =>
    socket[soc]?.bind fun x => if x = s then some true else socketSearch socket s (soc + 1) n

/-- `socket` and `max_socket` -/
structure SocketArray where
  socket : List ℕ := socketInit
  maxSocket : ℕ := 0

/-- The body of the loop over the processors, for the chassis `i`. -/
def socketStep (i : ℕ) (st : SocketArray) (pcpu : TopoCpu) : Option SocketArray :=
  if cpuChassis pcpu = i then
    (socketSearch st.socket (cpuSocket pcpu) 0 (st.maxSocket + 1)).bind fun known =>
      if known then some st
      else if st.maxSocket < st.socket.length then
        some ⟨st.socket.set st.maxSocket (cpuSocket pcpu), st.maxSocket + 1⟩
      else none
  else some st

/-- The loop over the processors, for the chassis `i`. -/
def collectSockets (cpus : List TopoCpu) (i : ℕ) : Option SocketArray :=
  cpus.foldlM (socketStep i) {}

/-- The sockets that were collected. -/
def SocketArray.sockets (st : SocketArray) : List ℕ := st.socket.take st.maxSocket

/-! ## The numbers that count -/

/-- The socket numbers of the processors of a chassis. -/
def chassisSockets (cpus : List TopoCpu) (i : ℕ) : List ℕ :=
  (cpus.filter (cpuChassis · = i)).map cpuSocket

/-- The array when `C` was collected. -/
def socketLayout (C : List ℕ) : SocketArray := ⟨C ++ socketInit.drop C.length, C.length⟩

/-- The numbers of `l` in the order of their first occurrence. -/
def firsts (l : List ℕ) : List ℕ := l.reverse.dedup.reverse

theorem mem_firsts {l : List ℕ} {s : ℕ} : s ∈ firsts l ↔ s ∈ l := by
  rw [firsts, List.mem_reverse, List.mem_dedup, List.mem_reverse]

theorem nodup_firsts (l : List ℕ) : (firsts l).Nodup :=
  List.nodup_reverse.mpr (List.nodup_dedup _)

theorem firsts_snoc_of_mem {l : List ℕ} {s : ℕ} (h : s ∈ l) : firsts (l ++ [s]) = firsts l := by
  rw [firsts, List.reverse_append, List.reverse_singleton, List.singleton_append,
    List.dedup_cons_of_mem (List.mem_reverse.mpr h), firsts]

theorem firsts_snoc {l : List ℕ} {s : ℕ} (h : s ∉ l) : firsts (l ++ [s]) = firsts l ++ [s] := by
  rw [firsts, List.reverse_append, List.reverse_singleton, List.singleton_append,
    List.dedup_cons_of_notMem (fun hm => h (List.mem_reverse.mp hm)), List.reverse_cons, firsts]

/-- The different numbers of `l`; a 0 counts only when it comes first. -/
def counted (l : List ℕ) : List ℕ :=
  firsts (if l.head? = some 0 then l else l.filter (· ≠ 0))

/-- At most 16 numbers count, and a 0 that does not count comes before the 16th. -/
def SocketsFit (l : List ℕ) : Prop :=
  (counted l).length ≤ 16 ∧ (l.head? ≠ some 0 →
    ∀ n < l.length, l[n]? = some 0 → (counted (l.take n)).length < 16)

theorem mem_counted {l : List ℕ} {s : ℕ} : s ∈ counted l ↔ s ∈ l ∧ (s = 0 → l.head? = some 0) := by
  rw [counted, mem_firsts]
  split
  · rename_i h
    simp [h]
  · rename_i h
    simp [h]

instance : DecidablePred SocketsFit := fun l =>
  inferInstanceAs (Decidable ((counted l).length ≤ 16 ∧ (l.head? ≠ some 0 →
    ∀ n < l.length, l[n]? = some 0 → (counted (l.take n)).length < 16)))

theorem head?_snoc {l : List ℕ} (h : l ≠ []) (s : ℕ) : (l ++ [s]).head? = l.head? := by
  obtain ⟨a, t, rfl⟩ := List.exists_cons_of_ne_nil h
  rfl

theorem counted_snoc (l : List ℕ) (s : ℕ) :
    counted (l ++ [s]) =
      if s ∈ counted l ∨ (l ≠ [] ∧ s = 0) then counted l else counted l ++ [s] := by
  by_cases hl : l = []
  · subst hl
    by_cases h : s = 0 <;> simp [counted, firsts, h]
  by_cases h0 : l.head? = some 0
  · have hcl : counted l = firsts l := by rw [counted, if_pos h0]
    rw [counted, head?_snoc hl, if_pos h0, hcl]
    by_cases hs : s ∈ l
    · rw [firsts_snoc_of_mem hs, if_pos (Or.inl (mem_firsts.mpr hs))]
    · have hs0 : s ≠ 0 := by
        rintro rfl
        exact hs (List.mem_of_mem_head? h0)
      rw [firsts_snoc hs, if_neg]
      rintro (h | h)
      · exact hs (mem_firsts.mp h)
      · exact hs0 h.2
  · have hcl : counted l = firsts (l.filter (· ≠ 0)) := by rw [counted, if_neg h0]
    rw [counted, head?_snoc hl, if_neg h0, hcl, List.filter_append]
    by_cases hs0 : s = 0
    · rw [if_pos (Or.inr ⟨hl, hs0⟩)]
      simp [hs0]
    have hone : [s].filter (· ≠ 0) = [s] := by simp [hs0]
    rw [hone]
    by_cases hs : s ∈ l.filter (· ≠ 0)
    · rw [firsts_snoc_of_mem hs, if_pos (Or.inl (mem_firsts.mpr hs))]
    · rw [firsts_snoc hs, if_neg]
      rintro (h | h)
      · exact hs (mem_firsts.mp h)
      · exact hs0 h.2

theorem forall_zero_snoc (l : List ℕ) (s : ℕ) (p : List ℕ → Prop) :
    (∀ n < (l ++ [s]).length, (l ++ [s])[n]? = some 0 → p ((l ++ [s]).take n)) ↔
      (∀ n < l.length, l[n]? = some 0 → p (l.take n)) ∧ (s = 0 → p l) := by
  rw [List.length_append, List.length_singleton, Nat.forall_lt_succ_right]
  refine and_congr (forall₂_congr fun n hn => ?_) ?_
  · rw [List.getElem?_append_left hn, List.take_append_of_le_length hn.le]
  · rw [List.getElem?_append_right le_rfl, List.take_left' rfl, Nat.sub_self,
      List.getElem?_cons_zero, Option.some_inj]

theorem socketsFit_snoc (l : List ℕ) (s : ℕ) :
    SocketsFit (l ++ [s]) ↔ SocketsFit l ∧ (s ∈ counted l ∨ (counted l).length < 16) := by
  by_cases hl : l = []
  · subst hl
    have hs : (counted ([] ++ [s])).length = 1 := by
      by_cases h : s = 0 <;> simp [counted, firsts, h]
    have h0 : (counted []).length = 0 := rfl
    simp only [SocketsFit, hs, h0]
    simp only [List.nil_append, List.head?_cons, List.length_singleton]
    refine ⟨fun _ => by simp, fun _ => ⟨by omega, fun hne n hn h => absurd ?_ hne⟩⟩
    obtain rfl : n = 0 := by omega
    exact h
  have hsnoc := counted_snoc l s
  unfold SocketsFit
  rw [head?_snoc hl, forall_zero_snoc l s fun l => (counted l).length < 16]
  by_cases h0 : l.head? = some 0
  · have h0mem : (0 : ℕ) ∈ counted l := mem_counted.mpr ⟨List.mem_of_mem_head? h0, fun _ => h0⟩
    by_cases hs : s ∈ counted l
    · rw [if_pos (Or.inl hs)] at hsnoc
      simp [hsnoc, h0, hs]
    · have hs0 : ¬ (l ≠ [] ∧ s = 0) := fun h => hs (h.2 ▸ h0mem)
      rw [if_neg (not_or.mpr ⟨hs, hs0⟩)] at hsnoc
      rw [hsnoc, List.length_append, List.length_singleton]
      simp only [h0, ne_eq, not_true_eq_false, false_implies, and_true, hs, false_or]
      omega
  · by_cases hs : s ∈ counted l
    · have hs0 : s ≠ 0 := fun h => h0 ((mem_counted.mp hs).2 h)
      rw [if_pos (Or.inl hs)] at hsnoc
      simp [hsnoc, hs, hs0]
    by_cases hs0 : s = 0
    · rw [if_pos (Or.inr ⟨hl, hs0⟩)] at hsnoc
      rw [hsnoc]
      tauto
    · rw [if_neg (by tauto)] at hsnoc
      rw [hsnoc, List.length_append, List.length_singleton]
      simp only [hs, hs0, false_implies, and_true, false_or]
      constructor
      · rintro ⟨hlen, hz⟩
        exact ⟨⟨by omega, hz⟩, by omega⟩
      · rintro ⟨⟨-, hz⟩, hlt⟩
        exact ⟨by omega, hz⟩

theorem counted_eq_nil {l : List ℕ} : counted l = [] ↔ l = [] := by
  constructor
  · intro h
    cases l with
    | nil => rfl
    | cons s l =>
      have hs : s ∈ counted (s :: l) := mem_counted.mpr ⟨List.mem_cons_self, fun h0 => by simp [h0]⟩
      rw [h] at hs
      cases hs
  · rintro rfl
    rfl

/-! ## Steps and runs -/

/-- The search sees the filled places and the first one behind them. -/
theorem socketSearch_eq (A C R : List ℕ) (s : ℕ) :
    socketSearch (A ++ (C ++ R)) s A.length (C.length + 1) =
      if s ∈ C then some true else R.head?.map fun x => decide (x = s) := by
  induction C generalizing A with
  | nil =>
    rw [List.nil_append, List.length_nil, socketSearch, List.getElem?_append_right le_rfl,
      Nat.sub_self, ← List.head?_eq_getElem?, if_neg List.not_mem_nil]
    cases R with
    | nil => rfl
    | cons x R =>
      by_cases h : x = s
      · simp [h]
      · simp [h, socketSearch]
  | cons c C ih =>
    have hc : (A ++ (c :: C ++ R))[A.length]? = some c := by simp
    rw [List.length_cons, socketSearch, hc, Option.bind_some]
    by_cases h : c = s
    · rw [if_pos h, if_pos (h ▸ List.mem_cons_self)]
    · have hA : A ++ (c :: C ++ R) = (A ++ [c]) ++ (C ++ R) := by simp
      have hlen : A.length + 1 = (A ++ [c]).length := by simp
      rw [if_neg h, hA, hlen, ih]
      refine if_congr ?_ rfl rfl
      rw [List.mem_cons]
      exact ⟨Or.inr, fun hm => hm.resolve_left (Ne.symm h)⟩

theorem cpuSocket_lt (pcpu : TopoCpu) : cpuSocket pcpu < 256 := Nat.mod_lt _ (by omega)

/-- The place behind the filled ones holds 0, or -1 if it is the first one. -/
theorem socketInit_drop {n : ℕ} (h : n < 16) :
    (socketInit.drop n).head? = some (if n = 0 then 0xffffffff else 0) := by
  interval_cases n <;> rfl

theorem socketLayout_set {C : List ℕ} (h : C.length < 16) (s : ℕ) :
    (⟨(socketLayout C).socket.set C.length s, C.length + 1⟩ : SocketArray) =
      socketLayout (C ++ [s]) := by
  obtain ⟨x, R, hR⟩ := List.exists_cons_of_ne_nil
    (show socketInit.drop C.length ≠ [] by simpa [socketInit] using h)
  have hdrop : socketInit.drop (C.length + 1) = R := by
    rw [← List.drop_drop, hR]
    rfl
  simp only [socketLayout, hR, List.length_append, List.length_singleton, hdrop]
  rw [List.set_append_right _ _ (Nat.le_refl _), Nat.sub_self]
  simp

theorem socketLayout_length {C : List ℕ} (h : C.length ≤ 16) :
    (socketLayout C).socket.length = 16 := by
  simp only [socketLayout, socketInit, List.length_append, List.length_drop, List.length_cons,
    List.length_replicate]
  omega

/-- **One processor of the chassis.** -/
theorem socketStep_layout {C : List ℕ} {i : ℕ} {pcpu : TopoCpu} (hi : cpuChassis pcpu = i)
    (hC : C.length ≤ 16) :
    socketStep i (socketLayout C) pcpu =
      if cpuSocket pcpu ∈ C then some (socketLayout C)
      else if C.length < 16 then
        if C ≠ [] ∧ cpuSocket pcpu = 0 then some (socketLayout C)
        else some (socketLayout (C ++ [cpuSocket pcpu]))
      else none := by
  have hs := cpuSocket_lt pcpu
  have hsearch := socketSearch_eq [] C (socketInit.drop C.length) (cpuSocket pcpu)
  rw [socketStep, if_pos hi]
  change (socketSearch (C ++ socketInit.drop C.length) (cpuSocket pcpu) 0 (C.length + 1)).bind _ = _
  rw [List.nil_append, List.length_nil] at hsearch
  rw [hsearch]
  by_cases hmem : cpuSocket pcpu ∈ C
  · rw [if_pos hmem, if_pos hmem]
    rfl
  rw [if_neg hmem, if_neg hmem]
  by_cases hlt : C.length < 16
  · rw [if_pos hlt, socketInit_drop hlt, Option.map_some, Option.bind_some]
    by_cases hskip : C ≠ [] ∧ cpuSocket pcpu = 0
    · have hne : C.length ≠ 0 := fun h => hskip.1 (List.length_eq_zero_iff.mp h)
      rw [if_pos hskip, if_neg hne, hskip.2, decide_eq_true rfl]
      rfl
    · have hfree : (if C.length = 0 then 0xffffffff else 0) ≠ cpuSocket pcpu := by
        split
        · omega
        · rename_i h
          exact fun h0 => hskip ⟨fun hC => h (hC ▸ rfl), h0.symm⟩
      have hroom : (socketLayout C).maxSocket < (socketLayout C).socket.length := by
        rw [socketLayout_length hC]
        exact hlt
      rw [if_neg hskip, decide_eq_false hfree, ← socketLayout_set hlt]
      exact if_pos hroom
  · have hnil : socketInit.drop C.length = [] := List.drop_of_length_le (by simpa [socketInit] using hlt)
    rw [if_neg hlt, hnil]
    rfl

theorem chassisSockets_snoc (cpus : List TopoCpu) (pcpu : TopoCpu) (i : ℕ) :
    chassisSockets (cpus ++ [pcpu]) i =
      chassisSockets cpus i ++ if cpuChassis pcpu = i then [cpuSocket pcpu] else [] := by
  rw [chassisSockets, List.filter_append, List.map_append, chassisSockets]
  by_cases h : cpuChassis pcpu = i <;> simp [h]

/-- **What is collected on a chassis.** -/
theorem collectSockets_eq (cpus : List TopoCpu) (i : ℕ) :
    collectSockets cpus i =
      if SocketsFit (chassisSockets cpus i) then
        some (socketLayout (counted (chassisSockets cpus i)))
      else none := by
  unfold collectSockets
  induction cpus using List.reverseRecOn with
  | nil => rfl
  | append_singleton cpus pcpu ih =>
    rw [List.foldlM_append, ih, chassisSockets_snoc]
    simp only [List.foldlM_cons, List.foldlM_nil, bind_pure]
    by_cases hi : cpuChassis pcpu = i
    · rw [if_pos hi]
      set S := chassisSockets cpus i
      have hsnoc := counted_snoc S (cpuSocket pcpu)
      have hfit := socketsFit_snoc S (cpuSocket pcpu)
      by_cases hS : SocketsFit S
      · rw [if_pos hS, Option.bind_eq_bind, Option.bind_some, socketStep_layout hi hS.1]
        by_cases hmem : cpuSocket pcpu ∈ counted S
        · rw [if_pos hmem, if_pos (hfit.mpr ⟨hS, Or.inl hmem⟩), hsnoc, if_pos (Or.inl hmem)]
        by_cases hlt : (counted S).length < 16
        · rw [if_neg hmem, if_pos hlt, if_pos (hfit.mpr ⟨hS, Or.inr hlt⟩), hsnoc]
          by_cases hskip : counted S ≠ [] ∧ cpuSocket pcpu = 0
          · rw [if_pos hskip, if_pos (Or.inr ⟨fun h => hskip.1 (counted_eq_nil.mpr h), hskip.2⟩)]
          · have hno : ¬ (cpuSocket pcpu ∈ counted S ∨ (S ≠ [] ∧ cpuSocket pcpu = 0)) := by
              rintro (h | h)
              · exact hmem h
              · exact hskip ⟨fun hC => h.1 (counted_eq_nil.mp hC), h.2⟩
            rw [if_neg hskip, if_neg hno]
        · have hno : ¬ SocketsFit (S ++ [cpuSocket pcpu]) := fun h =>
            (hfit.mp h).2.elim hmem hlt
          rw [if_neg hmem, if_neg hlt, if_neg hno]
      · rw [if_neg hS, if_neg fun h => hS (hfit.mp h).1]
        rfl
    · have hstep : ∀ st, socketStep i st pcpu = some st := fun st => if_neg hi
      rw [if_neg hi, List.append_nil]
      simp [hstep]

theorem sockets_socketLayout (C : List ℕ) : (socketLayout C).sockets = C := by
  simp [SocketArray.sockets, socketLayout]

/-- Sixteen sockets fit in every order. -/
theorem socketsFit_of_card {l : List ℕ} (h : l.toFinset.card ≤ 16) : SocketsFit l := by
  have hcard : ∀ t : List ℕ, (counted t).length = (counted t).toFinset.card := fun t =>
    (List.toFinset_card_of_nodup (nodup_firsts _)).symm
  refine ⟨?_, fun h0 n hn hzero => ?_⟩
  · rw [hcard]
    refine (Finset.card_le_card fun s hs => ?_).trans h
    rw [List.mem_toFinset] at hs ⊢
    exact (mem_counted.mp hs).1
  · rw [hcard]
    refine (Finset.card_lt_card ?_).trans_le h
    have h0take : 0 ∉ counted (l.take n) := by
      intro hmem
      have hhead := (mem_counted.mp hmem).2 rfl
      rw [List.head?_take] at hhead
      split at hhead
      · cases hhead
      · exact h0 hhead
    rw [Finset.ssubset_iff_of_subset]
    · exact ⟨0, List.mem_toFinset.mpr (List.mem_of_getElem? hzero),
        fun hm => h0take (List.mem_toFinset.mp hm)⟩
    · intro s hs
      rw [List.mem_toFinset] at hs ⊢
      exact List.mem_of_mem_take (mem_counted.mp hs).1

/-! ## Exactness -/

/-- The array of a chassis holds exactly the sockets of its processors, each once. -/
def SocketsExact (cpus : List TopoCpu) (i : ℕ) : Prop :=
  ∃ st, collectSockets cpus i = some st ∧ st.sockets.Nodup ∧
    ∀ s, s ∈ st.sockets ↔ ∃ pcpu ∈ cpus, cpuChassis pcpu = i ∧ cpuSocket pcpu = s

theorem mem_chassisSockets {cpus : List TopoCpu} {i s : ℕ} :
    s ∈ chassisSockets cpus i ↔ ∃ pcpu ∈ cpus, cpuChassis pcpu = i ∧ cpuSocket pcpu = s := by
  simp [chassisSockets, and_assoc]

/-- **Socket 0 is collected only when it comes first.** -/
theorem collectSockets_exact_iff (cpus : List TopoCpu) (i : ℕ)
    (h : (chassisSockets cpus i).toFinset.card ≤ 16) :
    SocketsExact cpus i ↔
      (0 ∈ chassisSockets cpus i → (chassisSockets cpus i).head? = some 0) := by
  have hcol : collectSockets cpus i = some (socketLayout (counted (chassisSockets cpus i))) := by
    rw [collectSockets_eq, if_pos (socketsFit_of_card h)]
  constructor
  · rintro ⟨st, hst, -, hmem⟩ h0
    rw [hcol, Option.some_inj] at hst
    have h0st := (hmem 0).mpr (mem_chassisSockets.mp h0)
    rw [← hst, sockets_socketLayout] at h0st
    exact (mem_counted.mp h0st).2 rfl
  · intro h0
    refine ⟨_, hcol, ?_, fun s => ?_⟩
    · rw [sockets_socketLayout]
      exact nodup_firsts _
    · rw [sockets_socketLayout, mem_counted, ← mem_chassisSockets]
      exact ⟨fun hs => hs.1, fun hs => ⟨hs, fun hs0 => h0 (hs0 ▸ hs)⟩⟩

/-- Socket 1 comes before socket 0. -/
def socketsOneZero : List TopoCpu := [⟨0, 0, 0, 1, 0⟩, ⟨1, 0, 0, 0, 0⟩]

theorem collectSockets_exact_iff_oneZero :
    (chassisSockets socketsOneZero 0).toFinset.card ≤ 16 ∧
      (SocketsExact socketsOneZero 0 ↔ (0 ∈ chassisSockets socketsOneZero 0 →
        (chassisSockets socketsOneZero 0).head? = some 0)) :=
  ⟨by decide, collectSockets_exact_iff socketsOneZero 0 (by decide)⟩

/-- The search for socket 0 finds the place behind the filled one. -/
theorem collectSockets_misses_zero :
    ¬ ∀ cpus i, (chassisSockets cpus i).toFinset.card ≤ 16 → SocketsExact cpus i := by
  intro h
  obtain ⟨st, hst, -, hmem⟩ := h socketsOneZero 0 (by decide)
  have h0 : 0 ∈ st.sockets := (hmem 0).mpr ⟨⟨1, 0, 0, 0, 0⟩, by simp [socketsOneZero], rfl, rfl⟩
  have hone : collectSockets socketsOneZero 0 = some (socketLayout [1]) := rfl
  rw [hone, Option.some_inj] at hst
  rw [← hst, sockets_socketLayout] at h0
  simp at h0

end Fms
