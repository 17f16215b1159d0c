import Fms.Topo.Sockets

/-!
# Numbering the threads of a core

lib/libtopo/fmd_topo.c: `_fmd_topo` goes over the list of the processors, pairs each one whose flag
is not set with the first sibling in the list, and gives the one of the two with the greater number
the thread 1. The flag of the sibling is not looked at.

* `siblingInner`, `siblingLoop`: the two loops, over the nodes of the list with their positions;
* **`siblingLoop_pair`**: what becomes of a core with two processors;
* **`threads_distinct_iff`**: when no two threads of a core have one number.
-/

namespace Fms

/-- `pcpu->cpu_core`, a field of 8 bits -/
def cpuCoreId (pcpu : TopoCpu) : ℕ := pcpu.core % 256

/-- `cpu_sibling`: if these two cpus are thread-level siblings. -/
def cpuSibling (pcpu ppcpu : TopoCpu) : Bool :=
  decide (cpuChassis pcpu = cpuChassis ppcpu ∧ cpuSocket pcpu = cpuSocket ppcpu ∧
    cpuCoreId pcpu = cpuCoreId ppcpu)

/-- A node of `list_cpu`, known by its position. -/
abbrev CpuNode := TopoCpu × ℕ

/-- `cpu_thread` and `flag` of the nodes. -/
structure CpuMarks where
  thread : ℕ → ℕ := fun _ => 0
  flag : ℕ → ℕ := fun _ => 0

/-- The body of the inner `if`: the two nodes are a pair. -/
def CpuMarks.pair (st : CpuMarks) (pos ppos : CpuNode) : CpuMarks where
  thread :=
    if ppos.1.processor > pos.1.processor then Function.update st.thread ppos.2 1
    else Function.update st.thread pos.2 1
  flag := Function.update (Function.update st.flag pos.2 1) ppos.2 1

section
variable (st : CpuMarks) (pos ppos : CpuNode)

theorem CpuMarks.pair_flag_left : (st.pair pos ppos).flag pos.2 = 1 := by
  simp [CpuMarks.pair, Function.update_apply]

theorem CpuMarks.pair_flag_right : (st.pair pos ppos).flag ppos.2 = 1 := by
  simp [CpuMarks.pair]

variable {pos ppos} {n : ℕ}

theorem CpuMarks.pair_flag_of_ne (h : n ≠ pos.2) (h' : n ≠ ppos.2) :
    (st.pair pos ppos).flag n = st.flag n := by
  simp [CpuMarks.pair, h, h']

theorem CpuMarks.pair_thread_of_ne (h : n ≠ pos.2) (h' : n ≠ ppos.2) :
    (st.pair pos ppos).thread n = st.thread n := by
  unfold CpuMarks.pair
  split
  · exact Function.update_of_ne h' _ _
  · exact Function.update_of_ne h _ _

end

/-- The inner loop, over the nodes that are left. -/
def siblingInner (pos : CpuNode) (st : CpuMarks) : List CpuNode → CpuMarks
  | [] => st
  | ppos :: rest =>
    if ppos.2 = pos.2 ∨ st.flag pos.2 = 1 then siblingInner pos st rest
    else if cpuSibling pos.1 ppos.1 then st.pair pos ppos
    else siblingInner pos st rest

/-- The outer loop. -/
def siblingLoop (nodes : List CpuNode) : CpuMarks :=
  nodes.foldl (fun st pos => siblingInner pos st nodes) {}

/-- The threads after the loop, by the positions in the list. -/
def threadOf (cpus : List TopoCpu) : ℕ → ℕ := (siblingLoop cpus.zipIdx).thread

/-! ## Siblings -/

theorem cpuSibling_iff {p q : TopoCpu} :
    cpuSibling p q ↔ cpuChassis p = cpuChassis q ∧ cpuSocket p = cpuSocket q ∧
      cpuCoreId p = cpuCoreId q := by
  simp [cpuSibling]

theorem cpuSibling_refl (p : TopoCpu) : cpuSibling p p :=
  cpuSibling_iff.mpr ⟨rfl, rfl, rfl⟩

theorem cpuSibling_symm {p q : TopoCpu} (h : cpuSibling p q) : cpuSibling q p := by
  obtain ⟨h1, h2, h3⟩ := cpuSibling_iff.mp h
  exact cpuSibling_iff.mpr ⟨h1.symm, h2.symm, h3.symm⟩

theorem cpuSibling_trans {p q r : TopoCpu} (hpq : cpuSibling p q) (hqr : cpuSibling q r) :
    cpuSibling p r := by
  obtain ⟨h1, h2, h3⟩ := cpuSibling_iff.mp hpq
  obtain ⟨h4, h5, h6⟩ := cpuSibling_iff.mp hqr
  exact cpuSibling_iff.mpr ⟨h1.trans h4, h2.trans h5, h3.trans h6⟩

/-! ## One turn of the outer loop -/

/-- The first other sibling in the list. -/
def partner (nodes : List CpuNode) (pos : CpuNode) : Option CpuNode :=
  nodes.find? fun ppos => ppos.2 ≠ pos.2 ∧ cpuSibling pos.1 ppos.1

/-- **The inner loop pairs a node without flag with its first sibling.** -/
theorem siblingInner_eq (pos : CpuNode) (st : CpuMarks) (nodes : List CpuNode) :
    siblingInner pos st nodes =
      if st.flag pos.2 = 1 then st else (partner nodes pos).elim st (st.pair pos) := by
  induction nodes with
  | nil => simp [siblingInner, partner]
  | cons ppos rest ih =>
    rw [siblingInner, ih]
    by_cases hf : st.flag pos.2 = 1
    · simp [hf]
    by_cases hp : ppos.2 = pos.2
    · simp [hf, hp, partner]
    by_cases hs : cpuSibling pos.1 ppos.1
    · simp [hf, hp, hs, partner]
    · simp [hf, hp, hs, partner]

theorem siblingInner_cases (pos : CpuNode) (st : CpuMarks) (nodes : List CpuNode) :
    siblingInner pos st nodes = st ∨
      ∃ q, partner nodes pos = some q ∧ siblingInner pos st nodes = st.pair pos q := by
  rw [siblingInner_eq]
  split
  · exact Or.inl rfl
  · cases partner nodes pos with
    | none => exact Or.inl rfl
    | some q => exact Or.inr ⟨q, rfl, rfl⟩

theorem partner_some {nodes : List CpuNode} {pos q : CpuNode} (h : partner nodes pos = some q) :
    q ∈ nodes ∧ q.2 ≠ pos.2 ∧ cpuSibling pos.1 q.1 := by
  have hq := List.find?_some h
  simp only [decide_eq_true_eq] at hq
  exact ⟨List.mem_of_find?_eq_some h, hq⟩

/-! ## Runs -/

variable {nodes : List CpuNode}

/-- What holds of the threads after every turn: only 0 and 1 are given, and 1 only to a node with a
sibling of a smaller number, or the same. -/
def ThreadsSound (nodes : List CpuNode) (st : CpuMarks) : Prop :=
  ∀ p ∈ nodes, st.thread p.2 = 0 ∨ (st.thread p.2 = 1 ∧
    ∃ q ∈ nodes, q.2 ≠ p.2 ∧ cpuSibling p.1 q.1 ∧ q.1.processor ≤ p.1.processor)

theorem threadsSound_step (hnodes : (nodes.map Prod.snd).Nodup) {st : CpuMarks} {pos : CpuNode}
    (hpos : pos ∈ nodes) (h : ThreadsSound nodes st) :
    ThreadsSound nodes (siblingInner pos st nodes) := by
  rcases siblingInner_cases pos st nodes with he | ⟨q, hq, he⟩
  · rw [he]
    exact h
  · rw [he]
    obtain ⟨hmem, hne, hsib⟩ := partner_some hq
    have hinj : ∀ a ∈ nodes, ∀ b ∈ nodes, a.2 = b.2 → a = b := fun a ha b hb hab =>
      List.inj_on_of_nodup_map hnodes ha hb hab
    intro p hp
    simp only [CpuMarks.pair]
    by_cases hgt : q.1.processor > pos.1.processor
    · rw [if_pos hgt]
      by_cases hpq : p.2 = q.2
      · obtain rfl := hinj p hp q hmem hpq
        rw [Function.update_self]
        exact Or.inr ⟨rfl, pos, hpos, Ne.symm hne, cpuSibling_symm hsib, hgt.le⟩
      · rw [Function.update_of_ne hpq]
        exact h p hp
    · rw [if_neg hgt]
      by_cases hpp : p.2 = pos.2
      · obtain rfl := hinj p hp pos hpos hpp
        rw [Function.update_self]
        exact Or.inr ⟨rfl, q, hmem, hne, hsib, not_lt.mp hgt⟩
      · rw [Function.update_of_ne hpp]
        exact h p hp

/-- The two processors of a core, before and after they are paired. -/
def PairMarks (a b : CpuNode) (st : CpuMarks) : Prop :=
  (st.flag a.2 ≠ 1 ∧ st.flag b.2 ≠ 1 ∧ st.thread a.2 = 0 ∧ st.thread b.2 = 0) ∨
    (st.flag a.2 = 1 ∧ st.flag b.2 = 1 ∧ st.thread a.2 ≠ st.thread b.2)

/-- `a` and `b` are the only processors of their core. -/
structure CorePair (nodes : List CpuNode) (a b : CpuNode) : Prop where
  left : a ∈ nodes
  right : b ∈ nodes
  ne : a.2 ≠ b.2
  sibling : cpuSibling a.1 b.1
  only : ∀ p ∈ nodes, cpuSibling a.1 p.1 → p.2 = a.2 ∨ p.2 = b.2

theorem CorePair.symm {a b : CpuNode} (h : CorePair nodes a b) : CorePair nodes b a :=
  ⟨h.right, h.left, h.ne.symm, cpuSibling_symm h.sibling, fun p hp hs =>
    (h.only p hp (cpuSibling_trans h.sibling hs)).symm⟩

theorem PairMarks.symm {a b : CpuNode} {st : CpuMarks} (h : PairMarks a b st) : PairMarks b a st := by
  rcases h with ⟨h1, h2, h3, h4⟩ | ⟨h1, h2, h3⟩
  · exact Or.inl ⟨h2, h1, h4, h3⟩
  · exact Or.inr ⟨h2, h1, h3.symm⟩

theorem CorePair.partner_eq (hnodes : (nodes.map Prod.snd).Nodup) {a b : CpuNode}
    (h : CorePair nodes a b) : partner nodes a = some b := by
  cases hq : partner nodes a with
  | none =>
    have hnone := List.find?_eq_none.mp hq b h.right
    simp only [decide_eq_true_eq] at hnone
    exact absurd ⟨h.ne.symm, h.sibling⟩ hnone
  | some q =>
    obtain ⟨hmem, hne, hsib⟩ := partner_some hq
    have hqb : q.2 = b.2 := (h.only q hmem hsib).resolve_left hne
    rw [List.inj_on_of_nodup_map hnodes hmem h.right hqb]

/-- A turn for one of the two pairs them. -/
theorem pairMarks_self (hnodes : (nodes.map Prod.snd).Nodup) {a b : CpuNode} {st : CpuMarks}
    (hab : CorePair nodes a b) (h : PairMarks a b st) :
    PairMarks a b (siblingInner a st nodes) ∧ (siblingInner a st nodes).flag a.2 = 1 := by
  rw [siblingInner_eq]
  by_cases hf : st.flag a.2 = 1
  · rw [if_pos hf]
    exact ⟨h, hf⟩
  have h0 : st.thread a.2 = 0 ∧ st.thread b.2 = 0 := by
    rcases h with ⟨_, _, ha, hb⟩ | ⟨ha, _⟩
    · exact ⟨ha, hb⟩
    · exact absurd ha hf
  have hne := hab.ne
  rw [if_neg hf, hab.partner_eq hnodes, Option.elim_some]
  refine ⟨Or.inr ⟨st.pair_flag_left a b, st.pair_flag_right a b, ?_⟩, st.pair_flag_left a b⟩
  unfold CpuMarks.pair
  by_cases hgt : b.1.processor > a.1.processor
  · simp [hgt, Function.update_of_ne hne, h0.1]
  · simp [hgt, Function.update_of_ne hne.symm, h0.2]

theorem pairMarks_other (hnodes : (nodes.map Prod.snd).Nodup) {a b pos : CpuNode} {st : CpuMarks}
    (hab : CorePair nodes a b) (hpos : pos ∈ nodes) (hpa : pos.2 ≠ a.2) (hpb : pos.2 ≠ b.2)
    (h : PairMarks a b st) : PairMarks a b (siblingInner pos st nodes) := by
  rcases siblingInner_cases pos st nodes with he | ⟨q, hq, he⟩
  · rw [he]
    exact h
  · rw [he]
    obtain ⟨hmem, hne, hsib⟩ := partner_some hq
    have hns : ¬ cpuSibling a.1 q.1 := fun hs =>
      (hab.only pos hpos (cpuSibling_trans hs (cpuSibling_symm hsib))).elim hpa hpb
    have hqa : q.2 ≠ a.2 := by
      intro hqa
      obtain rfl := List.inj_on_of_nodup_map hnodes hmem hab.left hqa
      exact hns (cpuSibling_refl _)
    have hqb : q.2 ≠ b.2 := by
      intro hqb
      obtain rfl := List.inj_on_of_nodup_map hnodes hmem hab.right hqb
      exact hns hab.sibling
    unfold PairMarks
    rw [st.pair_flag_of_ne hpa.symm hqa.symm, st.pair_flag_of_ne hpb.symm hqb.symm,
      st.pair_thread_of_ne hpa.symm hqa.symm, st.pair_thread_of_ne hpb.symm hqb.symm]
    exact h

theorem pairMarks_step (hnodes : (nodes.map Prod.snd).Nodup) {a b pos : CpuNode} {st : CpuMarks}
    (hab : CorePair nodes a b) (hpos : pos ∈ nodes) (h : PairMarks a b st) :
    PairMarks a b (siblingInner pos st nodes) := by
  by_cases hpa : pos.2 = a.2
  · obtain rfl := List.inj_on_of_nodup_map hnodes hpos hab.left hpa
    exact (pairMarks_self hnodes hab h).1
  by_cases hpb : pos.2 = b.2
  · obtain rfl := List.inj_on_of_nodup_map hnodes hpos hab.right hpb
    exact (pairMarks_self hnodes hab.symm h.symm).1.symm
  exact pairMarks_other hnodes hab hpos hpa hpb h

theorem flag_step (pos : CpuNode) {st : CpuMarks} {n : ℕ} (h : st.flag n = 1) :
    (siblingInner pos st nodes).flag n = 1 := by
  rcases siblingInner_cases pos st nodes with he | ⟨q, -, he⟩
  · rw [he, h]
  · rw [he, CpuMarks.pair]
    simp only [Function.update_apply, h, ite_self]

theorem pairMarks_run (hnodes : (nodes.map Prod.snd).Nodup) {a b : CpuNode}
    (hab : CorePair nodes a b) {l : List CpuNode} (hl : ∀ p ∈ l, p ∈ nodes) {st : CpuMarks}
    (h : PairMarks a b st) (ha : a ∈ l ∨ st.flag a.2 = 1) :
    PairMarks a b (l.foldl (fun st pos => siblingInner pos st nodes) st) ∧
      (l.foldl (fun st pos => siblingInner pos st nodes) st).flag a.2 = 1 := by
  induction l generalizing st with
  | nil => exact ⟨h, ha.resolve_left List.not_mem_nil⟩
  | cons pos l ih =>
    rw [List.forall_mem_cons] at hl
    rw [List.foldl_cons]
    refine ih hl.2 (pairMarks_step hnodes hab hl.1 h) ?_
    rcases ha with ha | ha
    · rcases List.mem_cons.mp ha with rfl | ha
      · exact Or.inr (pairMarks_self hnodes hab h).2
      · exact Or.inl ha
    · exact Or.inr (flag_step pos ha)

theorem threadsSound_run (hnodes : (nodes.map Prod.snd).Nodup) {l : List CpuNode}
    (hl : ∀ p ∈ l, p ∈ nodes) {st : CpuMarks} (h : ThreadsSound nodes st) :
    ThreadsSound nodes (l.foldl (fun st pos => siblingInner pos st nodes) st) := by
  induction l generalizing st with
  | nil => exact h
  | cons pos l ih =>
    rw [List.forall_mem_cons] at hl
    exact ih hl.2 (threadsSound_step hnodes hl.1 h)

/-- **The two processors of a core get different threads.** -/
theorem siblingLoop_pair (hnodes : (nodes.map Prod.snd).Nodup) {a b : CpuNode}
    (hab : CorePair nodes a b) : (siblingLoop nodes).thread a.2 ≠ (siblingLoop nodes).thread b.2 := by
  have hinit : PairMarks a b {} := Or.inl ⟨Nat.zero_ne_one, Nat.zero_ne_one, rfl, rfl⟩
  have hrun := pairMarks_run hnodes hab (fun _ hp => hp) hinit (Or.inl hab.left)
  rcases hrun.1 with ⟨hf, _⟩ | ⟨_, _, hne⟩
  · exact absurd hrun.2 hf
  · exact hne

/-- **Only 0 and 1 are given, 1 never to the smallest.** -/
theorem siblingLoop_sound (hnodes : (nodes.map Prod.snd).Nodup) :
    ThreadsSound nodes (siblingLoop nodes) :=
  threadsSound_run hnodes (fun _ hp => hp) fun _ _ => Or.inl rfl

/-! ## Distinct threads -/

/-- Two processors of one core differ in their threads, and the smallest has the thread 0. -/
def ThreadsRight (cpus : List TopoCpu) : Prop :=
  (∀ p ∈ cpus.zipIdx, ∀ q ∈ cpus.zipIdx, p.2 ≠ q.2 → cpuSibling p.1 q.1 →
    threadOf cpus p.2 ≠ threadOf cpus q.2) ∧
  ∀ p ∈ cpus.zipIdx, (∀ q ∈ cpus, cpuSibling p.1 q → p.1.processor ≤ q.processor) →
    threadOf cpus p.2 = 0

theorem nodup_positions (cpus : List TopoCpu) : (cpus.zipIdx.map Prod.snd).Nodup := by
  rw [List.zipIdx_map_snd]
  exact List.nodup_range'

theorem mem_of_mem_zipIdx {cpus : List TopoCpu} {p : CpuNode} (h : p ∈ cpus.zipIdx) : p.1 ∈ cpus := by
  rw [← List.zipIdx_map_fst 0 cpus]
  exact List.mem_map_of_mem h

/-- The nodes of the core of a processor. -/
def coreNodes (cpus : List TopoCpu) (p : TopoCpu) : List CpuNode :=
  cpus.zipIdx.filter fun node => cpuSibling p node.1

theorem coreNodes_length (cpus : List TopoCpu) (p : TopoCpu) :
    (coreNodes cpus p).length = cpus.countP (cpuSibling p) := by
  conv_rhs => rw [← List.zipIdx_map_fst 0 cpus, List.countP_map]
  rw [coreNodes, List.countP_eq_length_filter]
  rfl

theorem mem_coreNodes {cpus : List TopoCpu} {p : TopoCpu} {node : CpuNode} :
    node ∈ coreNodes cpus p ↔ node ∈ cpus.zipIdx ∧ cpuSibling p node.1 := by
  simp [coreNodes]

theorem smallest_thread {cpus : List TopoCpu} (hcpus : (cpus.map (·.processor)).Nodup) {p : CpuNode}
    (hp : p ∈ cpus.zipIdx)
    (hmin : ∀ q ∈ cpus, cpuSibling p.1 q → p.1.processor ≤ q.processor) :
    threadOf cpus p.2 = 0 := by
  rcases siblingLoop_sound (nodup_positions cpus) p hp with h0 | ⟨-, q, hq, hne, hsib, hle⟩
  · exact h0
  · have heq : q.1.processor = p.1.processor :=
      le_antisymm hle (hmin q.1 (mem_of_mem_zipIdx hq) hsib)
    have hpos : (cpus.zipIdx.map fun node => node.1.processor).Nodup := by
      have hmap : cpus.zipIdx.map (fun node => node.1.processor) = cpus.map (·.processor) := by
        conv_rhs => rw [← List.zipIdx_map_fst 0 cpus, List.map_map]
        rfl
      rwa [hmap]
    exact absurd (congrArg Prod.snd (List.inj_on_of_nodup_map hpos hq hp heq)) hne

/-- Three processors of a core do not get three threads. -/
theorem exists_same_thread {cpus : List TopoCpu} {p : TopoCpu}
    (h : 3 ≤ (coreNodes cpus p).length) :
    ∃ a ∈ coreNodes cpus p, ∃ b ∈ coreNodes cpus p, a.2 ≠ b.2 ∧
      threadOf cpus a.2 = threadOf cpus b.2 := by
  have hnodup : ((coreNodes cpus p).map Prod.snd).Nodup :=
    (nodup_positions cpus).sublist (List.filter_sublist.map _)
  match hl : coreNodes cpus p, h with
  | a :: b :: c :: l, _ =>
    rw [hl] at hnodup
    simp only [List.map_cons, List.nodup_cons, List.mem_cons, not_or] at hnodup
    have ha : a ∈ coreNodes cpus p := by simp [hl]
    have hb : b ∈ coreNodes cpus p := by simp [hl]
    have hc : c ∈ coreNodes cpus p := by simp [hl]
    have hval : ∀ x ∈ coreNodes cpus p, threadOf cpus x.2 = 0 ∨ threadOf cpus x.2 = 1 :=
      fun x hx => (siblingLoop_sound (nodup_positions cpus) x (mem_coreNodes.mp hx).1).imp id And.left
    rw [← hl]
    by_cases hab : threadOf cpus a.2 = threadOf cpus b.2
    · exact ⟨a, ha, b, hb, hnodup.1.1, hab⟩
    by_cases hac : threadOf cpus a.2 = threadOf cpus c.2
    · exact ⟨a, ha, c, hc, hnodup.1.2.1, hac⟩
    · refine ⟨b, hb, c, hc, hnodup.2.1.1, ?_⟩
      have := hval a ha
      have := hval b hb
      have := hval c hc
      omega

/-- **The threads are right exactly when no core has more than two processors.** -/
theorem threads_distinct_iff (cpus : List TopoCpu) (hcpus : (cpus.map (·.processor)).Nodup) :
    ThreadsRight cpus ↔ ∀ p ∈ cpus, cpus.countP (cpuSibling p) ≤ 2 := by
  simp only [← coreNodes_length]
  constructor
  · rintro ⟨hne, -⟩ p -
    by_contra hlt
    obtain ⟨a, ha, b, hb, hab, hthread⟩ := exists_same_thread (not_le.mp hlt)
    rw [mem_coreNodes] at ha hb
    exact hne a ha.1 b hb.1 hab (cpuSibling_trans (cpuSibling_symm ha.2) hb.2) hthread
  · intro htwo
    refine ⟨fun p hp q hq hpq hsib => ?_, fun p hp hmin => smallest_thread hcpus hp hmin⟩
    refine siblingLoop_pair (nodup_positions cpus) ⟨hp, hq, hpq, hsib, fun r hr hpr => ?_⟩
    by_contra hno
    rw [not_or] at hno
    have hthree : [p, q, r] ⊆ coreNodes cpus p.1 := by
      intro x hx
      simp only [List.mem_cons, List.not_mem_nil, or_false] at hx
      rcases hx with rfl | rfl | rfl
      · exact mem_coreNodes.mpr ⟨hp, cpuSibling_refl _⟩
      · exact mem_coreNodes.mpr ⟨hq, hsib⟩
      · exact mem_coreNodes.mpr ⟨hr, hpr⟩
    have hnodup : [p, q, r].Nodup := by
      have h1 : p ≠ q := fun h => hpq (h ▸ rfl)
      have h2 : p ≠ r := fun h => hno.1 (h ▸ rfl)
      have h3 : q ≠ r := fun h => hno.2 (h ▸ rfl)
      simp [h1, h2, h3]
    have hlen := (List.subperm_of_subset hnodup hthree).length_le
    have := htwo p.1 (mem_of_mem_zipIdx hp)
    simp only [List.length_cons, List.length_nil] at hlen
    omega

/-- Two cores, one of them with two processors. -/
def twoCores : List TopoCpu := [⟨2, 0, 0, 0, 0⟩, ⟨1, 0, 0, 0, 1⟩, ⟨0, 0, 0, 0, 0⟩]

theorem threads_distinct_iff_twoCores :
    (twoCores.map (·.processor)).Nodup ∧
      (ThreadsRight twoCores ↔ ∀ p ∈ twoCores, twoCores.countP (cpuSibling p) ≤ 2) :=
  ⟨by decide, threads_distinct_iff twoCores (by decide)⟩

/-- Three processors of one core. -/
def threeThreads : List TopoCpu := [⟨0, 0, 0, 0, 0⟩, ⟨1, 0, 0, 0, 0⟩, ⟨2, 0, 0, 0, 0⟩]

theorem threads_collide : ¬ ∀ cpus : List TopoCpu, (cpus.map (·.processor)).Nodup →
    ThreadsRight cpus := by
  intro h
  have hne := (h threeThreads (by decide)).1 (⟨1, 0, 0, 0, 0⟩, 1) (by simp [threeThreads])
    (⟨2, 0, 0, 0, 0⟩, 2) (by simp [threeThreads]) (by decide) (by decide)
  exact hne rfl

end Fms
