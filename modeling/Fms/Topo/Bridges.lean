import Fms.Topo.Pci

/-!
# The order of the bridges

`fmd_topo_walk_subpci` goes over the bridges in the reverse of the order in which the directory was
read, and each bridge rewrites the fields that the later ones match. A bridge leads from its child
bus to the bus it is on.

* `OrderFree`: when the order of the bridges does not matter for a device;
* `walkEntry_loops`, `walkEntry_leaves`: what becomes of such a device;
* **`subpci_perm_iff`**: the walk is the same for every order exactly when every device is such.
-/

namespace Fms

/-- The bus an entry is on. -/
def TopoPci.busOf (p : TopoPci) : ℕ × ℕ := (p.chassis, p.hostbridge)

/-- The bus below an entry, or the one it came from. -/
def TopoPci.childBus (p : TopoPci) : ℕ × ℕ := (p.subdomain, p.subbus)

/-- The entry of a device that was on the bus `x` when the bridge `b` took it. -/
def hangBelow (b : TopoPci) (slot func : ℕ) : TopoPci :=
  { b with subslot := slot % 8, subfunc := func % 4 }

theorem reparent_of_eq {b s : TopoPci} (h : b.childBus = s.busOf) :
    reparent b s = hangBelow b s.slot s.func := by
  obtain ⟨h1, h2⟩ := Prod.ext_iff.mp h
  exact if_pos ⟨h2.symm, h1.symm⟩

theorem reparent_of_ne {b s : TopoPci} (h : b.childBus ≠ s.busOf) : reparent b s = s :=
  if_neg fun h' => h (Prod.ext h'.2.symm h'.1.symm)

theorem walkEntry_append (bs cs : List TopoPci) (s : TopoPci) :
    walkEntry (bs ++ cs) s = walkEntry cs (walkEntry bs s) := List.foldl_append

theorem walkEntry_cons (b : TopoPci) (bs : List TopoPci) (s : TopoPci) :
    walkEntry (b :: bs) s = walkEntry bs (reparent b s) := rfl

theorem walkEntry_of_ne {bs : List TopoPci} {s : TopoPci} (h : ∀ b ∈ bs, b.childBus ≠ s.busOf) :
    walkEntry bs s = s := by
  induction bs with
  | nil => rfl
  | cons b bs ih =>
    rw [List.forall_mem_cons] at h
    rw [walkEntry_cons, reparent_of_ne h.1, ih h.2]

/-- A bridge from the bus `x` to itself. -/
def IsLoop (x : ℕ × ℕ) (b : TopoPci) : Prop := b.childBus = x ∧ b.busOf = x

/-- A bridge from the bus `x` to another one. -/
def IsExit (x : ℕ × ℕ) (b : TopoPci) : Prop := b.childBus = x ∧ b.busOf ≠ x

/-- The order of the bridges does not matter for the device `d`. -/
inductive OrderFree (bridges : List TopoPci) (d : TopoPci) : Prop where
  /-- There are only loops on its bus, all of one slot and function. -/
  | loops (hexit : ∀ b ∈ bridges, ¬ IsExit d.busOf b)
      (hloop : ∀ b ∈ bridges, ∀ c ∈ bridges, IsLoop d.busOf b → IsLoop d.busOf c →
        b.slot = c.slot ∧ b.func = c.func)
  /-- All exits are at one place, from which there is no bridge, and a loop before them changes
  nothing that is kept. -/
  | leaves (n : TopoPci) (hn : n ∈ bridges) (hnx : IsExit d.busOf n)
      (hexit : ∀ b ∈ bridges, IsExit d.busOf b →
        b.busOf = n.busOf ∧ b.slot = n.slot ∧ b.func = n.func)
      (hloop : ∀ b ∈ bridges, IsLoop d.busOf b → b.slot % 8 = d.slot % 8 ∧ b.func % 4 = d.func % 4)
      (hend : ∀ b ∈ bridges, b.childBus ≠ n.busOf)

/-! ## The order does not matter -/

/-- A loop of a slot and a function, on the bus of `s`. -/
def loopOnce (slot func : ℕ) (s : TopoPci) : TopoPci :=
  { chassis := s.chassis, hostbridge := s.hostbridge, slot := slot, func := func,
    subdomain := s.chassis, subbus := s.hostbridge, subslot := s.slot % 8, subfunc := s.func % 4 }

theorem reparent_loop {x : ℕ × ℕ} {b s : TopoPci} (hb : IsLoop x b) (hs : s.busOf = x) :
    reparent b s = loopOnce b.slot b.func s := by
  have hc : b.chassis = s.chassis := congrArg Prod.fst (hb.2.trans hs.symm)
  have hh : b.hostbridge = s.hostbridge := congrArg Prod.snd (hb.2.trans hs.symm)
  have hd : b.subdomain = s.chassis := congrArg Prod.fst (hb.1.trans hs.symm)
  have hu : b.subbus = s.hostbridge := congrArg Prod.snd (hb.1.trans hs.symm)
  rw [reparent_of_eq (hb.1.trans hs.symm)]
  simp only [hangBelow, loopOnce, hc, hh, hd, hu]

/-- Only the number of the loops matters. -/
theorem walkEntry_loops {x : ℕ × ℕ} {slot func : ℕ} {bs : List TopoPci} {s : TopoPci}
    (hs : s.busOf = x) (hexit : ∀ b ∈ bs, ¬ IsExit x b)
    (hloop : ∀ b ∈ bs, IsLoop x b → b.slot = slot ∧ b.func = func) :
    walkEntry bs s = (loopOnce slot func)^[bs.countP (·.childBus = x)] s := by
  induction bs generalizing s with
  | nil => rfl
  | cons b bs ih =>
    rw [List.forall_mem_cons] at hexit hloop
    rw [walkEntry_cons]
    by_cases hb : b.childBus = x
    · have hbl : IsLoop x b := ⟨hb, by_contra fun h => hexit.1 ⟨hb, h⟩⟩
      obtain ⟨rfl, rfl⟩ := hloop.1 hbl
      rw [reparent_loop hbl hs, List.countP_cons_of_pos (by simpa using hb), Function.iterate_succ_apply]
      exact ih hs hexit.2 hloop.2
    · rw [reparent_of_ne (hs ▸ hb), List.countP_cons_of_neg (by simpa using hb)]
      exact ih hs hexit.2 hloop.2

theorem walkEntry_leaves {x : ℕ × ℕ} {n : TopoPci} {bs : List TopoPci} {s : TopoPci} {slot func : ℕ}
    (hs : s.busOf = x) (hn : IsExit x n)
    (hexit : ∀ b ∈ bs, IsExit x b → b.busOf = n.busOf ∧ b.slot = n.slot ∧ b.func = n.func)
    (hloop : ∀ b ∈ bs, IsLoop x b → b.slot % 8 = slot % 8 ∧ b.func % 4 = func % 4)
    (hend : ∀ b ∈ bs, b.childBus ≠ n.busOf) (hmem : ∃ b ∈ bs, IsExit x b)
    (hslot : s.slot % 8 = slot % 8) (hfunc : s.func % 4 = func % 4) :
    walkEntry bs s = hangBelow n slot func := by
  induction bs generalizing s with
  | nil =>
    obtain ⟨b, hb, -⟩ := hmem
    cases hb
  | cons b bs ih =>
    rw [List.forall_mem_cons] at hexit hloop hend
    rw [walkEntry_cons]
    by_cases hb : b.childBus = x
    · rw [reparent_of_eq (hb.trans hs.symm)]
      by_cases hbx : b.busOf = x
      · obtain ⟨h8, h4⟩ := hloop.1 ⟨hb, hbx⟩
        refine ih hbx hexit.2 hloop.2 hend.2 ?_ h8 h4
        obtain ⟨c, hc, hcx⟩ := hmem
        rcases List.mem_cons.mp hc with rfl | hc
        · exact absurd hbx hcx.2
        · exact ⟨c, hc, hcx⟩
      · have hsame : hangBelow b s.slot s.func = hangBelow n slot func := by
          obtain ⟨hbus, hbs, hbf⟩ := hexit.1 ⟨hb, hbx⟩
          have hc : b.chassis = n.chassis := congrArg Prod.fst hbus
          have hh : b.hostbridge = n.hostbridge := congrArg Prod.snd hbus
          have hd : b.subdomain = n.subdomain := congrArg Prod.fst (hb.trans hn.1.symm)
          have hu : b.subbus = n.subbus := congrArg Prod.snd (hb.trans hn.1.symm)
          simp only [hangBelow, hc, hh, hd, hu, hbs, hbf, hslot, hfunc]
        rw [hsame]
        exact walkEntry_of_ne hend.2
    · rw [reparent_of_ne (hs ▸ hb)]
      refine ih hs hexit.2 hloop.2 hend.2 ?_ hslot hfunc
      obtain ⟨c, hc, hcx⟩ := hmem
      rcases List.mem_cons.mp hc with rfl | hc
      · exact absurd hcx.1 hb
      · exact ⟨c, hc, hcx⟩

/-- **Every order gives the same entry for such a device.** -/
theorem OrderFree.walkEntry_perm {bridges bridges' : List TopoPci} {d : TopoPci}
    (h : OrderFree bridges d) (hp : bridges'.Perm bridges) :
    walkEntry bridges' d = walkEntry bridges d := by
  cases h with
  | loops hexit hloop =>
    by_cases hex : ∃ c ∈ bridges, IsLoop d.busOf c
    · obtain ⟨c, hc, hcl⟩ := hex
      rw [walkEntry_loops rfl hexit fun b hb hbl => hloop b hb c hc hbl hcl,
        walkEntry_loops rfl (fun b hb => hexit b (hp.mem_iff.mp hb)) fun b hb hbl =>
          hloop b (hp.mem_iff.mp hb) c hc hbl hcl, hp.countP_eq]
    · have hne : ∀ b ∈ bridges, b.childBus ≠ d.busOf := fun b hb hbx =>
        if hbus : b.busOf = d.busOf then hex ⟨b, hb, hbx, hbus⟩ else hexit b hb ⟨hbx, hbus⟩
      rw [walkEntry_of_ne hne, walkEntry_of_ne fun b hb => hne b (hp.mem_iff.mp hb)]
  | leaves n hn hnx hexit hloop hend =>
    rw [walkEntry_leaves rfl hnx hexit hloop hend ⟨n, hn, hnx⟩ rfl rfl]
    exact walkEntry_leaves rfl hnx (fun b hb => hexit b (hp.mem_iff.mp hb))
      (fun b hb => hloop b (hp.mem_iff.mp hb)) (fun b hb => hend b (hp.mem_iff.mp hb))
      ⟨n, hp.mem_iff.mpr hn, hnx⟩ rfl rfl

/-! ## The order matters -/

instance (x : ℕ × ℕ) : DecidablePred (IsExit x) := fun b =>
  inferInstanceAs (Decidable (b.childBus = x ∧ b.busOf ≠ x))

/-- Without exits an entry stays on its bus. -/
theorem walkEntry_busOf {x : ℕ × ℕ} {bs : List TopoPci} {s : TopoPci} (hs : s.busOf = x)
    (hexit : ∀ b ∈ bs, ¬ IsExit x b) : (walkEntry bs s).busOf = x := by
  induction bs generalizing s with
  | nil => exact hs
  | cons b bs ih =>
    rw [List.forall_mem_cons] at hexit
    rw [walkEntry_cons]
    by_cases hb : b.childBus = x
    · rw [reparent_of_eq (hb.trans hs.symm)]
      exact ih (by_contra fun h => hexit.1 ⟨hb, h⟩) hexit.2
    · rw [reparent_of_ne (hs ▸ hb)]
      exact ih hs hexit.2

/-- The last loop gives the slot and the function. -/
theorem walkEntry_last_loop {x : ℕ × ℕ} {bs : List TopoPci} {l s : TopoPci} (hs : s.busOf = x)
    (hexit : ∀ b ∈ bs, ¬ IsExit x b) (hl : IsLoop x l) :
    (walkEntry (bs ++ [l]) s).busOf = x ∧ (walkEntry (bs ++ [l]) s).slot = l.slot ∧
      (walkEntry (bs ++ [l]) s).func = l.func := by
  rw [walkEntry_append, walkEntry_cons,
    reparent_of_eq (hl.1.trans (walkEntry_busOf hs hexit).symm)]
  exact ⟨hl.2, rfl, rfl⟩

theorem walkEntry_exits {x : ℕ × ℕ} {n : TopoPci} {bs : List TopoPci} {s : TopoPci}
    (hs : s.busOf = x) (hn : n ∈ bs) (hexits : ∀ b ∈ bs, IsExit x b)
    (hplace : ∀ b ∈ bs, b.busOf = n.busOf ∧ b.slot = n.slot ∧ b.func = n.func) :
    walkEntry bs s = hangBelow n s.slot s.func := by
  refine walkEntry_leaves hs (hexits n hn) (fun b hb _ => hplace b hb) (fun b hb hl => ?_)
    (fun b hb => ?_) ⟨n, hn, hexits n hn⟩ rfl rfl
  · exact absurd hl.2 (hexits b hb).2
  · rw [(hexits b hb).1]
    exact Ne.symm (hexits n hn).2

theorem walkEntry_childBus {x : ℕ × ℕ} {bs : List TopoPci} {s : TopoPci}
    (hexit : ∀ b ∈ bs, ¬ IsExit x b) (hs : s.childBus ≠ x ∨ s.busOf = x) :
    (walkEntry bs s).childBus ≠ x ∨ (walkEntry bs s).busOf = x := by
  induction bs generalizing s with
  | nil => exact hs
  | cons b bs ih =>
    rw [List.forall_mem_cons] at hexit
    rw [walkEntry_cons]
    by_cases hb : b.childBus = s.busOf
    · rw [reparent_of_eq hb]
      refine ih hexit.2 ?_
      by_cases hx : b.childBus = x
      · exact Or.inr (by_contra fun h => hexit.1 ⟨hx, h⟩)
      · exact Or.inl hx
    · rw [reparent_of_ne hb]
      exact ih hexit.2 hs

/-- The exits of the bus `x`, and the other bridges. -/
def exits (x : ℕ × ℕ) (bridges : List TopoPci) : List TopoPci := bridges.filter (IsExit x ·)

def others (x : ℕ × ℕ) (bridges : List TopoPci) : List TopoPci := bridges.filter (¬ IsExit x ·)

theorem mem_exits {x : ℕ × ℕ} {bridges : List TopoPci} {b : TopoPci} :
    b ∈ exits x bridges ↔ b ∈ bridges ∧ IsExit x b := by
  simp [exits]

theorem mem_others {x : ℕ × ℕ} {bridges : List TopoPci} {b : TopoPci} :
    b ∈ others x bridges ↔ b ∈ bridges ∧ ¬ IsExit x b := by
  simp [others]

theorem exits_perm (x : ℕ × ℕ) (bridges : List TopoPci) :
    (exits x bridges ++ others x bridges).Perm bridges := by
  simpa [exits, others] using List.filter_append_perm (fun b => decide (IsExit x b)) bridges

section
variable {bridges : List TopoPci} {d : TopoPci}
  (hall : ∀ bridges' : List TopoPci, bridges'.Perm bridges → walkEntry bridges' d = walkEntry bridges d)
include hall

theorem loops_of_perm (hexit : ∀ b ∈ bridges, ¬ IsExit d.busOf b) {b c : TopoPci} (hb : b ∈ bridges)
    (hc : c ∈ bridges) (hbl : IsLoop d.busOf b) (hcl : IsLoop d.busOf c) :
    b.slot = c.slot ∧ b.func = c.func := by
  have hlast : ∀ l ∈ bridges, IsLoop d.busOf l →
      (walkEntry bridges d).slot = l.slot ∧ (walkEntry bridges d).func = l.func := by
    intro l hl hll
    have hp : (bridges.erase l ++ [l]).Perm bridges :=
      (List.perm_append_singleton l _).trans (List.perm_cons_erase hl).symm
    rw [← hall _ hp]
    exact (walkEntry_last_loop rfl (fun b hb => hexit b (List.mem_of_mem_erase hb)) hll).2
  obtain ⟨hbs, hbf⟩ := hlast b hb hbl
  obtain ⟨hcs, hcf⟩ := hlast c hc hcl
  exact ⟨hbs.symm.trans hcs, hbf.symm.trans hcf⟩

/-- **An exit leads to the final place.** -/
theorem exit_of_perm {b : TopoPci} (hb : b ∈ bridges) (hbx : IsExit d.busOf b) :
    (walkEntry bridges d).busOf = b.busOf ∧ (walkEntry bridges d).slot = b.slot ∧
      (walkEntry bridges d).func = b.func ∧ (walkEntry bridges d).childBus = d.busOf := by
  have hmem : b ∈ exits d.busOf bridges := mem_exits.mpr ⟨hb, hbx⟩
  have hp : (others d.busOf bridges ++ b :: (exits d.busOf bridges).erase b).Perm bridges :=
    ((List.perm_cons_erase hmem).symm.append_left _).trans
      (List.perm_append_comm.trans (exits_perm _ _))
  have hstay : (walkEntry (others d.busOf bridges) d).busOf = d.busOf :=
    walkEntry_busOf rfl fun c hc => (mem_others.mp hc).2
  rw [← hall _ hp, walkEntry_append, walkEntry_cons, reparent_of_eq (hbx.1.trans hstay.symm)]
  rw [walkEntry_of_ne]
  · exact ⟨rfl, rfl, rfl, hbx.1⟩
  · intro c hc
    rw [(mem_exits.mp (List.mem_of_mem_erase hc)).2.1]
    exact Ne.symm hbx.2

/-- All exits first, then other bridges. -/
theorem walkEntry_exits_of_perm {n : TopoPci} (hn : n ∈ bridges) (hnx : IsExit d.busOf n)
    {s : TopoPci} (hs : s.busOf = d.busOf) :
    walkEntry (exits d.busOf bridges) s = hangBelow n s.slot s.func := by
  obtain ⟨hnb, hns, hnf, -⟩ := exit_of_perm hall hn hnx
  refine walkEntry_exits hs (mem_exits.mpr ⟨hn, hnx⟩) (fun b hb => (mem_exits.mp hb).2) fun b hb => ?_
  obtain ⟨hbb, hbs, hbf, -⟩ := exit_of_perm hall (mem_exits.mp hb).1 (mem_exits.mp hb).2
  exact ⟨hbb.symm.trans hnb, hbs.symm.trans hns, hbf.symm.trans hnf⟩

theorem end_of_perm {n b : TopoPci} (hn : n ∈ bridges) (hnx : IsExit d.busOf n) (hb : b ∈ bridges) :
    b.childBus ≠ n.busOf := by
  intro hbn
  have hbo : b ∈ others d.busOf bridges := mem_others.mpr ⟨hb, fun h => hnx.2 (hbn.symm.trans h.1)⟩
  have hp : (exits d.busOf bridges ++ b :: (others d.busOf bridges).erase b).Perm bridges :=
    ((List.perm_cons_erase hbo).symm.append_left _).trans (exits_perm _ _)
  have hfinal := exit_of_perm hall hn hnx
  -- behind all exits the bridge `b` takes the entry away
  have hno : ∀ c ∈ (others d.busOf bridges).erase b, ¬ IsExit d.busOf c := fun c hc =>
    (mem_others.mp (List.mem_of_mem_erase hc)).2
  have haway := walkEntry_childBus (s := hangBelow b n.slot n.func) hno
    (Or.inl fun h : b.childBus = d.busOf => hnx.2 (hbn.symm.trans h))
  have hwalk : walkEntry bridges d =
      walkEntry ((others d.busOf bridges).erase b) (hangBelow b n.slot n.func) := by
    rw [← hall _ hp, walkEntry_append, walkEntry_exits_of_perm hall hn hnx rfl, walkEntry_cons,
      reparent_of_eq (b := b) (s := hangBelow n d.slot d.func) hbn]
    rfl
  rw [← hwalk] at haway
  rcases haway with h | h
  · exact h hfinal.2.2.2
  · exact hnx.2 (hfinal.1.symm.trans h)

theorem loop_of_perm {n l : TopoPci} (hn : n ∈ bridges) (hnx : IsExit d.busOf n) (hl : l ∈ bridges)
    (hll : IsLoop d.busOf l) : l.slot % 8 = d.slot % 8 ∧ l.func % 4 = d.func % 4 := by
  have hlo : l ∈ others d.busOf bridges := mem_others.mpr ⟨hl, fun h => h.2 hll.2⟩
  have hp : ((others d.busOf bridges).erase l ++ [l] ++ exits d.busOf bridges).Perm bridges :=
    (((List.perm_append_singleton l _).trans (List.perm_cons_erase hlo).symm).append_right _).trans
      (List.perm_append_comm.trans (exits_perm _ _))
  obtain ⟨hbus, hslot, hfunc⟩ := walkEntry_last_loop (s := d) rfl
    (fun c hc => (mem_others.mp (List.mem_of_mem_erase hc)).2) hll
  have hfirst : walkEntry bridges d = hangBelow n l.slot l.func := by
    rw [← hall _ hp, walkEntry_append, walkEntry_exits_of_perm hall hn hnx hbus, hslot, hfunc]
  have hlast : walkEntry bridges d = hangBelow n d.slot d.func := by
    rw [← hall _ (exits_perm d.busOf bridges), walkEntry_append, walkEntry_exits_of_perm hall hn hnx rfl]
    have hend : ∀ c ∈ others d.busOf bridges, c.childBus ≠ n.busOf := fun c hc =>
      end_of_perm hall hn hnx (mem_others.mp hc).1
    exact walkEntry_of_ne hend
  have hsame := hfirst.symm.trans hlast
  exact ⟨congrArg TopoPci.subslot hsame, congrArg TopoPci.subfunc hsame⟩

/-- **A device with one entry for all orders is such.** -/
theorem orderFree_of_perm : OrderFree bridges d := by
  by_cases hex : ∃ n ∈ bridges, IsExit d.busOf n
  · obtain ⟨n, hn, hnx⟩ := hex
    obtain ⟨hnb, hns, hnf, -⟩ := exit_of_perm hall hn hnx
    refine .leaves n hn hnx (fun b hb hbx => ?_) (fun l hl hll => loop_of_perm hall hn hnx hl hll)
      fun b hb => end_of_perm hall hn hnx hb
    obtain ⟨hbb, hbs, hbf, -⟩ := exit_of_perm hall hb hbx
    exact ⟨hbb.symm.trans hnb, hbs.symm.trans hns, hbf.symm.trans hnf⟩
  · have hno : ∀ b ∈ bridges, ¬ IsExit d.busOf b := fun b hb h => hex ⟨b, hb, h⟩
    exact .loops hno fun b hb c hc hbl hcl => loops_of_perm hall hno hb hc hbl hcl

end

/-! ## Both -/

/-- **The walk does not depend on the order of the bridges exactly when no device does.** -/
theorem subpci_perm_iff (bridges devs : List TopoPci) :
    (∀ bridges' : List TopoPci, bridges'.Perm bridges →
        fmdTopoWalkSubpci bridges' devs = fmdTopoWalkSubpci bridges devs) ↔
      ∀ d ∈ devs, OrderFree bridges d := by
  simp only [fmdTopoWalkSubpci_eq, List.map_inj_left]
  constructor
  · intro h d hd
    exact orderFree_of_perm fun bridges' hp => h bridges' hp d hd
  · intro h bridges' hp d hd
    exact (h d hd).walkEntry_perm hp

/-- A root port at 00:1c.0 with the bus 1, and a bridge at 01:00.0 with the bus 2. -/
def nestedBridges : List TopoPci := [⟨0, 0, 0x1c, 0, 0, 1, 0, 0⟩, ⟨0, 1, 0, 0, 0, 2, 0, 0⟩]

/-- The function 02:00.0 gets to the root port only if the inner bridge comes first. -/
theorem subpci_order : ¬ ∀ bridges bridges' devs : List TopoPci, bridges'.Perm bridges →
    fmdTopoWalkSubpci bridges' devs = fmdTopoWalkSubpci bridges devs := by
  intro h
  have hsame := h nestedBridges nestedBridges.reverse [⟨0, 2, 0, 0, 0, 0, 0, 0⟩]
    (List.reverse_perm nestedBridges)
  exact absurd hsame (by decide)

end Fms
