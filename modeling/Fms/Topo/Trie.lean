import Fms.Lib.RoseTree
import Fms.Topo.Tree

/-!
# The topology tree is a trie

A node of the topology tree is labelled with its name and its value, and the boards are left out: what
is below the motherboard of a chassis is below the chassis. Then each entry of the lists adds the
prefixes of one key to the paths of the tree.

* `Level`: the nodes of a level, what is below them, and the invariants there;
* `Inserts`: what the code does below a node adds the prefixes of a key;
* `findOrCreate_inserts`: then `Children.findOrCreate` adds the prefixes of the longer key;
* **`fmdTopoTree_trie`**: the tree has the paths of the keys of the lists and distinct siblings, so that
  the order of the lists only changes the order of siblings.
-/

namespace Fms

open CString RoseTree

/-- The name of a node and its value. -/
abbrev Label : Type := CStr × ℤ

def Tnode.label (tnode : Tnode) : Label := (tnode.tnName, tnode.tnValue)

/-! ## Levels -/

/-- A level of the tree: its nodes, the forest below a node, and what holds there. -/
structure Level (α : Type) where
  tnode : α → Tnode
  kids : α → List (RoseTree Label)
  Good : α → Prop
  distinct : ∀ a, Good a → Distinct (kids a)

variable {α : Type}

/-- The node as a tree. -/
def Level.tree (L : Level α) (a : α) : RoseTree Label := .node (L.tnode a).label (L.kids a)

def Level.value (L : Level α) (a : α) : ℤ := (L.tnode a).tnValue

/-- A list of nodes as a forest. -/
def Level.forest (L : Level α) (l : List α) : List (RoseTree Label) := l.map L.tree

/-- The nodes of a list have one name and distinct values, and are good. -/
structure GoodList (L : Level α) (name : CStr) (l : List α) : Prop where
  good : ∀ a ∈ l, L.Good a
  name : ∀ a ∈ l, (L.tnode a).tnName = name
  nodup : (l.map L.value).Nodup

/-- The pointer tells whether the list is empty. -/
structure GoodChildren (L : Level α) (name : CStr) (c : Children α) : Prop
    extends GoodList L name c.list where
  head : c.head = true ↔ c.list ≠ []

/-- What the code does below a good node adds the prefixes of `key`. -/
structure Inserts (L : Level α) (below : α → α) (key : List Label) : Prop where
  good : ∀ a, L.Good a → L.Good (below a)
  tnode : ∀ a, L.tnode (below a) = L.tnode a
  grown : ∀ a, L.Good a → Grown (L.kids a) (L.kids (below a)) key

/-- What is made for `key`, a missing node with all that the code puts below it. -/
structure Made (L : Level α) (label : Label) (key : List Label) (a : α) : Prop where
  good : L.Good a
  label : (L.tnode a).label = label
  grown : Grown [] (L.kids a) key

variable {L : Level α} {name : CStr}

theorem goodList_nil : GoodList L name [] :=
  ⟨fun _ ha => absurd ha List.not_mem_nil, fun _ ha => absurd ha List.not_mem_nil, List.nodup_nil⟩

theorem GoodList.distinct {l : List α} (h : GoodList L name l) : Distinct (L.forest l) := by
  refine .mk ?_ fun t ht => ?_
  · have hvalues : (((L.forest l).map label).map Prod.snd).Nodup := by
      rw [Level.forest, List.map_map, List.map_map]
      exact h.nodup
    exact hvalues.of_map Prod.snd
  · obtain ⟨a, ha, rfl⟩ := List.mem_map.mp ht
    exact L.distinct a (h.good a ha)

theorem label_of_mem_forest {l : List α} (h : GoodList L name l) {t : RoseTree Label}
    (ht : t ∈ L.forest l) : t.label.1 = name := by
  obtain ⟨a, ha, rfl⟩ := List.mem_map.mp ht
  exact h.name a ha

theorem GoodList.replace {l₁ l₂ : List α} {a b : α} {key : List Label}
    (h : GoodList L name (l₁ ++ a :: l₂)) (hgood : L.Good b) (htnode : L.tnode b = L.tnode a)
    (hgrown : Grown (L.kids a) (L.kids b) key) :
    GoodList L name (l₁ ++ b :: l₂) ∧
      Grown (L.forest (l₁ ++ a :: l₂)) (L.forest (l₁ ++ b :: l₂)) ((L.tnode a).label :: key) := by
  have hmem {x : α} (hx : x ∈ l₁ ++ b :: l₂) : x = b ∨ x ∈ l₁ ++ a :: l₂ :=
    Keyed.mem_of_replace rfl hx
  have ha : a ∈ l₁ ++ a :: l₂ := Keyed.mem_of_split rfl
  refine ⟨⟨fun x hx => ?_, fun x hx => ?_, ?_⟩, ?_⟩
  · rcases hmem hx with rfl | hx
    · exact hgood
    · exact h.good x hx
  · rcases hmem hx with rfl | hx
    · rw [htnode]
      exact h.name a ha
    · exact h.name x hx
  · have hvalue : L.value b = L.value a := congrArg Tnode.tnValue htnode
    rw [Keyed.map_replace hvalue]
    exact h.nodup
  · have hlabel : (L.tree b).label = (L.tree a).label := congrArg Tnode.label htnode
    simp only [Level.forest, List.map_append, List.map_cons]
    exact Grown.replace hlabel hgrown (l₁.map L.tree) (l₂.map L.tree)

theorem GoodList.cons {l : List α} {a : α} {k : ℤ} {key : List Label} (h : GoodList L name l)
    (ha : Made L (name, k) key a) (hnew : ∀ x ∈ l, L.value x ≠ k) :
    GoodList L name (a :: l) ∧ Grown (L.forest l) (L.forest (a :: l)) ((name, k) :: key) := by
  have hname : (L.tnode a).tnName = name := congrArg Prod.fst ha.label
  have hvalue : L.value a = k := congrArg Prod.snd ha.label
  refine ⟨⟨List.forall_mem_cons.mpr ⟨ha.good, h.good⟩, List.forall_mem_cons.mpr ⟨hname, h.name⟩,
    ?_⟩, ?_⟩
  · rw [List.map_cons, List.nodup_cons]
    refine ⟨fun hmem => ?_, h.nodup⟩
    obtain ⟨x, hx, hxv⟩ := List.mem_map.mp hmem
    exact hnew x hx (hxv.trans hvalue)
  · have hgrown : Grown [] (L.tree a).children key := ha.grown
    rw [← ha.label]
    exact hgrown.cons (L.forest l)

/-! ## Searches -/

/-- **A search that makes what is missing** adds the prefixes of the longer key. -/
theorem findOrAdd_inserts {below : α → α} {fresh : α} {k : ℤ} {key : List Label} {l : List α}
    (h : GoodList L name l) (hbelow : Inserts L below key)
    (hfresh : Made L (name, k) key (below fresh)) :
    GoodList L name (findOrAdd L.tnode k fresh below l) ∧
      Grown (L.forest l) (L.forest (findOrAdd L.tnode k fresh below l)) ((name, k) :: key) := by
  unfold findOrAdd
  cases hfind : l.find? fun a => (L.tnode a).tnValue == k with
  | some a =>
    obtain ⟨hvalue, l₁, l₂, rfl, hbefore⟩ := Keyed.find?_split hfind
    have ha : a ∈ l₁ ++ a :: l₂ := Keyed.mem_of_split rfl
    rw [if_pos (List.any_eq_true.mpr ⟨a, ha, hvalue⟩),
      Keyed.modifyFirst_split below l₂ hbefore hvalue]
    have hlabel : (L.tnode a).label = (name, k) := Prod.ext (h.name a ha) (beq_iff_eq.mp hvalue)
    rw [← hlabel]
    exact h.replace (hbelow.good a (h.good a ha)) (hbelow.tnode a) (hbelow.grown a (h.good a ha))
  | none =>
    have hnew : ∀ x ∈ l, L.value x ≠ k := by
      intro x hx
      have hx' := Keyed.find?_none hfind x hx
      exact beq_eq_false_iff_ne.mp hx'
    rw [if_neg]
    · exact h.cons hfresh hnew
    · intro hany
      obtain ⟨x, hx, hxk⟩ := List.any_eq_true.mp hany
      exact hnew x hx (beq_iff_eq.mp hxk)

/-- **A level of the tree** adds the prefixes of the longer key. -/
theorem findOrCreate_inserts {below : α → α} {first next : α} {k : ℤ} {key : List Label}
    {c : Children α} (h : GoodChildren L name c) (hbelow : Inserts L below key)
    (hfirst : Made L (name, k) key (below first)) (hnext : Made L (name, k) key (below next)) :
    GoodChildren L name (c.findOrCreate L.tnode k first next below) ∧
      Grown (L.forest c.list) (L.forest (c.findOrCreate L.tnode k first next below).list)
        ((name, k) :: key) := by
  unfold Children.findOrCreate
  by_cases hhead : c.head = false
  · have hnil : c.list = [] := by
      by_contra hne
      exact Bool.false_ne_true (hhead.symm.trans (h.head.mpr hne))
    rw [if_pos hhead, hnil]
    obtain ⟨hgood, hgrown⟩ := goodList_nil.cons hfirst fun x hx => absurd hx List.not_mem_nil
    exact ⟨⟨hgood, iff_of_true rfl (List.cons_ne_nil _ _)⟩, hgrown⟩
  · rw [if_neg hhead]
    obtain ⟨hgood, hgrown⟩ := findOrAdd_inserts h.toGoodList hbelow hnext
    refine ⟨⟨hgood, iff_of_true (eq_true_of_ne_false hhead) fun hnil => ?_⟩, hgrown⟩
    have hpath := (hgrown [(name, k)]).mpr (.inr ⟨List.cons_ne_nil _ _, List.prefix_append _ key⟩)
    rw [show findOrAdd L.tnode k next below c.list = [] from hnil] at hpath
    exact not_hasPath_nil _ hpath

theorem Inserts.id (L : Level α) : Inserts L id [] :=
  ⟨fun _ h => h, fun _ => rfl, fun a _ => Grown.refl (L.kids a)⟩

theorem Inserts.made {below : α → α} {key : List Label} (h : Inserts L below key) (fresh : α)
    {l : Label} (hgood : L.Good fresh) (hkids : L.kids fresh = [])
    (hlabel : (L.tnode fresh).label = l) : Made L l key (below fresh) := by
  refine ⟨h.good fresh hgood, ?_, ?_⟩
  · rw [h.tnode, hlabel]
  · rw [← hkids]
    exact h.grown fresh hgood

theorem goodChildren_nil : GoodChildren L name {} :=
  ⟨goodList_nil, iff_of_false Bool.false_ne_true fun h => h rfl⟩

/-! ## Levels below levels -/

variable {β γ : Type}

/-- A level with one kind of nodes below it. -/
def Level.above (tnode : α → Tnode) (L : Level β) (name : CStr) (c : α → Children β) : Level α where
  tnode := tnode
  kids a := L.forest (c a).list
  Good a := GoodChildren L name (c a)
  distinct _ h := h.distinct

/-- A level with two kinds of nodes below it. -/
def Level.aboveBoth (tnode : α → Tnode) (L : Level β) (name : CStr) (c : α → Children β)
    (L' : Level γ) (name' : CStr) (c' : α → Children γ) (hne : name ≠ name') : Level α where
  tnode := tnode
  kids a := L.forest (c a).list ++ L'.forest (c' a).list
  Good a := GoodChildren L name (c a) ∧ GoodChildren L' name' (c' a)
  distinct a h := by
    refine h.1.distinct.append h.2.distinct fun t ht u hu heq => hne ?_
    rw [← label_of_mem_forest h.1.toGoodList ht, heq, label_of_mem_forest h.2.toGoodList hu]

section Above

variable {tnode : α → Tnode} {L : Level β} {name : CStr} {c : α → Children β} {f : α → α}
variable {below : β → β} {first next : β} {k : ℤ} {key : List Label}

theorem inserts_above (htnode : ∀ a, tnode (f a) = tnode a)
    (hf : ∀ a, c (f a) = (c a).findOrCreate L.tnode k first next below)
    (hbelow : Inserts L below key) (hfirst : Made L (name, k) key (below first))
    (hnext : Made L (name, k) key (below next)) :
    Inserts (.above tnode L name c) f ((name, k) :: key) := by
  have h (a : α) (ha : GoodChildren L name (c a)) := findOrCreate_inserts ha hbelow hfirst hnext
  refine ⟨fun a ha => ?_, htnode, fun a ha => ?_⟩
  · change GoodChildren L name (c (f a))
    rw [hf]
    exact (h a ha).1
  · change Grown (L.forest (c a).list) (L.forest (c (f a)).list) _
    rw [hf]
    exact (h a ha).2

variable {L' : Level γ} {name' : CStr} {c' : α → Children γ} {hne : name ≠ name'}

theorem inserts_left (htnode : ∀ a, tnode (f a) = tnode a)
    (hf : ∀ a, c (f a) = (c a).findOrCreate L.tnode k first next below) (hc' : ∀ a, c' (f a) = c' a)
    (hbelow : Inserts L below key) (hfirst : Made L (name, k) key (below first))
    (hnext : Made L (name, k) key (below next)) :
    Inserts (.aboveBoth tnode L name c L' name' c' hne) f ((name, k) :: key) := by
  have h (a : α) (ha : GoodChildren L name (c a)) := findOrCreate_inserts ha hbelow hfirst hnext
  refine ⟨fun a ha => ?_, htnode, fun a ha => ?_⟩
  · change GoodChildren L name (c (f a)) ∧ GoodChildren L' name' (c' (f a))
    rw [hf, hc']
    exact ⟨(h a ha.1).1, ha.2⟩
  · change Grown (L.forest (c a).list ++ L'.forest (c' a).list)
      (L.forest (c (f a)).list ++ L'.forest (c' (f a)).list) _
    rw [hf, hc']
    exact (h a ha.1).2.append_right _

variable {below' : γ → γ} {first' next' : γ}

theorem inserts_right (htnode : ∀ a, tnode (f a) = tnode a) (hc : ∀ a, c (f a) = c a)
    (hf : ∀ a, c' (f a) = (c' a).findOrCreate L'.tnode k first' next' below')
    (hbelow : Inserts L' below' key) (hfirst : Made L' (name', k) key (below' first'))
    (hnext : Made L' (name', k) key (below' next')) :
    Inserts (.aboveBoth tnode L name c L' name' c' hne) f ((name', k) :: key) := by
  have h (a : α) (ha : GoodChildren L' name' (c' a)) := findOrCreate_inserts ha hbelow hfirst hnext
  refine ⟨fun a ha => ?_, htnode, fun a ha => ?_⟩
  · change GoodChildren L name (c (f a)) ∧ GoodChildren L' name' (c' (f a))
    rw [hf, hc]
    exact ⟨ha.1, (h a ha.2).1⟩
  · change Grown (L.forest (c a).list ++ L'.forest (c' a).list)
      (L.forest (c (f a)).list ++ L'.forest (c' (f a)).list) _
    rw [hf, hc]
    exact (h a ha.2).2.append_left _

end Above

/-! ## The levels of the tree -/

def threadLevel : Level Thread := ⟨Thread.tnode, fun _ => [], fun _ => True, fun _ _ => distinct_nil⟩

def coreLevel : Level Core := .above Core.tnode threadLevel "thread".toList Core.ht

def dimmLevel : Level Dimm := ⟨Dimm.tnode, fun _ => [], fun _ => True, fun _ _ => distinct_nil⟩

def mctlLevel : Level Memcontroller :=
  .above Memcontroller.tnode dimmLevel "dimm".toList Memcontroller.dimm

def chipLevel : Level Chip :=
  .aboveBoth Chip.tnode coreLevel "core".toList Chip.core mctlLevel "memory-controller".toList
    Chip.mctl (by decide)

/-- No bus is below a secondary bus. -/
def emptyLevel : Level Empty where
  tnode := Empty.elim
  kids _ := []
  Good _ := True
  distinct _ _ := distinct_nil

def funcLevel (L : Level β) : Level (Func β) := .above Func.tnode L "hostbridge".toList Func.hb

def slotLevel (L : Level β) : Level (Slot β) := .above Slot.tnode (funcLevel L) "func".toList Slot.func

def hostbridgeLevel (L : Level β) : Level (Hostbridge β) :=
  .above Hostbridge.tnode (slotLevel L) "slot".toList Hostbridge.slot

def subHostbridgeLevel : Level SubHostbridge := hostbridgeLevel emptyLevel

def motherboardLevel : Level Motherboard :=
  .aboveBoth Motherboard.tnode chipLevel "chip".toList Motherboard.chip
    (hostbridgeLevel subHostbridgeLevel) "hostbridge".toList Motherboard.hb (by decide)

/-- The boards are left out of the tree. -/
def chassisLevel : Level Chassis where
  tnode := Chassis.tnode
  kids ccp := ccp.mb.elim [] motherboardLevel.kids
  Good ccp := ∃ mb, ccp.mb = some mb ∧ motherboardLevel.Good mb
  distinct ccp h := by
    obtain ⟨mb, hmb, hgood⟩ := h
    rw [hmb]
    exact motherboardLevel.distinct mb hgood

/-! ## Processors -/

/-- chassis/socket/core/processor -/
def cpuKey (pcpu : TopoCpu) : List Label :=
  [("chassis".toList, pcpu.chassis), ("chip".toList, pcpu.socket), ("core".toList, pcpu.core),
    ("thread".toList, pcpu.processor)]

theorem cpuThread_inserts (pcpu : TopoCpu) :
    Inserts coreLevel (cpuThread pcpu) [("thread".toList, pcpu.processor)] :=
  inserts_above (fun _ => rfl) (fun _ => rfl) (.id threadLevel)
    ((Inserts.id threadLevel).made _ trivial rfl rfl) ((Inserts.id threadLevel).made _ trivial rfl rfl)

theorem cpuCore_inserts (pcpu : TopoCpu) : Inserts chipLevel (cpuCore pcpu)
    [("core".toList, pcpu.core), ("thread".toList, pcpu.processor)] :=
  have hfresh := (cpuThread_inserts pcpu).made { topoCoreAlloc with tnode.tnValue := pcpu.core }
    goodChildren_nil rfl rfl
  inserts_left (fun _ => rfl) (fun _ => rfl) (fun _ => rfl) (cpuThread_inserts pcpu) hfresh hfresh

theorem cpuChip_inserts (pcpu : TopoCpu) : Inserts motherboardLevel (cpuChip pcpu)
    [("chip".toList, pcpu.socket), ("core".toList, pcpu.core), ("thread".toList, pcpu.processor)] :=
  have hfresh := (cpuCore_inserts pcpu).made { topoChipAlloc with tnode.tnValue := pcpu.socket }
    ⟨goodChildren_nil, goodChildren_nil⟩ rfl rfl
  inserts_left (fun _ => rfl) (fun _ => rfl) (fun _ => rfl) (cpuCore_inserts pcpu) hfresh hfresh

theorem cpuChip_made (pcpu : TopoCpu) :
    Made motherboardLevel ("motherboard".toList, pcpu.board)
      [("chip".toList, pcpu.socket), ("core".toList, pcpu.core), ("thread".toList, pcpu.processor)]
      (cpuChip pcpu { topoMotherboardAlloc with tnode.tnValue := pcpu.board }) :=
  (cpuChip_inserts pcpu).made _ ⟨goodChildren_nil, goodChildren_nil⟩ rfl rfl

theorem cpuBoard_inserts (pcpu : TopoCpu) : Inserts chassisLevel (cpuBoard pcpu)
    [("chip".toList, pcpu.socket), ("core".toList, pcpu.core), ("thread".toList, pcpu.processor)] := by
  refine ⟨fun ccp hccp => ?_, fun ccp => ?_, fun ccp hccp => ?_⟩
  · obtain ⟨mb, hmb, hgood⟩ := hccp
    rw [cpuBoard, hmb]
    exact ⟨_, rfl, (cpuChip_inserts pcpu).good mb hgood⟩
  · change (cpuBoard pcpu ccp).tnode = ccp.tnode
    unfold cpuBoard
    cases ccp.mb <;> rfl
  · obtain ⟨mb, hmb, hgood⟩ := hccp
    have hkids : chassisLevel.kids ccp = motherboardLevel.kids mb := by
      change ccp.mb.elim _ _ = _
      rw [hmb]
      rfl
    rw [cpuBoard, hmb, hkids]
    exact (cpuChip_inserts pcpu).grown mb hgood

theorem cpuBoard_made (pcpu : TopoCpu) :
    Made chassisLevel ("chassis".toList, pcpu.chassis)
      [("chip".toList, pcpu.socket), ("core".toList, pcpu.core), ("thread".toList, pcpu.processor)]
      (cpuBoard pcpu { topoChassisAlloc with tnode.tnValue := pcpu.chassis }) :=
  ⟨⟨_, rfl, (cpuChip_made pcpu).good⟩, rfl, (cpuChip_made pcpu).grown⟩

/-- The tree is good at every level. -/
abbrev GoodRoot (root : List Chassis) : Prop := GoodList chassisLevel "chassis".toList root

/-- **A processor adds its key.** -/
theorem cpuEntry_inserts {root : List Chassis} (h : GoodRoot root) (pcpu : TopoCpu) :
    GoodRoot (cpuEntry root pcpu) ∧
      Grown (chassisLevel.forest root) (chassisLevel.forest (cpuEntry root pcpu)) (cpuKey pcpu) := by
  unfold cpuEntry
  by_cases hempty : root.isEmpty = true
  · rw [if_pos hempty, List.isEmpty_iff.mp hempty]
    exact goodList_nil.cons (cpuBoard_made pcpu) fun x hx => absurd hx List.not_mem_nil
  · rw [if_neg hempty]
    exact findOrAdd_inserts h (cpuBoard_inserts pcpu) (cpuBoard_made pcpu)

/-! ## Searches for what is there -/

theorem findThen_split {tnode : α → Tnode} {k : ℤ} {below : α → Option α} {l₁ : List α} {a b : α}
    (l₂ : List α) (hbefore : ∀ x ∈ l₁, (tnode x).tnValue ≠ k) (ha : (tnode a).tnValue = k)
    (hb : below a = some b) : findThen tnode k below (l₁ ++ a :: l₂) = some (l₁ ++ b :: l₂) := by
  induction l₁ with
  | nil =>
    rw [List.nil_append, findThen, if_pos ha, hb]
    rfl
  | cons x l₁ ih =>
    rw [List.cons_append, findThen, if_neg (hbefore x List.mem_cons_self),
      ih fun y hy => hbefore y (List.mem_cons_of_mem _ hy)]
    rfl

/-- What the code may do below a node that is there. -/
structure Inserted (L : Level α) (key : List Label) (a b : α) : Prop where
  good : L.Good b
  tnode : L.tnode b = L.tnode a
  grown : Grown (L.kids a) (L.kids b) key

/-- **A search for a node that is there** adds the prefixes of the longer key. -/
theorem findThen_inserts {below : α → Option α} {k : ℤ} {key : List Label} {l : List α}
    (h : GoodList L name l) (hk : ∃ a ∈ l, L.value a = k)
    (hbelow : ∀ a ∈ l, L.value a = k → ∃ b, below a = some b ∧ Inserted L key a b) :
    ∃ l', findThen L.tnode k below l = some l' ∧ GoodList L name l' ∧
      Grown (L.forest l) (L.forest l') ((name, k) :: key) := by
  obtain ⟨x, hx, hxk⟩ := hk
  obtain ⟨a, hfind⟩ : ∃ a, l.find? (fun a => L.value a == k) = some a :=
    Option.isSome_iff_exists.mp (List.find?_isSome.mpr ⟨x, hx, beq_iff_eq.mpr hxk⟩)
  obtain ⟨hvalue, l₁, l₂, rfl, hbefore⟩ := Keyed.find?_split hfind
  have ha : a ∈ l₁ ++ a :: l₂ := Keyed.mem_of_split rfl
  have hak : L.value a = k := beq_iff_eq.mp hvalue
  obtain ⟨b, hb, hinserted⟩ := hbelow a ha hak
  have hlabel : (L.tnode a).label = (name, k) := Prod.ext (h.name a ha) hak
  refine ⟨_, findThen_split l₂ (fun y hy => beq_eq_false_iff_ne.mp (hbefore y hy)) hak hb, ?_⟩
  rw [← hlabel]
  exact h.replace hinserted.good hinserted.tnode hinserted.grown

theorem exists_of_hasPath {l : List α} {lab : Label} {p : List Label}
    (h : HasPath (L.forest l) (lab :: p)) :
    ∃ a ∈ l, (L.tnode a).label = lab ∧ (p = [] ∨ HasPath (L.kids a) p) := by
  obtain ⟨t, ht, hlabel, hp⟩ := h
  obtain ⟨a, ha, rfl⟩ := List.mem_map.mp ht
  exact ⟨a, ha, hlabel, hp⟩

/-! ## PCI devices -/

/-- subbus/subslot/subfunc, if there is a secondary bus -/
def pciSubkey (ppci : TopoPci) : List Label :=
  if ppci.subbus = 0 ∧ ppci.subdomain = 0 then []
  else
    [("hostbridge".toList, ppci.subbus), ("slot".toList, ppci.subslot),
      ("func".toList, ppci.subfunc)]

/-- chassis/hostbridge/slot/func, and what is below -/
def pciKey (ppci : TopoPci) : List Label :=
  ("chassis".toList, (ppci.chassis : ℤ)) :: ("hostbridge".toList, (ppci.hostbridge : ℤ)) ::
    ("slot".toList, (ppci.slot : ℤ)) :: ("func".toList, (ppci.func : ℤ)) :: pciSubkey ppci

theorem pciSubfunc_inserts (ppci : TopoPci) :
    Inserts (slotLevel emptyLevel) (pciSubfunc ppci) [("func".toList, ppci.subfunc)] :=
  have hfresh := (Inserts.id (funcLevel emptyLevel)).made
    { topoFuncAlloc Empty with tnode.tnValue := ppci.subfunc } goodChildren_nil rfl rfl
  inserts_above (fun _ => rfl) (fun _ => rfl) (.id (funcLevel emptyLevel)) hfresh hfresh

theorem pciSubslot_inserts (ppci : TopoPci) : Inserts subHostbridgeLevel (pciSubslot ppci)
    [("slot".toList, ppci.subslot), ("func".toList, ppci.subfunc)] :=
  have hfresh := (pciSubfunc_inserts ppci).made
    { topoSlotAlloc Empty with tnode.tnValue := ppci.subslot } goodChildren_nil rfl rfl
  inserts_above (fun _ => rfl) (fun _ => rfl) (pciSubfunc_inserts ppci) hfresh hfresh

theorem pciSubdomain_inserts (ppci : TopoPci) :
    Inserts (funcLevel subHostbridgeLevel) (pciSubdomain ppci) (pciSubkey ppci) := by
  by_cases hsub : ppci.subbus = 0 ∧ ppci.subdomain = 0
  · have hid : pciSubdomain ppci = id := funext fun _ => if_pos hsub
    rw [hid, pciSubkey, if_pos hsub]
    exact .id _
  · have hfresh := (pciSubslot_inserts ppci).made
      { topoHostbridgeAlloc Empty with tnode.tnValue := ppci.subbus } goodChildren_nil rfl rfl
    have heq (fcp : Func SubHostbridge) : pciSubdomain ppci fcp = _ := if_neg hsub
    rw [pciSubkey, if_neg hsub]
    refine inserts_above (fun a => ?_) (fun a => ?_) (pciSubslot_inserts ppci) hfresh hfresh
    · rw [heq]
    · rw [heq]
      rfl

theorem pciFunc_inserts (ppci : TopoPci) : Inserts (slotLevel subHostbridgeLevel) (pciFunc ppci)
    (("func".toList, (ppci.func : ℤ)) :: pciSubkey ppci) :=
  have hfresh := (pciSubdomain_inserts ppci).made
    { topoFuncAlloc SubHostbridge with tnode.tnValue := ppci.func } goodChildren_nil rfl rfl
  inserts_above (fun _ => rfl) (fun _ => rfl) (pciSubdomain_inserts ppci) hfresh hfresh

theorem pciSlot_inserts (ppci : TopoPci) : Inserts (hostbridgeLevel subHostbridgeLevel) (pciSlot ppci)
    (("slot".toList, (ppci.slot : ℤ)) :: ("func".toList, (ppci.func : ℤ)) :: pciSubkey ppci) :=
  have hfresh := (pciFunc_inserts ppci).made
    { topoSlotAlloc SubHostbridge with tnode.tnValue := ppci.slot } goodChildren_nil rfl rfl
  inserts_above (fun _ => rfl) (fun _ => rfl) (pciFunc_inserts ppci) hfresh hfresh

theorem pciHostbridge_inserts (ppci : TopoPci) : Inserts motherboardLevel (pciHostbridge ppci)
    (("hostbridge".toList, (ppci.hostbridge : ℤ)) :: ("slot".toList, (ppci.slot : ℤ)) ::
      ("func".toList, (ppci.func : ℤ)) :: pciSubkey ppci) :=
  have hfresh := (pciSlot_inserts ppci).made
    { topoHostbridgeAlloc SubHostbridge with tnode.tnValue := ppci.hostbridge } goodChildren_nil rfl rfl
  inserts_right (fun _ => rfl) (fun _ => rfl) (fun _ => rfl) (pciSlot_inserts ppci) hfresh hfresh

theorem inserted_chassis {ccp : Chassis} {mb mb' : Motherboard} {key : List Label}
    (hmb : ccp.mb = some mb) (h : Inserted motherboardLevel key mb mb') :
    Inserted chassisLevel key ccp { ccp with mb := some mb' } := by
  refine ⟨⟨mb', rfl, h.good⟩, rfl, ?_⟩
  change Grown (ccp.mb.elim [] motherboardLevel.kids) (motherboardLevel.kids mb') key
  rw [hmb]
  exact h.grown

/-- **A PCI device adds its key**, if its chassis is there. -/
theorem pciEntry_inserts {root : List Chassis} (h : GoodRoot root) {ppci : TopoPci}
    (hpath : HasPath (chassisLevel.forest root) [("chassis".toList, (ppci.chassis : ℤ))]) :
    ∃ root', pciEntry root ppci = some root' ∧ GoodRoot root' ∧
      Grown (chassisLevel.forest root) (chassisLevel.forest root') (pciKey ppci) := by
  obtain ⟨a, ha, hlabel, -⟩ := exists_of_hasPath hpath
  refine findThen_inserts h ⟨a, ha, congrArg Prod.snd hlabel⟩ fun csp hcsp _ => ?_
  obtain ⟨mb, hmb, hgood⟩ := h.good csp hcsp
  have hinserts := pciHostbridge_inserts ppci
  refine ⟨{ csp with mb := some (pciHostbridge ppci mb) }, ?_, inserted_chassis hmb ?_⟩
  · rw [pciChassis, hmb]
    rfl
  · exact ⟨hinserts.good mb hgood, hinserts.tnode mb, hinserts.grown mb hgood⟩

/-! ## Memory -/

/-- chassis/socket/controller/dimm -/
def memKey (pmem : TopoMem) : List Label :=
  [("chassis".toList, pmem.chassis), ("chip".toList, pmem.socket),
    ("memory-controller".toList, pmem.controller), ("dimm".toList, pmem.dimm)]

theorem memDimm_inserts (pmem : TopoMem) :
    Inserts mctlLevel (memDimm pmem) [("dimm".toList, pmem.dimm)] :=
  have hfresh := (Inserts.id dimmLevel).made
    { topoDimmAlloc with tnode.tnValue := pmem.dimm, size := pmem.end - pmem.start } trivial rfl rfl
  inserts_above (fun _ => rfl) (fun _ => rfl) (.id dimmLevel) hfresh hfresh

theorem memController_inserts (pmem : TopoMem) : Inserts chipLevel (memController pmem)
    [("memory-controller".toList, pmem.controller), ("dimm".toList, pmem.dimm)] :=
  have hfresh := (memDimm_inserts pmem).made
    { topoMctlAlloc with tnode.tnValue := pmem.controller } goodChildren_nil rfl rfl
  inserts_right (fun _ => rfl) (fun _ => rfl) (fun _ => rfl) (memDimm_inserts pmem) hfresh hfresh

theorem memChip_inserts {mb : Motherboard} (h : motherboardLevel.Good mb) {pmem : TopoMem}
    (hpath : HasPath (motherboardLevel.kids mb) [("chip".toList, (pmem.socket : ℤ))]) :
    ∃ mb', memChip pmem mb = some mb' ∧ Inserted motherboardLevel
      [("chip".toList, pmem.socket), ("memory-controller".toList, pmem.controller),
        ("dimm".toList, pmem.dimm)] mb mb' := by
  obtain ⟨hchips, hbridges⟩ := h
  have hchip : HasPath (chipLevel.forest mb.chip.list) [("chip".toList, (pmem.socket : ℤ))] := by
    refine ((hasPath_append _ _ _).mp hpath).resolve_right ?_
    rintro ⟨t, ht, hlabel, -⟩
    have hname : "chip".toList = "hostbridge".toList :=
      (congrArg Prod.fst hlabel).symm.trans (label_of_mem_forest hbridges.toGoodList ht)
    exact absurd hname (by decide)
  obtain ⟨a, ha, hlabel, -⟩ := exists_of_hasPath hchip
  have hinserts := memController_inserts pmem
  have hbelow (mchp : Chip) (hmem : mchp ∈ mb.chip.list) (_ : chipLevel.value mchp = pmem.socket) :
      ∃ b, some (memController pmem mchp) = some b ∧ Inserted chipLevel
        [("memory-controller".toList, pmem.controller), ("dimm".toList, pmem.dimm)] mchp b :=
    have hgood := hchips.good mchp hmem
    ⟨_, rfl, hinserts.good mchp hgood, hinserts.tnode mchp, hinserts.grown mchp hgood⟩
  obtain ⟨l, hl, hgood, hgrown⟩ :=
    findThen_inserts hchips.toGoodList ⟨a, ha, congrArg Prod.snd hlabel⟩ hbelow
  have hhead : mb.chip.head = true := hchips.head.mpr (List.ne_nil_of_mem ha)
  have hne : l ≠ [] := by
    rintro rfl
    exact not_hasPath_nil _ ((hgrown _).mpr (.inl hchip))
  refine ⟨{ mb with chip := { mb.chip with list := l } }, ?_, ?_⟩
  · rw [memChip, if_neg (by simp [hhead])]
    exact congrArg _ hl
  · exact ⟨⟨⟨hgood, iff_of_true hhead hne⟩, hbridges⟩, rfl, hgrown.append_right _⟩

/-- **A memory range adds its key**, if its chassis and its socket are there. -/
theorem memEntry_inserts {root : List Chassis} (h : GoodRoot root) {pmem : TopoMem}
    (hpath : HasPath (chassisLevel.forest root)
      [("chassis".toList, (pmem.chassis : ℤ)), ("chip".toList, (pmem.socket : ℤ))]) :
    ∃ root', memEntry root pmem = some root' ∧ GoodRoot root' ∧
      Grown (chassisLevel.forest root) (chassisLevel.forest root') (memKey pmem) := by
  obtain ⟨a, ha, hlabel, hbelow⟩ := exists_of_hasPath hpath
  have hvalue : chassisLevel.value a = pmem.chassis := congrArg Prod.snd hlabel
  refine findThen_inserts h ⟨a, ha, hvalue⟩ fun csp hcsp hcspv => ?_
  -- the chassis found is the one of the path
  obtain rfl : csp = a := Keyed.eq_of_key h.nodup hcsp ha (hcspv.trans hvalue.symm)
  obtain ⟨mb, hmb, hgood⟩ := h.good csp hcsp
  have hkids : HasPath (motherboardLevel.kids mb) [("chip".toList, (pmem.socket : ℤ))] := by
    have hp : HasPath (csp.mb.elim [] motherboardLevel.kids) _ :=
      hbelow.resolve_left (List.cons_ne_nil _ _)
    rwa [hmb] at hp
  obtain ⟨mb', hmem, hinserted⟩ := memChip_inserts hgood hkids
  refine ⟨{ csp with mb := some mb' }, ?_, inserted_chassis hmb hinserted⟩
  rw [memChassis, hmb]
  exact congrArg (fun o => o >>= fun mb => some { csp with mb := some mb }) hmem

/-! ## The loops -/

variable {ε : Type}

/-- The tree as a forest, the boards left out. -/
def topoForest (root : List Chassis) : List (RoseTree Label) := chassisLevel.forest root

/-- **A loop adds the keys of its list**, if an entry adds its key wherever the paths that it needs are
there. -/
theorem foldlM_inserts (step : List Chassis → ε → Option (List Chassis)) (key : ε → List Label)
    (needs : ε → List (List Label))
    (hstep : ∀ root e, GoodRoot root → (∀ q ∈ needs e, HasPath (topoForest root) q) →
      ∃ root', step root e = some root' ∧ GoodRoot root' ∧
        Grown (topoForest root) (topoForest root') (key e))
    {l : List ε} {root : List Chassis} (h : GoodRoot root)
    (hneeds : ∀ e ∈ l, ∀ q ∈ needs e, HasPath (topoForest root) q) :
    ∃ root', l.foldlM step root = some root' ∧ GoodRoot root' ∧ ∀ p, HasPath (topoForest root') p ↔
      HasPath (topoForest root) p ∨ ∃ k ∈ l.map key, p ≠ [] ∧ p <+: k := by
  induction l generalizing root with
  | nil => exact ⟨root, rfl, h, fun p => by simp⟩
  | cons e l ih =>
    obtain ⟨root₁, h₁, hgood₁, hgrown⟩ := hstep root e h (hneeds e List.mem_cons_self)
    -- what the later entries need is still there
    have hneeds₁ : ∀ e' ∈ l, ∀ q ∈ needs e', HasPath (topoForest root₁) q := fun e' he' q hq =>
      (hgrown q).mpr (.inl (hneeds e' (List.mem_cons_of_mem _ he') q hq))
    obtain ⟨root₂, h₂, hgood₂, hpaths⟩ := ih hgood₁ hneeds₁
    refine ⟨root₂, ?_, hgood₂, fun p => ?_⟩
    · rw [List.foldlM_cons, h₁]
      exact h₂
    · rw [hpaths, hgrown p, List.map_cons, List.exists_mem_cons_iff, or_assoc]

/-- The keys of the lists. -/
def topoKeys (listCpu : List TopoCpu) (listPci : List TopoPci) (listMem : List TopoMem) :
    List (List Label) :=
  listCpu.map cpuKey ++ listPci.map pciKey ++ listMem.map memKey

/-- The chassis of a PCI device, and the chassis and the socket of a memory range, are those of
processors. -/
structure Placed (listCpu : List TopoCpu) (listPci : List TopoPci) (listMem : List TopoMem) : Prop
    where
  pci : ∀ ppci ∈ listPci, ∃ pcpu ∈ listCpu, pcpu.chassis = ppci.chassis
  mem : ∀ pmem ∈ listMem, ∃ pcpu ∈ listCpu,
    pcpu.chassis = pmem.chassis ∧ pcpu.socket = pmem.socket

/-- The tree of placed lists. -/
theorem fmdTopoTree_spec {listCpu : List TopoCpu} {listPci : List TopoPci} {listMem : List TopoMem}
    (h : Placed listCpu listPci listMem) :
    ∃ root, fmdTopoTree listCpu listPci listMem = some root ∧ GoodRoot root ∧
      ∀ p, HasPath (topoForest root) p ↔
        ∃ key ∈ topoKeys listCpu listPci listMem, p ≠ [] ∧ p <+: key := by
  obtain ⟨root₁, h₁, hgood₁, hpaths₁⟩ :=
    foldlM_inserts (fun root pcpu => some (cpuEntry root pcpu)) cpuKey (fun _ => [])
      (fun root pcpu hroot _ => ⟨_, rfl, cpuEntry_inserts hroot pcpu⟩) goodList_nil
      (fun _ _ q hq => absurd hq List.not_mem_nil)
  have hcpu (pcpu : TopoCpu) (hpcpu : pcpu ∈ listCpu) {q : List Label} (hne : q ≠ [])
      (hq : q <+: cpuKey pcpu) : HasPath (topoForest root₁) q :=
    (hpaths₁ q).mpr (.inr ⟨_, List.mem_map_of_mem hpcpu, hne, hq⟩)
  have hpci : ∀ ppci ∈ listPci, ∀ q ∈ [[("chassis".toList, (ppci.chassis : ℤ))]],
      HasPath (topoForest root₁) q := by
    intro ppci hppci q hq
    obtain ⟨pcpu, hpcpu, heq⟩ := h.pci ppci hppci
    rw [List.mem_singleton.mp hq, ← heq]
    exact hcpu pcpu hpcpu (List.cons_ne_nil _ _) (List.prefix_append _ _)
  obtain ⟨root₂, h₂, hgood₂, hpaths₂⟩ := foldlM_inserts pciEntry pciKey _
    (fun root ppci hroot hq => pciEntry_inserts hroot (hq _ (List.mem_singleton_self _))) hgood₁ hpci
  have hmem : ∀ pmem ∈ listMem,
      ∀ q ∈ [[("chassis".toList, (pmem.chassis : ℤ)), ("chip".toList, (pmem.socket : ℤ))]],
        HasPath (topoForest root₂) q := by
    intro pmem hpmem q hq
    obtain ⟨pcpu, hpcpu, hchassis, hsocket⟩ := h.mem pmem hpmem
    rw [List.mem_singleton.mp hq, ← hchassis, ← hsocket]
    exact (hpaths₂ _).mpr (.inl (hcpu pcpu hpcpu (List.cons_ne_nil _ _) (List.prefix_append _ _)))
  obtain ⟨root₃, h₃, hgood₃, hpaths₃⟩ := foldlM_inserts memEntry memKey _
    (fun root pmem hroot hq => memEntry_inserts hroot (hq _ (List.mem_singleton_self _))) hgood₂ hmem
  refine ⟨root₃, ?_, hgood₃, fun p => ?_⟩
  · have hcpus : listCpu.foldl cpuEntry [] = root₁ := Option.some.inj (List.foldlM_pure.symm.trans h₁)
    rw [fmdTopoTree, hcpus, h₂]
    exact h₃
  · have hnone : ¬ HasPath (topoForest []) p := not_hasPath_nil p
    rw [hpaths₃, hpaths₂, hpaths₁, or_iff_right hnone, topoKeys]
    simp only [List.mem_append, or_and_right, exists_or]

/-- **The topology tree is the trie of its lists.** -/
theorem fmdTopoTree_trie {listCpu : List TopoCpu} {listPci : List TopoPci} {listMem : List TopoMem}
    (h : Placed listCpu listPci listMem) :
    ∃ root, fmdTopoTree listCpu listPci listMem = some root ∧
      (∀ p, HasPath (topoForest root) p ↔
        ∃ key ∈ topoKeys listCpu listPci listMem, p ≠ [] ∧ p <+: key) ∧
      Distinct (topoForest root) ∧
      ∀ listCpu' listPci' listMem', listCpu.Perm listCpu' → listPci.Perm listPci' →
        listMem.Perm listMem' → ∃ root', fmdTopoTree listCpu' listPci' listMem' = some root' ∧
          Reordered (topoForest root) (topoForest root') := by
  obtain ⟨root, hroot, hgood, hpaths⟩ := fmdTopoTree_spec h
  refine ⟨root, hroot, hpaths, hgood.distinct, fun listCpu' listPci' listMem' hcpu hpci hmem => ?_⟩
  have h' : Placed listCpu' listPci' listMem' := by
    refine ⟨fun ppci hppci => ?_, fun pmem hpmem => ?_⟩
    · obtain ⟨pcpu, hpcpu, heq⟩ := h.pci ppci (hpci.mem_iff.mpr hppci)
      exact ⟨pcpu, hcpu.mem_iff.mp hpcpu, heq⟩
    · obtain ⟨pcpu, hpcpu, heq⟩ := h.mem pmem (hmem.mem_iff.mpr hpmem)
      exact ⟨pcpu, hcpu.mem_iff.mp hpcpu, heq⟩
  obtain ⟨root', hroot', hgood', hpaths'⟩ := fmdTopoTree_spec h'
  have hkeys : (topoKeys listCpu listPci listMem).Perm (topoKeys listCpu' listPci' listMem') :=
    ((hcpu.map cpuKey).append (hpci.map pciKey)).append (hmem.map memKey)
  refine ⟨root', hroot', reordered_of_hasPath_iff hgood.distinct hgood'.distinct fun p => ?_⟩
  rw [hpaths, hpaths']
  exact exists_congr fun key => and_congr_left fun _ => hkeys.mem_iff

/-- Two processors of one socket, a device behind a secondary bus and a memory range. -/
theorem fmdTopoTree_trie_four :
    ∃ root, fmdTopoTree [⟨0, 0, 0, 1, 0⟩, ⟨1, 0, 0, 1, 0⟩] [⟨0, 3, 2, 0, 0, 4, 1, 0⟩]
        [⟨0, 1024, 0, 1, 0, 2⟩] = some root ∧
      HasPath (topoForest root) [("chassis".toList, 0), ("chip".toList, 1)] ∧
      Distinct (topoForest root) := by
  have h : Placed [⟨0, 0, 0, 1, 0⟩, ⟨1, 0, 0, 1, 0⟩] [⟨0, 3, 2, 0, 0, 4, 1, 0⟩]
      [⟨0, 1024, 0, 1, 0, 2⟩] := by
    refine ⟨?_, ?_⟩ <;> simp
  obtain ⟨root, hroot, hpaths, hdistinct, -⟩ := fmdTopoTree_trie h
  refine ⟨root, hroot, (hpaths _).mpr ⟨_, List.mem_cons_self, by simp, ?_⟩, hdistinct⟩
  exact List.prefix_append _ [("core".toList, 0), ("thread".toList, 0)]

end Fms
