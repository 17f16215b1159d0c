import Fms.Dict.Session

/-!
# The keys of a database

* `tchdbIterinit`, `tchdbIternext`: the iterator; `tchdbKeys`: the loop over it that its callers have;
* `Scan h x ks`: from the offset `x` to the end of the file there is one record or free block after the
  other, and the records have the keys `ks`;
* **`tchdbIternext_scan`**: the iterator goes on to the next key, over any number of free blocks;
* **`Wf.exists_scan`**: the file of a database is one such scan;
* **`tchdbKeys_spec`**: every key of the map is listed, and none twice; **`dbHistory_keys`**: after any
  number of sessions;
* `LaidOut`: the file as records and free blocks; **`dbRun_laidOut`**, **`dbRun_reopen`**: in every run on
  one open database, and when it has been closed and opened again.
-/

namespace Fms

open Bytes Blocks SearchTree

def tchdbIterinit (h : Tchdb) : Tchdb := { h with iter := h.frec }

/-- The loop of `tchdbiternext`; without a key at the end of the file. -/
def iternextLoop : ℕ → Tchdb → Except HdbFault (Tchdb × Option Key)
  | 0, _ => .error .endless
  | fuel + 1, h =>
    if h.iter < h.fsiz then do
      let rec ← tchdbReadRec h { (default : Tchrec) with off := h.iter }
      let h := { h with iter := h.iter + rec.rsiz }
      if rec.magic = hdbMagicRec then do
        let rec ← needBody h rec rec.kbuf
        .ok (h, rec.kbuf)
      else iternextLoop fuel h
    else .ok (h, none)

def tchdbIternext (fuel : ℕ) (h : Tchdb) : Except HdbFault (Tchdb × Option Key) :=
  if h.iter < 1 then .error .tceinvalid else iternextLoop fuel h

/-- The keys that the iterator has from here on. -/
def iterKeys (fuel : ℕ) : ℕ → Tchdb → Except HdbFault (List Key)
  | 0, _ => .error .endless
  | n + 1, h => do
    let r ← tchdbIternext fuel h
    match r.2 with
    | none => .ok []
    | some kbuf => do
      let ks ← iterKeys fuel n r.1
      .ok (kbuf :: ks)

def tchdbKeys (fuel : ℕ) (h : Tchdb) : Except HdbFault (List Key) := iterKeys fuel fuel (tchdbIterinit h)

/-- What the file has from an offset to its end. -/
inductive Scan (h : Tchdb) : ℕ → List Key → Prop
  | done : Scan h h.fsiz []
  | node {p l r : ℕ} {key : Key} {b : Body} {ks : List Key} (hat : NodeAt h p l key b r)
      (hin : p + nodeLen h.toHdbLayout key b ≤ h.fsiz) (rest : Scan h (p + nodeLen h.toHdbLayout key b) ks) :
      Scan h p (key :: ks)
  | free {off n : ℕ} {ks : List Key} (head : Holds h.file off (hdbMagicFb :: leBytes 4 n)) (hn : 5 ≤ n) (hlt : n < 2 ^ 32)
      (hin : off + n ≤ h.fsiz) (rest : Scan h (off + n) ks) : Scan h off ks

section
variable {h : Tchdb} {trees : ℕ → RecTree} {x fuel : ℕ} {ks : List Key}

theorem Scan.le (hs : Scan h x ks) : x ≤ h.fsiz := by
  cases hs with
  | done => exact le_rfl
  | node _ hin _ => exact (Nat.le_add_right _ _).trans hin
  | free _ _ _ hin _ => exact (Nat.le_add_right _ _).trans hin

theorem Scan.length_le (hs : Scan h x ks) : x + ks.length ≤ h.fsiz := by
  induction hs with
  | done => exact le_rfl
  | @node p l r key b ks _ _ _ ih =>
    have := le_recHsiz (g := h.toHdbLayout) key.length b.vbuf.length
    rw [nodeLen] at ih
    rw [List.length_cons]
    omega
  | free _ hn _ _ _ ih => omega

theorem tchdbReadRec_free {off n : ℕ} (hlen : h.file.length = h.fsiz) (head : Holds h.file off (hdbMagicFb :: leBytes 4 n))
    (hn : 5 ≤ n) (hlt : n < 2 ^ 32) (hin : off + n ≤ h.fsiz) (rec : Tchrec) (hoff : rec.off = off) :
    tchdbReadRec h rec = .ok { rec with magic := hdbMagicFb, rsiz := n } := by
  subst hoff
  have hrunit := le_runit h.toHdbLayout
  rw [tchdbReadRec]
  generalize hm : min (h.fsiz - rec.off) h.runit = m
  have hread : readAt h.file rec.off m = hdbMagicFb :: (leBytes 4 n ++ readAt h.file (rec.off + 5) (m - 5)) := by
    rw [head.readAt (by rw [List.length_cons, length_leBytes]; omega), List.length_cons, length_leBytes]
    rfl
  have htake : (leBytes 4 n ++ readAt h.file (rec.off + 5) (m - 5)).take 4 = leBytes 4 n :=
    List.take_left' (length_leBytes 4 n)
  rw [if_neg (by omega), if_neg (by omega), hread]
  simp only [if_true, htake, ofLeBytes_of_lt (w := 4) (n := n) (by omega)]

theorem iternextLoop_free {off n : ℕ} (hlen : h.file.length = h.fsiz) (head : Holds h.file off (hdbMagicFb :: leBytes 4 n))
    (hn : 5 ≤ n) (hlt : n < 2 ^ 32) (hin : off + n ≤ h.fsiz) (fuel : ℕ) :
    iternextLoop (fuel + 1) { h with iter := off } = iternextLoop fuel { h with iter := off + n } := by
  have hread : tchdbReadRec { h with iter := off } { (default : Tchrec) with off := off } = _ :=
    tchdbReadRec_free hlen head hn hlt hin _ rfl
  have hne : hdbMagicFb ≠ hdbMagicRec := by decide
  rw [iternextLoop, if_pos (show off < h.fsiz by omega)]
  show (tchdbReadRec { h with iter := off } { (default : Tchrec) with off := off } >>= _) = _
  rw [hread, ok_bind]
  exact if_neg hne

theorem iternextLoop_node {p l r : ℕ} {key : Key} {b : Body} (hlen : h.file.length = h.fsiz) (hat : NodeAt h p l key b r)
    (hin : p + nodeLen h.toHdbLayout key b ≤ h.fsiz) (fuel : ℕ) :
    iternextLoop (fuel + 1) { h with iter := p } = .ok ({ h with iter := p + nodeLen h.toHdbLayout key b }, some key) := by
  have hpos := le_recHsiz (g := h.toHdbLayout) key.length b.vbuf.length
  have hsize : 0 < nodeLen h.toHdbLayout key b := by
    rw [nodeLen]
    omega
  obtain ⟨kbuf, vbuf, hread, hk, hv⟩ := tchdbReadRec_node hat hin hlen { (default : Tchrec) with off := p } rfl
  have hread' : tchdbReadRec { h with iter := p } { (default : Tchrec) with off := p } = _ := hread
  rw [iternextLoop, if_pos (show p < h.fsiz by omega)]
  show (tchdbReadRec { h with iter := p } { (default : Tchrec) with off := p } >>= _) = _
  rw [hread', ok_bind]
  obtain ⟨vbuf', hbody, -⟩ := needBody_node hlen hat hin hk hv
  have hbody' : needBody { h with iter := p + nodeLen h.toHdbLayout key b } (nodeRec h.toHdbLayout p l key b r kbuf vbuf) kbuf = _ :=
    hbody
  show (needBody { h with iter := p + nodeLen h.toHdbLayout key b } (nodeRec h.toHdbLayout p l key b r kbuf vbuf) kbuf >>= _) = _
  rw [hbody', ok_bind]
  rfl

/-- The iterator goes over the free blocks to the next record, or to the end of the file. -/
theorem tchdbIternext_scan (hlen : h.file.length = h.fsiz) (hs : Scan h x ks) (hfuel : h.fsiz < x + fuel) :
    (ks = [] ∧ iternextLoop fuel { h with iter := x } = .ok ({ h with iter := h.fsiz }, none)) ∨
      ∃ k ks' x', ks = k :: ks' ∧ x < x' ∧ Scan h x' ks' ∧
        iternextLoop fuel { h with iter := x } = .ok ({ h with iter := x' }, some k) := by
  induction hs generalizing fuel with
  | done =>
    obtain ⟨fuel, rfl⟩ := Nat.exists_eq_succ_of_ne_zero (show fuel ≠ 0 by omega)
    exact Or.inl ⟨rfl, if_neg (lt_irrefl _)⟩
  | @node p l r key b ks hat hin rest _ =>
    have hle := (Scan.node hat hin rest).le
    obtain ⟨fuel, rfl⟩ := Nat.exists_eq_succ_of_ne_zero (show fuel ≠ 0 by omega)
    have hpos := le_recHsiz (g := h.toHdbLayout) key.length b.vbuf.length
    refine Or.inr ⟨key, ks, _, rfl, ?_, rest, iternextLoop_node hlen hat hin fuel⟩
    rw [nodeLen]
    omega
  | @free off n ks head hn hlt hin rest ih =>
    obtain ⟨fuel, rfl⟩ := Nat.exists_eq_succ_of_ne_zero (show fuel ≠ 0 by omega)
    rw [Nat.succ_eq_add_one, iternextLoop_free hlen head hn hlt hin fuel]
    rcases ih (show h.fsiz < _ + fuel by omega) with hdone | ⟨k, ks', x', hks, hx, hscan, heq⟩
    · exact Or.inl hdone
    · exact Or.inr ⟨k, ks', x', hks, by omega, hscan, heq⟩

theorem iterKeys_scan (hlen : h.file.length = h.fsiz) (hfuel : h.fsiz < fuel) {n : ℕ} (hn : ks.length < n) (hx : 0 < x)
    (hs : Scan h x ks) : iterKeys fuel n { h with iter := x } = .ok ks := by
  induction ks generalizing x n with
  | nil =>
    obtain ⟨n, rfl⟩ := Nat.exists_eq_succ_of_ne_zero (Nat.ne_of_gt (Nat.zero_lt_of_lt hn))
    rcases tchdbIternext_scan hlen hs (hfuel.trans_le (Nat.le_add_left _ _)) with ⟨-, heq⟩ | ⟨k, ks', x', hks, -⟩
    · rw [iterKeys, tchdbIternext, if_neg (show ¬ x < 1 by omega), heq]
      rfl
    · exact absurd hks.symm (List.cons_ne_nil _ _)
  | cons k ks ih =>
    obtain ⟨n, rfl⟩ := Nat.exists_eq_succ_of_ne_zero (Nat.ne_of_gt (Nat.zero_lt_of_lt hn))
    rcases tchdbIternext_scan hlen hs (hfuel.trans_le (Nat.le_add_left _ _)) with ⟨hnil, -⟩ | ⟨k', ks', x', hks, hlt, hscan, heq⟩
    · exact absurd hnil (List.cons_ne_nil _ _)
    · obtain ⟨rfl, rfl⟩ := List.cons.inj hks
      rw [iterKeys, tchdbIternext, if_neg (show ¬ x < 1 by omega), heq, ok_bind]
      show (iterKeys fuel n { h with iter := x' } >>= _) = _
      rw [ih (Nat.lt_of_succ_lt_succ hn) (by omega) hscan, ok_bind]

/-! ## The file of a database -/

theorem FreeRun.scan {off n : ℕ} (hf : FreeRun h.file off n) (hin : off + n ≤ h.fsiz) (hs : Scan h (off + n) ks) :
    Scan h off ks := by
  induction hf with
  | nil off => exact hs
  | @cons off n m head hn hlt _ ih =>
    rw [← Nat.add_assoc] at hin hs
    exact .free head hn hlt (by omega) (ih hin hs)

/-- Blocks in use and free ones, one after the other. -/
theorem scan_of_chain (cs : List Block) (es : List (Entry Key Body)) (fs : List Hdbfb)
    (hp : cs.Perm (es.map (blockOf h.toHdbLayout) ++ fs.map Hdbfb.block)) (hc : Chain x cs h.fsiz)
    (hes : ∀ e ∈ es, ∃ l r, NodeAt h e.p l e.key e.val r) (hfs : ∀ fb ∈ fs, FreeRun h.file fb.off fb.rsiz) :
    ∃ ks, Scan h x ks ∧ ks.Perm (es.map Entry.key) := by
  induction cs generalizing x es fs with
  | nil =>
    have hnil := List.nil_perm.mp hp
    rw [List.append_eq_nil_iff, List.map_eq_nil_iff] at hnil
    obtain ⟨rfl, -⟩ := hnil
    obtain rfl : x = h.fsiz := hc
    exact ⟨[], .done, List.Perm.refl _⟩
  | cons b cs ih =>
    obtain ⟨rfl, hpos, hrest⟩ := hc
    have hmem := hp.mem_iff.mp List.mem_cons_self
    rcases List.mem_append.mp hmem with hb | hb
    · obtain ⟨e, he, rfl⟩ := List.mem_map.mp hb
      obtain ⟨es₁, es₂, rfl⟩ := List.append_of_mem he
      obtain ⟨l, r, hat⟩ := hes e he
      have hp' : cs.Perm ((es₁ ++ es₂).map (blockOf h.toHdbLayout) ++ fs.map Hdbfb.block) :=
        (hp.trans ((List.perm_middle.map _).append_right _)).cons_inv
      obtain ⟨ks, hscan, hperm⟩ := ih (es₁ ++ es₂) fs hp' hrest
        (fun e' he' => hes e' (List.perm_middle.mem_iff.mpr (List.mem_cons_of_mem _ he'))) hfs
      refine ⟨e.key :: ks, .node hat hrest.le hscan, ?_⟩
      rw [List.map_append, List.map_cons]
      rw [List.map_append] at hperm
      exact (hperm.cons _).trans List.perm_middle.symm
    · obtain ⟨fb, hfb, rfl⟩ := List.mem_map.mp hb
      obtain ⟨fs₁, fs₂, rfl⟩ := List.append_of_mem hfb
      have hp' : cs.Perm (es.map (blockOf h.toHdbLayout) ++ (fs₁ ++ fs₂).map Hdbfb.block) :=
        (hp.trans (((List.perm_middle.map _).append_left _).trans List.perm_middle)).cons_inv
      obtain ⟨ks, hscan, hperm⟩ := ih es (fs₁ ++ fs₂) hp' hrest hes
        (fun fb' hfb' => hfs fb' (List.perm_middle.mem_iff.mpr (List.mem_cons_of_mem _ hfb')))
      exact ⟨ks, (hfs fb hfb).scan hrest.le hscan, hperm⟩

theorem Wf.exists_scan (hw : Wf h trees) :
    ∃ ks, Scan h h.frec ks ∧ ks.Perm ((allEntries h.bnum trees).map Entry.key) := by
  obtain ⟨lost, hs⟩ := hw.forest.space
  obtain ⟨cs, hcs, hchain⟩ := hs.blocks.part.exists_chain hs.start
  refine scan_of_chain cs _ (h.fbpool ++ lost) hcs hchain (fun e he => ?_) hs.blocks.free
  obtain ⟨b, hb, he⟩ := List.mem_flatMap.mp he
  exact (hw.forest.stored b (List.mem_range.mp hb)).exists_at he

theorem Wf.keys (hw : Wf h trees) : ((allEntries h.bnum trees).map Entry.key).Nodup ∧
    ∀ k, k ∈ (allEntries h.bnum trees).map Entry.key ↔ (contents h.toHdbLayout trees k).isSome := by
  constructor
  · rw [allEntries, List.map_flatMap, List.nodup_flatMap]
    constructor
    · intro b hb
      rw [List.Nodup, List.pairwise_map]
      refine (hw.sorted b (List.mem_range.mp hb)).imp fun hgt heq => ?_
      rw [keyCmp_eq.mpr heq] at hgt
      exact Ordering.noConfusion hgt
    · refine List.nodup_range.imp_of_mem fun {a b} ha hb hne k hka hkb => ?_
      obtain ⟨e, he, rfl⟩ := List.mem_map.mp hka
      obtain ⟨e', he', heq⟩ := List.mem_map.mp hkb
      have h1 := hw.home a (List.mem_range.mp ha) e he
      have h2 := hw.home b (List.mem_range.mp hb) e' he'
      rw [heq] at h2
      exact hne (h1.symm.trans h2)
  · intro k
    rw [contents, Option.isSome_map, SearchTree.find, Option.isSome_map, List.find?_isSome]
    constructor
    · intro hk
      obtain ⟨e, he, rfl⟩ := List.mem_map.mp hk
      obtain ⟨b, hb, he⟩ := List.mem_flatMap.mp he
      have hhome := hw.home b (List.mem_range.mp hb) e he
      exact ⟨e, hhome ▸ he, beq_iff_eq.mpr (keyCmp_eq.mpr rfl)⟩
    · rintro ⟨e, he, heq⟩
      obtain rfl : k = e.key := keyCmp_eq.mp (beq_iff_eq.mp heq)
      exact List.mem_map.mpr ⟨e, List.mem_flatMap.mpr ⟨_, List.mem_range.mpr (hw.bidx_lt _), he⟩, rfl⟩

theorem Wf.contents_iff (hw : Wf h trees) {k : Key} {v : List UInt8} :
    contents h.toHdbLayout trees k = some v ↔ ∃ e ∈ allEntries h.bnum trees, e.key = k ∧ e.val.vbuf = v := by
  constructor
  · intro hv
    obtain ⟨b, hfind, rfl⟩ := Option.map_eq_some_iff.mp hv
    obtain ⟨e, he, heq, rfl⟩ := mem_of_find hfind
    exact ⟨e, List.mem_flatMap.mpr ⟨_, List.mem_range.mpr (hw.bidx_lt k), he⟩, (keyCmp_eq.mp heq).symm, rfl⟩
  · rintro ⟨e, he, rfl, rfl⟩
    obtain ⟨b, hb, he⟩ := List.mem_flatMap.mp he
    have hb' := List.mem_range.mp hb
    obtain ⟨as, bs, hsplit⟩ := List.append_of_mem he
    have hsorted := hw.sorted b hb'
    rw [hsplit] at hsorted
    rw [contents, hw.home b hb' e he, hsplit, find_middle hsorted, if_pos (keyCmp_eq.mpr rfl)]
    rfl

theorem tchdbKeys_spec (hw : Wf h trees) (hfuel : 2 ^ 31 < fuel) :
    ∃ ks, tchdbKeys fuel h = .ok ks ∧ ks.Nodup ∧ ks.length = h.rnum ∧
      ∀ k, k ∈ ks ↔ (contents h.toHdbLayout trees k).isSome := by
  obtain ⟨ks, hscan, hperm⟩ := hw.exists_scan
  obtain ⟨hnodup, hmem⟩ := hw.keys
  obtain ⟨lost, hs⟩ := hw.forest.space
  have hsmall := hs.small
  have hlen := hscan.length_le
  refine ⟨ks, ?_, hperm.nodup_iff.mpr hnodup, ?_, fun k => hperm.mem_iff.trans (hmem k)⟩
  · exact iterKeys_scan hs.len (by omega) (by omega) hs.frec_pos hscan
  · rw [hperm.length_eq, List.length_map, hw.count]

end

/-- A reader that lists all keys, and what `tchdbrnum` says. -/
def dbKeys (fuel : ℕ) (g : Tchdb) (nolck : Bool) (file : List UInt8) : Except HdbFault (List Key × ℕ) := do
  let h ← tchdbOpen g ⟨false, false, nolck⟩ file
  let ks ← tchdbKeys fuel h
  .ok (ks, h.rnum)

/-- **After any number of sessions the iterator lists every key of the map, and none twice.** -/
theorem dbHistory_keys {g : Tchdb} (hg : Creatable g) {fuel : ℕ} (hfuel : maxSteps ≤ fuel) (s : DbSession)
    (ss : List DbSession)
    (hroom : (createFile g).fsiz + Budget.total (DbSession.cost (createFile g).toHdbLayout) (s :: ss) ≤ 2 ^ 31)
    (nolck : Bool) :
    ∃ file replies ks, dbHistory fuel g (s :: ss) = .ok (file, replies) ∧ dbKeys fuel g nolck file = .ok (ks, ks.length) ∧
      ks.Nodup ∧ ∀ k, k ∈ ks ↔ ((Budget.spec DbSession.apply (fun _ => none) (s :: ss)).1 k).isSome := by
  obtain ⟨file, hrun, h, trees, hd, rfl, hlayout, -, hm⟩ := dbHistory_lies hg hfuel s ss hroom
  obtain ⟨h₁, hopen, hop⟩ := tchdbOpen_disk hd g ⟨false, false, nolck⟩ rfl
  rw [maxSteps] at hfuel
  obtain ⟨ks, hkeys, hnodup, hlen, hmem⟩ := tchdbKeys_spec hop.disk.wf (show 2 ^ 31 < fuel by omega)
  refine ⟨h.file, _, ks, hrun, ?_, hnodup, fun k => ?_⟩
  · rw [dbKeys, hopen, ok_bind, hkeys, ok_bind, hlen]
  · rw [hmem, hop.layout, hlayout, hm]

theorem dbHistory_keys_one :
    ∃ file replies ks, dbHistory maxSteps tchdbNew [⟨false, [.put [97] [98], .put [99] [], .out [97]], true⟩] =
        .ok (file, replies) ∧ dbKeys maxSteps tchdbNew false file = .ok (ks, ks.length) ∧ ks.Nodup ∧
      ∀ k, k ∈ ks ↔ ((Budget.spec DbSession.apply (fun _ => none)
        [⟨false, [.put [97] [98], .put [99] [], .out [97]], true⟩]).1 k).isSome :=
  dbHistory_keys creatable_tchdbNew le_rfl _ [] (by decide) false

/-! ## The room behind the buckets -/

/-- From the first record to the end of the file there are the records of the map and free blocks,
without a gap and without a byte of two of them; the pool has some of the free blocks. -/
def LaidOut (h : Tchdb) (m : KeyMap) : Prop :=
  ∃ (es : List (Entry Key Body)) (lost : List Hdbfb),
    Partition h.frec h.fsiz (es.map (blockOf h.toHdbLayout) ++ (h.fbpool ++ lost).map Hdbfb.block) ∧
    (∀ e ∈ es, ∃ l r, NodeAt h e.p l e.key e.val r) ∧
    (∀ fb ∈ h.fbpool ++ lost, FreeRun h.file fb.off fb.rsiz) ∧
    (es.map Entry.key).Nodup ∧ ∀ k v, m k = some v ↔ ∃ e ∈ es, e.key = k ∧ e.val.vbuf = v

theorem Wf.laidOut {h : Tchdb} {trees : ℕ → RecTree} (hw : Wf h trees) : LaidOut h (contents h.toHdbLayout trees) := by
  obtain ⟨lost, hs⟩ := hw.forest.space
  refine ⟨allEntries h.bnum trees, lost, hs.blocks.part, fun e he => ?_, hs.blocks.free, hw.keys.1,
    fun k v => hw.contents_iff⟩
  obtain ⟨b, hb, he⟩ := List.mem_flatMap.mp he
  exact (hw.forest.stored b (List.mem_range.mp hb)).exists_at he

/-- **In every run on a new database no record overlaps another one or a free block.** -/
theorem dbRun_laidOut {g : Tchdb} (hg : Creatable g) {fuel : ℕ} (hfuel : maxSteps ≤ fuel) (nolck : Bool) (file : List UInt8)
    (ops : List DbOp) (hroom : (createFile g).fsiz + Budget.total (DbOp.cost (createFile g).toHdbLayout) ops ≤ 2 ^ 31) :
    ∃ h rs, dbRun fuel g nolck file ops = .ok (h, rs) ∧ LaidOut h (Budget.spec DbOp.apply (fun _ => none) ops).1 := by
  obtain ⟨h, hrun, hlayout, -, -, -, trees, hw, hm⟩ := dbRun_carries hg hfuel nolck file ops hroom
  refine ⟨h, _, hrun, ?_⟩
  rw [← hm, ← hlayout]
  exact hw.laidOut

theorem dbRun_laidOut_three :
    ∃ h rs, dbRun maxSteps tchdbNew false [] [.put [97] [98], .put [99] [], .out [97]] = .ok (h, rs) ∧
      LaidOut h (Budget.spec DbOp.apply (fun _ => none) [.put [97] [98], .put [99] [], .out [97]]).1 :=
  dbRun_laidOut creatable_tchdbNew le_rfl false [] _ (by decide)

/-- **The pool is there again when the file has been closed**: a writer that opens it gets the first blocks
of the ordered pool, all of them if each has ten bytes of the region. -/
theorem dbRun_reopen {g : Tchdb} (hg : Creatable g) {fuel : ℕ} (hfuel : maxSteps ≤ fuel) (nolck : Bool) (file : List UInt8)
    (ops : List DbOp) (hroom : (createFile g).fsiz + Budget.total (DbOp.cost (createFile g).toHdbLayout) ops ≤ 2 ^ 31) :
    ∃ h rs h' k, dbRun fuel g nolck file ops = .ok (h, rs) ∧
      tchdbOpen g ⟨true, false, nolck⟩ (tchdbClose h true).file = .ok h' ∧
      h'.fbpool = (orderFbp h).fbpool.take k ∧
      ((orderFbp h).fbpool.length * 10 + 18 ≤ h.fbpsiz → h'.fbpool = (orderFbp h).fbpool) ∧
      (h.fbpool.length ≤ h.fbpmax / 2 → (orderFbp h).fbpool.Perm h.fbpool) ∧
      LaidOut h' (Budget.spec DbOp.apply (fun _ => none) ops).1 := by
  obtain ⟨h, hrun, hlayout, -, hsound, -, trees, hw, hm⟩ := dbRun_carries hg hfuel nolck file ops hroom
  obtain ⟨h', k, hopen, htake, hall⟩ := tchdbOpen_closed hw hsound g nolck
  have hc := tchdbClose_closed hw hsound
  obtain ⟨h'', hopen', hop⟩ := tchdbOpen_disk (tchdbClose_disk hw hsound).1 g ⟨true, false, nolck⟩ rfl
  obtain rfl : h' = h'' := Except.ok.inj (hopen.symm.trans hopen')
  refine ⟨h, _, h', k, hrun, hopen, htake, hall, fun hfew => ?_, ?_⟩
  · rw [orderFbp, if_neg (not_lt.mpr hfew)]
    split_ifs with hone
    · exact HeapSort.sort_perm _
    · exact List.Perm.refl _
  · rw [← hm, ← hlayout, ← hc.layout, ← hop.layout]
    exact hop.disk.wf.laidOut

theorem dbRun_reopen_three :
    ∃ h rs h' k, dbRun maxSteps tchdbNew false [] [.put [97] [98], .put [99] [], .out [97]] = .ok (h, rs) ∧
      tchdbOpen tchdbNew ⟨true, false, false⟩ (tchdbClose h true).file = .ok h' ∧
      h'.fbpool = (orderFbp h).fbpool.take k ∧
      ((orderFbp h).fbpool.length * 10 + 18 ≤ h.fbpsiz → h'.fbpool = (orderFbp h).fbpool) ∧
      (h.fbpool.length ≤ h.fbpmax / 2 → (orderFbp h).fbpool.Perm h.fbpool) ∧
      LaidOut h' (Budget.spec DbOp.apply (fun _ => none) [.put [97] [98], .put [99] [], .out [97]]).1 :=
  dbRun_reopen creatable_tchdbNew le_rfl false [] _ (by decide)

end Fms
