import Fms.Lib.TextFile

/-!
# The subscriptions of an agent

evt_modules/evtlib/evt_agent.c: `agent_module_conf` reads the .conf file of an agent and adds a class to
`list_eclass` for each line that starts with `subscribe `. It cuts the last character of such a line,
whether or not it is a newline.

* `agentModuleConf`: the list that is read;
* `SubscribeSafe`: a line that is read right;
* **`agentModuleConf_iff`**: the list is what the lines say if and only if it is so for each line.
-/

namespace Fms

open CString TextFile

/-- `NAME_LEN` -/
def nameLen : ℕ := 128

/-- The word of a line that subscribes. -/
def subscribe : CStr := "subscribe ".toList

/-- The body of the loop of `agent_module_conf`: the class that a string adds. -/
def confLine (buf : CStr) : Option CStr :=
  if strncmpEq (content buf) subscribe 10 then some ((content buf).dropLast.drop 10) else none

/-- `conf_add_sub` -/
def confAddSub (listEclass : List CStr) (eclass : CStr) : List CStr := eclass :: listEclass

/-- `agent_module_conf`: what it returns, and `list_eclass` afterwards; `none` is a file that cannot be
opened. -/
def agentModuleConf : Option CStr → ℤ × List CStr
  | none => (-1, [])
  | some file => (0, (fgetsAll nameLen file).foldl
      (fun listEclass buf => (confLine buf).elim listEclass (confAddSub listEclass)) [])

/-- The texts that follow `subscribe ` on the lines that start with it. -/
def subscriptions (file : CStr) : List CStr :=
  ((lines file).filter fun l => subscribe.isPrefixOf l).map (List.drop 10)

/-- A line that is read right: it has no NUL, and it has its newline unless it subscribes to the empty
class. -/
def SubscribeSafe (l : CStr) : Prop :=
  subscribe <+: l → '\x00' ∉ l ∧ (l.getLast? = some '\n' ∨ l = subscribe)

instance (l : CStr) : Decidable (SubscribeSafe l) := inferInstanceAs (Decidable (_ → _))

/-! ## One line -/

/-- The text of a line that subscribes, as it should be. -/
def subscription (l : CStr) : Option CStr :=
  if subscribe.isPrefixOf (chomp l) then some ((chomp l).drop 10) else none

theorem subscriptions_eq (file : CStr) : subscriptions file = (rawLines file).filterMap subscription := by
  rw [subscriptions, lines_eq_map_chomp]
  induction rawLines file with
  | nil => rfl
  | cons l ls ih =>
    rw [List.map_cons, List.filterMap_cons, subscription]
    by_cases h : subscribe.isPrefixOf (chomp l)
    · rw [List.filter_cons_of_pos h, List.map_cons, ih, if_pos h]
    · rw [List.filter_cons_of_neg h, ih, if_neg h]

/-- The loop adds the classes in front of one another. -/
theorem foldl_confLine (bufs acc : List CStr) :
    bufs.foldl (fun listEclass buf => (confLine buf).elim listEclass (confAddSub listEclass)) acc =
      (bufs.filterMap confLine).reverse ++ acc := by
  induction bufs generalizing acc with
  | nil => rfl
  | cons buf bufs ih =>
    rw [List.foldl_cons, ih, List.filterMap_cons]
    cases confLine buf with
    | none => rfl
    | some eclass => simp [confAddSub]

theorem confLine_none {l : CStr} (h : ¬ subscribe <+: l) : confLine l = none := by
  have hno : ¬ strncmpEq (content l) subscribe 10 = true := fun hc =>
    h ((prefix_takeWhile_iff (by decide)).mp (strncmpEq_right.mp hc))
  rw [confLine, if_neg hno]

theorem subscription_none {l : CStr} (h : ¬ subscribe <+: l) : subscription l = none := by
  have hno : ¬ subscribe.isPrefixOf (chomp l) = true := fun hc =>
    h ((prefix_takeWhile_iff (by decide)).mp (List.isPrefixOf_iff_prefix.mp hc))
  rw [subscription, if_neg hno]

theorem confLine_subscribe (y : CStr) : confLine (subscribe ++ y) = some (content y).dropLast := by
  have hcontent : content (subscribe ++ y) = subscribe ++ content y :=
    takeWhile_append_left (by decide) y
  have hcmp : strncmpEq (subscribe ++ content y) subscribe 10 = true :=
    strncmpEq_right.mpr (List.prefix_append _ _)
  rw [confLine, hcontent, if_pos hcmp]
  by_cases hc : content y = []
  · rw [hc]
    rfl
  · rw [List.dropLast_append_of_ne_nil hc]
    rfl

theorem subscription_subscribe (y : CStr) : subscription (subscribe ++ y) = some (chomp y) := by
  have hchomp : chomp (subscribe ++ y) = subscribe ++ chomp y :=
    takeWhile_append_left (by decide) y
  have hpre : subscribe.isPrefixOf (subscribe ++ chomp y) = true :=
    List.isPrefixOf_iff_prefix.mpr (List.prefix_append _ _)
  rw [subscription, hchomp, if_pos hpre]
  rfl

theorem dropLast_content_eq_iff {y : CStr} (hy : Terminated y ∨ '\n' ∉ y) :
    (content y).dropLast <+: chomp y ∧
      ((content y).dropLast = chomp y ↔ '\x00' ∉ y ∧ (y.getLast? = some '\n' ∨ y = [])) := by
  rcases hy with ⟨x, hx, rfl⟩ | hy
  · have hchomp : chomp (x ++ ['\n']) = x := takeWhile_append_delim hx []
    rw [hchomp]
    by_cases hnul : '\x00' ∈ x
    · have hcontent : content (x ++ ['\n']) = content x := by
        obtain ⟨s, r, rfl, hs⟩ := List.eq_append_cons_of_mem hnul
        rw [List.append_assoc, List.cons_append, content, content, takeWhile_append_delim hs,
          takeWhile_append_delim hs]
      rw [hcontent]
      refine ⟨(List.dropLast_prefix _).trans (prefix_content x), iff_of_false (fun h => ?_) fun h => ?_⟩
      · have hmem : '\x00' ∈ (content x).dropLast := by
          rw [h]
          exact hnul
        exact not_mem_content x (List.mem_of_mem_dropLast hmem)
      · exact h.1 (List.mem_append_left _ hnul)
    · have hno : '\x00' ∉ x ++ ['\n'] := List.not_mem_append hnul (by decide)
      rw [content_of_not_mem hno, List.dropLast_concat]
      exact ⟨List.prefix_rfl, iff_of_true rfl ⟨hno, .inl List.getLast?_concat⟩⟩
  · have hchomp : chomp y = y := takeWhile_no_delim hy
    rw [hchomp]
    refine ⟨(List.dropLast_prefix _).trans (prefix_content y), fun h => ?_, ?_⟩
    · have hlen := congrArg List.length h
      have hle := (prefix_content y).length_le
      rw [List.length_dropLast] at hlen
      have hnil : y = [] := List.length_eq_zero_iff.mp (by omega)
      exact ⟨by simp [hnil], .inr hnil⟩
    · rintro ⟨-, hlast | rfl⟩
      · exact absurd (List.mem_of_mem_getLast? hlast) hy
      · rfl

/-- What the parser adds for a line is the start of what it should add. -/
theorem confLine_prefix {file l : CStr} (hl : l ∈ rawLines file) (hsub : subscribe <+: l) :
    ∃ c c', confLine l = some c ∧ subscription l = some c' ∧ c <+: c' ∧ (c = c' ↔ SubscribeSafe l) := by
  obtain ⟨y, rfl⟩ := hsub
  refine ⟨_, _, confLine_subscribe y, subscription_subscribe y, ?_⟩
  have hy : Terminated y ∨ '\n' ∉ y := by
    rcases rawLine_cases hl with ⟨x, hx, heq⟩ | hno
    · rcases y.eq_nil_or_concat with rfl | ⟨z, c, rfl⟩
      · exact absurd (congrArg List.getLast? heq) (by rw [List.getLast?_concat]; decide)
      · rw [List.concat_eq_append, ← List.append_assoc] at heq
        obtain ⟨rfl, hc⟩ := List.append_inj' heq rfl
        exact .inl ⟨z, fun h => hx (List.mem_append_right _ h), by rw [List.concat_eq_append, hc]⟩
    · exact .inr fun h => hno (List.mem_append_right _ h)
  obtain ⟨hpre, hiff⟩ := dropLast_content_eq_iff hy
  refine ⟨hpre, hiff.trans ?_⟩
  have hkey : '\x00' ∉ subscribe := by decide
  have hlast : (subscribe ++ y).getLast? = some '\n' ↔ y.getLast? = some '\n' := by
    rw [List.getLast?_append]
    cases y.getLast? with
    | none => decide
    | some c => rfl
  unfold SubscribeSafe
  rw [hlast, List.mem_append, or_iff_right hkey]
  simp

/-! ## The file -/

theorem sum_length_filterMap {α β : Type} (f : α → Option (List β)) (l : List α) :
    ((l.filterMap f).map List.length).sum = (l.map fun x => (f x).elim 0 List.length).sum := by
  induction l with
  | nil => rfl
  | cons x l ih =>
    rw [List.filterMap_cons, List.map_cons, List.sum_cons, ← ih]
    cases f x with
    | none => exact (Nat.zero_add _).symm
    | some c => rfl

/-- Texts that are starts of others, and the same up to their order, are the same. -/
theorem filterMap_perm_iff {α β : Type} {l : List α} {f g : α → Option (List β)}
    (hpre : ∀ x ∈ l, f x = g x ∨ ∃ c c', f x = some c ∧ g x = some c' ∧ c <+: c') :
    (l.filterMap f).Perm (l.filterMap g) ↔ ∀ x ∈ l, f x = g x := by
  refine ⟨fun hperm x hx => ?_, fun h => by rw [List.filterMap_congr h]⟩
  have hsum := (hperm.map List.length).sum_eq
  rw [sum_length_filterMap, sum_length_filterMap] at hsum
  have hle : ∀ y ∈ l, (f y).elim 0 List.length ≤ (g y).elim 0 List.length := by
    intro y hy
    rcases hpre y hy with heq | ⟨c, c', hc, hc', hcc'⟩
    · rw [heq]
    · rw [hc, hc']
      exact hcc'.length_le
  by_contra hne
  obtain ⟨c, c', hc, hc', hcc'⟩ := (hpre x hx).resolve_left hne
  have hlt : (f x).elim 0 List.length < (g x).elim 0 List.length := by
    rw [hc, hc'] at hne ⊢
    exact lt_of_le_of_ne hcc'.length_le fun h => hne (congrArg some (hcc'.eq_of_length h))
  exact absurd hsum (List.sum_lt_sum _ _ hle ⟨x, hx, hlt⟩).ne

/-- **The list is what the lines say if and only if it is so for each line.** -/
theorem agentModuleConf_iff (file : CStr) (hfits : ∀ l ∈ rawLines file, Fits nameLen l) :
    ((agentModuleConf (some file)).2 : Multiset CStr) = subscriptions file ↔
      ∀ l ∈ rawLines file, SubscribeSafe l := by
  have hlist : (agentModuleConf (some file)).2 = ((rawLines file).filterMap confLine).reverse := by
    change (fgetsAll nameLen file).foldl _ [] = _
    rw [foldl_confLine, fgetsAll_of_fits hfits, List.append_nil]
  have hpre : ∀ l ∈ rawLines file, confLine l = subscription l ∨
      ∃ c c', confLine l = some c ∧ subscription l = some c' ∧ c <+: c' := by
    intro l hl
    by_cases hsub : subscribe <+: l
    · obtain ⟨c, c', hc, hc', hcc', -⟩ := confLine_prefix hl hsub
      exact .inr ⟨c, c', hc, hc', hcc'⟩
    · exact .inl ((confLine_none hsub).trans (subscription_none hsub).symm)
  rw [hlist, subscriptions_eq, Multiset.coe_eq_coe, (List.reverse_perm _).congr_left,
    filterMap_perm_iff hpre]
  refine forall₂_congr fun l hl => ?_
  by_cases hsub : subscribe <+: l
  · obtain ⟨c, c', hc, hc', -, hiff⟩ := confLine_prefix hl hsub
    rw [hc, hc', Option.some.injEq, hiff]
  · rw [confLine_none hsub, subscription_none hsub]
    exact iff_of_true rfl fun h => absurd h hsub

theorem agentModuleConf_disk :
    ((agentModuleConf (some "# disks\nsubscribe ereport.disk.*\n# end".toList)).2 : Multiset CStr) =
      subscriptions "# disks\nsubscribe ereport.disk.*\n# end".toList :=
  (agentModuleConf_iff _ (by decide)).mpr (by decide)

/-- The class of a last line that is not terminated loses a character. -/
theorem agentModuleConf_fails : ¬ ∀ file, (∀ l ∈ rawLines file, Fits nameLen l) →
    ((agentModuleConf (some file)).2 : Multiset CStr) = subscriptions file := by
  intro h
  exact absurd (h "subscribe ereport.disk.*".toList (by decide)) (by decide)

end Fms
