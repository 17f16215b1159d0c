import Fms.Adm.Client

/-!
# The list of the modules

`fmd_get_modlist` of the daemon and `fmd_adm_get_modinfo` of the library. The daemon counts the modules
in the byte `acl_secs` and computes the size of the message from an `int`; the library reads as many
sections as the header says.

* `fmdAdmGetModinfo_modlist`: what the library reads from the message of the daemon;
* **`modlistRoundTrip_iff`**: the list arrives as long as the number of modules fits a byte.
-/

namespace Fms

open CString

/-- The section of a module: the name is cut to fit `mod_name`. -/
def fafModule (mp : FmdModule) : FafModule := ⟨mp.modVers, mp.modInterval, mp.modName.take 127⟩

/-- The library gets one entry for each module, and the header counts the sections that the message
has. -/
structure ModlistRoundTrip (fmd : Fmd) : Prop where
  entries : ∃ ret modList, fmdAdmGetModinfo [] (fmdGetModlist fmd) = some (ret, modList) ∧
    (modList : Multiset FafModule) = fmd.fmdModule.map fafModule
  header : ∀ hdr sections, fmdGetModlist fmd = .modList hdr sections →
    hdr.fafhSecnum * 136 + hdr.fafhHdrsize = hdr.fafhMsgsz

/-- The library reads the first sections, as many as the byte `acl_secs` says. -/
theorem fmdAdmGetModinfo_modlist (fmd : Fmd) : ∃ ret,
    fmdAdmGetModinfo [] (fmdGetModlist fmd) =
      some (ret, ((fmd.fmdModule.take (fmd.fmdModule.length % 2 ^ 8)).map fafModule).reverse) := by
  have hsecnum : (fmdGetModlist fmd).secnum = some (fmd.fmdModule.length % 2 ^ 8) := rfl
  have hle := Nat.mod_le fmd.fmdModule.length (2 ^ 8)
  unfold fmdAdmGetModinfo
  rw [hsecnum]
  generalize fmd.fmdModule.length % 2 ^ 8 = n at hle
  cases n with
  | zero => exact ⟨-1, rfl⟩
  | succ n =>
    refine ⟨0, ?_⟩
    simp only [fmdGetModlist, List.length_map, if_pos hle, List.foldl_flip_cons_eq_append',
      List.append_nil, ← List.map_take]
    rfl

theorem ModlistRoundTrip.length_lt {fmd : Fmd} (h : ModlistRoundTrip fmd) :
    fmd.fmdModule.length < 2 ^ 8 := by
  have hhdr := h.header _ _ rfl
  simp only [fafHdr] at hhdr
  have hmod : fmd.fmdModule.length % 2 ^ 8 = fmd.fmdModule.length := by omega
  rw [← hmod]
  exact Nat.mod_lt _ (by decide)

/-- **The list arrives as long as the number of modules fits a byte.** -/
theorem modlistRoundTrip_iff (fmd : Fmd) : ModlistRoundTrip fmd ↔ fmd.fmdModule.length < 2 ^ 8 := by
  refine ⟨fun h => h.length_lt, fun h => ?_⟩
  have hmod := Nat.mod_eq_of_lt h
  constructor
  · obtain ⟨ret, hret⟩ := fmdAdmGetModinfo_modlist fmd
    rw [hmod, List.take_length] at hret
    exact ⟨ret, _, hret, Multiset.coe_eq_coe.mpr (List.reverse_perm _)⟩
  · rintro hdr sections heq
    cases heq
    simp only [fafHdr, hmod]

/-- With 256 modules the library is told that there are none. -/
theorem modlistRoundTrip_fails : ¬ ∀ fmd, ModlistRoundTrip fmd := by
  intro h
  let mp : FmdModule := { modName := "/usr/lib/fms/plugins/disk_agent.so".toList }
  have hlt := (h { fmdModule := List.replicate 256 mp }).length_lt
  rw [List.length_replicate] at hlt
  exact absurd hlt (by decide)

end Fms
