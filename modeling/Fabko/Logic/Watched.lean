import Mathlib.Data.List.Nodup
import Mathlib.Data.List.Perm.Subperm

set_option autoImplicit false

/-! # Two watched entries

A pair of optional slots over a list without duplicates: the slots hold distinct entries of the
list, two if it has them. The entries leave the list one at a time; a watched entry that leaves is
replaced by the first that is not watched yet. -/

namespace Watched

variable {α : Type*}

/-- `watched` is a set of entries of `available`, as many as there are up to two. -/
structure Watches (available watched : List α) : Prop where
  nodup : watched.Nodup
  subset : watched ⊆ available
  length : watched.length = min 2 available.length

theorem Watches.perm {available watched watched' : List α} (h : Watches available watched)
    (hp : watched.Perm watched') : Watches available watched' :=
  ⟨hp.nodup_iff.mp h.nodup, fun _ hx => h.subset (hp.mem_iff.mpr hx), hp.length_eq ▸ h.length⟩

/-- The first two entries. -/
theorem watches_first {available : List α} (hn : available.Nodup) :
    Watches available ((available[0]?).toList ++ (available[1]?).toList) := by
  rcases available with _ | ⟨x, _ | ⟨y, rest⟩⟩
  · exact ⟨List.nodup_nil, List.Subset.refl _, rfl⟩
  · exact ⟨hn, List.Subset.refl _, rfl⟩
  · refine ⟨hn.sublist (List.sublist_append_left [x, y] rest), ?_, ?_⟩
    · exact fun z hz => List.mem_append_left rest hz
    · simp

section Leave

variable [DecidableEq α] {available : List α} {v : α}

/-- The entries that are left when `v` leaves. -/
def without (available : List α) (v : α) : List α := available.filter (fun x => x ≠ v)

theorem mem_without {x : α} : x ∈ without available v ↔ x ∈ available ∧ x ≠ v := by
  simp [without]

theorem nodup_without (hn : available.Nodup) : (without available v).Nodup :=
  hn.filter _

theorem length_without (hn : available.Nodup) (hv : v ∈ available) :
    (without available v).length + 1 = available.length := by
  have herase : without available v = available.erase v := by
    rw [hn.erase_eq_filter, without]
    congr 1
    funext x
    by_cases hx : x = v <;> simp [hx]
  have hpos := List.length_pos_of_mem hv
  rw [herase, List.length_erase_of_mem hv]
  omega

/-- An entry that is not watched leaves. -/
theorem Watches.leave {watched : List α} (h : Watches available watched) (hn : available.Nodup)
    (hv : v ∈ available) (hw : v ∉ watched) : Watches (without available v) watched := by
  have hsub : watched ⊆ without available v := by
    intro x hx
    exact mem_without.mpr ⟨h.subset hx, fun heq => hw (heq ▸ hx)⟩
  have hlen := (List.subperm_of_subset h.nodup hsub).length_le
  have hwithout := length_without hn hv
  have hwatched := h.length
  exact ⟨h.nodup, hsub, by omega⟩

/-- The first entry that the other slot does not watch. -/
def refill (available : List α) (other : Option α) : Option α :=
  available.find? (fun x => some x ≠ other)

theorem watches_refill {other : Option α} (h : Watches available (v :: other.toList))
    (hn : available.Nodup) :
    Watches (without available v) ((refill (without available v) other).toList ++ other.toList) := by
  have hv : v ∈ available := h.subset List.mem_cons_self
  have hwithout := length_without hn hv
  have hwatched := h.length
  rcases other with _ | w
  · -- `v` was the only entry
    have hnil : without available v = [] := List.eq_nil_of_length_eq_zero (by
      simp only [Option.toList_none, List.length_cons, List.length_nil] at hwatched
      omega)
    rw [hnil]
    exact ⟨List.nodup_nil, List.Subset.refl _, rfl⟩
  have hne : w ≠ v := fun heq => (List.nodup_cons.mp h.nodup).1 (by simp [heq])
  have hw : w ∈ without available v :=
    mem_without.mpr ⟨h.subset (List.mem_cons_of_mem v (by simp)), hne⟩
  rcases hfind : refill (without available v) (some w) with _ | u
  · -- no entry but `w` is left
    have hall : ∀ x ∈ without available v, x = w := by
      intro x hx
      have hx' := List.find?_eq_none.mp hfind x hx
      simpa using hx'
    have hle := (List.subperm_of_subset (nodup_without hn) (fun x hx => by
      rw [hall x hx]; exact List.mem_singleton_self w)).length_le
    have hpos := List.length_pos_of_mem hw
    rw [List.length_singleton] at hle
    refine ⟨List.nodup_singleton w, fun x hx => ?_, ?_⟩
    · rw [List.mem_singleton.mp hx]
      exact hw
    · show 1 = _
      omega
  · have hu : u ∈ without available v := List.mem_of_find?_eq_some hfind
    have huw : u ≠ w := by
      have hu' := List.find?_some hfind
      simpa using hu'
    have hnodup : [u, w].Nodup := by simp [huw]
    have hsub : [u, w] ⊆ without available v := by
      intro x hx
      rcases List.mem_pair.mp hx with rfl | rfl
      · exact hu
      · exact hw
    have hle := (List.subperm_of_subset hnodup hsub).length_le
    refine ⟨hnodup, hsub, ?_⟩
    show 2 = _
    have htwo : [u, w].length = 2 := rfl
    omega

end Leave

end Watched
