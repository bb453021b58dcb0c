import Garnet.Object.Dict
import Mathlib.Data.List.Nodup

/-!
# Entries of a dictionary

What replacing a value does to the entries and to the names of a dictionary.
-/

namespace Garnet.Dict

variable {α : Type} {d : Dict α} {name : String} {value : α}

theorem mem_of_get? (h : d.get? name = some value) : (name, value) ∈ d.entries := by
  obtain ⟨before, after, hd, _⟩ := List.lookup_eq_some_iff.mp h
  rw [hd]
  exact List.mem_append_right _ List.mem_cons_self

theorem mem_keys_iff : name ∈ d.keys ↔ ∃ v, d.get? name = some v := by
  rw [← Option.isSome_iff_exists, get?, List.lookup_isSome_iff, keys, List.mem_map]
  simp only [beq_iff_eq, eq_comm (a := name)]

theorem forall_put {P : α → Prop} (hvalue : P value) {es : List (String × α)}
    (h : ∀ x ∈ es, P x.2) : ∀ x ∈ put name value es, P x.2 := by
  induction es with
  | nil => exact List.forall_mem_singleton.mpr hvalue
  | cons e es ih =>
    obtain ⟨he, hes⟩ := List.forall_mem_cons.mp h
    unfold put
    split
    · exact List.forall_mem_cons.mpr ⟨hvalue, hes⟩
    · exact List.forall_mem_cons.mpr ⟨he, ih hes⟩

theorem mem_map_put {n : String} {es : List (String × α)} :
    n ∈ (put name value es).map (·.1) ↔ n = name ∨ n ∈ es.map (·.1) := by
  induction es with
  | nil => simp [put]
  | cons e es ih =>
    rw [put]
    split
    · rename_i he
      simp only [List.map_cons, List.mem_cons, eq_of_beq he]
      tauto
    · simp only [List.map_cons, List.mem_cons, ih]
      tauto

theorem keys_insert_nodup (h : d.keys.Nodup) : (d.insert name value).keys.Nodup := by
  obtain ⟨es⟩ := d
  simp only [keys, insert] at h ⊢
  induction es with
  | nil => simp [put]
  | cons e es ih =>
    rw [List.map_cons, List.nodup_cons] at h
    rw [put]
    split
    · rename_i he
      rw [List.map_cons, List.nodup_cons]
      exact h
    · rename_i he
      rw [List.map_cons, List.nodup_cons, mem_map_put]
      refine ⟨?_, ih h.2⟩
      rintro (heq | hmem)
      · exact he (beq_iff_eq.mpr heq)
      · exact h.1 hmem

end Garnet.Dict
