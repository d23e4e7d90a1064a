/-
  Hash maps: association lists without repeated keys.

  The entries of a map after `insert` and `erase`, and `retain`.
-/
import Mathlib.Data.List.AList

namespace MinaRust

open AList

abbrev HashMap (K V : Type) : Type := AList fun _ : K => V

variable {K V : Type}

theorem mem_entries_insert [DecidableEq K] {m : HashMap K V} {k : K} {v : V} {e : Sigma fun _ : K => V}
    (h : e ∈ (m.insert k v).entries) : e = ⟨k, v⟩ ∨ e ∈ m.entries := by
  rw [entries_insert, List.mem_cons] at h
  exact h.imp_right fun h => (List.kerase_sublist k m.entries).subset h

theorem mem_entries_insert_of_ne [DecidableEq K] {m : HashMap K V} {k : K} {v : V} {e : Sigma fun _ : K => V}
    (he : e ∈ m.entries) (ne : e.1 ≠ k) : e ∈ (m.insert k v).entries := by
  have : (m.insert k v).lookup e.1 = some e.2 := by
    rw [lookup_insert_ne ne]
    exact mem_lookup_iff.2 he
  exact mem_lookup_iff.1 this

theorem mem_entries_erase [DecidableEq K] {m : HashMap K V} {k : K} {e : Sigma fun _ : K => V}
    (h : e ∈ (m.erase k).entries) : e ∈ m.entries :=
  (List.kerase_sublist k m.entries).subset h

theorem mem_entries_erase_of_ne [DecidableEq K] {m : HashMap K V} {k : K} {e : Sigma fun _ : K => V}
    (he : e ∈ m.entries) (ne : e.1 ≠ k) : e ∈ (m.erase k).entries := by
  have : (m.erase k).lookup e.1 = some e.2 := by
    rw [lookup_erase_ne ne]
    exact mem_lookup_iff.2 he
  exact mem_lookup_iff.1 this

def HashMap.retain {K V : Type} (keep : K → V → Bool) (m : HashMap K V) : HashMap K V :=
  ⟨m.entries.filter fun e => keep e.1 e.2, m.nodupKeys.sublist List.filter_sublist⟩

end MinaRust
