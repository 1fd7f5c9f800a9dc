import Mathlib

/-! Maps that keep their keys in insertion order; setting a known key keeps its place. -/
namespace GajaeCode.Data
open List

variable {κ ν : Type*} [DecidableEq κ]

def assocSet (key : κ) (value : ν) : List (κ × ν) → List (κ × ν)
  | [] => [(key, value)]
  | entry :: rest =>
    if entry.1 = key then (key, value) :: rest else entry :: assocSet key value rest

/-- A new key is put at the end, and a known one keeps its place. -/
theorem assocSet_cases (key : κ) (value : ν) (map : List (κ × ν)) :
    (key ∉ map.map Prod.fst ∧ assocSet key value map = map ++ [(key, value)]) ∨
      ∃ before old after, key ∉ before.map Prod.fst ∧ map = before ++ (key, old) :: after ∧
        assocSet key value map = before ++ (key, value) :: after := by
  induction map with
  | nil => exact .inl ⟨not_mem_nil, rfl⟩
  | cons entry rest ih =>
    obtain ⟨k, v⟩ := entry
    by_cases hkey : k = key
    · subst hkey
      exact .inr ⟨[], v, rest, not_mem_nil, rfl, if_pos rfl⟩
    · rw [assocSet, if_neg hkey]
      rcases ih with ⟨hnew, heq⟩ | ⟨before, old, after, hbefore, rfl, heq⟩
      · exact .inl ⟨by simpa [Ne.symm hkey] using hnew, by rw [heq]; rfl⟩
      · exact .inr ⟨(k, v) :: before, old, after, by simpa [Ne.symm hkey] using hbefore, rfl, by rw [heq]; rfl⟩

section

variable {key : κ} {value : ν} {map : List (κ × ν)} {entry : κ × ν}

omit [DecidableEq κ] in
theorem isSome_lookup_iff [BEq κ] [LawfulBEq κ] : (map.lookup key).isSome = true ↔ key ∈ map.map Prod.fst := by
  simp only [lookup_isSome_iff, beq_iff_eq, mem_map, @eq_comm _ key]

omit [DecidableEq κ] in
theorem lookup_eq_none_of_notMem [BEq κ] [LawfulBEq κ] (h : key ∉ map.map Prod.fst) : map.lookup key = none :=
  Option.not_isSome_iff_eq_none.mp (mt isSome_lookup_iff.mp h)

omit [DecidableEq κ] in
theorem lookup_of_mem [BEq κ] [LawfulBEq κ] (hnodup : (map.map Prod.fst).Nodup) (h : entry ∈ map) :
    map.lookup entry.1 = some entry.2 := by
  obtain ⟨before, after, rfl⟩ := append_of_mem h
  rw [map_append, map_cons, nodup_middle, nodup_cons, mem_append, not_or] at hnodup
  rw [lookup_append, lookup_eq_none_of_notMem hnodup.1.1, lookup_cons, beq_self_eq_true]
  rfl

omit [DecidableEq κ] in
theorem mem_of_lookup [BEq κ] [LawfulBEq κ] (h : map.lookup key = some value) : (key, value) ∈ map := by
  obtain ⟨before, after, heq, _⟩ := lookup_eq_some_iff.mp h
  simp [heq]

theorem lookup_assocSet [BEq κ] [LawfulBEq κ] (key : κ) (value : ν) (map : List (κ × ν)) (k : κ) :
    (assocSet key value map).lookup k = if k = key then some value else map.lookup k := by
  rcases assocSet_cases key value map with ⟨hnew, heq⟩ | ⟨before, old, after, hbefore, rfl, heq⟩
  · by_cases hk : k = key
    · simp [heq, hk, lookup_append, lookup_eq_none_of_notMem hnew]
    · simp [heq, hk, lookup_append, lookup_cons, beq_false_of_ne hk]
  · by_cases hk : k = key
    · simp [heq, hk, lookup_append, lookup_eq_none_of_notMem hbefore]
    · simp [heq, hk, lookup_append, lookup_cons, beq_false_of_ne hk]

theorem mem_keys_assocSet (key : κ) (value : ν) (map : List (κ × ν)) (k : κ) :
    k ∈ (assocSet key value map).map Prod.fst ↔ k = key ∨ k ∈ map.map Prod.fst := by
  rcases assocSet_cases key value map with ⟨hnew, heq⟩ | ⟨before, old, after, hbefore, rfl, heq⟩
  · simp [heq, or_comm]
  · simp [heq, or_left_comm]

theorem mem_assocSet (h : entry ∈ assocSet key value map) : entry = (key, value) ∨ entry ∈ map := by
  rcases assocSet_cases key value map with ⟨hnew, heq⟩ | ⟨before, old, after, hbefore, rfl, heq⟩
  all_goals
    rw [heq] at h
    simp at h ⊢
    tauto

theorem map_fst_assocSet_of_mem (h : key ∈ map.map Prod.fst) (value : ν) :
    (assocSet key value map).map Prod.fst = map.map Prod.fst := by
  rcases assocSet_cases key value map with ⟨hnew, heq⟩ | ⟨before, old, after, hbefore, rfl, heq⟩
  · exact absurd h hnew
  · simp [heq]

theorem nodup_keys_assocSet (key : κ) (value : ν) (h : (map.map Prod.fst).Nodup) :
    ((assocSet key value map).map Prod.fst).Nodup := by
  by_cases hkey : key ∈ map.map Prod.fst
  · rwa [map_fst_assocSet_of_mem hkey]
  · rcases assocSet_cases key value map with ⟨hnew, heq⟩ | ⟨before, old, after, hbefore, rfl, heq⟩
    · rw [heq, map_append, map_singleton, ← concat_eq_append]
      exact Nodup.concat hnew h
    · exact absurd (by simp) hkey

theorem mem_assocSet_of_nodup (hnodup : (map.map Prod.fst).Nodup)
    (h : entry ∈ assocSet key value map) : entry = (key, value) ∨ entry ∈ map ∧ entry.1 ≠ key := by
  by_cases hkey : entry.1 = key
  · have hset := lookup_of_mem (nodup_keys_assocSet key value hnodup) h
    rw [lookup_assocSet, if_pos hkey] at hset
    exact .inl (Prod.ext hkey (Option.some.inj hset).symm)
  · refine .inr ⟨(mem_assocSet h).resolve_left fun heq => hkey (congrArg Prod.fst heq), hkey⟩

theorem assocSet_of_lookup_none [BEq κ] [LawfulBEq κ] (h : map.lookup key = none) (value : ν) :
    assocSet key value map = map ++ [(key, value)] := by
  rcases assocSet_cases key value map with ⟨-, heq⟩ | ⟨before, old, after, -, rfl, -⟩
  · exact heq
  · simp [lookup_append] at h

theorem length_assocSet_le (key : κ) (value : ν) (map : List (κ × ν)) :
    (assocSet key value map).length ≤ map.length + 1 := by
  rcases assocSet_cases key value map with ⟨-, heq⟩ | ⟨before, old, after, -, rfl, heq⟩ <;> simp [heq]

theorem countP_assocSet_le (p : κ × ν → Bool) (key : κ) (value : ν) (map : List (κ × ν)) :
    (assocSet key value map).countP p ≤ if p (key, value) then map.countP p + 1 else map.countP p := by
  rcases assocSet_cases key value map with ⟨-, heq⟩ | ⟨before, old, after, -, rfl, heq⟩
  all_goals
    simp only [heq, countP_append, countP_cons, countP_nil]
    split_ifs <;> omega

end

theorem lookup_filter_keys [BEq κ] [LawfulBEq κ] (keep : κ → Bool) (key : κ) (map : List (κ × ν)) :
    (map.filter fun entry => keep entry.1).lookup key = if keep key then map.lookup key else none := by
  induction map with
  | nil => simp
  | cons first rest ih =>
    rw [filter_cons, lookup_cons]
    by_cases heq : key = first.1
    · subst heq
      rw [beq_self_eq_true]
      split
      next hkeep => rw [lookup_cons, beq_self_eq_true]
      next hkeep => rw [ih, if_neg hkeep]
    · rw [beq_false_of_ne heq]
      split
      next => rw [lookup_cons, beq_false_of_ne heq, ih]
      next => exact ih

end GajaeCode.Data
