/-
# Shuffles

Components that append to one common list shuffle what each of them appends: the common list holds
the items of all components, and those of one component stay in their order. Components may be
added on the way.
-/

import Flashlight.Math.Interleaving

namespace Flashlight.Math

open scoped List

variable {α β : Type*}

/-- The second list shuffles the lists of the first one. -/
inductive Shuffle : List (List α) → List α → Prop
  | nil : Shuffle [] []
  | start {parts : List (List α)} {whole : List α} (h : Shuffle parts whole) :
      Shuffle (parts ++ [[]]) whole
  | next {parts : List (List α)} {whole part : List α} {t : ℕ} (h : Shuffle parts whole)
      (hpart : parts[t]? = some part) (x : α) :
      Shuffle (parts.set t (part ++ [x])) (whole ++ [x])

namespace Shuffle

variable {parts : List (List α)} {whole part : List α}

/-- Nothing is lost and nothing is added. -/
theorem perm (h : Shuffle parts whole) : whole ~ parts.flatten := by
  induction h with
  | nil => exact .refl _
  | start _ ih => simpa using ih
  | @next parts whole part t _ hpart x ih =>
      have hset : ((parts.set t (part ++ [x])).flatMap id).Perm (parts.flatMap id ++ [x]) :=
        flatMap_set_perm hpart rfl
      simp only [List.flatMap_id] at hset
      exact (ih.append_right [x]).trans hset.symm

/-- The order of a component is kept. -/
theorem sublist (h : Shuffle parts whole) (hpart : part ∈ parts) : part <+ whole := by
  induction h generalizing part with
  | nil => simp at hpart
  | start _ ih =>
      rcases List.mem_append.mp hpart with hpart | hpart
      · exact ih hpart
      · rw [List.mem_singleton.mp hpart]
        exact List.nil_sublist _
  | @next parts whole here t _ hhere x ih =>
      rcases List.mem_or_eq_of_mem_set hpart with hpart | rfl
      · exact (ih hpart).trans (List.sublist_append_left _ _)
      · have hold : here ∈ parts := List.mem_of_getElem? hhere
        exact (ih hold).append (.refl _)

/-- One component is alone with its order. -/
theorem eq_of_singleton (h : Shuffle [part] whole) : whole = part := by
  have hlength := h.perm.length_eq
  rw [List.flatten_singleton] at hlength
  exact ((h.sublist (List.mem_singleton.mpr rfl)).eq_of_length hlength.symm).symm

theorem map (h : Shuffle parts whole) (f : α → β) :
    Shuffle (parts.map (List.map f)) (whole.map f) := by
  induction h with
  | nil => exact .nil
  | start _ ih => simpa using ih.start
  | @next parts whole part t _ hpart x ih =>
      have hmap : (parts.map (List.map f))[t]? = some (part.map f) := by
        rw [List.getElem?_map, hpart, Option.map_some]
      simpa only [List.map_set, List.map_append, List.map_cons, List.map_nil] using
        ih.next hmap (f x)

end Shuffle

end Flashlight.Math
