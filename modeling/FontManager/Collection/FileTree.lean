import Mathlib.Data.List.Basic
import Mathlib.Data.List.Infix

abbrev FileTree (ν ε : Type) := List (List ν × ε)

namespace FileTree

variable {ν ε : Type} [DecidableEq ν] {t : FileTree ν ε} {root loc : List ν} {e : ε}

def lookup (t : FileTree ν ε) (loc : List ν) : Option ε := (t.find? fun x => x.1 = loc).map (·.2)

def keep (p : List ν → Bool) (t : FileTree ν ε) : FileTree ν ε := t.filter fun x => p x.1

def put (loc : List ν) (e : ε) (t : FileTree ν ε) : FileTree ν ε :=
  (loc, e) :: keep (fun l => !decide (l = loc)) t

def under (loc l : List ν) : Bool := loc.isPrefixOf l

def prune (loc : List ν) (t : FileTree ν ε) : FileTree ν ε := keep (fun l => !under loc l) t

def children (loc : List ν) (t : FileTree ν ε) : List (ν × ε) :=
  t.filterMap fun x => if x.1.dropLast = loc then x.1.getLast?.map (·, x.2) else none

@[simp] theorem under_iff {l : List ν} : under loc l = true ↔ loc <+: l :=
  List.isPrefixOf_iff_prefix

theorem prefix_of_eq {α : Type} {k l : List α} (h : k = l) : k <+: l := h ▸ List.prefix_rfl

theorem lookup_cons (x : List ν × ε) :
    lookup (x :: t) loc = if x.1 = loc then some x.2 else lookup t loc := by
  by_cases h : x.1 = loc <;> simp [lookup, h]

theorem lookup_keep (p : List ν → Bool) :
    lookup (keep p t) loc = if p loc then lookup t loc else none := by
  induction t with
  | nil => simp [keep, lookup]
  | cons x t ih =>
    by_cases hp : p x.1 = true
    · have hkeep : keep p (x :: t) = x :: keep p t := List.filter_cons_of_pos hp
      rw [hkeep, lookup_cons, lookup_cons, ih]
      by_cases hx : x.1 = loc
      · simp [hx, hx ▸ hp]
      · simp [hx]
    · have hkeep : keep p (x :: t) = keep p t := List.filter_cons_of_neg hp
      rw [hkeep, lookup_cons, ih]
      by_cases hx : x.1 = loc
      · simp [← hx, hp]
      · simp [hx]

@[simp] theorem lookup_put_self : lookup (put loc e t) loc = some e := by
  simp [put, lookup_cons]

theorem lookup_put_ne (h : root ≠ loc) : lookup (put root e t) loc = lookup t loc := by
  simp [put, lookup_cons, lookup_keep, h, h.symm]

theorem lookup_prune : lookup (prune root t) loc = if root <+: loc then none else lookup t loc := by
  have hu : under root loc = decide (root <+: loc) := Bool.eq_iff_iff.mpr (by simp)
  by_cases h : root <+: loc <;> simp [prune, lookup_keep, hu, h]

theorem lookup_prune_of_not_under (h : ¬ root <+: loc) : lookup (prune root t) loc = lookup t loc := by
  simp [lookup_prune, h]

theorem lookup_below (h : ∀ x ∈ t, ¬ root <+: x.1) (hl : root <+: loc) : lookup t loc = none := by
  have hnone : ∀ x ∈ t, ¬ decide (x.1 = loc) = true := fun x hx he =>
    h x hx (of_decide_eq_true he ▸ hl)
  rw [lookup, List.find?_eq_none.mpr hnone, Option.map_none]

def Unique (t : FileTree ν ε) : Prop := (t.map (·.1)).Nodup

instance (t : FileTree ν ε) : Decidable (Unique t) := inferInstanceAs (Decidable (List.Nodup _))

omit [DecidableEq ν] in
theorem Unique.keep (h : Unique t) (p : List ν → Bool) : Unique (keep p t) :=
  h.sublist (List.filter_sublist.map _)

theorem Unique.prune (h : Unique t) (loc : List ν) : Unique (prune loc t) := h.keep _

theorem Unique.put (h : Unique t) (loc : List ν) (e : ε) : Unique (put loc e t) := by
  refine List.nodup_cons.mpr ⟨fun hmem => ?_, h.keep _⟩
  obtain ⟨x, hx, he⟩ := List.mem_map.mp hmem
  simpa [he] using (List.mem_filter.mp hx).2

theorem mem_of_lookup (h : lookup t loc = some e) : (loc, e) ∈ t := by
  obtain ⟨x, hx, rfl⟩ := Option.map_eq_some_iff.mp h
  have hloc : x.1 = loc := by simpa using List.find?_some hx
  exact hloc ▸ List.mem_of_find?_eq_some hx

theorem isSome_lookup_of_mem {x : List ν × ε} (hx : x ∈ t) : (lookup t x.1).isSome = true := by
  rw [lookup, Option.isSome_map, List.find?_isSome]
  exact ⟨x, hx, decide_eq_true rfl⟩

omit [DecidableEq ν] in
theorem append_of_dropLast {l : List ν} {c : ν} (h : l.dropLast = loc) (hc : l.getLast? = some c) :
    l = loc ++ [c] := by
  subst h
  exact (List.dropLast_append_getLast? c hc).symm

theorem mem_of_children {c : ν} (h : (c, e) ∈ children loc t) : (loc ++ [c], e) ∈ t := by
  obtain ⟨⟨l, e'⟩, hx, hchild⟩ := List.mem_filterMap.mp h
  split at hchild
  · next hloc =>
    obtain ⟨d, hlast, heq⟩ := Option.map_eq_some_iff.mp hchild
    obtain ⟨rfl, rfl⟩ := Prod.mk.inj heq
    exact append_of_dropLast hloc hlast ▸ hx
  · cases hchild

theorem lookup_of_mem (h : Unique t) (hx : (loc, e) ∈ t) : lookup t loc = some e := by
  induction t with
  | nil => cases hx
  | cons y t ih =>
    obtain ⟨hy, ht⟩ := List.nodup_cons.mp h
    rw [lookup_cons]
    rcases List.mem_cons.mp hx with rfl | hx
    · simp
    · rw [if_neg fun he => hy (List.mem_map.mpr ⟨_, hx, he.symm⟩), ih ht hx]

end FileTree
