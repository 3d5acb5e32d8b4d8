import FontManager.Interaction.Program
import Mathlib.Logic.Hydra

namespace Interaction

section hydra

open Relation

variable {α β : Type} {r : α → α → Prop} {l : List β} {i : Nat} {b : β}

theorem map_set_add (f : β → α) (b' : β) (h : l[i]? = some b) :
    (((l.set i b').map f : List α) : Multiset α) + {f b} = (l.map f : List α) + {f b'} := by
  obtain ⟨hi, rfl⟩ := List.getElem?_eq_some_iff.mp h
  have hset : (((l.set i b').map f : List α) : Multiset α) = f b' ::ₘ ((l.eraseIdx i).map f : List α) :=
    Multiset.coe_eq_coe.mpr ((List.set_perm_cons_eraseIdx hi b').map f)
  have hsame : ((l.map f : List α) : Multiset α) = f l[i] ::ₘ ((l.eraseIdx i).map f : List α) :=
    Multiset.coe_eq_coe.mpr ((List.getElem_cons_eraseIdx_perm hi).symm.map f)
  rw [hset, hsame, ← Multiset.singleton_add, ← Multiset.singleton_add, add_assoc, add_assoc]
  rw [add_comm {f l[i]}, add_comm {f b'}, add_assoc, add_assoc, add_comm {f l[i]}]

theorem map_eraseIdx_add (f : β → α) (h : l[i]? = some b) :
    (((l.eraseIdx i).map f : List α) : Multiset α) + {f b} = (l.map f : List α) := by
  obtain ⟨hi, rfl⟩ := List.getElem?_eq_some_iff.mp h
  have hsame : ((l.map f : List α) : Multiset α) = f l[i] ::ₘ ((l.eraseIdx i).map f : List α) :=
    Multiset.coe_eq_coe.mpr ((List.getElem_cons_eraseIdx_perm hi).symm.map f)
  rw [hsame, ← Multiset.singleton_add, add_comm]

theorem reflTransGen_of_le {s t : Multiset α} (h : s ≤ t) :
    ReflTransGen (CutExpand r) s t := by
  obtain ⟨u, rfl⟩ := Multiset.le_iff_exists_add.mp h
  induction u using Multiset.induction with
  | empty =>
    rw [add_zero]
  | cons a u ih =>
    have hcut : CutExpand r (s + u) (s + a ::ₘ u) := by
      refine ⟨0, a, by simp, ?_⟩
      rw [add_zero, ← Multiset.singleton_add, add_comm {a} u, add_assoc]
    exact (ih (Multiset.le_add_right s u)).tail hcut

theorem transGen_of_le {s t u : Multiset α} (h : s ≤ t) (ht : CutExpand r t u) :
    TransGen (CutExpand r) s u := TransGen.tail' (reflTransGen_of_le h) ht

end hydra

namespace Program

variable {P : PFunctor.{0, 0}} {α : Type}

inductive Child : Program P α → Program P α → Prop
  | answer (o : P.A) (k : P.B o → Program P α) (r : P.B o) : Child (k r) (.call o k)

theorem wellFounded_child : WellFounded (Child : Program P α → Program P α → Prop) := by
  constructor
  intro p
  induction p with
  | done a =>
    constructor
    intro q hq
    cases hq
  | call o k ih =>
    constructor
    intro q hq
    cases hq with
    | answer o k r => exact ih r

end Program

end Interaction
