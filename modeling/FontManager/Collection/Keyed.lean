import Mathlib.Data.List.Basic
import Mathlib.Data.List.Pairwise

namespace KeyedList

variable {α κ : Type} {keys : α → List κ} {l : List α} {a b : α} {k : κ}

def Apart (keys : α → List κ) (l : List α) : Prop := l.Pairwise fun a b => ∀ k ∈ keys a, k ∉ keys b

instance [DecidableEq κ] (keys : α → List κ) (l : List α) : Decidable (Apart keys l) :=
  inferInstanceAs (Decidable (l.Pairwise _))

theorem apart_map {β : Type} {f : β → α} {l : List β} :
    Apart keys (l.map f) ↔ Apart (fun b => keys (f b)) l := List.pairwise_map

theorem Apart.mono {keys' : α → List κ} (h : Apart keys l)
    (hk : ∀ a ∈ l, ∀ k ∈ keys' a, k ∈ keys a) : Apart keys' l :=
  List.Pairwise.imp_of_mem (fun ha hb hab k hka hkb => hab k (hk _ ha k hka) (hk _ hb k hkb)) h

theorem apart_nil : Apart keys ([] : List α) := List.Pairwise.nil

theorem Apart.sublist {m : List α} (h : Apart keys l) (hm : m.Sublist l) : Apart keys m :=
  List.Pairwise.sublist hm h

theorem apart_append_singleton :
    Apart keys (l ++ [a]) ↔ Apart keys l ∧ ∀ b ∈ l, ∀ k ∈ keys b, k ∉ keys a := by
  simp [Apart, List.pairwise_append]

theorem Apart.others {front back : List α} {b : α} (h : Apart keys (front ++ a :: back))
    (hb : b ∈ front ++ back) (hk : k ∈ keys a) : k ∉ keys b := by
  obtain ⟨-, hback, hfront⟩ := List.pairwise_append.mp h
  rcases List.mem_append.mp hb with hb | hb
  · exact fun hkb => hfront b hb a List.mem_cons_self k hkb hk
  · exact (List.pairwise_cons.mp hback).1 b hb k hk

theorem Apart.eq_of_mem (h : Apart keys l) (ha : a ∈ l) (hb : b ∈ l) (hka : k ∈ keys a)
    (hkb : k ∈ keys b) : a = b := by
  induction l with
  | nil => cases ha
  | cons c l ih =>
    obtain ⟨hc, hl⟩ := List.pairwise_cons.mp h
    rcases List.mem_cons.mp ha with rfl | ha' <;> rcases List.mem_cons.mp hb with rfl | hb'
    · rfl
    · exact absurd hkb (hc b hb' k hka)
    · exact absurd hka (hc a ha' k hkb)
    · exact ih hl ha' hb'

variable [DecidableEq κ]

def has (keys : α → List κ) (k : κ) (a : α) : Bool := decide (k ∈ keys a)

@[simp] theorem has_iff : has keys k a = true ↔ k ∈ keys a := by
  simp [has]

@[simp] theorem has_eq_false : has keys k a = false ↔ k ∉ keys a := by
  simp [has]

theorem find_has_some (h : l.find? (has keys k) = some a) : a ∈ l ∧ k ∈ keys a :=
  ⟨List.mem_of_find?_eq_some h, by simpa using List.find?_some h⟩

theorem find_has_none : l.find? (has keys k) = none ↔ ∀ a ∈ l, k ∉ keys a := by
  simp [List.find?_eq_none]

theorem Apart.eraseP_eq_filter (h : Apart keys l) :
    l.eraseP (has keys k) = l.filter fun a => !has keys k a := by
  induction l with
  | nil => rfl
  | cons c l ih =>
    obtain ⟨hc, hl⟩ := List.pairwise_cons.mp h
    by_cases hk : k ∈ keys c
    · have hrest : l.filter (fun a => !has keys k a) = l :=
        List.filter_eq_self.mpr fun b hb => by simpa using hc b hb k hk
      rw [List.eraseP_cons_of_pos (by simpa using hk),
        List.filter_cons_of_neg (by simpa using hk), hrest]
    · rw [List.eraseP_cons_of_neg (by simpa using hk),
        List.filter_cons_of_pos (by simpa using hk), ih hl]

theorem Apart.mem_eraseP (h : Apart keys l) :
    a ∈ l.eraseP (has keys k) ↔ a ∈ l ∧ k ∉ keys a := by
  rw [h.eraseP_eq_filter, List.mem_filter]
  simp

-- What is left after some elements with the property went.
inductive Loses (p : α → Prop) : List α → List α → Prop
  | nil : Loses p [] []
  | keep (a : α) {l m : List α} (h : Loses p l m) : Loses p (a :: l) (a :: m)
  | drop {a : α} {l m : List α} (ha : p a) (h : Loses p l m) : Loses p (a :: l) m

namespace Loses

variable {p : α → Prop} {m n : List α}

theorem refl (l : List α) : Loses p l l := by
  induction l with
  | nil => exact .nil
  | cons a l ih => exact .keep a ih

theorem trans (h : Loses p l m) (h' : Loses p m n) : Loses p l n := by
  induction h generalizing n with
  | nil => exact h'
  | keep a _ ih =>
    cases h' with
    | keep _ h' => exact .keep a (ih h')
    | drop ha h' => exact .drop ha (ih h')
  | drop ha _ ih => exact .drop ha (ih h')

theorem map {β : Type} {f : α → β} {q : β → Prop} (h : Loses p l m) (hf : ∀ a ∈ l, p a → q (f a)) :
    Loses q (l.map f) (m.map f) := by
  induction h with
  | nil => exact .nil
  | keep a _ ih => exact .keep _ (ih fun b hb => hf b (List.mem_cons_of_mem a hb))
  | drop ha _ ih =>
    exact .drop (hf _ List.mem_cons_self ha) (ih fun b hb => hf b (List.mem_cons_of_mem _ hb))

theorem eraseP {r : α → Bool} (h : ∀ a ∈ l, r a = true → p a) : Loses p l (l.eraseP r) := by
  induction l with
  | nil => exact .nil
  | cons a l ih =>
    by_cases hr : r a = true
    · rw [List.eraseP_cons_of_pos hr]
      exact .drop (h a List.mem_cons_self hr) (refl l)
    · rw [List.eraseP_cons_of_neg hr]
      exact .keep a (ih fun b hb => h b (List.mem_cons_of_mem a hb))

end Loses

def eraseAll (keys : α → List κ) (ks : List κ) (l : List α) : List α :=
  ks.foldl (fun l k => l.eraseP (has keys k)) l

theorem eraseAll_sublist (ks : List κ) (l : List α) : (eraseAll keys ks l).Sublist l := by
  induction ks generalizing l with
  | nil => exact List.Sublist.refl l
  | cons k ks ih => exact (ih _).trans List.eraseP_sublist

theorem eraseAll_cons_of_disjoint {ks : List κ} (h : ∀ k ∈ ks, k ∉ keys a) (l : List α) :
    eraseAll keys ks (a :: l) = a :: eraseAll keys ks l := by
  induction ks generalizing l with
  | nil => rfl
  | cons k ks ih =>
    obtain ⟨hk, hks⟩ := List.forall_mem_cons.mp h
    simp only [eraseAll, List.foldl_cons]
    rw [List.eraseP_cons_of_neg (by simpa using hk)]
    exact ih hks _

theorem eraseAll_cons_of_mem {ks : List κ} (h : ∃ k ∈ ks, k ∈ keys a) (l : List α) :
    (eraseAll keys ks (a :: l)).Sublist l := by
  induction ks generalizing l with
  | nil => simp at h
  | cons k ks ih =>
    by_cases hk : k ∈ keys a
    · simp only [eraseAll, List.foldl_cons]
      rw [List.eraseP_cons_of_pos (by simpa using hk)]
      exact eraseAll_sublist ks l
    · have hks : ∃ k ∈ ks, k ∈ keys a := by simpa [hk] using h
      simp only [eraseAll, List.foldl_cons]
      rw [List.eraseP_cons_of_neg (by simpa using hk)]
      exact (ih hks _).trans List.eraseP_sublist

theorem not_sublist_cons_filter {p : α → Bool} (ha : p a = true) (l : List α) :
    ¬ (a :: l.filter p).Sublist l := by
  intro h
  have hc := h.countP_le (p := p)
  have hself : (l.filter p).countP p = l.countP p := by simp [List.countP_filter]
  rw [List.countP_cons_of_pos ha, hself] at hc
  omega

theorem eraseAll_eq_filter_iff {p : α → Bool} {key : α → κ}
    (hkey : ∀ a, ∀ k ∈ keys a, k = key a) (l : List α) :
    eraseAll keys ((l.filter p).map key) l = l.filter (fun a => !p a) ↔
      (∀ a ∈ l, p a = true → key a ∈ keys a) ∧
        l.Pairwise fun a b => p b = true → key b ∈ keys a → p a = true := by
  induction l with
  | nil => simp [eraseAll]
  | cons a l ih =>
    rw [List.forall_mem_cons, List.pairwise_cons]
    by_cases hp : p a = true
    · rw [List.filter_cons_of_pos hp, List.map_cons, List.filter_cons_of_neg (by simp [hp])]
      by_cases hk : key a ∈ keys a
      · have herase : eraseAll keys (key a :: (l.filter p).map key) (a :: l) =
            eraseAll keys ((l.filter p).map key) l := by
          simp only [eraseAll, List.foldl_cons]
          rw [List.eraseP_cons_of_pos (by simpa using hk)]
        rw [herase, ih]
        simp [hp, hk]
      · have hfree : ∀ k ∈ key a :: (l.filter p).map key, k ∉ keys a := fun k _ hka =>
          hk (hkey a k hka ▸ hka)
        rw [eraseAll_cons_of_disjoint hfree]
        refine ⟨fun h => ?_, fun h => absurd (h.1.1 hp) hk⟩
        have hmem : a ∈ l.filter (fun a => !p a) := h ▸ List.mem_cons_self
        simp [hp] at hmem
    · rw [List.filter_cons_of_neg hp, List.filter_cons_of_pos (by simpa using hp)]
      by_cases hd : ∃ k ∈ (l.filter p).map key, k ∈ keys a
      · refine ⟨fun h => ?_, fun h => ?_⟩
        · have hsub := h ▸ eraseAll_cons_of_mem hd l
          exact absurd hsub (not_sublist_cons_filter (by simpa using hp) l)
        · obtain ⟨k, hk, hka⟩ := hd
          obtain ⟨b, hb, rfl⟩ := List.mem_map.mp hk
          obtain ⟨hb, hpb⟩ := List.mem_filter.mp hb
          exact absurd (h.2.1 b hb hpb hka) hp
      · have hfree : ∀ k ∈ (l.filter p).map key, k ∉ keys a := fun k hk hka => hd ⟨k, hk, hka⟩
        have hhead : ∀ b ∈ l, p b = true → key b ∈ keys a → p a = true := fun b hb hpb hkb =>
          absurd hkb (hfree _ (List.mem_map_of_mem (List.mem_filter.mpr ⟨hb, hpb⟩)))
        rw [eraseAll_cons_of_disjoint hfree, List.cons_inj_right, ih]
        exact ⟨fun h => ⟨⟨fun hpa => absurd hpa hp, h.1⟩, hhead, h.2⟩, fun h => ⟨h.1.2, h.2.2⟩⟩

end KeyedList
