import FontManager.Interaction.Machine
import FontManager.Interaction.Program

namespace Interaction

structure Thread (P : PFunctor.{0, 0}) (L α : Type) where
  label : L
  program : Program P α

structure System (P : PFunctor.{0, 0}) (L α W : Type) where
  world : W
  threads : List (Thread P L α)

inductive Event (L Φ : Type) where
  | spawn (l : L)
  | act (i : Nat) (io : Φ)

structure Service (P : PFunctor.{0, 0}) (L α W Φ : Type) where
  semantics : Semantics P W Φ
  program : L → Program P α

variable {P : PFunctor.{0, 0}} {L α W Φ : Type}

namespace System

def operation (s : System P L α W) : Event L Φ → Option P.A
  | .spawn _ => none
  | .act i _ =>
    match s.threads[i]? with
    | some ⟨_, .call o _⟩ => some o
    | _ => none

def idle (s : System P L α W) : Bool := s.threads.all fun t => t.program.finished

end System

namespace Service

variable (v : Service P L α W Φ)

def advance (s : System P L α W) (i : Nat) (l : L) (o : P.A) (k : P.B o → Program P α) (io : Φ) :
    System P L α W where
  world := (v.semantics.exec s.world o io).2
  threads := s.threads.set i ⟨l, k (v.semantics.exec s.world o io).1⟩

def next (s : System P L α W) : Event L Φ → Option (System P L α W)
  | .spawn l => some { s with threads := s.threads ++ [⟨l, v.program l⟩] }
  | .act i io =>
    match s.threads[i]? with
    | some ⟨l, .call o k⟩ => some (v.advance s i l o k io)
    | _ => none

def machine : Machine (System P L α W) (Event L Φ) := ⟨v.next⟩

variable {v}

theorem next_spawn {s u : System P L α W} {l : L}
    (h : v.next s (.spawn l : Event L Φ) = some u) :
    u = { s with threads := s.threads ++ [⟨l, v.program l⟩] } := by
  simpa [next] using h.symm

theorem next_act {s u : System P L α W} {i : Nat} {io : Φ} (h : v.next s (.act i io) = some u) :
    ∃ l o k, s.threads[i]? = some ⟨l, .call o k⟩ ∧ s.operation (.act i io : Event L Φ) = some o ∧
      u = v.advance s i l o k io := by
  simp only [next] at h
  split at h
  · rename_i l o k hth
    exact ⟨l, o, k, hth, by simp [System.operation, hth], by simpa using h.symm⟩
  · cases h

theorem mem_advance {s : System P L α W} {i : Nat} {l : L} {o : P.A} {k : P.B o → Program P α}
    {io : Φ} {t : Thread P L α} (h : t ∈ (v.advance s i l o k io).threads) :
    t ∈ s.threads ∨ t = ⟨l, k (v.semantics.exec s.world o io).1⟩ :=
  List.mem_or_eq_of_mem_set h

theorem mem_advance_cases {s : System P L α W} {i : Nat} {l : L} {o : P.A}
    {k : P.B o → Program P α} {io : Φ} {t : Thread P L α}
    (h : t ∈ (v.advance s i l o k io).threads) :
    (∃ j, j ≠ i ∧ s.threads[j]? = some t) ∨ t = ⟨l, k (v.semantics.exec s.world o io).1⟩ := by
  obtain ⟨j, hj⟩ := List.mem_iff_getElem?.mp h
  by_cases hij : i = j
  · subst hij
    rw [advance, List.getElem?_set_self'] at hj
    obtain ⟨-, -, rfl⟩ := Option.map_eq_some_iff.mp hj
    exact Or.inr rfl
  · rw [advance, List.getElem?_set_ne hij] at hj
    exact Or.inl ⟨j, Ne.symm hij, hj⟩

theorem mem_advance_self {s : System P L α W} {i : Nat} {l : L} {o : P.A}
    {k : P.B o → Program P α} (hi : s.threads[i]? = some ⟨l, .call o k⟩) (io : Φ) :
    ⟨l, k (v.semantics.exec s.world o io).1⟩ ∈ (v.advance s i l o k io).threads :=
  List.mem_set (List.getElem?_eq_some_iff.mp hi).1 _

theorem mem_advance_of_mem {s : System P L α W} {i : Nat} {l : L} {o : P.A}
    {k : P.B o → Program P α} (hi : s.threads[i]? = some ⟨l, .call o k⟩) (io : Φ)
    {t : Thread P L α} (ht : t ∈ s.threads) :
    t = ⟨l, .call o k⟩ ∨ t ∈ (v.advance s i l o k io).threads := by
  obtain ⟨j, hj⟩ := List.mem_iff_getElem?.mp ht
  by_cases hij : i = j
  · subst hij
    exact Or.inl (Option.some.inj (hj.symm.trans hi))
  · refine Or.inr (List.mem_iff_getElem?.mpr ⟨j, ?_⟩)
    rw [advance, List.getElem?_set_ne hij, hj]

end Service

end Interaction
