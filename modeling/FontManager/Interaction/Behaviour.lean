import FontManager.Interaction.Machine
import Mathlib.Order.WellFounded
import Mathlib.Order.Basic

namespace Interaction

namespace Machine

variable {S E A T : Type}

def Moves (m : Machine S E) (s : S) : Option E → S → Prop
  | none, t => t = s
  | some e, t => m.next s e = some t

structure Behaviour (m : Machine S E) where
  state : Nat → S
  event : Nat → Option E
  moves : ∀ n, m.Moves (state n) (event n) (state (n + 1))

namespace Behaviour

variable {m : Machine S E}

def Enabled (m : Machine S E) (actor : E → Option A) (a : A) (s : S) : Prop :=
  ∃ e, actor e = some a ∧ (m.next s e).isSome = true

def Fair (b : Behaviour m) (actor : E → Option A) : Prop :=
  ∀ a n, (∀ k, n ≤ k → Enabled m actor a (b.state k)) →
    ∃ k e, n ≤ k ∧ b.event k = some e ∧ actor e = some a

variable (b : Behaviour m)

theorem next_of_event {n : Nat} {e : E} (h : b.event n = some e) :
    m.next (b.state n) e = some (b.state (n + 1)) := by
  have hmoves := b.moves n
  rw [h] at hmoves
  exact hmoves

theorem state_of_stutter {n : Nat} (h : b.event n = none) : b.state (n + 1) = b.state n := by
  have hmoves := b.moves n
  rw [h] at hmoves
  exact hmoves

theorem invariant {ok : S → E → Prop} {inv : S → Prop}
    (step : ∀ s e t, inv s → ok s e → m.next s e = some t → inv t)
    (hok : ∀ n e, b.event n = some e → ok (b.state n) e) (h : inv (b.state 0)) (n : Nat) :
    inv (b.state n) := by
  induction n with
  | zero => exact h
  | succ n ih =>
    cases he : b.event n with
    | none =>
      rw [b.state_of_stutter he]
      exact ih
    | some e => exact step _ e _ ih (hok n e he) (b.next_of_event he)

theorem constant {f : S → T} {n : Nat} (h : ∀ k, n ≤ k → f (b.state (k + 1)) = f (b.state k)) :
    ∀ k, n ≤ k → f (b.state k) = f (b.state n) := by
  intro k hk
  induction k, hk using Nat.le_induction with
  | base => rfl
  | succ k hk ih => rw [h k hk, ih]

theorem settles {r : T → T → Prop} (hr : WellFounded r) (f : S → T) (n : Nat)
    (h : ∀ k, n ≤ k → f (b.state (k + 1)) = f (b.state k) ∨ r (f (b.state (k + 1))) (f (b.state k))) :
    ∃ N, n ≤ N ∧ ∀ k, N ≤ k → f (b.state (k + 1)) = f (b.state k) := by
  obtain ⟨x, ⟨N, hN, rfl⟩, hmin⟩ := hr.has_min {x | ∃ k, n ≤ k ∧ f (b.state k) = x} ⟨_, n, le_rfl, rfl⟩
  have hsame : ∀ k, N ≤ k → f (b.state k) = f (b.state N) := by
    intro k hk
    induction k, hk using Nat.le_induction with
    | base => rfl
    | succ k hk ih =>
      rcases h k (hN.trans hk) with heq | hless
      · rw [heq, ih]
      · rw [ih] at hless
        exact absurd hless (hmin _ ⟨k + 1, by omega, rfl⟩)
  refine ⟨N, hN, ?_⟩
  intro k hk
  rw [hsame k hk, hsame (k + 1) (by omega)]

end Behaviour

namespace Behaviour

variable {m : Machine S E} {s t : S}

def halt (m : Machine S E) (s : S) : Behaviour m := ⟨fun _ => s, fun _ => none, fun _ => rfl⟩

def cons (e : E) (b : Behaviour m) (h : m.next s e = some (b.state 0)) : Behaviour m where
  state
    | 0 => s
    | n + 1 => b.state n
  event
    | 0 => some e
    | n + 1 => b.event n
  moves
    | 0 => h
    | n + 1 => b.moves n

structure Halting (b : Behaviour m) (okb : S → E → Bool) (s t : S) : Prop where
  start : b.state 0 = s
  ok : ∀ n e, b.event n = some e → okb (b.state n) e = true
  rest : ∃ N, ∀ n, N ≤ n → b.state n = t

theorem exists_halting {okb : S → E → Bool} {es : List E} (h : m.replay okb s es = some t) :
    ∃ b : Behaviour m, Halting b okb s t := by
  induction es generalizing s with
  | nil =>
    obtain rfl : s = t := Option.some.inj h
    refine ⟨halt m s, rfl, ?_, 0, fun _ _ => rfl⟩
    intro n e he
    cases he
  | cons e es ih =>
    simp only [replay] at h
    split at h
    · next hok =>
      obtain ⟨u, hu, hrest⟩ := Option.bind_eq_some_iff.mp h
      obtain ⟨b, hstart, hb, N, hN⟩ := ih hrest
      refine ⟨cons e b (hstart ▸ hu), rfl, ?_, N + 1, ?_⟩
      · intro n e' he'
        cases n with
        | zero => exact Option.some.inj he' ▸ hok
        | succ n => exact hb n e' he'
      · intro n hn
        obtain ⟨k, rfl⟩ := Nat.exists_eq_add_of_le' hn
        exact hN (k + N) (Nat.le_add_left N k)
    · cases h

theorem Halting.fair {b : Behaviour m} {okb : S → E → Bool} (h : Halting b okb s t)
    {actor : E → Option A} (hrest : ∀ a, ¬ Enabled m actor a t) : b.Fair actor := by
  intro a n hen
  obtain ⟨N, hN⟩ := h.rest
  have hstate := hN (max n N) (le_max_right n N)
  exact absurd (hstate ▸ hen (max n N) (le_max_left n N)) (hrest a)

end Behaviour

end Machine

end Interaction
