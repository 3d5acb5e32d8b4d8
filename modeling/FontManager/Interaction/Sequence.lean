import FontManager.Interaction.Interleaving

namespace Interaction

variable {P : PFunctor.{0, 0}} {L α W Φ : Type} [Inhabited Φ]

namespace Service

variable (v : Service P L α W Φ)

def complete (w : W) (e : L × List Φ) : α × W := (v.program e.1).run v.semantics w e.2

def after (w : W) (es : List (L × List Φ)) : W := es.foldl (fun w e => (v.complete w e).2) w

def Met (ok : W → L × List Φ → Prop) : W → List (L × List Φ) → Prop
  | _, [] => True
  | w, e :: es => ok w e ∧ Met ok (v.complete w e).2 es

variable {v}

theorem after_invariant {inv : W → Prop} (step : ∀ w e, inv w → inv (v.complete w e).2) {w : W}
    (hw : inv w) (es : List (L × List Φ)) : inv (v.after w es) := by
  induction es generalizing w with
  | nil => exact hw
  | cons e es ih => exact ih (step w e hw)

theorem Met.invariant {ok : W → L × List Φ → Prop} {inv : W → Prop}
    (step : ∀ w e, inv w → ok w e → inv (v.complete w e).2) {w : W} {es : List (L × List Φ)}
    (h : v.Met ok w es) (hw : inv w) : inv (v.after w es) := by
  induction es generalizing w with
  | nil => exact hw
  | cons e es ih => exact ih h.2 (step w e hw h.1)

end Service

end Interaction
