import FontManager.Interaction.Machine

namespace Interaction

variable {S T E F : Type}

structure Simulation (m : Machine S E) (n : Machine T F) (inv : S → Prop) (view : S → T)
    (move : E → Option F) : Prop where
  keeps : ∀ {s e t}, inv s → m.next s e = some t → inv t
  silent : ∀ {s e t}, inv s → m.next s e = some t → move e = none → view t = view s
  follows : ∀ {s e t f}, inv s → m.next s e = some t → move e = some f →
    n.next (view s) f = some (view t)

namespace Simulation

variable {m : Machine S E} {n : Machine T F} {inv : S → Prop} {view : S → T} {move : E → Option F}
  {ok : S → E → Prop} {ok' : T → F → Prop} {s t : S} {es : List E}

theorem invariant (h : Simulation m n inv view move) (hs : inv s) (hrun : m.Run ok s es t) : inv t :=
  hrun.invariant (fun _ _ _ hinv _ hnext => h.keeps hinv hnext) hs

theorem run (h : Simulation m n inv view move)
    (hok : ∀ s e f, ok s e → move e = some f → ok' (view s) f) (hs : inv s)
    (hrun : m.Run ok s es t) : n.Run ok' (view s) (es.filterMap move) (view t) := by
  induction hrun with
  | nil => exact .nil _
  | snoc hbefore he hnext ih =>
    rename_i s' t' es' e
    have hinv := h.invariant hs hbefore
    have hlist : (es' ++ [e]).filterMap move = es'.filterMap move ++ [e].filterMap move :=
      List.filterMap_append
    rw [hlist]
    cases hmove : move e with
    | none => simpa [hmove, h.silent hinv hnext hmove] using ih
    | some f =>
      rw [List.filterMap_cons_some hmove]
      exact .snoc ih (hok _ _ _ he hmove) (h.follows hinv hnext hmove)

end Simulation

end Interaction
