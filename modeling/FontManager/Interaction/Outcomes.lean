import FontManager.Interaction.Program

namespace Interaction.Program

variable {P : PFunctor.{0, 0}} {α β W Φ : Type}

-- The values that a program can return, whatever state it starts from and whatever answers it gets.
def Yields (m : Semantics P W Φ) (p : Program P α) (Q : α → Prop) : Prop :=
  ∀ w, p.wp m (fun _ _ _ => True) (fun a _ => Q a) w

namespace Yields

variable {m : Semantics P W Φ} {Q R : α → Prop} {S : β → Prop} {p : Program P α}
  {f : α → Program P β}

theorem pure {a : α} (h : Q a) : Yields m (Pure.pure a) Q := fun _ => h

theorem any (p : Program P α) : Yields m p fun _ => True := by
  intro w
  induction p generalizing w with
  | done a => trivial
  | call o k ih => exact fun io _ => ih _ _

theorem perform {o : P.A} {Q : P.B o → Prop} (h : ∀ w io, Q (m.exec w o io).1) :
    Yields m (Program.perform o) Q := fun w io _ => h w io

theorem mono (h : Yields m p Q) (hQ : ∀ a, Q a → R a) : Yields m p R :=
  fun w => (h w).mono fun a _ => hQ a

theorem bind (h : Yields m p Q) (hf : ∀ a, Q a → Yields m (f a) S) : Yields m (p >>= f) S := by
  intro w
  apply wp.bind
  exact (h w).mono fun a w' ha => hf a ha w'

theorem after (hf : ∀ a, Yields m (f a) S) : Yields m (p >>= f) S :=
  (any p).bind fun a _ => hf a

theorem map {g : α → β} (h : Yields m p Q) (hg : ∀ a, Q a → S (g a)) :
    Yields m (p >>= fun a => Pure.pure (g a)) S := h.bind fun a ha => pure (hg a ha)

theorem run [Inhabited Φ] (h : Yields m p Q) (w : W) (ios : List Φ) : Q (p.run m w ios).1 :=
  run_of_wp m (fun _ => True) trivial (h w) fun _ _ => trivial

end Yields

theorem run_map [Inhabited Φ] (m : Semantics P W Φ) (g : α → β) (p : Program P α) (w : W)
    (ios : List Φ) :
    (p >>= fun a => pure (g a)).run m w ios = ((g (p.run m w ios).1), (p.run m w ios).2) := by
  induction p generalizing w ios with
  | done a => rfl
  | call o k ih => exact ih _ _ _

end Interaction.Program
