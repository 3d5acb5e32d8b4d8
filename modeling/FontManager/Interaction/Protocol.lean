import FontManager.Interaction.Execution

namespace Interaction

structure Protocol (P : PFunctor.{0, 0}) (S : Type) where
  allows : S → P.A → Prop
  replies : S → (o : P.A) → P.B o → Prop
  after : S → (o : P.A) → P.B o → S

namespace Protocol

variable {P : PFunctor.{0, 0}} {S α β : Type} (T : Protocol P S)

def Follows (post : α → S → Prop) : S → Program P α → Prop
  | σ, .done a => post a σ
  | σ, .call o k => T.allows σ o ∧ ∀ r, T.replies σ o r → Follows post (T.after σ o r) (k r)

-- Operations that are allowed in σ and keep it.
def Keeps (σ : S) (o : P.A) : Prop := T.allows σ o ∧ ∀ r, T.after σ o r = σ

variable {T} {σ : S} {post out : α → S → Prop}

theorem follows_perform_bind {o : P.A} {f : P.B o → Program P α} (h : T.allows σ o)
    (hf : ∀ r, T.replies σ o r → T.Follows post (T.after σ o r) (f r)) :
    T.Follows post σ (Program.perform o >>= f) := ⟨h, hf⟩

theorem follows_mono (hpost : ∀ a τ, post a τ → out a τ) {p : Program P α}
    (h : T.Follows post σ p) : T.Follows out σ p := by
  induction p generalizing σ with
  | done a => exact hpost a σ h
  | call o k ih => exact ⟨h.1, fun r hr => ih r (h.2 r hr)⟩

theorem follows_bind {out : β → S → Prop} {p : Program P α} {f : α → Program P β}
    (h : T.Follows (fun a τ => T.Follows out τ (f a)) σ p) : T.Follows out σ (p >>= f) := by
  induction p generalizing σ with
  | done a => exact h
  | call o k ih => exact ⟨h.1, fun r hr => ih r (h.2 r hr)⟩

theorem follows_of_always {p : Program P α} {ok : (o : P.A) → P.B o → Prop} {safe : P.A → Prop}
    (hok : ∀ o r, T.replies σ o r → ok o r) (hsafe : ∀ o, safe o → T.Keeps σ o)
    (h : Program.always ok safe p) (hpost : ∀ a, post a σ) : T.Follows post σ p := by
  induction p with
  | done a => exact hpost a
  | call o k ih =>
    obtain ⟨hallows, hafter⟩ := hsafe o h.1
    exact ⟨hallows, fun r hr => by rw [hafter r]; exact ih r (h.2 r (hok o r hr))⟩

-- What a protocol allows is what a run performs, when the answers of the run are the protocol's.
theorem follows_run {W Φ : Type} [Inhabited Φ] {m : Semantics P W Φ}
    (hreplies : ∀ τ w o io, T.replies τ o (m.exec w o io).1) {p : Program P α}
    (h : T.Follows post σ p) (w : W) (ios : List Φ) :
    p.Along m (fun _ o _ => ∃ τ, T.allows τ o) w ios ∧ ∃ τ, post (p.run m w ios).1 τ := by
  induction p generalizing σ w ios with
  | done a => exact ⟨trivial, σ, h⟩
  | call o k ih =>
    obtain ⟨hrest, hpost⟩ := ih _ (h.2 _ (hreplies σ w o (ios.headD default))) _ ios.tail
    exact ⟨⟨⟨σ, h.1⟩, hrest⟩, hpost⟩

end Protocol

end Interaction
