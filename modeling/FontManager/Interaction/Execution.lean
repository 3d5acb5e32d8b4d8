import FontManager.Interaction.Program

namespace Interaction.Program

variable {P : PFunctor.{0, 0}} {α β W Φ : Type}

-- The states that a program passes through, with ok for the answers it may get on the way.
inductive Reaches (m : Semantics P W Φ) (ok : W → P.A → Φ → Prop) :
    Program P α → W → Program P α → W → Prop
  | here (p : Program P α) (w : W) : Reaches m ok p w p w
  | step {o : P.A} {k : P.B o → Program P α} {w v : W} {q : Program P α} {io : Φ} (hio : ok w o io)
      (h : Reaches m ok (k (m.exec w o io).1) (m.exec w o io).2 q v) :
      Reaches m ok (.call o k) w q v

def Upholds (m : Semantics P W Φ) (ok : W → P.A → Φ → Prop) (inv : W → Prop) :
    Program P α → (α → W → Prop) → W → Prop
  | .done a, Q, w => inv w ∧ Q a w
  | .call o k, Q, w =>
    inv w ∧ ∀ io, ok w o io → Upholds m ok inv (k (m.exec w o io).1) Q (m.exec w o io).2

variable {m : Semantics P W Φ} {ok : W → P.A → Φ → Prop} {inv inv' : W → Prop} {w v : W}

namespace Upholds

theorem here {p : Program P α} {Q : α → W → Prop} (h : Upholds m ok inv p Q w) : inv w := by
  cases p with
  | done a => exact h.1
  | call o k => exact h.1

theorem pure {a : α} {Q : α → W → Prop} (hw : inv w) (h : Q a w) :
    Upholds m ok inv (Pure.pure a) Q w := ⟨hw, h⟩

theorem bind {p : Program P α} {f : α → Program P β} {Q : β → W → Prop}
    (h : Upholds m ok inv p (fun a => Upholds m ok inv (f a) Q) w) :
    Upholds m ok inv (p >>= f) Q w := by
  induction p generalizing w with
  | done a => exact h.2
  | call o k ih => exact ⟨h.1, fun io hio => ih _ (h.2 io hio)⟩

theorem mono {Q R : α → W → Prop} {p : Program P α} (h : Upholds m ok inv p Q w)
    (hinv : ∀ w, inv w → inv' w) (hQ : ∀ a w, inv w → Q a w → R a w) :
    Upholds m ok inv' p R w := by
  induction p generalizing w with
  | done a => exact ⟨hinv w h.1, hQ a w h.1 h.2⟩
  | call o k ih => exact ⟨hinv w h.1, fun io hio => ih _ (h.2 io hio)⟩

theorem and {p : Program P α} {Q R : α → W → Prop} (h : Upholds m ok inv p Q w)
    (h' : Upholds m ok inv' p R w) :
    Upholds m ok (fun w => inv w ∧ inv' w) p (fun a w => Q a w ∧ R a w) w := by
  induction p generalizing w with
  | done a => exact ⟨⟨h.1, h'.1⟩, h.2, h'.2⟩
  | call o k ih => exact ⟨⟨h.1, h'.1⟩, fun io hio => ih _ (h.2 io hio) (h'.2 io hio)⟩

theorem of_always {safe : P.A → Prop} (hstep : ∀ w o io, safe o → inv w → inv (m.exec w o io).2)
    {p : Program P α} (hp : always (fun _ _ => True) safe p) (hw : inv w) :
    Upholds m ok inv p (fun _ _ => True) w := by
  induction p generalizing w with
  | done a => exact ⟨hw, trivial⟩
  | call o k ih => exact ⟨hw, fun io _ => ih _ (hp.2 _ trivial) (hstep w o io hp.1 hw)⟩

theorem of_stable (hstep : ∀ w o io, inv w → inv (m.exec w o io).2) (p : Program P α) (hw : inv w) :
    Upholds m ok inv p (fun _ _ => True) w :=
  of_always (fun w o io (_ : True) => hstep w o io) (always_of_forall (fun _ => trivial) p) hw

theorem reached {p q : Program P α} {Q : α → W → Prop} (hp : Upholds m ok inv p Q w)
    (h : Reaches m ok p w q v) : Upholds m ok inv q Q v := by
  induction h with
  | here => exact hp
  | step hio _ ih => exact ih (hp.2 _ hio)

end Upholds

section run

variable [Inhabited Φ]

theorem Upholds.run {p : Program P α} {Q : α → W → Prop} {ios : List Φ} (hp : Upholds m ok inv p Q w)
    (h : Along m ok p w ios) : inv (p.run m w ios).2 ∧ Q (p.run m w ios).1 (p.run m w ios).2 := by
  induction p generalizing w ios with
  | done a => exact hp
  | call o k ih => exact ih _ (hp.2 _ h.1) h.2

-- A ghost beside the state: whether some step so far was a hit.
def logged (m : Semantics P W Φ) (hit : W → P.A → Φ → Prop) : Semantics P (W × Prop) Φ where
  exec s o io := ((m.exec s.1 o io).1, (m.exec s.1 o io).2, s.2 ∨ hit s.1 o io)

variable {hit : W → P.A → Φ → Prop}

theorem run_logged (p : Program P α) (w : W) (b : Prop) (ios : List Φ) :
    (p.run (logged m hit) (w, b) ios).1 = (p.run m w ios).1 ∧
      (p.run (logged m hit) (w, b) ios).2.1 = (p.run m w ios).2 ∧
      ((p.run (logged m hit) (w, b) ios).2.2 ↔
        b ∨ ¬ Along m (fun w o io => ¬ hit w o io) p w ios) := by
  induction p generalizing w b ios with
  | done a => exact ⟨rfl, rfl, by simp [Program.run, Along]⟩
  | call o k ih =>
    obtain ⟨hreply, hworld, hlog⟩ := ih (m.exec w o (ios.headD default)).1
      (m.exec w o (ios.headD default)).2 (b ∨ hit w o (ios.headD default)) ios.tail
    refine ⟨hreply, hworld, hlog.trans ?_⟩
    simp only [Along, not_and_or, not_not, or_assoc]

-- A ghost beside the state: what has been seen so far of the operations and their replies.
def traced {γ : Type} (m : Semantics P W Φ) (see : (o : P.A) → P.B o → Option γ) :
    Semantics P (W × List γ) Φ where
  exec s o io :=
    ((m.exec s.1 o io).1, (m.exec s.1 o io).2, s.2 ++ (see o (m.exec s.1 o io).1).toList)

theorem run_traced {γ : Type} {see : (o : P.A) → P.B o → Option γ} (p : Program P α) (w : W)
    (log : List γ) (ios : List Φ) :
    (p.run (traced m see) (w, log) ios).1 = (p.run m w ios).1 ∧
      (p.run (traced m see) (w, log) ios).2.1 = (p.run m w ios).2 := by
  induction p generalizing w log ios with
  | done a => exact ⟨rfl, rfl⟩
  | call o k ih => exact ih _ _ _ _

theorem along_logged {p : Program P α} {b : Prop} {ios : List Φ} :
    Along (logged m hit) (fun s => ok s.1) p (w, b) ios ↔ Along m ok p w ios := by
  induction p generalizing w b ios with
  | done a => rfl
  | call o k ih => exact and_congr_right fun _ => ih _

omit [Inhabited Φ] in
theorem Upholds.logged {p : Program P α} {Q : α → W → Prop} {b : Prop}
    (hp : always (fun _ _ => True) (fun o => ∀ w io, ¬ hit w o io) p) (h : Upholds m ok inv p Q w) :
    Upholds (Program.logged m hit) (fun s => ok s.1) (fun s => inv s.1) p
      (fun a s => Q a s.1 ∧ s.2 = b) (w, b) := by
  induction p generalizing w with
  | done a => exact ⟨h.1, h.2, rfl⟩
  | call o k ih =>
    refine ⟨h.1, fun io hio => ?_⟩
    have hquiet : (b ∨ hit w o io) = b := by simp [hp.1 w io]
    have hexec : (Program.logged m hit).exec (w, b) o io =
        ((m.exec w o io).1, (m.exec w o io).2, b) :=
      congrArg (fun c => ((m.exec w o io).1, (m.exec w o io).2, c)) hquiet
    rw [hexec]
    exact ih _ (hp.2 _ trivial) (h.2 io hio)

end run

theorem wp_of_always {safe : P.A → Prop}
    (hstep : ∀ w o io, safe o → inv w → inv (m.exec w o io).2) {p : Program P α}
    (hp : always (fun _ _ => True) safe p) (hw : inv w) : wp m ok p (fun _ w' => inv w') w := by
  induction p generalizing w with
  | done a => exact hw
  | call o k ih => exact fun io _ => ih _ (hp.2 _ trivial) (hstep w o io hp.1 hw)

-- The environment with its answers adjusted to the state they are given in.
def adjusted (m : Semantics P W Φ) (adjust : W → P.A → Φ → Φ) : Semantics P W Φ where
  exec w o io := m.exec w o (adjust w o io)

theorem reaches_adjusted [Inhabited Φ] {adjust : W → P.A → Φ → Φ} {p : Program P α} {ios : List Φ}
    (h : Along (adjusted m adjust) (fun w o io => ok w o (adjust w o io)) p w ios) :
    Reaches m ok p w (.done (p.run (adjusted m adjust) w ios).1)
      (p.run (adjusted m adjust) w ios).2 := by
  induction p generalizing w ios with
  | done a => exact .here _ w
  | call o k ih => exact .step h.1 (ih _ h.2)

theorem reaches_run [Inhabited Φ] (hd : ∀ w o, ok w o default) (ios : List Φ)
    (hios : ∀ io ∈ ios, ∀ w o, ok w o io) (p : Program P α) (w : W) :
    Reaches m ok p w (.done (p.run m w ios).1) (p.run m w ios).2 := by
  induction p generalizing w ios with
  | done a => exact .here _ w
  | call o k ih =>
    have hhead : ok w o (ios.headD default) := by
      cases ios with
      | nil => exact hd w o
      | cons io ios => exact hios io (by simp) w o
    exact .step hhead (ih _ _ (fun io hio => hios io (List.mem_of_mem_tail hio)) _)

end Interaction.Program
