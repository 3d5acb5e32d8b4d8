import Mathlib.Data.PFunctor.Univariate.Basic

namespace Interaction

inductive Program (P : PFunctor.{0, 0}) (α : Type) : Type
  | done (a : α)
  | call (o : P.A) (k : P.B o → Program P α)

structure Semantics (P : PFunctor.{0, 0}) (W Φ : Type) where
  exec : W → (o : P.A) → Φ → P.B o × W

namespace Program

variable {P : PFunctor.{0, 0}} {α β γ W Φ : Type}

def bind : Program P α → (α → Program P β) → Program P β
  | .done a, f => f a
  | .call o k, f => .call o fun r => (k r).bind f

instance : Monad (Program P) where
  pure := .done
  bind := .bind

def perform (o : P.A) : Program P (P.B o) := .call o .done

@[simp] theorem pure_eq (a : α) : (pure a : Program P α) = .done a := rfl

@[simp] theorem done_bind (a : α) (f : α → Program P β) : (Program.done a >>= f) = f a := rfl

@[simp] theorem call_bind (o : P.A) (k : P.B o → Program P α) (f : α → Program P β) :
    (Program.call o k >>= f) = .call o fun r => k r >>= f := rfl

theorem bind_assoc (p : Program P α) (f : α → Program P β) (g : β → Program P γ) :
    (p >>= f >>= g) = p >>= fun a => f a >>= g := by
  induction p with
  | done a => rfl
  | call o k ih =>
    simp only [call_bind]
    exact congrArg (Program.call o) (funext ih)

def embed {Q : PFunctor.{0, 0}} (f : P.A → Q.A) (g : ∀ o, Q.B (f o) → P.B o) :
    Program P α → Program Q α
  | .done a => .done a
  | .call o k => .call (f o) fun r => embed f g (k (g o r))

def finished : Program P α → Bool
  | .done _ => true
  | .call _ _ => false

def result : Program P α → Option α
  | .done a => some a
  | .call _ _ => none

theorem eq_done_of_finished {p : Program P α} (h : p.finished = true) : ∃ a, p = .done a := by
  cases p with
  | done a => exact ⟨a, rfl⟩
  | call o k => simp [finished] at h

def run [Inhabited Φ] (m : Semantics P W Φ) : Program P α → W → List Φ → α × W
  | .done a, w, _ => (a, w)
  | .call o k, w, ios =>
    run m (k (m.exec w o (ios.headD default)).1) (m.exec w o (ios.headD default)).2 ios.tail

def wp (m : Semantics P W Φ) (ok : W → P.A → Φ → Prop) : Program P α → (α → W → Prop) → W → Prop
  | .done a, Q, w => Q a w
  | .call o k, Q, w => ∀ io, ok w o io → wp m ok (k (m.exec w o io).1) Q (m.exec w o io).2

section wp

variable (m : Semantics P W Φ) (ok : W → P.A → Φ → Prop)

@[simp] theorem wp_done (a : α) (Q : α → W → Prop) (w : W) : wp m ok (.done a) Q w ↔ Q a w :=
  Iff.rfl

theorem wp_call (o : P.A) (k : P.B o → Program P α) (Q : α → W → Prop) (w : W) :
    wp m ok (.call o k) Q w ↔
      ∀ io, ok w o io → wp m ok (k (m.exec w o io).1) Q (m.exec w o io).2 :=
  Iff.rfl

@[simp] theorem wp_bind (p : Program P α) (f : α → Program P β) (Q : β → W → Prop) (w : W) :
    wp m ok (p >>= f) Q w ↔ wp m ok p (fun a => wp m ok (f a) Q) w := by
  induction p generalizing w with
  | done a => rfl
  | call o k ih =>
    simp only [call_bind, wp_call]
    exact forall_congr' fun io => imp_congr_right fun _ => ih _ _

theorem wp_mono {Q R : α → W → Prop} (h : ∀ a w, Q a w → R a w) {p : Program P α} {w : W}
    (hp : wp m ok p Q w) : wp m ok p R w := by
  induction p generalizing w with
  | done a => exact h a w hp
  | call o k ih => exact fun io hio => ih _ (hp io hio)

variable {m ok}

theorem wp.bind {p : Program P α} {f : α → Program P β} {Q : β → W → Prop} {w : W}
    (h : wp m ok p (fun a => wp m ok (f a) Q) w) : wp m ok (p >>= f) Q w :=
  (wp_bind m ok p f Q w).mpr h

theorem wp.mono {p : Program P α} {Q R : α → W → Prop} {w : W} (h : wp m ok p Q w)
    (hQ : ∀ a w, Q a w → R a w) : wp m ok p R w := wp_mono m ok hQ h

theorem wp.and {p : Program P α} {Q R : α → W → Prop} {w : W} (h : wp m ok p Q w)
    (h' : wp m ok p R w) : wp m ok p (fun a w => Q a w ∧ R a w) w := by
  induction p generalizing w with
  | done a => exact ⟨h, h'⟩
  | call o k ih => exact fun io hio => ih _ (h io hio) (h' io hio)

end wp

section run

variable [Inhabited Φ] {m : Semantics P W Φ} {ok : W → P.A → Φ → Prop} {w : W}

-- The answers that one run consumes, with ok for each of them where it is given.
def Along (m : Semantics P W Φ) (ok : W → P.A → Φ → Prop) : Program P α → W → List Φ → Prop
  | .done _, _, _ => True
  | .call o k, w, ios =>
    ok w o (ios.headD default) ∧
      Along m ok (k (m.exec w o (ios.headD default)).1) (m.exec w o (ios.headD default)).2 ios.tail

instance Along.decidable {ok : W → P.A → Φ → Prop} [∀ w o io, Decidable (ok w o io)] :
    ∀ (p : Program P α) (w : W) (ios : List Φ), Decidable (Along m ok p w ios)
  | .done _, _, _ => isTrue trivial
  | .call _ _, _, _ => @instDecidableAnd _ _ inferInstance (Along.decidable _ _ _)

theorem Along.mono {ok' : W → P.A → Φ → Prop} (hok : ∀ w o io, ok w o io → ok' w o io)
    {p : Program P α} {ios : List Φ} (h : Along m ok p w ios) : Along m ok' p w ios := by
  induction p generalizing w ios with
  | done a => trivial
  | call o k ih => exact ⟨hok _ _ _ h.1, ih _ h.2⟩

theorem Along.and {ok' : W → P.A → Φ → Prop} {p : Program P α} {ios : List Φ}
    (h : Along m ok p w ios) (h' : Along m ok' p w ios) :
    Along m (fun w o io => ok w o io ∧ ok' w o io) p w ios := by
  induction p generalizing w ios with
  | done a => trivial
  | call o k ih => exact ⟨⟨h.1, h'.1⟩, ih _ h.2 h'.2⟩

theorem Along.of_forall {ios : List Φ} (h : ∀ io ∈ default :: ios, ∀ w o, ok w o io) (p : Program P α)
    (w : W) : Along m ok p w ios := by
  induction p generalizing w ios with
  | done a => trivial
  | call o k ih =>
    refine ⟨h _ ?_ w o, ih _ (fun io hio => h io ?_) _⟩
    · cases ios <;> simp
    · exact List.cons_subset_cons default (List.tail_subset ios) hio

theorem wp.run {p : Program P α} {Q : α → W → Prop} {ios : List Φ} (hp : wp m ok p Q w)
    (h : Along m ok p w ios) : Q (p.run m w ios).1 (p.run m w ios).2 := by
  induction p generalizing w ios with
  | done a => exact hp
  | call o k ih => exact ih _ (hp _ h.1) h.2

theorem run_of_wp (m : Semantics P W Φ) (I : Φ → Prop) {Q : α → W → Prop} (hd : I default)
    {p : Program P α} (hp : wp m (fun _ _ => I) p Q w) {ios : List Φ} (hios : ∀ io ∈ ios, I io) :
    Q (p.run m w ios).1 (p.run m w ios).2 := by
  refine hp.run (Along.of_forall (fun io hio _ _ => ?_) p w)
  rcases List.mem_cons.mp hio with rfl | hio
  · exact hd
  · exact hios io hio

end run

def always (ok : (o : P.A) → P.B o → Prop) (safe : P.A → Prop) : Program P α → Prop
  | .done _ => True
  | .call o k => safe o ∧ ∀ r, ok o r → always ok safe (k r)

def returns (Q : α → Prop) : Program P α → Prop
  | .done a => Q a
  | .call _ k => ∀ r, returns Q (k r)

def eventually (ok : (o : P.A) → P.B o → Prop) (hit : P.A → Prop) : Program P α → Prop
  | .done _ => False
  | .call o k => hit o ∨ ∀ r, ok o r → eventually ok hit (k r)

def everywhere (good : Program P α → Prop) : Program P α → Prop
  | .done a => good (.done a)
  | .call o k => good (.call o k) ∧ ∀ r, everywhere good (k r)

section everywhere

variable {good : Program P α → Prop} {p : Program P α}

theorem everywhere_here (h : everywhere good p) : good p := by
  cases p with
  | done a => exact h
  | call o k => exact h.1

theorem everywhere_mono {good' : Program P α → Prop} (hgood : ∀ q, good q → good' q)
    (h : everywhere good p) : everywhere good' p := by
  induction p with
  | done a => exact hgood _ h
  | call o k ih => exact ⟨hgood _ h.1, fun r => ih r (h.2 r)⟩

theorem everywhere_perform_bind {o : P.A} {f : P.B o → Program P α} (h : good (.call o f))
    (hf : ∀ r, everywhere good (f r)) : everywhere good (perform o >>= f) := ⟨h, hf⟩

theorem everywhere_bind {p : Program P β} {f : β → Program P α}
    (hbind : ∀ q : Program P β, good (q >>= f)) (hf : ∀ b, everywhere good (f b)) :
    everywhere good (p >>= f) := by
  induction p with
  | done b => exact hf b
  | call o k ih => exact ⟨hbind (.call o k), ih⟩

end everywhere

section modalities

variable {ok ok' : (o : P.A) → P.B o → Prop} {safe safe' hit : P.A → Prop}

theorem always_bind {p : Program P α} {f : α → Program P β} (hp : always ok safe p)
    (hf : ∀ a, always ok safe (f a)) : always ok safe (p >>= f) := by
  induction p with
  | done a => exact hf a
  | call o k ih => exact ⟨hp.1, fun r hr => ih r (hp.2 r hr)⟩

theorem always_bind_returns {Q : α → Prop} {p : Program P α} {f : α → Program P β}
    (hp : always ok safe p) (hr : returns Q p) (hf : ∀ a, Q a → always ok safe (f a)) :
    always ok safe (p >>= f) := by
  induction p with
  | done a => exact hf a hr
  | call o k ih => exact ⟨hp.1, fun r hok => ih r (hp.2 r hok) (hr r)⟩

theorem returns_of_forall {Q : α → Prop} (h : ∀ a, Q a) (p : Program P α) : returns Q p := by
  induction p with
  | done a => exact h a
  | call o k ih => exact ih

theorem always_pure (a : α) : always ok safe (pure a : Program P α) := trivial

theorem always_perform {o : P.A} (h : safe o) : always ok safe (perform o) := ⟨h, fun _ _ => trivial⟩

theorem always_perform_bind {o : P.A} {f : P.B o → Program P α} (h : safe o)
    (hf : ∀ r, ok o r → always ok safe (f r)) : always ok safe (perform o >>= f) := ⟨h, hf⟩

theorem always_embed {Q : PFunctor.{0, 0}} {f : P.A → Q.A} {g : ∀ o, Q.B (f o) → P.B o}
    {sound : (o : Q.A) → Q.B o → Prop} {allowed : Q.A → Prop} (h : ∀ o, safe o → allowed (f o))
    {p : Program P α} (hp : always (fun _ _ => True) safe p) : always sound allowed (p.embed f g) := by
  induction p with
  | done a => trivial
  | call o k ih => exact ⟨h o hp.1, fun r _ => ih _ (hp.2 _ trivial)⟩

theorem always_of_forall (h : ∀ o, safe o) (p : Program P α) : always ok safe p := by
  induction p with
  | done a => trivial
  | call o k ih => exact ⟨h o, fun r _ => ih r⟩

theorem everywhere_bind_always {good : Program P β → Prop} {p : Program P α}
    {f : α → Program P β} (hp : always (fun _ _ => True) safe p)
    (hsafe : ∀ o k, safe o → good (.call o k)) (hf : ∀ a, everywhere good (f a)) :
    everywhere good (p >>= f) := by
  induction p with
  | done a => exact hf a
  | call o k ih => exact ⟨hsafe o _ hp.1, fun r => ih r (hp.2 r trivial)⟩

theorem eventually_perform_bind {o : P.A} {f : P.B o → Program P α}
    (h : ∀ r, ok o r → eventually ok hit (f r)) : eventually ok hit (perform o >>= f) := Or.inr h

theorem eventually_bind_left {p : Program P α} {f : α → Program P β} (h : eventually ok hit p) :
    eventually ok hit (p >>= f) := by
  induction p with
  | done a => exact h.elim
  | call o k ih => exact h.imp_right fun h r hr => ih r (h r hr)

theorem eventually_bind_right {p : Program P α} {f : α → Program P β}
    (h : ∀ a, eventually ok hit (f a)) : eventually ok hit (p >>= f) := by
  induction p with
  | done a => exact h a
  | call o k ih => exact Or.inr fun r _ => ih r

end modalities

end Program

end Interaction
