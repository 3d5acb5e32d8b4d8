import FontManager.Interaction.Interleaving

namespace Interaction

-- What the programs of a service, told apart by label, owe one another while they run together.
structure Discipline (P : PFunctor.{0, 0}) (L W Φ : Type) where
  ok : L → W → P.A → Φ → Prop
  rely : L → W → W → Prop
  guar : L → W → W → Prop
  inv : W → Prop
  clash : L → L → Prop
  refl : ∀ l w, rely l w w
  trans : ∀ l u v w, rely l u v → rely l v w → rely l u w
  compat : ∀ l l' u v, ¬ clash l l' → guar l u v → rely l' u v
  keeps : ∀ l u v, guar l u v → inv u → inv v

variable {P : PFunctor.{0, 0}} {L α β W Φ : Type} {m : Semantics P W Φ} {D : Discipline P L W Φ}
  {l : L} {w v : W}

namespace Program

-- Before each step of a program, and after the last, the others do what rely allows.
def Amid (m : Semantics P W Φ) (D : Discipline P L W Φ) (l : L) :
    Program P α → (α → W → Prop) → W → Prop
  | .done a, Q, w => ∀ v, D.rely l w v → Q a v
  | .call o k, Q, w => ∀ v, D.rely l w v → ∀ io, D.ok l v o io →
    D.guar l v (m.exec v o io).2 ∧ Amid m D l (k (m.exec v o io).1) Q (m.exec v o io).2

namespace Amid

variable {Q R : α → W → Prop}

theorem stable {p : Program P α} (h : Amid m D l p Q w) (hv : D.rely l w v) : Amid m D l p Q v := by
  cases p with
  | done a => exact fun u hu => h u (D.trans l w v u hv hu)
  | call o k => exact fun u hu => h u (D.trans l w v u hv hu)

theorem pure {a : α} (h : ∀ v, D.rely l w v → Q a v) : Amid m D l (Pure.pure a) Q w := h

theorem mono {p : Program P α} (h : Amid m D l p Q w) (hQ : ∀ a w, Q a w → R a w) :
    Amid m D l p R w := by
  induction p generalizing w with
  | done a => exact fun v hv => hQ a v (h v hv)
  | call o k ih => exact fun v hv io hio => ⟨(h v hv io hio).1, ih _ (h v hv io hio).2⟩

theorem bind {p : Program P α} {f : α → Program P β} {Q : β → W → Prop}
    (h : Amid m D l p R w) (hf : ∀ a w, R a w → Amid m D l (f a) Q w) :
    Amid m D l (p >>= f) Q w := by
  induction p generalizing w with
  | done a => exact hf a w (h w (D.refl l w))
  | call o k ih => exact fun v hv io hio => ⟨(h v hv io hio).1, ih _ (h v hv io hio).2⟩

theorem perform_bind {o : P.A} {f : P.B o → Program P α}
    (h : ∀ v, D.rely l w v → ∀ io, D.ok l v o io →
      D.guar l v (m.exec v o io).2 ∧ Amid m D l (f (m.exec v o io).1) Q (m.exec v o io).2) :
    Amid m D l (perform o >>= f) Q w := h

theorem of_always {sound : (o : P.A) → P.B o → Prop} {safe : P.A → Prop} {inv : W → Prop}
    (hstep : ∀ w o io, safe o → D.ok l w o io → inv w →
      sound o (m.exec w o io).1 ∧ D.guar l w (m.exec w o io).2 ∧ inv (m.exec w o io).2)
    (hrely : ∀ w v, D.rely l w v → inv w → inv v) {p : Program P α} (hp : always sound safe p)
    (hw : inv w) : Amid m D l p (fun _ => inv) w := by
  induction p generalizing w with
  | done a => exact fun v hv => hrely w v hv hw
  | call o k ih =>
    intro v hv io hio
    obtain ⟨hreply, hguar, hinv⟩ := hstep v o io hp.1 hio (hrely w v hv hw)
    exact ⟨hguar, ih _ (hp.2 _ hreply) hinv⟩

end Amid

end Program

namespace Service

variable {s : System P L α W} {i : Nat} {o : P.A} {k : P.B o → Program P α}
  {io : Φ} {Q : L → α → W → Prop}

structure Attended (sv : Service P L α W Φ) (D : Discipline P L W Φ) (Q : L → α → W → Prop)
    (s : System P L α W) : Prop where
  inv : D.inv s.world
  attends : ∀ t ∈ s.threads, t.program.finished = false →
    t.program.Amid sv.semantics D t.label (Q t.label) s.world
  apart : ∀ (i j : Nat) t t', i ≠ j → s.threads[i]? = some t → s.threads[j]? = some t' →
    t.program.finished = false → t'.program.finished = false → ¬ D.clash t.label t'.label

variable {sv : Service P L α W Φ} (hs : sv.Attended D Q s)

theorem getElem?_spawned {threads : List (Thread P L α)} {t u : Thread P L α} {i : Nat}
    (h : (threads ++ [u])[i]? = some t) : threads[i]? = some t ∨ i = threads.length ∧ t = u := by
  rcases Nat.lt_or_ge i threads.length with hi | hi
  · rw [List.getElem?_append_left hi] at h
    exact Or.inl h
  · rw [List.getElem?_append_right hi, List.getElem?_singleton] at h
    split at h
    · exact Or.inr ⟨by omega, (Option.some.inj h).symm⟩
    · cases h

namespace Attended

include hs

theorem spawn (hl : (sv.program l).Amid sv.semantics D l (Q l) s.world)
    (hclash : ∀ t ∈ s.threads, t.program.finished = false →
      ¬ D.clash l t.label ∧ ¬ D.clash t.label l) :
    sv.Attended D Q { s with threads := s.threads ++ [⟨l, sv.program l⟩] } where
  inv := hs.inv
  attends t ht hrunning := by
    rcases List.mem_append.mp ht with ht | ht
    · exact hs.attends t ht hrunning
    · obtain rfl := List.mem_singleton.mp ht
      exact hl
  apart i j t t' hij hi hj hrunning hrunning' := by
    rcases getElem?_spawned hi with hi | ⟨rfl, rfl⟩ <;> rcases getElem?_spawned hj with hj | ⟨rfl, rfl⟩
    · exact hs.apart i j t t' hij hi hj hrunning hrunning'
    · exact (hclash t (List.mem_of_getElem? hi) hrunning).2
    · exact (hclash t' (List.mem_of_getElem? hj) hrunning').1
    · exact absurd rfl hij

variable (hi : s.threads[i]? = some ⟨l, .call o k⟩) (hok : D.ok l s.world o io)

include hi hok

theorem self : D.guar l s.world (sv.advance s i l o k io).world ∧
    (k (sv.semantics.exec s.world o io).1).Amid sv.semantics D l (Q l)
      (sv.advance s i l o k io).world :=
  hs.attends _ (List.mem_of_getElem? hi) rfl s.world (D.refl l s.world) io hok

theorem act : sv.Attended D Q (sv.advance s i l o k io) := by
  obtain ⟨hguar, hself⟩ := hs.self hi hok
  have before : ∀ (j : Nat) t, (sv.advance s i l o k io).threads[j]? = some t →
      t.program.finished = false →
        ∃ t', s.threads[j]? = some t' ∧ t'.label = t.label ∧ t'.program.finished = false := by
    intro j t hj hrunning
    by_cases hij : i = j
    · subst hij
      rw [advance, List.getElem?_set_self (List.getElem?_eq_some_iff.mp hi).1] at hj
      obtain rfl := Option.some.inj hj
      exact ⟨_, hi, rfl, rfl⟩
    · rw [advance, List.getElem?_set_ne hij] at hj
      exact ⟨t, hj, rfl, hrunning⟩
  refine ⟨D.keeps l _ _ hguar hs.inv, fun t ht hrunning => ?_, ?_⟩
  · rcases mem_advance_cases ht with ⟨j, hij, hj⟩ | rfl
    · have hclash := hs.apart i j _ t hij.symm hi hj rfl hrunning
      exact (hs.attends t (List.mem_of_getElem? hj) hrunning).stable (D.compat l t.label _ _ hclash hguar)
    · exact hself
  · intro j j' t t' hne hj hj' hrunning hrunning'
    obtain ⟨u, hu, hlabel, hrun⟩ := before j t hj hrunning
    obtain ⟨u', hu', hlabel', hrun'⟩ := before j' t' hj' hrunning'
    rw [← hlabel, ← hlabel']
    exact hs.apart j j' u u' hne hu hu' hrun hrun'

theorem returns {a : α} (ha : k (sv.semantics.exec s.world o io).1 = .done a) :
    Q l a (sv.advance s i l o k io).world := by
  have hself := (hs.self hi hok).2
  rw [ha] at hself
  exact hself _ (D.refl l _)

end Attended

end Service

end Interaction
