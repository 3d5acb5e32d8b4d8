import Mathlib.Data.List.Infix

namespace Interaction

structure Machine (S E : Type) where
  next : S → E → Option S

namespace Machine

variable {S E : Type} {m : Machine S E} {ok ok' : S → E → Prop} {s t u : S} {es fs : List E}

inductive Run (m : Machine S E) (ok : S → E → Prop) : S → List E → S → Prop
  | nil (s : S) : Run m ok s [] s
  | snoc {s t u : S} {es : List E} {e : E} (h : Run m ok s es t) (hok : ok t e)
      (hu : m.next t e = some u) : Run m ok s (es ++ [e]) u

def replay (m : Machine S E) (ok : S → E → Bool) : S → List E → Option S
  | s, [] => some s
  | s, e :: es => if ok s e then (m.next s e).bind fun t => m.replay ok t es else none

namespace Run

theorem mono (hok : ∀ s e, ok s e → ok' s e) (h : m.Run ok s es t) : m.Run ok' s es t := by
  induction h with
  | nil => exact .nil s
  | snoc _ he hu ih => exact .snoc ih (hok _ _ he) hu

theorem single {e : E} (he : ok s e) (hu : m.next s e = some t) : m.Run ok s [e] t :=
  .snoc (.nil s) he hu

theorem append (h : m.Run ok s es t) (h' : m.Run ok t fs u) : m.Run ok s (es ++ fs) u := by
  induction h' with
  | nil => simpa using h
  | snoc _ he hu ih => simpa only [← List.append_assoc] using Run.snoc ih he hu

theorem deterministic (h : m.Run ok s es t) (h' : m.Run ok' s es u) : t = u := by
  induction h generalizing u with
  | nil =>
    generalize hes : ([] : List E) = es at h'
    cases h' with
    | nil => rfl
    | snoc => simp at hes
  | snoc _ _ hu ih =>
    rename_i es e _ _
    generalize hes : es ++ [e] = es' at h'
    cases h' with
    | nil => simp at hes
    | snoc h'' _ hu' =>
      obtain ⟨rfl, he⟩ := List.append_inj' hes rfl
      obtain rfl := List.singleton_inj.mp he
      rw [ih h''] at hu
      exact Option.some.inj (hu.symm.trans hu')

theorem leading (h : m.Run ok s es t) (hp : fs <+: es) : ∃ u, m.Run ok s fs u := by
  induction h with
  | nil =>
    obtain rfl := List.prefix_nil.mp hp
    exact ⟨s, .nil s⟩
  | snoc h he hu ih =>
    rcases List.prefix_concat_iff.mp hp with rfl | hp
    · exact ⟨_, .snoc h he hu⟩
    · exact ih hp

theorem invariant {inv : S → Prop} (step : ∀ s e t, inv s → ok s e → m.next s e = some t → inv t)
    (h : m.Run ok s es t) (hs : inv s) : inv t := by
  induction h with
  | nil => exact hs
  | snoc _ he hu ih => exact step _ _ _ ih he hu

theorem iff_always (good inv : S → Prop)
    (hgood : ∀ s e t, good s → m.next s e = some t → good t)
    (hinv : ∀ s e t, good s → inv s → m.next s e = some t → (inv t ↔ ok s e))
    (hs : good s) (hi : inv s) :
    m.Run ok s es t ↔ m.Run (fun _ _ => True) s es t ∧
      ∀ fs u, fs <+: es → m.Run (fun _ _ => True) s fs u → inv u := by
  have good_of_run : ∀ {ok : S → E → Prop} {fs u}, m.Run ok s fs u → good u := fun hrun =>
    hrun.invariant (fun _ _ _ hs _ hn => hgood _ _ _ hs hn) hs
  constructor
  · intro hrun
    refine ⟨hrun.mono fun _ _ _ => trivial, fun fs u hfs hu => ?_⟩
    obtain ⟨u', hu'⟩ := hrun.leading hfs
    obtain rfl := hu.deterministic hu'
    have step : ∀ s e t, good s ∧ inv s → ok s e → m.next s e = some t → good t ∧ inv t :=
      fun s e t h he hn => ⟨hgood s e t h.1 hn, (hinv s e t h.1 h.2 hn).mpr he⟩
    exact (hu'.invariant step ⟨hs, hi⟩).2
  · rintro ⟨hrun, hall⟩
    induction hrun with
    | nil => exact .nil _
    | snoc hrun _ hn ih =>
      have hbefore := ih fun fs u hfs => hall fs u (hfs.trans (List.prefix_append _ _))
      have hsource := hall _ _ (List.prefix_append _ _) hrun
      have htarget := hall _ _ List.prefix_rfl (.snoc hrun trivial hn)
      exact .snoc hbefore ((hinv _ _ _ (good_of_run hrun) hsource hn).mp htarget) hn

end Run

theorem run_of_replay {okb : S → E → Bool} (h : m.replay okb s es = some t) :
    m.Run (fun s e => okb s e = true) s es t := by
  induction es generalizing s with
  | nil =>
    obtain rfl : s = t := by simpa [replay] using h
    exact .nil s
  | cons e es ih =>
    simp only [replay] at h
    split at h
    · rename_i hok
      obtain ⟨u, hu, hrest⟩ := Option.bind_eq_some_iff.mp h
      simpa using (Run.single (m := m) hok hu).append (ih hrest)
    · cases h

theorem exists_run_of_replay (okb : S → E → Bool) (p : S → Bool) (s : S) (es : List E)
    (h : (m.replay okb s es).any p = true) :
    ∃ t, m.Run (fun s e => okb s e = true) s es t ∧ p t = true := by
  cases hr : m.replay okb s es with
  | none => simp [hr] at h
  | some t => exact ⟨t, run_of_replay hr, by simpa [hr] using h⟩

end Machine

end Interaction
