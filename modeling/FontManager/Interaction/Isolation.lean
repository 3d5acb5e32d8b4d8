import FontManager.Interaction.Interleaving

namespace Interaction

variable {P : PFunctor.{0, 0}} {L α κ W Φ : Type}

structure Isolation (m : Semantics P W Φ) (L κ : Type) where
  owner : L → κ
  acts : κ → P.A → Prop
  sound : (o : P.A) → P.B o → Prop
  same : κ → W → W → Prop
  inv : W → Prop
  trans : ∀ k u v w, same k u v → same k v w → same k u w
  replies : ∀ w o io, inv w → sound o (m.exec w o io).1
  keeps : ∀ k w o io, acts k o → inv w → inv (m.exec w o io).2
  agrees : ∀ k w v o io, acts k o → inv w → inv v → same k w v →
    (m.exec w o io).1 = (m.exec v o io).1 ∧ same k (m.exec w o io).2 (m.exec v o io).2
  apart : ∀ k k' w o io, k' ≠ k → acts k' o → inv w → same k (m.exec w o io).2 w

namespace Isolation

variable {m : Semantics P W Φ} (I : Isolation m L κ) {k' : κ} {p : Program P α}

theorem wp_apart (ok : W → P.A → Φ → Prop) (hrefl : ∀ k w, I.same k w w) {w : W}
    (hp : p.always I.sound (I.acts k')) (hw : I.inv w) : p.wp m ok (fun _ v => I.inv v ∧ ∀ k, k ≠ k' → I.same k v w) w := by
  suffices h : ∀ u : W, (∀ k, k ≠ k' → I.same k w u) →
      p.wp m ok (fun _ v => I.inv v ∧ ∀ k, k ≠ k' → I.same k v u) w from h w fun k _ => hrefl k w
  induction p generalizing w with
  | done a => exact fun u hu => ⟨hw, hu⟩
  | call o f ih =>
    intro u hu io _
    apply ih _ (hp.2 _ (I.replies w o io hw)) (I.keeps k' w o io hp.1 hw)
    intro k hk
    exact I.trans k _ _ _ (I.apart k k' w o io hk.symm hp.1 hw) (hu k hk)

end Isolation

section lists

variable {β : Type} {p : β → Bool} {a b : β}

theorem filter_set_of_pos {l : List β} {i : Nat} (hi : l[i]? = some a) (ha : p a = true)
    (hb : p b = true) :
    ∃ j, (l.filter p)[j]? = some a ∧ (l.set i b).filter p = (l.filter p).set j b := by
  induction l generalizing i with
  | nil => simp at hi
  | cons c l ih =>
    cases i with
    | zero =>
      obtain rfl : c = a := by simpa using hi
      exact ⟨0, by simp [ha], by simp [ha, hb]⟩
    | succ i =>
      obtain ⟨j, hj, hset⟩ := ih (by simpa using hi)
      by_cases hc : p c = true
      · exact ⟨j + 1, by simpa [hc] using hj, by simp [hc, hset]⟩
      · exact ⟨j, by simpa [hc] using hj, by simp [hc, hset]⟩

theorem filter_set_of_neg {l : List β} {i : Nat} (hi : l[i]? = some a) (ha : p a = false)
    (hb : p b = false) : (l.set i b).filter p = l.filter p := by
  induction l generalizing i with
  | nil => rfl
  | cons c l ih =>
    cases i with
    | zero =>
      obtain rfl : c = a := by simpa using hi
      simp [ha, hb]
    | succ i =>
      have hrest := ih (by simpa using hi)
      simp [List.filter_cons, hrest]

end lists

def Event.stamp : Event L Φ → L ⊕ Φ
  | .spawn l => .inl l
  | .act _ io => .inr io

section projection

variable [DecidableEq κ] {sv : Service P L α W Φ} (I : Isolation sv.semantics L κ) (k : κ)

def System.ownedBy (s : System P L α W) : List (Thread P L α) :=
  s.threads.filter fun t => decide (I.owner t.label = k)

structure Projected (s s' : System P L α W) : Prop where
  threads : s'.threads = s.ownedBy I k
  same : I.same k s.world s'.world
  inv : I.inv s.world
  inv' : I.inv s'.world
  acts : ∀ t ∈ s.threads, t.program.always I.sound (I.acts (I.owner t.label))

def OwnRun : System P L α W → List (Event L Φ) → System P L α W → Prop :=
  sv.machine.Run fun _ e => ∀ l, e = .spawn l → I.owner l = k

variable {I k} {s s' u : System P L α W}

namespace Projected

theorem spawn (h : Projected I k s s') {l : L}
    (hl : (sv.program l).always I.sound (I.acts (I.owner l))) :
    ∃ fs u', OwnRun I k s' fs u' ∧
      Projected I k { s with threads := s.threads ++ [⟨l, sv.program l⟩] } u' ∧
      (fs.map Event.stamp).Sublist [.inl l] := by
  have hacts : ∀ t ∈ s.threads ++ [⟨l, sv.program l⟩],
      t.program.always I.sound (I.acts (I.owner t.label)) := by
    intro t ht
    rcases List.mem_append.mp ht with ht | ht
    · exact h.acts t ht
    · obtain rfl := List.mem_singleton.mp ht
      exact hl
  by_cases hk : I.owner l = k
  · have hrun : OwnRun I k s' [.spawn l]
        { s' with threads := s'.threads ++ [⟨l, sv.program l⟩] } := by
      apply Machine.Run.single
      · intro l' hl'
        cases hl'
        exact hk
      · rfl
    refine ⟨_, _, hrun, ⟨?_, h.same, h.inv, h.inv', hacts⟩, List.Sublist.refl _⟩
    simp [System.ownedBy, h.threads, hk]
  · refine ⟨[], s', .nil s', ⟨?_, h.same, h.inv, h.inv', hacts⟩, List.nil_sublist _⟩
    simp [System.ownedBy, h.threads, hk]

variable {i : Nat} {l : L} {o : P.A} {f : P.B o → Program P α}

theorem acts_advance (h : Projected I k s s') (hi : s.threads[i]? = some ⟨l, .call o f⟩) (io : Φ) :
    I.acts (I.owner l) o ∧ ∀ t ∈ (sv.advance s i l o f io).threads,
      t.program.always I.sound (I.acts (I.owner t.label)) := by
  have hself := h.acts _ (List.mem_of_getElem? hi)
  refine ⟨hself.1, fun t ht => ?_⟩
  rcases Service.mem_advance ht with ht | rfl
  · exact h.acts t ht
  · apply hself.2
    exact I.replies s.world o io h.inv

theorem act_own (h : Projected I k s s') (hi : s.threads[i]? = some ⟨l, .call o f⟩)
    (hk : I.owner l = k) (io : Φ) :
    ∃ fs u', OwnRun I k s' fs u' ∧ Projected I k (sv.advance s i l o f io) u' ∧
      (fs.map Event.stamp).Sublist [.inr io] := by
  obtain ⟨hact, hacts⟩ := h.acts_advance hi io
  have hstep := I.agrees k s.world s'.world o io (hk ▸ hact) h.inv h.inv' h.same
  obtain ⟨j, hj, hset⟩ := filter_set_of_pos (p := fun t : Thread P L α => decide (I.owner t.label = k))
    (b := ⟨l, f (sv.semantics.exec s.world o io).1⟩) hi (by simp [hk]) (by simp [hk])
  have hj' : s'.threads[j]? = some ⟨l, .call o f⟩ := by
    rw [h.threads]
    exact hj
  have hrun : OwnRun I k s' [.act j io] (sv.advance s' j l o f io) := by
    apply Machine.Run.single
    · intro l' hl'
      cases hl'
    · simp [Service.machine, Service.next, hj']
  refine ⟨_, _, hrun, ⟨?_, hstep.2, ?_, ?_, hacts⟩, List.Sublist.refl _⟩
  · simp only [Service.advance, System.ownedBy]
    rw [hset, ← hstep.1, h.threads]
    rfl
  · exact I.keeps _ s.world o io hact h.inv
  · exact I.keeps _ s'.world o io hact h.inv'

theorem act_other (h : Projected I k s s') (hi : s.threads[i]? = some ⟨l, .call o f⟩)
    (hk : I.owner l ≠ k) (io : Φ) :
    Projected I k (sv.advance s i l o f io) s' := by
  obtain ⟨hact, hacts⟩ := h.acts_advance hi io
  refine ⟨?_, ?_, ?_, h.inv', hacts⟩
  · rw [h.threads]
    exact (filter_set_of_neg hi (by simp [hk]) (by simp [hk])).symm
  · exact I.trans k _ _ _ (I.apart k _ s.world o io hk hact h.inv) h.same
  · exact I.keeps _ s.world o io hact h.inv

end Projected

theorem projects {ok : System P L α W → Event L Φ → Prop} {w w' : W} {es : List (Event L Φ)}
    (hspawn : ∀ s l, ok s (.spawn l) → (sv.program l).always I.sound (I.acts (I.owner l)))
    (hw : I.inv w) (hw' : I.inv w') (hsame : I.same k w w')
    (h : sv.machine.Run ok ⟨w, []⟩ es s) :
    ∃ fs s', OwnRun I k ⟨w', []⟩ fs s' ∧ Projected I k s s' ∧
      (fs.map Event.stamp).Sublist (es.map Event.stamp) := by
  induction h with
  | nil =>
    exact ⟨[], ⟨w', []⟩, .nil _, ⟨rfl, hsame, hw, hw', by simp⟩, List.Sublist.refl _⟩
  | snoc hrun hok hnext ih =>
    rename_i t v es e
    obtain ⟨fs, t', hfs, ht, hsub⟩ := ih
    have extend : ∀ {gs v'}, OwnRun I k t' gs v' → Projected I k v v' →
        (gs.map Event.stamp).Sublist [e.stamp] → ∃ fs s', OwnRun I k ⟨w', []⟩ fs s' ∧
          Projected I k v s' ∧ (fs.map Event.stamp).Sublist ((es ++ [e]).map Event.stamp) := by
      intro gs v' hgs hv hstamp
      refine ⟨fs ++ gs, v', hfs.append hgs, hv, ?_⟩
      rw [List.map_append, List.map_append]
      exact hsub.append hstamp
    cases e with
    | spawn l =>
      obtain rfl := Service.next_spawn hnext
      obtain ⟨gs, v', hgs, hv, hstamp⟩ := ht.spawn (hspawn t l hok)
      exact extend hgs hv hstamp
    | act i io =>
      obtain ⟨l, o, f, hi, -, rfl⟩ := Service.next_act hnext
      by_cases hk : I.owner l = k
      · obtain ⟨gs, v', hgs, hv, hstamp⟩ := ht.act_own hi hk io
        exact extend hgs hv hstamp
      · exact extend (.nil t') (ht.act_other hi hk io) (List.nil_sublist _)

end projection

end Interaction
