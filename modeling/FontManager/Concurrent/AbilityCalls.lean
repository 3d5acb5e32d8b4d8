import FontManager.Concurrent.ServiceAbility

open Interaction AbilityProcess

namespace ServiceAbility

-- How many steps of its thread a call still takes at the most.
def remaining : AbilityStage → Nat
  | .idle => 0
  | .checking => 7
  | .locking => 6
  | .rechecking => 5
  | .loading => 4
  | .entered => 3
  | .waiting _ => 2
  | .getting => 1

def busy (st : AbilityStage) : Nat := if st = .idle then 0 else 1

def actor : AbilityStep → Option Nat
  | .getFontServiceAbility t _ | .checkSystemAbility t | .lock t | .recheckSystemAbility t
  | .initStatus t | .refuse t | .loadSystemAbility t | .checkSaLoaded t | .getSystemAbility t => some t
  | .deliver _ _ | .expire _ | .register | .depart => none

def enters (t : Nat) : AbilityStep → Bool
  | .getFontServiceAbility u _ => u = t
  | _ => false

def steps (t : Nat) (es : List AbilityStep) : Nat := es.countP fun e => actor e = some t

def calls (t : Nat) (es : List AbilityStep) : Nat := es.countP (enters t)

def answered (t : Nat) (s : AbilityProcess) : Nat := s.answers.countP fun a => a.1 = t

-- A thread in a call can take its step, or the five seconds of its request can still run out.
inductive Progress (s : AbilityProcess) : Prop
  | acts {t : Nat} {e : AbilityStep} {s' : AbilityProcess} (hbusy : s.stage t ≠ .idle)
      (hactor : actor e = some t) (hnext : machine.next s e = some s')
  | awaits {t n : Nat} {s' : AbilityProcess} (hwaiting : s.stage t = .waiting n)
      (htimely : n ∉ s.expired) (hnext : machine.next s (.expire n) = some s')

structure Advances (s s' : AbilityProcess) (t : Nat) : Prop where
  elsewhere : ∀ u, u ≠ t → s'.stage u = s.stage u ∧ answered u s' = answered u s
  closer : remaining (s'.stage t) + 1 ≤ remaining (s.stage t)
  told : answered t s' + busy (s'.stage t) = answered t s + busy (s.stage t)

variable {s s' : AbilityProcess} {t u : Nat} {st : AbilityStage} {e : AbilityStep}
  {es : List AbilityStep} {found : Bool}

theorem stage_move_ne (h : u ≠ t) : (s.move t st).stage u = s.stage u := by
  simp [AbilityProcess.move, h]

theorem stage_move_self : (s.move t st).stage t = st := by
  simp [AbilityProcess.move]

theorem answered_answer_ne (h : u ≠ t) : answered u (s.answer t found) = answered u s := by
  simp [answered, answer, AbilityProcess.move, Ne.symm h]

theorem answered_answer_self : answered t (s.answer t found) = answered t s + 1 := by
  simp [answered, answer, AbilityProcess.move]

theorem remaining_pos (h : st ≠ .idle) : 1 ≤ remaining st := by
  cases st with
  | idle => exact absurd rfl h
  | checking | locking | rechecking | loading | entered | waiting | getting =>
    simp only [remaining]
    omega

theorem busy_of_ne (h : st ≠ .idle) : busy st = 1 := if_neg h

namespace Advances

theorem of_same {s₁ : AbilityProcess} (h : Advances s s₁ t) (hstage : s'.stage = s₁.stage)
    (hanswers : s'.answers = s₁.answers) : Advances s s' t where
  elsewhere u hu := by
    obtain ⟨hu, ha⟩ := h.elsewhere u hu
    exact ⟨(congrFun hstage u).trans hu, (congrArg (List.countP _) hanswers).trans ha⟩
  closer := hstage ▸ h.closer
  told := by
    have ha : answered t s' = answered t s₁ := congrArg (List.countP _) hanswers
    rw [ha, hstage]
    exact h.told

theorem move (hst : st ≠ .idle) (hcloser : remaining st + 1 ≤ remaining (s.stage t)) :
    Advances s (s.move t st) t where
  elsewhere u hu := ⟨stage_move_ne hu, rfl⟩
  closer := by
    rw [stage_move_self]
    exact hcloser
  told := by
    have hbusy : s.stage t ≠ .idle := by
      intro hidle
      simp [hidle, remaining] at hcloser
    rw [stage_move_self, busy_of_ne hst, busy_of_ne hbusy]
    rfl

theorem answer (hbusy : s.stage t ≠ .idle) : Advances s (s.answer t found) t where
  elsewhere u hu := ⟨stage_move_ne hu, answered_answer_ne hu⟩
  closer := by
    have hidle : (s.answer t found).stage t = .idle := stage_move_self
    rw [hidle]
    exact remaining_pos hbusy
  told := by
    have hidle : (s.answer t found).stage t = .idle := stage_move_self
    rw [hidle, answered_answer_self, busy_of_ne hbusy]
    rfl

theorem leave (hbusy : s.stage t ≠ .idle) : Advances s (s.leave t found) t :=
  have hanswer : Advances s (s.answer t found) t := answer hbusy
  hanswer.of_same rfl rfl

end Advances

theorem advances_step (hactor : actor e = some t) (henters : enters t e = false)
    (hnext : machine.next s e = some s') : Advances s s' t := by
  cases e with
  | deliver | expire | register | depart => cases hactor
  | getFontServiceAbility =>
    cases hactor
    simp [enters] at henters
  | checkSystemAbility =>
    cases hactor
    obtain ⟨hstage, ⟨⟩⟩ := Option.ite_none_right_eq_some.mp hnext
    split
    · exact .answer (by simp [hstage])
    · exact .move (by simp) (by simp [hstage, remaining])
  | lock =>
    cases hactor
    obtain ⟨⟨hstage, -⟩, ⟨⟩⟩ := Option.ite_none_right_eq_some.mp hnext
    have hmove : Advances s (s.move t .rechecking) t := .move (by simp) (by simp [hstage, remaining])
    exact hmove.of_same rfl rfl
  | recheckSystemAbility =>
    cases hactor
    obtain ⟨hstage, ⟨⟩⟩ := Option.ite_none_right_eq_some.mp hnext
    split
    · exact .leave (by simp [hstage])
    · exact .move (by simp) (by simp [hstage, remaining])
  | initStatus =>
    cases hactor
    obtain ⟨hstage, ⟨⟩⟩ := Option.ite_none_right_eq_some.mp hnext
    have hmove : Advances s (s.move t .entered) t := .move (by simp) (by simp [hstage, remaining])
    exact hmove.of_same rfl rfl
  | refuse =>
    cases hactor
    obtain ⟨hstage, ⟨⟩⟩ := Option.ite_none_right_eq_some.mp hnext
    have hleave : Advances s (s.leave t false) t := .leave (by simp [hstage])
    exact hleave.of_same rfl rfl
  | loadSystemAbility =>
    cases hactor
    obtain ⟨hstage, ⟨⟩⟩ := Option.ite_none_right_eq_some.mp hnext
    have hmove : Advances s (s.move t (.waiting s.requests)) t :=
      .move (by simp) (by simp [hstage, remaining])
    exact hmove.of_same rfl rfl
  | checkSaLoaded =>
    cases hactor
    simp only [machine, next] at hnext
    split at hnext
    · rename_i n hstage
      obtain ⟨-, ⟨⟩⟩ := Option.ite_none_right_eq_some.mp hnext
      have hback : Advances s
          (if s.manager.checkSaLoaded then s.move t .getting else s.leave t false) t := by
        split
        · exact .move (by simp) (by simp [hstage, remaining])
        · exact .leave (by simp [hstage])
      exact hback.of_same rfl rfl
    · cases hnext
  | getSystemAbility =>
    cases hactor
    obtain ⟨hstage, ⟨⟩⟩ := Option.ite_none_right_eq_some.mp hnext
    exact .leave (by simp [hstage])

theorem other_step (hactor : actor e ≠ some t) (hnext : machine.next s e = some s') :
    s'.stage t = s.stage t ∧ answered t s' = answered t s := by
  cases hu : actor e with
  | some u =>
    have hne : t ≠ u := by
      rintro rfl
      exact hactor hu
    cases henters : enters u e with
    | false => exact (advances_step hu henters hnext).elsewhere t hne
    | true =>
      cases e with
      | getFontServiceAbility v manager =>
        cases hu
        obtain ⟨-, ⟨⟩⟩ := Option.ite_none_right_eq_some.mp hnext
        split
        · exact ⟨stage_move_ne hne, rfl⟩
        · exact ⟨stage_move_ne hne, answered_answer_ne hne⟩
      | checkSystemAbility | lock | recheckSystemAbility | initStatus | refuse | loadSystemAbility
      | checkSaLoaded | getSystemAbility | deliver | expire | register | depart => cases henters
  | none =>
    cases e with
    | getFontServiceAbility | checkSystemAbility | lock | recheckSystemAbility | initStatus | refuse
    | loadSystemAbility | checkSaLoaded | getSystemAbility => cases hu
    | register =>
      cases hnext
      exact ⟨rfl, rfl⟩
    | deliver | expire | depart =>
      obtain ⟨-, ⟨⟩⟩ := Option.ite_none_right_eq_some.mp hnext
      exact ⟨rfl, rfl⟩

theorem enter_step {manager : Bool}
    (hnext : machine.next s (.getFontServiceAbility t manager) = some s') :
    s.stage t = .idle ∧ (s'.stage t = .checking ∧ answered t s' = answered t s ∨
      s'.stage t = .idle ∧ answered t s' = answered t s + 1) := by
  obtain ⟨hstage, ⟨⟩⟩ := Option.ite_none_right_eq_some.mp hnext
  refine ⟨hstage, ?_⟩
  split
  · exact .inl ⟨stage_move_self, rfl⟩
  · exact .inr ⟨stage_move_self, answered_answer_self⟩

theorem counts_step (hnext : machine.next s e = some s') (t : Nat) :
    steps t [e] + remaining (s'.stage t) ≤ remaining (s.stage t) + 8 * calls t [e] ∧
      answered t s' + busy (s'.stage t) = answered t s + busy (s.stage t) + calls t [e] := by
  by_cases hactor : actor e = some t
  · have hstep : steps t [e] = 1 := by simp [steps, hactor]
    cases henters : enters t e with
    | false =>
      have hcalls : calls t [e] = 0 := by simp [calls, henters]
      have h := advances_step hactor henters hnext
      have hcloser := h.closer
      have htold := h.told
      omega
    | true =>
      have hcalls : calls t [e] = 1 := by simp [calls, henters]
      cases e with
      | getFontServiceAbility u manager =>
        cases hactor
        obtain ⟨hidle, ⟨hstage, hanswered⟩ | ⟨hstage, hanswered⟩⟩ := enter_step hnext
        · rw [hstep, hcalls, hidle, hstage, hanswered]
          exact ⟨Nat.le_refl _, rfl⟩
        · rw [hstep, hcalls, hidle, hstage, hanswered]
          exact ⟨by decide, rfl⟩
      | checkSystemAbility | lock | recheckSystemAbility | initStatus | refuse | loadSystemAbility
      | checkSaLoaded | getSystemAbility | deliver | expire | register | depart => cases henters
  · have hstep : steps t [e] = 0 := by simp [steps, hactor]
    have hcalls : calls t [e] = 0 := by
      cases e with
      | getFontServiceAbility u manager =>
        have hne : u ≠ t := fun h => hactor (congrArg some h)
        simp [calls, enters, hne]
      | checkSystemAbility | lock | recheckSystemAbility | initStatus | refuse | loadSystemAbility
      | checkSaLoaded | getSystemAbility | deliver | expire | register | depart => rfl
    obtain ⟨hstage, hanswered⟩ := other_step hactor hnext
    rw [hstep, hcalls, hstage, hanswered]
    exact ⟨by omega, rfl⟩

theorem counts_run {ok : AbilityProcess → AbilityStep → Prop} (h : machine.Run ok start es s)
    (t : Nat) :
    steps t es + remaining (s.stage t) ≤ 8 * calls t es ∧
      answered t s + busy (s.stage t) = calls t es := by
  induction h with
  | nil => exact ⟨Nat.le_refl _, rfl⟩
  | @snoc s₁ s₂ es e _ _ hnext ih =>
    obtain ⟨hsteps, hanswered⟩ := ih
    obtain ⟨hstep, hanswer⟩ := counts_step hnext t
    have happend : steps t (es ++ [e]) = steps t es + steps t [e] := List.countP_append
    have hcalls : calls t (es ++ [e]) = calls t es + calls t [e] := List.countP_append
    omega

def Sent (s : AbilityProcess) : Prop := ∀ t n, s.stage t = .waiting n → n < s.requests

namespace Sent

theorem move (h : Sent s) (hst : ∀ n, st = .waiting n → n < s.requests) : Sent (s.move t st) := by
  intro u n hu
  by_cases hut : u = t
  · subst hut
    exact hst n (stage_move_self.symm.trans hu)
  · exact h u n ((stage_move_ne hut).symm.trans hu)

theorem answer (h : Sent s) : Sent (s.answer t found) :=
  have hmoved : Sent (s.move t .idle) := h.move (by simp)
  hmoved

theorem leave (h : Sent s) : Sent (s.leave t found) :=
  have hanswer : Sent (s.answer t found) := h.answer
  hanswer

end Sent

theorem sent_step (h : Sent s) (hnext : machine.next s e = some s') : Sent s' := by
  cases e with
  | getFontServiceAbility t manager =>
    obtain ⟨-, ⟨⟩⟩ := Option.ite_none_right_eq_some.mp hnext
    split
    · exact h.move (by simp)
    · exact h.answer
  | checkSystemAbility t =>
    obtain ⟨-, ⟨⟩⟩ := Option.ite_none_right_eq_some.mp hnext
    split
    · exact h.answer
    · exact h.move (by simp)
  | lock t =>
    obtain ⟨-, ⟨⟩⟩ := Option.ite_none_right_eq_some.mp hnext
    have hmoved : Sent (s.move t .rechecking) := h.move (by simp)
    exact hmoved
  | recheckSystemAbility t =>
    obtain ⟨-, ⟨⟩⟩ := Option.ite_none_right_eq_some.mp hnext
    split
    · exact h.leave
    · exact h.move (by simp)
  | initStatus t =>
    obtain ⟨-, ⟨⟩⟩ := Option.ite_none_right_eq_some.mp hnext
    have hmoved : Sent (s.move t .entered) := h.move (by simp)
    exact hmoved
  | refuse t =>
    obtain ⟨-, ⟨⟩⟩ := Option.ite_none_right_eq_some.mp hnext
    have hleft : Sent (s.leave t false) := h.leave
    exact hleft
  | loadSystemAbility t =>
    obtain ⟨-, ⟨⟩⟩ := Option.ite_none_right_eq_some.mp hnext
    have hgrown : Sent { s with requests := s.requests + 1 } :=
      fun u n hu => Nat.lt_succ_of_lt (h u n hu)
    have hmoved :
        Sent (AbilityProcess.move { s with requests := s.requests + 1 } t (.waiting s.requests)) :=
      hgrown.move fun n hn => by
        cases hn
        exact Nat.lt_succ_self _
    exact hmoved
  | checkSaLoaded t =>
    simp only [machine, next] at hnext
    split at hnext
    · obtain ⟨-, ⟨⟩⟩ := Option.ite_none_right_eq_some.mp hnext
      have hback : Sent (if s.manager.checkSaLoaded then s.move t .getting else s.leave t false) := by
        split
        · exact h.move (by simp)
        · exact h.leave
      exact hback
    · cases hnext
  | getSystemAbility t =>
    obtain ⟨-, ⟨⟩⟩ := Option.ite_none_right_eq_some.mp hnext
    exact h.leave
  | register =>
    cases hnext
    exact h
  | deliver | expire | depart =>
    obtain ⟨-, ⟨⟩⟩ := Option.ite_none_right_eq_some.mp hnext
    exact h

-- A thread that holds loadMutex_ never waits for another thread.
theorem progress_locked (hsent : Sent s) (hlocked : (s.stage t).locked = true) : Progress s := by
  have hbusy : s.stage t ≠ .idle := by
    intro hidle
    rw [hidle] at hlocked
    cases hlocked
  cases hstage : s.stage t with
  | idle | checking | locking =>
    rw [hstage] at hlocked
    cases hlocked
  | rechecking => exact .acts (e := .recheckSystemAbility t) hbusy rfl (if_pos hstage)
  | loading => exact .acts (e := .initStatus t) hbusy rfl (if_pos hstage)
  | entered => exact .acts (e := .loadSystemAbility t) hbusy rfl (if_pos hstage)
  | getting => exact .acts (e := .getSystemAbility t) hbusy rfl (if_pos hstage)
  | waiting n =>
    by_cases hexpired : n ∈ s.expired
    · have hback : s.manager.waitStatus = true ∨ n ∈ s.expired := .inr hexpired
      have hnext : machine.next s (.checkSaLoaded t) =
          some { (if s.manager.checkSaLoaded then s.move t .getting else s.leave t false) with
            results := s.results ++ [(some n, s.manager.checkSaLoaded)] } := by
        simp only [machine, next, hstage]
        exact if_pos hback
      exact .acts hbusy rfl hnext
    · exact .awaits hstage hexpired (if_pos (hsent t n hstage))

theorem progress (h : Exclusive s) (hsent : Sent s) (hbusy : s.stage t ≠ .idle) : Progress s := by
  cases hstage : s.stage t with
  | idle => exact absurd hstage hbusy
  | checking => exact .acts (e := .checkSystemAbility t) hbusy rfl (if_pos hstage)
  | locking =>
    cases howner : s.loadMutex with
    | none => exact .acts (e := .lock t) hbusy rfl (if_pos ⟨hstage, howner⟩)
    | some u => exact progress_locked hsent ((h u).mpr howner)
  | rechecking | loading | entered | waiting | getting =>
    exact progress_locked hsent (by rw [hstage]; rfl)

theorem calls_end (h : machine.Run (fun _ _ => True) start es s) (t : Nat) :
    steps t es + remaining (s.stage t) ≤ 8 * calls t es ∧
      answered t s + busy (s.stage t) = calls t es ∧ (s.stage t ≠ .idle → Progress s) := by
  obtain ⟨hsteps, hanswered⟩ := counts_run h t
  have hsent : Sent s :=
    h.invariant (fun _ _ _ hs _ hnext => sent_step hs hnext) (fun _ _ hwaiting => by cases hwaiting)
  exact ⟨hsteps, hanswered, progress (simulates.invariant exclusive_start h) hsent⟩

theorem race_calls_end :
    ∃ s : AbilityProcess, s.answers = [(1, true), (0, true)] ∧
      steps 0 race + remaining (s.stage 0) ≤ 8 * calls 0 race ∧
      answered 0 s + busy (s.stage 0) = calls 0 race ∧ (s.stage 0 ≠ .idle → Progress s) := by
  obtain ⟨s, hrun, hs⟩ := Machine.exists_run_of_replay (m := machine) (fun _ _ => true)
    (fun s => s.answers = [(1, true), (0, true)]) start race (by decide)
  exact ⟨s, by simpa using hs, calls_end (hrun.mono fun _ _ _ => trivial) 0⟩

end ServiceAbility
