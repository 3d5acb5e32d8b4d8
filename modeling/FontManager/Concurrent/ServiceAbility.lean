import FontManager.Interaction.Simulation
import FontManager.Source.ServiceAbility

open Interaction AbilityProcess

namespace ServiceAbility

def Exclusive (s : AbilityProcess) : Prop := ∀ t, (s.stage t).locked = true ↔ s.loadMutex = some t

def current (s : AbilityProcess) : Option AbilityStage := s.loadMutex.map s.stage

-- The process as LoadSa sees it: its call is that of the thread that holds loadMutex_.
def loads (s : AbilityProcess) : LoadProcess where
  manager := s.manager
  call := (current s).bind AbilityStage.call
  requests := s.requests
  inFlight := s.inFlight
  expired := s.expired
  succeeded := s.succeeded
  timely := s.timely
  results := s.results

variable {s s' : AbilityProcess} {t u : Nat} {st st' : AbilityStage} {e : AbilityStep} {f : LoadStep}
  {es : List AbilityStep} {found : Bool}

theorem exclusive_start : Exclusive start := fun t => by simp [start, AbilityStage.locked]

namespace Exclusive

theorem alone (h : Exclusive s) (ht : (s.stage t).locked = true) (hu : (s.stage u).locked = true) :
    t = u :=
  Option.some.inj (((h t).mp ht).symm.trans ((h u).mp hu))

theorem move (h : Exclusive s) (hstage : s.stage t = st) (hlocked : st'.locked = st.locked) :
    Exclusive (s.move t st') := by
  intro u
  by_cases hu : u = t
  · subst hu
    simpa [AbilityProcess.move, hlocked, ← hstage] using h u
  · simpa [AbilityProcess.move, hu] using h u

theorem lock (h : Exclusive s) (hfree : s.loadMutex = none) (hst : st.locked = true) :
    Exclusive { s.move t st with loadMutex := some t } := by
  intro u
  by_cases hu : u = t
  · subst hu
    simp [AbilityProcess.move, hst]
  · have hout : (s.stage u).locked = false := by simpa [hfree] using h u
    simp [AbilityProcess.move, hu, hout, Ne.symm hu]

theorem leave (h : Exclusive s) (hstage : s.stage t = st) (hlocked : st.locked = true) :
    Exclusive (s.leave t found) := by
  intro u
  by_cases hu : u = t
  · subst hu
    simp [AbilityProcess.leave, answer, AbilityProcess.move, AbilityStage.locked]
  · have hout : (s.stage u).locked ≠ true := fun hin =>
      hu (h.alone hin (hstage ▸ hlocked))
    simpa [AbilityProcess.leave, answer, AbilityProcess.move, hu] using hout

end Exclusive

theorem current_of_stage (h : Exclusive s) (hstage : s.stage t = st) (hlocked : st.locked = true) :
    current s = some st := by
  rw [current, (h t).mp (hstage ▸ hlocked), Option.map_some, hstage]

theorem current_move (h : Exclusive s) (hstage : s.stage t = st) (hlocked : st.locked = true) :
    current (s.move t st') = some st' := by
  simp [current, AbilityProcess.move, (h t).mp (hstage ▸ hlocked)]

theorem current_apart (h : Exclusive s) (hstage : s.stage t = st) (hlocked : st.locked = false) :
    current (s.move t st') = current s := by
  cases howner : s.loadMutex with
  | none => simp [current, AbilityProcess.move, howner]
  | some u =>
    have hne : u ≠ t := by
      rintro rfl
      have hheld := (h u).mpr howner
      rw [hstage, hlocked] at hheld
      cases hheld
    simp [current, AbilityProcess.move, howner, hne]

theorem call_of_stage (h : Exclusive s) (hstage : s.stage t = st) (hlocked : st.locked = true) :
    (loads s).call = st.call :=
  congrArg (fun c => c.bind AbilityStage.call) (current_of_stage h hstage hlocked)

theorem loads_move (h : Exclusive s) (hstage : s.stage t = st) (hlocked : st.locked = true) :
    loads (s.move t st') = { loads s with call := st'.call } :=
  congrArg (fun c : Option AbilityStage => { loads s with call := c.bind AbilityStage.call })
    (current_move h hstage hlocked)

theorem loads_apart (h : Exclusive s) (hstage : s.stage t = st) (hlocked : st.locked = false) :
    loads (s.move t st') = loads s :=
  congrArg (fun c : Option AbilityStage => { loads s with call := c.bind AbilityStage.call })
    (current_apart h hstage hlocked)

theorem loads_idle (h : Exclusive s) (hstage : s.stage t = st) (hlocked : st.locked = true)
    (hcall : st.call = none) : { loads s with call := none } = loads s :=
  congrArg (fun c : Option LoadSaCall => { loads s with call := c })
    ((call_of_stage h hstage hlocked).trans hcall).symm

theorem exclusive_step (h : Exclusive s) (hnext : machine.next s e = some s') : Exclusive s' := by
  cases e with
  | getFontServiceAbility t manager =>
    obtain ⟨hstage, ⟨⟩⟩ := Option.ite_none_right_eq_some.mp hnext
    split
    · exact h.move hstage rfl
    · exact h.move hstage rfl
  | checkSystemAbility t =>
    obtain ⟨hstage, ⟨⟩⟩ := Option.ite_none_right_eq_some.mp hnext
    split
    · exact h.move hstage rfl
    · exact h.move hstage rfl
  | lock t =>
    obtain ⟨⟨-, hfree⟩, ⟨⟩⟩ := Option.ite_none_right_eq_some.mp hnext
    exact h.lock hfree rfl
  | recheckSystemAbility t =>
    obtain ⟨hstage, ⟨⟩⟩ := Option.ite_none_right_eq_some.mp hnext
    split
    · exact h.leave hstage rfl
    · exact h.move hstage rfl
  | initStatus t =>
    obtain ⟨hstage, ⟨⟩⟩ := Option.ite_none_right_eq_some.mp hnext
    exact h.move hstage rfl
  | refuse t =>
    obtain ⟨hstage, ⟨⟩⟩ := Option.ite_none_right_eq_some.mp hnext
    have hleft : Exclusive (s.leave t false) := h.leave hstage rfl
    exact hleft
  | loadSystemAbility t =>
    obtain ⟨hstage, ⟨⟩⟩ := Option.ite_none_right_eq_some.mp hnext
    have hmoved : Exclusive (s.move t (.waiting s.requests)) := h.move hstage rfl
    exact hmoved
  | checkSaLoaded t =>
    simp only [machine, next] at hnext
    split at hnext
    · rename_i n hstage
      obtain ⟨-, ⟨⟩⟩ := Option.ite_none_right_eq_some.mp hnext
      have hback : Exclusive
          (if s.manager.checkSaLoaded then s.move t .getting else s.leave t false) := by
        split
        · exact h.move hstage rfl
        · exact h.leave hstage rfl
      exact hback
    · cases hnext
  | getSystemAbility t =>
    obtain ⟨hstage, ⟨⟩⟩ := Option.ite_none_right_eq_some.mp hnext
    exact h.leave hstage rfl
  | deliver n loaded =>
    obtain ⟨-, ⟨⟩⟩ := Option.ite_none_right_eq_some.mp hnext
    exact h
  | expire n =>
    obtain ⟨-, ⟨⟩⟩ := Option.ite_none_right_eq_some.mp hnext
    exact h
  | register =>
    cases hnext
    exact h
  | depart =>
    obtain ⟨-, ⟨⟩⟩ := Option.ite_none_right_eq_some.mp hnext
    exact h

theorem load_silent (h : Exclusive s) (hnext : machine.next s e = some s') (hload : e.load = none) :
    loads s' = loads s := by
  cases e with
  | getFontServiceAbility t manager =>
    obtain ⟨hstage, ⟨⟩⟩ := Option.ite_none_right_eq_some.mp hnext
    split
    · exact loads_apart h hstage rfl
    · exact loads_apart h hstage rfl
  | checkSystemAbility t =>
    obtain ⟨hstage, ⟨⟩⟩ := Option.ite_none_right_eq_some.mp hnext
    split
    · exact loads_apart h hstage rfl
    · exact loads_apart h hstage rfl
  | lock t =>
    obtain ⟨⟨-, hfree⟩, ⟨⟩⟩ := Option.ite_none_right_eq_some.mp hnext
    simp [loads, current, hfree, AbilityProcess.move, AbilityStage.call]
  | recheckSystemAbility t =>
    obtain ⟨hstage, ⟨⟩⟩ := Option.ite_none_right_eq_some.mp hnext
    have hidle : { loads s with call := none } = loads s := loads_idle h hstage rfl rfl
    split
    · exact hidle
    · exact (loads_move h hstage rfl).trans hidle
  | getSystemAbility t =>
    obtain ⟨hstage, ⟨⟩⟩ := Option.ite_none_right_eq_some.mp hnext
    have hidle : { loads s with call := none } = loads s := loads_idle h hstage rfl rfl
    exact hidle
  | initStatus | refuse | loadSystemAbility | checkSaLoaded | deliver | expire => cases hload
  | register =>
    cases hnext
    rfl
  | depart =>
    obtain ⟨-, ⟨⟩⟩ := Option.ite_none_right_eq_some.mp hnext
    rfl

theorem load_follows (h : Exclusive s) (hnext : machine.next s e = some s') (hload : e.load = some f) :
    LoadProcess.machine.next (loads s) f = some (loads s') := by
  cases e with
  | getFontServiceAbility | checkSystemAbility | lock | recheckSystemAbility | getSystemAbility
  | register | depart => cases hload
  | initStatus t =>
    cases hload
    obtain ⟨hstage, ⟨⟩⟩ := Option.ite_none_right_eq_some.mp hnext
    have hcall : (loads s).call = none := call_of_stage h hstage rfl
    have hmoved : loads (s.move t .entered) = { loads s with call := some .entered } :=
      loads_move h hstage rfl
    exact (if_pos hcall).trans
      (congrArg (fun p : LoadProcess => some { p with manager := s.manager.initStatus }) hmoved).symm
  | refuse t =>
    cases hload
    obtain ⟨hstage, ⟨⟩⟩ := Option.ite_none_right_eq_some.mp hnext
    have hcall : (loads s).call = some .entered := call_of_stage h hstage rfl
    exact if_pos hcall
  | loadSystemAbility t =>
    cases hload
    obtain ⟨hstage, ⟨⟩⟩ := Option.ite_none_right_eq_some.mp hnext
    have hcall : (loads s).call = some .entered := call_of_stage h hstage rfl
    have hmoved : loads (s.move t (.waiting s.requests)) =
        { loads s with call := some (.waiting s.requests) } := loads_move h hstage rfl
    exact (if_pos hcall).trans
      (congrArg (fun p : LoadProcess => some { p with
        requests := s.requests + 1
        inFlight := s.inFlight ++ [s.requests] }) hmoved).symm
  | checkSaLoaded t =>
    cases hload
    simp only [machine, next] at hnext
    split at hnext
    · rename_i n hstage
      obtain ⟨hback, ⟨⟩⟩ := Option.ite_none_right_eq_some.mp hnext
      have hcall : (loads s).call = some (.waiting n) := call_of_stage h hstage rfl
      have hover : loads (if s.manager.checkSaLoaded then s.move t .getting else s.leave t false) =
          { loads s with call := none } := by
        split
        · exact loads_move h hstage rfl
        · rfl
      simp only [LoadProcess.machine, LoadProcess.next, hcall]
      exact (if_pos hback).trans
        (congrArg (fun p : LoadProcess => some { p with
          results := s.results ++ [(some n, s.manager.checkSaLoaded)] }) hover).symm
    · cases hnext
  | deliver n loaded =>
    cases hload
    obtain ⟨hn, ⟨⟩⟩ := Option.ite_none_right_eq_some.mp hnext
    exact if_pos hn
  | expire n =>
    cases hload
    obtain ⟨hn, ⟨⟩⟩ := Option.ite_none_right_eq_some.mp hnext
    exact if_pos hn

theorem simulates : Simulation machine LoadProcess.machine Exclusive loads AbilityStep.load where
  keeps := exclusive_step
  silent := load_silent
  follows := load_follows

theorem loads_one_at_a_time {ok : LoadProcess → LoadStep → Prop}
    (h : machine.Run (fun s e => ∀ f, e.load = some f → ok (loads s) f) start es s) :
    (∀ t u, (s.stage t).locked = true → (s.stage u).locked = true → t = u) ∧
      LoadProcess.machine.Run ok LoadProcess.start (es.filterMap AbilityStep.load) (loads s) :=
  ⟨fun _ _ => (simulates.invariant exclusive_start h).alone,
    simulates.run (fun _ _ f hok => hok f) exclusive_start h⟩

section thrift

def loaded (results : List (Option Nat × Bool)) : Nat := results.countP fun r => r.2

def failed (results : List (Option Nat × Bool)) : Nat := results.countP fun r => r.1.isSome && !r.2

def outstanding (p : LoadProcess) : Nat :=
  match p.call with
  | some (.waiting _) => 1
  | _ => 0

theorem loaded_append (results : List (Option Nat × Bool)) (r : Option Nat) (b : Bool) :
    loaded (results ++ [(r, b)]) = loaded results + b.toNat := by
  cases b <;> simp [loaded]

theorem failed_append (results : List (Option Nat × Bool)) (n : Nat) (b : Bool) :
    failed (results ++ [(some n, b)]) = failed results + (!b).toNat := by
  cases b <;> simp [failed]

-- Every request that left has come back with a verdict, save that of the call that waits.
def Accounted (p : LoadProcess) : Prop :=
  p.requests = loaded p.results + failed p.results + outstanding p

theorem accounted_step {p p' : LoadProcess} (h : Accounted p)
    (hnext : LoadProcess.machine.next p f = some p') : Accounted p' := by
  cases f with
  | initStatus =>
    obtain ⟨hcall, ⟨⟩⟩ := Option.ite_none_right_eq_some.mp hnext
    simpa [Accounted, outstanding, hcall] using h
  | refuse =>
    obtain ⟨hcall, ⟨⟩⟩ := Option.ite_none_right_eq_some.mp hnext
    simpa [Accounted, outstanding, hcall, loaded, failed] using h
  | loadSystemAbility =>
    obtain ⟨hcall, ⟨⟩⟩ := Option.ite_none_right_eq_some.mp hnext
    simpa [Accounted, outstanding, hcall] using h
  | deliver n loaded =>
    obtain ⟨-, ⟨⟩⟩ := Option.ite_none_right_eq_some.mp hnext
    exact h
  | expire n =>
    obtain ⟨-, ⟨⟩⟩ := Option.ite_none_right_eq_some.mp hnext
    exact h
  | checkSaLoaded =>
    simp only [LoadProcess.machine, LoadProcess.next] at hnext
    split at hnext
    · rename_i n hcall
      obtain ⟨-, ⟨⟩⟩ := Option.ite_none_right_eq_some.mp hnext
      have hone : p.requests = loaded p.results + failed p.results + 1 := by
        simpa [Accounted, outstanding, hcall] using h
      have hverdict : p.manager.checkSaLoaded.toNat + (!p.manager.checkSaLoaded).toNat = 1 := by
        cases p.manager.checkSaLoaded <;> rfl
      simp only [Accounted, outstanding, loaded_append, failed_append]
      omega
    · cases hnext

def unserved : AbilityStage → Bool
  | .loading | .entered | .waiting _ => true
  | _ => false

-- A load is reported to have succeeded only while the ability is registered.
def prompt (s : AbilityProcess) : AbilityStep → Bool
  | .deliver _ loaded => !loaded || s.registered
  | _ => true

structure Thrifty (s : AbilityProcess) : Prop where
  exclusive : Exclusive s
  spent : loaded s.results ≤ s.departures + s.registered.toNat
  unserved : ∀ st, current s = some st → unserved st = true → loaded s.results ≤ s.departures
  reported : ∀ st, current s = some st → st.call.isSome = true →
    s.manager.loadSaStatus = .success → loaded s.results < s.departures + s.registered.toNat

theorem thrifty_start : Thrifty start where
  exclusive := exclusive_start
  spent := Nat.le_refl _
  unserved _ h := by cases h
  reported _ h := by cases h

namespace Thrifty

theorem of_current_none (hexclusive : Exclusive s) (hcurrent : current s = none)
    (hspent : loaded s.results ≤ s.departures + s.registered.toNat) : Thrifty s where
  exclusive := hexclusive
  spent := hspent
  unserved st h := by rw [hcurrent] at h; cases h
  reported st h := by rw [hcurrent] at h; cases h

theorem of_current (hexclusive : Exclusive s) (hcurrent : current s = some st)
    (hspent : loaded s.results ≤ s.departures + s.registered.toNat)
    (hunserved : ServiceAbility.unserved st = true → loaded s.results ≤ s.departures)
    (hreported : st.call.isSome = true → s.manager.loadSaStatus = .success →
      loaded s.results < s.departures + s.registered.toNat) : Thrifty s where
  exclusive := hexclusive
  spent := hspent
  unserved st' h := by
    obtain rfl := Option.some.inj (hcurrent.symm.trans h)
    exact hunserved
  reported st' h := by
    obtain rfl := Option.some.inj (hcurrent.symm.trans h)
    exact hreported

theorem apart (h : Thrifty s) (hstage : s.stage t = st) (hout : st.locked = false)
    (hst : st'.locked = false) : Thrifty (s.move t st') where
  exclusive := h.exclusive.move hstage (hst.trans hout.symm)
  spent := h.spent
  unserved _ h' := h.unserved _ (current_apart h.exclusive hstage hout ▸ h')
  reported _ h' := h.reported _ (current_apart h.exclusive hstage hout ▸ h')

theorem answer (h : Thrifty s) (hstage : s.stage t = st) (hout : st.locked = false) :
    Thrifty (s.answer t found) :=
  have hmoved : Thrifty (s.move t .idle) := h.apart hstage hout rfl
  ⟨hmoved.exclusive, hmoved.spent, hmoved.unserved, hmoved.reported⟩

theorem leave (h : Thrifty s) (hstage : s.stage t = st) (hlocked : st.locked = true) :
    Thrifty (s.leave t found) :=
  of_current_none (h.exclusive.leave hstage hlocked) rfl h.spent

end Thrifty

theorem unserved_of_call (h : st.call.isSome = true) : unserved st = true := by
  cases st with
  | entered | waiting => rfl
  | idle | checking | locking | rechecking | loading | getting => cases h

theorem success_of_checked {m : FontServiceLoadManager} (h : m.checkSaLoaded = true) :
    m.loadSaStatus = .success := by
  have hboth : m.waitStatus = true ∧ m.loadSaStatus = .success := by
    simpa [FontServiceLoadManager.checkSaLoaded] using h
  exact hboth.2

theorem thrifty_step (h : Thrifty s) (hprompt : prompt s e = true)
    (hnext : machine.next s e = some s') : Thrifty s' := by
  have hexclusive := exclusive_step h.exclusive hnext
  cases e with
  | getFontServiceAbility t manager =>
    obtain ⟨hstage, ⟨⟩⟩ := Option.ite_none_right_eq_some.mp hnext
    split
    · exact h.apart hstage rfl rfl
    · exact h.answer hstage rfl
  | checkSystemAbility t =>
    obtain ⟨hstage, ⟨⟩⟩ := Option.ite_none_right_eq_some.mp hnext
    split
    · exact h.answer hstage rfl
    · exact h.apart hstage rfl rfl
  | lock t =>
    obtain ⟨-, ⟨⟩⟩ := Option.ite_none_right_eq_some.mp hnext
    have hnow : current { s.move t .rechecking with loadMutex := some t } = some .rechecking := by
      simp [current, AbilityProcess.move]
    exact .of_current hexclusive hnow h.spent (fun hu => by cases hu) (fun hc => by cases hc)
  | recheckSystemAbility t =>
    obtain ⟨hstage, ⟨⟩⟩ := Option.ite_none_right_eq_some.mp hnext
    split
    · exact h.leave hstage rfl
    · next hmissing =>
      have hspent : loaded s.results ≤ s.departures := by simpa [hmissing] using h.spent
      have hmove : Exclusive (s.move t .loading) := h.exclusive.move hstage rfl
      exact .of_current hmove (current_move h.exclusive hstage rfl) h.spent (fun _ => hspent)
        (fun hc => by cases hc)
  | initStatus t =>
    obtain ⟨hstage, ⟨⟩⟩ := Option.ite_none_right_eq_some.mp hnext
    exact .of_current hexclusive (current_move h.exclusive hstage rfl) h.spent
      (fun _ => h.unserved _ (current_of_stage h.exclusive hstage rfl) rfl) (fun _ hs => by cases hs)
  | refuse t =>
    obtain ⟨hstage, ⟨⟩⟩ := Option.ite_none_right_eq_some.mp hnext
    refine .of_current_none hexclusive rfl ?_
    change loaded (s.results ++ [(none, false)]) ≤ _
    rw [loaded_append]
    exact h.spent
  | loadSystemAbility t =>
    obtain ⟨hstage, ⟨⟩⟩ := Option.ite_none_right_eq_some.mp hnext
    exact .of_current hexclusive (current_move h.exclusive hstage rfl) h.spent
      (fun _ => h.unserved _ (current_of_stage h.exclusive hstage rfl) rfl)
      (fun _ hs => h.reported _ (current_of_stage h.exclusive hstage rfl) rfl hs)
  | checkSaLoaded t =>
    simp only [machine, next] at hnext
    split at hnext
    · rename_i n hstage
      obtain ⟨-, ⟨⟩⟩ := Option.ite_none_right_eq_some.mp hnext
      cases hverdict : s.manager.checkSaLoaded with
      | true =>
        rw [hverdict] at hexclusive
        have hgained : loaded s.results < s.departures + s.registered.toNat :=
          h.reported _ (current_of_stage h.exclusive hstage rfl) rfl (success_of_checked hverdict)
        refine .of_current hexclusive (current_move h.exclusive hstage rfl) ?_ (fun hu => by cases hu)
          (fun hc => by cases hc)
        change loaded (s.results ++ [(some n, true)]) ≤ _
        rw [loaded_append]
        exact hgained
      | false =>
        rw [hverdict] at hexclusive
        refine .of_current_none hexclusive rfl ?_
        change loaded (s.results ++ [(some n, false)]) ≤ _
        rw [loaded_append]
        exact h.spent
    · cases hnext
  | getSystemAbility t =>
    obtain ⟨hstage, ⟨⟩⟩ := Option.ite_none_right_eq_some.mp hnext
    exact h.leave hstage rfl
  | deliver n loaded =>
    obtain ⟨-, ⟨⟩⟩ := Option.ite_none_right_eq_some.mp hnext
    cases loaded with
    | true =>
      have hregistered : s.registered = true := hprompt
      refine ⟨h.exclusive, h.spent, h.unserved, fun st hst hc _ => ?_⟩
      have hbefore := h.unserved st hst (unserved_of_call hc)
      change _ < s.departures + s.registered.toNat
      rw [hregistered]
      exact Nat.lt_succ_of_le hbefore
    | false => exact ⟨h.exclusive, h.spent, h.unserved, fun _ _ _ hs => by cases hs⟩
  | expire n =>
    obtain ⟨-, ⟨⟩⟩ := Option.ite_none_right_eq_some.mp hnext
    exact ⟨h.exclusive, h.spent, h.unserved, h.reported⟩
  | register =>
    cases hnext
    refine ⟨h.exclusive, ?_, h.unserved, fun st hst hc _ => ?_⟩
    · exact h.spent.trans (Nat.add_le_add_left (Bool.toNat_le _) _)
    · exact Nat.lt_succ_of_le (h.unserved st hst (unserved_of_call hc))
  | depart =>
    obtain ⟨hregistered, ⟨⟩⟩ := Option.ite_none_right_eq_some.mp hnext
    have hspent : loaded s.results ≤ s.departures + 1 := by simpa [hregistered] using h.spent
    refine ⟨h.exclusive, hspent, fun st hst hu => ?_, fun st hst hc _ => ?_⟩
    · exact Nat.le_succ_of_le (h.unserved st hst hu)
    · exact Nat.lt_succ_of_le (h.unserved st hst (unserved_of_call hc))

theorem outstanding_loaded (h : Thrifty s) :
    outstanding (loads s) + loaded s.results ≤ s.departures + 1 := by
  unfold outstanding
  split
  · next n hcall =>
    obtain ⟨st, hst, hwaiting⟩ := Option.bind_eq_some_iff.mp hcall
    have hunserved := h.unserved st hst (unserved_of_call (by rw [hwaiting]; rfl))
    omega
  · have hspent := h.spent
    have hone := s.registered.toNat_le
    omega

-- Threads that find no ability at the same time still make one request between them.
theorem requests_bounded (h : machine.Run (fun s e => prompt s e = true) start es s) :
    s.requests ≤ s.departures + failed s.results + 1 := by
  have hthrifty : Thrifty s :=
    h.invariant (fun _ _ _ hs he hnext => thrifty_step hs he hnext) thrifty_start
  have hloads : LoadProcess.machine.Run (fun _ _ => True) LoadProcess.start
      (es.filterMap AbilityStep.load) (loads s) :=
    simulates.run (fun _ _ _ _ _ => trivial) exclusive_start h
  have haccounted : Accounted (loads s) :=
    hloads.invariant (fun _ _ _ hp _ hnext => accounted_step hp hnext) rfl
  have hrequests : s.requests = loaded s.results + failed s.results + outstanding (loads s) :=
    haccounted
  have hbound := outstanding_loaded hthrifty
  omega

end thrift

section race

def race : List AbilityStep :=
  [.getFontServiceAbility 0 true, .getFontServiceAbility 1 true, .checkSystemAbility 0,
    .checkSystemAbility 1, .lock 1, .recheckSystemAbility 1, .initStatus 1, .loadSystemAbility 1,
    .register, .deliver 0 true, .checkSaLoaded 1, .getSystemAbility 1, .lock 0,
    .recheckSystemAbility 0]

theorem race_one_at_a_time :
    ∃ s : AbilityProcess, s.answers = [(1, true), (0, true)] ∧
      (∀ t u, (s.stage t).locked = true → (s.stage u).locked = true → t = u) ∧
      LoadProcess.machine.Run (fun _ _ => True) LoadProcess.start
        [.initStatus, .loadSystemAbility, .deliver 0 true, .checkSaLoaded] (loads s) := by
  obtain ⟨s, hrun, hs⟩ := Machine.exists_run_of_replay (m := machine) (fun _ _ => true)
    (fun s => s.answers = [(1, true), (0, true)]) start race (by decide)
  exact ⟨s, by simpa using hs, loads_one_at_a_time (hrun.mono fun _ _ _ _ _ => trivial)⟩

theorem race_requests_bounded :
    ∃ s : AbilityProcess, s.answers = [(1, true), (0, true)] ∧ s.requests = 1 ∧
      s.requests ≤ s.departures + failed s.results + 1 := by
  obtain ⟨s, hrun, hs⟩ := Machine.exists_run_of_replay (m := machine) prompt
    (fun s => s.answers = [(1, true), (0, true)] ∧ s.requests = 1) start race (by decide)
  obtain ⟨hanswers, hone⟩ : s.answers = [(1, true), (0, true)] ∧ s.requests = 1 := by simpa using hs
  exact ⟨s, hanswers, hone, requests_bounded hrun⟩

end race

end ServiceAbility
