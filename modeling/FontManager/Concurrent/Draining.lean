import FontManager.Concurrent.MigrationRuns
import FontManager.Concurrent.Ranks
import FontManager.Concurrent.WakeUp
import FontManager.Interaction.Behaviour

open Interaction FontManagerServer MigrationTickets MigrationPhases MigrationRuns Ranks

inductive Actor where
  | thread (i : Nat)
  | handler
  | heartBeat (i : Nat)
deriving DecidableEq

namespace Draining

variable {C : Type}

def actor : ServerEvent C → Option Actor
  | .act i _ => some (.thread i)
  | .dispatch _ => some .handler
  | .heartBeat i => some (.heartBeat i)
  | _ => none

structure Quiet (s : Server C) : Prop where
  threads : ∀ t ∈ s.threads, t.finished = true
  pending : s.process.pending = []
  beats : ∀ h ∈ s.process.heartBeats, h.step = .stopped
  calls : s.process.callingCount = 0
  migration : s.process.isDataMigrationing = false
  manager : s.process.migrating = false

def Held (p : Process C) : Prop := ∀ j, p.heartBeatThread = some j → j < p.heartBeats.length

structure Sound (s : Server C) : Prop where
  managed : Managed s
  bounded : Bounded s
  held : Held s.process
  counted : s.Counted

section sound

variable {s u : Server C} {e : ServerEvent C} {p : Process C}

theorem held_exec (h : Held p) (o : ProcessOp C) (io : Io) : Held (p.exec o io).2 := by
  cases o with
  | startHeartBeat request =>
    intro j hj
    obtain rfl := Option.some.inj hj
    simp [Process.exec]
  | joinHeartBeat =>
    intro j hj
    cases hj
  | postTask task =>
    intro j hj
    simp only [Process.exec] at hj ⊢
    split at hj
    · next hok =>
      rw [if_pos hok]
      exact h j hj
    · next hok =>
      rw [if_neg hok]
      exact h j hj
  | _ => exact h

theorem held_step (h : Held s.process) (hstep : ServerStep s e u) : Held u.process := by
  cases hstep with
  | arrive ht => exact held_exec h _ _
  | endMigration ht => exact held_exec h _ _
  | op hrole ht henabled => exact held_exec h _ _
  | beat hi hh =>
    intro j hj
    simp only [List.length_set]
    exact h j hj
  | _ => exact h

theorem sound_step (h : Sound s) (hstep : ServerStep s e u) : Sound u where
  managed := managed_step h.managed hstep
  bounded := bounded_step h.bounded hstep
  held := held_step h.held hstep
  counted := Server.counted_step h.counted hstep

theorem sound_start (reason : StartReason) (w : World) : Sound (Server.onStart (C := C) reason w) where
  managed := managed_start reason w
  bounded := bounded_start reason w
  held := by
    intro j hj
    cases hj
  counted := rfl

end sound

section quiet

variable {s : Server C} {e : ServerEvent C} {t : ServerThread C} {i : Nat} {io : Io}

theorem act_finished (h : t.finished = true) : s.act i io t = none := by
  obtain ⟨role, p⟩ := t
  cases p with
  | call o k => cases role <;> cases h
  | done code => cases role <;> first | rfl | cases h

theorem act_unfinished (h : t.finished = false)
    (henabled : ∀ o k, t.program = .call o k → Server.enabled s.process o = true) :
    (s.act i io t).isSome = true := by
  obtain ⟨role, p⟩ := t
  cases p with
  | call o k =>
    have ho := henabled o k rfl
    cases role <;> simp [Server.act, ho]
  | done code => cases role <;> first | rfl | cases h

theorem Quiet.rest (h : Quiet s) (a : Actor) : ¬ Machine.Behaviour.Enabled Server.machine actor a s := by
  rintro ⟨e, he, hsome⟩
  cases e with
  | call c => cases he
  | clientDied tokenId => cases he
  | userStopping userId => cases he
  | dispatch i =>
    simp [Server.machine, Server.next, h.pending] at hsome
  | act i io =>
    simp only [Server.machine, Server.next] at hsome
    cases ht : s.threads[i]? with
    | none => simp [ht] at hsome
    | some t => simp [ht, act_finished (h.threads t (List.mem_of_getElem? ht))] at hsome
  | heartBeat i =>
    simp only [Server.machine, Server.next, Server.beat] at hsome
    cases hb : s.process.heartBeats[i]? with
    | none => simp [hb] at hsome
    | some b => simp [hb, HeartBeat.next, h.beats b (List.mem_of_getElem? hb)] at hsome

theorem role_of_finished (h : t.finished = true) :
    t.role.isMigrating = false ∧ t.inCall = false ∧ owns t.program = false := by
  obtain ⟨role, p⟩ := t
  cases p with
  | call o k => cases role <;> cases h
  | done code => cases role <;> first | exact ⟨rfl, rfl, rfl⟩ | cases h

theorem quiet_of_finished (h : Sound s) (hthreads : ∀ t ∈ s.threads, t.finished = true)
    (hpending : s.process.pending = []) : Quiet s := by
  obtain ⟨hmigrating, halone⟩ := h.managed.rest fun t ht => (role_of_finished (hthreads t ht)).1
  refine ⟨hthreads, hpending, halone.2, ?_, ?_, hmigrating⟩
  · rw [h.counted, List.countP_eq_zero]
    intro t ht
    simp [(role_of_finished (hthreads t ht)).2.1]
  · have hholds : s.threads.countP holds = 0 := by
      rw [List.countP_eq_zero]
      intro t ht
      obtain ⟨hrole, -, howns⟩ := role_of_finished (hthreads t ht)
      simp [holds, hrole, howns]
    have hrequests : s.process.requests = [] := by rw [Process.requests, hpending, List.filter_nil]
    have hflag := h.managed.ledger.flag
    rw [hholds, hrequests] at hflag
    cases hm : s.process.isDataMigrationing with
    | false => rfl
    | true =>
      rw [hm] at hflag
      cases hflag

end quiet

section beats

variable {s u : Server C} {p : Process C} {h h' : HeartBeat C} {sent : List (Delivery C)}

def urgency : HeartBeatStep C → Nat
  | .stopped => 0
  | .loop => 1
  | .wait _ => 2
  | .handle _ => 3
  | .read => 4

theorem beat_urgency (hm : p.migrating = false) (hnext : h.next p = some (h', sent)) :
    urgency h'.step < urgency h.step := by
  cases beat_cases hnext with
  | enter hstep hmigrating => cases hm.symm.trans hmigrating
  | stop hstep => simp [urgency, hstep]
  | skip hstep => simp [urgency, hstep]
  | read hstep => simp [urgency, hstep]
  | deliver hstep => simp [urgency, hstep]
  | sleep hstep =>
    simp [HeartBeat.next, hstep, hm] at hnext
  | wake hstep => simp [urgency, hstep]

def beatOf (j : Nat) (s : Server C) : Nat := (s.process.heartBeats[j]?).elim 0 fun h => urgency h.step

theorem beatOf_step {i j : Nat} (hm : s.process.migrating = false)
    (hstep : ServerStep s (.heartBeat i) u) :
    (i ≠ j ∧ beatOf j u = beatOf j s) ∨ (i = j ∧ beatOf j u < beatOf j s) := by
  cases hstep with
  | beat hi hnext =>
    by_cases hij : i = j
    · subst hij
      have hlt := (List.getElem?_eq_some_iff.mp hi).1
      apply Or.inr
      refine ⟨rfl, ?_⟩
      simp only [beatOf, List.getElem?_set_self hlt, hi, Option.elim_some]
      exact beat_urgency hm hnext
    · apply Or.inl
      refine ⟨hij, ?_⟩
      simp only [beatOf, List.getElem?_set_ne hij]

theorem stopped_of_beatOf {j : Nat} (hj : j < s.process.heartBeats.length) (h : beatOf j s = 0) :
    Server.stopped s.process j = true := by
  unfold beatOf at h
  rw [List.getElem?_eq_getElem hj, Option.elim_some] at h
  unfold Server.stopped
  rw [List.getElem?_eq_getElem hj]
  cases hstep : s.process.heartBeats[j] with
  | mk request step =>
    rw [hstep] at h
    cases step <;> first | rfl | cases h

theorem beat_enabled {j : Nat} (h : beatOf j s ≠ 0) :
    Machine.Behaviour.Enabled Server.machine actor (.heartBeat j) s := by
  refine ⟨.heartBeat j, rfl, ?_⟩
  unfold beatOf at h
  cases hb : s.process.heartBeats[j]? with
  | none => simp [hb] at h
  | some b =>
    obtain ⟨request, step⟩ := b
    cases step <;> simp [hb, urgency] at h <;>
      simp [Server.machine, Server.next, Server.beat, hb, HeartBeat.next]
    split <;> rfl

end beats

def OnlyBeats (b : Machine.Behaviour (Server.machine (C := C))) (N : Nat) : Prop :=
  ∀ n e, N ≤ n → b.event n = some e → ∃ i, e = .heartBeat i

section tail

variable {b : Machine.Behaviour (Server.machine (C := C))} {N : Nat}

structure Rest (C : Type) where
  threads : List (ServerThread C)
  pending : List (HandlerTask C)
  migrating : Bool
  heartBeatThread : Option Nat
  beats : Nat

def rest (s : Server C) : Rest C where
  threads := s.threads
  pending := s.process.pending
  migrating := s.process.migrating
  heartBeatThread := s.process.heartBeatThread
  beats := s.process.heartBeats.length

theorem rest_beat {s u : Server C} {i : Nat} (h : ServerStep s (.heartBeat i) u) :
    rest u = rest s := by
  cases h with
  | beat hi hh => simp [rest]

theorem rest_tail (h : OnlyBeats b N) : ∀ n, N ≤ n → rest (b.state n) = rest (b.state N) := by
  apply b.constant
  intro k hk
  cases he : b.event k with
  | none => rw [b.state_of_stutter he]
  | some e =>
    obtain ⟨i, rfl⟩ := h k e hk he
    exact rest_beat (Server.next_cases (b.next_of_event he))

theorem beat_stops (h : OnlyBeats b N) (hfair : b.Fair actor)
    (hm : (b.state N).process.migrating = false) (j : Nat) :
    ∃ M, N ≤ M ∧ ∀ n, M ≤ n → beatOf j (b.state n) = 0 := by
  have hmigrating : ∀ n, N ≤ n → (b.state n).process.migrating = false := by
    intro n hn
    exact (congrArg Rest.migrating (rest_tail h n hn)).trans hm
  have hmove : ∀ {k e}, N ≤ k → b.event k = some e →
      beatOf j (b.state (k + 1)) = beatOf j (b.state k) ∨
        beatOf j (b.state (k + 1)) < beatOf j (b.state k) := by
    intro k e hk he
    obtain ⟨i, rfl⟩ := h k e hk he
    rcases beatOf_step (j := j) (hmigrating k hk) (Server.next_cases (b.next_of_event he)) with
      ⟨-, hsame⟩ | ⟨-, hless⟩
    · exact Or.inl hsame
    · exact Or.inr hless
  obtain ⟨M, hM, hsettled⟩ := b.settles Nat.lt_wfRel.wf (beatOf j) N (by
    intro k hk
    cases he : b.event k with
    | none => exact Or.inl (congrArg (beatOf j) (b.state_of_stutter he))
    | some e => exact hmove hk he)
  have hconstant := b.constant hsettled
  refine ⟨M, hM, ?_⟩
  by_contra hlive
  obtain ⟨n, hn⟩ := not_forall.mp hlive
  obtain ⟨hn, hpos⟩ := Classical.not_imp.mp hn
  have hne : ∀ k, M ≤ k → beatOf j (b.state k) ≠ 0 := by
    intro k hk
    rw [hconstant k hk, ← hconstant n hn]
    exact hpos
  obtain ⟨k, e, hk, he, hactor⟩ := hfair (.heartBeat j) M fun k hk => beat_enabled (hne k hk)
  obtain ⟨i, rfl⟩ := h k e (hM.trans hk) he
  obtain rfl : i = j := by
    have hsome := Option.some.inj hactor
    injection hsome
  rcases beatOf_step (j := i) (hmigrating k (hM.trans hk))
    (Server.next_cases (b.next_of_event he)) with ⟨hij, -⟩ | ⟨-, hless⟩
  · exact hij rfl
  · exact absurd (hsettled k hk) hless.ne

theorem same_threads (h : OnlyBeats b N) {n : Nat} (hn : N ≤ n) :
    (b.state n).threads = (b.state N).threads := congrArg Rest.threads (rest_tail h n hn)

theorem no_act (h : OnlyBeats b N) (hfair : b.Fair actor) {i M : Nat} (hM : N ≤ M) :
    ¬ ∀ n, M ≤ n → Machine.Behaviour.Enabled Server.machine actor (.thread i) (b.state n) := by
  intro hen
  obtain ⟨k, e, hk, he, hactor⟩ := hfair (.thread i) M hen
  obtain ⟨j, rfl⟩ := h k e (hM.trans hk) he
  cases hactor

theorem thread_enabled {s : Server C} {i : Nat} {t : ServerThread C} (ht : s.threads[i]? = some t)
    (hunfinished : t.finished = false)
    (henabled : ∀ o k, t.program = .call o k → Server.enabled s.process o = true) :
    Machine.Behaviour.Enabled Server.machine actor (.thread i) s := by
  refine ⟨.act i {}, rfl, ?_⟩
  simp only [Server.machine, Server.next, ht, Option.bind_some]
  exact act_unfinished hunfinished henabled

theorem joining_of_join {callback : C} {request : Nat} {σ : Phase}
    (h : (phases callback request).allows σ .joinHeartBeat) : σ = .joining := by
  cases σ with
  | joining => rfl
  | _ => simp [phases, unmanaged, manages] at h

theorem joinable (h : OnlyBeats b N) (hfair : b.Fair actor) (hsound : Sound (b.state N))
    {role : Role C} {k : Unit → ProcessTask C Int}
    (ht : ⟨role, .call .joinHeartBeat k⟩ ∈ (b.state N).threads) :
    ∃ M, N ≤ M ∧ ∀ n, M ≤ n → Server.enabled (b.state n).process .joinHeartBeat = true := by
  have hthread : ∀ n, N ≤ n →
      (b.state n).process.heartBeatThread = (b.state N).process.heartBeatThread := fun n hn =>
    congrArg Rest.heartBeatThread (rest_tail h n hn)
  cases hj : (b.state N).process.heartBeatThread with
  | none =>
    refine ⟨N, le_rfl, ?_⟩
    intro n hn
    rw [Server.enabled, hthread n hn, hj]
    rfl
  | some j =>
    obtain ⟨callback, request, σ, -, hallows, hholds⟩ := phase_of_managed hsound.managed ht rfl
    obtain rfl := joining_of_join hallows
    have hm : (b.state N).process.migrating = false := hholds.flag
    obtain ⟨M, hM, hstops⟩ := beat_stops h hfair hm j
    refine ⟨M, hM, ?_⟩
    intro n hn
    have hlength := congrArg Rest.beats (rest_tail h n (hM.trans hn))
    have hlt : j < (b.state n).process.heartBeats.length := by
      rw [show (b.state n).process.heartBeats.length = _ from hlength]
      exact hsound.held j hj
    rw [Server.enabled, hthread n (hM.trans hn), hj]
    exact stopped_of_beatOf hlt (hstops n hn)

theorem all_finished (h : OnlyBeats b N) (hfair : b.Fair actor) (hsound : Sound (b.state N)) :
    ∀ t ∈ (b.state N).threads, t.finished = true := by
  intro t ht
  by_contra hunfinished
  have hunfinished := Bool.eq_false_of_not_eq_true hunfinished
  obtain ⟨i, hi⟩ := List.mem_iff_getElem?.mp ht
  have hget : ∀ n, N ≤ n → (b.state n).threads[i]? = some t := by
    intro n hn
    rw [same_threads h hn, hi]
  have hready : ∃ M, N ≤ M ∧ ∀ n, M ≤ n → ∀ o k, t.program = .call o k →
      Server.enabled (b.state n).process o = true := by
    by_cases hjoin : ∃ k, t.program = .call .joinHeartBeat k
    · obtain ⟨k, hk⟩ := hjoin
      obtain ⟨role, p⟩ := t
      obtain rfl : p = .call .joinHeartBeat k := hk
      obtain ⟨M, hM, hen⟩ := joinable h hfair hsound ht
      refine ⟨M, hM, ?_⟩
      intro n hn o k' hcall
      injection hcall with ho
      subst ho
      exact hen n hn
    · refine ⟨N, le_rfl, ?_⟩
      intro n _ o k hcall
      cases o <;> first | rfl | exact absurd ⟨k, hcall⟩ hjoin
  obtain ⟨M, hM, hen⟩ := hready
  exact no_act h hfair hM fun n hn => thread_enabled (hget n (hM.trans hn)) hunfinished (hen n hn)

theorem none_pending (h : OnlyBeats b N) (hfair : b.Fair actor)
    (hthreads : ∀ t ∈ (b.state N).threads, t.finished = true) :
    (b.state N).process.pending = [] := by
  cases hp : (b.state N).process.pending with
  | nil => rfl
  | cons task rest =>
    have hen : ∀ n, N ≤ n →
        Machine.Behaviour.Enabled Server.machine actor .handler (b.state n) := by
      intro n hn
      have hidle : (b.state n).handlerIdle = true := by
        rw [Server.handlerIdle, same_threads h hn, List.all_eq_true]
        intro t ht
        simp [hthreads t ht]
      have hpending : (b.state n).process.pending = task :: rest :=
        (congrArg Rest.pending (rest_tail h n hn)).trans hp
      refine ⟨.dispatch 0, rfl, ?_⟩
      simp [Server.machine, Server.next, hidle, hpending]
    obtain ⟨k, e, hk, he, hactor⟩ := hfair .handler N hen
    obtain ⟨j, rfl⟩ := h k e hk he
    cases hactor

end tail

section drains

variable {b : Machine.Behaviour (Server.machine (C := C))}

def Closed (b : Machine.Behaviour (Server.machine (C := C))) : Prop :=
  ∀ n e, b.event n = some e → e.arrives = false

theorem sound_state (h : Sound (b.state 0)) (n : Nat) : Sound (b.state n) := by
  have hstep : ∀ (s : Server C) (e : ServerEvent C) (u : Server C), Sound s → True →
      Server.machine.next s e = some u → Sound u := fun _ _ _ hs _ hn =>
    sound_step hs (Server.next_cases hn)
  exact b.invariant hstep (fun _ _ _ => trivial) h n

theorem only_beats (hsound : Sound (b.state 0)) (hclosed : Closed b) : ∃ N, OnlyBeats b N := by
  have hmove : ∀ {k e}, b.event k = some e →
      agents (b.state (k + 1)) = agents (b.state k) ∧ (∃ i, e = .heartBeat i) ∨
        Fewer (agents (b.state (k + 1))) (agents (b.state k)) := fun {k e} he =>
    agents_step (sound_state hsound k).bounded (Server.next_cases (b.next_of_event he))
      (hclosed k e he)
  obtain ⟨N, -, hsettled⟩ := b.settles wellFounded_fewer agents 0 (by
    intro k _
    cases he : b.event k with
    | none => exact Or.inl (congrArg agents (b.state_of_stutter he))
    | some e => exact (hmove he).imp And.left id)
  refine ⟨N, ?_⟩
  intro n e hn he
  rcases hmove he with ⟨-, hbeat⟩ | hfewer
  · exact hbeat
  · rw [hsettled n hn] at hfewer
    exact absurd hfewer (wellFounded_fewer.irrefl.irrefl _)

theorem becomes_quiet (hsound : Sound (b.state 0)) (hclosed : Closed b) (hfair : b.Fair actor) :
    ∃ N, ∀ n, N ≤ n → Quiet (b.state n) := by
  obtain ⟨N, honly⟩ := only_beats hsound hclosed
  refine ⟨N, ?_⟩
  intro n hn
  have hafter : OnlyBeats b n := fun k e hk he => honly k e (hn.trans hk) he
  have hstate := sound_state hsound n
  have hthreads := all_finished hafter hfair hstate
  exact quiet_of_finished hstate hthreads (none_pending hafter hfair hthreads)

theorem actor_of_closed {e : ServerEvent C} (h : e.arrives = false) : ∃ a, actor e = some a := by
  cases e with
  | dispatch i => exact ⟨_, rfl⟩
  | act i io => exact ⟨_, rfl⟩
  | heartBeat i => exact ⟨_, rfl⟩
  | _ => cases h

theorem stutters {n : Nat} (hclosed : Closed b) (hquiet : Quiet (b.state n)) :
    b.state (n + 1) = b.state n := by
  cases he : b.event n with
  | none => exact b.state_of_stutter he
  | some e =>
    obtain ⟨a, ha⟩ := actor_of_closed (hclosed n e he)
    have hsome : (Server.machine.next (b.state n) e).isSome = true := by
      rw [b.next_of_event he]
      rfl
    exact absurd ⟨e, ha, hsome⟩ (hquiet.rest a)

theorem sound_of_run {reason : StartReason} {w : World} {ok : Server C → ServerEvent C → Prop}
    {es : List (ServerEvent C)} {s : Server C} (h : Server.machine.Run ok (Server.onStart reason w) es s) :
    Sound s :=
  h.invariant (fun _ _ _ hs _ hn => sound_step hs (Server.next_cases hn)) (sound_start reason w)

theorem server_drains {reason : StartReason} {w : World} {es : List (ServerEvent C)} {s : Server C}
    (h : Server.machine.Run (fun _ _ => True) (Server.onStart reason w) es s) (hstart : b.state 0 = s)
    (hclosed : Closed b) (hfair : b.Fair actor) :
    ∃ N, ∀ n, N ≤ n → Quiet (b.state n) ∧ b.state n = b.state N := by
  subst hstart
  obtain ⟨N, hquiet⟩ := becomes_quiet (sound_of_run h) hclosed hfair
  have hsame := b.constant (f := id) fun k hk => stutters hclosed (hquiet k hk)
  exact ⟨N, fun n hn => ⟨hquiet n hn, hsame n hn⟩⟩

theorem operating_of_quiet {s : Server C} (h : Quiet s) :
    ∀ t ∈ s.threads, WakeUp.operating t = false := by
  intro t ht
  have hfinished := h.threads t ht
  obtain ⟨role, p⟩ := t
  cases role <;> simp [WakeUp.operating, hfinished]

theorem server_unloads {reason : StartReason} {w : World} {es : List (ServerEvent C)} {s : Server C}
    (h : Server.machine.Run (fun s e => WakeUp.postSucceeds s e = true) (Server.onStart reason w) es s)
    (hstart : b.state 0 = s) (hclosed : Closed b) (hfair : b.Fair actor)
    (hposts : ∀ n e, b.event n = some e → WakeUp.postSucceeds (b.state n) e = true) :
    ∃ N, ∀ n, N ≤ n → (b.state n).process.world.registry.clients = [] →
      WakeUp.calledSince id (b.state n).marks = true := by
  subst hstart
  obtain ⟨N, hquiet⟩ := becomes_quiet (sound_of_run h) hclosed hfair
  have hwatched : ∀ n, WakeUp.Watched (b.state n) := by
    apply b.invariant (fun _ _ _ hs hok hn => WakeUp.watched_step hs hok (Server.next_cases hn)) hposts
    exact h.invariant (fun _ _ _ hs hok hn => WakeUp.watched_step hs hok (Server.next_cases hn))
      (WakeUp.watched_start reason w)
  refine ⟨N, ?_⟩
  intro n hn hclients
  have hrest := hquiet n hn
  rcases (hwatched n).awake ⟨hrest.calls, hrest.migration, hclients⟩ with hp | hcalled | ⟨t, ht, hattends⟩
  · rw [hrest.pending] at hp
    cases hp
  · exact hcalled
  · exact absurd hattends (WakeUp.not_attending (operating_of_quiet hrest t ht))

end drains

section migration

def requested : List (ServerEvent Unit) := [.call (.dataMigration Sample.app ())]

def rounds : List (ServerEvent Unit) :=
  Sample.steps 0 8 ++ .dispatch 0 :: Sample.steps 1 5 ++ .dispatch 0 :: Sample.steps 2 25 ++
    .heartBeat 0 :: Sample.steps 2 7 ++ .dispatch 0 :: Sample.steps 3 11

def served (s : Server Unit) (e : ServerEvent Unit) : Bool := WakeUp.postSucceeds s e && !e.arrives

def settledDown (s : Server Unit) : Bool :=
  s.threads.all (·.finished) && s.process.pending.isEmpty && s.process.world.registry.clients.isEmpty

theorem exists_rounds : ∃ (s t : Server Unit) (b : Machine.Behaviour (Server.machine (C := Unit))),
    Server.machine.Run (fun s e => WakeUp.postSucceeds s e = true)
      (Server.onStart .other Sample.sharedFont) requested s ∧
    b.Halting served s t ∧ settledDown s = false ∧ settledDown t = true := by
  obtain ⟨s, hrun, hs⟩ := Machine.exists_run_of_replay (m := Server.machine) WakeUp.postSucceeds
    (fun s => (Server.machine.replay served s rounds).any settledDown && !settledDown s)
    (Server.onStart .other Sample.sharedFont) requested (by decide +kernel)
  obtain ⟨hrounds, hbusy⟩ := Bool.and_eq_true_iff.mp hs
  obtain ⟨t, ht, hsettled⟩ := (Option.any_eq_true ..).mp hrounds
  obtain ⟨b, hb⟩ := Machine.Behaviour.exists_halting ht
  exact ⟨s, t, b, hrun, hb, by simpa using hbusy, hsettled⟩

theorem fair_of_settled {b : Machine.Behaviour (Server.machine (C := Unit))} {s t : Server Unit}
    (hb : b.Halting served s t) (hs : Sound s) (ht : settledDown t = true) :
    Closed b ∧ b.Fair actor ∧ ∀ n e, b.event n = some e → WakeUp.postSucceeds (b.state n) e = true := by
  have hserved : ∀ n e, b.event n = some e →
      WakeUp.postSucceeds (b.state n) e = true ∧ e.arrives = false := by
    intro n e he
    simpa [served] using hb.ok n e he
  obtain ⟨N, hN⟩ := hb.rest
  have hsound : Sound t := hN N le_rfl ▸ sound_state (hb.start ▸ hs) N
  simp only [settledDown, Bool.and_eq_true, List.all_eq_true, List.isEmpty_iff] at ht
  have hquiet := quiet_of_finished hsound ht.1.1 ht.1.2
  exact ⟨fun n e he => (hserved n e he).2, hb.fair hquiet.rest, fun n e he => (hserved n e he).1⟩

theorem migration_drains : ∃ (b : Machine.Behaviour (Server.machine (C := Unit))) (N : Nat),
    settledDown (b.state 0) = false ∧
      ∀ n, N ≤ n → Quiet (b.state n) ∧ b.state n = b.state N := by
  obtain ⟨s, t, b, hrun, hb, hbusy, hsettled⟩ := exists_rounds
  obtain ⟨hclosed, hfair, -⟩ := fair_of_settled hb (sound_of_run hrun) hsettled
  obtain ⟨N, hN⟩ := server_drains (hrun.mono fun _ _ _ => trivial) hb.start hclosed hfair
  exact ⟨b, N, hb.start ▸ hbusy, hN⟩

theorem migration_unloads : ∃ (b : Machine.Behaviour (Server.machine (C := Unit))) (N : Nat),
    ∀ n, N ≤ n → WakeUp.calledSince id (b.state n).marks = true := by
  obtain ⟨s, t, b, hrun, hb, -, hsettled⟩ := exists_rounds
  obtain ⟨hclosed, hfair, hposts⟩ := fair_of_settled hb (sound_of_run hrun) hsettled
  obtain ⟨N, hN⟩ := server_unloads hrun hb.start hclosed hfair hposts
  obtain ⟨M, hM⟩ := hb.rest
  simp only [settledDown, Bool.and_eq_true, List.isEmpty_iff] at hsettled
  refine ⟨b, max N M, ?_⟩
  intro n hn
  apply hN n (le_trans (le_max_left N M) hn)
  rw [hM n (le_trans (le_max_right N M) hn)]
  exact hsettled.2

end migration

end Draining
