import FontManager.Concurrent.MigrationRuns
import FontManager.Store.Effects

open FontDefine FontManagerUtils Interaction FontManagerServer
open MigrationTickets MigrationPhases MigrationRuns

namespace EventOrder

variable {C : Type} {s u : Server C} {e : ServerEvent C}

def ResultLast (delivered : List (Delivery C)) : Prop :=
  delivered.Pairwise fun d d' =>
    d.event.isResult = true → d'.request = d.request → d'.event.isResult = true

-- Between a successful test of isDataMigrationing_ by the heartbeat loop and its delivery.
def underway (b : HeartBeat C) : Bool :=
  match b.step with
  | .read => true
  | .handle _ => true
  | _ => false

def reports (s : Server C) : ServerEvent C → Option Nat
  | .act i _ =>
    match s.threads[i]? with
    | some ⟨_, .call (.handle request _ (.progressResult _)) _⟩ => some request
    | _ => none
  | _ => none

def undisturbed (s : Server C) (e : ServerEvent C) : Prop :=
  ∀ request, reports s e = some request →
    ∀ b ∈ s.process.heartBeats, b.request = request → underway b = false

structure Orderly (s : Server C) : Prop where
  managed : Managed s
  unreported : ∀ b ∈ s.process.heartBeats, underway b = true →
    results b.request s.process.delivered = 0
  last : ResultLast s.process.delivered

section step

theorem last_append {delivered : List (Delivery C)} {d : Delivery C} (h : ResultLast delivered)
    (hd : d.event.isResult = false → results d.request delivered = 0) :
    ResultLast (delivered ++ [d]) := by
  refine List.pairwise_append.mpr ⟨h, List.pairwise_singleton _ _, fun d' hd' d'' hd'' => ?_⟩
  obtain rfl := List.mem_singleton.mp hd''
  intro hresult hrequest
  by_contra hnot
  have hnone := List.countP_eq_zero.mp (hd (Bool.eq_false_iff.mpr hnot)) d' hd'
  simp [hrequest, hresult] at hnone

theorem Orderly.frame (h : Orderly s) (hu : Managed u)
    (hbeats : u.process.heartBeats = s.process.heartBeats)
    (hdelivered : u.process.delivered = s.process.delivered) : Orderly u where
  managed := hu
  unreported b hb hunderway := by
    rw [hdelivered]
    exact h.unreported b (hbeats ▸ hb) hunderway
  last := hdelivered ▸ h.last

theorem Orderly.handle {i : Nat} {io : Io} {role : Role C} {request : Nat} {callback : C}
    {event : EventData} {k : Unit → ProcessTask C Int} (h : Orderly s)
    (hi : s.threads[i]? = some ⟨role, .call (.handle request callback event) k⟩)
    (he : undisturbed s (.act i io))
    (hu : Managed (s.advance i (s.process.exec (.handle request callback event) io).2
      ⟨role, k ()⟩ [])) :
    Orderly (s.advance i (s.process.exec (.handle request callback event) io).2 ⟨role, k ()⟩ []) := by
  have hmem := List.mem_of_getElem? hi
  obtain ⟨callback', r, σ, -, hallows, hholds⟩ := phase_of_managed h.managed hmem rfl
  have hresult : event.isResult = false → results request s.process.delivered = 0 := by
    intro hevent
    rcases event_of_handle hallows with ⟨rfl, rfl, -⟩ | ⟨-, hresult⟩
    · exact hholds.count
    · rw [hresult] at hevent
      cases hevent
  refine ⟨hu, fun b hb hunderway => ?_, last_append h.last hresult⟩
  refine (results_append b.request s.process.delivered _).trans ?_
  rw [h.unreported b hb hunderway, Nat.zero_add, results, List.countP_eq_zero]
  intro d hd hboth
  obtain rfl := List.mem_singleton.mp hd
  obtain ⟨hrequest, hevent⟩ := Bool.and_eq_true_iff.mp hboth
  cases event with
  | progressResult result =>
    have hreports : reports s (.act i io) = some request := by simp [reports, hi]
    have hfree := he request hreports b hb (eq_of_beq hrequest).symm
    rw [hfree] at hunderway
    cases hunderway
  | _ => cases hevent

theorem results_while_migrating {σ : Phase} (h : σ.migrating = true) : σ.results = 0 := by
  cases σ <;> first | rfl | cases h

theorem unreported_beat {i : Nat} {b b' : HeartBeat C} {sent : List (Delivery C)} (h : Orderly s)
    (hi : s.process.heartBeats[i]? = some b) (hb : BeatStep s.process b b' sent)
    (hunderway : underway b' = true) : results b'.request s.process.delivered = 0 := by
  have hmem := List.mem_of_getElem? hi
  cases hb with
  | enter hstep hm =>
    have hlive : b.step ≠ .stopped := by simp [hstep]
    obtain ⟨-, callback, request, -, σ, -, -, hholds⟩ := h.managed.exists_running hi hlive
    have hσ : σ.migrating = true := hholds.flag.symm.trans hm
    obtain ⟨-, hrequest, -⟩ := hholds.beating i b hi hlive
    change results b.request _ = 0
    rw [hrequest]
    exact hholds.count.trans (results_while_migrating hσ)
  | read hstep hc => exact h.unreported b hmem (by simp [underway, hstep])
  | _ => cases hunderway

theorem Orderly.beat {i : Nat} {b b' : HeartBeat C} {sent : List (Delivery C)} (h : Orderly s)
    (hi : s.process.heartBeats[i]? = some b) (hb : BeatStep s.process b b' sent)
    (hu : Managed { s with process := { s.process with
      heartBeats := s.process.heartBeats.set i b'
      delivered := s.process.delivered ++ sent } }) :
    Orderly { s with process := { s.process with
      heartBeats := s.process.heartBeats.set i b'
      delivered := s.process.delivered ++ sent } } := by
  have hsent : ∀ request, results request sent = 0 := fun request => by
    cases hb <;> simp [results, EventData.isResult]
  refine ⟨hu, fun b'' hb'' hunderway => ?_, ?_⟩
  · refine (results_append b''.request s.process.delivered sent).trans ?_
    rw [hsent, Nat.add_zero]
    rcases List.mem_or_eq_of_mem_set hb'' with hb'' | rfl
    · exact h.unreported b'' hb'' hunderway
    · exact unreported_beat h hi hb hunderway
  · cases hb with
    | deliver hstep =>
      refine last_append h.last fun _ => ?_
      exact h.unreported b (List.mem_of_getElem? hi) (by simp [underway, hstep])
    | _ => simpa using h.last

theorem Orderly.op {i : Nat} {io : Io} {role : Role C} {o : ProcessOp C}
    {k : o.Reply → ProcessTask C Int} (h : Orderly s)
    (hi : s.threads[i]? = some ⟨role, .call o k⟩) (he : undisturbed s (.act i io))
    (hu : Managed (s.advance i (s.process.exec o io).2 ⟨role, k (s.process.exec o io).1⟩
      (Server.calledUnload o))) :
    Orderly (s.advance i (s.process.exec o io).2 ⟨role, k (s.process.exec o io).1⟩
      (Server.calledUnload o)) := by
  cases o with
  | handle request callback event => exact h.handle hi he hu
  | startHeartBeat request =>
    refine ⟨hu, fun b hb hunderway => ?_, h.last⟩
    rcases List.mem_append.mp hb with hb | hb
    · exact h.unreported b hb hunderway
    · rw [List.mem_singleton.mp hb] at hunderway
      cases hunderway
  | postTask task =>
    refine h.frame hu ?_ ?_ <;> simp only [Server.advance, Process.exec] <;> split <;> rfl
  | _ => exact h.frame hu rfl rfl

theorem orderly_step (h : Orderly s) (he : undisturbed s e) (hstep : ServerStep s e u) :
    Orderly u := by
  have hu := managed_step h.managed hstep
  cases hstep with
  | op hrole hi henabled => exact h.op hi he hu
  | beat hi hb => exact h.beat hi (beat_cases hb) hu
  | _ => exact h.frame hu rfl rfl

end step

theorem result_ends_stream {reason : StartReason} {w : World} {es : List (ServerEvent C)}
    (h : Server.machine.Run undisturbed (Server.onStart reason w) es s) :
    ResultLast s.process.delivered := by
  have hstart : Orderly (Server.onStart (C := C) reason w) :=
    ⟨managed_start reason w, by simp [Server.onStart], List.Pairwise.nil⟩
  exact (h.invariant (fun _ _ _ hs he hn => orderly_step hs he (Server.next_cases hn)) hstart).last

section late

-- The heartbeat thread runs, the migrating thread goes on to the end of its result event.
def beatBefore (n : Nat) : List (ServerEvent Unit) :=
  .call (.dataMigration Sample.app ()) :: Sample.steps 0 8 ++ .dispatch 1 :: Sample.steps 1 9 ++
    List.replicate n (.heartBeat 0) ++ Sample.steps 1 15

instance (delivered : List (Delivery Unit)) : Decidable (ResultLast delivered) :=
  inferInstanceAs (Decidable (List.Pairwise _ _))

theorem beat_after_result :
    ¬ ∀ (reason : StartReason) (w : World) (es : List (ServerEvent Unit)) (s : Server Unit),
      Server.machine.Run (fun _ _ => True) (Server.onStart reason w) es s →
      ResultLast s.process.delivered := by
  intro h
  obtain ⟨s, hrun, hs⟩ := Machine.exists_run_of_replay (m := Server.machine) (fun _ _ => true)
    (fun s => decide (¬ ResultLast s.process.delivered)) (Server.onStart .other Sample.sharedFont)
    (beatBefore 1 ++ List.replicate 2 (.heartBeat 0)) (by decide +kernel)
  exact of_decide_eq_true hs (h .other Sample.sharedFont _ s (hrun.mono fun _ _ _ => trivial))

def undisturbedNow (s : Server Unit) (e : ServerEvent Unit) : Bool :=
  (reports s e).all fun request =>
    s.process.heartBeats.all fun b => b.request != request || !underway b

theorem beat_before_result :
    ∃ s : Server Unit,
      Server.machine.Run undisturbed (Server.onStart .other Sample.sharedFont) (beatBefore 3) s ∧
        EventData.heartBeat ∈ s.process.delivered.map Delivery.event ∧ results 0 s.process.delivered = 1 ∧
        ResultLast s.process.delivered := by
  obtain ⟨s, hrun, hs⟩ := Machine.exists_run_of_replay (m := Server.machine) undisturbedNow
    (fun s => decide (EventData.heartBeat ∈ s.process.delivered.map Delivery.event) &&
      decide (results 0 s.process.delivered = 1)) (Server.onStart .other Sample.sharedFont)
    (beatBefore 3) (by decide +kernel)
  obtain ⟨hbeat, hresult⟩ := Bool.and_eq_true_iff.mp hs
  have hrun' : Server.machine.Run undisturbed (Server.onStart .other Sample.sharedFont)
      (beatBefore 3) s := hrun.mono fun s e he request hreports b hb hrequest => by
    simp only [undisturbedNow, hreports, Option.all_some, List.all_eq_true] at he
    simpa [hrequest] using he b hb
  exact ⟨s, hrun', of_decide_eq_true hbeat, of_decide_eq_true hresult, result_ends_stream hrun'⟩

end late

end EventOrder
