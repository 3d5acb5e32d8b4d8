import FontManager.Concurrent.MigrationRuns
import FontManager.Store.Effects

open FontDefine Interaction FontManagerServer MigrationTickets MigrationPhases MigrationRuns

namespace MigrationRequests

variable {C : Type} {s : Server C}

-- DataMigration has returned in the thread of this task.
def returned (request : Nat) (t : ServerThread C) : Bool :=
  t.role.serves request && (!t.role.isMigrating || t.program.finished)

structure Answered (s : Server C) (request : Nat) (callback : C) : Prop where
  task : s.process.pending.countP (·.serves request) +
    s.threads.countP (·.role.serves request) = 1
  result : s.threads.any (returned request) = true → results request s.process.delivered = 1
  own : ∀ d ∈ s.process.delivered, d.request = request → d.callback = callback

-- RefreshEventData and the heartbeat thread drop an event where they read no callback: told and
-- heard say that each of them reads the callback of its own request.
structure InTurn (s : Server C) : Prop where
  single : s.process.pending.countP (·.migrates) + s.threads.countP (·.role.isMigrating) ≤ 1
  entered : ∀ role k, ⟨role, .call .setMigrating k⟩ ∈ s.threads → s.process.migrating = false
  unassigned : ∀ role request k, ⟨role, .call (.startHeartBeat request) k⟩ ∈ s.threads →
    s.process.heartBeatThread = none
  answered : ∀ (request : Nat) (caller : Caller) (callback : C),
    s.threads[request]? = some ⟨.leaving (.dataMigration caller callback),
      .done FontErrorCode.ok.value⟩ → Answered s request callback
  addressed : ∀ d ∈ s.process.delivered, ∃ t, s.threads[d.request]? = some t ∧
    t.role.claimant = some d.callback
  told : ∀ role k, ⟨role, .call .callback k⟩ ∈ s.threads → ∃ callback request,
    role = .migrating callback request ∧ s.process.callback = some callback
  heard : ∀ b ∈ s.process.heartBeats, b.step = .read → ∃ t ∈ s.threads, ∃ callback,
    t.role = .migrating callback b.request ∧ s.process.callback = some callback

theorem single_of_managed (h : Managed s) :
    s.process.pending.countP (·.migrates) + s.threads.countP (·.role.isMigrating) ≤ 1 := by
  have hholds : s.threads.countP (·.role.isMigrating) ≤ s.threads.countP holds :=
    List.countP_mono_left fun t _ ht => by simp [holds, ht]
  have hflag := h.ledger.flag
  have hle := Bool.toNat_le s.process.isDataMigrationing
  rw [Process.requests, ← List.countP_eq_length_filter] at hflag
  omega

theorem answered_of_managed (h : Managed s) {request : Nat} {caller : Caller} {callback : C}
    (ht : s.threads[request]? = some ⟨.leaving (.dataMigration caller callback),
      .done FontErrorCode.ok.value⟩) : Answered s request callback where
  task := by
    obtain ⟨σ, hcode, htickets⟩ := (sound_follows rfl).mp (h.ledger.threads request _ ht)
    rw [tickets, countP_requests] at htickets
    cases σ with
    | posted => exact htickets
    | asking => exact absurd rfl hcode
    | _ => exact hcode.elim
  result hreturned := by
    obtain ⟨t, hmem, ht⟩ := List.any_eq_true.mp hreturned
    obtain ⟨hserves, hended⟩ := Bool.and_eq_true_iff.mp ht
    obtain ⟨m, hm, heq⟩ := (Option.any_eq_true ..).mp hserves
    obtain rfl : m.2 = request := eq_of_beq heq
    cases hmigrating : t.role.isMigrating with
    | false => exact h.served t hmem hmigrating m hm
    | true =>
      obtain ⟨σ, hfollows, hholds⟩ := h.busy t hmem hmigrating m hm
      have hfinished : t.program.finished = true := by simpa [hmigrating] using hended
      obtain ⟨code, hcode⟩ := Program.eq_done_of_finished hfinished
      rw [hcode] at hfollows
      obtain rfl : σ = .ended := hfollows
      exact hholds.count
  own d hd hrequest := by
    obtain ⟨t, hthread, hclaimant⟩ := (h.sent d hd).1
    change s.threads[d.request]? = some t at hthread
    rw [hrequest, ht] at hthread
    obtain rfl := Option.some.inj hthread
    exact (Option.some.inj hclaimant).symm

theorem told_of_managed (h : Managed s) {role : Role C} {k : Option C → ProcessTask C Int}
    (ht : ⟨role, .call .callback k⟩ ∈ s.threads) : ∃ callback request,
      role = .migrating callback request ∧ s.process.callback = some callback := by
  obtain ⟨callback, request, σ, hrole, hallows, hholds⟩ := phase_of_managed h ht rfl
  exact ⟨callback, request, hrole, hholds.slot (calls_of_callback hallows)⟩

theorem heard_of_managed (h : Managed s) {b : HeartBeat C} (hb : b ∈ s.process.heartBeats)
    (hread : b.step = .read) : ∃ t ∈ s.threads, ∃ callback,
      t.role = .migrating callback b.request ∧ s.process.callback = some callback := by
  obtain ⟨i, hi⟩ := List.mem_iff_getElem?.mp hb
  have hlive : b.step ≠ .stopped := fun hstopped => by cases hread.symm.trans hstopped
  obtain ⟨j, callback, request, program, σ, hj, -, hholds⟩ := h.exists_running hi hlive
  obtain ⟨-, hrequest, -⟩ := hholds.beating i b hi hlive
  refine ⟨_, List.mem_of_getElem? hj, callback, by rw [hrequest], hholds.slot ?_⟩
  exact Phase.calls_of_beats (hholds.live hi hlive)

theorem requests_in_turn {reason : StartReason} {w : World} {es : List (ServerEvent C)}
    (h : Server.machine.Run (fun _ _ => True) (Server.onStart reason w) es s) : InTurn s := by
  have hs : Managed s := h.invariant
    (fun _ _ _ hs _ hn => managed_step hs (Server.next_cases hn)) (managed_start reason w)
  refine ⟨single_of_managed hs, fun role k ht => ?_, fun role request k ht => ?_,
    fun request caller callback ht => answered_of_managed hs ht, fun d hd => (hs.sent d hd).1,
    fun role k ht => told_of_managed hs ht, fun b hb hread => heard_of_managed hs hb hread⟩
  · obtain ⟨callback, request, σ, -, hallows, hholds⟩ := phase_of_managed hs ht rfl
    obtain rfl := queued_of_setMigrating hallows
    exact hholds.flag
  · obtain ⟨callback, r, σ, -, hallows, hholds⟩ := phase_of_managed hs ht rfl
    obtain rfl := quiet_of_startHeartBeat hallows
    exact (hholds.alone rfl).1

section overlap

-- The first migration has delivered its result and reset isDataMigrationing_.
def answeredOnce : List (ServerEvent Nat) :=
  .call (.dataMigration Sample.app 1) :: Sample.steps 0 8 ++ .dispatch 1 :: Sample.steps 1 13

def secondPosted : List (ServerEvent Nat) :=
  answeredOnce ++ .call (.dataMigration Sample.app 2) :: Sample.steps 2 4

def tasksAtOnce (s : Server Nat) : Nat :=
  s.process.pending.countP (·.migrates) +
    s.threads.countP fun t => t.role.migration.isSome && !t.finished

theorem tasks_overlap :
    ¬ ∀ (reason : StartReason) (w : World) (es : List (ServerEvent Nat)) (s : Server Nat),
      Server.machine.Run (fun _ _ => True) (Server.onStart reason w) es s → tasksAtOnce s ≤ 1 := by
  intro h
  obtain ⟨s, hrun, hs⟩ := Machine.exists_run_of_replay (m := Server.machine) (fun _ _ => true)
    (fun s => decide (1 < tasksAtOnce s)) (Server.onStart .other (.provisioned [100])) secondPosted
    (by decide +kernel)
  have hle := h .other (.provisioned [100]) secondPosted s (hrun.mono fun _ _ _ => trivial)
  exact absurd (of_decide_eq_true hs) (by omega)

def returnedOk (s : Server Nat) (request : Nat) : Bool :=
  match s.threads[request]? with
  | some ⟨.leaving (.dataMigration _ callback), .done code⟩ =>
    callback == 1 && code == FontErrorCode.ok.value
  | _ => false

theorem returned_call {s : Server Nat} {request : Nat} (h : returnedOk s request = true) :
    ∃ caller, s.threads[request]? = some ⟨.leaving (.dataMigration caller 1),
      .done FontErrorCode.ok.value⟩ := by
  unfold returnedOk at h
  split at h
  · rename_i caller callback code ht
    obtain ⟨hcallback, hcode⟩ := Bool.and_eq_true_iff.mp h
    rw [eq_of_beq hcallback, eq_of_beq hcode] at ht
    exact ⟨caller, ht⟩
  · cases h

theorem first_request_answered :
    ∃ s : Server Nat,
      Server.machine.Run (fun _ _ => True) (Server.onStart .other (.provisioned [100])) answeredOnce s ∧
        results 0 s.process.delivered = 1 ∧ InTurn s := by
  obtain ⟨s, hrun, hs⟩ := Machine.exists_run_of_replay (m := Server.machine) (fun _ _ => true)
    (fun s => returnedOk s 0 && s.threads.any (returned 0))
    (Server.onStart .other (.provisioned [100])) answeredOnce (by decide +kernel)
  obtain ⟨hok, hreturned⟩ := Bool.and_eq_true_iff.mp hs
  obtain ⟨caller, ht⟩ := returned_call hok
  have hrun' : Server.machine.Run (fun _ _ => True) (Server.onStart .other (.provisioned [100]))
      answeredOnce s := hrun.mono fun _ _ _ => trivial
  have hturn := requests_in_turn hrun'
  exact ⟨s, hrun', (hturn.answered 0 caller 1 ht).result hreturned, hturn⟩

end overlap

end MigrationRequests
