import FontManager.Concurrent.Admits
import FontManager.Concurrent.ServerStep
import FontManager.Interaction.Protocol

open FontDefine FontManagerUtils Interaction DataMigrationManager FontManagerServer
open Program hiding perform call

variable {C : Type}

namespace ServerCall

def callback : ServerCall C → Option C
  | .dataMigration _ callback => some callback
  | _ => none

end ServerCall

namespace Role

def claimant : Role C → Option C
  | .arriving call => call.callback
  | .counting call => call.callback
  | .serving call => call.callback
  | .leaving call => call.callback
  | _ => none

def migration : Role C → Option (C × Nat)
  | .migrating callback request => some (callback, request)
  | .migrated callback request => some (callback, request)
  | _ => none

def isMigrating : Role C → Bool
  | .migrating _ _ => true
  | _ => false

def serves (request : Nat) (role : Role C) : Bool := role.migration.any fun m => m.2 == request

end Role

namespace HandlerTask

def migrates : HandlerTask C → Bool
  | .dataMigration _ _ => true
  | _ => false

def serves (request : Nat) : HandlerTask C → Bool
  | .dataMigration _ r => r == request
  | _ => false

end HandlerTask

def Process.requests (p : Process C) : List (HandlerTask C) := p.pending.filter (·.migrates)

namespace MigrationTickets

def claims : ProcessOp C → Bool
  | .setDataMigrationing => true
  | .clearDataMigrationing => true
  | .postTask (.dataMigration _ _) => true
  | _ => false

def manages : ProcessOp C → Bool
  | .setMigrating => true
  | .clearMigrating => true
  | .setCallback _ => true
  | .callback => true
  | .handle _ _ _ => true
  | .startHeartBeat _ => true
  | .joinHeartBeat => true
  | _ => false

def unclaiming (o : ProcessOp C) : Prop := claims o = false

def ordinary (o : ProcessOp C) : Prop := claims o = false ∧ manages o = false

inductive Ask where
  | asking
  | owning
  | releasing
  | posted

namespace Ask

def tickets : Ask → Nat
  | posted => 1
  | _ => 0

def owns : Ask → Bool
  | owning => true
  | releasing => true
  | _ => false

end Ask

-- What a DataMigration call may do, stage by stage.
def claiming (callback : C) (request : Nat) : Protocol (processSig C) Ask where
  allows σ o :=
    match σ with
    | .asking => o = .setDataMigrationing ∨ ordinary o
    | .owning => o = .postTask (.dataMigration callback request)
    | .releasing => o = .clearDataMigrationing
    | .posted => ordinary o
  replies _ _ _ := True
  after σ o r :=
    match σ, o, r with
    | .asking, .setDataMigrationing, exchanged => if exchanged then .owning else .asking
    | .owning, .postTask _, posted => if posted then .posted else .releasing
    | .releasing, _, _ => .asking
    | σ, _, _ => σ

def settled (code : Int) : Ask → Prop
  | .asking => code ≠ FontErrorCode.ok.value
  | .posted => code = FontErrorCode.ok.value
  | _ => False

def owns : ProcessTask C Int → Bool
  | .call (.postTask (.dataMigration _ _)) _ => true
  | .call .clearDataMigrationing _ => true
  | _ => false

def holds (t : ServerThread C) : Bool := t.role.isMigrating || owns t.program

def tickets (s : Server C) (request : Nat) : Nat :=
  s.process.requests.countP (·.serves request) + s.threads.countP (·.role.serves request)

def Claimed (s : Server C) (m : C × Nat) : Prop :=
  ∃ t, s.threads[m.2]? = some t ∧ t.role.claimant = some m.1

def Sound (i n : Nat) (t : ServerThread C) : Prop :=
  match t.role.claimant with
  | some callback => ∃ σ, (claiming callback i).Follows settled σ t.program ∧ n = σ.tickets
  | none =>
    if t.role.isMigrating then always (P := processSig C) (fun _ _ => True) unclaiming t.program
    else always (P := processSig C) (fun _ _ => True) ordinary t.program

structure Ledger (s : Server C) : Prop where
  flag : s.process.requests.length + s.threads.countP holds = s.process.isDataMigrationing.toNat
  threads : ∀ i t, s.threads[i]? = some t → Sound i (tickets s i) t
  pending : ∀ callback request, .dataMigration callback request ∈ s.process.requests →
    Claimed s (callback, request)
  running : ∀ t ∈ s.threads, ∀ m, t.role.migration = some m → Claimed s m

section programs

theorem admits_ordinary : AdmitsService (ordinary (C := C)) where
  font _ := ⟨rfl, rfl⟩
  isEmpty _ := ⟨rfl, rfl⟩
  removeEmpty _ := ⟨rfl, rfl⟩
  callingCount := ⟨rfl, rfl⟩
  isDataMigrationing := ⟨rfl, rfl⟩
  postUnload := ⟨rfl, rfl⟩
  removeUnloadTask := ⟨rfl, rfl⟩
  unloadFontService := ⟨rfl, rfl⟩

theorem admits_unclaiming : AdmitsMigration (unclaiming (C := C)) where
  font _ := rfl
  getDirFiles _ := rfl
  isEmptyFolder _ := rfl
  openFile _ := rfl
  copyFile _ _ := rfl
  renameFile _ _ := rfl
  removeUnloadTask := rfl
  getFolderSize _ := rfl
  setMigrating := rfl
  clearMigrating := rfl
  setCallback _ := rfl
  callback := rfl
  handle _ _ _ := rfl
  startHeartBeat _ := rfl
  heartBeatJoinable := rfl
  joinHeartBeat := rfl

variable {callback : C} {request : Nat}

theorem keeps_ordinary {σ : Ask} (hσ : σ.owns = false) (o : ProcessOp C) (ho : ordinary o) :
    (claiming callback request).Keeps σ o := by
  cases σ with
  | asking =>
    refine ⟨Or.inr ho, fun r => ?_⟩
    cases o <;> first | rfl | exact absurd ho.1 (by simp [claims])
  | posted => exact ⟨ho, fun _ => rfl⟩
  | _ => cases hσ

theorem follows_leave {σ : Ask} {code : Int} (checkClientCount : Bool) (h : settled code σ) :
    (claiming callback request).Follows settled σ (do
      leave checkClientCount
      pure code) := by
  have hσ : σ.owns = false := by
    cases σ <;> first | rfl | exact h.elim
  refine Protocol.follows_bind (Protocol.follows_of_always (fun _ _ _ => trivial)
    (keeps_ordinary hσ) (admits_ordinary.leave checkClientCount) fun _ => ?_)
  exact h

theorem owns_of_ordinary {p : ProcessTask C Int}
    (h : always (P := processSig C) (fun _ _ => True) ordinary p) : owns p = false := by
  cases p with
  | done code => rfl
  | call o k =>
    cases o with
    | postTask task => cases task <;> first | rfl | exact absurd h.1.1 (by simp [claims])
    | clearDataMigrationing => exact absurd h.1.1 (by simp [claims])
    | _ => rfl

theorem owns_of_follows {σ : Ask} {p : ProcessTask C Int}
    (h : (claiming callback request).Follows settled σ p) : owns p = σ.owns := by
  cases p with
  | done code => cases σ <;> first | rfl | exact h.elim
  | call o k =>
    have hallows := h.1
    have free (ho : ordinary o) : owns (.call o k) = false := by
      cases o with
      | postTask task => cases task <;> first | rfl | exact absurd ho.1 (by simp [claims])
      | clearDataMigrationing => exact absurd ho.1 (by simp [claims])
      | _ => rfl
    cases σ with
    | asking =>
      rcases hallows with rfl | ho
      · rfl
      · exact free ho
    | owning =>
      obtain rfl := hallows
      rfl
    | releasing =>
      obtain rfl := hallows
      rfl
    | posted => exact free hallows

theorem follows_body (caller : Caller) :
    (claiming callback request).Follows settled .asking
      (body request (.dataMigration caller callback)) := by
  have refused {code : FontErrorCode} (h : code.value ≠ FontErrorCode.ok.value) :
      (claiming callback request).Follows settled .asking (reply (pure code)) := h
  show (claiming callback request).Follows settled .asking
    (reply (FontManagerServer.dataMigrationInner caller callback request))
  unfold FontManagerServer.dataMigrationInner
  split
  · exact refused (by decide)
  · refine Protocol.follows_perform_bind (Or.inl rfl) fun exchanged _ => ?_
    cases exchanged with
    | false => exact refused (by decide)
    | true =>
      refine Protocol.follows_perform_bind rfl fun posted _ => ?_
      cases posted with
      | true => exact rfl
      | false => exact Protocol.follows_perform_bind rfl fun _ _ => refused (by decide)

theorem sound_of_ordinary {i n : Nat} {t : ServerThread C} (hclaimant : t.role.claimant = none)
    (hmigrating : t.role.isMigrating = false)
    (h : always (P := processSig C) (fun _ _ => True) ordinary t.program) : Sound i n t := by
  unfold Sound
  simpa only [hclaimant, hmigrating, Bool.false_eq_true, if_false] using h

theorem sound_body (i : Nat) (call : ServerCall C) :
    Sound i 0 ⟨.arriving call, body i call⟩ ∧ owns (body i call) = false := by
  cases hcall : call.callback with
  | none =>
    have hordinary : always (P := processSig C) (fun _ _ => True) ordinary (body i call) := by
      refine admits_ordinary.body i call fun caller callback heq => ?_
      rw [heq] at hcall
      cases hcall
    exact ⟨sound_of_ordinary hcall rfl hordinary, owns_of_ordinary hordinary⟩
  | some callback =>
    cases call with
    | dataMigration caller callback =>
      exact ⟨⟨.asking, follows_body caller, rfl⟩, owns_of_follows (follows_body caller)⟩
    | _ => cases hcall

theorem sound_clientDied (i : Nat) (tokenId : Int) :
    Sound (C := C) i 0 ⟨.clientDied tokenId, reply (eraseAndNotify tokenId)⟩ :=
  always_reply (admits_ordinary.eraseAndNotify tokenId)

theorem sound_handle (i n : Nat) (task : HandlerTask C) : Sound i n (handle task) := by
  cases task with
  | unload => exact always_silent admits_ordinary.unloadTask
  | dataMigration callback request =>
    exact always_silent (admits_unclaiming.migrationTask callback request)
  | _ => exact always_silent (always_font admits_ordinary.font _)

theorem holds_handle (task : HandlerTask C) : holds (handle task) = task.migrates := by
  cases task with
  | dataMigration callback request => rfl
  | cleanupUserScopeFonts userId =>
    exact owns_of_ordinary (always_silent (always_font admits_ordinary.font _))
  | _ => rfl

end programs

section step

variable {s u : Server C} {e : ServerEvent C} {i : Nat} {t t' : ServerThread C} {p : Process C}
  {called : List Mark}

theorem Claimed.spawn {m : C × Nat} (h : Claimed s m) : Claimed (s.spawn t) m := by
  obtain ⟨t', ht', hc⟩ := h
  exact ⟨t', List.getElem?_append_left (List.getElem?_eq_some_iff.mp ht').1 ▸ ht', hc⟩

theorem Claimed.advance {m : C × Nat} (h : Claimed s m) (hi : s.threads[i]? = some t)
    (hrole : t'.role.claimant = t.role.claimant) : Claimed (s.advance i p t' called) m := by
  obtain ⟨t'', ht'', hc⟩ := h
  by_cases him : i = m.2
  · subst him
    obtain rfl := Option.some.inj (hi.symm.trans ht'')
    refine ⟨t', ?_, hrole.trans hc⟩
    exact List.getElem?_set_self (List.getElem?_eq_some_iff.mp hi).1
  · exact ⟨t'', (List.getElem?_set_ne him).trans ht'', hc⟩

theorem Claimed.lt {m : C × Nat} (h : Claimed s m) : m.2 < s.threads.length := by
  obtain ⟨t, ht, -⟩ := h
  exact (List.getElem?_eq_some_iff.mp ht).1

theorem serves_requests {request : Nat} {task : HandlerTask C} (h : task ∈ s.process.requests)
    (hserves : task.serves request = true) : ∃ callback, task = .dataMigration callback request := by
  cases task with
  | dataMigration callback r => exact ⟨callback, by rw [eq_of_beq hserves]⟩
  | _ => cases hserves

theorem Ledger.fresh (h : Ledger s) : tickets s s.threads.length = 0 := by
  refine Nat.add_eq_zero_iff.mpr ⟨List.countP_eq_zero.mpr ?_, List.countP_eq_zero.mpr ?_⟩
  · intro task htask hserves
    obtain ⟨callback, rfl⟩ := serves_requests htask hserves
    exact lt_irrefl _ (h.pending _ _ htask).lt
  · intro t ht hserves
    obtain ⟨m, hm, heq⟩ := (Option.any_eq_true ..).mp hserves
    have hlt := (h.running t ht m hm).lt
    rw [eq_of_beq heq] at hlt
    exact lt_irrefl _ hlt

theorem Ledger.spawn (h : Ledger s) (hsound : Sound s.threads.length 0 t)
    (hmigration : t.role.migration = none) (hholds : holds t = false) : Ledger (s.spawn t) := by
  have htickets (j : Nat) : tickets (s.spawn t) j = tickets s j := by
    have hnot : t.role.serves j = false := by simp [Role.serves, hmigration]
    simp [tickets, Server.spawn, List.countP_append, hnot]
  refine ⟨?_, fun j t' ht' => ?_, fun callback request hmem => ?_, fun t' ht' m hm => ?_⟩
  · simpa [Server.spawn, List.countP_append, hholds] using h.flag
  · rw [htickets]
    rcases Server.getElem?_spawn ht' with ht' | ⟨rfl, rfl⟩
    · exact h.threads j t' ht'
    · rw [h.fresh]
      exact hsound
  · exact (h.pending callback request hmem).spawn
  · rcases Server.mem_spawn ht' with ht' | rfl
    · exact (h.running t' ht' m hm).spawn
    · rw [hmigration] at hm
      cases hm

theorem Ledger.advance (h : Ledger s) (hi : s.threads[i]? = some t)
    (hclaimant : t'.role.claimant = t.role.claimant)
    (hmigration : t'.role.migration = t.role.migration)
    (hflag : p.requests.length + s.threads.countP holds + (holds t').toNat =
      p.isDataMigrationing.toNat + (holds t).toNat)
    (htickets : ∀ j ≠ i, p.requests.countP (·.serves j) = s.process.requests.countP (·.serves j))
    (hpending : ∀ callback request, .dataMigration callback request ∈ p.requests →
      Claimed s (callback, request))
    (hsound : Sound i (p.requests.countP (·.serves i) + s.threads.countP (·.role.serves i)) t') :
    Ledger (s.advance i p t' called) := by
  have hserves (j : Nat) : (s.threads.set i t').countP (·.role.serves j) =
      s.threads.countP (·.role.serves j) := by
    have hset := Server.countP_set_thread (fun t => t.role.serves j) hi t'
    have hsame : t'.role.serves j = t.role.serves j := by rw [Role.serves, hmigration, Role.serves]
    rw [hsame] at hset
    omega
  refine ⟨?_, fun j t'' ht'' => ?_, fun callback request hmem => ?_, fun t'' ht'' m hm => ?_⟩
  · have hset := Server.countP_set_thread holds hi t'
    cases hold : holds t <;> cases hnew : holds t' <;> simp_all [Server.advance] <;> omega
  · rw [tickets, Server.advance, hserves]
    rcases Server.getElem?_advance hi ht'' with ⟨hij, ht''⟩ | ⟨rfl, rfl⟩
    · rw [htickets j hij]
      exact h.threads j t'' ht''
    · exact hsound
  · exact (hpending callback request hmem).advance hi hclaimant
  · rcases Server.mem_advance ht'' with ht'' | rfl
    · exact (h.running t'' ht'' m hm).advance hi hclaimant
    · rw [hmigration] at hm
      exact (h.running t (List.mem_of_getElem? hi) m hm).advance hi hclaimant

theorem Ledger.quiet (h : Ledger s) (hi : s.threads[i]? = some t)
    (hrequests : p.requests = s.process.requests)
    (hflag : p.isDataMigrationing = s.process.isDataMigrationing)
    (hclaimant : t'.role.claimant = t.role.claimant)
    (hmigration : t'.role.migration = t.role.migration) (hholds : holds t' = holds t)
    (hsound : ∀ n, Sound i n t → Sound i n t') : Ledger (s.advance i p t' called) := by
  refine h.advance hi hclaimant hmigration ?_ (fun _ _ => by rw [hrequests])
    (fun callback request => ?_) ?_
  · rw [hrequests, hflag, hholds, h.flag]
  · rw [hrequests]
    exact h.pending callback request
  · rw [hrequests]
    exact hsound _ (h.threads i t hi)

theorem requests_of_unclaiming {o : ProcessOp C} (ho : unclaiming o) (p : Process C) (io : Io) :
    (p.exec o io).2.requests = p.requests ∧
      (p.exec o io).2.isDataMigrationing = p.isDataMigrationing := by
  cases o with
  | setDataMigrationing | clearDataMigrationing => cases ho
  | postTask task =>
    cases task with
    | dataMigration callback request => cases ho
    | _ =>
      simp only [Process.exec]
      split
      · exact ⟨by simp [Process.requests, HandlerTask.migrates], rfl⟩
      · exact ⟨rfl, rfl⟩
  | removeUnloadTask =>
    refine ⟨?_, rfl⟩
    simp only [Process.exec, Process.requests, List.filter_filter]
    congr 1
    funext task
    cases task <;> rfl
  | _ => exact ⟨rfl, rfl⟩

theorem Ledger.unclaiming {o : ProcessOp C} {io : Io} {role : Role C}
    {k : o.Reply → ProcessTask C Int} (h : Ledger s)
    (hi : s.threads[i]? = some ⟨role, .call o k⟩) (ho : unclaiming o)
    (hholds : ∀ r, holds ⟨role, k r⟩ = holds ⟨role, .call o k⟩)
    (hsound : ∀ n r, Sound i n ⟨role, .call o k⟩ → Sound i n ⟨role, k r⟩) :
    Ledger (s.advance i (s.process.exec o io).2 ⟨role, k (s.process.exec o io).1⟩ called) := by
  obtain ⟨hrequests, hflag⟩ := requests_of_unclaiming ho s.process io
  exact h.quiet hi hrequests hflag rfl rfl (hholds _) fun n => hsound n _

theorem Ledger.bystander {o : ProcessOp C} {io : Io} {role : Role C}
    {k : o.Reply → ProcessTask C Int} (h : Ledger s)
    (hi : s.threads[i]? = some ⟨role, .call o k⟩) (hclaimant : role.claimant = none) :
    Ledger (s.advance i (s.process.exec o io).2 ⟨role, k (s.process.exec o io).1⟩ called) := by
  have hprogram := h.threads i _ hi
  simp only [Sound, hclaimant] at hprogram
  cases hmigrating : role.isMigrating with
  | true =>
    rw [hmigrating, if_pos rfl] at hprogram
    refine h.unclaiming hi hprogram.1 (fun r => by simp [holds, hmigrating]) fun n r _ => ?_
    simpa [Sound, hclaimant, hmigrating] using hprogram.2 r trivial
  | false =>
    simp only [hmigrating, Bool.false_eq_true, if_false] at hprogram
    refine h.unclaiming hi hprogram.1.1 (fun r => ?_) fun n r _ => ?_
    · rw [holds, holds, owns_of_ordinary (hprogram.2 r trivial), owns_of_ordinary hprogram]
    · exact sound_of_ordinary hclaimant hmigrating (hprogram.2 r trivial)

theorem sound_follows {n : Nat} {callback : C} (hclaimant : t.role.claimant = some callback) :
    Sound i n t ↔
      ∃ σ, (claiming callback i).Follows settled σ t.program ∧ n = σ.tickets := by
  simp only [Sound, hclaimant]

theorem not_migrating {role : Role C} {callback : C} (h : role.claimant = some callback) :
    role.isMigrating = false := by
  cases role <;> first | rfl | cases h

theorem Ledger.claimant {o : ProcessOp C} {io : Io} {role : Role C}
    {k : o.Reply → ProcessTask C Int} {callback : C} (h : Ledger s)
    (hi : s.threads[i]? = some ⟨role, .call o k⟩) (hclaimant : role.claimant = some callback) :
    Ledger (s.advance i (s.process.exec o io).2 ⟨role, k (s.process.exec o io).1⟩ called) := by
  obtain ⟨σ, hfollows, htickets⟩ := (sound_follows hclaimant).mp (h.threads i _ hi)
  have hrole := not_migrating hclaimant
  have holds_call : holds (⟨role, .call o k⟩ : ServerThread C) = σ.owns := by
    rw [holds, hrole, Bool.false_or, owns_of_follows hfollows]
  have holds_next {r : o.Reply} : holds (⟨role, k r⟩ : ServerThread C) =
      ((claiming callback i).after σ o r).owns := by
    rw [holds, hrole, Bool.false_or, owns_of_follows (hfollows.2 r trivial)]
  have hflag := h.flag
  have step_ordinary (ho : ordinary o) (hkeeps : (claiming callback i).Keeps σ o) :
      Ledger (s.advance i (s.process.exec o io).2 ⟨role, k (s.process.exec o io).1⟩ called) := by
    obtain ⟨hrequests, hflag⟩ := requests_of_unclaiming ho.1 s.process io
    refine h.advance hi rfl rfl ?_ (fun _ _ => by rw [hrequests]) ?_ ?_
    · rw [holds_call, holds_next, hkeeps.2, hrequests, hflag, h.flag]
    · rw [hrequests]
      exact h.pending
    · refine (sound_follows hclaimant).mpr ⟨σ, ?_, ?_⟩
      · have := hfollows.2 (s.process.exec o io).1 trivial
        rwa [hkeeps.2] at this
      · rw [hrequests, ← htickets, tickets]
  cases σ with
  | posted => exact step_ordinary hfollows.1 (keeps_ordinary rfl o hfollows.1)
  | asking =>
    rcases hfollows.1 with rfl | ho
    · refine h.advance hi rfl rfl ?_ (fun _ _ => rfl) h.pending
        ((sound_follows hclaimant).mpr ⟨_, hfollows.2 _ trivial, ?_⟩)
      · rw [holds_call, holds_next]
        change s.process.requests.length + s.threads.countP holds +
          (if !s.process.isDataMigrationing then Ask.owning else .asking).owns.toNat = 1 + 0
        rw [h.flag]
        cases s.process.isDataMigrationing <;> rfl
      · refine htickets.trans ?_
        change 0 = (if !s.process.isDataMigrationing then Ask.owning else .asking).tickets
        cases s.process.isDataMigrationing <;> rfl
    · exact step_ordinary ho (keeps_ordinary rfl o ho)
  | owning =>
    obtain rfl := hfollows.1
    cases hok : io.ok with
    | false =>
      have hexec : s.process.exec (.postTask (.dataMigration callback i)) io = (false, s.process) := by
        simp [Process.exec, hok]
      refine h.advance hi rfl rfl ?_ (fun _ _ => by rw [hexec]) (by rw [hexec]; exact h.pending)
        ((sound_follows hclaimant).mpr ⟨_, hfollows.2 _ trivial, ?_⟩)
      · rw [holds_call, holds_next, hexec, h.flag]
        rfl
      · rw [hexec]
        exact htickets
    | true =>
      have hrequests : (s.process.exec (.postTask (.dataMigration callback i)) io).2.requests =
          s.process.requests ++ [.dataMigration callback i] := by
        simp [Process.exec, hok, Process.requests, HandlerTask.migrates]
      have hreply : (s.process.exec (.postTask (.dataMigration callback i)) io).1 = true := by
        simp [Process.exec, hok]
      have hmigrating :
          (s.process.exec (.postTask (.dataMigration callback i)) io).2.isDataMigrationing =
            s.process.isDataMigrationing := by simp [Process.exec, hok]
      refine h.advance hi rfl rfl ?_ (fun j hj => ?_) (fun callback' request hmem => ?_)
        ((sound_follows hclaimant).mpr ⟨_, hfollows.2 _ trivial, ?_⟩)
      · rw [holds_call, holds_next, hrequests, hreply, hmigrating, ← h.flag, List.length_append]
        change _ + 1 + _ + 0 = _ + _ + 1
        omega
      · rw [hrequests, List.countP_append]
        simp [HandlerTask.serves, Ne.symm hj]
      · rw [hrequests, List.mem_append, List.mem_singleton] at hmem
        rcases hmem with hmem | heq
        · exact h.pending callback' request hmem
        · cases heq
          exact ⟨_, hi, hclaimant⟩
      · change tickets s i = 0 at htickets
        rw [tickets] at htickets
        have hone : [HandlerTask.dataMigration callback i].countP (·.serves i) = 1 := by
          simp [HandlerTask.serves]
        rw [hrequests, List.countP_append, hreply, hone]
        change _ = 1
        omega
  | releasing =>
    obtain rfl := hfollows.1
    refine h.advance hi rfl rfl ?_ (fun _ _ => rfl) h.pending
      ((sound_follows hclaimant).mpr ⟨_, hfollows.2 _ trivial, htickets⟩)
    rw [holds_call, holds_next]
    change s.process.requests.length + s.threads.countP holds + 0 = 0 + 1
    have hpos : 0 < s.threads.countP holds :=
      List.countP_pos_iff.mpr ⟨_, List.mem_of_getElem? hi, holds_call⟩
    have hle := Bool.toNat_le s.process.isDataMigrationing
    omega

theorem Ledger.process (h : Ledger s) (hrequests : p.requests = s.process.requests)
    (hflag : p.isDataMigrationing = s.process.isDataMigrationing) :
    Ledger { s with process := p } := by
  refine ⟨?_, fun j t ht => ?_, fun callback request hmem => ?_, h.running⟩
  · exact hrequests ▸ hflag ▸ h.flag
  · simpa only [tickets, hrequests] using h.threads j t ht
  · exact h.pending callback request (hrequests ▸ hmem)

theorem countP_requests (p : Process C) (request : Nat) :
    p.requests.countP (·.serves request) = p.pending.countP (·.serves request) := by
  rw [Process.requests, List.countP_filter]
  refine List.countP_congr fun task _ => ?_
  cases task <;> simp [HandlerTask.serves, HandlerTask.migrates]

theorem countP_eraseIdx {α : Type} {l : List α} {a : α} (f : α → Bool) (h : l[i]? = some a) :
    (l.eraseIdx i).countP f + (f a).toNat = l.countP f := by
  obtain ⟨hi, rfl⟩ := List.getElem?_eq_some_iff.mp h
  rw [← (List.getElem_cons_eraseIdx_perm hi).countP_eq f, List.countP_cons]
  cases f l[i] <;> rfl

theorem Ledger.dispatch {task : HandlerTask C} (h : Ledger s)
    (htask : s.process.pending[i]? = some task) :
    Ledger ({ s with process :=
      { s.process with pending := s.process.pending.eraseIdx i } }.spawn (handle task)) := by
  have hserves (j : Nat) : (handle task).role.serves j = task.serves j := by
    cases task <;> rfl
  have hlength := countP_eraseIdx (·.migrates) htask
  have htickets (j : Nat) : tickets ({ s with process :=
      { s.process with pending := s.process.pending.eraseIdx i } }.spawn (handle task)) j =
        tickets s j := by
    have herase := countP_eraseIdx (·.serves j) htask
    simp only [tickets, Server.spawn, List.countP_append, countP_requests, List.countP_cons,
      List.countP_nil, hserves]
    cases hj : task.serves j <;> simp [hj] at herase ⊢ <;> omega
  refine ⟨?_, fun j t ht => ?_, fun callback request hmem => ?_, fun t ht m hm => ?_⟩
  · have hflag := h.flag
    simp only [Server.spawn, Process.requests, ← List.countP_eq_length_filter, List.countP_append,
      List.countP_cons, List.countP_nil, holds_handle] at hflag ⊢
    cases hm : task.migrates <;> simp [hm] at hlength ⊢ <;> omega
  · rw [htickets]
    rcases Server.getElem?_spawn ht with ht | ⟨rfl, rfl⟩
    · exact h.threads j t ht
    · exact sound_handle _ _ task
  · obtain ⟨hpending, hmigrates⟩ := List.mem_filter.mp hmem
    refine (h.pending callback request (List.mem_filter.mpr ⟨?_, hmigrates⟩)).spawn
    exact List.mem_of_mem_eraseIdx hpending
  · rcases Server.mem_spawn ht with ht | rfl
    · exact (h.running t ht m hm).spawn
    · cases task with
      | dataMigration callback request =>
        obtain rfl := Option.some.inj hm
        exact (h.pending callback request (List.mem_filter.mpr
          ⟨List.mem_of_getElem? htask, rfl⟩)).spawn
      | _ => cases hm

theorem ledger_step (h : Ledger s) (hstep : ServerStep s e u) : Ledger u := by
  cases hstep with
  | call c => exact h.spawn (sound_body _ c).1 rfl (sound_body _ c).2
  | clientDied tokenId => exact h.spawn (sound_clientDied _ tokenId) rfl rfl
  | userStopping userId =>
    exact h.process (by simp [Process.requests, HandlerTask.migrates]) rfl
  | dispatch hidle htask => exact h.dispatch htask
  | @arrive i io c p hi =>
    obtain ⟨hrequests, hflag⟩ := requests_of_unclaiming (o := .removeUnloadTask) rfl s.process io
    exact h.quiet hi hrequests hflag rfl rfl rfl fun _ hs => hs
  | count hi => exact h.quiet hi rfl rfl rfl rfl rfl fun _ hs => hs
  | @uncount i _ c code hi =>
    refine h.quiet hi rfl rfl rfl rfl rfl fun n hs => ?_
    cases hclaimant : c.callback with
    | none =>
      refine sound_of_ordinary hclaimant rfl ?_
      exact always_bind (admits_ordinary.leave _) fun _ => always_pure _
    | some callback =>
      obtain ⟨σ, hcode, hn⟩ := (sound_follows (t := ⟨.serving c, .done code⟩) hclaimant).mp hs
      exact (sound_follows (t := ⟨.leaving c, _⟩) hclaimant).mpr ⟨σ, follows_leave _ hcode, hn⟩
  | @endMigration i _ callback request code hi =>
    have hpos : 0 < s.threads.countP holds :=
      List.countP_pos_iff.mpr ⟨_, List.mem_of_getElem? hi, rfl⟩
    refine h.advance hi rfl rfl ?_ (fun _ _ => rfl) h.pending ?_
    · change s.process.requests.length + s.threads.countP holds + 0 = 0 + 1
      have hle := Bool.toNat_le s.process.isDataMigrationing
      have hflag := h.flag
      omega
    · exact sound_of_ordinary rfl rfl (always_silent admits_ordinary.addUnloadFontServiceTask)
  | @op i io role o k hrole hi henabled =>
    cases hclaimant : role.claimant with
    | none => exact h.bystander hi hclaimant
    | some callback => exact h.claimant hi hclaimant
  | beat => exact ⟨h.flag, h.threads, h.pending, h.running⟩

end step

end MigrationTickets
