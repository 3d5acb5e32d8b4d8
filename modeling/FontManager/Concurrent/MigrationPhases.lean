import FontManager.Concurrent.MigrationTickets

open FontDefine FontManagerUtils Interaction DataMigrationManager FontManagerServer
open Program hiding perform call
open MigrationTickets

variable {C : Type}

namespace EventData

def isResult : EventData → Bool
  | .progressResult _ => true
  | _ => false

def isProgress : EventData → Bool
  | .progressDoing _ _ => true
  | _ => false

end EventData

structure Manager (C : Type) where
  migrating : Bool
  callback : Option C
  heartBeatThread : Option Nat
  heartBeats : List (HeartBeat C)
  delivered : List (Delivery C)

def Process.manager (p : Process C) : Manager C where
  migrating := p.migrating
  callback := p.callback
  heartBeatThread := p.heartBeatThread
  heartBeats := p.heartBeats
  delivered := p.delivered

inductive BeatStep (p : Process C) (b : HeartBeat C) : HeartBeat C → List (Delivery C) → Prop
  | enter (hstep : b.step = .loop) (hm : p.migrating = true) : BeatStep p b { b with step := .read } []
  | stop (hstep : b.step = .loop) (hm : p.migrating = false) :
    BeatStep p b { b with step := .stopped } []
  | skip (hstep : b.step = .read) (hc : p.callback = none) : BeatStep p b { b with step := .wait 0 } []
  | read {c : C} (hstep : b.step = .read) (hc : p.callback = some c) :
    BeatStep p b { b with step := .handle c } []
  | deliver {c : C} (hstep : b.step = .handle c) :
    BeatStep p b { b with step := .wait 0 } [⟨b.request, c, .heartBeat⟩]
  | sleep {i : Nat} (hstep : b.step = .wait i) : BeatStep p b { b with step := .wait (i + 1) } []
  | wake {i : Nat} (hstep : b.step = .wait i) : BeatStep p b { b with step := .loop } []

theorem beat_cases {p : Process C} {b b' : HeartBeat C} {sent : List (Delivery C)}
    (h : b.next p = some (b', sent)) : BeatStep p b b' sent := by
  unfold HeartBeat.next at h
  split at h
  · rename_i hstep
    cases h
    cases hm : p.migrating with
    | true => exact .enter hstep hm
    | false => exact .stop hstep hm
  · rename_i hstep
    split at h
    · rename_i hc
      cases h
      exact .skip hstep hc
    · rename_i c hc
      cases h
      exact .read hstep hc
  · rename_i c hstep
    cases h
    exact .deliver hstep
  · rename_i i hstep
    cases h
    split
    · exact .sleep hstep
    · exact .wake hstep
  · cases h

namespace BeatStep

variable {p : Process C} {b b' : HeartBeat C} {sent : List (Delivery C)}

theorem live (h : BeatStep p b b' sent) : b.step ≠ .stopped := by
  cases h <;> simp_all

theorem request_eq (h : BeatStep p b b' sent) : b'.request = b.request := by
  cases h <;> rfl

end BeatStep

namespace MigrationPhases

inductive Phase where
  | queued
  | claimed
  | quiet
  | beating
  | cleared
  | reported
  | joining
  | joined
  | ended

abbrev unmanaged (o : ProcessOp C) : Prop := manages o = false

namespace Phase

def migrating : Phase → Bool
  | claimed => true
  | quiet => true
  | beating => true
  | _ => false

def calls : Phase → Bool
  | queued => false
  | claimed => false
  | ended => false
  | _ => true

def beats : Phase → Bool
  | beating => true
  | cleared => true
  | reported => true
  | joining => true
  | _ => false

def results : Phase → Nat
  | reported => 1
  | joining => 1
  | joined => 1
  | ended => 1
  | _ => 0

theorem calls_of_beats {σ : Phase} (h : σ.beats = true) : σ.calls = true := by
  cases σ <;> first | rfl | cases h

end Phase

-- What the migration task may do, stage by stage, and what it can be answered.
def phases (callback : C) (request : Nat) : Protocol (processSig C) Phase where
  allows σ o :=
    match σ with
    | .queued => o = .setMigrating ∨ unmanaged o
    | .claimed => o = .setCallback (some callback)
    | .quiet => o = .startHeartBeat request ∨ o = .clearMigrating ∨ unmanaged o
    | .beating => (∃ event, o = .handle request callback event ∧ event.isProgress = true) ∨
        o = .callback ∨ o = .clearMigrating ∨ unmanaged o
    | .cleared => (∃ result, o = .handle request callback (.progressResult result)) ∨
        o = .callback ∨ unmanaged o
    | .reported => unmanaged o
    | .joining => o = .joinHeartBeat
    | .joined => o = .setCallback none
    | .ended => unmanaged o
  replies σ o r :=
    match σ, o, r with
    | .queued, .setMigrating, expected => expected = true
    | .beating, .callback, reply => reply = some callback
    | .cleared, .callback, reply => reply = some callback
    | _, _, _ => True
  after σ o r :=
    match σ, o, r with
    | .queued, .setMigrating, _ => .claimed
    | .claimed, _, _ => .quiet
    | .quiet, .startHeartBeat _, _ => .beating
    | .quiet, .clearMigrating, _ => .cleared
    | .beating, .clearMigrating, _ => .cleared
    | .cleared, .handle _ _ _, _ => .reported
    | .reported, .heartBeatJoinable, joinable => if joinable then .joining else .joined
    | .joining, _, _ => .joined
    | .joined, _, _ => .ended
    | σ, _, _ => σ

section programs

variable {callback : C} {request : Nat} {α : Type}

theorem queued_of_setMigrating {σ : Phase} (h : (phases callback request).allows σ .setMigrating) :
    σ = .queued := by
  cases σ <;> first | rfl | simp [phases, unmanaged, manages] at h

theorem quiet_of_startHeartBeat {σ : Phase} {r : Nat}
    (h : (phases callback request).allows σ (.startHeartBeat r)) : σ = .quiet := by
  cases σ <;> first | rfl | simp [phases, unmanaged, manages] at h

theorem calls_of_callback {σ : Phase} (h : (phases callback request).allows σ .callback) :
    σ.calls = true := by
  cases σ <;> first | rfl | simp [phases, unmanaged, manages] at h

theorem event_of_handle {σ : Phase} {r : Nat} {c : C} {event : EventData}
    (h : (phases callback request).allows σ (.handle r c event)) :
    r = request ∧ σ = .beating ∧ event.isProgress = true ∨ σ = .cleared ∧ event.isResult = true := by
  cases σ with
  | beating =>
    obtain ⟨event', heq, hprogress⟩ := h.resolve_right (by simp [unmanaged, manages])
    cases heq
    exact Or.inl ⟨rfl, rfl, hprogress⟩
  | cleared =>
    obtain ⟨result, heq⟩ := h.resolve_right (by simp [unmanaged, manages])
    cases heq
    exact Or.inr ⟨rfl, rfl⟩
  | _ => simp [phases, unmanaged, manages] at h

theorem admits_unmanaged : AdmitsCopying (unmanaged (C := C)) where
  font _ := rfl
  getDirFiles _ := rfl
  isEmptyFolder _ := rfl
  openFile _ := rfl
  copyFile _ _ := rfl
  renameFile _ _ := rfl

theorem keeps_quiet (o : ProcessOp C) (ho : unmanaged o) :
    (phases callback request).Keeps .quiet o := by
  refine ⟨Or.inr (Or.inr ho), fun r => ?_⟩
  cases o <;> first | rfl | cases ho

theorem keeps_beating (o : ProcessOp C) (ho : unmanaged o) :
    (phases callback request).Keeps .beating o := by
  refine ⟨Or.inr (Or.inr (Or.inr ho)), fun r => ?_⟩
  cases o <;> first | rfl | cases ho

theorem follows_quiet {p : ProcessTask C α}
    (h : always (P := processSig C) (fun _ _ => True) unmanaged p) :
    (phases callback request).Follows (fun _ σ => σ = .quiet) .quiet p :=
  Protocol.follows_of_always (fun _ _ _ => trivial) keeps_quiet h fun _ => rfl

theorem follows_beating {p : ProcessTask C α}
    (h : always (P := processSig C) (fun _ _ => True) unmanaged p) :
    (phases callback request).Follows (fun _ σ => σ = .beating) .beating p :=
  Protocol.follows_of_always (fun _ _ _ => trivial) keeps_beating h fun _ => rfl

theorem follows_eventDataProgress (i size idsize : Nat) :
    (phases callback request).Follows (fun _ σ => σ = .beating) .beating
      (eventDataProgress request i size idsize) := by
  refine Protocol.follows_perform_bind (Or.inr (Or.inr (Or.inr rfl))) fun folderSize _ => ?_
  refine Protocol.follows_perform_bind (Or.inr (Or.inl rfl)) fun reply hreply => ?_
  obtain rfl : reply = some callback := hreply
  exact ⟨Or.inl ⟨_, rfl, rfl⟩, fun _ _ => rfl⟩

theorem follows_migrateFiles (userIds : List Int) (size i : Nat) (paths : List Str) :
    (phases callback request).Follows (fun _ σ => σ = .beating) .beating
      (migrateFiles request userIds size i paths) := by
  induction paths generalizing i with
  | nil => exact rfl
  | cons path rest ih =>
    have copied : (phases callback request).Follows (fun _ σ => σ = .beating) .beating (do
        let ret ← startOneFileCopyTask userIds path
        if ret ≠ .ok then pure ret else migrateFiles request userIds size (i + 1) rest) := by
      refine Protocol.follows_bind (Protocol.follows_mono ?_
        (follows_beating (admits_unmanaged.startOneFileCopyTask userIds path)))
      rintro ret _ rfl
      split
      · exact rfl
      · exact ih _
    unfold migrateFiles
    split
    · refine Protocol.follows_bind (Protocol.follows_mono ?_ (follows_eventDataProgress _ _ _))
      rintro _ _ rfl
      exact copied
    · exact copied

theorem follows_dataMigrationInner :
    (phases callback request).Follows (fun _ σ => σ = .quiet ∨ σ = .beating) .quiet
      (DataMigrationManager.dataMigrationInner request) := by
  refine Protocol.follows_bind (Protocol.follows_mono ?_
    (follows_quiet admits_unmanaged.initDataMigrationEnv))
  rintro env _ rfl
  split
  · exact Or.inl rfl
  · refine Protocol.follows_perform_bind (Or.inl rfl) fun _ _ => ?_
    refine Protocol.follows_bind ?_
    refine Protocol.follows_perform_bind (Or.inr (Or.inr (Or.inr rfl))) fun paths _ => ?_
    exact Protocol.follows_mono (fun _ _ h => Or.inr h) (follows_migrateFiles _ _ _ _)

theorem follows_migrate :
    (phases callback request).Follows (fun _ σ => σ = .quiet ∨ σ = .beating) .quiet
      (migrate request) := by
  refine Protocol.follows_bind (Protocol.follows_mono ?_ follows_dataMigrationInner)
  rintro done _ (rfl | rfl)
  · refine Protocol.follows_bind (Protocol.follows_mono (fun _ _ h => Or.inl h) (follows_quiet ?_))
    exact admits_unmanaged.checkAndUpdateAllFontRecord _
  · refine Protocol.follows_bind (Protocol.follows_mono (fun _ _ h => Or.inr h) (follows_beating ?_))
    exact admits_unmanaged.checkAndUpdateAllFontRecord _

theorem follows_finish {σ : Phase} (hσ : σ = .quiet ∨ σ = .beating)
    (ret : DataMigrationResultCode) :
    (phases callback request).Follows (fun _ σ => σ = .ended) σ (finish request ret) := by
  have reporting : (phases callback request).Follows (fun _ σ => σ = .ended) .cleared (do
      eventDataResult request ret
      let joinable : Bool ← perform .heartBeatJoinable
      if joinable then perform .joinHeartBeat
      perform (.setCallback none)) := by
    refine Protocol.follows_bind (Protocol.follows_perform_bind (Or.inr (Or.inl rfl)) fun reply hreply => ?_)
    obtain rfl : reply = some callback := hreply
    refine ⟨Or.inl ⟨ret, rfl⟩, fun _ _ => ?_⟩
    refine Protocol.follows_perform_bind rfl fun joinable _ => ?_
    cases joinable with
    | false => exact ⟨rfl, fun _ _ => rfl⟩
    | true => exact ⟨rfl, fun _ _ => ⟨rfl, fun _ _ => rfl⟩⟩
  rcases hσ with rfl | rfl
  · exact Protocol.follows_perform_bind (Or.inr (Or.inl rfl)) fun _ _ => reporting
  · exact Protocol.follows_perform_bind (Or.inr (Or.inr (Or.inl rfl))) fun _ _ => reporting

theorem follows_migrationTask :
    (phases callback request).Follows (fun _ σ => σ = .ended) .queued
      (silent (migrationTask callback request)) := by
  refine Protocol.follows_bind ?_
  refine Protocol.follows_perform_bind (Or.inr rfl) fun _ _ => ?_
  refine Protocol.follows_perform_bind (Or.inl rfl) fun expected hexpected => ?_
  obtain rfl : expected = true := hexpected
  refine Protocol.follows_perform_bind rfl fun _ _ => ?_
  refine Protocol.follows_bind (Protocol.follows_mono ?_ follows_migrate)
  exact fun ret σ hσ => follows_finish hσ ret

end programs

def results (request : Nat) (delivered : List (Delivery C)) : Nat :=
  delivered.countP fun d => d.request == request && d.event.isResult

def Alone (m : Manager C) : Prop :=
  m.heartBeatThread = none ∧ ∀ h ∈ m.heartBeats, h.step = .stopped

def Beats (callback : C) (request : Nat) (m : Manager C) : Prop :=
  ∀ j h, m.heartBeats[j]? = some h → h.step ≠ .stopped →
    m.heartBeatThread = some j ∧ h.request = request ∧ ∀ c, h.step = .handle c → c = callback

structure Holds (callback : C) (request : Nat) (σ : Phase) (m : Manager C) : Prop where
  flag : m.migrating = σ.migrating
  slot : σ.calls = true → m.callback = some callback
  alone : σ.beats = false → Alone m
  beating : Beats callback request m
  count : results request m.delivered = σ.results

def Sends (callback : C) (request : Nat) (before after : List (Delivery C)) : Prop :=
  ∃ sent, after = before ++ sent ∧ ∀ d ∈ sent, d.request = request ∧ d.callback = callback

section manager

variable {callback : C} {request : Nat} {σ : Phase} {p : Process C} {o : ProcessOp C} {io : Io}

theorem Alone.beats {m : Manager C} (h : Alone m) : Beats callback request m :=
  fun _ b hb hlive => absurd (h.2 b (List.mem_of_getElem? hb)) hlive

theorem Sends.refl (delivered : List (Delivery C)) : Sends callback request delivered delivered :=
  ⟨[], (List.append_nil _).symm, by simp⟩

theorem results_append (request : Nat) (before sent : List (Delivery C)) :
    results request (before ++ sent) = results request before + results request sent :=
  List.countP_append

theorem results_singleton (event : EventData) :
    results request [⟨request, callback, event⟩] = event.isResult.toNat := by
  cases h : event.isResult <;> simp [results, h]

theorem Sends.results_eq {before after : List (Delivery C)} (h : Sends callback request before after)
    {r : Nat} (hne : r ≠ request) : results r after = results r before := by
  obtain ⟨sent, rfl, hsent⟩ := h
  rw [results_append, Nat.add_eq_left, results, List.countP_eq_zero]
  intro d hd
  simp [(hsent d hd).1, Ne.symm hne]

theorem manager_of_unmanaged (ho : unmanaged o) (p : Process C) (io : Io) :
    (p.exec o io).2.manager = p.manager := by
  cases o with
  | postTask task =>
    simp only [Process.exec]
    split <;> rfl
  | setMigrating | clearMigrating | setCallback | handle | startHeartBeat | joinHeartBeat => cases ho
  | _ => rfl

theorem Beats.alone {m : Manager C} (h : Beats callback request m) (hnone : m.heartBeatThread = none) :
    Alone m := by
  refine ⟨hnone, fun b hb => ?_⟩
  obtain ⟨j, hj⟩ := List.mem_iff_getElem?.mp hb
  by_contra hlive
  have hthread := (h j b hj hlive).1
  rw [hnone] at hthread
  cases hthread

theorem Holds.joinable (h : Holds callback request .reported p.manager) :
    Holds callback request (if p.heartBeatThread.isSome then .joining else .joined) p.manager := by
  cases hthread : p.heartBeatThread with
  | none =>
    exact ⟨h.flag, fun _ => h.slot rfl, fun _ => h.beating.alone hthread, h.beating, h.count⟩
  | some j =>
    refine ⟨h.flag, fun _ => h.slot rfl, fun hno => ?_, h.beating, h.count⟩
    cases hno

theorem holds_unmanaged (h : Holds callback request σ p.manager) (ho : unmanaged o)
    (hallows : (phases callback request).allows σ o) :
    (phases callback request).replies σ o (p.exec o io).1 ∧
      Holds callback request ((phases callback request).after σ o (p.exec o io).1)
        (p.exec o io).2.manager := by
  rw [manager_of_unmanaged ho]
  cases σ with
  | claimed | joining | joined =>
    obtain rfl := hallows
    cases ho
  | reported =>
    cases o with
    | heartBeatJoinable => exact ⟨trivial, h.joinable⟩
    | _ => exact ⟨trivial, h⟩
  | _ => cases o <;> first | exact ⟨trivial, h⟩ | cases ho

theorem Holds.startHeartBeat (h : Holds callback request .quiet p.manager) :
    Holds callback request .beating (p.exec (.startHeartBeat request) io).2.manager := by
  refine ⟨h.flag, fun _ => h.slot rfl, (fun hno => by cases hno), fun j b hb hlive => ?_, h.count⟩
  simp only [Process.exec, Process.manager, List.getElem?_append, List.getElem?_singleton] at hb
  split at hb
  · exact absurd ((h.alone rfl).2 b (List.mem_of_getElem? hb)) hlive
  · split at hb
    · obtain rfl := Option.some.inj hb
      refine ⟨congrArg some (by omega), rfl, fun c hc => by cases hc⟩
    · cases hb

theorem Holds.join (h : Holds callback request .joining p.manager)
    (henabled : Server.enabled p .joinHeartBeat = true) :
    Holds callback request .joined (p.exec .joinHeartBeat io).2.manager := by
  have hstopped : ∀ b ∈ p.heartBeats, b.step = .stopped := by
    intro b hb
    by_contra hlive
    obtain ⟨j, hj⟩ := List.mem_iff_getElem?.mp hb
    have hthread : p.heartBeatThread = some j := (h.beating j b hj hlive).1
    simp only [Server.enabled, hthread, Option.all_some, Server.stopped, hj] at henabled
    split at henabled
    · rename_i heq
      obtain rfl := Option.some.inj heq
      exact hlive rfl
    · cases henabled
  have halone : Alone (p.exec .joinHeartBeat io).2.manager := ⟨rfl, hstopped⟩
  exact ⟨h.flag, fun _ => h.slot rfl, fun _ => halone, halone.beats, h.count⟩

theorem holds_op (io : Io) (h : Holds callback request σ p.manager)
    (hallows : (phases callback request).allows σ o) (henabled : Server.enabled p o = true) :
    (phases callback request).replies σ o (p.exec o io).1 ∧
      Holds callback request ((phases callback request).after σ o (p.exec o io).1)
        (p.exec o io).2.manager ∧
      Sends callback request p.delivered (p.exec o io).2.delivered := by
  by_cases ho : unmanaged o
  · obtain ⟨hreply, hnext⟩ := holds_unmanaged h ho hallows
    refine ⟨hreply, hnext, ?_⟩
    have hsame : (p.exec o io).2.delivered = p.delivered :=
      congrArg Manager.delivered (manager_of_unmanaged ho p io)
    rw [hsame]
    exact Sends.refl _
  · have single (event : EventData) : Sends callback request p.delivered
        (p.exec (.handle request callback event) io).2.delivered :=
      ⟨[⟨request, callback, event⟩], rfl, by simp⟩
    cases σ with
    | queued =>
      obtain rfl := hallows.resolve_right ho
      have hflag : p.migrating = false := h.flag
      refine ⟨by simp [phases, Process.exec, hflag], ?_, Sends.refl _⟩
      exact ⟨rfl, (fun hno => by cases hno), fun _ => h.alone rfl, h.beating, h.count⟩
    | claimed =>
      obtain rfl := hallows
      exact ⟨trivial, ⟨h.flag, fun _ => rfl, fun _ => h.alone rfl, h.beating, h.count⟩, Sends.refl _⟩
    | quiet =>
      rcases hallows with rfl | rfl | hno
      · exact ⟨trivial, h.startHeartBeat, Sends.refl _⟩
      · exact ⟨trivial, ⟨rfl, fun _ => h.slot rfl, (fun hno => by cases hno), h.beating, h.count⟩,
          Sends.refl _⟩
      · exact absurd hno ho
    | beating =>
      rcases hallows with ⟨event, rfl, hprogress⟩ | rfl | rfl | hno
      · refine ⟨trivial, ⟨h.flag, fun _ => h.slot rfl, (fun hno => by cases hno), h.beating, ?_⟩,
          single event⟩
        have hcount : results request p.delivered = 0 := h.count
        have hresult : event.isResult = false := by cases event <;> first | rfl | cases hprogress
        refine (results_append ..).trans ?_
        rw [hcount, results_singleton, hresult]
        rfl
      · exact ⟨h.slot rfl, h, Sends.refl _⟩
      · exact ⟨trivial, ⟨rfl, fun _ => h.slot rfl, (fun hno => by cases hno), h.beating, h.count⟩,
          Sends.refl _⟩
      · exact absurd hno ho
    | cleared =>
      rcases hallows with ⟨result, rfl⟩ | rfl | hno
      · refine ⟨trivial, ⟨h.flag, fun _ => h.slot rfl, (fun hno => by cases hno), h.beating, ?_⟩,
          single _⟩
        have hcount : results request p.delivered = 0 := h.count
        refine (results_append ..).trans ?_
        rw [hcount, results_singleton]
        rfl
      · exact ⟨h.slot rfl, h, Sends.refl _⟩
      · exact absurd hno ho
    | reported => exact absurd hallows ho
    | joining =>
      obtain rfl := hallows
      exact ⟨trivial, h.join henabled, Sends.refl _⟩
    | joined =>
      obtain rfl := hallows
      refine ⟨trivial, ⟨h.flag, (fun hno => by cases hno), fun _ => h.alone rfl, h.beating, h.count⟩,
        Sends.refl _⟩
    | ended => exact absurd hallows ho

theorem Holds.live {i : Nat} {b : HeartBeat C} (h : Holds callback request σ p.manager)
    (hi : p.heartBeats[i]? = some b) (hlive : b.step ≠ .stopped) : σ.beats = true := by
  by_contra hσ
  exact hlive ((h.alone (Bool.eq_false_iff.mpr hσ)).2 b (List.mem_of_getElem? hi))

theorem holds_beat {i : Nat} {b b' : HeartBeat C} {sent : List (Delivery C)}
    (h : Holds callback request σ p.manager) (hi : p.heartBeats[i]? = some b)
    (hb : BeatStep p b b' sent) :
    Holds callback request σ { p.manager with
        heartBeats := p.heartBeats.set i b'
        delivered := p.delivered ++ sent } ∧
      Sends callback request p.delivered (p.delivered ++ sent) := by
  obtain ⟨hthread, hrequest, hcallback⟩ := h.beating i b hi hb.live
  have hσ := h.live hi hb.live
  have hcalls : p.callback = some callback := h.slot (Phase.calls_of_beats hσ)
  have hsent : ∀ d ∈ sent, d = ⟨request, callback, .heartBeat⟩ := by
    cases hb with
    | @deliver c hstep => simp [hrequest, hcallback c hstep]
    | _ => simp
  refine ⟨⟨h.flag, h.slot, fun hno => by simp [hσ] at hno, fun j b'' hj hlive => ?_, ?_⟩,
    ⟨sent, rfl, fun d hd => by simp [hsent d hd]⟩⟩
  · dsimp only at hj
    rw [List.getElem?_set] at hj
    split at hj
    · rename_i hij
      subst hij
      rw [if_pos (List.getElem?_eq_some_iff.mp hi).1] at hj
      obtain rfl := Option.some.inj hj
      refine ⟨hthread, hb.request_eq.trans hrequest, fun c hc => ?_⟩
      cases hb with
      | read hstep hread =>
        cases hc
        exact Option.some.inj (hread.symm.trans hcalls)
      | _ => cases hc
    · exact h.beating j b'' hj hlive
  · have hnone : results request sent = 0 :=
      List.countP_eq_zero.mpr fun d hd => by simp [hsent d hd, EventData.isResult]
    exact (results_append request p.delivered sent).trans (by rw [hnone]; exact h.count)

end manager

end MigrationPhases
