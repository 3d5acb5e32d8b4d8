import FontManager.Concurrent.Admits
import FontManager.Concurrent.ServerStep
import FontManager.Interaction.Termination
import Mathlib.Tactic.Abel

open FontManagerUtils Interaction FontManagerServer DataMigrationManager Relation
open Program hiding perform call

variable {C : Type}

namespace HandlerTask

def rank : HandlerTask C → Nat
  | .dataMigration _ _ => 4
  | _ => 1

end HandlerTask

namespace Role

def rank : Role C → Nat
  | .arriving _ => 7
  | .counting _ => 6
  | .serving _ => 5
  | .migrating _ _ => 3
  | .unloading => 0
  | .cleaning => 0
  | _ => 2

def bound : Role C → Nat
  | .arriving _ => 5
  | .counting _ => 5
  | .serving _ => 5
  | .migrating _ _ => 0
  | .unloading => 0
  | .cleaning => 0
  | _ => 2

theorem bound_le_rank (role : Role C) : role.bound ≤ role.rank := by
  cases role <;> simp [bound, rank]

end Role

namespace ServerEvent

def arrives : ServerEvent C → Bool
  | .call _ => true
  | .clientDied _ => true
  | .userStopping _ => true
  | _ => false

end ServerEvent

namespace Ranks

def posts (n : Nat) : ProcessOp C → Prop
  | .postTask task => task.rank < n
  | _ => True

abbrev Posts {α : Type} (n : Nat) (p : ProcessTask C α) : Prop :=
  always (P := processSig C) (fun _ _ => True) (posts n) p

section programs

theorem admits_posts {n : Nat} (hn : 1 < n) : AdmitsService (posts (C := C) n) where
  font _ := trivial
  isEmpty _ := trivial
  removeEmpty _ := trivial
  callingCount := trivial
  isDataMigrationing := trivial
  postUnload := hn
  removeUnloadTask := trivial
  unloadFontService := trivial

theorem admits_cleaning : AdmitsCleanup (posts (C := C) 0) where
  font _ := trivial
  isEmpty _ := trivial
  removeEmpty _ := trivial

theorem admits_migrating : AdmitsMigration (posts (C := C) 0) where
  font _ := trivial
  getDirFiles _ := trivial
  isEmptyFolder _ := trivial
  openFile _ := trivial
  copyFile _ _ := trivial
  renameFile _ _ := trivial
  removeUnloadTask := trivial
  getFolderSize _ := trivial
  setMigrating := trivial
  clearMigrating := trivial
  setCallback _ := trivial
  callback := trivial
  handle _ _ _ := trivial
  startHeartBeat _ := trivial
  heartBeatJoinable := trivial
  joinHeartBeat := trivial

theorem posts_unloadTask : Posts (C := C) 0 unloadTask := by
  apply always_perform_bind trivial
  intro callingCount _
  split
  · exact always_pure _
  · apply always_perform_bind trivial
    intro migrating _
    split
    · exact always_pure _
    · apply always_bind (always_font admits_cleaning.font _)
      intro clientCount
      split
      · exact always_pure _
      · apply always_bind (always_font admits_cleaning.font _)
        intro tempUserIds
        apply always_bind (always_font admits_cleaning.font _)
        intro _
        apply always_bind (always_font admits_cleaning.font _)
        intro dirUserIds
        apply always_bind (admits_cleaning.cleanupScopeFontDirs dirUserIds)
        intro _
        exact always_perform trivial

theorem posts_body (request : Nat) (call : ServerCall C) : Posts 5 (body request call) := by
  cases call with
  | dataMigration caller callback =>
    apply always_reply
    unfold FontManagerServer.dataMigrationInner
    split
    · exact always_pure _
    · apply always_perform_bind trivial
      intro exchanged _
      cases exchanged with
      | false => exact always_pure _
      | true =>
        apply always_perform_bind (show posts 5 (.postTask (.dataMigration callback request)) by
          simp [posts, HandlerTask.rank])
        intro posted _
        cases posted with
        | true => exact always_pure _
        | false => exact always_perform_bind trivial fun _ _ => always_pure _
  | _ => exact (admits_posts (by omega)).body request _ (by simp)

theorem posts_handle (task : HandlerTask C) :
    Posts (handle task).role.bound (handle task).program := by
  cases task with
  | unload => exact always_silent posts_unloadTask
  | dataMigration callback request =>
    exact always_silent (admits_migrating.migrationTask callback request)
  | cleanupAllScopeFontsOnBoot => exact always_silent (always_font admits_cleaning.font _)
  | cleanupUserScopeFonts userId => exact always_silent (always_font admits_cleaning.font _)
  | cleanupAppScopeFontsOnStart => exact always_silent (always_font admits_cleaning.font _)

theorem rank_handle (task : HandlerTask C) : (handle task).role.rank < task.rank := by
  cases task <;> simp [handle, Role.rank, HandlerTask.rank]

end programs

def Bounded (s : Server C) : Prop := ∀ t ∈ s.threads, Posts t.role.bound t.program

section step

variable {s u : Server C} {e : ServerEvent C} {t t' : ServerThread C} {i : Nat}

theorem Bounded.spawn {p : Process C} (h : Bounded s) (ht : Posts t.role.bound t.program) :
    Bounded ({ s with process := p }.spawn t) := by
  intro t' ht'
  rcases Server.mem_spawn ht' with ht' | rfl
  · exact h t' ht'
  · exact ht

theorem Bounded.advance {p : Process C} {called : List Mark} (h : Bounded s)
    (ht : Posts t.role.bound t.program) : Bounded (s.advance i p t called) := by
  intro t' ht'
  rcases Server.mem_advance ht' with ht' | rfl
  · exact h t' ht'
  · exact ht

theorem bounded_step (h : Bounded s) (hstep : ServerStep s e u) : Bounded u := by
  cases hstep with
  | call c => exact h.spawn (posts_body _ c)
  | clientDied tokenId =>
    exact h.spawn (always_reply ((admits_posts Nat.one_lt_two).eraseAndNotify tokenId))
  | userStopping userId => exact h
  | dispatch => exact h.spawn (posts_handle _)
  | arrive ht =>
    have hposts := h _ (List.mem_of_getElem? ht)
    exact h.advance hposts
  | count ht =>
    have hposts := h _ (List.mem_of_getElem? ht)
    exact h.advance hposts
  | uncount ht =>
    apply h.advance
    exact always_bind ((admits_posts Nat.one_lt_two).leave _) fun _ => always_pure _
  | endMigration ht =>
    apply h.advance
    exact always_silent (admits_posts Nat.one_lt_two).addUnloadFontServiceTask
  | op hrole ht henabled =>
    have hposts := h _ (List.mem_of_getElem? ht)
    exact h.advance (hposts.2 _ trivial)
  | beat => exact h

theorem bounded_start (reason : StartReason) (w : World) :
    Bounded (Server.onStart (C := C) reason w) := by
  intro t ht
  cases ht

end step

abbrev Agent (C : Type) := Nat × ProcessTask C Int

def Below : Agent C → Agent C → Prop := Prod.Lex (· < ·) Child

theorem wellFounded_below : WellFounded (Below (C := C)) :=
  WellFounded.prod_lex Nat.lt_wfRel.wf wellFounded_child

def thread (t : ServerThread C) : Agent C := (t.role.rank, t.program)

def queued (task : HandlerTask C) : Agent C := (task.rank, .done 0)

def agents (s : Server C) : Multiset (Agent C) :=
  (s.threads.map thread : List (Agent C)) + (s.process.pending.map queued : List (Agent C))

def Fewer : Multiset (Agent C) → Multiset (Agent C) → Prop := TransGen (CutExpand Below)

theorem wellFounded_fewer : WellFounded (Fewer (C := C)) := wellFounded_below.cutExpand.transGen

section decrease

variable {s u : Server C} {e : ServerEvent C} {i : Nat} {t t' : ServerThread C}

theorem agents_advance {p : Process C} {called : List Mark} (posted : List (HandlerTask C))
    (hi : s.threads[i]? = some t) (hbelow : Below (thread t') (thread t))
    (hposted : ∀ task ∈ posted, task.rank < t.role.rank)
    (hpending : p.pending.Sublist (s.process.pending ++ posted)) :
    Fewer (agents (s.advance i p t' called)) (agents s) := by
  have hset := map_set_add thread t' hi
  have hle : ((p.pending.map queued : List (Agent C)) : Multiset (Agent C)) ≤
      (s.process.pending.map queued : List (Agent C)) + (posted.map queued : List (Agent C)) := by
    rw [Multiset.coe_add, ← List.map_append]
    exact Multiset.coe_le.mpr (hpending.map queued).subperm
  apply transGen_of_le (add_le_add le_rfl hle)
  refine ⟨thread t' ::ₘ (posted.map queued : List (Agent C)), thread t, ?_, ?_⟩
  · intro a ha
    rcases Multiset.mem_cons.mp ha with rfl | ha
    · exact hbelow
    · obtain ⟨task, htask, rfl⟩ := List.mem_map.mp (Multiset.mem_coe.mp ha)
      exact Prod.Lex.left _ _ (hposted task htask)
  · rw [add_right_comm]
    change (((s.threads.set i t').map thread : List (Agent C)) : Multiset (Agent C)) + {thread t} +
      _ = _
    rw [hset, ← Multiset.singleton_add, agents]
    abel

theorem agents_dispatch {task : HandlerTask C} (htask : s.process.pending[i]? = some task) :
    Fewer (agents ({ s with process := { s.process with
      pending := s.process.pending.eraseIdx i } }.spawn (handle task))) (agents s) := by
  have herase := map_eraseIdx_add queued htask
  apply TransGen.single
  refine ⟨{thread (handle task)}, queued task, ?_, ?_⟩
  · intro a ha
    obtain rfl := Multiset.mem_singleton.mp ha
    exact Prod.Lex.left _ _ (rank_handle task)
  · rw [agents, agents, ← herase, Server.spawn, List.map_append, ← Multiset.coe_add]
    simp only [List.map_cons, List.map_nil, Multiset.coe_singleton]
    abel

theorem pending_exec (p : Process C) (o : ProcessOp C) (io : Io) :
    ∃ posted : List (HandlerTask C), (∀ task ∈ posted, o = .postTask task) ∧
      (p.exec o io).2.pending.Sublist (p.pending ++ posted) := by
  cases o with
  | postTask task =>
    refine ⟨[task], by simp, ?_⟩
    simp only [Process.exec]
    split
    · exact List.Sublist.refl _
    · exact List.sublist_append_left _ _
  | removeUnloadTask =>
    refine ⟨[], by simp, ?_⟩
    rw [List.append_nil]
    exact List.filter_sublist
  | _ =>
    refine ⟨[], by simp, ?_⟩
    rw [List.append_nil]
    exact List.Sublist.refl _

theorem agents_exec {role role' : Role C} {p p' : ProcessTask C Int} {o : ProcessOp C} {io : Io}
    {called : List Mark} (hi : s.threads[i]? = some ⟨role, p⟩)
    (hbelow : Below (thread ⟨role', p'⟩) (thread ⟨role, p⟩))
    (hposts : ∀ task, o = .postTask task → task.rank < role.rank) :
    Fewer (agents (s.advance i (s.process.exec o io).2 ⟨role', p'⟩ called)) (agents s) := by
  obtain ⟨posted, hposted, hpending⟩ := pending_exec s.process o io
  exact agents_advance posted hi hbelow (fun task htask => hposts task (hposted task htask)) hpending

theorem agents_step (h : Bounded s) (hstep : ServerStep s e u) (he : e.arrives = false) :
    agents u = agents s ∧ (∃ i, e = .heartBeat i) ∨ Fewer (agents u) (agents s) := by
  cases hstep with
  | call c => cases he
  | clientDied tokenId => cases he
  | userStopping userId => cases he
  | dispatch hidle htask => exact Or.inr (agents_dispatch htask)
  | arrive ht =>
    apply Or.inr
    apply agents_exec ht (Prod.Lex.left _ _ (by simp [Role.rank]))
    simp
  | count ht =>
    apply Or.inr
    apply agents_advance [] ht (Prod.Lex.left _ _ (by simp [Role.rank]))
    · simp
    · simp
  | uncount ht =>
    apply Or.inr
    apply agents_advance [] ht (Prod.Lex.left _ _ (by simp [Role.rank]))
    · simp
    · simp
  | endMigration ht =>
    apply Or.inr
    apply agents_exec ht (Prod.Lex.left _ _ (by simp [Role.rank]))
    simp
  | @op i io role o k hrole ht henabled =>
    have hposts := h _ (List.mem_of_getElem? ht)
    apply Or.inr
    have hbelow : Below (thread ⟨role, k (s.process.exec o io).1⟩) (thread ⟨role, .call o k⟩) :=
      Prod.Lex.right _ (Child.answer (P := processSig C) o k _)
    apply agents_exec ht hbelow
    rintro task rfl
    exact lt_of_lt_of_le hposts.1 role.bound_le_rank
  | beat => exact Or.inl ⟨rfl, _, rfl⟩

end decrease

end Ranks
