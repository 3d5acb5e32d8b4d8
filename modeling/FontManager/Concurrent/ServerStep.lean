import FontManager.Source.Lifecycle

open Interaction FontManagerServer

namespace Role

variable {C : Type}

def enters : Role C → Bool
  | .arriving _ => true
  | .counting _ => true
  | _ => false

end Role

inductive ServerStep {C : Type} (s : Server C) : ServerEvent C → Server C → Prop
  | call (call : ServerCall C) :
    ServerStep s (.call call) (s.spawn ⟨.arriving call, body s.threads.length call⟩)
  | clientDied (tokenId : Int) :
    ServerStep s (.clientDied tokenId) (s.spawn ⟨.clientDied tokenId, reply (eraseAndNotify tokenId)⟩)
  | userStopping (userId : Int) :
    ServerStep s (.userStopping userId) { s with process :=
      { s.process with pending := s.process.pending ++ [.cleanupUserScopeFonts userId] } }
  | dispatch {i : Nat} {task : HandlerTask C} (hidle : s.handlerIdle = true)
      (htask : s.process.pending[i]? = some task) :
    ServerStep s (.dispatch i)
      ({ s with process := { s.process with pending := s.process.pending.eraseIdx i } }.spawn
        (handle task))
  | arrive {i : Nat} {io : Io} {call : ServerCall C} {p : ProcessTask C Int}
      (ht : s.threads[i]? = some ⟨.arriving call, p⟩) :
    ServerStep s (.act i io)
      (s.advance i (s.process.exec .removeUnloadTask io).2 ⟨.counting call, p⟩ [])
  | count {i : Nat} {io : Io} {call : ServerCall C} {p : ProcessTask C Int}
      (ht : s.threads[i]? = some ⟨.counting call, p⟩) :
    ServerStep s (.act i io)
      (s.advance i { s.process with callingCount := s.process.callingCount + 1 }
        ⟨.serving call, p⟩ [])
  | uncount {i : Nat} {io : Io} {call : ServerCall C} {code : Int}
      (ht : s.threads[i]? = some ⟨.serving call, .done code⟩) :
    ServerStep s (.act i io)
      (s.advance i { s.process with callingCount := s.process.callingCount - 1 }
        ⟨.leaving call, do
          leave (checkClientCount call)
          pure code⟩ [])
  | endMigration {i : Nat} {io : Io} {callback : C} {request : Nat} {code : Int}
      (ht : s.threads[i]? = some ⟨.migrating callback request, .done code⟩) :
    ServerStep s (.act i io)
      (s.advance i (s.process.exec .clearDataMigrationing io).2
        ⟨.migrated callback request, silent addUnloadFontServiceTask⟩ [])
  | op {i : Nat} {io : Io} {role : Role C} {o : ProcessOp C}
      {k : o.Reply → ProcessTask C Int} (hrole : role.enters = false)
      (ht : s.threads[i]? = some ⟨role, .call o k⟩) (henabled : Server.enabled s.process o = true) :
    ServerStep s (.act i io)
      (s.advance i (s.process.exec o io).2 ⟨role, k (s.process.exec o io).1⟩
        (Server.calledUnload o))
  | beat {i : Nat} {h h' : HeartBeat C} {sent : List (Delivery C)}
      (hi : s.process.heartBeats[i]? = some h) (hh : h.next s.process = some (h', sent)) :
    ServerStep s (.heartBeat i) { s with process := { s.process with
      heartBeats := s.process.heartBeats.set i h'
      delivered := s.process.delivered ++ sent } }

namespace Server

variable {C : Type} {s u : Server C} {e : ServerEvent C}

theorem act_cases {i : Nat} {io : Io} {t : ServerThread C} (ht : s.threads[i]? = some t)
    (h : s.act i io t = some u) : ServerStep s (.act i io) u := by
  obtain ⟨role, p⟩ := t
  cases role with
  | arriving call =>
    obtain rfl := Option.some.inj h
    exact .arrive ht
  | counting call =>
    obtain rfl := Option.some.inj h
    exact .count ht
  | _ =>
    cases p with
    | call o k =>
      simp only [act] at h
      split at h
      · rename_i henabled
        obtain rfl := Option.some.inj h
        exact .op rfl ht henabled
      · cases h
    | done code =>
      first
      | cases h
        exact .uncount ht
      | cases h
        exact .endMigration ht
      | cases h

theorem next_cases (h : next s e = some u) : ServerStep s e u := by
  cases e with
  | call c =>
    obtain rfl := Option.some.inj h
    exact .call c
  | clientDied t =>
    obtain rfl := Option.some.inj h
    exact .clientDied t
  | userStopping userId =>
    obtain rfl := Option.some.inj h
    exact .userStopping userId
  | dispatch i =>
    simp only [next] at h
    split at h
    · rename_i hidle
      obtain ⟨task, htask, rfl⟩ := Option.map_eq_some_iff.mp h
      exact .dispatch hidle htask
    · cases h
  | act i io =>
    obtain ⟨t, ht, hu⟩ := Option.bind_eq_some_iff.mp h
    exact act_cases ht hu
  | heartBeat i =>
    simp only [next, beat, Option.bind_eq_bind, Option.bind_eq_some_iff, Option.some.injEq] at h
    obtain ⟨hb, hi, ⟨h', sent⟩, hh, rfl⟩ := h
    exact .beat hi hh

theorem countP_set_thread {i : Nat} {t : ServerThread C} (p : ServerThread C → Bool)
    (ht : s.threads[i]? = some t) (t' : ServerThread C) :
    (s.threads.set i t').countP p + (if p t = true then 1 else 0) =
      s.threads.countP p + if p t' = true then 1 else 0 := by
  obtain ⟨hi, rfl⟩ := List.getElem?_eq_some_iff.mp ht
  have hpos : (if p s.threads[i] = true then 1 else 0) ≤ s.threads.countP p := by
    split
    · rename_i hp
      exact List.countP_pos_iff.mpr ⟨_, List.getElem_mem hi, hp⟩
    · exact Nat.zero_le _
  rw [List.countP_set hi]
  omega

theorem mem_advance {i : Nat} {t t' : ServerThread C} {process : Process C} {called : List Mark}
    (h : t ∈ (s.advance i process t' called).threads) : t ∈ s.threads ∨ t = t' :=
  List.mem_or_eq_of_mem_set h

theorem mem_advance_self {i : Nat} {t t' : ServerThread C} {process : Process C} {called : List Mark}
    (ht : s.threads[i]? = some t) : t' ∈ (s.advance i process t' called).threads :=
  List.mem_set (List.getElem?_eq_some_iff.mp ht).1 _

theorem mem_advance_of_mem {i : Nat} {t t' t'' : ServerThread C} {process : Process C}
    {called : List Mark} (ht : s.threads[i]? = some t) (h : t'' ∈ s.threads) :
    t'' = t ∨ t'' ∈ (s.advance i process t' called).threads := by
  obtain ⟨j, hj⟩ := List.mem_iff_getElem?.mp h
  by_cases hij : i = j
  · subst hij
    exact Or.inl (Option.some.inj (hj.symm.trans ht))
  · refine Or.inr (List.mem_iff_getElem?.mpr ⟨j, ?_⟩)
    rw [advance, List.getElem?_set_ne hij, hj]

theorem mem_spawn {t t' : ServerThread C} (h : t ∈ (s.spawn t').threads) : t ∈ s.threads ∨ t = t' := by
  simpa [spawn] using h

theorem getElem?_advance {i j : Nat} {t t' t'' : ServerThread C} {process : Process C}
    {called : List Mark} (ht : s.threads[i]? = some t)
    (h : (s.advance i process t' called).threads[j]? = some t'') :
    j ≠ i ∧ s.threads[j]? = some t'' ∨ j = i ∧ t'' = t' := by
  by_cases hij : i = j
  · subst hij
    rw [advance, List.getElem?_set_self (List.getElem?_eq_some_iff.mp ht).1] at h
    exact Or.inr ⟨rfl, (Option.some.inj h).symm⟩
  · rw [advance, List.getElem?_set_ne hij] at h
    exact Or.inl ⟨Ne.symm hij, h⟩

theorem getElem?_spawn {j : Nat} {t t' : ServerThread C} (h : (s.spawn t).threads[j]? = some t') :
    s.threads[j]? = some t' ∨ j = s.threads.length ∧ t' = t := by
  rcases Nat.lt_or_ge j s.threads.length with hj | hj
  · rw [spawn, List.getElem?_append_left hj] at h
    exact Or.inl h
  · rw [spawn, List.getElem?_append_right hj, List.getElem?_singleton] at h
    split at h
    · exact Or.inr ⟨by omega, (Option.some.inj h).symm⟩
    · cases h

theorem exec_callingCount (s : Process C) (o : ProcessOp C) (io : Io) :
    (s.exec o io).2.callingCount = s.callingCount := by
  cases o with
  | postTask task =>
    simp only [Process.exec]
    split <;> rfl
  | _ => rfl

def Counted (s : Server C) : Prop := s.process.callingCount = s.threads.countP (·.inCall)

theorem handle_not_inCall (task : HandlerTask C) : (handle task).inCall = false := by
  cases task <;> rfl

theorem counted_advance {i : Nat} {t t' : ServerThread C} {process : Process C} {called : List Mark}
    (hs : s.Counted) (ht : s.threads[i]? = some t)
    (hcount : process.callingCount + (if t.inCall = true then 1 else 0) =
      s.process.callingCount + if t'.inCall = true then 1 else 0) :
    (s.advance i process t' called).Counted := by
  have hset := countP_set_thread (·.inCall) ht t'
  unfold Counted advance at *
  dsimp only
  omega

theorem counted_step (hs : s.Counted) (h : ServerStep s e u) : u.Counted := by
  cases h with
  | call c => simpa [Counted, spawn, ServerThread.inCall] using hs
  | clientDied tokenId => simpa [Counted, spawn, ServerThread.inCall] using hs
  | userStopping userId => exact hs
  | dispatch => simpa [Counted, spawn, handle_not_inCall] using hs
  | arrive ht => exact counted_advance hs ht (exec_callingCount ..)
  | count ht => exact counted_advance hs ht rfl
  | uncount ht =>
    refine counted_advance hs ht ?_
    have hpos : 0 < s.threads.countP (·.inCall) :=
      List.countP_pos_iff.mpr ⟨_, List.mem_of_getElem? ht, rfl⟩
    rw [Counted] at hs
    simp only [ServerThread.inCall, if_true, Bool.false_eq_true, if_false]
    omega
  | endMigration ht => exact counted_advance hs ht rfl
  | @op _ _ role o _ hrole ht henabled =>
    refine counted_advance hs ht ?_
    rw [exec_callingCount]
    rfl
  | beat hi hh => exact hs

end Server

namespace Sample

def app : Caller where
  updateFont := true
  updateScopeFont := true
  tokenId := 5
  userId := 100
  bundleName := "bundle".toList

def steps {C : Type} (i n : Nat) : List (ServerEvent C) := List.replicate n (.act i {})

end Sample
