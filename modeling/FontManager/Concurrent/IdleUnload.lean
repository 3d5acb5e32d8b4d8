import FontManager.Concurrent.Admits
import FontManager.Concurrent.ServerStep
import FontManager.Store.Effects

open FontManagerUtils Interaction Program DataMigrationManager FontManagerServer

namespace IdleUnload

variable {C : Type}

def destroys : ProcessOp C → Bool
  | .font (.file (.removeAll _)) => true
  | .removeEmpty _ => true
  | .unloadFontService => true
  | _ => false

-- An unload task that has read callingCount_ as 0 and has not ended.
def pastCheck (t : ServerThread C) : Bool :=
  match t.role, t.program with
  | .unloading, .call .callingCount _ => false
  | .unloading, .call _ _ => true
  | _, _ => false

def counts (s : Server C) : ServerEvent C → Bool
  | .act i _ =>
    match s.threads[i]? with
    | some ⟨.counting _, _⟩ => true
    | _ => false
  | _ => false

def undisturbed (s : Server C) (e : ServerEvent C) : Prop :=
  counts s e = true → ∀ t ∈ s.threads, pastCheck t = false

def Quits : ProcessTask C Int → Prop
  | .call .callingCount k => ∀ n : Nat, n ≠ 0 → (k n).finished = true
  | _ => True

section quits

def Unread : ProcessOp C → Prop
  | .callingCount => False
  | _ => True

theorem quits_of_unread (o : ProcessOp C) (k : o.Reply → ProcessTask C Int) (h : Unread o) :
    Quits (.call o k) := by
  cases o <;> first | exact h.elim | trivial

theorem quits_bind {α : Type} {p : ProcessTask C α} {f : α → ProcessTask C Int}
    (hp : always (fun _ _ => True) Unread p) (hf : ∀ a, everywhere Quits (f a)) :
    everywhere Quits (p >>= f) := everywhere_bind_always hp quits_of_unread hf

theorem admits_unread : AdmitsCleanup (Unread (C := C)) where
  font _ := trivial
  isEmpty _ := trivial
  removeEmpty _ := trivial

theorem quits_unloadTask : everywhere Quits (silent (C := C) unloadTask) := by
  unfold silent unloadTask
  rw [Program.bind_assoc]
  refine everywhere_perform_bind (fun n hn => ?_) fun (n : Nat) => ?_
  · rw [if_pos hn]
    rfl
  · split
    · exact trivial
    · refine quits_bind (always_perform_bind trivial fun migrating _ => ?_) fun _ => trivial
      cases migrating with
      | true => exact always_pure _
      | false =>
        refine always_bind (always_font admits_unread.font _) fun clientCount => ?_
        split
        · exact always_pure _
        · refine always_bind (always_font admits_unread.font _) fun _ => ?_
          refine always_bind (always_font admits_unread.font _) fun _ => ?_
          refine always_bind (always_font admits_unread.font _) fun _ => ?_
          exact always_bind (admits_unread.cleanupScopeFontDirs _) fun _ => always_perform trivial

end quits

structure Watched (n : Nat) (t : ServerThread C) : Prop where
  quits : t.role = .unloading → everywhere Quits t.program
  past : pastCheck t = true → n = 0

def Guarded (s : Server C) : Prop :=
  s.Counted ∧ ∀ t ∈ s.threads, Watched s.process.callingCount t

section step

variable {s u : Server C} {e : ServerEvent C} {n : Nat}

theorem pastCheck_of_role {t : ServerThread C} (h : t.role ≠ .unloading) : pastCheck t = false := by
  obtain ⟨role, p⟩ := t
  cases role <;> first | rfl | exact absurd rfl h

theorem watched_of_role {t : ServerThread C} (h : t.role ≠ .unloading) : Watched n t :=
  ⟨fun hr => absurd hr h, fun hp => by simp [pastCheck_of_role h] at hp⟩

theorem watched_handle (task : HandlerTask C) : Watched n (handle task) := by
  cases task with
  | unload => exact ⟨fun _ => quits_unloadTask, fun h => by cases h⟩
  | _ => exact watched_of_role (by simp [handle])

theorem watched_op {role : Role C} {o : ProcessOp C} {k : o.Reply → ProcessTask C Int}
    {p : Process C} {io : Io} (h : Watched p.callingCount ⟨role, .call o k⟩) :
    Watched p.callingCount ⟨role, k (p.exec o io).1⟩ := by
  by_cases hrole : role = .unloading
  · subst hrole
    have hquits := h.quits rfl
    refine ⟨fun _ => hquits.2 _, fun hpast => ?_⟩
    by_cases ho : o = .callingCount
    · subst ho
      by_contra hn
      have hdone : (k p.callingCount).finished = true := everywhere_here hquits _ hn
      obtain ⟨a, ha⟩ := eq_done_of_finished hdone
      change pastCheck ⟨.unloading, k p.callingCount⟩ = true at hpast
      simp [ha, pastCheck] at hpast
    · refine h.past ?_
      cases o <;> first | rfl | exact absurd rfl ho
  · exact watched_of_role hrole

theorem Watched.mono {m : Nat} {t : ServerThread C} (h : Watched n t)
    (hm : pastCheck t = true → n = 0 → m = 0) : Watched m t :=
  ⟨h.quits, fun hp => hm hp (h.past hp)⟩

theorem guarded_step (hs : Guarded s) (he : undisturbed s e) (h : ServerStep s e u) : Guarded u := by
  obtain ⟨hcounted, hwatched⟩ := hs
  refine ⟨Server.counted_step hcounted h, fun t ht => ?_⟩
  cases h with
  | call c =>
    rcases Server.mem_spawn ht with ht | rfl
    · exact hwatched t ht
    · exact watched_of_role (by simp)
  | clientDied tokenId =>
    rcases Server.mem_spawn ht with ht | rfl
    · exact hwatched t ht
    · exact watched_of_role (by simp)
  | userStopping userId => exact hwatched t ht
  | dispatch =>
    rcases Server.mem_spawn ht with ht | rfl
    · exact hwatched t ht
    · exact watched_handle _
  | arrive =>
    rcases Server.mem_advance ht with ht | rfl
    · exact hwatched t ht
    · exact watched_of_role (by simp)
  | count hi =>
    rcases Server.mem_advance ht with ht | rfl
    · refine (hwatched t ht).mono fun hp => ?_
      simp [he (by simp [counts, hi]) t ht] at hp
    · exact watched_of_role (by simp)
  | uncount =>
    rcases Server.mem_advance ht with ht | rfl
    · refine (hwatched t ht).mono fun _ hzero => ?_
      simp [Server.advance, hzero]
    · exact watched_of_role (by simp)
  | endMigration =>
    rcases Server.mem_advance ht with ht | rfl
    · exact hwatched t ht
    · exact watched_of_role (by simp)
  | op hrole hi henabled =>
    simp only [Server.advance, Server.exec_callingCount]
    rcases Server.mem_advance ht with ht | rfl
    · exact hwatched t ht
    · exact watched_op (hwatched _ (List.mem_of_getElem? hi))
  | beat => exact hwatched t ht

theorem guarded_start (reason : StartReason) (w : World) : Guarded (Server.onStart (C := C) reason w) :=
  ⟨rfl, by simp [Server.onStart]⟩

end step

theorem unload_spares_calls {reason : StartReason} {w : World} {es : List (ServerEvent C)}
    {s : Server C} {i : Nat} {o : ProcessOp C} {k : o.Reply → ProcessTask C Int}
    (h : Server.machine.Run undisturbed (Server.onStart reason w) es s)
    (ht : s.threads[i]? = some ⟨.unloading, .call o k⟩) (ho : destroys o = true) :
    ∀ t ∈ s.threads, t.inCall = false := by
  have hs : Guarded s := h.invariant
    (fun _ _ _ hs he hn => guarded_step hs he (Server.next_cases hn)) (guarded_start reason w)
  have hpast : pastCheck (⟨.unloading, .call o k⟩ : ServerThread C) = true := by
    cases o <;> first | rfl | cases ho
  have hzero := (hs.2 _ (List.mem_of_getElem? ht)).past hpast
  rw [hs.1, List.countP_eq_zero] at hzero
  exact fun t ht => by simpa using hzero t ht

section disturbed

def install : ServerCall Unit :=
  .installFont Sample.app (Sample.noon 0) (Sample.sourceFont "A".toList 1)

def step (i : Nat) : ServerEvent Unit := .act i {}

-- The unload task reads callingCount_ as 0, the call then enters, the task goes on to the temp
-- directory.
def schedule : List (ServerEvent Unit) :=
  [.dispatch 1, step 0, .call install, step 1, step 1, step 0, step 0, step 0, step 0, step 0]

def deleting (t : ServerThread C) : Bool :=
  match t with
  | ⟨.unloading, .call o _⟩ => destroys o
  | _ => false

theorem eq_of_deleting {t : ServerThread C} (h : deleting t = true) :
    ∃ o k, t = ⟨.unloading, .call o k⟩ ∧ destroys o = true := by
  unfold deleting at h
  split at h
  · exact ⟨_, _, rfl, h⟩
  · cases h

def deletesInCall (s : Server Unit) : Bool :=
  s.threads[0]?.any deleting && s.threads.any (·.inCall)

theorem unload_hits_call :
    ¬ ∀ (reason : StartReason) (w : World) (es : List (ServerEvent Unit)) (s : Server Unit) (i : Nat)
      (o : ProcessOp Unit) (k : o.Reply → ProcessTask Unit Int),
      Server.machine.Run (fun _ _ => True) (Server.onStart reason w) es s →
      s.threads[i]? = some ⟨.unloading, .call o k⟩ → destroys o = true →
      ∀ t ∈ s.threads, t.inCall = false := by
  intro h
  obtain ⟨s, hrun, hs⟩ := Machine.exists_run_of_replay (m := Server.machine) (fun _ _ => true)
    deletesInCall (Server.onStart .other (.provisioned [100])) schedule (by decide)
  obtain ⟨hdestroys, hcall⟩ := Bool.and_eq_true_iff.mp hs
  obtain ⟨t, ht, hin⟩ := List.any_eq_true.mp hcall
  obtain ⟨t', hthread, hdeleting⟩ := (Option.any_eq_true ..).mp hdestroys
  obtain ⟨o, k, rfl, ho⟩ := eq_of_deleting hdeleting
  have hclear := h .other (.provisioned [100]) schedule s 0 o k (hrun.mono fun _ _ _ => trivial)
    hthread ho t ht
  simp [hin] at hclear

def undisturbedNow (s : Server Unit) (e : ServerEvent Unit) : Bool :=
  !counts s e || s.threads.all fun t => !pastCheck t

-- A call comes and leaves between the start of the unload task and its reading of callingCount_.
def served : List (ServerEvent Unit) :=
  .dispatch 1 :: .call (.uninstallFont Sample.app "A".toList) ::
    (List.replicate 9 (step 1) ++ List.replicate 6 (step 0))

theorem idle_unload_spares :
    ∃ s : Server Unit,
      Server.machine.Run undisturbed (Server.onStart .other (.provisioned [100])) served s ∧
      s.threads[0]?.any deleting = true ∧ ∀ t ∈ s.threads, t.inCall = false := by
  obtain ⟨s, hrun, hs⟩ := Machine.exists_run_of_replay (m := Server.machine) undisturbedNow
    (fun s => s.threads[0]?.any deleting) (Server.onStart .other (.provisioned [100])) served
    (by decide)
  have hrun' : Server.machine.Run undisturbed (Server.onStart .other (.provisioned [100]))
      served s := hrun.mono fun s e he hcounts t ht => by
    simp only [undisturbedNow, hcounts, Bool.not_true, Bool.false_or, List.all_eq_true] at he
    simpa using he t ht
  obtain ⟨t, hthread, hdeleting⟩ := (Option.any_eq_true ..).mp hs
  obtain ⟨o, k, rfl, ho⟩ := eq_of_deleting hdeleting
  exact ⟨s, hrun', hs, unload_spares_calls hrun' hthread ho⟩

end disturbed

end IdleUnload
