import FontManager.Concurrent.Permits
import FontManager.Concurrent.ServerStep

open FontDefine FontManagerUtils Interaction DataMigrationManager FontManagerServer
open Program hiding perform

namespace WakeUp

variable {C : Type}

def Idle (p : Process C) : Prop :=
  p.callingCount = 0 ∧ p.isDataMigrationing = false ∧ p.world.registry.clients = []

def operating (t : ServerThread C) : Bool :=
  match t.role with
  | .cleaning => false
  | _ => !t.finished

def postSucceeds (s : Server C) : ServerEvent C → Bool
  | .act i io =>
    match s.threads[i]? with
    | some ⟨_, .call (.postTask _) _⟩ => io.ok
    | _ => true
  | _ => true

-- The marks are read from the latest one back to the last end that counts.
def calledSince (counts : Bool → Bool) : List Mark → Bool
  | [] => false
  | .unloadFontService :: _ => true
  | .ended found :: rest => if counts found then false else calledSince counts rest

def idleReply : (o : ProcessOp C) → o.Reply → Prop
  | .callingCount, n => n = 0
  | .isDataMigrationing, migrating => migrating = false
  | .font (.registry .getClientCount), n => n = 0
  | _, _ => True

def wakes : ProcessOp C → Prop
  | .postTask .unload => True
  | .unloadFontService => True
  | _ => False

abbrev Wakes {α : Type} (p : ProcessTask C α) : Prop :=
  eventually (P := processSig C) idleReply wakes p

def Erasing : ProcessTask C Int → Prop
  | .call (.font (.registry (.eraseClient _))) k =>
    k none = .done FontErrorCode.scopeFontNotRegistered.value ∧
      ∀ client, Wakes (k (some client))
  | _ => False

def Persists {α : Type} (p : ProcessTask C α) : Prop := p.finished = true ∨ Wakes p

def tidy : ProcessOp C → Prop
  | .font o => outside o
  | _ => False

def Attends (t : ServerThread C) : Prop :=
  match t.role with
  | .arriving _ => True
  | .counting _ => True
  | .serving _ => True
  | .migrating _ _ => True
  | .cleaning => False
  | _ => Wakes t.program

def Kept (t : ServerThread C) : Prop :=
  match t.role with
  | .leaving _ => everywhere Persists t.program
  | .migrated _ _ => everywhere Persists t.program
  | .unloading => everywhere Persists t.program
  | .clientDied _ => everywhere (fun p => Persists p ∨ Erasing p) t.program
  | .cleaning => always (P := processSig C) (fun _ _ => True) tidy t.program
  | _ => True

section programs

variable {α β : Type}

structure Watches (p : ProcessTask C α) : Prop where
  wakes : Wakes p
  persists : everywhere Persists p

theorem persists_done (a : α) : everywhere Persists (.done a : ProcessTask C α) := Or.inl rfl

theorem persists_bind {p : ProcessTask C α} {f : α → ProcessTask C β} (hp : everywhere Persists p)
    (hf : ∀ a, (f a).finished = true) : everywhere Persists (p >>= f) := by
  induction p with
  | done a =>
    obtain ⟨b, hb⟩ := eq_done_of_finished (hf a)
    rw [done_bind, hb]
    exact persists_done b
  | call o k ih =>
    have hwakes : Wakes (.call o k) := hp.1.resolve_left (by simp [finished])
    exact ⟨Or.inr (eventually_bind_left hwakes), fun r => ih r (hp.2 r)⟩

theorem Watches.bind {p : ProcessTask C α} {f : α → ProcessTask C β} (hp : Watches p)
    (hf : ∀ a, (f a).finished = true) : Watches (p >>= f) :=
  ⟨eventually_bind_left hp.wakes, persists_bind hp.persists hf⟩

theorem watches_bind_right {p : ProcessTask C α} {f : α → ProcessTask C β}
    (hf : ∀ a, Watches (f a)) : Watches (p >>= f) where
  wakes := eventually_bind_right fun a => (hf a).wakes
  persists := everywhere_bind (fun _ => Or.inr (eventually_bind_right fun a => (hf a).wakes))
    fun a => (hf a).persists

theorem watches_perform_bind {o : ProcessOp C} {f : o.Reply → ProcessTask C α}
    (hwakes : ∀ r, idleReply o r → Wakes (f r)) (hf : ∀ r, everywhere Persists (f r)) :
    Watches (perform o >>= f) where
  wakes := eventually_perform_bind hwakes
  persists := everywhere_perform_bind (Or.inr (eventually_perform_bind hwakes)) hf

theorem watches_if {o : ProcessOp C} {good : o.Reply → Prop} [DecidablePred good]
    {p : ProcessTask C Unit} (hgood : ∀ r, idleReply o r → good r) (hp : Watches p) :
    Watches (perform o >>= fun r => if good r then p else pure ()) := by
  refine watches_perform_bind (fun r hr => ?_) fun r => ?_
  · rw [if_pos (hgood r hr)]
    exact hp.wakes
  · split
    · exact hp.persists
    · exact persists_done ()

theorem watches_unless {o : ProcessOp C} {bad : o.Reply → Prop} [DecidablePred bad]
    {p : ProcessTask C Unit} (hbad : ∀ r, idleReply o r → ¬ bad r) (hp : Watches p) :
    Watches (perform o >>= fun r => if bad r then pure () else p) := by
  refine watches_perform_bind (fun r hr => ?_) fun r => ?_
  · rw [if_neg (hbad r hr)]
    exact hp.wakes
  · split
    · exact persists_done ()
    · exact hp.persists

theorem watches_unlessMigrating {p : ProcessTask C Unit} (hp : Watches p) :
    Watches (do
      let isDataMigrationing : Bool ← perform .isDataMigrationing
      if isDataMigrationing then pure () else p) := by
  refine watches_unless ?_ hp
  intro migrating (hm : migrating = false)
  simp [hm]

theorem watches_unlessClients {p : ProcessTask C Unit} (hp : Watches p) :
    Watches (do
      let clientCount ← getClientCount
      if clientCount > 0 then pure () else p) := by
  refine watches_unless (o := .font (.registry .getClientCount)) ?_ hp
  intro clientCount (hn : clientCount = 0)
  simp [hn]

theorem watches_ifNoClients {p : ProcessTask C Unit} (hp : Watches p) :
    Watches (do
      let clientCount ← getClientCount
      if clientCount = 0 then p else pure ()) := by
  refine watches_if (o := .font (.registry .getClientCount)) ?_ hp
  exact fun _ hn => hn

theorem watches_addUnload : Watches (C := C) addUnloadFontServiceTask := by
  have posting : Watches (C := C) (do let _ : Bool ← perform (.postTask .unload)) :=
    ⟨Or.inl trivial, Or.inr (Or.inl trivial), fun _ => persists_done ()⟩
  refine watches_unless ?_ (watches_unlessMigrating (watches_unlessClients posting))
  intro callingCount (hn : callingCount = 0)
  simp [hn]

theorem watches_unloadTask : Watches (C := C) unloadTask := by
  refine watches_unless ?_ (watches_unlessMigrating (watches_unlessClients ?_))
  · intro callingCount (hn : callingCount = 0)
    simp [hn]
  · refine watches_bind_right fun tempUserIds => watches_bind_right fun _ => ?_
    refine watches_bind_right fun dirUserIds => watches_bind_right fun _ => ?_
    exact ⟨Or.inl trivial, Or.inr (Or.inl trivial), fun _ => persists_done ()⟩

theorem watches_clientDiedCallback : Watches (C := C) clientDiedCallback := by
  refine watches_if ?_ (watches_unlessMigrating (watches_ifNoClients watches_addUnload))
  exact fun _ hn => hn

theorem watches_leave (checkClientCount : Bool) : Watches (C := C) (leave checkClientCount) := by
  refine watches_if (p := if checkClientCount then _ else _) ?_ ?_
  · exact fun _ hn => hn
  · cases checkClientCount with
    | true => exact watches_ifNoClients watches_addUnload
    | false => exact watches_addUnload

theorem erasing_clientDied (tokenId : Int) :
    everywhere (fun p => Persists p ∨ Erasing p) (reply (C := C) (eraseAndNotify tokenId)) := by
  have watched (client : Str × Int) : Watches (C := C) (reply (do
      font (FontClientRegistry.cleanup client)
      clientDiedCallback
      pure .ok)) :=
    (watches_bind_right fun _ => watches_clientDiedCallback.bind fun _ => rfl).bind fun _ => rfl
  refine ⟨Or.inr ⟨rfl, fun client => (watched client).wakes⟩, fun reply => ?_⟩
  cases reply with
  | none => exact Or.inl (Or.inl rfl)
  | some client => exact everywhere_mono (fun _ => Or.inl) (watched client).persists

end programs

section threads

variable {o : ProcessOp C} {k : o.Reply → ProcessTask C Int}

theorem tidy_font {α : Type} {p : FontTask α}
    (hp : always (P := sig) (fun _ _ => True) outside p) :
    always (P := processSig C) (fun _ _ => True) tidy (font p) := by
  refine always_embed (fun o ho => ?_) hp
  exact ho

theorem kept_handle (task : HandlerTask C) : Kept (handle task) := by
  have tidied (p : FontTask FontErrorCode) (hp : always (P := sig) (fun _ _ => True) outside p) :
      always (P := processSig C) (fun _ _ => True) tidy (silent (font p)) :=
    always_bind (tidy_font hp) fun _ => always_pure _
  cases task with
  | unload => exact (watches_unloadTask.bind fun _ => rfl).persists
  | dataMigration callback request => trivial
  | cleanupAllScopeFontsOnBoot =>
    exact tidied _ (RoutinePermits.cleanupAllScopeFontsOnBoot outside_routine trivial)
  | cleanupUserScopeFonts userId =>
    exact tidied _ (RoutinePermits.cleanupUserScopeFonts outside_routine userId)
  | cleanupAppScopeFontsOnStart =>
    exact tidied _ (RoutinePermits.cleanupAppScopeFontsOnStart outside_routine trivial)

theorem kept_op {role : Role C} (h : Kept ⟨role, .call o k⟩) (r : o.Reply) : Kept ⟨role, k r⟩ := by
  cases role with
  | leaving | clientDied | migrated | unloading => exact h.2 r
  | cleaning => exact h.2 r trivial
  | _ => trivial

theorem idleReply_of_idle {p : Process C} {io : Io} (h : Idle (p.exec o io).2) :
    idleReply o (p.exec o io).1 := by
  obtain ⟨hcount, hmigrating, hclients⟩ := h
  cases o with
  | callingCount => exact hcount
  | isDataMigrationing => exact hmigrating
  | font o =>
    cases o with
    | registry op =>
      cases op with
      | getClientCount => exact List.length_eq_zero_iff.mpr hclients
      | _ => trivial
    | _ => trivial
  | _ => trivial

theorem exec_of_tidy {p : Process C} (h : tidy o) (io : Io) :
    (Idle (p.exec o io).2 ↔ Idle p) ∧ (p.exec o io).2.pending = p.pending := by
  cases o with
  | font o =>
    refine ⟨?_, rfl⟩
    simp only [Idle, Process.exec, Process.onWorld, registry_of_outside h]
  | _ => exact h.elim

end threads

section step

variable {s u : Server C} {e : ServerEvent C}

structure Watched (s : Server C) : Prop where
  kept : ∀ t ∈ s.threads, Kept t
  awake : Idle s.process → .unload ∈ s.process.pending ∨ calledSince id s.marks = true ∨
    ∃ t ∈ s.threads, Attends t

theorem Watched.spawn {t : ServerThread C} (h : Watched s) (ht : Kept t) : Watched (s.spawn t) where
  kept t' ht' := by
    rcases Server.mem_spawn ht' with ht' | rfl
    · exact h.kept t' ht'
    · exact ht
  awake hidle := by
    rcases h.awake hidle with hp | hm | ⟨t', ht', ha⟩
    · exact Or.inl hp
    · exact Or.inr (Or.inl hm)
    · exact Or.inr (Or.inr ⟨t', List.mem_append_left _ ht', ha⟩)

theorem Watched.attending {i : Nat} {t t' : ServerThread C} {p : Process C} {called : List Mark}
    (h : Watched s) (hi : s.threads[i]? = some t) (hkept : Kept t') (ha : Attends t') :
    Watched (s.advance i p t' called) where
  kept t' ht' := by
    rcases Server.mem_advance ht' with ht' | rfl
    · exact h.kept t' ht'
    · exact hkept
  awake _ := Or.inr (Or.inr ⟨t', Server.mem_advance_self hi, ha⟩)

theorem Watched.unattending {i : Nat} {t t' : ServerThread C} {p : Process C} {called : List Mark}
    (h : Watched s) (hi : s.threads[i]? = some t) (hkept : Kept t') (ha : ¬ Attends t)
    (hidle : Idle p → Idle s.process) (hpending : p.pending = s.process.pending)
    (hmarks : calledSince id s.marks = true → calledSince id (called ++ t'.mark ++ s.marks) = true) :
    Watched (s.advance i p t' called) where
  kept t'' ht'' := by
    rcases Server.mem_advance ht'' with ht'' | rfl
    · exact h.kept t'' ht''
    · exact hkept
  awake hp := by
    rcases h.awake (hidle hp) with hu | hm | ⟨t'', ht'', ha'⟩
    · exact Or.inl (hpending.symm ▸ hu)
    · exact Or.inr (Or.inl (hmarks hm))
    · rcases Server.mem_advance_of_mem hi ht'' with rfl | hmem
      · exact absurd ha' ha
      · exact Or.inr (Or.inr ⟨t'', hmem, ha'⟩)

theorem Watched.persisting {i : Nat} {io : Io} {role : Role C} {o : ProcessOp C}
    {k : o.Reply → ProcessTask C Int} (h : Watched s)
    (hi : s.threads[i]? = some ⟨role, .call o k⟩) (hkept : ∀ r, Kept ⟨role, k r⟩)
    (hok : postSucceeds s (.act i io) = true) (hwakes : Wakes (.call o k))
    (ha : ∀ r, Wakes (k r) → Attends ⟨role, k r⟩) :
    Watched (s.advance i (s.process.exec o io).2 ⟨role, k (s.process.exec o io).1⟩
      (Server.calledUnload o)) where
  kept t ht := by
    rcases Server.mem_advance ht with ht | rfl
    · exact h.kept t ht
    · exact hkept _
  awake hidle := by
    rcases hwakes with hhit | hrest
    · unfold wakes at hhit
      split at hhit
      · have hpost : io.ok = true := by simpa [postSucceeds, hi] using hok
        exact Or.inl (by simp [Server.advance, Process.exec, hpost])
      · exact Or.inr (Or.inl rfl)
      · exact hhit.elim
    · have hreply := idleReply_of_idle hidle
      exact Or.inr (Or.inr ⟨_, Server.mem_advance_self hi, ha _ (hrest _ hreply)⟩)

theorem exec_eraseClient (p : Process C) (tokenId : Int) (io : Io) :
    p.exec (.font (.registry (.eraseClient tokenId))) io = (none, p) ∨
      ∃ client, (p.exec (.font (.registry (.eraseClient tokenId))) io).1 = some client := by
  simp only [Process.exec, Process.onWorld, World.exec, World.execRegistry,
    FontClientRegistry.eraseClient]
  cases p.world.registry.info tokenId with
  | none => exact Or.inl rfl
  | some info => exact Or.inr ⟨_, rfl⟩

theorem Watched.erasing {i : Nat} {io : Io} {tokenId : Int} {o : ProcessOp C}
    {k : o.Reply → ProcessTask C Int} (h : Watched s)
    (hi : s.threads[i]? = some ⟨.clientDied tokenId, .call o k⟩)
    (hkept : ∀ r, Kept ⟨.clientDied tokenId, k r⟩) (herase : Erasing (.call o k)) :
    Watched (s.advance i (s.process.exec o io).2
      ⟨.clientDied tokenId, k (s.process.exec o io).1⟩ (Server.calledUnload o)) := by
  unfold Erasing at herase
  split at herase
  · rename_i t k' hcall
    cases hcall
    rcases exec_eraseClient s.process t io with hexec | ⟨client, hreply⟩
    · have ha : ¬ Attends (C := C)
          ⟨.clientDied tokenId, .call (.font (.registry (.eraseClient t))) k'⟩ := by
        rintro (hhit | hrest)
        · exact hhit.elim
        · have hnone := hrest none trivial
          rw [herase.1] at hnone
          exact hnone.elim
      rw [hexec]
      refine h.unattending hi (hkept _) ha id rfl fun hm => ?_
      have hcode : FontErrorCode.scopeFontNotRegistered.value ≠ FontErrorCode.ok.value := by decide
      simpa [Server.calledUnload, ServerThread.mark, herase.1, calledSince, hcode] using hm
    · refine h.attending hi (hkept _) ?_
      rw [hreply]
      exact herase.2 client
  · exact herase.elim

theorem watched_op {i : Nat} {io : Io} {role : Role C} {o : ProcessOp C}
    {k : o.Reply → ProcessTask C Int} (h : Watched s) (hrole : role.enters = false)
    (hi : s.threads[i]? = some ⟨role, .call o k⟩) (hok : postSucceeds s (.act i io) = true) :
    Watched (s.advance i (s.process.exec o io).2 ⟨role, k (s.process.exec o io).1⟩
      (Server.calledUnload o)) := by
  have hkept := h.kept _ (List.mem_of_getElem? hi)
  have hkept' := kept_op hkept
  have hcall : (Program.call o k : ProcessTask C Int).finished ≠ true := by simp [finished]
  cases role with
  | arriving | counting => cases hrole
  | serving | migrating => exact h.attending hi trivial trivial
  | leaving | migrated | unloading =>
    exact h.persisting hi hkept' hok (hkept.1.resolve_left hcall) fun _ hw => hw
  | clientDied tokenId =>
    rcases hkept.1 with hp | he
    · exact h.persisting hi hkept' hok (hp.resolve_left hcall) fun _ hw => hw
    · exact h.erasing hi hkept' he
  | cleaning =>
    obtain ⟨hidle, hpending⟩ := exec_of_tidy hkept.1 io
    refine h.unattending hi (hkept' _) id hidle.mp hpending fun hm => ?_
    cases o with
    | font o => exact hm
    | _ => exact hkept.1.elim

theorem watched_step (h : Watched s) (hok : postSucceeds s e = true) (hstep : ServerStep s e u) :
    Watched u := by
  cases hstep with
  | call c => exact h.spawn trivial
  | clientDied tokenId => exact h.spawn (erasing_clientDied tokenId)
  | userStopping userId =>
    refine ⟨h.kept, fun hidle => ?_⟩
    exact (h.awake hidle).imp_left (List.mem_append_left _)
  | @dispatch i task _ htask =>
    refine ⟨fun t ht => ?_, fun hidle => ?_⟩
    · rcases Server.mem_spawn ht with ht | rfl
      · exact h.kept t ht
      · exact kept_handle task
    · rcases h.awake hidle with hu | hm | ⟨t, ht, ha⟩
      · obtain ⟨j, hj⟩ := List.mem_iff_getElem?.mp hu
        by_cases hij : j = i
        · obtain rfl : task = .unload := Option.some.inj (htask.symm.trans (hij ▸ hj))
          refine Or.inr (Or.inr ⟨_, List.mem_append_right _ (List.mem_singleton_self _), ?_⟩)
          exact (watches_unloadTask.bind fun _ => rfl).wakes
        · exact Or.inl (List.mem_eraseIdx_iff_getElem?.mpr ⟨j, hij, hj⟩)
      · exact Or.inr (Or.inl hm)
      · exact Or.inr (Or.inr ⟨t, List.mem_append_left _ ht, ha⟩)
  | arrive hi => exact h.attending hi trivial trivial
  | count hi => exact h.attending hi trivial trivial
  | @uncount _ _ call code hi =>
    have hleave := (watches_leave (C := C) (checkClientCount call)).bind fun _ =>
      (rfl : (pure code : ProcessTask C Int).finished = true)
    exact h.attending hi hleave.persists hleave.wakes
  | endMigration hi =>
    have hsilent := (watches_addUnload (C := C)).bind fun _ =>
      (rfl : (pure FontErrorCode.ok.value : ProcessTask C Int).finished = true)
    exact h.attending hi hsilent.persists hsilent.wakes
  | op hrole hi henabled => exact watched_op h hrole hi hok
  | beat => exact ⟨h.kept, h.awake⟩

theorem watched_start (reason : StartReason) (w : World) :
    Watched (Server.onStart (C := C) reason w) :=
  ⟨by simp [Server.onStart], fun _ => Or.inl (by simp [Server.onStart])⟩

theorem not_attending {t : ServerThread C} (h : operating t = false) : ¬ Attends t := by
  obtain ⟨role, p⟩ := t
  have done_idle (hp : p.finished = true) : ¬ Wakes p := by
    obtain ⟨a, rfl⟩ := eq_done_of_finished hp
    exact id
  cases role with
  | arriving | counting | serving | migrating => cases h
  | cleaning => exact id
  | _ => exact done_idle (by simpa [operating, ServerThread.finished] using h)

end step

theorem wake_up_kept {reason : StartReason} {w : World} {es : List (ServerEvent C)} {s : Server C}
    (h : Server.machine.Run (fun s e => postSucceeds s e = true) (Server.onStart reason w) es s)
    (hquiet : ∀ t ∈ s.threads, operating t = false) (hidle : Idle s.process) :
    .unload ∈ s.process.pending ∨ calledSince id s.marks = true := by
  have hs : Watched s := h.invariant
    (fun _ _ _ hs hok hn => watched_step hs hok (Server.next_cases hn)) (watched_start reason w)
  rcases hs.awake hidle with hp | hm | ⟨t, ht, ha⟩
  · exact Or.inl hp
  · exact Or.inr hm
  · exact absurd ha (not_attending (hquiet t ht))

section lateDeath

-- The observer registers and unregisters, the unload task runs to its end.
def unloaded : List (ServerEvent Unit) :=
  .call (.onFontObserver Sample.app true) :: Sample.steps 0 6 ++
    .call (.offFontObserver Sample.app) :: Sample.steps 1 13 ++ .dispatch 1 :: Sample.steps 2 11

def lateNotice : List (ServerEvent Unit) := unloaded ++ .clientDied 5 :: Sample.steps 3 1

def atRest (s : Server Unit) : Bool :=
  (s.threads.all fun t => !operating t) && decide (s.process.callingCount = 0) &&
    !s.process.isDataMigrationing && decide (s.process.world.registry.clients = [])

def asleep (counts : Bool → Bool) (s : Server Unit) : Bool :=
  decide (.unload ∉ s.process.pending) && !calledSince counts s.marks

theorem of_atRest {s : Server Unit} (h : atRest s = true) :
    (∀ t ∈ s.threads, operating t = false) ∧ Idle s.process := by
  simp only [atRest, Bool.and_eq_true, decide_eq_true_eq, List.all_eq_true, Bool.not_eq_true'] at h
  exact ⟨h.1.1.1, h.1.1.2, h.1.2, h.2⟩

theorem late_death_unanswered :
    ¬ ∀ (reason : StartReason) (w : World) (es : List (ServerEvent Unit)) (s : Server Unit),
      Server.machine.Run (fun s e => postSucceeds s e = true) (Server.onStart reason w) es s →
      (∀ t ∈ s.threads, operating t = false) → Idle s.process →
      .unload ∈ s.process.pending ∨ calledSince (fun _ => true) s.marks = true := by
  intro h
  obtain ⟨s, hrun, hs⟩ := Machine.exists_run_of_replay (m := Server.machine) postSucceeds
    (fun s => atRest s && asleep (fun _ => true) s) (Server.onStart .other (.provisioned [100]))
    lateNotice (by decide +kernel)
  obtain ⟨hrest, hasleep⟩ := Bool.and_eq_true_iff.mp hs
  obtain ⟨hquiet, hidle⟩ := of_atRest hrest
  simp only [asleep, Bool.and_eq_true, decide_eq_true_eq, Bool.not_eq_true'] at hasleep
  rcases h .other (.provisioned [100]) lateNotice s hrun hquiet hidle with hp | hm
  · exact hasleep.1 hp
  · simp [hasleep.2] at hm

theorem unload_called_at_rest :
    ∃ s : Server Unit,
      Server.machine.Run (fun s e => postSucceeds s e = true)
        (Server.onStart .other (.provisioned [100])) lateNotice s ∧
      .unload ∉ s.process.pending ∧
      (.unload ∈ s.process.pending ∨ calledSince id s.marks = true) := by
  obtain ⟨s, hrun, hs⟩ := Machine.exists_run_of_replay (m := Server.machine) postSucceeds
    (fun s => atRest s && decide (.unload ∉ s.process.pending))
    (Server.onStart .other (.provisioned [100])) lateNotice (by decide +kernel)
  obtain ⟨hrest, hnone⟩ := Bool.and_eq_true_iff.mp hs
  obtain ⟨hquiet, hidle⟩ := of_atRest hrest
  exact ⟨s, hrun, of_decide_eq_true hnone, wake_up_kept hrun hquiet hidle⟩

end lateDeath

end WakeUp
