import FontManager.Concurrent.MigrationPhases

open Interaction FontManagerServer MigrationTickets MigrationPhases

namespace MigrationRuns

variable {C : Type} {s u : Server C} {e : ServerEvent C}

def Serving (s : Server C) (request : Nat) : Prop := ∃ t ∈ s.threads, t.role.serves request = true

structure Managed (s : Server C) : Prop where
  ledger : Ledger s
  busy : ∀ t ∈ s.threads, t.role.isMigrating = true → ∀ m, t.role.migration = some m →
    ∃ σ, (phases m.1 m.2).Follows (fun _ σ => σ = .ended) σ t.program ∧
      Holds m.1 m.2 σ s.process.manager
  rest : (∀ t ∈ s.threads, t.role.isMigrating = false) →
    s.process.migrating = false ∧ Alone s.process.manager
  sent : ∀ d ∈ s.process.delivered, Claimed s (d.callback, d.request) ∧ Serving s d.request
  served : ∀ t ∈ s.threads, t.role.isMigrating = false → ∀ m, t.role.migration = some m →
    results m.2 s.process.delivered = 1

section ledger

theorem two_le_countP {α : Type} {l : List α} {i j : Nat} {a b : α} (f : α → Bool) (hij : i ≠ j)
    (hi : l[i]? = some a) (hj : l[j]? = some b) (ha : f a = true) (hb : f b = true) :
    2 ≤ l.countP f := by
  have herase := countP_eraseIdx f hi
  have hpos : 0 < (l.eraseIdx i).countP f :=
    List.countP_pos_iff.mpr ⟨b, List.mem_eraseIdx_iff_getElem?.mpr ⟨j, Ne.symm hij, hj⟩, hb⟩
  rw [ha, Bool.toNat_true] at herase
  omega

theorem tickets_le (h : Ledger s) (request : Nat) : tickets s request ≤ 1 := by
  have claimed_le {callback : C} (hc : Claimed s (callback, request)) : tickets s request ≤ 1 := by
    obtain ⟨t, ht, hclaimant⟩ := hc
    obtain ⟨σ, -, hn⟩ := (sound_follows hclaimant).mp (h.threads request t ht)
    rw [hn]
    cases σ <;> simp [Ask.tickets]
  by_contra hmore
  have hpos : 0 < s.process.requests.countP (·.serves request) ∨
      0 < s.threads.countP (·.role.serves request) := by
    unfold tickets at hmore
    omega
  rcases hpos with hp | ht
  · obtain ⟨task, htask, hserves⟩ := List.countP_pos_iff.mp hp
    obtain ⟨callback, rfl⟩ := serves_requests htask hserves
    exact hmore (claimed_le (h.pending _ _ htask))
  · obtain ⟨t, hmem, hserves⟩ := List.countP_pos_iff.mp ht
    obtain ⟨⟨callback, r⟩, hm, hr⟩ := (Option.any_eq_true ..).mp hserves
    obtain rfl : r = request := eq_of_beq hr
    exact hmore (claimed_le (h.running t hmem _ hm))

theorem same_server (h : Ledger s) {i j request : Nat} {t t' : ServerThread C}
    (hi : s.threads[i]? = some t) (hj : s.threads[j]? = some t')
    (ht : t.role.serves request = true) (ht' : t'.role.serves request = true) : i = j := by
  by_contra hij
  have htwo := two_le_countP (fun t : ServerThread C => t.role.serves request) hij hi hj ht ht'
  have hle := tickets_le h request
  unfold tickets at hle
  omega

theorem same_migrating (h : Ledger s) {i j : Nat} {t t' : ServerThread C}
    (hi : s.threads[i]? = some t) (hj : s.threads[j]? = some t')
    (ht : t.role.isMigrating = true) (ht' : t'.role.isMigrating = true) : i = j := by
  by_contra hij
  have htwo := two_le_countP holds hij hi hj (by simp [holds, ht]) (by simp [holds, ht'])
  have hflag := h.flag
  have hle := Bool.toNat_le s.process.isDataMigrationing
  omega

theorem not_serving (h : Ledger s) {callback : C} {request : Nat}
    (hp : .dataMigration callback request ∈ s.process.requests) : ¬ Serving s request := by
  rintro ⟨t, ht, hserves⟩
  have hpending : 0 < s.process.requests.countP (·.serves request) :=
    List.countP_pos_iff.mpr ⟨_, hp, by simp [HandlerTask.serves]⟩
  have hthreads : 0 < s.threads.countP (·.role.serves request) :=
    List.countP_pos_iff.mpr ⟨t, ht, hserves⟩
  have hle := tickets_le h request
  unfold tickets at hle
  omega

theorem unmanaged_of_aside (h : Ledger s) {i : Nat} {role : Role C} {o : ProcessOp C}
    {k : o.Reply → ProcessTask C Int} (hi : s.threads[i]? = some ⟨role, .call o k⟩)
    (hrole : role.isMigrating = false) : unmanaged o := by
  have hsound := h.threads i _ hi
  cases hclaimant : role.claimant with
  | none =>
    simp only [Sound, hclaimant, hrole, Bool.false_eq_true, if_false] at hsound
    exact hsound.1.2
  | some callback =>
    obtain ⟨σ, hfollows, -⟩ := (sound_follows hclaimant).mp hsound
    have hallows := hfollows.1
    cases σ with
    | asking =>
      rcases hallows with rfl | ho
      · rfl
      · exact ho.2
    | posted => exact hallows.2
    | _ =>
      obtain rfl := hallows
      rfl

end ledger

section step

variable {i : Nat} {t t' : ServerThread C} {p : Process C} {called : List Mark}

theorem serves_of_migration {request : Nat} {callback : C}
    (h : t.role.migration = some (callback, request)) : t.role.serves request = true := by
  simp [Role.serves, h]

theorem Serving.spawn {request : Nat} (h : Serving s request) : Serving (s.spawn t) request := by
  obtain ⟨t', ht', hserves⟩ := h
  exact ⟨t', List.mem_append_left _ ht', hserves⟩

theorem Serving.advance {request : Nat} (h : Serving s request) (hi : s.threads[i]? = some t)
    (hmigration : t'.role.migration = t.role.migration) :
    Serving (s.advance i p t' called) request := by
  obtain ⟨t'', ht'', hserves⟩ := h
  rcases Server.mem_advance_of_mem hi ht'' with rfl | hmem
  · exact ⟨t', Server.mem_advance_self hi, by rwa [Role.serves, hmigration]⟩
  · exact ⟨t'', hmem, hserves⟩

theorem Managed.spawn (h : Managed s) (hp : p.manager = s.process.manager)
    (hu : Ledger ({ s with process := p }.spawn t)) (hmigrating : t.role.isMigrating = false)
    (hmigration : t.role.migration = none) : Managed ({ s with process := p }.spawn t) where
  ledger := hu
  busy t' ht' hm m hmig := by
    rcases Server.mem_spawn ht' with ht' | rfl
    · exact hp ▸ h.busy t' ht' hm m hmig
    · rw [hmigrating] at hm
      cases hm
  rest hrest := by
    have hquiet := h.rest fun t' ht' => hrest t' (List.mem_append_left _ ht')
    exact ⟨(congrArg Manager.migrating hp).trans hquiet.1, hp ▸ hquiet.2⟩
  sent d hd := by
    have hdelivered : p.delivered = s.process.delivered := congrArg Manager.delivered hp
    have hsent := h.sent d (hdelivered ▸ (show d ∈ p.delivered from hd))
    exact ⟨hsent.1.spawn, hsent.2.spawn⟩
  served t' ht' hm m hmig := by
    refine (congrArg (results m.2) (congrArg Manager.delivered hp)).trans ?_
    rcases Server.mem_spawn ht' with ht' | rfl
    · exact h.served t' ht' hm m hmig
    · rw [hmigration] at hmig
      cases hmig

-- A step of a thread that is no running migration leaves the manager alone.
theorem Managed.aside (h : Managed s) (hu : Ledger (s.advance i p t' called))
    (hi : s.threads[i]? = some t) (hp : p.manager = s.process.manager)
    (hold : t.role.isMigrating = false) (hnew : t'.role.isMigrating = false)
    (hclaimant : t'.role.claimant = t.role.claimant)
    (hmigration : t'.role.migration = t.role.migration) : Managed (s.advance i p t' called) where
  ledger := hu
  busy t'' ht'' hm m hmig := by
    rcases Server.mem_advance ht'' with ht'' | rfl
    · exact hp ▸ h.busy t'' ht'' hm m hmig
    · rw [hnew] at hm
      cases hm
  rest hrest := by
    have hquiet := h.rest fun t'' ht'' => by
      rcases Server.mem_advance_of_mem hi ht'' with rfl | hmem
      · exact hold
      · exact hrest t'' hmem
    exact ⟨(congrArg Manager.migrating hp).trans hquiet.1, hp ▸ hquiet.2⟩
  sent d hd := by
    have hdelivered : p.delivered = s.process.delivered := congrArg Manager.delivered hp
    have hsent := h.sent d (hdelivered ▸ (show d ∈ p.delivered from hd))
    exact ⟨hsent.1.advance hi hclaimant, hsent.2.advance hi hmigration⟩
  served t'' ht'' hm m hmig := by
    refine (congrArg (results m.2) (congrArg Manager.delivered hp)).trans ?_
    rcases Server.mem_advance ht'' with ht'' | rfl
    · exact h.served t'' ht'' hm m hmig
    · exact h.served t (List.mem_of_getElem? hi) hold m (hmigration ▸ hmig)

theorem idle_not_migrating (h : s.handlerIdle = true) (t : ServerThread C) (ht : t ∈ s.threads) :
    t.role.isMigrating = false := by
  have hidle := List.all_eq_true.mp h t ht
  obtain ⟨role, p⟩ := t
  cases role <;> first | rfl | simp [ServerThread.onHandler, ServerThread.finished] at hidle

theorem Managed.start (h : Managed s) {callback : C} {request : Nat}
    (hidle : s.handlerIdle = true) (hpending : .dataMigration callback request ∈ s.process.requests)
    (hp : p.manager = s.process.manager)
    (hu : Ledger ({ s with process := p }.spawn (handle (.dataMigration callback request)))) :
    Managed ({ s with process := p }.spawn (handle (.dataMigration callback request))) where
  ledger := hu
  busy t ht hm m hmig := by
    rcases Server.mem_spawn ht with ht | rfl
    · rw [idle_not_migrating hidle t ht] at hm
      cases hm
    · obtain rfl := Option.some.inj hmig
      obtain ⟨hflag, halone⟩ := h.rest (idle_not_migrating hidle)
      have hnone : results request s.process.delivered = 0 := by
        refine List.countP_eq_zero.mpr fun d hd hresult => ?_
        have heq := eq_of_beq (Bool.and_eq_true_iff.mp hresult).1
        exact not_serving h.ledger hpending (heq ▸ (h.sent d hd).2)
      refine ⟨.queued, follows_migrationTask, ?_⟩
      change Holds callback request .queued p.manager
      rw [hp]
      exact ⟨hflag, (fun hno => by cases hno), fun _ => halone, halone.beats, hnone⟩
  rest hrest := by
    have hnew := hrest _ (List.mem_append_right _ (List.mem_singleton_self _))
    cases hnew
  sent d hd := by
    have hdelivered : p.delivered = s.process.delivered := congrArg Manager.delivered hp
    have hsent := h.sent d (hdelivered ▸ (show d ∈ p.delivered from hd))
    exact ⟨hsent.1.spawn, hsent.2.spawn⟩
  served t ht hm m hmig := by
    refine (congrArg (results m.2) (congrArg Manager.delivered hp)).trans ?_
    rcases Server.mem_spawn ht with ht | rfl
    · exact h.served t ht hm m hmig
    · cases hm

-- The thread of the running migration, or the heartbeat of that migration, takes a step.
theorem Managed.running {callback : C} {request : Nat} {σ : Phase} (h : Managed s)
    (hu : Ledger (s.advance i p t' called)) (hi : s.threads[i]? = some t)
    (hrole : t.role = .migrating callback request) (hrole' : t'.role = t.role)
    (hfollows : (phases callback request).Follows (fun _ σ => σ = .ended) σ t'.program)
    (hholds : Holds callback request σ p.manager)
    (hsends : Sends callback request s.process.delivered p.delivered) :
    Managed (s.advance i p t' called) where
  ledger := hu
  busy t'' ht'' hm m hmig := by
    obtain ⟨j, hj⟩ := List.mem_iff_getElem?.mp ht''
    rcases Server.getElem?_advance hi hj with ⟨hij, hj⟩ | ⟨-, rfl⟩
    · exact absurd (same_migrating h.ledger hj hi hm (by rw [hrole]; rfl)) hij
    · rw [hrole', hrole] at hmig
      obtain rfl := Option.some.inj hmig
      exact ⟨σ, hfollows, hholds⟩
  rest hrest := by
    have hnew := hrest t' (Server.mem_advance_self hi)
    rw [hrole', hrole] at hnew
    cases hnew
  sent d hd := by
    have hmigration : t.role.migration = some (callback, request) := by rw [hrole]; rfl
    obtain ⟨sent, hdelivered, hsent⟩ := hsends
    have hd' : d ∈ s.process.delivered ++ sent := hdelivered ▸ (show d ∈ p.delivered from hd)
    rcases List.mem_append.mp hd' with hd' | hd'
    · have hold := h.sent d hd'
      exact ⟨hold.1.advance hi (by rw [hrole']), hold.2.advance hi (by rw [hrole'])⟩
    · obtain ⟨rfl, rfl⟩ := hsent d hd'
      refine ⟨(h.ledger.running t (List.mem_of_getElem? hi) _ hmigration).advance hi (by rw [hrole']),
        t', Server.mem_advance_self hi, ?_⟩
      rw [hrole']
      exact serves_of_migration hmigration
  served t'' ht'' hm m hmig := by
    obtain ⟨j, hj⟩ := List.mem_iff_getElem?.mp ht''
    rcases Server.getElem?_advance hi hj with ⟨hij, hj⟩ | ⟨-, rfl⟩
    · have hne : m.2 ≠ request := by
        rintro rfl
        refine hij (same_server h.ledger hj hi (serves_of_migration hmig) ?_)
        simp [hrole, Role.serves, Role.migration]
      exact (hsends.results_eq hne).trans (h.served t'' (List.mem_of_getElem? hj) hm m hmig)
    · rw [hrole', hrole] at hm
      cases hm

theorem Managed.ended {callback : C} {request : Nat} {code : Int} (h : Managed s)
    (hu : Ledger (s.advance i p t' called))
    (hi : s.threads[i]? = some ⟨.migrating callback request, .done code⟩)
    (hp : p.manager = s.process.manager) (hrole : t'.role = .migrated callback request) :
    Managed (s.advance i p t' called) := by
  obtain ⟨σ, hσ, hholds⟩ := h.busy _ (List.mem_of_getElem? hi) rfl (callback, request) rfl
  obtain rfl : σ = .ended := hσ
  have hmigration : t'.role.migration = some (callback, request) := by rw [hrole]; rfl
  have hdelivered : p.delivered = s.process.delivered := congrArg Manager.delivered hp
  refine ⟨hu, fun t'' ht'' hm m hmig => ?_, fun _ => ⟨?_, hp ▸ hholds.alone rfl⟩, fun d hd => ?_,
    fun t'' ht'' hm m hmig => ?_⟩
  · obtain ⟨j, hj⟩ := List.mem_iff_getElem?.mp ht''
    rcases Server.getElem?_advance hi hj with ⟨hij, hj⟩ | ⟨-, rfl⟩
    · exact absurd (same_migrating h.ledger hj hi hm rfl) hij
    · rw [hrole] at hm
      cases hm
  · exact (congrArg Manager.migrating hp).trans hholds.flag
  · have hsent := h.sent d (hdelivered ▸ (show d ∈ p.delivered from hd))
    exact ⟨hsent.1.advance hi (by rw [hrole]; rfl), hsent.2.advance hi hmigration⟩
  · refine (congrArg (results m.2) hdelivered).trans ?_
    rcases Server.mem_advance ht'' with ht'' | rfl
    · exact h.served t'' ht'' hm m hmig
    · obtain rfl := Option.some.inj (hmigration.symm.trans hmig)
      exact hholds.count

theorem advance_self (hi : s.threads[i]? = some t) (hmark : t.mark = []) :
    s.advance i p t [] = { s with process := p } := by
  obtain ⟨hlt, rfl⟩ := List.getElem?_eq_some_iff.mp hi
  simp [Server.advance, hmark]

theorem Managed.exists_running (h : Managed s) {b : HeartBeat C} {i : Nat}
    (hi : s.process.heartBeats[i]? = some b) (hlive : b.step ≠ .stopped) :
    ∃ (j : Nat) (callback : C) (request : Nat) (program : ProcessTask C Int) (σ : Phase),
      s.threads[j]? = some ⟨.migrating callback request, program⟩ ∧
      (phases callback request).Follows (fun _ σ => σ = .ended) σ program ∧
      Holds callback request σ s.process.manager := by
  by_cases hrest : ∀ t ∈ s.threads, t.role.isMigrating = false
  · exact absurd ((h.rest hrest).2.2 b (List.mem_of_getElem? hi)) hlive
  · simp only [not_forall] at hrest
    obtain ⟨⟨role, program⟩, ht, hm⟩ := hrest
    obtain ⟨j, hj⟩ := List.mem_iff_getElem?.mp ht
    cases role with
    | migrating callback request =>
      obtain ⟨σ, hfollows, hholds⟩ := h.busy _ ht rfl (callback, request) rfl
      exact ⟨j, callback, request, program, σ, hj, hfollows, hholds⟩
    | _ => exact absurd rfl hm

theorem managed_step (h : Managed s) (hstep : ServerStep s e u) : Managed u := by
  have hu := ledger_step h.ledger hstep
  cases hstep with
  | call c => exact h.spawn rfl hu rfl rfl
  | clientDied tokenId => exact h.spawn rfl hu rfl rfl
  | userStopping userId => exact ⟨hu, h.busy, h.rest, h.sent, h.served⟩
  | @dispatch i task hidle htask =>
    cases task with
    | dataMigration callback request =>
      exact h.start hidle (List.mem_filter.mpr ⟨List.mem_of_getElem? htask, rfl⟩) rfl hu
    | _ => exact h.spawn rfl hu rfl rfl
  | arrive hi => exact h.aside hu hi rfl rfl rfl rfl rfl
  | count hi => exact h.aside hu hi rfl rfl rfl rfl rfl
  | uncount hi => exact h.aside hu hi rfl rfl rfl rfl rfl
  | endMigration hi => exact h.ended hu hi rfl rfl
  | @op i io role o k hrole hi henabled =>
    cases hm : role.isMigrating with
    | false =>
      exact h.aside hu hi (manager_of_unmanaged (unmanaged_of_aside h.ledger hi hm) _ _) hm hm rfl rfl
    | true =>
      cases role with
      | migrating callback request =>
        obtain ⟨σ, hfollows, hholds⟩ := h.busy _ (List.mem_of_getElem? hi) rfl (callback, request) rfl
        obtain ⟨hreply, hnext, hsends⟩ := holds_op io hholds hfollows.1 henabled
        exact h.running hu hi rfl rfl (hfollows.2 _ hreply) hnext hsends
      | _ => cases hm
  | @beat i b b' sent hi hb =>
    have hbeat := beat_cases hb
    obtain ⟨j, callback, request, program, σ, hj, hfollows, hholds⟩ := h.exists_running hi hbeat.live
    obtain ⟨hnext, hsends⟩ := holds_beat hholds hi hbeat
    rw [← advance_self hj rfl] at hu ⊢
    exact h.running hu hj rfl rfl hfollows hnext hsends

theorem phase_of_managed (h : Managed s) {role : Role C} {o : ProcessOp C}
    {k : o.Reply → ProcessTask C Int} (ht : ⟨role, .call o k⟩ ∈ s.threads)
    (ho : manages o = true) : ∃ callback request σ, role = .migrating callback request ∧
      (phases callback request).allows σ o ∧ Holds callback request σ s.process.manager := by
  obtain ⟨i, hi⟩ := List.mem_iff_getElem?.mp ht
  cases hm : role.isMigrating with
  | false =>
    have hnot := unmanaged_of_aside h.ledger hi hm
    rw [hnot] at ho
    cases ho
  | true =>
    cases role with
    | migrating callback request =>
      obtain ⟨σ, hfollows, hholds⟩ := h.busy _ ht rfl (callback, request) rfl
      exact ⟨callback, request, σ, rfl, hfollows.1, hholds⟩
    | _ => cases hm

theorem managed_start (reason : StartReason) (w : World) :
    Managed (Server.onStart (C := C) reason w) where
  ledger := by
    have hnone : (Server.onStart (C := C) reason w).process.requests = [] := by
      cases reason <;> rfl
    refine ⟨by rw [hnone]; rfl, ?_, ?_, ?_⟩
    · simp [Server.onStart]
    · simp [hnone]
    · simp [Server.onStart]
  busy := by simp [Server.onStart]
  rest _ := ⟨rfl, rfl, by simp [Server.onStart, Process.manager]⟩
  sent := by simp [Server.onStart]
  served := by simp [Server.onStart]

end step

end MigrationRuns
