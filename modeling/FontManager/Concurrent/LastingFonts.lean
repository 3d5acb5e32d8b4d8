import FontManager.Concurrent.FontDiscipline

open FontDefine FontManagerUtils FontConfig FontLocation CJson Interaction Program

namespace LastingFonts

open ScopeRegistration

section runs

def start (w : World) : ServerSystem :=
  ⟨w, [⟨.cleanupAppScopeFontsOnStart, FontManagerServer.program .cleanupAppScopeFontsOnStart⟩]⟩

def apart (s : ServerSystem) (q : Request) : Bool :=
  s.threads.all fun t => t.program.finished || !clashes q t.label && !clashes t.label q

def calm (s : ServerSystem) : ServerStep → Bool
  | .spawn q => awaited q && apart s q
  | .act i io =>
    match s.threads[i]? with
    | some ⟨q, .call o _⟩ => permitted q s.world o io
    | _ => true

def returned (s : ServerSystem) (i : Nat) (q : Request) : Bool :=
  (s.threads[i]?).any fun t => t.label = q && t.program.result = some FontErrorCode.ok.value

-- What the owner, the user or a boot does to take the font away.
def ends (tokenId : Int) (srcPath : Str) : Request → Bool
  | .uninstallScopeFont _ url => url = srcPath
  | .offFontObserver caller => caller.tokenId = tokenId
  | .clientDied t => t = tokenId
  | .cleanupUserScopeFonts _ => true
  | .cleanupAllScopeFontsOnBoot => true
  | _ => false

def leaves (tokenId : Int) (srcPath : Str) : ServerStep → Bool
  | .spawn q => !ends tokenId srcPath q
  | .act _ _ => true

def Lasting (allowed : ServerSystem → ServerStep → Prop) (w : World) : Prop :=
  ∀ es s i io s' fs u caller env fd srcPath,
    FontManagerServer.service.machine.Run allowed (start w) es s → allowed s (.act i io) →
    FontManagerServer.service.machine.next s (.act i io) = some s' →
    returned s' i (.installScopeFont caller env fd fontScopeApp srcPath) = true →
    FontManagerServer.service.machine.Run
      (fun s e => allowed s e ∧ leaves caller.tokenId srcPath e = true) s' fs u →
    Present caller env fd srcPath u.world

theorem done_of_result {α : Type} {p : FontTask α} {a : α} (h : p.result = some a) : p = .done a := by
  cases p with
  | done b => exact congrArg Program.done (Option.some.inj h)
  | call o k => cases h

abbrev Attended (s : ServerSystem) : Prop := FontManagerServer.service.Attended discipline Reported s

variable {w : World} {s s' : ServerSystem} {e : ServerStep} {caller : Caller} {env : Env} {fd : Fd}
  {srcPath : Str}

theorem attended_start (hw : Settled w) : Attended (start w) where
  inv := hw
  attends t ht _ := by
    obtain rfl := List.mem_singleton.mp ht
    refine (serves_start hw).mono fun _ _ _ _ _ _ _ h => ?_
    cases h
  apart i j t t' hij hi hj _ _ := by
    obtain ⟨hi, -⟩ := List.getElem?_eq_some_iff.mp hi
    obtain ⟨hj, -⟩ := List.getElem?_eq_some_iff.mp hj
    simp only [start, List.length_singleton] at hi hj
    omega

theorem apart_thread {q : Request} (h : apart s q = true) {t : Thread sig Request Int}
    (ht : t ∈ s.threads) (hrunning : t.program.finished = false) :
    ¬ clashes q t.label = true ∧ ¬ clashes t.label q = true := by
  simpa [hrunning] using List.all_eq_true.mp h t ht

theorem permitted_of_calm {i : Nat} {io : Io} {q : Request} {o : Op} {k : o.Reply → FontTask Int}
    (hok : calm s (.act i io) = true) (hi : s.threads[i]? = some ⟨q, .call o k⟩) :
    permitted q s.world o io = true := by
  simpa [calm, hi] using hok

theorem attended_step (hs : Attended s) (hok : calm s e = true)
    (h : FontManagerServer.service.machine.next s e = some s') : Attended s' := by
  cases e with
  | spawn q =>
    obtain rfl := Service.next_spawn h
    obtain ⟨hq, hapart⟩ := Bool.and_eq_true_iff.mp hok
    exact hs.spawn (serves_program hq hs.inv) fun t => apart_thread hapart
  | act i io =>
    obtain ⟨q, o, k, hi, -, rfl⟩ := Service.next_act h
    exact hs.act hi (permitted_of_calm hok hi)

-- Once the call has returned: the font is there, and nobody is cleaning it up.
structure Safe (caller : Caller) (env : Env) (fd : Fd) (srcPath : Str) (s : ServerSystem) : Prop where
  attended : Attended s
  placed : Placed caller env fd srcPath s.world
  quiet : ∀ t ∈ s.threads, t.program.finished = false → cleans caller.tokenId t.label = false

theorem not_cleans {q q' : Request} {t : Int} (h : ¬ clashes q q' = true)
    (hq' : installs t q' = true) : cleans t q = false :=
  Bool.eq_false_iff.mpr fun hq => h (clashes_of hq hq')

theorem safe_of_return {i : Nat} {io : Io} (hs : Attended s) (hok : calm s (.act i io) = true)
    (h : FontManagerServer.service.machine.next s (.act i io) = some s')
    (hreturned : returned s' i (.installScopeFont caller env fd fontScopeApp srcPath) = true) :
    Safe caller env fd srcPath s' := by
  have hs' := attended_step hs hok h
  obtain ⟨q, o, k, hi, -, rfl⟩ := Service.next_act h
  have hpermitted := permitted_of_calm hok hi
  rw [returned, Service.advance, List.getElem?_set_self (List.getElem?_eq_some_iff.mp hi).1,
    Option.any_some, Bool.and_eq_true] at hreturned
  obtain ⟨hq, hresult⟩ := hreturned
  obtain rfl : q = .installScopeFont caller env fd fontScopeApp srcPath := of_decide_eq_true hq
  have hdone := done_of_result (of_decide_eq_true hresult)
  refine ⟨hs', hs.returns hi hpermitted hdone caller env fd srcPath rfl rfl, fun t ht hrunning => ?_⟩
  rcases Service.mem_advance_cases ht with ⟨j, hij, hj⟩ | rfl
  · exact not_cleans (hs.apart j i t _ hij hj hi hrunning rfl) (by simp [installs, place])
  · rw [hdone] at hrunning
    cases hrunning

theorem cleans_of_leaves {q : Request} (hq : awaited q = true)
    (h : leaves caller.tokenId srcPath (.spawn q) = true) : cleans caller.tokenId q = false := by
  cases q with
  | offFontObserver caller' =>
    have hne : caller'.tokenId ≠ caller.tokenId := by simpa [leaves, ends] using h
    simp only [cleans, sweeps, reduceCtorEq, decide_false, Bool.false_or]
    split
    · exact decide_eq_false fun he => hne (Option.some.inj he)
    · rfl
  | clientDied t => simpa [leaves, ends, cleans, sweeps] using h
  | onFontObserver caller' hasBinder => simp [cleans, sweeps]
  | installScopeFont caller' env fd scope url => simp [cleans, sweeps]
  | _ => cases hq

theorem safe_step (hs : Safe caller env fd srcPath s) (hok : calm s e = true)
    (hleaves : leaves caller.tokenId srcPath e = true)
    (h : FontManagerServer.service.machine.next s e = some s') : Safe caller env fd srcPath s' := by
  have hs' := attended_step hs.attended hok h
  cases e with
  | spawn q =>
    obtain rfl := Service.next_spawn h
    refine ⟨hs', hs.placed, fun t ht hrunning => ?_⟩
    rcases List.mem_append.mp ht with ht | ht
    · exact hs.quiet t ht hrunning
    · obtain rfl := List.mem_singleton.mp ht
      exact cleans_of_leaves (Bool.and_eq_true_iff.mp hok).1 hleaves
  | act i io =>
    obtain ⟨q, o, k, hi, -, rfl⟩ := Service.next_act h
    have hclean : cleans caller.tokenId q = false := hs.quiet _ (List.mem_of_getElem? hi) rfl
    have hguar := (hs.attended.self hi (permitted_of_calm hok hi)).1
    refine ⟨hs', hs.placed.kept ((hguar hs.attended.inv).2.keeps _ hclean), fun t ht hrunning => ?_⟩
    rcases Service.mem_advance ht with ht | rfl
    · exact hs.quiet t ht hrunning
    · exact hclean

theorem attended_run {es : List ServerStep} (hw : Settled w)
    (h : FontManagerServer.service.machine.Run (fun s e => calm s e = true) (start w) es s) :
    Attended s :=
  h.invariant (fun _ _ _ hs hok hn => attended_step hs hok hn) (attended_start hw)

-- What one process leaves behind is what the next one may start from.
theorem settled_run {es : List ServerStep} (hw : Settled w)
    (h : FontManagerServer.service.machine.Run (fun s e => calm s e = true) (start w) es s) :
    Settled { s.world with registry := .empty } where
  arrays := (attended_run hw h).inv.arrays
  homed := (attended_run hw h).inv.homed
  ids t info hinfo := by cases hinfo

theorem installed_font_lasts (hw : Settled w) : Lasting (fun s e => calm s e = true) w := by
  intro es s i io s' fs u caller env fd srcPath hbefore hok hnext hreturned hafter
  exact (hafter.invariant (fun _ _ _ hs hok hn => safe_step hs hok.1 hok.2 hn)
    (safe_of_return (attended_run hw hbefore) hok hnext hreturned)).placed.present

end runs

section startup

theorem provisioned_settled (userIds : List Int) : Settled (.provisioned userIds) where
  arrays u := by
    cases hconfig : (World.provisioned userIds).config u with
    | none => exact Or.inl rfl
    | some json =>
      rw [World.config_provisioned hconfig]
      exact Or.inr rfl
  homed u k hk := by
    rw [keys_provisioned] at hk
    cases hk
  ids t info h := by cases h

def faultless : ServerStep → Bool
  | .spawn q => awaited q
  | .act _ io => io.ok && io.sent.isNone && io.completes

def beforeReturn : List ServerStep :=
  [.spawn (.onFontObserver owner true)] ++ Sample.acts 1 1 ++ [.spawn appInstall] ++ Sample.acts 2 17

def outlasts (allowed : ServerSystem → ServerStep → Bool) (rest : List ServerStep)
    (p : ServerSystem → Bool) (s : ServerSystem) : Bool :=
  (FontManagerServer.service.machine.next s (.act 2 {})).any fun s' =>
    allowed s (.act 2 {}) && returned s' 2 appInstall &&
      (FontManagerServer.service.machine.replay
        (fun s e => allowed s e && leaves owner.tokenId "/a".toList e) s' rest).any p

theorem lasts_of_outlasts (allowed : ServerSystem → ServerStep → Bool) {w : World}
    (es rest : List ServerStep) (p : ServerSystem → Bool)
    (hw : Lasting (fun s e => allowed s e = true) w)
    (h : (FontManagerServer.service.machine.replay allowed (start w) es).any
      (outlasts allowed rest p) = true) :
    ∃ u : ServerSystem, p u = true ∧
      Present owner (Sample.noon 0) (Sample.sourceFont "A".toList 1) "/a".toList
        u.world := by
  obtain ⟨s, hbefore, hs⟩ := Machine.exists_run_of_replay (m := FontManagerServer.service.machine)
    allowed (outlasts allowed rest p) (start w) es h
  obtain ⟨s', hnext, hrest⟩ := Option.any_eq_true _ _ |>.mp hs
  simp only [Bool.and_eq_true] at hrest
  obtain ⟨⟨hallowed, hreturned⟩, hrest⟩ := hrest
  obtain ⟨u, hafter, hu⟩ := Machine.exists_run_of_replay _ p s' rest hrest
  exact ⟨u, hu, hw _ s 2 {} s' _ u owner _ _ _ hbefore hallowed hnext hreturned
    (hafter.mono fun _ _ he => Bool.and_eq_true_iff.mp he)⟩

-- The start-up task gets to run only now, and takes the new font for one that was left behind.
theorem font_swept_at_start :
    ¬ ∀ w, Settled w → Lasting (fun _ e => faultless e = true) w := by
  intro h
  obtain ⟨u, hempty, hpresent⟩ := lasts_of_outlasts (fun _ e => faultless e) beforeReturn
    (Sample.acts 0 8) (fun u => (listed (u.world.config owner.userId)).isEmpty)
    (h _ (provisioned_settled [100])) (by decide +kernel)
  have hrecord := hpresent.record
  rw [List.isEmpty_iff.mp hempty] at hrecord
  cases hrecord

def neighbour : List ServerStep :=
  [.spawn (.onFontObserver ⟨false, true, 6, 100, "other".toList⟩ true)] ++ Sample.acts 3 1 ++
    [.spawn (.clientDied 6)] ++ Sample.acts 4 3

theorem font_lasts_beside_death :
    ∃ u : ServerSystem, u.idle = true ∧
      Present owner (Sample.noon 0) (Sample.sourceFont "A".toList 1) "/a".toList
        u.world :=
  lasts_of_outlasts calm (Sample.acts 0 5 ++ beforeReturn) neighbour System.idle
    (installed_font_lasts (provisioned_settled [100])) (by decide +kernel)

end startup

end LastingFonts
