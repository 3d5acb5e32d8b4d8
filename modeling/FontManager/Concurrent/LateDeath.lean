import FontManager.Concurrent.DyingClients
import FontManager.Sequential.RegistryConsistency
import FontManager.Source.DeathRecipient

open FontDefine FontManagerUtils FontClientRegistry FontConfig FontLocation Interaction Program

namespace LateDeath

open RegistryProcess

def live (s : RegistryProcess) (t : Int) : Bool :=
  s.world.registry.isClientRegistered t && (s.binder t).any fun b => !s.dead.contains b

structure Kept (t : Int) (s s' : RegistryProcess) : Prop extends Untouched t s.world s'.world where
  info : s'.world.registry.info t = s.world.registry.info t
  indexed : ∀ u, t ∈ s'.world.registry.userClients u ↔ t ∈ s.world.registry.userClients u

def Spared (s : RegistryProcess) (e : RegistryStep) (s' : RegistryProcess) : Prop :=
  match e with
  | .onRemoteDied _ => ∀ t, live s t = true → Kept t s s'
  | .cleanup i _ => ∀ c, s.cleanups[i]? = some c → c.byDeath = true →
    ∀ t, live s t = true → Kept t s s'
  | _ => True

def settled (s : RegistryProcess) (t : Int) : Bool :=
  !s.notifications.contains ⟨t⟩ && s.cleanups.all fun c =>
    !c.byDeath || c.program.finished || c.client.1 != buildAppIdentifier fontScopeApp t

def ofLive (s : RegistryProcess) (item : Json) : Bool :=
  (s.world.registry.clients.map (·.1)).any fun t => live s t && recordOf t item

-- What an operation of a clean-up finds when OnClientDied performs it: the records of the client lie
-- in the client's directory, and a deletion by source path hits no record of a live client.
def aimed (s : RegistryProcess) (client : Str × Int) (io : Io) : Op → Bool
  | .config u (.getFontRecordsByAppId id) =>
    (s.world.execConfig u (.getFontRecordsByAppId id) io).1.all (located client)
  | .config u (.deleteScopeFontRecordByUrl srcPath) =>
    ((listed (s.world.config u)).find? (atUrl srcPath)).all fun item =>
      io.write.intact && !ofLive s item
  | _ => true

def orderly (s : RegistryProcess) : RegistryStep → Bool
  | .registerClient _ _ _ _ t => s.world.registry.isClientRegistered t || settled s t
  | .cleanup i io => (s.cleanups[i]?).all fun c =>
    match c.program with
    | .call o _ => !c.byDeath || aimed s c.client io o
    | .done _ => true
  | _ => true

structure Proper (c : Cleanup) : Prop where
  outside : always (P := sig) (fun _ _ => True) outside c.program
  own : c.byDeath = true → ∃ t, c.client.1 = makeAppIdentifier fontScopeApp t ∧
    Cleans c.client (fun _ => True) c.program

structure Guarded (s : RegistryProcess) : Prop where
  consistent : Consistent s.world.registry
  linked : ∀ b rc, b ∉ s.dead → (b, rc) ∈ s.recipients →
    s.world.registry.isClientRegistered rc.tokenId = true ∧ s.binder rc.tokenId = some b
  once : ∀ b rc, b ∉ s.dead → s.recipients.count (b, rc) ≤ 1
  notified : ∀ rc ∈ s.notifications, live s rc.tokenId = false
  cleaning : ∀ c ∈ s.cleanups, c.byDeath = true → c.program.finished = false →
    ∀ t info, live s t = true → s.world.registry.info t = some info →
      info.appIdentifier ≠ c.client.1
  proper : ∀ c ∈ s.cleanups, Proper c

variable {s s' : RegistryProcess} {t : Int} {b : Binder}

section live

theorem live_iff : live s t = true ↔
    s.world.registry.isClientRegistered t = true ∧ ∃ b, s.binder t = some b ∧ b ∉ s.dead := by
  simp [live, Option.any_eq_true]

theorem live_congr (hinfo : s'.world.registry.info t = s.world.registry.info t)
    (hbinder : s'.binder t = s.binder t) (hdead : s'.dead = s.dead) : live s' t = live s t := by
  simp [live, isClientRegistered, hinfo, hbinder, hdead]

theorem not_registered_of_info {r : FontClientRegistry} (h : r.info t = none) :
    r.isClientRegistered t = false := by
  simp [isClientRegistered, h]

end live

section register

variable {linked : Bool} {bundleName : Str} {u : Int}

theorem registerClient_refused {binder : Option Binder}
    (h : (s.world.registry.registerClient binder.isSome linked bundleName u t).2 =
      s.world.registry)
    (hcode : (s.world.registry.registerClient binder.isSome linked bundleName u t).1 ≠ .ok) :
    s.registerClient binder linked bundleName u t = s := by
  unfold RegistryProcess.registerClient
  dsimp only
  split
  · exact absurd ‹_› hcode
  · rw [h]

theorem registerClient_null (r : FontClientRegistry) :
    (r.registerClient false linked bundleName u t).1 ≠ .ok := by
  unfold FontClientRegistry.registerClient
  split
  · simp
  · split <;> simp

theorem admits_cons {r : FontClientRegistry} (t' : Int) :
    (r.enrol bundleName u t).info t' =
      if t' = t then some ⟨bundleName, u, t, buildAppIdentifier fontScopeApp t⟩ else r.info t' :=
  info_cons t t' _ _

def admitted (bundleName : Str) (u t : Int) (b : Binder) (s : RegistryProcess) :
    RegistryProcess where
  world := { s.world with registry := s.world.registry.enrol bundleName u t }
  binder := fun t' => if t' = t then some b else s.binder t'
  recipients := (b, ⟨t⟩) :: s.recipients
  dead := s.dead
  notifications := s.notifications
  cleanups := s.cleanups

theorem live_admitted {t' : Int} (h : t' ≠ t) : live (admitted bundleName u t b s) t' = live s t' :=
  live_congr ((admits_cons t').trans (if_neg h)) (if_neg h) rfl

theorem guarded_admit (h : Guarded s) (hnone : s.world.registry.info t = none)
    (hlimit : ((s.world.registry.userClients u).length : Int) < maxScopeFontAppNum)
    (hsettled : settled s t = true) : Guarded (admitted bundleName u t b s) := by
  have hnot := not_registered_of_info hnone
  obtain ⟨hnotified, hcleanups⟩ := Bool.and_eq_true_iff.mp hsettled
  refine ⟨h.consistent.enrol bundleName hnone hlimit, fun b' rc hb hmem => ?_,
    fun b' rc hb => ?_, fun rc hrc => ?_, fun c hc hdeath hrun t' info ht hinfo => ?_, h.proper⟩
  · rcases List.mem_cons.mp hmem with heq | hmem
    · cases heq
      simp [admitted, isClientRegistered, admits_cons]
    · obtain ⟨hreg, hbinder⟩ := h.linked b' rc hb hmem
      have hne : rc.tokenId ≠ t := by
        rintro rfl
        rw [hnot] at hreg
        cases hreg
      refine ⟨?_, by simp [admitted, hne, hbinder]⟩
      simpa [admitted, isClientRegistered, admits_cons, hne] using hreg
  · by_cases heq : (b', rc) = (b, ⟨t⟩)
    · have hzero : s.recipients.count (b', rc) = 0 := by
        refine List.count_eq_zero.mpr fun hmem => ?_
        have hreg := (h.linked b' rc hb hmem).1
        cases heq
        rw [hnot] at hreg
        cases hreg
      rw [heq] at hzero ⊢
      simp [admitted, hzero]
    · rw [admitted, List.count_cons_of_ne (Ne.symm heq)]
      exact h.once b' rc hb
  · have hne : rc.tokenId ≠ t := by
      rintro rfl
      exact absurd (show rc ∈ s.notifications from hrc) (by simpa using hnotified)
    rw [live_admitted hne]
    exact h.notified rc hrc
  · rw [show (admitted bundleName u t b s).world.registry.info t' = _ from admits_cons t'] at hinfo
    by_cases ht' : t' = t
    · rw [if_pos ht'] at hinfo
      have hc' := List.all_eq_true.mp hcleanups c hc
      rw [hdeath, hrun] at hc'
      cases hinfo
      exact fun heq => (bne_iff_ne.mp (by simpa using hc')) heq.symm
    · rw [if_neg ht'] at hinfo
      rw [live_admitted ht'] at ht
      exact h.cleaning c hc hdeath hrun t' info ht hinfo

theorem guarded_register (h : Guarded s) (binder : Option Binder)
    (hok : orderly s (.registerClient binder linked bundleName u t) = true) :
    Guarded (s.registerClient binder linked bundleName u t) := by
  rcases registerClient_cases (r := s.world.registry) binder.isSome linked bundleName u t with
    ⟨hcode, heq⟩ | ⟨hnone, hlimit, heq⟩
  · rwa [registerClient_refused heq hcode]
  · cases binder with
    | none => exact absurd (congrArg Prod.fst heq) (registerClient_null _)
    | some b =>
      have hsettled : settled s t = true := by
        simpa [orderly, not_registered_of_info hnone] using hok
      have hnext : s.registerClient (some b) linked bundleName u t =
          admitted bundleName u t b s := by
        unfold RegistryProcess.registerClient
        rw [heq]
        rfl
      rw [hnext]
      exact guarded_admit h hnone hlimit hsettled

end register

section erase

theorem erase_none (hnone : s.world.registry.info t = none) (byDeath : Bool) :
    s.erase t byDeath = s := by
  simp [RegistryProcess.erase, eraseClient_reply, hnone]

def erased (t : Int) (i : ClientInfo) (byDeath : Bool) (s : RegistryProcess) :
    RegistryProcess where
  world := { s.world with registry := (s.world.registry.eraseClient t).2 }
  binder := fun t' => if t' = t then none else s.binder t'
  recipients := s.recipients
  dead := s.dead
  notifications := s.notifications
  cleanups := s.cleanups ++
    [⟨(i.appIdentifier, i.userId), byDeath, cleanup (i.appIdentifier, i.userId)⟩]

theorem erase_some {i : ClientInfo} (hi : s.world.registry.info t = some i) (byDeath : Bool) :
    s.erase t byDeath = erased t i byDeath s := by
  simp [RegistryProcess.erase, erased, eraseClient_reply, hi]

theorem live_erased (i : ClientInfo) (byDeath : Bool) (t' : Int) :
    live (erased t i byDeath s) t' = (decide (t' ≠ t) && live s t') := by
  by_cases ht : t' = t
  · simp [live, erased, ht]
  · have heq : live (erased t i byDeath s) t' = live s t' :=
      live_congr ((info_eraseClient t t').trans (if_neg ht)) (if_neg ht) rfl
    simp [ht, heq]

theorem guarded_erase (h : Guarded s) (byDeath : Bool) (hnot : byDeath = true → live s t = false)
    (hrecipients : ∀ b, b ∉ s.dead → (b, ⟨t⟩) ∉ s.recipients) :
    Guarded (s.erase t byDeath) := by
  cases hi : s.world.registry.info t with
  | none => rwa [erase_none hi]
  | some i =>
    rw [erase_some hi]
    refine ⟨h.consistent.eraseClient t, fun b' rc hb hmem => ?_, h.once, fun rc hrc => ?_,
      fun c hc hdeath hrun t' info ht hinfo => ?_, fun c hc => ?_⟩
    · have hne : rc.tokenId ≠ t := by
        rintro rfl
        exact hrecipients b' hb hmem
      obtain ⟨hreg, hbinder⟩ := h.linked b' rc hb hmem
      refine ⟨?_, by simp [erased, hne, hbinder]⟩
      simpa [erased, isClientRegistered, info_eraseClient, hne] using hreg
    · rw [live_erased, h.notified rc hrc, Bool.and_false]
    · rw [live_erased] at ht
      obtain ⟨hne, ht⟩ := Bool.and_eq_true_iff.mp ht
      have hne : t' ≠ t := of_decide_eq_true hne
      rw [erased, info_eraseClient, if_neg hne] at hinfo
      rcases List.mem_append.mp hc with hc | hc
      · exact h.cleaning c hc hdeath hrun t' info ht hinfo
      · obtain rfl := List.mem_singleton.mp hc
        intro heq
        rw [(h.consistent.entry t' info hinfo).2, (h.consistent.entry t i hi).2] at heq
        exact hne (Text.decimal_injective (List.append_cancel_left heq))
    · rcases List.mem_append.mp hc with hc | hc
      · exact h.proper c hc
      · obtain rfl := List.mem_singleton.mp hc
        have hid : i.appIdentifier = makeAppIdentifier fontScopeApp t :=
          (h.consistent.entry t i hi).2
        refine ⟨RoutinePermits.cleanup outside_routine _, fun _ => ⟨t, hid, ?_⟩⟩
        rw [hid]
        exact cleans_cleanup fontScopeApp t i.userId

end erase

section step

theorem guarded_unregister (h : Guarded s) (t : Int) : Guarded (s.unregisterClient t) := by
  unfold RegistryProcess.unregisterClient
  split
  · have hdetached : Guarded (s.removeDeathRecipient t) ∧
        ∀ b, b ∉ s.dead → (b, (⟨t⟩ : FontClientDeathRecipient)) ∉
          (s.removeDeathRecipient t).recipients := by
      unfold RegistryProcess.removeDeathRecipient
      split
      · rename_i hbinder
        refine ⟨h, fun b hb hmem => ?_⟩
        have hlinked := (h.linked b _ hb hmem).2
        rw [hbinder] at hlinked
        cases hlinked
      · rename_i b₀ hbinder
        refine ⟨⟨h.consistent, fun b rc hb hmem => h.linked b rc hb (List.mem_of_mem_erase hmem),
          fun b rc hb => ?_, h.notified, h.cleaning, h.proper⟩, fun b hb hmem => ?_⟩
        · exact Nat.le_trans (List.erase_sublist.count_le _) (h.once b rc hb)
        · have hlinked := (h.linked b _ hb (List.mem_of_mem_erase hmem)).2
          rw [hbinder] at hlinked
          cases hlinked
          have hcount := List.count_pos_iff.mpr hmem
          rw [List.count_erase_self] at hcount
          have := h.once b₀ ⟨t⟩ hb
          omega
    refine guarded_erase hdetached.1 false (by simp) fun b hb => hdetached.2 b ?_
    unfold RegistryProcess.removeDeathRecipient at hb
    split at hb <;> exact hb
  · exact h

theorem guarded_die (h : Guarded s) (hb : b ∉ s.dead) : Guarded (s.die b) := by
  have hlive : ∀ t, live (s.die b) t = true → live s t = true := by
    intro t ht
    obtain ⟨hreg, b', hb', hdead⟩ := live_iff.mp ht
    exact live_iff.mpr ⟨hreg, b', hb', fun hmem => hdead (List.mem_cons_of_mem _ hmem)⟩
  refine ⟨h.consistent, fun b' rc hb' hmem => ?_, fun b' rc hb' => ?_, fun rc hrc => ?_,
    fun c hc hdeath hrun t info ht => h.cleaning c hc hdeath hrun t info (hlive t ht), h.proper⟩
  · exact h.linked b' rc (fun hmem => hb' (List.mem_cons_of_mem _ hmem)) (List.mem_filter.mp hmem).1
  · exact Nat.le_trans (List.filter_sublist.count_le _)
      (h.once b' rc fun hmem => hb' (List.mem_cons_of_mem _ hmem))
  · refine Bool.eq_false_iff.mpr fun ht => ?_
    rcases List.mem_append.mp hrc with hrc | hrc
    · exact absurd (hlive _ ht) (by rw [h.notified rc hrc]; simp)
    · obtain ⟨x, hx, rfl⟩ := List.mem_map.mp hrc
      obtain ⟨hmem, heq⟩ := List.mem_filter.mp hx
      obtain ⟨b', rc⟩ := x
      obtain rfl : b' = b := of_decide_eq_true heq
      obtain ⟨-, b'', hb'', hdead⟩ := live_iff.mp ht
      obtain rfl := Option.some.inj (hb''.symm.trans (h.linked _ rc hb hmem).2)
      exact hdead List.mem_cons_self

theorem not_attached (h : Guarded s) (hlive : live s t = false) {b : Binder} (hb : b ∉ s.dead) :
    (b, (⟨t⟩ : FontClientDeathRecipient)) ∉ s.recipients := by
  intro hmem
  obtain ⟨hreg, hbinder⟩ := h.linked b _ hb hmem
  rw [live_iff.mpr ⟨hreg, b, hbinder, hb⟩] at hlive
  cases hlive

theorem guarded_remoteDied (h : Guarded s) {i : Nat} {rc : FontClientDeathRecipient}
    (hrc : s.notifications[i]? = some rc) :
    Guarded ({ s with notifications := s.notifications.eraseIdx i }.onClientDied rc.tokenId) := by
  have hlive := h.notified rc (List.mem_of_getElem? hrc)
  have htaken : Guarded { s with notifications := s.notifications.eraseIdx i } :=
    ⟨h.consistent, h.linked, h.once, fun rc' hrc' => h.notified rc' (List.mem_of_mem_eraseIdx hrc'),
      h.cleaning, h.proper⟩
  exact guarded_erase htaken true (fun _ => hlive) fun b hb => not_attached h hlive hb

theorem guarded_world (h : Guarded s) {w : World} {cleanups : List Cleanup}
    (hreg : w.registry = s.world.registry)
    (hrunning : ∀ c ∈ cleanups, c.byDeath = true → c.program.finished = false →
      ∃ c' ∈ s.cleanups, c'.client = c.client ∧ c'.byDeath = true ∧ c'.program.finished = false)
    (hproper : ∀ c ∈ cleanups, Proper c) :
    Guarded { s with world := w, cleanups := cleanups } := by
  have hlive : ∀ t, live { s with world := w, cleanups := cleanups } t = live s t := by
    simp [live, hreg]
  refine ⟨hreg ▸ h.consistent, fun b rc hb hrc => ?_, h.once, fun rc hrc => ?_,
    fun c hc hdeath hrun t info ht hinfo => ?_, hproper⟩
  · dsimp only
    rw [hreg]
    exact h.linked b rc hb hrc
  · rw [hlive]
    exact h.notified rc hrc
  · rw [hlive] at ht
    dsimp only at hinfo
    rw [hreg] at hinfo
    obtain ⟨c', hc', hclient, hdeath', hrun'⟩ := hrunning c hc hdeath hrun
    rw [← hclient]
    exact h.cleaning c' hc' hdeath' hrun' t info ht hinfo

theorem replies_exec {client : Str × Int} {o : Op} {io : Io} (h : aimed s client io o = true) :
    (cleaning client).replies () o (s.world.exec o io).1 := by
  refine ⟨Containment.canonical_exec s.world o io, ?_⟩
  cases o with
  | config u op =>
    cases op with
    | getFontRecordsByAppId id => exact List.all_eq_true.mp h
    | _ => trivial
  | _ => trivial

theorem guarded_cleanup (h : Guarded s) {i : Nat} {io : Io} {client : Str × Int} {byDeath : Bool}
    {o : Op} {k : o.Reply → FontTask Unit}
    (hc : s.cleanups[i]? = some ⟨client, byDeath, .call o k⟩)
    (hok : orderly s (.cleanup i io) = true) :
    Guarded { s with
      world := (s.world.exec o io).2
      cleanups := s.cleanups.set i ⟨client, byDeath, k (s.world.exec o io).1⟩ } := by
  have hmem := List.mem_of_getElem? hc
  have hsafe := h.proper _ hmem
  refine guarded_world h (registry_of_outside hsafe.outside.1 io) (fun c hc' hdeath hrun => ?_)
    fun c hc' => ?_
  · rcases List.mem_or_eq_of_mem_set hc' with hc' | rfl
    · exact ⟨c, hc', rfl, hdeath, hrun⟩
    · exact ⟨_, hmem, rfl, hdeath, rfl⟩
  · rcases List.mem_or_eq_of_mem_set hc' with hc' | rfl
    · exact h.proper c hc'
    · refine ⟨hsafe.outside.2 _ trivial, fun hdeath => ?_⟩
      obtain rfl : byDeath = true := hdeath
      obtain ⟨t, hid, hown⟩ := hsafe.own rfl
      exact ⟨t, hid, hown.2 _ (replies_exec (by simpa [orderly, hc] using hok))⟩

theorem guarded_step {e : RegistryStep} (h : Guarded s) (hok : orderly s e = true)
    (hnext : machine.next s e = some s') : Guarded s' := by
  cases e with
  | registerClient binder linked bundleName userId tokenId =>
    obtain rfl := Option.some.inj hnext
    exact guarded_register h binder hok
  | unregisterClient tokenId =>
    obtain rfl := Option.some.inj hnext
    exact guarded_unregister h tokenId
  | die b =>
    simp only [machine, next] at hnext
    split at hnext
    · cases hnext
    · obtain rfl := Option.some.inj hnext
      exact guarded_die h ‹_›
  | onRemoteDied i =>
    obtain ⟨rc, hrc, rfl⟩ := Option.map_eq_some_iff.mp hnext
    exact guarded_remoteDied h hrc
  | cleanup i io =>
    simp only [machine, next] at hnext
    split at hnext
    · obtain rfl := Option.some.inj hnext
      exact guarded_cleanup h ‹_› hok
    · cases hnext
  | other o io =>
    cases o with
    | registry op => cases hnext
    | _ =>
      obtain rfl := Option.some.inj hnext
      exact guarded_world h (World.exec_registry io (by simp))
        (fun c hc hdeath hrun => ⟨c, hc, rfl, hdeath, hrun⟩) h.proper

theorem guarded_start (w : World) : Guarded (start w) where
  consistent := .empty
  linked := by simp [start]
  once := by simp [start]
  notified := by simp [start]
  cleaning := by simp [start]
  proper := by simp [start]

theorem kept_erase (h : Consistent s.world.registry) (byDeath : Bool) {t' : Int} (hne : t' ≠ t) :
    Kept t' s (s.erase t byDeath) := by
  cases hi : s.world.registry.info t with
  | none =>
    rw [erase_none hi]
    exact ⟨.of_tree rfl, rfl, fun _ => Iff.rfl⟩
  | some i =>
    rw [erase_some hi]
    have hinfo : (s.world.registry.eraseClient t).2.info t' = s.world.registry.info t' := by
      rw [info_eraseClient, if_neg hne]
    refine ⟨.of_tree rfl, hinfo, fun u => ?_⟩
    rw [erased, (h.eraseClient t).indexed, h.indexed, hinfo]

theorem ofLive_of_live {item : Json} (ht : live s t = true) (hitem : recordOf t item = true) :
    ofLive s item = true :=
  List.any_eq_true.mpr ⟨t, info_isSome.mp (live_iff.mp ht).1, by simp [ht, hitem]⟩

theorem kept_cleanup (h : Guarded s) {i : Nat} {io : Io} {client : Str × Int} {o : Op}
    {k : o.Reply → FontTask Unit} {cleanups : List Cleanup}
    (hc : s.cleanups[i]? = some ⟨client, true, .call o k⟩)
    (hok : orderly s (.cleanup i io) = true) (ht : live s t = true) :
    Kept t s { s with world := (s.world.exec o io).2, cleanups := cleanups } := by
  have hproper := h.proper _ (List.mem_of_getElem? hc)
  obtain ⟨id, u⟩ := client
  obtain ⟨c, hid, hown⟩ := hproper.own rfl
  obtain rfl : id = makeAppIdentifier fontScopeApp c := hid
  obtain ⟨info, hinfo⟩ := Option.isSome_iff_exists.mp (live_iff.mp ht).1
  have hne : t ≠ c := by
    rintro rfl
    exact h.cleaning _ (List.mem_of_getElem? hc) rfl rfl t info ht hinfo
      (h.consistent.entry t info hinfo).2
  have hregistry := registry_of_outside (w := s.world) hproper.outside.1 io
  refine ⟨untouched_exec hown.1 hne fun x srcPath item ho hfound => ?_, ?_, fun u => ?_⟩
  · subst ho
    have haimed : io.write.intact = true ∧ ofLive s item = false := by
      simpa [orderly, hc, aimed, hfound] using hok
    exact ⟨haimed.1, Bool.eq_false_iff.mpr fun hitem => by simp [ofLive_of_live ht hitem] at haimed⟩
  · rw [hregistry]
  · rw [hregistry]

theorem spared_step {e : RegistryStep} (h : Guarded s) (hok : orderly s e = true)
    (hnext : machine.next s e = some s') : Spared s e s' := by
  cases e with
  | onRemoteDied i =>
    obtain ⟨rc, hrc, rfl⟩ := Option.map_eq_some_iff.mp hnext
    intro t ht
    have hne : t ≠ rc.tokenId := by
      rintro rfl
      rw [h.notified rc (List.mem_of_getElem? hrc)] at ht
      cases ht
    have hkept := kept_erase (s := { s with notifications := s.notifications.eraseIdx i })
      h.consistent true hne
    exact ⟨hkept.toUntouched, hkept.info, hkept.indexed⟩
  | cleanup i io =>
    intro c hc hdeath t ht
    simp only [machine, next] at hnext
    split at hnext
    · rename_i client byDeath o k hcall
      obtain rfl := Option.some.inj (hc.symm.trans hcall)
      obtain rfl : byDeath = true := hdeath
      obtain rfl := Option.some.inj hnext
      exact kept_cleanup h hcall hok ht
    · cases hnext
  | _ => trivial

end step

theorem live_spared {w : World} {es : List RegistryStep} {s s' : RegistryProcess}
    {e : RegistryStep} (h : machine.Run (fun s e => orderly s e = true) (start w) es s)
    (hok : orderly s e = true) (hnext : machine.next s e = some s') : Spared s e s' :=
  spared_step (h.invariant (fun _ _ _ hs hok hn => guarded_step hs hok hn) (guarded_start w)) hok
    hnext

section restart

def register (b : Binder) (t : Int) : RegistryStep :=
  .registerClient (some b) true "bundle".toList 100 t

def restarted : List RegistryStep :=
  [register 1 5, .die 1, .unregisterClient 5, register 2 5]

theorem live_removed :
    ¬ ∀ (w : World) (es : List RegistryStep) (s s' : RegistryProcess) (e : RegistryStep),
      machine.Run (fun _ _ => True) (start w) es s → machine.next s e = some s' →
        Spared s e s' := by
  intro h
  obtain ⟨s, hrun, hs⟩ := Machine.exists_run_of_replay (m := machine) (fun _ _ => true)
    (fun s => live s 5 && (machine.next s (.onRemoteDied 0)).any fun s' =>
      (s.world.registry.info 5).isSome && (s'.world.registry.info 5).isNone)
    (start (.provisioned [100])) restarted (by decide)
  obtain ⟨hlive, hgone⟩ := Bool.and_eq_true_iff.mp hs
  obtain ⟨s', hnext, hinfo⟩ := (Option.any_eq_true _ _).mp hgone
  have hkept := (h _ _ s s' _ (hrun.mono fun _ _ _ => trivial) hnext 5 hlive).info
  rw [hkept] at hinfo
  cases hi : s.world.registry.info 5 <;> simp [hi] at hinfo

def ownFont (t : Int) : FontRecordInfo where
  fullNames := [Text.decimal t]
  fontPath := Slot.sandbox ⟨some (makeAppIdentifier fontScopeApp t), "a.ttf".toList⟩
  scope := fontScopeApp
  srcPath := Text.decimal t
  bundleName := "bundle".toList
  appIdentifier := makeAppIdentifier fontScopeApp t

def twoFonts : World :=
  { World.provisioned [100] with
    tree := [(configLoc 100, .document (.object [(fontList,
      .array [constructScopeCJSON (ownFont 5), constructScopeCJSON (ownFont 6)])]))] }

-- Client 5 dies, and its clean-up has come to the deletion of the record.
def bystander : List RegistryStep :=
  [register 1 5, register 2 6, .die 1, .onRemoteDied 0, .cleanup 0 {}, .cleanup 0 {}, .cleanup 0 {},
    .cleanup 0 {}]

theorem bystander_spared :
    ∃ s s', live s 6 = true ∧ machine.next s (.cleanup 0 {}) = some s' ∧
      (listed (s.world.config 100)).length = 2 ∧ (listed (s'.world.config 100)).length = 1 ∧
      Spared s (.cleanup 0 {}) s' := by
  obtain ⟨s, hrun, hs⟩ := Machine.exists_run_of_replay (m := machine) orderly
    (fun s => live s 6 && orderly s (.cleanup 0 {}) &&
      (listed (s.world.config 100)).length == 2 &&
      (machine.next s (.cleanup 0 {})).any fun s' => (listed (s'.world.config 100)).length == 1)
    (start twoFonts) bystander (by decide)
  simp only [Bool.and_eq_true, Option.any_eq_true, beq_iff_eq] at hs
  obtain ⟨⟨⟨hlive, hok⟩, htwo⟩, s', hnext, hone⟩ := hs
  exact ⟨s, s', hlive, hnext, htwo, hone, live_spared hrun hok hnext⟩

end restart

end LateDeath
