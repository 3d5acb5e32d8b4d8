import FontManager.Concurrent.UserRequests
import FontManager.Interaction.Isolation

open FontDefine FontManagerUtils FontManager FontLocation Interaction

namespace UserIsolation

-- The two clean-ups of all users have no user of their own: their 0 is never read, since Separate
-- excludes them.
def account (home : Int → Int) : Request → Int
  | .installFont caller _ _ => caller.userId
  | .uninstallFont caller _ => caller.userId
  | .installFontWithUserId _ _ _ userId => userId
  | .uninstallFontWithUserId _ _ userId => userId
  | .onFontObserver caller _ => caller.userId
  | .offFontObserver caller => home caller.tokenId
  | .installScopeFont caller _ _ _ _ => caller.userId
  | .uninstallScopeFont caller _ => caller.userId
  | .getFontScope caller _ => caller.userId
  | .clientDied tokenId => home tokenId
  | .cleanupAllScopeFontsOnBoot => 0
  | .cleanupUserScopeFonts userId => userId
  | .cleanupAppScopeFontsOnStart => 0

def Separate (home : Int → Int) : Request → Prop
  | .onFontObserver caller _ => home caller.tokenId = caller.userId
  | .installScopeFont caller _ _ _ _ => home caller.tokenId = caller.userId
  | .cleanupAllScopeFontsOnBoot => False
  | .cleanupAppScopeFontsOnStart => False
  | _ => True

variable {home : Int → Int} {k : Int} {w w' : World}

theorem confined_program {q : Request} (hq : Separate home q) :
    Confined home (account home q) (fun _ => True) (FontManagerServer.program q) := by
  cases q with
  | installFont caller env fd =>
    apply Confined.value
    unfold FontManagerServer.installFontInner
    split
    · exact Confined.pure trivial
    · split
      · exact Confined.pure trivial
      · exact Confined.installFont env fd caller.userId
  | uninstallFont caller name =>
    apply Confined.value
    unfold FontManagerServer.uninstallFontInner
    split
    · exact Confined.pure trivial
    · split
      · exact Confined.pure trivial
      · exact Confined.uninstallFont name caller.userId
  | installFontWithUserId caller env fd userId =>
    apply Confined.value
    unfold FontManagerServer.installFontWithUserId
    split
    · exact Confined.pure trivial
    · split
      · exact Confined.pure trivial
      · exact Confined.installFont env fd userId
  | uninstallFontWithUserId caller name userId =>
    apply Confined.value
    unfold FontManagerServer.uninstallFontWithUserId
    split
    · exact Confined.pure trivial
    · split
      · exact Confined.pure trivial
      · exact Confined.uninstallFont name userId
  | onFontObserver caller hasBinder =>
    apply Confined.value
    unfold FontManagerServer.onFontObserverInner
    split
    · exact Confined.pure trivial
    · exact Confined.trivially
        (Confined.step (o := .registry (.registerClient _ _ _ _)) ⟨rfl, hq⟩)
  | offFontObserver caller =>
    apply Confined.value
    unfold FontManagerServer.offFontObserverInner
    split
    · exact Confined.pure trivial
    · exact Confined.unregisterClient caller.tokenId
  | installScopeFont caller env fd scope srcPath =>
    exact Confined.value (Confined.installScopeFontInner hq env fd scope srcPath)
  | uninstallScopeFont caller srcPath =>
    apply Confined.value
    unfold FontManagerServer.uninstallScopeFontInner
    split
    · exact Confined.pure trivial
    · split
      · exact Confined.pure trivial
      · split
        · exact Confined.pure trivial
        · exact Confined.uninstallScopeFont srcPath _ _ _
  | getFontScope caller srcPath =>
    show Confined home _ _ (FontManagerServer.getFontScopeInner caller srcPath)
    unfold FontManagerServer.getFontScopeInner
    split
    · exact Confined.pure trivial
    · split
      · exact Confined.pure trivial
      · split
        · exact Confined.pure trivial
        · exact Confined.getFontScope srcPath _ _ _
  | clientDied tokenId => exact Confined.value (Confined.onClientDied tokenId)
  | cleanupAllScopeFontsOnBoot => exact hq.elim
  | cleanupUserScopeFonts userId =>
    apply Confined.value
    unfold FontManagerServer.cleanupUserScopeFonts
    split
    · exact Confined.pure trivial
    · exact Confined.cleanupScopeFontsByUser userId
  | cleanupAppScopeFontsOnStart => exact hq.elim

def users (home : Int → Int) : Isolation FontManagerServer.service.semantics Request Int where
  owner := account home
  acts := actsFor home
  sound := answers home
  same := SameFor home
  inv := Homed home
  trans _ _ _ _ h h' := h.trans h'
  replies w o io hw := answers_exec w o io hw
  keeps _ _ o io hact hw := homed_exec o io hact hw
  agrees _ _ _ o io hact hw _ h := same_exec o io hact hw h
  apart _ _ _ o io hne hact hw := apart_exec o io hne hact hw

theorem users_isolated {es : List (Event Request Io)} {s : System sig Request Int World}
    (hw : Homed home w) (hw' : Homed home w') (hsame : SameFor home k w w')
    (h : FontManagerServer.service.machine.Run (fun _ e => ∀ q, e = .spawn q → Separate home q)
      ⟨w, []⟩ es s) :
    ∃ fs s', FontManagerServer.service.machine.Run
        (fun _ e => ∀ q, e = .spawn q → account home q = k) ⟨w', []⟩ fs s' ∧
      s'.threads = s.threads.filter (fun t => decide (account home t.label = k)) ∧
      SameFor home k s.world s'.world ∧
      (fs.map Event.stamp).Sublist (es.map Event.stamp) := by
  obtain ⟨fs, s', hrun, hproj, hsub⟩ := projects (I := users home) (k := k)
    (fun _ q hok => (confined_program (hok q rfl)).always) hw hw' hsame h
  exact ⟨fs, s', hrun, hproj.threads, hproj.same, hsub⟩

theorem homed_provisioned (home : Int → Int) (userIds : List Int) :
    Homed home (.provisioned userIds) := by
  constructor
  · intro u key hkey
    rw [keys_provisioned] at hkey
    cases hkey
  · intro t info hinfo
    cases hinfo

section pair

def installer (userId : Int) : Caller := ⟨true, false, userId, userId, "bundle".toList⟩

def installs (userId : Int) : Request :=
  .installFont (installer userId) (Sample.noon 0) (Sample.sourceFont "A".toList 1)

def paired : Event Request Io → Bool
  | .spawn q => q = installs 100 || q = installs 101
  | .act _ _ => true

def turns : List (Event Request Io) :=
  [.spawn (installs 100), .spawn (installs 101)] ++
    (List.replicate 11 [.act 0 {}, .act 1 {}]).flatten

theorem separate_of_paired {e : Event Request Io} (h : paired e = true) {q : Request}
    (he : e = .spawn q) : Separate home q := by
  subst he
  rcases Bool.or_eq_true_iff.mp h with h | h
  · rw [of_decide_eq_true h]
    trivial
  · rw [of_decide_eq_true h]
    trivial

theorem turns_isolated :
    ∃ (s : System sig Request Int World) (fs : List (Event Request Io))
      (s' : System sig Request Int World), s.idle = true ∧ fontCount 100 s.world = 1 ∧ fontCount 101 s.world = 1 ∧
      FontManagerServer.service.machine.Run
        (fun _ e => ∀ q, e = .spawn q → account id q = 100) ⟨.provisioned [100, 101], []⟩ fs s' ∧
      s'.threads = s.threads.filter (fun t => decide (account id t.label = 100)) ∧
      SameFor id 100 s.world s'.world ∧ (fs.map Event.stamp).Sublist (turns.map Event.stamp) := by
  obtain ⟨s, hrun, hs⟩ := Machine.exists_run_of_replay (m := FontManagerServer.service.machine)
    (fun _ e => paired e)
    (fun s => s.idle && (fontCount 100 s.world == 1 && fontCount 101 s.world == 1))
    ⟨.provisioned [100, 101], []⟩ turns (by decide +kernel)
  simp only [Bool.and_eq_true, beq_iff_eq] at hs
  obtain ⟨hidle, hcount, hcount'⟩ := hs
  obtain ⟨fs, s', h⟩ := users_isolated (homed_provisioned id [100, 101])
    (homed_provisioned id [100, 101]) (.refl id 100 _)
    (hrun.mono fun _ e he q hq => separate_of_paired he hq)
  exact ⟨s, fs, s', hidle, hcount, hcount', h⟩

end pair

end UserIsolation
