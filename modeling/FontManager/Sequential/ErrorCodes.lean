import FontManager.Interaction.Outcomes
import FontManager.Source.Cli

open FontDefine FontManagerUtils Interaction Interaction.Program

abbrev Answers (task : FontTask FontErrorCode) (codes : List FontErrorCode) : Prop :=
  Yields semantics task (· ∈ codes)

theorem answers_mono {task : FontTask FontErrorCode} {codes codes' : List FontErrorCode}
    (h : Answers task codes) (hsub : ∀ code ∈ codes, code ∈ codes') : Answers task codes' :=
  Yields.mono h hsub

namespace FontManager

section codes

theorem insert_answers (path : Str) (names : List Str) (limit userId : Int) :
    Answers (config userId (.insertFontRecordIfUnderLimit path names limit))
      [.ok, .maxFileCount, .installFail] := by
  apply Yields.perform
  intro w io
  change (w.applyEdit (configPath userId) io.write
    (FontConfig.insertFontRecordIfUnderLimit path names limit
      (w.checkConfigFile userId io.ok))).1 ∈ _
  cases w.checkConfigFile userId io.ok with
  | none => simp [FontConfig.insertFontRecordIfUnderLimit, World.applyEdit]
  | some jsonValue =>
    rw [FontConfig.insertFontRecordIfUnderLimit]
    split
    · simp [World.applyEdit]
    · split
      · simp [World.applyEdit]
      · split
        · simp [World.applyEdit]
        · rw [World.applyEdit]
          split <;> simp

theorem fixStaleRecords_yields (userId : Int) (installPath : Str) (names : List Str) :
    Yields semantics (fixStaleRecords userId installPath names)
      fun r => ∀ code, r = some code → code ∈ [FontErrorCode.installedAlrady, .installFail] := by
  induction names with
  | nil => exact Yields.pure fun code h => nomatch h
  | cons name rest ih =>
    apply Yields.after
    intro findPath
    split
    · exact ih
    · apply Yields.after
      intro present
      split
      · exact Yields.pure fun code h => by simp [← Option.some.inj h]
      · apply Yields.after
        intro deleted
        split
        · exact ih
        · exact Yields.pure fun code h => by simp [← Option.some.inj h]

def copyCodes : List FontErrorCode := [.ok, .copyFail, .maxFileCount, .installFail]

theorem copyAndInsertFont_answers (env : Env) (fd : Fd) (userId : Int) (names : List Str)
    (limit : Int) : Answers (copyAndInsertFont env fd userId names limit) copyCodes := by
  apply Yields.after
  intro destPath
  split
  · exact Yields.pure (by decide)
  · apply (insert_answers _ _ _ _).bind
    intro insertRet hcode
    have hsub : ∀ code ∈ [FontErrorCode.ok, .maxFileCount, .installFail], code ∈ copyCodes := by
      decide
    have hmem := hsub insertRet hcode
    split
    · exact Yields.after fun _ => Yields.pure hmem
    · exact Yields.after fun _ => Yields.pure (by decide)

def installCodes : List FontErrorCode :=
  [.ok, .noPermission, .fileNotExists, .fileVerifyFail, .copyFail, .installedAlrady, .maxFileCount,
    .installFail]

theorem installFont_answers (env : Env) (fd : Fd) (userId : Int) :
    Answers (installFont env fd userId) installCodes := by
  apply Yields.after
  intro ready
  split
  · dsimp only
    split
    · exact Yields.pure (by decide)
    · apply (fixStaleRecords_yields _ _ _).bind
      intro stale hstale
      cases stale with
      | some code =>
        have hsub : ∀ code ∈ [FontErrorCode.installedAlrady, .installFail], code ∈ installCodes := by
          decide
        exact Yields.pure (hsub code (hstale code rfl))
      | none =>
        apply Yields.after
        intro limit
        apply Yields.after
        intro installed
        split
        · exact Yields.pure (by decide)
        · exact answers_mono (copyAndInsertFont_answers _ _ _ _ _) (by decide)
  · exact Yields.pure (by decide)

def uninstallCodes : List FontErrorCode :=
  [.ok, .noPermission, .uninstallFileNotExists, .uninstallRemoveFail, .uninstallFail]

theorem uninstallFont_answers (name : Str) (userId : Int) :
    Answers (uninstallFont name userId) uninstallCodes := by
  unfold uninstallFont
  split
  · exact Yields.pure (by decide)
  · apply Yields.after
    intro record
    cases record with
    | none => exact Yields.pure (by decide)
    | some record =>
      dsimp only
      split
      · exact Yields.pure (by decide)
      · apply Yields.after
        intro realPath
        split
        · exact Yields.pure (by decide)
        · apply Yields.after
          intro removed
          split
          · apply Yields.after
            intro deleted
            split
            · exact Yields.after fun _ => Yields.pure (by decide)
            · exact Yields.pure (by decide)
          · exact Yields.pure (by decide)

def validateCodes : List FontErrorCode := [.ok, .installedAlrady, .maxFileCount, .fileVerifyFail]

theorem validateScopeFontForInstall_answers (userId : Int) (srcPath : Str) (fd : Fd) :
    Answers (validateScopeFontForInstall userId srcPath fd) validateCodes := by
  apply Yields.after
  intro record
  split
  · exact Yields.pure (by decide)
  · apply Yields.after
    intro limit
    apply Yields.after
    intro installed
    split
    · exact Yields.pure (by decide)
    · split
      · exact Yields.pure (by decide)
      · apply Yields.after
        intro found
        split
        · exact Yields.pure (by decide)
        · exact Yields.pure (by decide)

theorem copyAndInsertScopeFont_answers (env : Env) (info : ScopeFontInstallInfo) :
    Answers (copyAndInsertScopeFont env info) [.ok, .copyFail, .systemError] := by
  apply Yields.after
  intro ready
  split
  · apply Yields.after
    intro destPath
    split
    · exact Yields.pure (by decide)
    · apply Yields.after
      intro inserted
      split
      · exact Yields.pure (by decide)
      · exact Yields.after fun _ => Yields.pure (by decide)
  · exact Yields.pure (by decide)

def installScopeCodes : List FontErrorCode :=
  [.ok, .noPermission, .invalidParam, .fileNotExists, .fileVerifyFail, .copyFail, .installedAlrady,
    .maxFileCount, .systemError, .scopeFontNotRegistered]

theorem installScopeFont_answers (env : Env) (info : ScopeFontInstallInfo) :
    Answers (installScopeFont env info) installScopeCodes := by
  have hvalidate : ∀ code ∈ validateCodes, code ∈ installScopeCodes := by decide
  have hcopy : ∀ code ∈ [FontErrorCode.ok, .copyFail, .systemError], code ∈ installScopeCodes := by
    decide
  unfold installScopeFont
  split
  · exact Yields.pure (by decide)
  · apply Yields.after
    intro ready
    split
    · apply Yields.after
      intro updated
      split
      · apply (validateScopeFontForInstall_answers _ _ _).bind
        intro ret hret
        split
        · exact Yields.pure (hvalidate ret hret)
        · apply (copyAndInsertScopeFont_answers _ _).bind
          intro ret hret
          split
          · exact Yields.pure (hcopy ret hret)
          · exact Yields.after fun _ => Yields.pure (by decide)
      · exact Yields.pure (by decide)
    · exact Yields.pure (by decide)

def uninstallScopeCodes : List FontErrorCode :=
  [.ok, .noPermission, .uninstallRemoveFail, .systemError, .scopeFontNotFound]

theorem uninstallScopeFont_answers (srcPath bundleName : Str) (tokenId userId : Int) :
    Answers (uninstallScopeFont srcPath bundleName tokenId userId) uninstallScopeCodes := by
  unfold uninstallScopeFont
  split
  · exact Yields.pure (by decide)
  · apply Yields.after
    intro record
    cases record with
    | none => exact Yields.pure (by decide)
    | some record =>
      dsimp only
      split
      · apply Yields.after
        intro realPath
        apply Yields.after
        intro removed
        split
        · apply Yields.after
          intro deleted
          split
          · exact Yields.after fun _ => Yields.pure (by decide)
          · exact Yields.pure (by decide)
        · exact Yields.pure (by decide)
      · exact Yields.pure (by decide)

end codes

end FontManager

namespace FontClientRegistry

def observeCodes : List FontErrorCode :=
  [.ok, .noPermission, .scopeFontRepeatedRegister, .scopeFontExceedRegisterLimit, .systemError]

theorem registerClient_answers (hasBinder : Bool) (bundleName : Str) (userId tokenId : Int) :
    Answers (perform (.registerClient hasBinder bundleName userId tokenId)) observeCodes := by
  apply Yields.perform
  intro w io
  change (w.registry.registerClient hasBinder io.ok bundleName userId tokenId).1 ∈ _
  unfold registerClient
  split
  · simp [observeCodes]
  · split
    · simp [observeCodes]
    · split
      · simp [observeCodes]
      · split <;> simp [observeCodes]

def unobserveCodes : List FontErrorCode := [.ok, .noPermission, .scopeFontNotRegistered]

theorem unregisterClient_answers (tokenId : Int) :
    Answers (unregisterClient tokenId) unobserveCodes := by
  apply Yields.after
  intro client
  cases client with
  | none => exact Yields.pure (by decide)
  | some client => exact Yields.after fun _ => Yields.pure (by decide)

end FontClientRegistry

def Coded (codes : List FontErrorCode) (n : Int) : Prop := ∃ code ∈ codes, n = code.value

namespace FontManagerServer

open FontManager

section inner

variable {caller : Caller}

theorem value_yields {task : FontTask FontErrorCode} {codes : List FontErrorCode}
    (h : Answers task codes) : Yields semantics (value task) (Coded codes) :=
  h.map fun code hcode => ⟨code, hcode, rfl⟩

theorem installFontInner_answers (env : Env) (fd : Fd) :
    Answers (installFontInner caller env fd) installCodes := by
  unfold installFontInner
  split
  · exact Yields.pure (by decide)
  · split
    · exact Yields.pure (by decide)
    · exact installFont_answers _ _ _

theorem uninstallFontInner_answers (fontName : Str) :
    Answers (uninstallFontInner caller fontName) uninstallCodes := by
  unfold uninstallFontInner
  split
  · exact Yields.pure (by decide)
  · split
    · exact Yields.pure (by decide)
    · exact uninstallFont_answers _ _

theorem installRegistered_answers (env : Env) (fd : Fd) (scope : Int) (srcPath : Str) :
    Answers (installRegistered caller env fd scope srcPath) installScopeCodes := by
  unfold installRegistered
  split
  · exact Yields.pure (by decide)
  · exact installScopeFont_answers _ _

theorem installScopeFontInner_answers (env : Env) (fd : Fd) (scope : Int) (srcPath : Str) :
    Answers (installScopeFontInner caller env fd scope srcPath) installScopeCodes := by
  unfold installScopeFontInner
  split
  · exact Yields.pure (by decide)
  · split
    · exact Yields.pure (by decide)
    · split
      · exact Yields.pure (by decide)
      · split
        · apply Yields.after
          intro registered
          split
          · exact installRegistered_answers _ _ _ _
          · exact Yields.pure (by decide)
        · exact installRegistered_answers _ _ _ _

theorem uninstallScopeFontInner_answers (srcPath : Str) :
    Answers (uninstallScopeFontInner caller srcPath) uninstallScopeCodes := by
  unfold uninstallScopeFontInner
  split
  · exact Yields.pure (by decide)
  · split
    · exact Yields.pure (by decide)
    · split
      · exact Yields.pure (by decide)
      · exact uninstallScopeFont_answers _ _ _ _

theorem onFontObserverInner_answers (hasBinder : Bool) :
    Answers (onFontObserverInner caller hasBinder) FontClientRegistry.observeCodes := by
  unfold onFontObserverInner
  split
  · exact Yields.pure (by decide)
  · exact FontClientRegistry.registerClient_answers _ _ _ _

theorem offFontObserverInner_answers :
    Answers (offFontObserverInner caller) FontClientRegistry.unobserveCodes := by
  unfold offFontObserverInner
  split
  · exact Yields.pure (by decide)
  · exact FontClientRegistry.unregisterClient_answers _

end inner

end FontManagerServer

def Ipc.Working (ipc : Ipc) : Prop := ∀ error delivered, ipc ≠ .fails error delivered

namespace FontManagerKits

open FontManager FontManagerServer

def Answered (codes : List FontErrorCode) (answer : Int × Int) : Prop :=
  answer.1 = FontErrorCode.ok.value ∧ Coded codes answer.2

section answers

variable {conn : Connection} (hwork : conn.ipc.Working)
include hwork

theorem transact_yields {P : PFunctor.{0, 0}} {W : Type} {m : Semantics P W Io} {absent : Int × Int}
    {task : Program P Int} {answer : Int → Int × Int} {Q : Int → Prop} {S : Int × Int → Prop}
    (habsent : S absent) (htask : Yields m task Q) (hanswer : ∀ n, Q n → S (answer n)) :
    Yields m (transact conn.ipc absent task answer) S := by
  unfold transact
  split
  · exact Yields.pure habsent
  · next heq => exact absurd heq (hwork _ _)
  · exact htask.map hanswer

theorem installFont_yields (fontPath : Str) :
    Yields semantics (installFont conn fontPath) (Answered installCodes) := by
  unfold installFont
  split
  · exact Yields.pure ⟨rfl, .fileNotExists, by decide, rfl⟩
  · exact transact_yields hwork ⟨rfl, .installFail, by decide, rfl⟩
      (value_yields (installFontInner_answers _ _)) fun n hn => ⟨rfl, hn⟩

theorem uninstallFont_yields (fontName : Str) :
    Yields semantics (uninstallFont conn fontName) (Answered uninstallCodes) :=
  transact_yields hwork ⟨rfl, .uninstallFail, by decide, rfl⟩
    (value_yields (uninstallFontInner_answers _)) fun n hn => ⟨rfl, hn⟩

theorem installScopeFont_yields (fontPath : Str) (scope : Int) :
    Yields semantics (installScopeFont conn fontPath scope) (Answered installScopeCodes) := by
  unfold installScopeFont
  split
  · exact Yields.pure ⟨rfl, .fileNotExists, by decide, rfl⟩
  · exact transact_yields hwork ⟨rfl, .systemError, by decide, rfl⟩
      (value_yields (installScopeFontInner_answers _ _ _ _)) fun n hn => ⟨rfl, hn⟩

theorem uninstallScopeFont_yields (srcPath : Str) :
    Yields semantics (uninstallScopeFont conn srcPath) (Answered uninstallScopeCodes) :=
  transact_yields hwork ⟨rfl, .systemError, by decide, rfl⟩
    (value_yields (uninstallScopeFontInner_answers _)) fun n hn => ⟨rfl, hn⟩

theorem request_yields {P : PFunctor.{0, 0}} {W : Type} {m : Semantics P W Io}
    {absent : FontErrorCode} {task : Program P Int} {codes : List FontErrorCode}
    (habsent : absent ∈ codes) (htask : Yields m task (Coded codes)) :
    Yields m (request conn.ipc absent task) (Coded codes) :=
  (transact_yields (S := fun answer => Coded codes answer.1) hwork ⟨absent, habsent, rfl⟩ htask
    fun _ hn => hn).map fun _ h => h

theorem onFontObserver_yields :
    Yields semantics (onFontObserver conn) (Coded FontClientRegistry.observeCodes) :=
  request_yields hwork (by decide) (value_yields (onFontObserverInner_answers _))

theorem offFontObserver_yields :
    Yields semantics (offFontObserver conn)
      (Coded (.systemError :: FontClientRegistry.unobserveCodes)) :=
  request_yields hwork (by decide)
    (value_yields (answers_mono offFontObserverInner_answers (by decide)))

end answers

end FontManagerKits
