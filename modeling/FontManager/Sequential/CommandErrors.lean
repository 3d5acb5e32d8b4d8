import FontManager.Sequential.ErrorCodes
import FontManager.Store.Effects

open FontDefine FontManagerUtils FontManager FontManagerKits Interaction Interaction.Program

def Line.errCode : Line → Option Str
  | .info _ => none
  | .response json => CJson.stringItem json "errCode".toList

def Exit.errCode (exit : Exit) : Option Str := exit.stdout.findSome? Line.errCode

namespace OhosFontManager

def namedErrors : List Str :=
  ["ERR_ARG_MISSING".toList, "ERR_ARG_INVALID".toList, "ERR_UNKNOWN_COMMAND".toList] ++
    errorTable.map fun entry => entry.errCode

example : "ERR_INTERNAL_ERROR".toList ∉ namedErrors := by decide

def Named (exit : Exit) : Prop := ∀ code ∈ exit.errCode, code ∈ namedErrors

section named

theorem named_cliLog {exit : Exit} (text : Str) (h : Named exit) : Named (cliLog text exit) := h

theorem named_status {exit : Exit} (status : Int) (h : Named exit) :
    Named { exit with status } := h

theorem errCode_outputError (info : ErrorInfo) :
    (outputError info).errCode = some (Text.cStr info.errCode) := rfl

theorem errCode_outputSuccess (data : Json) : (outputSuccess data).errCode = none := rfl

theorem named_outputError {info : ErrorInfo} (h : Text.cStr info.errCode ∈ namedErrors) :
    Named (outputError info) := by
  intro code hcode
  rw [errCode_outputError] at hcode
  exact Option.some.inj hcode ▸ h

theorem named_outputSuccess (data : Json) : Named (outputSuccess data) := by
  intro code hcode
  rw [errCode_outputSuccess] at hcode
  cases hcode

theorem named_unknown {errCode : String} (h : Text.cStr errCode.toList ∈ namedErrors) (name : Str) :
    Named (outputError (unknownCommand errCode name)) := named_outputError h

theorem named_help {exit : Exit} (h : ∀ line ∈ exit.stdout, line.errCode = none) : Named exit := by
  intro code hcode
  obtain ⟨line, hline, heq⟩ := List.exists_of_findSome?_eq_some hcode
  rw [h line hline] at heq
  cases heq

theorem named_cmdHelp (argv : List Str) : Named (cmdHelp argv) := by
  unfold cmdHelp
  split
  · exact named_help (List.forall_mem_map.mpr fun _ _ => rfl)
  · split
    · exact named_unknown (by decide) _
    · exact named_help (List.forall_mem_map.mpr fun _ _ => rfl)

theorem named_entry {entry : ErrorEntry} (h : entry ∈ errorTable) :
    Named (outputError entry.toErrorInfo) := by
  apply named_outputError
  have hnulFree : ∀ e ∈ errorTable, Text.cStr e.errCode = e.errCode := by decide
  rw [hnulFree entry h]
  exact List.mem_append_right _ (List.mem_map.mpr ⟨entry, h, rfl⟩)

-- The constants of the tool mirror those of the service, so every code of the service is found.
theorem mapFontError_entry {codes : List FontErrorCode}
    (htable : ∀ code ∈ codes, code = .ok ∨ ∃ e ∈ errorTable, e.code = code.value) {n : Int}
    (hn : Coded codes n) (hfail : n ≠ fmErrOk) :
    ∃ entry ∈ errorTable, entry.code = n ∧ mapFontError n = entry.toErrorInfo := by
  obtain ⟨code, hmem, rfl⟩ := hn
  rcases htable code hmem with rfl | ⟨e, he, heq⟩
  · exact absurd rfl hfail
  · unfold mapFontError
    split
    · next entry hfind =>
      have hcode := List.find?_some hfind
      exact ⟨entry, List.mem_of_find?_eq_some hfind, by simpa using hcode, rfl⟩
    · next hnone =>
      have hne := List.find?_eq_none.mp hnone e he
      simp [heq] at hne

theorem report_named {codes : List FontErrorCode}
    (htable : ∀ code ∈ codes, code = .ok ∨ ∃ e ∈ errorTable, e.code = code.value) {data : Json}
    {answer : Int × Int} (h : Answered codes answer) : Named (report data answer) := by
  have hret : ¬ answer.1 ≠ fmErrOk := not_not.mpr h.1
  rw [report, if_neg hret]
  split
  · next hfail =>
    obtain ⟨entry, hentry, -, heq⟩ := mapFontError_entry htable h.2 hfail
    rw [heq]
    exact named_entry hentry
  · exact named_outputSuccess data

end named

section runs

variable {conn : Connection} (hwork : conn.ipc.Working)
include hwork

theorem cmdInstall_named (argv : List Str) : Yields semantics (cmdInstall conn argv) Named := by
  unfold cmdInstall
  dsimp only
  split
  · exact .pure (named_outputError (by decide))
  · split
    · exact .pure (named_outputError (by decide))
    · apply (installFont_yields hwork _).map
      intro answer hanswer
      exact named_cliLog _ (report_named (by decide) hanswer)

theorem cmdUninstall_named (argv : List Str) : Yields semantics (cmdUninstall conn argv) Named := by
  unfold cmdUninstall
  dsimp only
  split
  · exact .pure (named_outputError (by decide))
  · split
    · exact .pure (named_outputError (by decide))
    · apply (uninstallFont_yields hwork _).map
      intro answer hanswer
      exact named_cliLog _ (report_named (by decide) hanswer)

theorem handler_named (handler : CommandHandler) (argv : List Str) :
    Yields semantics (handler.run conn argv) Named := by
  cases handler with
  | cmdHelp => exact .pure (named_cmdHelp argv)
  | cmdInstall => exact cmdInstall_named hwork argv
  | cmdUninstall => exact cmdUninstall_named hwork argv

theorem main_named (argv : List Str) : Yields semantics (main conn argv) Named := by
  unfold main
  split
  · split
    · exact .pure (named_status 0 (named_cmdHelp _))
    · split
      · exact .pure (named_status 0 (named_cmdHelp _))
      · split
        · exact .pure (named_unknown (by decide) _)
        · exact handler_named hwork _ _
  · exact .pure (named_outputError (by decide))

end runs

section occurrences

def Occurs (entry : ErrorEntry) : Prop :=
  ∃ conn : Connection, conn.ipc.Working ∧ ∃ argv w ios text,
    ((main conn argv).run semantics w ios).1 = cliLog text (outputError entry.toErrorInfo)

def fontFile : Str := "/font.ttf".toList
def plainFile : Str := "/plain.txt".toList

def disk : FileSystem where
  realpath path := if path = fontFile ∨ path = plainFile then some path else none
  access _ := true
  openFile path := some ⟨some path, [1], if path = fontFile then ["Sans".toList] else []⟩
  canonical p q h := by
    split at h
    · next hpath =>
      obtain rfl := Option.some.inj h
      rcases hpath with rfl | rfl
      · decide
      · decide
    · cases h

def shell (updateFont : Bool) (userId : Int) (second : Nat) : Connection where
  fs := disk
  ipc := .answers
  caller := ⟨updateFont, false, 7, userId, "shell".toList⟩
  env := Sample.noon second

theorem shell_working (updateFont : Bool) (userId : Int) (second : Nat) :
    (shell updateFont userId second).ipc.Working := fun _ _ h => nomatch h

def installLine (path : Str) : List Str :=
  [programName, "install".toList, "--font-path".toList, path]

def uninstallLine : List Str := [programName, "uninstall".toList, "--font-name=Sans".toList]

def device : World := .provisioned [100]

def installed : World :=
  ((FontManagerKits.installFont (shell true 100 0) fontFile).run semantics device []).2

def crowded : World where
  tree := device.tree.put (configLoc 100) (.document (.object [(FontConfig.fontList,
    .array (List.replicate 200 (FontConfig.constructCJSON installPathApp ["Serif".toList])))]))
  registry := device.registry
  maxInstallNum := device.maxInstallNum
  createdUserIds := device.createdUserIds
  published := device.published

def failsAt (n : Nat) : List Io := List.replicate n default ++ [{ ok := false }]

def install (conn : Connection) (path : Str) (w : World) (ios : List Io) : Int × Int :=
  ((FontManagerKits.installFont conn path).run semantics w ios).1

def uninstall (conn : Connection) (w : World) (ios : List Io) : Int × Int :=
  ((FontManagerKits.uninstallFont conn "Sans".toList).run semantics w ios).1

theorem main_install (conn : Connection) {path : Str}
    (hpath : path = fontFile ∨ path = plainFile ∨ path = ['/']) :
    main conn (installLine path) = (do
      let answer ← FontManagerKits.installFont conn path
      pure (cliLog ("Installing font from path: ".toList ++ path)
        (report (installData path) answer))) := by
  rcases hpath with rfl | rfl | rfl
  · rfl
  · rfl
  · rfl

theorem main_uninstall (conn : Connection) :
    main conn uninstallLine = (do
      let answer ← FontManagerKits.uninstallFont conn "Sans".toList
      pure (cliLog "Uninstalling font: Sans".toList
        (report (uninstallData "Sans".toList) answer))) := rfl

theorem mapFontError_code : ∀ e ∈ errorTable, mapFontError e.code = e.toErrorInfo := by
  intro e he
  simp only [errorTable, List.mem_cons, List.not_mem_nil, or_false] at he
  rcases he with rfl | rfl | rfl | rfl | rfl | rfl | rfl | rfl | rfl | rfl <;> rfl

variable {e : ErrorEntry} {conn : Connection} {w : World} {ios : List Io}

theorem report_entry (he : e ∈ errorTable) (data : Json) :
    report data (fmErrOk, e.code) = outputError e.toErrorInfo := by
  have hfail : ∀ e ∈ errorTable, e.code ≠ fmErrOk := by decide
  rw [report, if_neg (not_not.mpr rfl), if_pos (hfail e he), mapFontError_code e he]

theorem occurs_of_install (hwork : conn.ipc.Working) {path : Str}
    (hpath : path = fontFile ∨ path = plainFile ∨ path = ['/']) (he : e ∈ errorTable)
    (h : install conn path w ios = (fmErrOk, e.code)) : Occurs e := by
  refine ⟨conn, hwork, installLine path, w, ios, "Installing font from path: ".toList ++ path, ?_⟩
  rw [main_install conn hpath, run_map]
  change cliLog _ (report _ (install conn path w ios)) = _
  rw [h, report_entry he]

theorem occurs_of_uninstall (hwork : conn.ipc.Working) (he : e ∈ errorTable)
    (h : uninstall conn w ios = (fmErrOk, e.code)) : Occurs e := by
  refine ⟨conn, hwork, uninstallLine, w, ios, "Uninstalling font: Sans".toList, ?_⟩
  rw [main_uninstall conn, run_map]
  change cliLog _ (report _ (uninstall conn w ios)) = _
  rw [h, report_entry he]

theorem entries_occur : ∀ e ∈ errorTable, Occurs e := by
  have denied : install (shell false 100 0) fontFile device [] = (fmErrOk, fmErrNoPermission) := by
    decide +kernel
  have absent : install (shell true 100 0) ['/'] device [] = (fmErrOk, fmErrFileNotExists) := by
    decide +kernel
  have unsupported :
      install (shell true 100 0) plainFile device [] = (fmErrOk, fmErrFileVerifyFail) := by
    decide +kernel
  have uncopied :
      install (shell true 100 0) fontFile device (failsAt 6) = (fmErrOk, fmErrCopyFail) := by
    decide +kernel
  have repeated :
      install (shell true 100 1) fontFile installed [] = (fmErrOk, fmErrInstalledAlready) := by
    decide +kernel
  have full : install (shell true 100 1) fontFile crowded [] = (fmErrOk, fmErrMaxFileCount) := by
    decide +kernel
  have homeless : install (shell true (-1) 0) fontFile device [] = (fmErrOk, fmErrInstallFail) := by
    decide +kernel
  have unknown : uninstall (shell true 100 0) device [] = (fmErrOk, fmErrUninstallFileNotExists) := by
    decide +kernel
  have unremoved :
      uninstall (shell true 100 0) installed (failsAt 5) = (fmErrOk, fmErrUninstallRemoveFail) := by
    decide +kernel
  have userless : uninstall (shell true (-1) 0) device [] = (fmErrOk, fmErrUninstallFail) := by
    decide +kernel
  intro e he
  have hcases := he
  simp only [errorTable, List.mem_cons, List.not_mem_nil, or_false] at hcases
  rcases hcases with rfl | rfl | rfl | rfl | rfl | rfl | rfl | rfl | rfl | rfl
  · exact occurs_of_install (shell_working _ _ _) (Or.inl rfl) he denied
  · exact occurs_of_install (shell_working _ _ _) (Or.inr (Or.inr rfl)) he absent
  · exact occurs_of_install (shell_working _ _ _) (Or.inr (Or.inl rfl)) he unsupported
  · exact occurs_of_install (shell_working _ _ _) (Or.inl rfl) he uncopied
  · exact occurs_of_install (shell_working _ _ _) (Or.inl rfl) he repeated
  · exact occurs_of_install (shell_working _ _ _) (Or.inl rfl) he full
  · exact occurs_of_install (shell_working _ _ _) (Or.inl rfl) he homeless
  · exact occurs_of_uninstall (shell_working _ _ _) he unknown
  · exact occurs_of_uninstall (shell_working _ _ _) he unremoved
  · exact occurs_of_uninstall (shell_working _ _ _) he userless

end occurrences

theorem errors_named :
    (∀ conn : Connection, conn.ipc.Working → ∀ argv w ios,
      Named ((main conn argv).run semantics w ios).1) ∧
    ∀ entry ∈ errorTable, Occurs entry :=
  ⟨fun _ hwork argv w ios => (main_named hwork argv).run w ios, entries_occur⟩

end OhosFontManager
