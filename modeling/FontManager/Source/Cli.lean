import FontManager.Source.Kits

open FontDefine FontManagerUtils CJson FontConfig

structure ErrorInfo where
  errCode : Str
  errMsg : Str
  suggestion : Str
deriving DecidableEq

structure ErrorEntry extends ErrorInfo where
  code : Int

inductive Line where
  | info (text : Str)
  | response (json : Json)

structure Exit where
  status : Int
  stdout : List Line

namespace OhosFontManager

section errors

def fmErrOk : Int := 0
def fmErrNoPermission : Int := 201
def fmErrFileNotExists : Int := 31100101
def fmErrFileVerifyFail : Int := 31100102
def fmErrCopyFail : Int := 31100103
def fmErrInstalledAlready : Int := 31100104
def fmErrMaxFileCount : Int := 31100105
def fmErrInstallFail : Int := 31100106
def fmErrUninstallFileNotExists : Int := 31100107
def fmErrUninstallRemoveFail : Int := 31100108
def fmErrUninstallFail : Int := 31100109

def entry (code : Int) (errCode errMsg suggestion : String) : ErrorEntry :=
  ⟨⟨errCode.toList, errMsg.toList, suggestion.toList⟩, code⟩

def errorTable : List ErrorEntry :=
  [entry fmErrNoPermission "ERR_PERMISSION_DENIED"
      ("Permission verification failed. The application does not " ++
        "have the permission required to call the API.")
      "Add ohos.permission.UPDATE_FONT in module.json5 and ensure granted",
    entry fmErrFileNotExists "ERR_RESOURCE_NOT_FOUND" "The font does not exist."
      "Verify the font file path is correct and the file is readable",
    entry fmErrFileVerifyFail "ERR_FM_FILE_VERIFY_FAIL" "The font is not supported."
      "Use a valid font file format such as .ttf or .otf",
    entry fmErrCopyFail "ERR_FM_COPY_FAIL" "Failed to copy the font file."
      "Check storage space and write permissions on font directory",
    entry fmErrInstalledAlready "ERR_RESOURCE_EXISTS" "The font file is installed."
      "Use 'ohos-fontManager uninstall --font-name <name>' to remove first",
    entry fmErrMaxFileCount "ERR_FM_MAX_COUNT" "Exceeded the maximum number of installed files."
      "Uninstall unused fonts before installing new ones",
    entry fmErrInstallFail "ERR_FM_INSTALL_FAIL" "The system ability works abnormally."
      "Check if font_manager service (SA ID 66262) is running and retry",
    entry fmErrUninstallFileNotExists "ERR_RESOURCE_NOT_FOUND" "The font file does not exist."
      "Verify the font name is correct and the font is installed",
    entry fmErrUninstallRemoveFail "ERR_FM_REMOVE_FAIL" "Failed to delete the font file."
      "Check file permissions on the font directory and retry",
    entry fmErrUninstallFail "ERR_FM_UNINSTALL_FAIL" "The system ability works abnormally."
      "Check if font_manager service (SA ID 66262) is running and retry"]

def unknownError (code : Int) : ErrorInfo where
  errCode := "ERR_INTERNAL_ERROR".toList
  errMsg := "Unknown error code: ".toList ++ Text.decimal code
  suggestion := "Contact system administrator for support".toList

def mapFontError (code : Int) : ErrorInfo :=
  match errorTable.find? fun entry => entry.code = code with
  | some entry => entry.toErrorInfo
  | none => unknownError code

end errors

section output

def addStringToObject (name : String) (value : Str) (object : Json) : Json :=
  addItemToObject name.toList (createString value) object

def successResponse (data : Json) : Json :=
  addItemToObject "data".toList data
    (addStringToObject "status" "success".toList
      (addStringToObject "type" "result".toList (.object [])))

def errorResponse (info : ErrorInfo) : Json :=
  addStringToObject "suggestion" info.suggestion
    (addStringToObject "errMsg" info.errMsg
      (addStringToObject "errCode" info.errCode
        (addStringToObject "status" "failed".toList
          (addStringToObject "type" "result".toList (.object [])))))

def outputSuccess (data : Json) : Exit := ⟨0, [.response (successResponse data)]⟩

def outputError (info : ErrorInfo) : Exit := ⟨1, [.response (errorResponse info)]⟩

def cliLog (text : Str) (exit : Exit) : Exit := { exit with stdout := .info text :: exit.stdout }

end output

section parsing

def flagForm (name : Str) : Str := "--".toList ++ name

def equalPrefix (name : Str) : Str := "--".toList ++ name ++ ['=']

def parseStringOption (name : Str) : List Str → Str
  | [] => []
  | arg :: rest =>
    if arg = flagForm name ∧ rest ≠ [] then rest.headD []
    else if (equalPrefix name).isPrefixOf arg then arg.drop (equalPrefix name).length
    else parseStringOption name rest

end parsing

section help

inductive CommandHandler where
  | cmdHelp
  | cmdInstall
  | cmdUninstall
deriving DecidableEq

structure Command where
  name : Str
  description : Str
  usage : Str
  parameters : Str
  examples : Str
  handler : CommandHandler

def programName : Str := "ohos-fontManager".toList

def helpCmd : Command where
  name := "help".toList
  description := "Show this help message".toList
  usage := "ohos-fontManager help [command]".toList
  parameters := "    command          Optional. Show detailed help for a specific command.".toList
  examples := ("    ohos-fontManager help\n" ++ "    ohos-fontManager help install").toList
  handler := .cmdHelp

def installCmd : Command where
  name := "install".toList
  description := "Install a font from a local file into the system font directory".toList
  usage := "ohos-fontManager install --font-path <path>".toList
  parameters := ("    --font-path <path>  Required. Font file path to install " ++
    "(must exist and be readable, e.g., .ttf or .otf)").toList
  examples := ("    # Install a font from local file\n" ++
    "    ohos-fontManager install --font-path /data/local/tmp/custom.ttf").toList
  handler := .cmdInstall

def uninstallCmd : Command where
  name := "uninstall".toList
  description := "Uninstall an installed font by name from the system".toList
  usage := "ohos-fontManager uninstall --font-name <name>".toList
  parameters := ("    --font-name <name>  Required. Font name to uninstall " ++
    "(the installed font name, not a file path)").toList
  examples := ("    # Uninstall a font by name\n" ++
    "    ohos-fontManager uninstall --font-name CustomFont").toList
  handler := .cmdUninstall

def commands : List Command := [helpCmd, installCmd, uninstallCmd]

def findCommand (name : Str) : Option Command := commands.find? fun cmd => cmd.name = name

def printGlobalHelp : List Line :=
  ["ohos-fontManager - Font management CLI tool for installing and uninstalling system fonts",
    "", "Usage:", "  ohos-fontManager <command> [options]", "", "Parameters:",
    "  --help                  Display this help message", "", "SubCommands:",
    "  install                 Install a font from a local file",
    "  uninstall               Uninstall an installed font by name", "", "Examples:",
    "  ohos-fontManager install --font-path /data/local/tmp/custom.ttf",
    "  ohos-fontManager uninstall --font-name CustomFont",
    "  ohos-fontManager install --help"].map fun text : String => .info text.toList

def helpOption : Str := "    --help             Display this help message".toList

def printCommandHelp (cmd : Command) : List Line :=
  [programName ++ [' '] ++ cmd.name ++ " - ".toList ++ cmd.description, [], "Usage:".toList,
    "  ".toList ++ cmd.usage, [], "Parameters:".toList, cmd.parameters, helpOption, [],
    "Examples:".toList, cmd.examples].map .info

def seeHelp : Str := "Run 'ohos-fontManager --help' to see available commands".toList

def unknownCommand (errCode : String) (name : Str) : ErrorInfo :=
  ⟨errCode.toList, "Unknown command: ".toList ++ name, seeHelp⟩

-- The loop over the arguments starts at the second.
def helpTarget (argv : List Str) : Str :=
  (argv.tail.find? fun arg => arg.head? ≠ some '-').getD []

def cmdHelp (argv : List Str) : Exit :=
  if helpTarget argv = [] then ⟨0, printGlobalHelp⟩
  else
    match findCommand (helpTarget argv) with
    | none => outputError (unknownCommand "ERR_ARG_INVALID" (helpTarget argv))
    | some cmd => ⟨0, printCommandHelp cmd⟩

end help

section commands

def maxFontPathLen : Nat := 4096
def maxFontNameLen : Nat := 256

def pathMissing : ErrorInfo where
  errCode := "ERR_ARG_MISSING".toList
  errMsg := ("Missing required parameter: --font-path. " ++
    "Context: install command requires a font file path").toList
  suggestion := ("Provide a valid font file path. " ++
    "Example: ohos-fontManager install --font-path /data/local/tmp/custom.ttf").toList

def pathTooLong : ErrorInfo where
  errCode := "ERR_ARG_INVALID".toList
  errMsg := "Font path exceeds maximum length (4096)".toList
  suggestion := "Provide a shorter file path".toList

def nameMissing : ErrorInfo where
  errCode := "ERR_ARG_MISSING".toList
  errMsg := ("Missing required parameter: --font-name. " ++
    "Context: uninstall command requires a font name").toList
  suggestion := ("Provide a valid font name. " ++
    "Example: ohos-fontManager uninstall --font-name CustomFont").toList

def nameTooLong : ErrorInfo where
  errCode := "ERR_ARG_INVALID".toList
  errMsg := "Font name exceeds maximum length (256)".toList
  suggestion := "Provide a shorter font name".toList

def transactionFailed (ret : Int) : ErrorInfo where
  errCode := "ERR_INTERNAL_ERROR".toList
  errMsg := "Font service IPC call failed with code ".toList ++ Text.decimal ret
  suggestion := "Check if font_manager service (SA ID 66262) is running and retry".toList

def report (data : Json) (answer : Int × Int) : Exit :=
  if answer.1 ≠ fmErrOk then outputError (transactionFailed answer.1)
  else if answer.2 ≠ fmErrOk then outputError (mapFontError answer.2)
  else outputSuccess data

def installData (fontPath : Str) : Json :=
  addStringToObject "fontPath" fontPath
    (addStringToObject "message" "Font installed successfully".toList (.object []))

def uninstallData (fontName : Str) : Json :=
  addStringToObject "fontName" fontName
    (addStringToObject "message" "Font uninstalled successfully".toList (.object []))

variable (conn : Connection)

def cmdInstall (argv : List Str) : FontTask Exit :=
  let fontPath := parseStringOption "font-path".toList argv
  if fontPath = [] then pure (outputError pathMissing)
  else if fontPath.length > maxFontPathLen then pure (outputError pathTooLong)
  else do
    let answer ← FontManagerKits.installFont conn fontPath
    pure (cliLog ("Installing font from path: ".toList ++ fontPath)
      (report (installData fontPath) answer))

def cmdUninstall (argv : List Str) : FontTask Exit :=
  let fontName := parseStringOption "font-name".toList argv
  if fontName = [] then pure (outputError nameMissing)
  else if fontName.length > maxFontNameLen then pure (outputError nameTooLong)
  else do
    let answer ← FontManagerKits.uninstallFont conn fontName
    pure (cliLog ("Uninstalling font: ".toList ++ fontName)
      (report (uninstallData fontName) answer))

def CommandHandler.run : CommandHandler → List Str → FontTask Exit
  | .cmdHelp, argv => pure (OhosFontManager.cmdHelp argv)
  | .cmdInstall, argv => OhosFontManager.cmdInstall conn argv
  | .cmdUninstall, argv => OhosFontManager.cmdUninstall conn argv

def helpFlag : Str := "--help".toList

def noCommand : ErrorInfo := ⟨"ERR_ARG_MISSING".toList, "No command provided".toList, seeHelp⟩

def main (argv : List Str) : FontTask Exit :=
  match argv with
  | program :: cmdName :: args =>
    if cmdName = helpFlag then pure { cmdHelp [program] with status := 0 }
    else if helpFlag ∈ args then pure { cmdHelp [program, cmdName] with status := 0 }
    else
      match findCommand cmdName with
      | none => pure (outputError (unknownCommand "ERR_UNKNOWN_COMMAND" cmdName))
      | some cmd => cmd.handler.run conn args
  | _ => pure (outputError noCommand)

end commands

end OhosFontManager
