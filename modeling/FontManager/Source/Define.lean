import FontManager.Collection.Text

inductive FontErrorCode where
  | ok
  | noPermission
  | notSystemApp
  | invalidParam
  | fileNotExists
  | fileVerifyFail
  | copyFail
  | installedAlrady
  | maxFileCount
  | installFail
  | uninstallFileNotExists
  | uninstallRemoveFail
  | uninstallFail
  | systemError
  | dataMigrationing
  | scopeFontNotFound
  | scopeFontRepeatedRegister
  | scopeFontExceedRegisterLimit
  | scopeFontNotRegistered
deriving DecidableEq, Repr

def FontErrorCode.value : FontErrorCode → Int
  | .ok => 0
  | .noPermission => 201
  | .notSystemApp => 202
  | .invalidParam => 401
  | .fileNotExists => 31100101
  | .fileVerifyFail => 31100102
  | .copyFail => 31100103
  | .installedAlrady => 31100104
  | .maxFileCount => 31100105
  | .installFail => 31100106
  | .uninstallFileNotExists => 31100107
  | .uninstallRemoveFail => 31100108
  | .uninstallFail => 31100109
  | .systemError => 31100110
  | .dataMigrationing => 31100111
  | .scopeFontNotFound => 31100112
  | .scopeFontRepeatedRegister => 31100113
  | .scopeFontExceedRegisterLimit => 31100114
  | .scopeFontNotRegistered => 31100115

inductive DataMigrationResultCode where
  | ok
  | notNeedDataMigration
  | getAllUserids
  | checkInstallDir
  | initTempDir
  | openSrcFile
  | copyFile
  | renameFile
  | removeSrcFile
deriving DecidableEq, Repr

namespace FontDefine

def installPathApp : Str := "/data/service/el1/public/for-all-app/fonts/".toList
def installPathPrefix : Str := "/data/service/el1/".toList
def installPathSuffix : Str := "/for-all-app/fonts/".toList
def fontConfigFile : Str := "install_fontconfig.json".toList
def tempFile : Str := "temp/".toList
def defaultMaxInstallNum : Int := 200

def appFontDirPrefix : Str := "app_".toList
def sessionFontDirPrefix : Str := "session_".toList
def fontConfigVersion7 : Str := "7.0".toList
def maxScopeFontAppNum : Int := 5
def fontScopeApp : Int := 0
def fontScopeSession : Int := 1
def fontScopeNone : Int := -1

end FontDefine
